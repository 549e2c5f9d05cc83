import MessageLang.Proofs.Assign.Ordering
import MessageLang.Proofs.Types.Speaking
import Mathlib.Data.String.Basic

namespace MessageLang

open Checking Checker

/-- What a type answers is listed in the order of the symbols. -/
def Descriptor.InOrder (d : Descriptor) : Prop := d.symbols.Pairwise fun x y => x.1 < y.1

/-- All unions that were made have no fields and answer in order. -/
def TypeTable.UnionsInOrder (t : TypeTable) : Prop :=
  ∀ parts union, t.unions.lookup parts = some union →
    (t.get union).shape = .simple ∧ (t.get union).InOrder

/-- A type leads to no wildcard, and to no type that takes nothing. -/
def TypeTable.Definite (t : TypeTable) (id : TypeId) : Prop :=
  ∀ part, t.Leads id part → t.isNothing part = false ∧ t.isWildcard part = false

/-- The types for all values and for none, as they are built in, answer nothing. -/
structure TypeTable.HasBounds (t : TypeTable) : Prop where
  anything_shape : (t.get .anything).shape = .anything
  never_shape : (t.get .never).shape = .never
  anything_components : (t.get .anything).components = []
  never_components : (t.get .never).components = []

/-- A type answers all that any of several alternatives answers, each symbol with something that is
related to their answers to it. Nothing is asked of a type for all values or for none, nor if one of
the alternatives is for all values. If there is only one alternative, it has to take the type. -/
def TypeTable.AnswersAll (t : TypeTable) (unwraps : Bool) (R : List TypeId → TypeId → Prop)
    (ids : List TypeId) (source : TypeId) : Prop :=
  t.isAnything source = true ∨ t.isNever source = true ∨
    (∃ part ∈ t.unionParts ids, t.isAnything part = true) ∨
    (∃ only, t.unionParts ids = [only] ∧ t.Assignable unwraps only source) ∨
    2 ≤ (t.unionParts ids).length ∧
      (∀ symbol, (∃ part ∈ t.unionParts ids, (t.answer? part symbol).isSome) →
        ∃ offered, t.answer? source symbol = some offered ∧
          R ((t.unionParts ids).filterMap (t.answer? · symbol)) offered) ∧
      ∀ part ∈ t.unionParts ids, ∀ wanted ∈ (t.get part).handlers,
        ∃ offered ∈ (t.get source).handlers, t.Assignable unwraps offered.1 wanted.1 ∧
          t.Assignable unwraps wanted.2 offered.2

/-- A type answers all that any of several alternatives answers, and its answers do so with theirs, to
any depth. This is the largest relation of that kind. -/
def TypeTable.Covers (t : TypeTable) (unwraps : Bool) (ids : List TypeId) (source : TypeId) : Prop :=
  ∃ R : List TypeId → TypeId → Prop, (∀ ids source, R ids source → t.AnswersAll unwraps R ids source) ∧
    R ids source

namespace Descriptor

variable {symbol : String} {answer : TypeId} {symbols : List (String × TypeId)} {d : Descriptor}

theorem pairwise_insertSymbol (h : symbols.Pairwise fun x y => x.1 < y.1) :
    (insertSymbol symbol answer symbols).Pairwise fun x y => x.1 < y.1 := by
  induction symbols with
  | nil => exact List.pairwise_singleton _ _
  | cons entry rest ih =>
    obtain ⟨hentry, hrest⟩ := List.pairwise_cons.mp h
    unfold insertSymbol
    split
    · next hlt =>
      refine List.pairwise_cons.mpr ⟨List.forall_mem_cons.mpr ⟨hlt, fun other hother => ?_⟩, h⟩
      exact hlt.trans (hentry other hother)
    · next hnot =>
      split
      · next heq => exact List.pairwise_cons.mpr ⟨heq ▸ hentry, hrest⟩
      · next hne =>
        refine List.pairwise_cons.mpr ⟨fun other hother => ?_, ih hrest⟩
        rcases mem_insertSymbol hother with rfl | hother
        · exact lt_of_le_of_ne (not_lt.mp hnot) (Ne.symm hne)
        · exact hentry other hother

theorem InOrder.nodup (h : d.InOrder) : (d.symbols.map Prod.fst).Nodup :=
  List.pairwise_map.mpr (h.imp fun hlt => ne_of_lt hlt)

end Descriptor

namespace TypeTable

variable {t t' : TypeTable} {ids parts : List TypeId} {union id : TypeId}

theorem UnionsInOrder.enter (h : t.UnionsInOrder) (parts : List TypeId) :
    (t.enterUnion parts).UnionsInOrder := by
  intro other union hunion
  have hget : (t.enterUnion parts).get union = t.get union ∨
      (t.enterUnion parts).get union = { variants := parts } := get_push t { variants := parts } union
  rcases hget with heq | heq
  · rcases lookup_cons_eq_some_iff.mp hunion with ⟨-, rfl⟩ | ⟨-, hunion⟩
    · rw [get_enterUnion]
      exact ⟨rfl, List.Pairwise.nil⟩
    · rw [heq]
      exact h other union hunion
  · rw [heq]
    exact ⟨rfl, List.Pairwise.nil⟩

theorem UnionsInOrder.update (h : t.UnionsInOrder) {change : Descriptor → Descriptor}
    (hshape : (change (t.get id)).shape = (t.get id).shape)
    (horder : (t.get id).InOrder → (change (t.get id)).InOrder) : (t.update id change).UnionsInOrder := by
  intro parts union hunion
  obtain ⟨hsimple, hinOrder⟩ := h parts union hunion
  by_cases heq : union = id
  · subst heq
    by_cases hlt : union.index < t.size
    · rw [get_update_self t change hlt]
      exact ⟨hshape.trans hsimple, horder hinOrder⟩
    · rw [get_eq_default_of_le (by rw [size_update]; omega)]
      exact ⟨rfl, List.Pairwise.nil⟩
  · rw [get_update_of_ne t change heq]
    exact ⟨hsimple, hinOrder⟩

theorem UnionsInOrder.unionWithin_after (levels : Nat) (ids : List TypeId) (h : t.UnionsInOrder) :
    After (Tabling.unionWithin levels ids) t fun _ t' => t'.UnionsInOrder := by
  induction levels generalizing ids t with
  | zero => exact after_throw
  | succ levels ih =>
    rw [Tabling.unionWithin_succ, after_bind_iff, after_get_iff]
    split
    · exact after_pure_iff.mpr h
    generalize t.unionParts ids = parts
    simp only [Tabling.makeUnion, Tabling.push, Tabling.update, Tabling.addSymbol, after_bind_iff,
      after_modifyGet_iff, after_modify_iff, after_pure_iff]
    let inv (told : List (String × List TypeId)) (s : TypeTable) : Prop := s.UnionsInOrder
    have hinv : inv [] (t.enterUnion parts) := h.enter parts
    refine (after_forIn inv (fun told entry hentry s hs => ?_) hinv).mono fun _ s hs => ?_
    · simp only [after_bind_iff, after_modify_iff, after_pure_iff]
      refine (ih entry.2 hs).mono fun answer s' hs' => ⟨trivial, ?_⟩
      exact UnionsInOrder.update hs' rfl Descriptor.pairwise_insertSymbol
    · exact UnionsInOrder.update hs rfl fun hinOrder => hinOrder

theorem UnionsInOrder.union_after (h : t.UnionsInOrder) (ids : List TypeId) :
    After (Tabling.union ids) t fun _ t' => t'.UnionsInOrder := by
  rw [Tabling.union, after_bind_iff, after_get_iff]
  exact h.unionWithin_after _ ids

theorem Reached.unionsInOrder (h : t.Reached) : t.UnionsInOrder := by
  induction h with
  | start _ _ hnone =>
    intro parts union hunion
    simp [hnone] at hunion
  | develop h hdevelops ih =>
    intro parts union hunion
    rw [hdevelops.unions_eq] at hunion
    have htakes : TakesPart _ union := ⟨parts, union, hunion, .inl rfl⟩
    have hlt := h.uniting.2.lt_of_takesPart htakes
    rw [Descriptor.InOrder, hdevelops.shape_eq union hlt, hdevelops.symbols_eq union htakes]
    exact ih parts union hunion
  | unite _ _ hrun ih => exact ih.union_after _ _ _ hrun

/-- What uniting types comes to: one of the bounds, the only type, or one that says what all of them
say, in order. -/
theorem Reached.united_cases (h : t.Reached) (hunited : t.united? ids = some union) :
    ((∃ part ∈ t.unionParts ids, t.isAnything part = true) ∧ union = .anything) ∨
      (t.unionParts ids = [] ∧ union = .never) ∨ t.unionParts ids = [union] ∨
      (∀ part ∈ t.unionParts ids, t.isAnything part = false) ∧ 2 ≤ (t.unionParts ids).length ∧
        t.Speaks (t.unionParts ids) union ∧ (t.get union).shape = .simple ∧ (t.get union).InOrder := by
  rcases united?_cases t ids with ⟨hany, heq⟩ | ⟨hnil, heq⟩ | ⟨only, hone, heq⟩ | ⟨hany, htwo, heq⟩ <;>
    rw [hunited] at heq
  · exact .inl ⟨hany, Option.some.inj heq⟩
  · exact .inr (.inl ⟨hnil, Option.some.inj heq⟩)
  · exact .inr (.inr (.inl (Option.some.inj heq ▸ hone)))
  · exact .inr (.inr (.inr ⟨hany, htwo, h.uniting.2.speaks _ union heq.symm List.not_mem_nil,
      h.unionsInOrder _ union heq.symm⟩))

section

variable {unwraps : Bool} {R : TypeId → TypeId → Prop} {target source part answer : TypeId}
  {symbol : String}

theorem Definite.of_part (h : t.Definite id) (hpart : part ∈ (t.get id).parts) : t.Definite part :=
  fun inner hinner => h inner (.head hpart hinner)

theorem Definite.of_component (h : t.Definite id) (hpart : part ∈ (t.get id).components) :
    t.Definite part := h.of_part (Descriptor.components_subset_parts _ hpart)

theorem Definite.wildcardFree (h : t.Definite id) : t.WildcardFree id :=
  wildcardFree_of_closed (fun _ hid _ hpart => hid.of_component hpart) (fun _ hid => (hid _ .refl).2) h

theorem Definite.of_mem_unionParts (h : ∀ id ∈ ids, t.Definite id) (hpart : part ∈ t.unionParts ids) :
    t.Definite part := by
  obtain ⟨⟨id, hid, halternative⟩, -⟩ := mem_unionParts.mp hpart
  by_cases hnil : (t.get id).variants = []
  · rw [alternatives_of_variants_nil hnil] at halternative
    exact List.mem_singleton.mp halternative ▸ h id hid
  · rw [alternatives_of_variants_ne_nil hnil] at halternative
    exact (h id hid).of_part (Descriptor.mem_parts_iff.mpr (.inr (.inr (.inr halternative))))

theorem Definite.of_mem_answers (h : ∀ id ∈ ids, t.Definite id) :
    ∀ answer ∈ (t.unionParts ids).filterMap (t.answer? · symbol), t.Definite answer := by
  intro answer hmem
  obtain ⟨part, hpart, hanswer⟩ := List.mem_filterMap.mp hmem
  exact (Definite.of_mem_unionParts h hpart).of_component (answer?_mem_components hanswer)

theorem Extends.definite (h : t.Extends t') (hclosed : t.Closed) (hid : id.index < t.size)
    (hdefinite : t.Definite id) : t'.Definite id := by
  intro part hpart
  have hleads := (h.leads_iff hclosed hid).mp hpart
  rw [isNothing, isWildcard, h.get_eq part (hclosed.lt_of_leads hid hleads)]
  exact hdefinite part hleads

theorem HasBounds.extend (h : t.HasBounds) (hmore : t.Extends t')
    (hbuiltins : TypeId.array.index < t.size) : t'.HasBounds := by
  have hanything := hmore.get_eq .anything (lt_of_le_of_lt (by decide) hbuiltins)
  have hnever := hmore.get_eq .never (lt_of_le_of_lt (by decide) hbuiltins)
  constructor
  case anything_shape => rw [hanything, h.anything_shape]
  case never_shape => rw [hnever, h.never_shape]
  case anything_components => rw [hanything, h.anything_components]
  case never_components => rw [hnever, h.never_components]

/-- Answers that are listed in order are the ones that are found. -/
theorem answer?_eq_some_iff (h : (t.get id).InOrder) :
    t.answer? id symbol = some answer ↔ (symbol, answer) ∈ (t.get id).symbols :=
  ⟨mem_of_lookup_eq_some, lookup_eq_some_of_mem h.nodup⟩

/-- All that a type answers is answered by another one, symbol by symbol. -/
theorem handlersFit_iff (h : (t.get target).InOrder) : t.HandlersFit R target source ↔
    (t.get target).shape = .simple ∧
      (∀ symbol answer, t.answer? target symbol = some answer →
        ∃ offered, t.answer? source symbol = some offered ∧ R answer offered) ∧
      ∀ wanted ∈ (t.get target).handlers,
        ∃ offered ∈ (t.get source).handlers, R offered.1 wanted.1 ∧ R wanted.2 offered.2 := by
  refine and_congr_right fun _ => and_congr_left fun _ => ?_
  constructor
  · intro hall symbol answer hanswer
    exact hall (symbol, answer) (mem_of_lookup_eq_some hanswer)
  · rintro hall ⟨symbol, answer⟩ hmem
    exact hall symbol answer ((answer?_eq_some_iff h).mpr hmem)

/-- A type answers all that it answers itself. -/
theorem handlersFit_self (h : (t.get id).InOrder) (hshape : (t.get id).shape = .simple)
    (hdefinite : t.Definite id) : t.HandlersFit (t.Assignable unwraps) id id := by
  have hpart : ∀ part ∈ (t.get id).components, t.Assignable unwraps part part := fun part hpart =>
    .refl ((hdefinite.of_component hpart) part .refl).1
  refine (handlersFit_iff h).mpr ⟨hshape, fun symbol answer hanswer => ?_, fun wanted hwanted => ?_⟩
  · exact ⟨answer, hanswer, hpart answer (answer?_mem_components hanswer)⟩
  · have hmem := handler_mem_components hwanted
    exact ⟨wanted, hwanted, hpart _ hmem.1, hpart _ hmem.2⟩

/-- A union handles what one of its alternatives handles. -/
theorem Speaks.handler_mem_iff (h : t.Speaks parts union) {handler : TypeId × TypeId} :
    handler ∈ (t.get union).handlers ↔ ∃ part ∈ parts, handler ∈ (t.get part).handlers := by
  rw [h.handlers_eq, List.mem_eraseDups, List.mem_flatMap]

theorem Speaks.exists_united?_eq (h : t.Speaks parts union)
    (hsome : ∃ part ∈ parts, (t.answer? part symbol).isSome) :
    ∃ answer, t.answer? union symbol = some answer ∧
      t.united? (parts.filterMap (t.answer? · symbol)) = some answer := by
  obtain ⟨answer, hanswer⟩ := Option.isSome_iff_exists.mp ((h.isSome_answer?_iff symbol).mpr hsome)
  exact ⟨answer, hanswer, h.united?_eq symbol answer hanswer⟩

/-- To answer all that a union answers is to answer all that its alternatives answer, each symbol with
something that is related to the union of their answers. -/
theorem Speaks.handlersFit_iff (h : t.Speaks parts union) (hshape : (t.get union).shape = .simple)
    (hinOrder : (t.get union).InOrder) : t.HandlersFit R union source ↔
      (∀ symbol, (∃ part ∈ parts, (t.answer? part symbol).isSome) →
        ∃ offered, t.answer? source symbol = some offered ∧
          ∃ answer, t.united? (parts.filterMap (t.answer? · symbol)) = some answer ∧ R answer offered) ∧
      ∀ part ∈ parts, ∀ wanted ∈ (t.get part).handlers,
        ∃ offered ∈ (t.get source).handlers, R offered.1 wanted.1 ∧ R wanted.2 offered.2 := by
  rw [TypeTable.handlersFit_iff hinOrder, and_iff_right hshape]
  refine and_congr ⟨fun hall symbol hsome => ?_, fun hall symbol answer hanswer => ?_⟩
    ⟨fun hall part hpart wanted hwanted => ?_, fun hall wanted hmem => ?_⟩
  · obtain ⟨answer, hanswer, hunited⟩ := h.exists_united?_eq hsome
    obtain ⟨offered, hoffered, hr⟩ := hall symbol answer hanswer
    exact ⟨offered, hoffered, answer, hunited, hr⟩
  · obtain ⟨offered, hoffered, answer', hunited, hr⟩ :=
      hall symbol ((h.isSome_answer?_iff symbol).mp (Option.isSome_of_eq_some hanswer))
    cases (h.united?_eq symbol answer hanswer).symm.trans hunited
    exact ⟨offered, hoffered, hr⟩
  · exact hall wanted (h.handler_mem_iff.mpr ⟨part, hpart, hwanted⟩)
  · obtain ⟨part, hpart, hwanted⟩ := h.handler_mem_iff.mp hmem
    exact hall part hpart wanted hwanted

/-- A type that has no fields and is not for all values is fitted only by itself, by what is for all
values or for none, and by what answers all that it answers. -/
theorem Fits.of_simple (hshape : (t.get target).shape = .simple)
    (hfits : t.Fits unwraps R target source) : target = source ∨ t.isAnything source = true ∨
      t.isNever source = true ∨ t.HandlersFit R target source := by
  obtain ⟨-, -, heq | hany | hany | hnever | hfit | ⟨fields, hfields, -⟩⟩ := hfits
  · exact .inl heq
  · simp [isAnything, hshape] at hany
  · exact .inr (.inl hany)
  · exact .inr (.inr (.inl hnever))
  · exact .inr (.inr (.inr hfit))
  · rw [fields?_eq_some_iff, hshape] at hfields
    cases hfields

/-- What a union of types comes to that all lead to no wildcard, and to no type that takes nothing, is
neither of these. -/
theorem Reached.union_known (h : t.Reached) (hbounds : t.HasBounds)
    (hunited : t.united? ids = some union) (hids : ∀ id ∈ ids, t.Definite id) :
    t.isNothing union = false ∧ t.isWildcard union = false := by
  rcases h.united_cases hunited with ⟨-, rfl⟩ | ⟨-, rfl⟩ | hone | ⟨-, -, -, hshape, -⟩
  · simp [isNothing, isWildcard, hbounds.anything_shape]
  · simp [isNothing, isWildcard, hbounds.never_shape]
  · have hunion : union ∈ t.unionParts ids := hone ▸ List.mem_singleton_self union
    exact Definite.of_mem_unionParts hids hunion union .refl
  · simp [isNothing, isWildcard, hshape]

/-- The type for no values takes only what takes or gives all, or is never there. -/
theorem HasBounds.of_fits_never (h : t.HasBounds) (hfits : t.Fits unwraps R .never source) :
    t.isAnything source = true ∨ t.isNever source = true := by
  obtain ⟨-, -, rfl | hany | hany | hnever | hfit | ⟨fields, hfields, -⟩⟩ := hfits
  · exact .inr (by simp [isNever, h.never_shape])
  · simp [isAnything, h.never_shape] at hany
  · exact .inl hany
  · exact .inr hnever
  · cases hfit.1.symm.trans h.never_shape
  · rw [fields?_eq_some_iff, h.never_shape] at hfields
    cases hfields

/-- What is assignable to a union answers all that the alternatives answer. -/
theorem Reached.covers_of_assignable (h : t.Reached) (hbounds : t.HasBounds)
    (hunited : t.united? ids = some union) (hids : ∀ id ∈ ids, t.Definite id)
    (hsource : t.Definite source) (hassignable : t.Assignable unwraps union source) :
    t.Covers unwraps ids source := by
  refine ⟨fun ids source => ∃ union, t.united? ids = some union ∧ (∀ id ∈ ids, t.Definite id) ∧
    t.Definite source ∧ t.Assignable unwraps union source, ?_, union, hunited, hids, hsource, hassignable⟩
  clear! ids source
  rintro ids source ⟨union, hunited, hids, hsource, hassignable⟩
  rcases h.united_cases hunited with ⟨hany, -⟩ | ⟨-, rfl⟩ | hone |
    ⟨-, htwo, hspeaks, hshape, hinOrder⟩
  · exact .inr (.inr (.inl hany))
  · exact (hbounds.of_fits_never hassignable.fits).imp_right .inl
  · exact .inr (.inr (.inr (.inl ⟨union, hone, hassignable⟩)))
  have hfit : t.isAnything source = true ∨ t.isNever source = true ∨
      t.HandlersFit (t.Assignable unwraps) union source := by
    rcases hassignable.fits.of_simple hshape with rfl | hfit
    · exact .inr (.inr (handlersFit_self hinOrder hshape hsource))
    · exact hfit
  rcases hfit with hany | hnever | hfit
  · exact .inl hany
  · exact .inr (.inl hnever)
  obtain ⟨hsymbols, hhandlers⟩ := (hspeaks.handlersFit_iff hshape hinOrder).mp hfit
  refine .inr (.inr (.inr (.inr ⟨htwo, fun symbol hsome => ?_, hhandlers⟩)))
  obtain ⟨offered, hoffered, answer, hanswer, hr⟩ := hsymbols symbol hsome
  exact ⟨offered, hoffered, answer, hanswer, Definite.of_mem_answers hids,
    hsource.of_component (answer?_mem_components hoffered), hr⟩

/-- What answers all that the alternatives answer is assignable to their union. -/
theorem Reached.assignable_of_covers (h : t.Reached) (hbounds : t.HasBounds)
    (hunited : t.united? ids = some union) (hids : ∀ id ∈ ids, t.Definite id)
    (hsource : t.Definite source) (hcovers : t.Covers unwraps ids source) :
    t.Assignable unwraps union source := by
  obtain ⟨R, hR, hr⟩ := hcovers
  -- only the answers of unions lead on here, the guards are assignable as they are
  apply Assignable.of_closed (R := fun union source => ∃ ids, t.united? ids = some union ∧
    (∀ id ∈ ids, t.Definite id) ∧ t.Definite source ∧ R ids source)
  case h => exact ⟨ids, hunited, hids, hsource, hr⟩
  clear! ids source union
  rintro union source ⟨ids, hunited, hids, hsource, hr⟩
  refine ⟨(h.union_known hbounds hunited hids).1, fun hnothing => ?_, ?_⟩
  · rw [(hsource source .refl).1] at hnothing
    cases hnothing
  rcases hR ids source hr with hany | hnever | hasked
  · exact .inr (.inr (.inl hany))
  · exact .inr (.inr (.inr (.inl hnever)))
  rcases h.united_cases hunited with ⟨-, rfl⟩ | ⟨hnil, rfl⟩ | hone |
    ⟨hnone, htwo, hspeaks, hshape, hinOrder⟩
  · exact .inr (.inl (by simp [isAnything, hbounds.anything_shape]))
  · simp [hnil] at hasked
  · rcases hasked with ⟨part, hpart, hany⟩ | ⟨only, honly, hassignable⟩ | ⟨htwo, -⟩
    · rw [hone, List.mem_singleton] at hpart
      exact .inr (.inl (hpart ▸ hany))
    · obtain rfl : only = union := by simpa [hone] using honly.symm
      exact (hassignable.fits.mono fun _ _ => .inr).2.2
    · simp [hone] at htwo
  · rcases hasked with ⟨part, hpart, hany⟩ | ⟨only, hone, -⟩ | ⟨-, hsymbols, hhandlers⟩
    · rw [hnone part hpart] at hany
      cases hany
    · simp [hone] at htwo
    refine .inr (.inr (.inr (.inr (.inl ((hspeaks.handlersFit_iff hshape hinOrder).mpr
      ⟨fun symbol hsome => ?_, fun part hpart wanted hwanted => ?_⟩)))))
    · obtain ⟨offered, hoffered, hr'⟩ := hsymbols symbol hsome
      obtain ⟨answer, -, hanswer⟩ := hspeaks.exists_united?_eq hsome
      exact ⟨offered, hoffered, answer, hanswer, .inl ⟨_, hanswer, Definite.of_mem_answers hids,
        hsource.of_component (answer?_mem_components hoffered), hr'⟩⟩
    · obtain ⟨offered, hoffered, hguard, hgiven⟩ := hhandlers part hpart wanted hwanted
      exact ⟨offered, hoffered, .inr hguard, .inr hgiven⟩

theorem AnswersAll.mono {R S : List TypeId → TypeId → Prop} (h : t.AnswersAll unwraps R ids source)
    (himp : ∀ symbol offered, t.answer? source symbol = some offered →
      R ((t.unionParts ids).filterMap (t.answer? · symbol)) offered →
        S ((t.unionParts ids).filterMap (t.answer? · symbol)) offered) :
    t.AnswersAll unwraps S ids source := by
  rcases h with h | h | h | h | ⟨htwo, hsymbols, hhandlers⟩
  · exact .inl h
  · exact .inr (.inl h)
  · exact .inr (.inr (.inl h))
  · exact .inr (.inr (.inr (.inl h)))
  · refine .inr (.inr (.inr (.inr ⟨htwo, fun symbol hsome => ?_, hhandlers⟩)))
    obtain ⟨offered, hoffered, hr⟩ := hsymbols symbol hsome
    exact ⟨offered, hoffered, himp symbol offered hoffered hr⟩

/-- What alternatives ask for does not change when there are more types. -/
theorem Extends.answersAll_iff {R : List TypeId → TypeId → Prop} (h : t.Extends t')
    (hclosed : t.Closed) (hids : ∀ id ∈ ids, id.index < t.size) (hsource : source.index < t.size) :
    t'.AnswersAll unwraps R ids source ↔ t.AnswersAll unwraps R ids source := by
  have hparts := h.retains.unionParts_eq hclosed hids
  have hpart_lt := unionParts_lt hclosed (.refl t) hids
  have hget : ∀ part ∈ t.unionParts ids, t'.get part = t.get part :=
    fun part hpart => h.get_eq part (hpart_lt part hpart)
  have hanswer : ∀ part ∈ t.unionParts ids, ∀ symbol, t'.answer? part symbol = t.answer? part symbol :=
    fun part hpart symbol => by rw [answer?, answer?, hget part hpart]
  have hsame : t'.get source = t.get source := h.get_eq source hsource
  rw [AnswersAll, AnswersAll, hparts, isAnything, isAnything, isNever,
    isNever, hsame]
  refine or_congr_right (or_congr_right (or_congr ?_ (or_congr ?_ (and_congr_right fun _ =>
    and_congr ?_ ?_))))
  · refine exists_congr fun part => and_congr_right fun hpart => ?_
    rw [isAnything, isAnything, hget part hpart]
  · refine exists_congr fun only => and_congr_right fun hone => h.assignable_iff hclosed ?_ hsource
    exact hpart_lt only (hone ▸ List.mem_singleton_self only)
  · refine forall_congr' fun symbol => ?_
    rw [answer?, answer?, hsame, List.filterMap_congr fun part hpart => hanswer part hpart symbol]
    refine imp_congr_left (exists_congr fun part => and_congr_right fun hpart => ?_)
    rw [hanswer part hpart]
  · refine forall_congr' fun part => forall_congr' fun hpart => ?_
    rw [hget part hpart]
    refine forall_congr' fun wanted => forall_congr' fun hwanted => exists_congr fun offered =>
      and_congr_right fun hoffered => ?_
    have hwanted_lt := hclosed.handler_lt hwanted
    have hoffered_lt := hclosed.handler_lt hoffered
    rw [h.assignable_iff hclosed hoffered_lt.1 hwanted_lt.1,
      h.assignable_iff hclosed hwanted_lt.2 hoffered_lt.2]

theorem Extends.covers_iff (h : t.Extends t') (hclosed : t.Closed)
    (hids : ∀ id ∈ ids, id.index < t.size) (hsource : source.index < t.size) :
    t'.Covers unwraps ids source ↔ t.Covers unwraps ids source := by
  -- the tables agree on the types that the smaller one has, and these are all that is asked about
  let known (R : List TypeId → TypeId → Prop) (ids : List TypeId) (source : TypeId) : Prop :=
    (∀ id ∈ ids, id.index < t.size) ∧ source.index < t.size ∧ R ids source
  have hknown : ∀ {R ids source}, (∀ id ∈ ids, id.index < t.size) → source.index < t.size →
      t.AnswersAll unwraps R ids source → t.AnswersAll unwraps (known R) ids source := by
    intro R ids source hids hsource hall
    refine hall.mono fun symbol offered hoffered hr => ⟨answers_lt hclosed symbol, ?_, hr⟩
    exact hclosed.answer_lt hoffered
  constructor
  · rintro ⟨R, hR, hr⟩
    refine ⟨known R, ?_, hids, hsource, hr⟩
    rintro ids source ⟨hids, hsource, hr⟩
    exact hknown hids hsource ((h.answersAll_iff hclosed hids hsource).mp (hR ids source hr))
  · rintro ⟨R, hR, hr⟩
    refine ⟨known R, ?_, hids, hsource, hr⟩
    rintro ids source ⟨hids, hsource, hr⟩
    exact (h.answersAll_iff hclosed hids hsource).mpr (hknown hids hsource (hR ids source hr))

/-- What a comparison comes to from a type without fields are its answers and its guards. -/
theorem mem_components_of_simple (hshape : (t.get id).shape = .simple)
    (hpart : part ∈ (t.get id).components) : (∃ symbol, (symbol, part) ∈ (t.get id).symbols) ∨
      ∃ handler ∈ (t.get id).handlers, part = handler.1 ∨ part = handler.2 := by
  simpa [Descriptor.components, Descriptor.fieldTypes, Descriptor.fields?, hshape] using hpart

/-- From a union of types that lead to no wildcard a comparison comes to none. -/
theorem Reached.wildcardFree_union (h : t.Reached) (hbounds : t.HasBounds)
    (hunited : t.united? ids = some union) (hids : ∀ id ∈ ids, t.Definite id) :
    t.WildcardFree union := by
  -- an answer of a union is again a union, of answers of its alternatives
  let known (x : TypeId) : Prop := t.Definite x ∨
    ∃ ids, t.united? ids = some x ∧ ∀ id ∈ ids, t.Definite id
  apply wildcardFree_of_closed (P := known)
  case hid => exact .inr ⟨ids, hunited, hids⟩
  case hclosed =>
    rintro x (hx | ⟨ids, hunited, hids⟩) part hpart
    · exact .inl (hx.of_component hpart)
    rcases h.united_cases hunited with ⟨-, rfl⟩ | ⟨-, rfl⟩ | hone | ⟨-, -, hspeaks, hshape, hinOrder⟩
    · simp [hbounds.anything_components] at hpart
    · simp [hbounds.never_components] at hpart
    · have hx : x ∈ t.unionParts ids := hone ▸ List.mem_singleton_self x
      exact .inl ((Definite.of_mem_unionParts hids hx).of_component hpart)
    · rcases mem_components_of_simple hshape hpart with ⟨symbol, hanswer⟩ | ⟨handler, hhandler, hpart⟩
      · have hanswer := hspeaks.united?_eq symbol part ((answer?_eq_some_iff hinOrder).mpr hanswer)
        exact .inr ⟨_, hanswer, Definite.of_mem_answers hids⟩
      · obtain ⟨whole, hwhole, hhandler⟩ := hspeaks.handler_mem_iff.mp hhandler
        have hmem := handler_mem_components hhandler
        have hdefinite := Definite.of_mem_unionParts hids hwhole
        rcases hpart with rfl | rfl
        · exact .inl (hdefinite.of_component hmem.1)
        · exact .inl (hdefinite.of_component hmem.2)
  case hknown =>
    rintro x (hx | ⟨ids, hunited, hids⟩)
    · exact (hx x .refl).2
    · exact (h.union_known hbounds hunited hids).2

end

/-- A union takes those of its alternatives that answer all that any of the alternatives answers, to any
depth, and no others. So a union of types that answer different things takes none of them. At any time
after the union was made every alternative is compared with it to an end. -/
theorem Reached.union_admits_iff (h : t.Reached) (hbounds : t.HasBounds)
    (hlt : ∀ id ∈ ids, id.index < t.size) (hids : ∀ id ∈ ids, t.Definite id) :
    ∃ union t', Tabling.union ids t = .ok (union, t') ∧ t.Extends t' ∧ t'.Closed ∧
      ∀ s, Session.Reached t' s → ∀ id ∈ ids, ∃ verdict c,
        canAssign t' union id s.checker = .ok (verdict, c) ∧
          (verdict = true ↔ t.Covers s.checker.unwrapsSingleField ids id) := by
  obtain ⟨hbuiltins, huniting⟩ := h.uniting
  have hclosed := huniting.closed
  obtain ⟨union, t', hrun, huniting', hadds, hunited⟩ :=
    ends_iff.mp (huniting.union_ends hbuiltins hlt)
  refine ⟨union, t', hrun, hadds.grows, huniting'.closed, fun s hs id hid => ?_⟩
  have hreached : t'.Reached := h.unite hlt hrun
  have hbounds' := hbounds.extend hadds.grows hbuiltins
  have hlt' : ∀ id ∈ ids, id.index < t'.size := fun id hid => hadds.grows.lt (hlt id hid)
  have hids' : ∀ id ∈ ids, t'.Definite id := fun id hid =>
    hadds.grows.definite hclosed (hlt id hid) (hids id hid)
  have hunion_lt := huniting'.lt_of_united?_eq_some (hadds.grows.lt hbuiltins) hlt' hunited
  have hfree := hreached.wildcardFree_union hbounds' hunited hids'
  obtain ⟨verdict, c, hrun', hadmits⟩ := hs.decides hunion_lt (hlt' id hid)
  refine ⟨verdict, c, hrun', ?_⟩
  rw [hadmits, hs.admits_iff hunion_lt (hlt' id hid) hfree (hids' id hid).wildcardFree,
    ← hadds.grows.covers_iff hclosed hlt (hlt id hid)]
  exact ⟨hreached.covers_of_assignable hbounds' hunited hids' (hids' id hid),
    hreached.assignable_of_covers hbounds' hunited hids' (hids' id hid)⟩

theorem definite_of_closed {P : TypeId → Prop} (hclosed : ∀ id, P id → ∀ part ∈ (t.get id).parts, P part)
    (hknown : ∀ id, P id → t.isNothing id = false ∧ t.isWildcard id = false) (hid : P id) :
    t.Definite id := by
  intro part hleads
  refine hknown part ?_
  induction hleads with
  | refl => exact hid
  | tail _ hpart ih => exact hclosed _ ih _ hpart

/-- Lists that go on and take numbers, and such lists that have an item as well. -/
def itemLists : TypeTable :=
  let t := ((initial.push {}).2.push {}).2
  let t := t.update ⟨18⟩ fun d => { d with
    symbols := [("next", ⟨18⟩)]
    handlers := [(.number, ⟨18⟩)] }
  t.update ⟨19⟩ fun d => { d with
    symbols := [("item", .number), ("next", ⟨19⟩)]
    handlers := [(.number, ⟨19⟩)] }

/-- The union of both kinds takes the lists that have items, and not the others. -/
theorem union_admits_iff_itemLists :
    itemLists.Reached ∧ itemLists.HasBounds ∧ (∀ id ∈ [⟨18⟩, ⟨19⟩], itemLists.Definite id) ∧
      (Tabling.union [⟨18⟩, ⟨19⟩] itemLists).map (fun made =>
        ((canAssign made.2 made.1 ⟨19⟩ (.new true)).map (·.1),
          (canAssign made.2 made.1 ⟨18⟩ (.new true)).map (·.1))) = .ok (.ok true, .ok false) ∧
      itemLists.Covers true [⟨18⟩, ⟨19⟩] ⟨19⟩ ∧ ¬ itemLists.Covers true [⟨18⟩, ⟨19⟩] ⟨18⟩ := by
  have hreached : itemLists.Reached :=
    .start (closed_iff.mpr (by decide +kernel)) (by decide +kernel) (by decide +kernel)
  have hbounds : itemLists.HasBounds :=
    ⟨by decide +kernel, by decide +kernel, by decide +kernel, by decide +kernel⟩
  have hdefinite : ∀ id ∈ [⟨18⟩, ⟨19⟩], itemLists.Definite id := fun id hid =>
    definite_of_closed (P := (· ∈ [⟨4⟩, ⟨5⟩, ⟨8⟩, ⟨9⟩, ⟨10⟩] ++ [⟨18⟩, ⟨19⟩])) (by decide +kernel)
      (by decide +kernel) (List.mem_append_right _ hid)
  have hverdicts : (Tabling.union [⟨18⟩, ⟨19⟩] itemLists).map (fun made =>
      ((canAssign made.2 made.1 ⟨19⟩ (.new true)).map (·.1),
        (canAssign made.2 made.1 ⟨18⟩ (.new true)).map (·.1))) = .ok (.ok true, .ok false) := by
    decide +kernel
  refine ⟨hreached, hbounds, hdefinite, hverdicts, ?_⟩
  obtain ⟨union, t', hrun, -, hclosed, hall⟩ :=
    hreached.union_admits_iff hbounds (by decide +kernel) hdefinite
  have hiff := hall ⟨.new true, []⟩ (.start hclosed true)
  obtain ⟨verdict, c, hrun₁, hcovers⟩ := hiff ⟨19⟩ (by decide)
  obtain ⟨verdict', c', hrun₂, hcovers'⟩ := hiff ⟨18⟩ (by decide)
  simp only [hrun, Except.map, hrun₁, hrun₂, Except.ok.injEq, Prod.mk.injEq] at hverdicts
  exact ⟨hcovers.mp hverdicts.1, fun h => by simp [hcovers'.mpr h] at hverdicts⟩

/-- The union of numbers and strings takes neither numbers nor strings. -/
theorem union_refuses_numberAndString :
    (∀ id ∈ [TypeId.number, .string], initial.Definite id) ∧
      ∃ union t', Tabling.union [.number, .string] initial = .ok (union, t') ∧
        ∀ unwraps, ∀ id ∈ [TypeId.number, .string], ¬ (Checker.new unwraps).Admits t' union id := by
  have hverdicts : ∀ unwraps, ∀ id ∈ [TypeId.number, .string],
      (Tabling.union [.number, .string] initial).map (fun made =>
        (canAssign made.2 made.1 id (.new unwraps)).map (·.1)) = .ok (.ok false) := by
    decide +kernel
  refine ⟨fun id hid => definite_of_closed (P := (· ∈ [⟨4⟩, ⟨8⟩, ⟨9⟩, ⟨10⟩, ⟨11⟩, ⟨12⟩] ++
    [TypeId.number, .string])) (by decide +kernel) (by decide +kernel) (List.mem_append_right _ hid), ?_⟩
  cases hrun : Tabling.union [.number, .string] initial with
  | error fault => exact absurd (hverdicts true .number (by decide)) (by simp [hrun, Except.map])
  | ok made =>
    refine ⟨made.1, made.2, rfl, fun unwraps id hid => ?_⟩
    rintro ⟨c, hadmits⟩
    simpa [hrun, Except.map, hadmits] using hverdicts unwraps id hid

end TypeTable

end MessageLang
