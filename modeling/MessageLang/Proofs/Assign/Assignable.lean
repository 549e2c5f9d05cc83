import MessageLang.Assign.Checker
import MessageLang.Types.Reach
import Mathlib.Data.List.Forall2
import Mathlib.Logic.Relation

namespace MessageLang

/-- The types that comparing a type may lead to: those of its fields, its answers and its guards.
What a union was made of is never looked at. -/
def Descriptor.components (d : Descriptor) : List TypeId :=
  d.fieldTypes ++ d.symbols.map (·.2) ++ d.handlers.flatMap fun (guard, answer) => [guard, answer]

/-- A given field is for a place among the required ones: the one its number says, or the first
one that has its name. -/
def Field.IsFor (f : Field) (target : List Field) (place : Nat) : Prop :=
  match f.name.toList with
  | '?' :: position => Checking.readPosition? position = some place ∧ place < target.length
  | _ => ∃ h : place < target.length, target[place].name = f.name ∧
      ∀ earlier, ∀ h' : earlier < place,
        (getElem target earlier (Nat.lt_trans h' h)).name ≠ f.name

/-- All given fields are for different places, where their types are as related; the places left
over have defaults. -/
def FieldsFit (R : TypeId → TypeId → Prop) (target given : List Field) : Prop :=
  ∃ places : List Nat, places.Nodup ∧
    List.Forall₂ (fun f place => f.IsFor target place ∧
      ∀ wanted, target[place]? = some wanted → R wanted.type f.type) given places ∧
    ∀ place wanted, target[place]? = some wanted → place ∈ places ∨ wanted.hasDefault = true

namespace TypeTable

variable (t : TypeTable)

/-- No comparison that starts from a type comes to a wildcard. -/
def WildcardFree (id : TypeId) : Prop :=
  ∀ part, Relation.ReflTransGen (fun whole part => part ∈ (t.get whole).components) id part →
    t.isWildcard part = false

/-- Every answer of the required type has one that is as related in the given type, to the same
symbol or to a guard that is related the other way round. -/
def HandlersFit (R : TypeId → TypeId → Prop) (target source : TypeId) : Prop :=
  (t.get target).shape = .simple ∧
    (∀ wanted ∈ (t.get target).symbols,
      ∃ offered, t.answer? source wanted.1 = some offered ∧ R wanted.2 offered) ∧
    ∀ wanted ∈ (t.get target).handlers,
      ∃ offered ∈ (t.get source).handlers, R offered.1 wanted.1 ∧ R wanted.2 offered.2

/-- What a type offers fits the required fields, or those of the only one of them. -/
def CompoundFits (unwraps : Bool) (R : TypeId → TypeId → Prop) (target source : TypeId) : Prop :=
  ∃ fields, t.fields? target = some fields ∧
    (FieldsFit R fields (Checking.offeredFields t source) ∨
      unwraps = true ∧ ∃ only inner, fields = [only] ∧ t.fields? only.type = some inner ∧
        FieldsFit R inner (Checking.offeredFields t source))

/-- What one type asks of another, with their parts compared by a relation. -/
def Fits (unwraps : Bool) (R : TypeId → TypeId → Prop) (target source : TypeId) : Prop :=
  t.isNothing target = false ∧
    (t.isNothing source = true → (t.fields? target).isSome = true) ∧
    (target = source ∨ t.isAnything target = true ∨ t.isAnything source = true ∨
      t.isNever source = true ∨ t.HandlersFit R target source ∨
      t.CompoundFits unwraps R target source)

/-- The largest relation that holds only of types that fit with their parts compared by that same
relation. It is the union of all relations that do. -/
def Assignable (unwraps : Bool) (target source : TypeId) : Prop :=
  ∃ R : TypeId → TypeId → Prop, (∀ a b, R a b → t.Fits unwraps R a b) ∧ R target source

end TypeTable

section

open TypeTable

variable {t t' : TypeTable} {P : TypeId → Prop} {R S : TypeId → TypeId → Prop}

theorem TypeTable.WildcardFree.of_component {id part : TypeId} (h : t.WildcardFree id)
    (hpart : part ∈ (t.get id).components) : t.WildcardFree part :=
  fun inner hinner => h inner (.head hpart hinner)

/-- Types that lead to each other only, none of which is a wildcard. -/
theorem TypeTable.wildcardFree_of_closed
    (hclosed : ∀ id, P id → ∀ part ∈ (t.get id).components, P part)
    (hknown : ∀ id, P id → t.isWildcard id = false) {id : TypeId} (hid : P id) :
    t.WildcardFree id := by
  intro part hreach
  refine hknown part ?_
  induction hreach with
  | refl => exact hid
  | tail _ hpart ih => exact hclosed _ ih _ hpart

theorem TypeTable.fields?_eq_some_iff {id : TypeId} {fields : List Field} :
    t.fields? id = some fields ↔ (t.get id).shape = .compound fields := by
  simp only [TypeTable.fields?, Descriptor.fields?]
  split <;> simp_all

theorem TypeTable.answer_mem_components {id : TypeId} {entry : String × TypeId}
    (h : entry ∈ (t.get id).symbols) : entry.2 ∈ (t.get id).components := by
  simp only [Descriptor.components, List.mem_append, List.mem_map]
  exact .inl (.inr ⟨_, h, rfl⟩)

theorem TypeTable.handler_mem_components {id : TypeId} {handler : TypeId × TypeId}
    (h : handler ∈ (t.get id).handlers) :
    handler.1 ∈ (t.get id).components ∧ handler.2 ∈ (t.get id).components := by
  simp only [Descriptor.components, List.mem_append, List.mem_flatMap]
  exact ⟨.inr ⟨_, h, by simp⟩, .inr ⟨_, h, by simp⟩⟩

theorem TypeTable.field_mem_components {id : TypeId} {fields : List Field} {f : Field}
    (hfields : t.fields? id = some fields) (h : f ∈ fields) :
    f.type ∈ (t.get id).components := by
  have hd : (t.get id).fields? = some fields := hfields
  simp only [Descriptor.components, Descriptor.fieldTypes, List.mem_append, List.mem_map]
  exact .inl (.inl ⟨f, by simpa [hd] using h, rfl⟩)

theorem TypeTable.offered_of_closed (hclosed : ∀ id, P id → ∀ part ∈ (t.get id).components, P part)
    {source : TypeId} (hsource : P source) {f : Field}
    (hf : f ∈ Checking.offeredFields t source) : P f.type := by
  unfold Checking.offeredFields at hf
  split at hf
  · simp at hf
  · cases hfields : t.fields? source with
    | none =>
      simp only [hfields, Option.getD_none, List.mem_singleton] at hf
      exact hf ▸ hsource
    | some fields =>
      simp only [hfields, Option.getD_some] at hf
      exact hclosed source hsource _ (TypeTable.field_mem_components hfields hf)

theorem FieldsFit.mono {target given : List Field}
    (himp : ∀ wanted ∈ target, ∀ f ∈ given, R wanted.type f.type → S wanted.type f.type)
    (h : FieldsFit R target given) : FieldsFit S target given := by
  obtain ⟨places, hnodup, hfit, hrest⟩ := h
  refine ⟨places, hnodup, ?_, hrest⟩
  clear hnodup hrest
  induction hfit with
  | nil => exact .nil
  | @cons f place given places hf _ ih =>
    refine .cons ⟨hf.1, fun wanted hw => ?_⟩ (ih fun w hw f' hf' => himp w hw f' (by simp [hf']))
    exact himp wanted (List.mem_of_getElem? hw) f (by simp) (hf.2 wanted hw)

theorem TypeTable.answer?_mem_components {id answer : TypeId} {symbol : String}
    (h : t.answer? id symbol = some answer) : answer ∈ (t.get id).components := by
  obtain ⟨before, after, heq, _⟩ := List.lookup_eq_some_iff.mp h
  have hmem : (symbol, answer) ∈ (t.get id).symbols := by simp [heq]
  exact answer_mem_components hmem

/-- Types that fit do so in every table that describes all they lead to in the same way, with
their parts compared by any relation that holds where the first one does. -/
theorem TypeTable.Fits.transfer (hclosed : ∀ id, P id → ∀ part ∈ (t.get id).components, P part)
    (hsame : ∀ id, P id → t'.get id = t.get id) (himp : ∀ a b, P a → P b → R a b → S a b)
    {unwraps : Bool} {target source : TypeId} (htarget : P target) (hsource : P source)
    (h : t.Fits unwraps R target source) : t'.Fits unwraps S target source := by
  have hoffered : Checking.offeredFields t' source = Checking.offeredFields t source := by
    have hnothing : t'.isNothing source = t.isNothing source := by
      rw [isNothing, isNothing, hsame source hsource]
    have hfields : t'.fields? source = t.fields? source := by
      rw [TypeTable.fields?, TypeTable.fields?, hsame source hsource]
    rw [Checking.offeredFields, Checking.offeredFields, hnothing, hfields]
  have hfields : ∀ {id : TypeId} {fields : List Field}, P id → t.fields? id = some fields →
      FieldsFit R fields (Checking.offeredFields t source) →
        FieldsFit S fields (Checking.offeredFields t' source) := by
    intro id fields hid hf hfit
    rw [hoffered]
    refine hfit.mono fun wanted hw f hoff hr => himp _ _ ?_ ?_ hr
    · exact hclosed id hid _ (TypeTable.field_mem_components hf hw)
    · exact TypeTable.offered_of_closed hclosed hsource hoff
  obtain ⟨hnothing, hempty, hrest⟩ := h
  simp only [TypeTable.Fits, TypeTable.isNothing, TypeTable.fields?, TypeTable.isAnything,
    TypeTable.isNever, hsame target htarget, hsame source hsource]
  refine ⟨hnothing, hempty, ?_⟩
  rcases hrest with h | h | h | h | h | h
  · exact .inl h
  · exact .inr (.inl h)
  · exact .inr (.inr (.inl h))
  · exact .inr (.inr (.inr (.inl h)))
  · obtain ⟨hshape, hsymbols, hhandlers⟩ := h
    refine .inr (.inr (.inr (.inr (.inl ⟨by rwa [hsame target htarget], ?_, ?_⟩))))
    · intro wanted hw
      rw [hsame target htarget] at hw
      obtain ⟨offered, hanswer, hr⟩ := hsymbols wanted hw
      refine ⟨offered, by rwa [TypeTable.answer?, hsame source hsource], himp _ _ ?_ ?_ hr⟩
      · exact hclosed target htarget _ (TypeTable.answer_mem_components hw)
      · exact hclosed source hsource _ (TypeTable.answer?_mem_components hanswer)
    · intro wanted hw
      rw [hsame target htarget] at hw
      obtain ⟨offered, hoff, hguard, hanswer⟩ := hhandlers wanted hw
      have hwanted := TypeTable.handler_mem_components hw
      have hoffers := TypeTable.handler_mem_components hoff
      refine ⟨offered, by rwa [hsame source hsource], himp _ _ ?_ ?_ hguard, himp _ _ ?_ ?_ hanswer⟩
      · exact hclosed source hsource _ hoffers.1
      · exact hclosed target htarget _ hwanted.1
      · exact hclosed target htarget _ hwanted.2
      · exact hclosed source hsource _ hoffers.2
  · obtain ⟨fields, hf, hfit⟩ := h
    refine .inr (.inr (.inr (.inr (.inr ⟨fields, ?_, ?_⟩))))
    · rwa [TypeTable.fields?, hsame target htarget]
    · rcases hfit with hfit | ⟨hunwraps, only, inner, rfl, hinner, hfit⟩
      · exact .inl (hfields htarget hf hfit)
      · have honly : P only.type :=
          hclosed target htarget _ (TypeTable.field_mem_components hf (by simp))
        refine .inr ⟨hunwraps, only, inner, rfl, ?_, hfields honly hinner hfit⟩
        rwa [TypeTable.fields?, hsame only.type honly]

theorem TypeTable.Fits.mono {unwraps : Bool} {target source : TypeId} (himp : ∀ a b, R a b → S a b)
    (h : t.Fits unwraps R target source) : t.Fits unwraps S target source :=
  Fits.transfer (P := fun _ => True) (fun _ _ _ _ => trivial) (fun _ _ => rfl)
    (fun a b _ _ => himp a b) trivial trivial h

theorem TypeTable.Assignable.fits {unwraps : Bool} {target source : TypeId}
    (h : t.Assignable unwraps target source) :
    t.Fits unwraps (t.Assignable unwraps) target source := by
  obtain ⟨R, hclosed, hr⟩ := h
  exact (hclosed _ _ hr).mono fun a b hab => ⟨R, hclosed, hab⟩

/-- A relation is part of the largest one when its types fit with parts that are related by it or
are known to be assignable. -/
theorem TypeTable.Assignable.of_closed {unwraps : Bool}
    (hclosed : ∀ a b, R a b → t.Fits unwraps (fun x y => R x y ∨ t.Assignable unwraps x y) a b)
    {target source : TypeId} (h : R target source) : t.Assignable unwraps target source := by
  refine ⟨fun x y => R x y ∨ t.Assignable unwraps x y, ?_, .inl h⟩
  rintro a b (hr | ha)
  · exact hclosed a b hr
  · exact ha.fits.mono fun _ _ => .inr

theorem TypeTable.Assignable.of_fits {unwraps : Bool} {target source : TypeId}
    (h : t.Fits unwraps (t.Assignable unwraps) target source) :
    t.Assignable unwraps target source := by
  refine Assignable.of_closed (R := fun a b => a = target ∧ b = source) ?_ ⟨rfl, rfl⟩
  rintro a b ⟨rfl, rfl⟩
  exact h.mono fun _ _ => .inr

/-- Whether a type is assignable to another depends on nothing but what the two lead to. -/
theorem TypeTable.Assignable.transfer (hclosed : ∀ id, P id → ∀ part ∈ (t.get id).components, P part)
    (hsame : ∀ id, P id → t'.get id = t.get id) {unwraps : Bool} {target source : TypeId}
    (htarget : P target) (hsource : P source) (h : t.Assignable unwraps target source) :
    t'.Assignable unwraps target source := by
  refine ⟨fun a b => P a ∧ P b ∧ t.Assignable unwraps a b, ?_, htarget, hsource, h⟩
  rintro a b ⟨ha, hb, hab⟩
  exact Fits.transfer hclosed hsame (fun _ _ hx hy hxy => ⟨hx, hy, hxy⟩) ha hb hab.fits

end

end MessageLang
