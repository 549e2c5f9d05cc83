import MessageLang.Proofs.Types.Growth
import MessageLang.Types.Instance
import Mathlib.Data.Finset.Range
import Mathlib.Data.Finset.Card

namespace MessageLang

open TypeTable

/-- How many types below a bound have not been copied. -/
def openCopies (bound : Nat) (made : List (TypeId × TypeId)) : Nat :=
  ((Finset.range bound).filter fun index => made.lookup ⟨index⟩ = none).card

/-- What copying does to a table and to the copies that are known. -/
structure Copied (made : List (TypeId × TypeId)) (t : TypeTable) (made' : List (TypeId × TypeId))
    (t' : TypeTable) : Prop where
  sound : t'.Sound
  grows : t.Extends t'
  known : ∀ id, made'.lookup id = none → made.lookup id = none
  images_lt : ∀ entry ∈ made', entry.2.index < t'.size
  unions_eq : t'.unions = t.unions

variable {start t t' t'' : TypeTable} {made made' made'' : List (TypeId × TypeId)}

theorem openCopies_le (bound : Nat) (h : ∀ id, made'.lookup id = none → made.lookup id = none) :
    openCopies bound made' ≤ openCopies bound made := by
  refine Finset.card_le_card fun index hindex => ?_
  rw [Finset.mem_filter] at hindex ⊢
  exact ⟨hindex.1, h _ hindex.2⟩

/-- Entering a copy leaves one type less to copy. -/
theorem openCopies_cons_lt {bound : Nat} {id : TypeId} (hid : id.index < bound)
    (hnone : made.lookup id = none) (copy : TypeId) :
    openCopies bound ((id, copy) :: made) < openCopies bound made := by
  have hmore : ∀ other, ((id, copy) :: made).lookup other = none → made.lookup other = none := by
    intro other hother
    rw [List.lookup_cons] at hother
    split at hother
    · cases hother
    · exact hother
  refine Finset.card_lt_card ((Finset.ssubset_iff_of_subset fun index hindex => ?_).mpr ?_)
  · rw [Finset.mem_filter] at hindex ⊢
    exact ⟨hindex.1, hmore _ hindex.2⟩
  · refine ⟨id.index, ?_, ?_⟩
    · rw [Finset.mem_filter, Finset.mem_range]
      exact ⟨hid, hnone⟩
    · rw [Finset.mem_filter]
      simp

theorem openCopies_nil_le (bound : Nat) : openCopies bound [] ≤ bound := by
  refine (Finset.card_filter_le _ _).trans ?_
  rw [Finset.card_range]

theorem Copied.trans (h : Copied made t made' t') (h' : Copied made' t' made'' t'') :
    Copied made t made'' t'' :=
  ⟨h'.sound, h.grows.trans h'.grows, fun id hid => h.known id (h'.known id hid), h'.images_lt,
    h'.unions_eq.trans h.unions_eq⟩

theorem Copied.after (h : Copied made t made' t') : Copied made' t' made' t' :=
  ⟨h.sound, .refl t', fun _ h => h, h.images_lt, rfl⟩

/-- Entering an empty copy. -/
theorem Copied.enter (ht : t.Sound) (hmade : ∀ entry ∈ made, entry.2.index < t.size) (id : TypeId)
    (name : Option String) :
    Copied made t ((id, (t.push { name }).1) :: made) (t.push { name }).2 := by
  have hpush := (Extends.refl t).push { name }
  refine ⟨ht.push (fun _ hpart => nomatch hpart) rfl, hpush, fun other hother => ?_, ?_, rfl⟩
  · rw [List.lookup_cons] at hother
    split at hother
    · cases hother
    · exact hother
  · refine List.forall_mem_cons.mpr ⟨?_, fun entry hentry => hpush.lt (hmade entry hentry)⟩
    rw [size_push]
    exact Nat.lt_succ_self _

/-- Copying the types in a list one after the other, wherever they stand in the items. -/
private theorem mapM_copied {α β : Type} {items : List α} {step : α → Tabling.Copying β}
    {P : β → TypeTable → Prop}
    (hgood : ∀ result t t', t.Extends t' → P result t → P result t')
    (hstep : ∀ item ∈ items, ∀ made'' t'', Copied made t made'' t'' →
      Ends (step item made'') t'' fun p t''' => Copied made'' t'' p.2 t''' ∧ P p.1 t''')
    (h : Copied made t made' t') :
    Ends (items.mapM step made') t' fun p t'' => Copied made' t' p.2 t'' ∧
      p.1.length = items.length ∧ ∀ result ∈ p.1, P result t'' := by
  let inv (done : List α) (results : List β) (made'' : List (TypeId × TypeId)) (t'' : TypeTable) :=
    Copied made' t' made'' t'' ∧ results.length = done.length ∧ ∀ result ∈ results, P result t''
  have hstart : inv [] [] made' t' := ⟨h.after, rfl, fun _ hresult => nomatch hresult⟩
  refine ends_mapM_apply ?_ hstart
  rintro done item hitem results made₁ t₁ ⟨hcopied, hlength, hresults⟩
  refine (hstep item hitem made₁ t₁ (h.trans hcopied)).mono ?_
  rintro ⟨result, made₂⟩ t₂ ⟨hcopied', hresult⟩
  refine ⟨hcopied.trans hcopied', by simp [hlength],
    List.forall_mem_append.mpr ⟨fun other hother => ?_, ?_⟩⟩
  · exact hgood other t₁ t₂ hcopied'.grows (hresults other hother)
  · exact List.forall_mem_singleton.mpr hresult

section

variable {old : Descriptor} {copy : TypeId} {part : TypeId → Tabling.Copying TypeId}

/-- Describing a copy that was entered, given how the parts are copied. -/
private theorem describeCopy_ends {before : TypeTable} {shape : Shape} (hbefore : before.Sound)
    (hgrows : before.Extends t) (hunions : t.unions = before.unions)
    (hnew : before.size ≤ copy.index) (hcopy : copy.index < t.size)
    (hold : ∀ id ∈ old.parts, id.index < start.size)
    (hpart : ∀ id : TypeId, id.index < start.size → ∀ made' t', Copied made t made' t' →
      Ends (part id made') t' fun p t'' => Copied made' t' p.2 t'' ∧ p.1.index < t''.size)
    (h : Copied made t made' t')
    (hshape : ∀ fields, shape = .compound fields → ∀ f ∈ fields, f.type.index < t'.size) :
    Ends ((do
        let symbols ← old.symbols.mapM fun entry => do
          let answer ← part entry.2
          pure (entry.1, answer)
        let handlers ← old.handlers.mapM fun handler => do
          let guard ← part handler.1
          let answer ← part handler.2
          pure (guard, answer)
        let variants ← old.variants.mapM part
        liftM (Tabling.update copy fun d => { d with shape, symbols, handlers, variants })
        pure copy : Tabling.Copying TypeId) made') t' fun p t'' =>
      p.1 = copy ∧ t''.Sound ∧ (t''.get copy).shape = shape ∧
        (old.variants = [] → (t''.get copy).variants = []) ∧
        ∃ t₀ change, Copied made t p.2 t₀ ∧ t'' = t₀.update copy change := by
  rw [ends_bind_apply_iff]
  refine (mapM_copied (P := fun entry t => entry.2.index < t.size) (fun _ _ _ h => h.lt)
    (fun entry hentry made₁ t₁ h₁ => ?_) h).mono ?_
  · rw [ends_bind_apply_iff]
    exact hpart entry.2 (hold _ (Descriptor.mem_parts_iff.mpr (.inr (.inl ⟨entry, hentry, rfl⟩))))
      made₁ t₁ h₁
  rintro ⟨symbols, made₁⟩ t₁ ⟨h₁, _, hsymbols⟩
  rw [ends_bind_apply_iff]
  refine (mapM_copied (P := fun handler t => handler.1.index < t.size ∧ handler.2.index < t.size)
    (fun _ _ _ h => .imp h.lt h.lt) (fun handler hhandler made₂ t₂ h₂ => ?_) (h.trans h₁)).mono ?_
  · have hmem : ∀ id, handler.1 = id ∨ handler.2 = id → id ∈ old.parts := fun id hid =>
      Descriptor.mem_parts_iff.mpr (.inr (.inr (.inl ⟨handler, hhandler, hid⟩)))
    rw [ends_bind_apply_iff]
    refine (hpart handler.1 (hold _ (hmem _ (.inl rfl))) made₂ t₂ h₂).mono ?_
    rintro ⟨guard, made₃⟩ t₃ ⟨h₃, hguard⟩
    rw [ends_bind_apply_iff]
    refine (hpart handler.2 (hold _ (hmem _ (.inr rfl))) made₃ t₃ (h₂.trans h₃)).mono ?_
    rintro ⟨answer, made₄⟩ t₄ ⟨h₄, hanswer⟩
    exact ⟨h₃.trans h₄, h₄.grows.lt hguard, hanswer⟩
  rintro ⟨handlers, made₂⟩ t₂ ⟨h₂, _, hhandlers⟩
  rw [ends_bind_apply_iff]
  refine (mapM_copied (P := fun id t => id.index < t.size) (fun _ _ _ h => h.lt)
    (fun id hid made₃ t₃ h₃ => ?_) ((h.trans h₁).trans h₂)).mono ?_
  · exact hpart id (hold _ (Descriptor.mem_parts_iff.mpr (.inr (.inr (.inr hid))))) made₃ t₃ h₃
  rintro ⟨variants, made₃⟩ t₃ ⟨h₃, hlength, hvariants⟩
  have hall := ((h.trans h₁).trans h₂).trans h₃
  have hlater := h₂.grows.trans h₃.grows
  rw [ends_bind_apply_iff, ends_lift_apply_iff]
  have hget := get_update_self t₃
    (fun d => { d with shape, symbols, handlers, variants }) (hall.grows.lt hcopy)
  refine ⟨rfl,
    hall.sound.update (hall.sound.closed.update fun id hid => ?_) rfl fun entry hentry => ?_,
    congrArg Descriptor.shape hget, fun hnil => (congrArg Descriptor.variants hget).trans ?_,
    t₃, _, hall, rfl⟩
  rotate_left
  · rw [hall.unions_eq, hunions] at hentry
    exact (hbefore.unions_made entry hentry).extend ((hgrows.trans hall.grows).update hnew _)
  · rw [hnil] at hlength
    exact List.length_eq_zero_iff.mp hlength
  rw [Descriptor.mem_parts_iff] at hid
  rcases hid with ⟨fields, hfields, f, hf, rfl⟩ | ⟨entry, hentry, rfl⟩ |
    ⟨handler, hhandler, hid⟩ | hid
  · exact (h₁.grows.trans hlater).lt (hshape fields hfields f hf)
  · exact hlater.lt (hsymbols entry hentry)
  · have hboth := (hhandlers handler hhandler).imp h₃.grows.lt h₃.grows.lt
    rcases hid with rfl | rfl
    · exact hboth.1
    · exact hboth.2
  · exact hvariants id hid

/-- A copy that was entered and then described is one of the type, atomic if the type is. -/
private theorem Copied.described {id result : TypeId} {shape : Shape}
    (hentered : Copied made t ((id, copy) :: made) t') (hnew : t.size ≤ copy.index)
    (hlt : copy.index < t'.size)
    (hatomic : ∀ {t'' : TypeTable}, (t''.get copy).shape = shape → (t''.get copy).variants = [] →
      t.Atomic id → t''.Atomic copy)
    (h : result = copy ∧ t''.Sound ∧ (t''.get copy).shape = shape ∧
      ((t.get id).variants = [] → (t''.get copy).variants = []) ∧
      ∃ t₀ change, Copied ((id, copy) :: made) t' made'' t₀ ∧ t'' = t₀.update copy change) :
    Copied made t made'' t'' ∧ result.index < t''.size ∧ t.size ≤ result.index ∧
      (t.Atomic id → t''.Atomic result) := by
  obtain ⟨rfl, hsound, hshape, hvariants, t₀, change, hcopied, rfl⟩ := h
  have hall := hentered.trans hcopied
  have hsize := size_update t₀ result change
  refine ⟨⟨hsound, hall.grows.update hnew change, hall.known, fun entry hentry => ?_,
    hall.unions_eq⟩, ?_, hnew, fun h => hatomic hshape (hvariants h.variants_eq) h⟩
  · rw [hsize]
    exact hall.images_lt entry hentry
  · rw [hsize]
    exact hcopied.grows.lt hlt

end

/-- Copying a type that was there at the start ends. The copy is the type itself, what is put in
its place, a copy made before, or new, and then it is atomic if the type is. -/
theorem substituteWithin_ends (hstart : start.Sound) {map : Substitution} {levels : Nat}
    {id : TypeId} (hid : id.index < start.size) (ht : t.Sound) (hext : start.Extends t)
    (hmap : ∀ entry ∈ map, entry.2.index < start.size)
    (hmade : ∀ entry ∈ made, entry.2.index < t.size)
    (hlevels : openCopies start.size made < levels) :
    Ends (Tabling.substituteWithin map levels id made) t fun p t' =>
      Copied made t p.2 t' ∧ p.1.index < t'.size ∧
        (p.1 = id ∨ map.lookup id = some p.1 ∨ made.lookup id = some p.1 ∨
          t.size ≤ p.1.index ∧ (t.Atomic id → t'.Atomic p.1)) := by
  induction levels generalizing id t made with
  | zero => omega
  | succ levels ih =>
    have hsame : Copied made t made t := ⟨ht, .refl t, fun _ h => h, hmade, rfl⟩
    rw [Tabling.substituteWithin]
    cases himage : map.lookup id with
    | some image =>
      exact ⟨hsame, hext.lt (hmap _ (mem_of_lookup_eq_some himage)), .inr (.inl rfl)⟩
    | none =>
      simp only [ends_bind_apply_iff, ends_get_apply_iff]
      cases hknown : made.lookup id with
      | some copy =>
        exact ⟨hsame, hmade _ (mem_of_lookup_eq_some hknown), .inr (.inr (.inl rfl))⟩
      | none =>
        simp only [ends_bind_apply_iff, ends_get_inner_iff]
        split
        · exact ⟨hsame, hext.lt hid, .inl rfl⟩
        rw [ends_bind_apply_iff, ends_lift_apply_iff, Tabling.push, ends_modifyGet_iff,
          ends_bind_apply_iff, ends_modify_apply_iff]
        have hnew : t.size ≤ (t.push { name := (t.get id).name }).1.index := Nat.le_refl _
        have hentered := Copied.enter ht hmade id (t.get id).name
        generalize t.push { name := (t.get id).name } = pushed at hnew hentered
        obtain ⟨copy, t₁⟩ := pushed
        have hlt : copy.index < t₁.size := hentered.images_lt _ List.mem_cons_self
        have hpart : ∀ other : TypeId, other.index < start.size → ∀ made' t',
            Copied ((id, copy) :: made) t₁ made' t' →
            Ends (Tabling.substituteWithin map levels other made') t' fun p t'' =>
              Copied made' t' p.2 t'' ∧ p.1.index < t''.size := by
          intro other hother made' t' h'
          refine (ih hother h'.sound (hext.trans (hentered.grows.trans h'.grows)) h'.images_lt
            ?_).mono fun _ _ hresult => ⟨hresult.1, hresult.2.1⟩
          have hle := openCopies_le start.size h'.known
          have hless := openCopies_cons_lt hid hknown copy
          omega
        have hold : ∀ part ∈ (t.get id).parts, part.index < start.size := by
          rw [hext.get_eq id hid]
          exact hstart.closed id
        have hinform : ∀ {result made' t'}, (Copied made t made' t' ∧ result.index < t'.size ∧
            t.size ≤ result.index ∧ (t.Atomic id → t'.Atomic result)) →
            Copied made t made' t' ∧ result.index < t'.size ∧ (result = id ∨ none = some result ∨
              none = some result ∨ t.size ≤ result.index ∧ (t.Atomic id → t'.Atomic result)) :=
          fun h => ⟨h.1, h.2.1, .inr (.inr (.inr h.2.2))⟩
        cases hshape : (t.get id).shape with
        | compound fields =>
          rw [ends_bind_apply_iff]
          refine (mapM_copied (P := fun f t => f.type.index < t.size) (fun _ _ _ h => h.lt)
            (fun f hf made₂ t₂ h₂ => ?_) hentered.after).mono ?_
          · rw [ends_bind_apply_iff]
            exact hpart f.type (hold _ (Descriptor.mem_parts_iff.mpr
              (.inl ⟨fields, hshape, f, hf, rfl⟩))) made₂ t₂ h₂
          rintro ⟨fields', made₂⟩ t₂ ⟨h₂, _, hfields'⟩
          rw [ends_bind_apply_iff, ends_pure_apply_iff]
          refine (describeCopy_ends ht hentered.grows hentered.unions_eq hnew hlt hold hpart h₂
            ?_).mono fun p t' hp => hinform (hentered.described hnew hlt (fun {_} _ _ h => ?_) hp)
          · rintro _ ⟨⟩
            exact hfields'
          · have hnone := h.fields_eq
            rw [fields?, Descriptor.fields?, hshape] at hnone
            cases hnone
        | _ =>
          rw [ends_bind_apply_iff, ends_pure_apply_iff]
          exact (describeCopy_ends ht hentered.grows hentered.unions_eq hnew hlt hold hpart
            hentered.after (by simp)).mono fun p t' hp => hinform <|
              hentered.described hnew hlt
                (fun {_} hshape' hvariants' h => h.of_eq (hshape'.trans hshape.symm) hvariants') hp

/-- Replacing types by others ends. What comes out is the type itself, one of those put in, or
new. -/
theorem substitute_ends (ht : t.Sound) {id : TypeId} (hid : id.index < t.size) {map : Substitution}
    (hmap : ∀ entry ∈ map, entry.2.index < t.size) :
    Ends (Tabling.substitute id map) t fun result t' => t'.Sound ∧ t.Extends t' ∧
      result.index < t'.size ∧ (result = id ∨ map.lookup id = some result ∨
        t.size ≤ result.index ∧ (t.Atomic id → t'.Atomic result)) := by
  rw [Tabling.substitute]
  split
  · exact ⟨ht, .refl t, hid, .inl rfl⟩
  · simp only [ends_bind_iff, ends_get_iff]
    refine (substituteWithin_ends ht hid ht (.refl t) hmap (by simp)
      (Nat.lt_succ_of_le (openCopies_nil_le _))).mono ?_
    rintro ⟨result, made⟩ t' ⟨hcopied, hlt, hresult⟩
    refine ⟨hcopied.sound, hcopied.grows, hlt, ?_⟩
    rcases hresult with rfl | himage | hknown | hnew
    · exact .inl rfl
    · exact .inr (.inl himage)
    · cases hknown
    · exact .inr (.inr hnew)

/-- Filling in a template ends. Only an instance that is new is named after its arguments. -/
theorem instantiate_ends (ht : t.Sound) {template : TypeId} (htemplate : template.index < t.size)
    {arguments : List TypeId} (harguments : ∀ id ∈ arguments, id.index < t.size) :
    Ends (Tabling.instantiate template arguments) t fun result t' =>
      t'.Sound ∧ t.Extends t' ∧ result.index < t'.size ∧ (t.Atomic template → t'.Atomic result) := by
  rw [Tabling.instantiate, ends_bind_iff, ends_get_iff]
  have hmap : ∀ entry ∈ Substitution.ofPairs ((t.get template).params.zip arguments),
      entry.2.index < t.size := fun entry hentry =>
    harguments _ (List.of_mem_zip (List.mem_reverse.mp hentry)).2
  have hlookup : (Substitution.ofPairs ((t.get template).params.zip arguments)).lookup template =
      none := by
    rcases ht.params_eq template with hparams | ⟨rfl, hparams⟩
    · rw [hparams]
      rfl
    · rw [hparams]
      cases arguments <;> rfl
  rw [ends_bind_iff]
  refine (substitute_ends ht htemplate hmap).mono ?_
  rintro result t' ⟨hsound, hgrows, hlt, hresult⟩
  rw [hlookup] at hresult
  obtain rfl | hnone | ⟨hnew, hatomic⟩ := hresult
  · rw [if_neg (by simp)]
    exact ⟨hsound, hgrows, hlt, fun h => h.extend hgrows htemplate⟩
  · cases hnone
  · have hfound : t'.Sound ∧ t.Extends t' ∧ result.index < t'.size ∧
        (t.Atomic template → t'.Atomic result) := ⟨hsound, hgrows, hlt, hatomic⟩
    split
    · rw [ends_bind_iff, ends_get_iff]
      split
      · refine ⟨hsound.rename _, hgrows.update hnew _, ?_, fun h => (hatomic h).of_eq ?_ ?_⟩
        · rw [size_update]
          exact hlt
        · rw [get_update_self t' _ hlt]
        · rw [get_update_self t' _ hlt]
          exact (hatomic h).variants_eq
      · exact hfound
    · exact hfound

end MessageLang
