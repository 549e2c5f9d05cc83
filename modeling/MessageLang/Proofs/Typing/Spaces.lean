import MessageLang.Proofs.Types.Regular
import MessageLang.Proofs.Typing.Reading

namespace MessageLang

namespace Scopes

variable {α : Type} {s s' : Scopes α} {id inner outer scope : ScopeId} {name other : String} {value : α}

/-- Every frame is younger than the one around it. -/
def Ordered (s : Scopes α) : Prop := ∀ id outer, s.parent id = some outer → outer.index < id.index

/-- From one frame to another further out, none binds a name but perhaps the last one. -/
inductive Inherits (s : Scopes α) (name : String) : ScopeId → ScopeId → Prop
  | refl (id : ScopeId) : Inherits s name id id
  | outer {inner around id : ScopeId} (unbound : s.here? inner name = none)
      (parent : s.parent inner = some around) (outer : Inherits s name around id) :
      Inherits s name inner id

theorem parent_add (s : Scopes α) (id : ScopeId) (name : String) (value : α) (other : ScopeId) :
    (s.add id name value).parent other = s.parent other := by
  rw [parent, frame_add, parent]
  split
  · next h => rw [h.1]
  · rfl

theorem Ordered.add (h : s.Ordered) (id : ScopeId) (name : String) (value : α) :
    (s.add id name value).Ordered := by
  intro other outer hparent
  rw [parent_add] at hparent
  exact h other outer hparent

theorem get?_of_here? (h : s.here? id name = some value) : s.get? id name = some value := by
  rw [get?, getWithin?, h]

theorem here?_add_self (h : id.index < s.size) : (s.add id name value).here? id name = some value := by
  rw [here?, frame_add_self s name value h, List.lookup_cons_self]

theorem here?_add_of_ne (h : other ≠ name) (inner : ScopeId) :
    (s.add id name value).here? inner other = s.here? inner other := by
  rw [here?, frame_add, here?]
  split
  · next hself => rw [hself.1, lookup_cons_of_ne h]
  · rfl

theorem get?_add_self (h : id.index < s.size) : (s.add id name value).get? id name = some value :=
  get?_of_here? (here?_add_self h)

/-- To bind a name changes nothing for other names. -/
theorem get?_add_of_ne (h : other ≠ name) (inner : ScopeId) :
    (s.add id name value).get? inner other = s.get? inner other := by
  suffices hsteps : ∀ steps inner,
      (s.add id name value).getWithin? other steps inner = s.getWithin? other steps inner from
    hsteps _ _
  intro steps
  induction steps with
  | zero => exact fun _ => rfl
  | succ steps ih =>
    intro inner
    rw [getWithin?, getWithin?, here?_add_of_ne h, parent_add]
    cases s.here? inner other with
    | some _ => rfl
    | none =>
      cases s.parent inner with
      | none => rfl
      | some outer => exact ih outer

/-- Where frames are as they were, names mean what they meant. -/
theorem Ordered.getWithin?_congr (h : s.Ordered) (bound : Nat)
    (hframe : ∀ id : ScopeId, id.index < bound → s'.frame id = s.frame id) {steps : Nat}
    (hid : id.index < bound) : s'.getWithin? name steps id = s.getWithin? name steps id := by
  induction steps generalizing id with
  | zero => rfl
  | succ steps ih =>
    rw [getWithin?, getWithin?, here?, here?, parent, parent, hframe id hid]
    cases (s.frame id).names.lookup name with
    | some _ => rfl
    | none =>
      cases hparent : (s.frame id).parent with
      | none => rfl
      | some outer => exact ih ((h id outer hparent).trans hid)

/-- A frame's number bounds the way out of it. -/
theorem Ordered.getWithin?_eq_get? (h : s.Ordered) {steps : Nat} (hsteps : id.index < steps) :
    s.getWithin? name steps id = s.get? id name := by
  suffices hstable : ∀ bound steps steps', id.index < bound → id.index < steps → id.index < steps' →
      s.getWithin? name steps id = s.getWithin? name steps' id from
    hstable _ _ _ (Nat.lt_succ_self _) hsteps (Nat.lt_succ_self _)
  clear hsteps
  intro bound
  induction bound generalizing id with
  | zero => exact fun _ _ hid => absurd hid (Nat.not_lt_zero _)
  | succ bound ih =>
    intro steps steps' hid hsteps hsteps'
    obtain ⟨steps, rfl⟩ := Nat.exists_eq_succ_of_ne_zero (Nat.ne_zero_of_lt hsteps)
    obtain ⟨steps', rfl⟩ := Nat.exists_eq_succ_of_ne_zero (Nat.ne_zero_of_lt hsteps')
    rw [getWithin?, getWithin?]
    cases s.here? id name with
    | some _ => rfl
    | none =>
      cases hparent : s.parent id with
      | none => rfl
      | some outer =>
        have hlt := h id outer hparent
        exact ih steps steps' (by omega) (by omega) (by omega)

/-- A name means in a frame what it means further out, if it is not bound on the way. -/
theorem Ordered.get?_of_inherits (h : s.Ordered) (hinherits : s.Inherits name inner outer) :
    s.get? inner name = s.get? outer name := by
  induction hinherits with
  | refl => rfl
  | @outer inner around _ hunbound hparent _ ih =>
    rw [← ih, get?, getWithin?, hunbound, hparent]
    exact h.getWithin?_eq_get? (h inner around hparent)

end Scopes

namespace TypeSpace

/-- What reading types in a frame can rely on, and keeps to. -/
structure Valid (space : TypeSpace) (scope : ScopeId) : Prop where
  table : space.table.Regular
  named : space.scopes.All fun id => id.index < space.table.size
  ordered : space.scopes.Ordered
  lt : scope.index < space.scopes.size

/-- What reading types in a frame adds to a space. Types that there were go on to be what they are.
Names that meant nothing in the frame are bound there, each to a new wildcard of its own. -/
structure Grows (scope : ScopeId) (added : List (String × TypeId)) (space space' : TypeSpace) : Prop where
  table : space.table.Retains space'.table
  frame_eq : ∀ id, id ≠ scope → space'.scopes.frame id = space.scopes.frame id
  frame_self : space'.scopes.frame scope =
    { space.scopes.frame scope with names := added ++ (space.scopes.frame scope).names }
  unbound : ∀ entry ∈ added, space.scopes.get? scope entry.1 = none
  fresh : ∀ entry ∈ added,
    space.table.size ≤ entry.2.index ∧ space'.table.isWildcard entry.2 = true
  nodup_names : (added.map Prod.fst).Nodup
  nodup_wildcards : (added.map Prod.snd).Nodup

variable {scope : ScopeId} {added added' : List (String × TypeId)} {space space' space'' : TypeSpace}
  {name : String} {id : TypeId}

theorem Sound.valid (h : space.Sound) (hordered : space.scopes.Ordered)
    (hlt : scope.index < space.scopes.size) : space.Valid scope :=
  ⟨h.table.regular, h.named.mono fun _ hid => hid.1, hordered, hlt⟩

/-- Types can be read in the root frame from the start. -/
theorem initial_valid : initial.Valid Scopes.root := by
  have hempty : (Scopes.empty : Scopes TypeId).Ordered := by
    intro id outer hparent
    rw [Scopes.parent, Scopes.frame_empty] at hparent
    cases hparent
  refine initial_sound.valid ?_ (by decide)
  change TypeTable.initialScopes.Ordered
  rw [TypeTable.initialScopes]
  generalize TypeTable.builtinNames = names
  generalize (Scopes.empty : Scopes TypeId) = scopes at hempty
  induction names generalizing scopes with
  | nil => exact hempty
  | cons entry rest ih => exact ih _ (hempty.add _ _ _)

theorem Valid.withLog (h : space.Valid scope) (log : Log) : { space with log }.Valid scope :=
  ⟨h.table, h.named, h.ordered, h.lt⟩

theorem Valid.withTable (h : space.Valid scope) {t : TypeTable} (ht : t.Regular)
    (hretains : space.table.Retains t) : { space with table := t }.Valid scope :=
  ⟨ht, h.named.mono fun _ hid => hid.trans_le hretains.size_le, h.ordered, h.lt⟩

theorem Valid.bind (h : space.Valid scope) (name : String) (hid : id.index < space.table.size) :
    { space with scopes := space.scopes.add scope name id }.Valid scope where
  table := h.table
  named := h.named.add scope name hid
  ordered := h.ordered.add scope name id
  lt := h.lt.trans_eq (Scopes.size_add ..).symm

theorem Grows.of_table (hretains : space.table.Retains space'.table)
    (hscopes : space'.scopes = space.scopes) : Grows scope [] space space' where
  table := hretains
  frame_eq _ _ := by rw [hscopes]
  frame_self := by rw [hscopes, List.nil_append]
  unbound _ hentry := nomatch hentry
  fresh _ hentry := nomatch hentry
  nodup_names := .nil
  nodup_wildcards := .nil

/-- A name means what it was bound to meanwhile, or what it meant. -/
theorem Grows.get?_eq (h : Grows scope added space space') (hordered : space.scopes.Ordered)
    (name : String) :
    space'.scopes.get? scope name = (added.lookup name).or (space.scopes.get? scope name) := by
  rw [Scopes.get?, Scopes.get?, Scopes.getWithin?, Scopes.getWithin?, Scopes.here?, Scopes.here?,
    Scopes.parent, Scopes.parent, h.frame_self, List.lookup_append]
  cases added.lookup name with
  | some _ => rfl
  | none =>
    cases (space.scopes.frame scope).names.lookup name with
    | some _ => rfl
    | none =>
      cases hparent : (space.scopes.frame scope).parent with
      | none => rfl
      | some outer =>
        refine hordered.getWithin?_congr scope.index (fun id hid => ?_)
          (hordered scope outer hparent)
        exact h.frame_eq id fun heq => Nat.ne_of_lt hid (congrArg ScopeId.index heq)

/-- What had a meaning keeps it. -/
theorem Grows.get?_eq_some (h : Grows scope added space space') (hordered : space.scopes.Ordered)
    (hsome : space.scopes.get? scope name = some id) : space'.scopes.get? scope name = some id := by
  have hnone : added.lookup name = none := by
    refine Option.eq_none_iff_forall_ne_some.mpr fun other hother => ?_
    have hunbound := h.unbound _ (mem_of_lookup_eq_some hother)
    cases hsome.symm.trans hunbound
  rw [h.get?_eq hordered, hnone, hsome, Option.none_or]

theorem Grows.parent_eq (h : Grows scope added space space') (id : ScopeId) :
    space'.scopes.parent id = space.scopes.parent id := by
  by_cases heq : id = scope
  · rw [heq, Scopes.parent, h.frame_self, Scopes.parent]
  · rw [Scopes.parent, h.frame_eq id heq, Scopes.parent]

/-- What had a meaning keeps it in other frames as well. -/
theorem Grows.get?_lasts (h : Grows scope added space space') (hordered : space.scopes.Ordered)
    (inner : ScopeId) (hsome : space.scopes.get? inner name = some id) :
    space'.scopes.get? inner name = some id := by
  have hordered' : space'.scopes.Ordered := fun id outer hparent =>
    hordered id outer ((h.parent_eq id).symm.trans hparent)
  suffices hsteps : ∀ steps (inner : ScopeId), inner.index < steps →
      space.scopes.getWithin? name steps inner = some id →
      space'.scopes.getWithin? name steps inner = some id from
    hsteps _ inner (Nat.lt_succ_self _) hsome
  intro steps
  induction steps with
  | zero => exact fun _ hlt => absurd hlt (Nat.not_lt_zero _)
  | succ steps ih =>
    intro inner hlt hfound
    by_cases heq : inner = scope
    · rw [heq] at hlt hfound ⊢
      rw [hordered.getWithin?_eq_get? hlt] at hfound
      rw [hordered'.getWithin?_eq_get? hlt]
      exact h.get?_eq_some hordered hfound
    · rw [Scopes.getWithin?, Scopes.here?] at hfound ⊢
      rw [h.frame_eq inner heq, h.parent_eq]
      cases hhere : (space.scopes.frame inner).names.lookup name with
      | some found =>
        rw [hhere] at hfound
        exact hfound
      | none =>
        rw [hhere] at hfound
        cases hparent : space.scopes.parent inner with
        | none =>
          rw [hparent] at hfound
          cases hfound
        | some outer =>
          rw [hparent] at hfound
          have hless := hordered inner outer hparent
          exact ih outer (by omega) hfound

/-- A name without a meaning gets one by being bound to a new wildcard. -/
theorem Grows.mem_added (h : Grows scope added space space') (hordered : space.scopes.Ordered)
    (hnone : space.scopes.get? scope name = none) (hsome : space'.scopes.get? scope name = some id) :
    (name, id) ∈ added := by
  rw [h.get?_eq hordered, hnone, Option.or_none] at hsome
  exact mem_of_lookup_eq_some hsome

theorem Grows.here?_eq_some (h : Grows scope added space space') (hmem : (name, id) ∈ added) :
    space'.scopes.here? scope name = some id := by
  rw [Scopes.here?, h.frame_self, List.lookup_append, lookup_eq_some_of_mem h.nodup_names hmem,
    Option.some_or]

theorem Grows.trans (h : Grows scope added space space') (hordered : space.scopes.Ordered)
    (h' : Grows scope added' space' space'') : Grows scope (added' ++ added) space space'' where
  table := h.table.trans h'.table
  frame_eq id hid := (h'.frame_eq id hid).trans (h.frame_eq id hid)
  frame_self := by rw [h'.frame_self, h.frame_self, List.append_assoc]
  unbound := by
    rw [List.forall_mem_append]
    refine ⟨fun entry hentry => ?_, h.unbound⟩
    refine Option.eq_none_iff_forall_ne_some.mpr fun id hid => ?_
    cases (h.get?_eq_some hordered hid).symm.trans (h'.unbound entry hentry)
  fresh := by
    rw [List.forall_mem_append]
    refine ⟨fun entry hentry => ?_, fun entry hentry => ?_⟩
    · exact (h'.fresh entry hentry).imp_left h.table.size_le.trans
    · obtain ⟨hnew, hwildcard⟩ := h.fresh entry hentry
      refine ⟨hnew, ?_⟩
      rw [TypeTable.isWildcard, h'.table.shape_eq _ (TypeTable.lt_of_isWildcard hwildcard)]
      exact hwildcard
  nodup_names := by
    rw [List.map_append, List.nodup_append]
    refine ⟨h'.nodup_names, h.nodup_names, ?_⟩
    simp only [List.forall_mem_map]
    intro entry' hentry' entry hentry heq
    have hbound := Scopes.get?_of_here? (h.here?_eq_some hentry)
    rw [← heq, h'.unbound entry' hentry'] at hbound
    cases hbound
  nodup_wildcards := by
    rw [List.map_append, List.nodup_append]
    refine ⟨h'.nodup_wildcards, h.nodup_wildcards, ?_⟩
    simp only [List.forall_mem_map]
    intro entry' hentry' entry hentry heq
    have hnew := (h'.fresh entry' hentry').1
    have hlt := TypeTable.lt_of_isWildcard (h.fresh entry hentry).2
    rw [heq] at hnew
    exact Nat.not_lt.mpr hnew hlt

/-- A space that is left by reading types in a frame. -/
def Continues (scope : ScopeId) (space space' : TypeSpace) : Prop :=
  space'.Valid scope ∧ ∃ added, Grows scope added space space'

theorem Continues.refl (h : space.Valid scope) : Continues scope space space :=
  ⟨h, [], .of_table (.refl _) rfl⟩

theorem Continues.trans (h : Continues scope space space') (hs : space.Valid scope)
    (h' : Continues scope space' space'') : Continues scope space space'' := by
  obtain ⟨-, added, hgrows⟩ := h
  obtain ⟨hs'', added', hgrows'⟩ := h'
  exact ⟨hs'', _, hgrows.trans hs.ordered hgrows'⟩

theorem Continues.lt (h : Continues scope space space') (hid : id.index < space.table.size) :
    id.index < space'.table.size := by
  obtain ⟨-, added, hgrows⟩ := h
  exact hid.trans_le hgrows.table.size_le

theorem Continues.of_table (hs : space.Valid scope) {t : TypeTable} (ht : t.Regular)
    (hretains : space.table.Retains t) : Continues scope space { space with table := t } :=
  ⟨hs.withTable ht hretains, [], .of_table hretains rfl⟩

theorem Continues.of_log (hs : space.Valid scope) (log : Log) :
    Continues scope space { space with log } := ⟨hs.withLog log, [], .of_table (.refl _) rfl⟩

end TypeSpace

end MessageLang
