import MessageLang.Proofs.Assign.Ranges
import MessageLang.Proofs.Typing.Framing
import MessageLang.Proofs.Typing.Resolving
import MessageLang.Proofs.Typing.Spaces
import MessageLang.Types.Graph
import MessageLang.Typing.Pass

namespace MessageLang

/-- How many types, frames of types, frames of terms and placeholders there are. -/
structure Extent where
  types : Nat
  typeFrames : Nat
  termFrames : Nat
  placeholders : Nat

/-- So many types, and nothing else. -/
abbrev Extent.ofTypes (types : Nat) : Extent := ⟨types, 0, 0, 0⟩

instance : Preorder Extent where
  le e e' := e.types ≤ e'.types ∧ e.typeFrames ≤ e'.typeFrames ∧ e.termFrames ≤ e'.termFrames ∧
    e.placeholders ≤ e'.placeholders
  le_refl _ := ⟨Nat.le_refl _, Nat.le_refl _, Nat.le_refl _, Nat.le_refl _⟩
  le_trans _ _ _ h h' := ⟨h.1.trans h'.1, h.2.1.trans h'.2.1, h.2.2.1.trans h'.2.2.1,
    h.2.2.2.trans h'.2.2.2⟩

/-- All types that a table speaks of are there: the built-in ones, of which arrays come last, those that
its types refer to, and those that unions are remembered for, with the unions themselves. -/
structure TypeTable.InRange (t : TypeTable) : Prop where
  builtins_lt : TypeId.array.index < t.size
  reference_lt : ∀ id, ∀ part ∈ t.references id, part.index < t.size
  union_lt : ∀ entry ∈ t.unions, (∀ part ∈ entry.1, part.index < t.size) ∧ entry.2.index < t.size

/-- The frames that others are opened in are there. -/
def Scopes.Linked {α : Type} (s : Scopes α) : Prop :=
  ∀ id outer, s.parent id = some outer → outer.index < s.size

/-- All types with names of their own are in the table, and all frames around others are there. -/
structure TypeSpace.InRange (space : TypeSpace) : Prop where
  table : space.table.InRange
  named_lt : space.scopes.All fun id => id.index < space.table.size
  linked : space.scopes.Linked

/-- What a variable means is there. -/
def Meaning.Within (e : Extent) : Meaning → Prop
  | .known type => type.index < e.types
  | .pending id => id.index < e.placeholders

/-- The frames that a local is typed in are there, and so are the types that it was given. -/
structure Placeholder.Within (e : Extent) (entry : Placeholder) : Prop where
  scope_lt : entry.scope.index < e.termFrames
  typeScope_lt : entry.typeScope.index < e.typeFrames
  declared_lt : ∀ type ∈ entry.declared, type.index < e.types
  result_lt : ∀ type ∈ entry.result, type.index < e.types

/-- All that a pass knows of nodes, names and locals is made of so many types, frames and
placeholders. -/
structure Pass.Within (e : Extent) (p : Pass) : Prop where
  checker : p.checker.InRange e.types
  terms : p.terms.All fun v => v.meaning.Within e
  scope_lt : p.scope.index < e.termFrames
  typeScope_lt : p.typeScope.index < e.typeFrames
  types_lt : ∀ entry ∈ p.types, entry.2.index < e.types
  coercions_lt : ∀ entry ∈ p.coercions, entry.2.index < e.types
  escapes_lt : ∀ exit ∈ p.escapes, exit.2.index < e.types
  breaks_lt : ∀ type ∈ p.breaks, type.index < e.types
  placeholders : ∀ id : PlaceholderId, id.index < p.placeholders.size → (p.placeholder id).Within e
  ofLocal_lt : ∀ entry ∈ p.ofLocal, entry.2.index < e.placeholders
  resolving_lt : ∀ id ∈ p.resolving, id.index < e.placeholders
  resolved_lt : ∀ id ∈ p.resolved, id.index < e.placeholders

/-- How much there is in a pass. -/
def Pass.extent (p : Pass) : Extent :=
  ⟨p.table.size, p.space.scopes.size, p.terms.size, p.placeholders.size⟩

/-- All types, frames and placeholders that a pass knows of are there. -/
structure Pass.InRange (p : Pass) : Prop extends p.Within p.extent where
  space : p.space.InRange
  linked : p.terms.Linked

/-- All types that were found for a tree are in the table that comes with them. -/
structure TypedTree.InRange (typed : TypedTree) : Prop where
  table : typed.table.InRange
  types_lt : ∀ entry ∈ typed.types, entry.2.index < typed.table.size
  coercions_lt : ∀ entry ∈ typed.coercions, entry.2.index < typed.table.size
  result_lt : typed.result.index < typed.table.size

theorem TypeTable.Sound.inRange {t : TypeTable} (h : t.Sound) : t.InRange where
  builtins_lt := h.builtins_lt
  reference_lt id part hpart := by
    have hparts : part ∈ (t.get id).parts ∨ part ∈ (t.get id).params := by
      simp only [references, Descriptor.parts, List.mem_append] at hpart ⊢
      tauto
    obtain hpart | hparam := hparts
    · exact h.closed id part hpart
    · obtain hnone | ⟨-, hitem⟩ := h.params_eq id
      · rw [hnone] at hparam
        cases hparam
      · rw [hitem, List.mem_singleton] at hparam
        exact hparam ▸ h.lt_of_index_le (by decide)
  union_lt entry hentry := ⟨(h.unions_made entry hentry).part_lt, (h.unions_made entry hentry).lt⟩

namespace Scopes

variable {α : Type} {s : Scopes α} {id parent : ScopeId}

theorem Linked.push (h : s.Linked) (hparent : parent.index < s.size) : (s.push parent).2.Linked := by
  intro id outer houter
  rw [Scopes.parent, frame_push] at houter
  rw [size_push]
  split at houter
  · cases houter
    exact Nat.lt_succ_of_lt hparent
  · exact Nat.lt_succ_of_lt (h id outer houter)

theorem Linked.add (h : s.Linked) (id : ScopeId) (name : String) (value : α) :
    (s.add id name value).Linked := by
  intro other outer houter
  rw [parent_add] at houter
  rw [size_add]
  exact h other outer houter

/-- A frame that is younger than another one is there only if that is. -/
theorem Ordered.linked (h : s.Ordered) : s.Linked := by
  intro id outer houter
  by_cases hlt : id.index < s.size
  · exact (h id outer houter).trans hlt
  · rw [Scopes.parent, frame_of_le (Nat.le_of_not_lt hlt)] at houter
    cases houter

theorem linked_empty : (empty : Scopes α).Linked := by
  intro id outer houter
  rw [Scopes.parent, frame_empty] at houter
  cases houter

end Scopes

theorem Meaning.Within.mono {e e' : Extent} (hle : e ≤ e') {meaning : Meaning}
    (h : meaning.Within e) : meaning.Within e' := by
  cases meaning with
  | known type => exact Nat.lt_of_lt_of_le h hle.1
  | pending id => exact Nat.lt_of_lt_of_le h hle.2.2.2

theorem Placeholder.Within.mono {e e' : Extent} (hle : e ≤ e') {entry : Placeholder}
    (h : entry.Within e) : entry.Within e' where
  scope_lt := h.scope_lt.trans_le hle.2.2.1
  typeScope_lt := h.typeScope_lt.trans_le hle.2.1
  declared_lt type htype := (h.declared_lt type htype).trans_le hle.1
  result_lt type htype := (h.result_lt type htype).trans_le hle.1

namespace Pass

variable {e e' : Extent} {p q : Pass} {id : PlaceholderId} {type : TypeId}

theorem Within.mono (hle : e ≤ e') (h : p.Within e) : p.Within e' where
  checker := h.checker.mono hle.1
  terms := h.terms.mono fun _ hv => hv.mono hle
  scope_lt := h.scope_lt.trans_le hle.2.2.1
  typeScope_lt := h.typeScope_lt.trans_le hle.2.1
  types_lt entry hentry := (h.types_lt entry hentry).trans_le hle.1
  coercions_lt entry hentry := (h.coercions_lt entry hentry).trans_le hle.1
  escapes_lt exit hexit := (h.escapes_lt exit hexit).trans_le hle.1
  breaks_lt type htype := (h.breaks_lt type htype).trans_le hle.1
  placeholders id hid := (h.placeholders id hid).mono hle
  ofLocal_lt entry hentry := (h.ofLocal_lt entry hentry).trans_le hle.2.2.2
  resolving_lt id hid := (h.resolving_lt id hid).trans_le hle.2.2.2
  resolved_lt id hid := (h.resolved_lt id hid).trans_le hle.2.2.2

theorem InRange.withSpace (h : p.InRange) {space : TypeSpace} (hspace : space.InRange)
    (hle : p.extent ≤ { p with space }.extent) : { p with space }.InRange where
  toWithin := { h.toWithin.mono hle with }
  space := hspace
  linked := h.linked

theorem extent_updatePlaceholder (p : Pass) (id : PlaceholderId) (change : Placeholder → Placeholder) :
    (p.updatePlaceholder id change).extent = p.extent :=
  congrArg (Extent.mk _ _ _) Array.size_modify

theorem extent_takenBack (before p : Pass) : (takenBack before p).extent = p.extent :=
  congrArg (Extent.mk _ _ _) (size_placeholders_takenBack before p)

theorem extent_closed (before p : Pass) (id : PlaceholderId) (type : TypeId) :
    (closed before p id type).extent = p.extent :=
  congrArg (Extent.mk _ _ _) size_placeholders_closed

/-- What is known of a placeholder that is there may be changed to something else that is there. -/
theorem Within.updatePlaceholder (h : p.Within e) {change : Placeholder → Placeholder}
    (hchange : ∀ entry : Placeholder, entry.Within e → (change entry).Within e) :
    (p.updatePlaceholder id change).Within e where
  __ := h
  placeholders other hother := by
    have hlt : other.index < p.placeholders.size := hother.trans_eq Array.size_modify
    obtain heq | ⟨rfl, heq⟩ := p.placeholder_updatePlaceholder_eq_or id other change <;> rw [heq]
    · exact h.placeholders other hlt
    · exact hchange _ (h.placeholders other hlt)

theorem InRange.updatePlaceholder (h : p.InRange) {change : Placeholder → Placeholder}
    (hchange : ∀ entry : Placeholder, entry.Within p.extent → (change entry).Within p.extent) :
    (p.updatePlaceholder id change).InRange where
  toWithin := extent_updatePlaceholder p id change ▸ h.toWithin.updatePlaceholder hchange
  space := h.space
  linked := h.linked

/-- What is taken back was known before, or is forgotten. -/
theorem InRange.takenBack (h : p.Within q.extent) (h' : q.InRange) : (takenBack p q).InRange where
  toWithin := by
    rw [extent_takenBack]
    exact {
      h'.toWithin with
      checker := h'.checker.rollback h.checker.bindings
      escapes_lt := fun exit hexit => h'.escapes_lt exit (List.mem_of_mem_take hexit)
      breaks_lt := fun type htype => h'.breaks_lt type (List.mem_of_mem_take htype)
      resolved_lt := fun id hid => h'.resolved_lt id (List.mem_of_mem_drop hid)
      placeholders := fun id hid => by
        have hentry := h'.placeholders id (hid.trans_eq (size_placeholders_takenBack p q))
        change ((q.forget _).placeholder id).Within q.extent
        rw [placeholder_forget]
        refine { hentry with result_lt := fun type htype => ?_ }
        dsimp only at htype
        split at htype
        · cases htype
        · exact hentry.result_lt type htype }
  space := ⟨h'.space.table, h'.space.named_lt, h'.space.linked⟩
  linked := h'.linked

/-- The local whose type was found gets it, and typing is back in frames that are there. -/
theorem InRange.closed (h : p.Within q.extent) (h' : q.InRange)
    (hid : id.index < q.placeholders.size) (htype : type.index < q.table.size) :
    (closed p q id type).InRange where
  toWithin := by
    have hresult : (q.updatePlaceholder id ({ · with result := some type })).Within q.extent :=
      h'.toWithin.updatePlaceholder fun _ hentry => { hentry with
        result_lt := fun _ hother => Option.some.inj hother ▸ htype }
    rw [extent_closed]
    exact {
      hresult with
      scope_lt := h.scope_lt
      typeScope_lt := h.typeScope_lt
      resolving_lt := fun other hother => h'.resolving_lt other (List.mem_of_mem_drop hother)
      resolved_lt := List.forall_mem_cons.mpr ⟨hid, h'.resolved_lt⟩ }
  space := h'.space
  linked := h'.linked

theorem extent_le_pushed (p : Pass) : p.extent ≤ p.pushed.extent := by
  refine ⟨le_rfl, ?_, ?_, le_rfl⟩
  · exact (Nat.le_succ _).trans_eq (p.space.scopes.size_push p.typeScope).symm
  · exact (Nat.le_succ _).trans_eq (p.terms.size_push p.scope).symm

/-- The new frames are opened in frames that are there. -/
theorem InRange.pushed (h : p.InRange) : p.pushed.InRange where
  toWithin := {
    h.toWithin.mono p.extent_le_pushed with
    terms := (h.terms.mono fun _ hv => hv.mono p.extent_le_pushed).push _
    scope_lt := p.scope_pushed_lt
    typeScope_lt := by
      change p.space.scopes.size < (p.space.scopes.push p.typeScope).2.size
      rw [Scopes.size_push]
      exact Nat.lt_succ_self _ }
  space := ⟨h.space.table, h.space.named_lt.push _, h.space.linked.push h.typeScope_lt⟩
  linked := h.linked.push h.scope_lt

/-- A local gets a placeholder, and its name is bound to that in the current frame. -/
theorem InRange.declared (h : p.InRange) {entry : Placeholder} (hentry : entry.Within p.extent)
    (definition : NodeId) (name : String) (mutable : Bool) :
    let id : PlaceholderId := ⟨p.placeholders.size⟩
    let q : Pass := { p with
      placeholders := p.placeholders.push entry
      ofLocal := (definition, id) :: p.ofLocal
      terms := p.terms.add p.scope name ⟨.pending id, mutable⟩ }
    p.extent ≤ q.extent ∧ q.InRange := by
  intro id q
  have hsize : q.placeholders.size = p.placeholders.size + 1 := Array.size_push _
  have hle : p.extent ≤ q.extent :=
    ⟨le_rfl, le_rfl, (Scopes.size_add ..).ge, (Nat.le_succ _).trans_eq hsize.symm⟩
  have hid : id.index < q.placeholders.size := (Nat.lt_succ_self _).trans_eq hsize.symm
  have hknown := h.toWithin.mono hle
  refine ⟨hle, { hknown with
    terms := hknown.terms.add _ _ hid
    placeholders := fun other hother => ?_
    ofLocal_lt := List.forall_mem_cons.mpr ⟨hid, hknown.ofLocal_lt⟩
    space := h.space
    linked := h.linked.add _ _ _ }⟩
  obtain hlt | heq := Nat.lt_succ_iff_lt_or_eq.mp (hother.trans_eq hsize)
  · have hsame : q.placeholder other = p.placeholder other := by
      simp [placeholder, q, Array.getD_eq_getD_getElem?, Array.getElem?_push, Nat.ne_of_lt hlt]
    rw [hsame]
    exact hknown.placeholders other hlt
  · have hnew : q.placeholder other = entry := by
      simp [placeholder, q, Array.getD_eq_getD_getElem?, heq]
    rw [hnew]
    exact hentry.mono hle

end Pass

end MessageLang
