import MessageLang.Proofs.Outcome
import MessageLang.Proofs.Tree.Forest

namespace MessageLang

/-- The node that a piece is, if it is one already. -/
def Piece.node? : Piece → Option NodeId
  | node id => some id
  | token _ => none

theorem Piece.mem_filterMap_node? {pieces : List Piece} {id : NodeId} :
    id ∈ pieces.filterMap node? ↔ .node id ∈ pieces := by
  rw [List.mem_filterMap]
  constructor
  · rintro ⟨_ | _, hmem, heq⟩
    · cases heq
      exact hmem
    · cases heq
  · exact fun hmem => ⟨_, hmem, rfl⟩

namespace Arena

variable {a a' a'' : Arena} {id parent child old new : NodeId} {ids : List NodeId}

theorem node_push (a : Arena) (n : Node) (id : NodeId) :
    (a.push n).2.node id = if id = ⟨a.size⟩ then n else a.node id := by
  split
  · next heq => rw [heq]; exact node_push_new a n
  · next hne =>
    have hindex : id.index ≠ a.nodes.size := fun heq => hne (congrArg NodeId.mk heq)
    simp [push, node, Array.getD_eq_getD_getElem?, Array.getElem?_push, hindex]

/-- A new node that stands alone changes nothing about how the nodes are linked. -/
theorem parent_push {n : Node} (h : n.parent = none) (id : NodeId) :
    (a.push n).2.parent id = a.parent id := by
  have hfree : a.node ⟨a.size⟩ = default := node_of_le le_rfl
  rw [Arena.parent, node_push, Arena.parent]
  split
  · next heq => rw [heq, hfree, h]; rfl
  · rfl

theorem children_push {n : Node} (h : n.children = []) (id : NodeId) :
    (a.push n).2.children id = a.children id := by
  have hfree : a.node ⟨a.size⟩ = default := node_of_le le_rfl
  rw [children, node_push, children]
  split
  · next heq => rw [heq, hfree, h]; rfl
  · rfl

theorem parent_update_of_eq (hid : id.index < a.size) {change : Node → Node}
    (h : (change (a.node id)).parent = a.parent id) (other : NodeId) :
    (a.update id change).parent other = a.parent other := by
  rw [parent_update hid, h]
  split
  · next heq => rw [heq]
  · rfl

theorem children_update_of_eq (hid : id.index < a.size) {change : Node → Node}
    (h : (change (a.node id)).children = a.children id) (other : NodeId) :
    (a.update id change).children other = a.children other := by
  rw [children_update hid, h]
  split
  · next heq => rw [heq]
  · rfl

/-- What becomes of an arena of trees: trees again, of no fewer nodes. -/
structure Regrows (a a' : Arena) : Prop where
  forest : a'.Forest
  size_le : a.size ≤ a'.size

theorem Regrows.trans (h : a.Regrows a') (h' : a'.Regrows a'') : a.Regrows a'' :=
  ⟨h'.forest, h.size_le.trans h'.size_le⟩

namespace Forest

/-- A node that has no children is reached from nowhere else. -/
theorem not_reflTransGen_of_childless (h : a.Forest) (hnil : a.children parent = [])
    (hne : id ≠ parent) : ¬ Relation.ReflTransGen a.Up id parent := by
  intro hreach
  rcases hreach.cases_tail with heq | ⟨child, _, hup⟩
  · exact hne heq.symm
  · have hmem := (h.mem_children_iff parent child).mpr hup
    rw [hnil] at hmem
    cases hmem

/-- From a root the way up leads nowhere. -/
theorem eq_of_reflTransGen_root (hroot : a.parent id = none)
    (hreach : Relation.ReflTransGen a.Up id parent) : id = parent := by
  rcases hreach.cases_head with heq | ⟨next, hup, _⟩
  · exact heq
  · cases hroot.symm.trans hup

/-- Changing what a node is, but not where it stands. -/
theorem update (h : a.Forest) (hid : id.index < a.size) {change : Node → Node}
    (hparent : (change (a.node id)).parent = a.parent id)
    (hchildren : (change (a.node id)).children = a.children id) : (a.update id change).Forest :=
  h.congr (parent_update_of_eq hid hparent) (children_update_of_eq hid hchildren)

end Forest

/-- What an arena is after the tokens among some pieces have become leaves. -/
structure Laid (a : Arena) (pieces : List Piece) (ids : List NodeId) (a' : Arena) : Prop where
  size_le : a.size ≤ a'.size
  parent_eq : ∀ id, a'.parent id = a.parent id
  children_eq : ∀ id, a'.children id = a.children id
  length_eq : ids.length = pieces.length
  of_mem : ∀ id ∈ ids, .node id ∈ pieces ∨ a.size ≤ id.index ∧ id.index < a'.size
  /-- Distinct nodes stay so among the leaves. -/
  nodup : (∀ id, .node id ∈ pieces → id.index < a.size) → (pieces.filterMap Piece.node?).Nodup →
    ids.Nodup

theorem leaf_ends (form : NodeForm) (span : Span) : Ends (Edit.leaf form span) a fun id a' =>
    id = ⟨a.size⟩ ∧ a'.size = a.size + 1 ∧ (∀ id, a'.parent id = a.parent id) ∧
      ∀ id, a'.children id = a.children id := by
  rw [Edit.leaf, Edit.push, ends_modifyGet_iff]
  exact ⟨rfl, size_push _ _, parent_push rfl, children_push rfl⟩

theorem leaves_ends (pieces : List Piece) : Ends (Edit.leaves pieces) a (a.Laid pieces) := by
  induction pieces generalizing a with
  | nil =>
    exact ends_pure_iff.mpr ⟨le_rfl, fun _ => rfl, fun _ => rfl, rfl, by simp, fun _ _ => .nil⟩
  | cons piece rest ih =>
    cases piece with
    | node id =>
      simp only [Edit.leaves, ends_bind_iff, ends_pure_iff]
      refine ih.mono fun ids a' h => ⟨h.size_le, h.parent_eq, h.children_eq, ?_, ?_, ?_⟩
      · simp [h.length_eq]
      · intro other hother
        rcases List.mem_cons.mp hother with rfl | hother
        · exact .inl List.mem_cons_self
        · exact (h.of_mem other hother).imp_left (List.mem_cons_of_mem _)
      · intro hlt hnodup
        have hnodup : (id :: rest.filterMap Piece.node?).Nodup := hnodup
        rw [List.nodup_cons, Piece.mem_filterMap_node?] at hnodup
        refine List.nodup_cons.mpr ⟨fun hmem => ?_, h.nodup
          (fun other hother => hlt other (List.mem_cons_of_mem _ hother)) hnodup.2⟩
        have hold := hlt id List.mem_cons_self
        rcases h.of_mem id hmem with hmem | hmem
        · exact hnodup.1 hmem
        · omega
    | token t =>
      simp only [Edit.leaves, Edit.token, ends_bind_iff, ends_pure_iff]
      refine (leaf_ends _ _).mono ?_
      rintro _ a₁ ⟨rfl, hsize, hparent, hchildren⟩
      refine ih.mono fun ids a₂ h => ?_
      have hle := h.size_le
      have hleaf : (⟨a.size⟩ : NodeId).index = a.size := rfl
      refine ⟨by omega, fun id => ?_, fun id => ?_, ?_, ?_, ?_⟩
      · rw [h.parent_eq, hparent]
      · rw [h.children_eq, hchildren]
      · simp [h.length_eq]
      · intro other hother
        rcases List.mem_cons.mp hother with rfl | hother
        · exact .inr ⟨le_rfl, by omega⟩
        · rcases h.of_mem other hother with hmem | hmem
          · exact .inl (List.mem_cons_of_mem _ hmem)
          · exact .inr ⟨by omega, hmem.2⟩
      · intro hlt hnodup
        have hlt' : ∀ other, .node other ∈ rest → other.index < a.size := fun other hother =>
          hlt other (List.mem_cons_of_mem _ hother)
        refine List.nodup_cons.mpr ⟨fun hmem => ?_, h.nodup (fun other hother => ?_) hnodup⟩
        · rcases h.of_mem _ hmem with hmem | hmem
          · have hold := hlt' _ hmem
            omega
          · omega
        · have hold := hlt' other hother
          omega

/-- The children in the making are nodes there are. -/
theorem Laid.lt {pieces : List Piece} (h : a.Laid pieces ids a')
    (hlt : ∀ id, .node id ∈ pieces → id.index < a.size) : ∀ id ∈ ids, id.index < a'.size := by
  intro id hid
  rcases h.of_mem id hid with hmem | hmem
  · exact (hlt id hmem).trans_le h.size_le
  · exact hmem.2

/-- What an arena is when some nodes have been given a parent that does not have them as children
yet. -/
structure Adopted (a : Arena) (parent : NodeId) (ids : List NodeId) (a' : Arena) : Prop where
  size_eq : a'.size = a.size
  parent_eq : ∀ id, a'.parent id = if id ∈ ids then some parent else a.parent id
  children_eq : ∀ id, a'.children id = a.children id

theorem Adopted.refl (a : Arena) (parent : NodeId) : a.Adopted parent [] a :=
  ⟨rfl, fun _ => by simp, fun _ => rfl⟩

theorem Adopted.update (h : a.Adopted parent ids a') (hid : id.index < a.size) :
    a.Adopted parent (ids ++ [id]) (a'.update id fun n => { n with parent := some parent }) := by
  rw [← h.size_eq] at hid
  refine ⟨(size_update ..).trans h.size_eq, fun other => ?_, fun other => ?_⟩
  · rw [parent_update hid, h.parent_eq]
    by_cases heq : other = id <;> simp [heq]
  · rw [children_update_of_eq hid rfl, h.children_eq]

/-- Only nodes without a parent are given one, and none is given one twice. -/
theorem adoptAll_after (hlt : ∀ id ∈ ids, id.index < a.size) :
    After (ids.forM (Edit.adopt parent)) a fun _ a' =>
      ids.Nodup ∧ (∀ id ∈ ids, a.parent id = none) ∧ a.Adopted parent ids a' := by
  refine after_forM (fun done a' => done.Nodup ∧ (∀ id ∈ done, a.parent id = none) ∧
    a.Adopted parent done a') ?_ ⟨List.nodup_nil, by simp, .refl a parent⟩
  intro done id hid a₁ ⟨hnodup, hroots, h₁⟩
  simp only [Edit.adopt, Edit.update, after_bind_iff, after_get_iff]
  split
  · simp
  · next hfree =>
    rw [Option.not_isSome_iff_eq_none, h₁.parent_eq] at hfree
    split at hfree
    · cases hfree
    · next hnot =>
      rw [after_modify_iff]
      refine ⟨?_, ?_, h₁.update (hlt id hid)⟩
      · exact List.nodup_append.mpr ⟨hnodup, by simp, by grind⟩
      · simpa [or_imp, forall_and] using ⟨hroots, hfree⟩

theorem adoptAll_ends (hlt : ∀ id ∈ ids, id.index < a.size) (hnodup : ids.Nodup)
    (hroots : ∀ id ∈ ids, a.parent id = none) :
    Ends (ids.forM (Edit.adopt parent)) a fun _ a' => a.Adopted parent ids a' := by
  refine ends_forM_of_split (fun done id rest hsplit a₁ h₁ => ?_) (.refl a parent)
  have hid : id ∈ ids := by simp [hsplit]
  have hnot : id ∉ done := by
    rw [hsplit] at hnodup
    exact fun hmem => (List.nodup_append.mp hnodup).2.2 id hmem id List.mem_cons_self rfl
  have hfree : a₁.parent id = none := by rw [h₁.parent_eq, if_neg hnot, hroots id hid]
  simp only [Edit.adopt, Edit.update, ends_bind_iff, ends_get_iff, hfree, Option.isSome_none,
    Bool.false_eq_true, if_false, ends_modify_iff]
  exact h₁.update (hlt id hid)

/-- The parent gets the children that it was given. -/
theorem Adopted.forest (h : a.Adopted parent ids a') (hforest : a.Forest)
    (hparent : parent.index < a.size) (hnodup : ids.Nodup) (hroots : ∀ id ∈ ids, a.parent id = none)
    (hapart : ∀ id ∈ ids, ¬ Relation.ReflTransGen a.Up parent id) {change : Node → Node}
    (hsame : (change (a'.node parent)).parent = a'.parent parent)
    (hchildren : (change (a'.node parent)).children = a'.children parent ++ ids) :
    (a'.update parent change).Forest := by
  rw [← h.size_eq] at hparent
  refine hforest.link hnodup hroots hapart (fun id => ?_) fun id => ?_
  · rw [parent_update hparent, hsame, ← h.parent_eq]
    split
    · next heq => rw [heq]
    · rfl
  · rw [children_update hparent, hchildren, h.children_eq, h.children_eq]

section

variable {form : NodeForm} {span : Span} {pieces : List Piece}

theorem attach_after (h : a.Forest) (hlt : ∀ id ∈ ids, id.index < a.size) :
    After (Edit.attach form span ids) a fun id a' => a.Regrows a' ∧ id.index < a'.size := by
  simp only [Edit.attach, Edit.update, after_bind_iff, after_modify_iff, after_pure_iff]
  refine (leaf_ends form span).after.mono ?_
  rintro _ a₁ ⟨rfl, hsize, hparent, hchildren⟩
  have h₁ := h.congr hparent hchildren
  have hlt₁ : ∀ id ∈ ids, id.index < a₁.size := fun id hid => by
    have hold := hlt id hid
    omega
  refine (adoptAll_after hlt₁).mono ?_
  rintro _ a₂ ⟨hnodup, hroots, h₂⟩
  have hnew : a.node ⟨a.size⟩ = default := node_of_le le_rfl
  have hroot : a₁.parent ⟨a.size⟩ = none := by
    rw [hparent, Arena.parent, hnew]
    rfl
  have hapart : ∀ id ∈ ids, ¬ Relation.ReflTransGen a₁.Up ⟨a.size⟩ id := by
    intro id hid hreach
    have hold := hlt id hid
    rw [← Forest.eq_of_reflTransGen_root hroot hreach] at hold
    exact Nat.lt_irrefl _ hold
  have hvalid : (⟨a.size⟩ : NodeId).index < a₁.size := by
    rw [hsize]
    exact Nat.lt_succ_self _
  refine ⟨⟨h₂.forest h₁ hvalid hnodup hroots hapart rfl ?_, ?_⟩, ?_⟩
  · rw [h₂.children_eq, hchildren, children, hnew]
    rfl
  · rw [size_update, h₂.size_eq, hsize]
    exact Nat.le_succ _
  · rwa [size_update, h₂.size_eq]

theorem attach_ends (hlt : ∀ id ∈ ids, id.index < a.size) (hnodup : ids.Nodup)
    (hroots : ∀ id ∈ ids, a.parent id = none) :
    Ends (Edit.attach form span ids) a fun _ _ => True := by
  simp only [Edit.attach, Edit.update, ends_bind_iff, ends_modify_iff, ends_pure_iff]
  refine (leaf_ends form span).mono ?_
  rintro _ a₁ ⟨rfl, hsize, hparent, _⟩
  refine (adoptAll_ends (fun id hid => ?_) hnodup fun id hid => ?_).mono fun _ _ _ => trivial
  · have hold := hlt id hid
    omega
  · rw [hparent, hroots id hid]

theorem allocAt_after (h : a.Forest) (hlt : ∀ id, .node id ∈ pieces → id.index < a.size) :
    After (Edit.allocAt form span pieces) a fun id a' => a.Regrows a' ∧ id.index < a'.size := by
  rw [Edit.allocAt, after_bind_iff]
  refine (leaves_ends pieces).after.mono fun ids a₁ h₁ => ?_
  refine (attach_after (h.congr h₁.parent_eq h₁.children_eq) (h₁.lt hlt)).mono ?_
  rintro id a₂ ⟨h₂, hid⟩
  exact ⟨⟨h₂.forest, h₁.size_le.trans h₂.size_le⟩, hid⟩

theorem alloc_after (h : a.Forest) (hlt : ∀ id, .node id ∈ pieces → id.index < a.size) :
    After (Edit.alloc form pieces) a fun id a' => a.Regrows a' ∧ id.index < a'.size := by
  simp only [Edit.alloc, after_bind_iff, after_get_iff]
  refine (leaves_ends pieces).after.mono fun ids a₁ h₁ => ?_
  split
  · refine (attach_after (h.congr h₁.parent_eq h₁.children_eq) (h₁.lt hlt)).mono ?_
    rintro id a₂ ⟨h₂, hid⟩
    exact ⟨⟨h₂.forest, h₁.size_le.trans h₂.size_le⟩, hid⟩
  · exact after_throw

/-- Nothing that is appended may be at or above the node that it is appended to. -/
theorem append_after (h : a.Forest) (hid : id.index < a.size)
    (hlt : ∀ piece, .node piece ∈ pieces → piece.index < a.size)
    (hapart : ∀ piece, .node piece ∈ pieces → ¬ Relation.ReflTransGen a.Up id piece) :
    After (Edit.append id pieces) a fun _ a' => a.Regrows a' := by
  simp only [Edit.append, Edit.update, after_bind_iff, after_get_iff, after_modify_iff]
  refine (leaves_ends pieces).after.mono fun ids a₁ h₁ => ?_
  have hforest := h.congr h₁.parent_eq h₁.children_eq
  have hid₁ := hid.trans_le h₁.size_le
  have hapart₁ : ∀ child ∈ ids, ¬ Relation.ReflTransGen a₁.Up id child := by
    intro child hchild
    rcases h₁.of_mem child hchild with hmem | ⟨hnew, _⟩
    · have hup : a₁.Up = a.Up := by
        funext x y
        rw [Up, Up, h₁.parent_eq]
      rw [hup]
      exact hapart child hmem
    · refine hforest.not_reflTransGen_of_childless ?_ ?_
      · rw [h₁.children_eq, children, node_of_le hnew]
        rfl
      · rintro rfl
        omega
  refine (adoptAll_after (h₁.lt hlt)).mono ?_
  rintro _ a₂ ⟨hnodup, hroots, h₂⟩
  refine ⟨h₂.forest hforest hid₁ hnodup hroots hapart₁ rfl rfl, ?_⟩
  rw [size_update, h₂.size_eq]
  exact h₁.size_le

end

section

variable {pieces : List Piece} (hlt : ∀ id, .node id ∈ pieces → id.index < a.size)
  (hnodup : (pieces.filterMap Piece.node?).Nodup)
  (hroots : ∀ id, .node id ∈ pieces → a.parent id = none)

omit hlt in
include hroots in
theorem Laid.root (h : a.Laid pieces ids a') : ∀ id ∈ ids, a'.parent id = none := by
  intro id hid
  rw [h.parent_eq]
  rcases h.of_mem id hid with hmem | ⟨hnew, _⟩
  · exact hroots id hmem
  · rw [Arena.parent, node_of_le hnew]
    rfl

include hlt hnodup hroots

theorem allocAt_ends (form : NodeForm) (span : Span) :
    Ends (Edit.allocAt form span pieces) a fun _ _ => True := by
  rw [Edit.allocAt, ends_bind_iff]
  refine (leaves_ends pieces).mono fun ids a₁ h₁ => ?_
  exact attach_ends (h₁.lt hlt) (h₁.nodup hlt hnodup) (h₁.root hroots)

theorem alloc_ends (hne : pieces ≠ []) (form : NodeForm) :
    Ends (Edit.alloc form pieces) a fun _ _ => True := by
  simp only [Edit.alloc, ends_bind_iff, ends_get_iff]
  refine (leaves_ends pieces).mono fun ids a₁ h₁ => ?_
  have hne₁ : ids ≠ [] := by
    rw [← List.length_pos_iff, h₁.length_eq]
    exact List.length_pos_iff.mpr hne
  rw [List.head?_eq_some_head hne₁, List.getLast?_eq_some_getLast hne₁]
  exact attach_ends (h₁.lt hlt) (h₁.nodup hlt hnodup) (h₁.root hroots)

theorem append_ends (id : NodeId) : Ends (Edit.append id pieces) a fun _ _ => True := by
  simp only [Edit.append, Edit.update, ends_bind_iff, ends_get_iff, ends_modify_iff]
  refine (leaves_ends pieces).mono fun ids a₁ h₁ => ?_
  exact (adoptAll_ends (h₁.lt hlt) (h₁.nodup hlt hnodup) (h₁.root hroots)).mono
    fun _ _ _ => trivial

end

/-- What an arena is when a node has been taken from the children of its parent, which the node
itself does not know yet. -/
structure Freed (a : Arena) (id : NodeId) (a' : Arena) : Prop where
  size_eq : a'.size = a.size
  parent_eq : ∀ other, a'.parent other = a.parent other
  forest : (a'.update id fun n => { n with parent := none }).Forest

theorem Forest.freed_of_root (h : a.Forest) (hid : id.index < a.size) (hroot : a.parent id = none) :
    a.Freed id a :=
  ⟨rfl, fun _ => rfl, h.update hid hroot.symm rfl⟩

theorem Forest.freed (h : a.Forest) (hparent : a.parent id = some parent) :
    a.Freed id (a.update parent fun n => { n with children := n.children.filter (· != id) }) := by
  have hlt := h.lt_of_up hparent
  have hid := Arena.lt_of_up hparent
  refine ⟨size_update .., parent_update_of_eq hlt rfl, h.cut hparent (fun other => ?_) fun other => ?_⟩
  · rw [parent_update (by rwa [size_update]), parent_update_of_eq hlt rfl]
  · rw [children_update_of_eq (by rwa [size_update]) rfl, children_update hlt]
    rfl

/-- A node is taken from its parent, if it has one. -/
theorem detach_ends (h : a.Forest) (hid : id.index < a.size) :
    Ends (Edit.detach id) a fun _ a' => a'.Forest ∧ a'.size = a.size := by
  simp only [Edit.detach, Edit.removeChild, Edit.update, ends_bind_iff, ends_get_iff]
  cases hparent : a.parent id with
  | none => exact ⟨(h.freed_of_root hid hparent).forest, size_update ..⟩
  | some parent =>
    have hfreed := h.freed hparent
    exact ⟨hfreed.forest, (size_update ..).trans hfreed.size_eq⟩

/-- A node that its parent no longer has as a child takes the place of another one. -/
theorem Freed.replaced (h : a.Freed new a') (hne : old ≠ new) (hold : old.index < a.size)
    (hnew : new.index < a.size) (hapart : ¬ Relation.TransGen a.Up old new)
    (hsize : a''.size = a'.size) (hparent : ∀ id, a''.parent id = a'.parent id)
    (hchildren : ∀ id, a''.children id = if a'.parent old = some id
      then (a'.children id).replace old new else a'.children id) :
    ((a''.update old fun n => { n with parent := none }).update new
      fun n => { n with parent := a'.parent old }).Forest := by
  have hnew' : new.index < a'.size := by rwa [h.size_eq]
  have hold'' : old.index < a''.size := by rwa [hsize, h.size_eq]
  have hnew'' : new.index < (a''.update old fun n => { n with parent := none }).size := by
    rwa [size_update, hsize]
  refine h.forest.swap hne ?_ ?_ (fun id => ?_) fun id => ?_
  · rw [parent_update hnew', if_pos rfl]
  · intro hreach
    refine hapart (Relation.TransGen.mono (fun x y hxy => ?_) _ _ hreach)
    rw [Up, parent_update hnew', h.parent_eq] at hxy
    split at hxy
    · cases hxy
    · exact hxy
  · rw [parent_update hnew'', parent_update hold'', parent_update hnew', parent_update hnew',
      if_neg hne, hparent]
    split <;> rfl
  · rw [children_update_of_eq hnew'' rfl, children_update_of_eq hold'' rfl, hchildren,
      parent_update hnew', if_neg hne, children_update_of_eq hnew' rfl]

/-- Puts a free node where another one stands. -/
private def putInPlace (old new : NodeId) : Edit Unit := do
  let parent := (← get).parent old
  match parent with
  | some parent => Edit.update parent fun n => { n with children := n.children.replace old new }
  | none => pure ()
  Edit.update old fun n => { n with parent := none }
  Edit.update new fun n => { n with parent }

private theorem Freed.putInPlace_ends (h : a.Forest) (hfreed : a.Freed new a') (hne : old ≠ new)
    (hold : old.index < a.size) (hnew : new.index < a.size)
    (hapart : ¬ Relation.TransGen a.Up old new) :
    Ends (putInPlace old new) a' fun _ a'' => a''.Forest ∧ a''.size = a.size := by
  simp only [putInPlace, ends_bind_iff, ends_get_iff]
  cases hparent : a'.parent old with
  | none =>
    have hforest := hfreed.replaced hne hold hnew hapart rfl (fun _ => rfl) fun id => by
      rw [hparent, if_neg (Option.some_ne_none id).symm]
    rw [hparent] at hforest
    exact ⟨hforest, by rw [size_update, size_update, hfreed.size_eq]⟩
  | some parent =>
    have hlt : parent.index < a'.size := by
      rw [hfreed.size_eq]
      rw [hfreed.parent_eq] at hparent
      exact h.lt_of_up hparent
    have hforest := hfreed.replaced hne hold hnew hapart
      (size_update a' parent fun n => { n with children := n.children.replace old new })
      (parent_update_of_eq hlt rfl) fun id => by
        rw [hparent, children_update hlt]
        simp only [Option.some.injEq, eq_comm]
        split
        · next heq => rw [heq]; rfl
        · rfl
    rw [hparent] at hforest
    exact ⟨hforest, by rw [size_update, size_update, size_update, hfreed.size_eq]⟩

/-- A node takes the place of another one that it is not above of. -/
theorem Forest.replace_ends (h : a.Forest) (hold : old.index < a.size) (hnew : new.index < a.size)
    (hapart : ¬ Relation.TransGen a.Up old new) :
    Ends (Edit.replace old new) a fun _ a' => a'.Forest ∧ a'.size = a.size := by
  rw [Edit.replace]
  split
  · exact ends_pure_iff.mpr ⟨h, rfl⟩
  next hne =>
  have hplace : ∀ a₁, a.Freed new a₁ → Ends (putInPlace old new) a₁
      fun _ a' => a'.Forest ∧ a'.size = a.size := fun _ hfreed =>
    hfreed.putInPlace_ends h hne hold hnew hapart
  simp only [ends_bind_iff, ends_get_iff]
  cases hparent : a.parent new with
  | none => exact hplace a (h.freed_of_root hnew hparent)
  | some parent => exact hplace _ (h.freed hparent)

/-- A root that was made since, together with all that was made for it. -/
structure Grown (a : Arena) (id : NodeId) (a' : Arena) : Prop where
  regrows : a.Regrows a'
  parent_eq : ∀ id, id.index < a.size → a'.parent id = a.parent id
  size_le_index : a.size ≤ id.index
  lt : id.index < a'.size
  root : a'.parent id = none

theorem adoptAll_unchecked_ends (hlt : ∀ id ∈ ids, id.index < a.size) :
    Ends (ids.forM fun id => Edit.update id fun n => { n with parent := some parent }) a
      fun _ a' => a.Adopted parent ids a' :=
  ends_forM (fun _ id hid _ h₁ => ends_modify_iff.mpr (h₁.update (hlt id hid))) (.refl a parent)

/-- The roots made one after the other since an arena was. -/
structure GrownAll (a : Arena) (ids : List NodeId) (a' : Arena) : Prop where
  regrows : a.Regrows a'
  parent_eq : ∀ id, id.index < a.size → a'.parent id = a.parent id
  new : ∀ id ∈ ids, a.size ≤ id.index ∧ id.index < a'.size ∧ a'.parent id = none
  nodup : ids.Nodup

theorem GrownAll.add (h : a.GrownAll ids a') (h' : a'.Grown id a'') :
    a.GrownAll (ids ++ [id]) a'' := by
  have hle := h.regrows.size_le
  have hnew := h'.size_le_index
  refine ⟨h.regrows.trans h'.regrows, fun other hother => ?_, ?_, ?_⟩
  · rw [h'.parent_eq other (hother.trans_le hle), h.parent_eq other hother]
  · intro other hother
    rcases List.mem_append.mp hother with hother | hother
    · obtain ⟨hfrom, hlt, hroot⟩ := h.new other hother
      refine ⟨hfrom, hlt.trans_le h'.regrows.size_le, ?_⟩
      rw [h'.parent_eq other hlt, hroot]
    · rw [List.mem_singleton.mp hother]
      exact ⟨hle.trans hnew, h'.lt, h'.root⟩
  · refine List.nodup_append.mpr ⟨h.nodup, List.nodup_singleton id, ?_⟩
    rintro other hother _ hid rfl
    rw [List.mem_singleton] at hid
    have hlt := (h.new other hother).2.1
    rw [hid] at hlt
    omega

/-- The copies of some children become the children of a node made for them. -/
theorem GrownAll.gather (h : a.GrownAll ids a') {n : Node} (hn : n.parent = none)
    (hchildren : n.children = []) :
    Ends (do
      let copy ← Edit.push n
      ids.forM fun child => Edit.update child fun n => { n with parent := some copy }
      Edit.update copy fun n => { n with children := ids }
      return copy) a' (a.Grown) := by
  have hsize := size_push a' n
  have hforest : (a'.push n).2.Forest := h.regrows.forest.congr (parent_push hn) (children_push hchildren)
  have hlt : ∀ id ∈ ids, id.index < (a'.push n).2.size := fun id hid => by
    have hold := (h.new id hid).2.1
    omega
  have hroot : (a'.push n).2.parent ⟨a'.size⟩ = none := by
    rw [Arena.parent, node_push, if_pos rfl, hn]
  have hapart : ∀ id ∈ ids, ¬ Relation.ReflTransGen (a'.push n).2.Up ⟨a'.size⟩ id := by
    intro id hid hreach
    have hold := (h.new id hid).2.1
    rw [← Forest.eq_of_reflTransGen_root hroot hreach] at hold
    exact Nat.lt_irrefl _ hold
  have hnew : (⟨a'.size⟩ : NodeId).index < (a'.push n).2.size := by
    rw [hsize]
    exact Nat.lt_succ_self _
  rw [Edit.push, ends_bind_iff, ends_modifyGet_iff, ends_bind_iff,
    show (a'.push n).1 = ⟨a'.size⟩ from rfl]
  refine (adoptAll_unchecked_ends hlt).mono fun _ a₁ h₁ => ?_
  rw [Edit.update, ends_bind_iff, ends_modify_iff, ends_pure_iff]
  have hnew₁ := hnew
  rw [← h₁.size_eq] at hnew₁
  have hle := h.regrows.size_le
  refine ⟨⟨h₁.forest hforest hnew h.nodup ?_ hapart rfl ?_, ?_⟩, fun id hid => ?_, hle, ?_, ?_⟩
  · intro id hid
    rw [parent_push hn, (h.new id hid).2.2]
  · rw [h₁.children_eq, children, node_push, if_pos rfl, hchildren]
    rfl
  · rw [size_update, h₁.size_eq, hsize]
    omega
  · have hnot : id ∉ ids := fun hmem => by
      have hfrom := (h.new id hmem).1
      omega
    rw [parent_update_of_eq hnew₁ rfl, h₁.parent_eq, if_neg hnot, parent_push hn, h.parent_eq id hid]
  · rwa [size_update, h₁.size_eq]
  · have hnot : (⟨a'.size⟩ : NodeId) ∉ ids := fun hmem => by
      have hlt := (h.new _ hmem).2.1
      exact Nat.lt_irrefl _ hlt
    rw [parent_update_of_eq hnew₁ rfl, h₁.parent_eq, if_neg hnot, hroot]

theorem copyWithin_after (height : Nat) {a : Arena} {id : NodeId} (h : a.Forest) :
    After (Edit.copyWithin height id) a (a.Grown) := by
  induction height generalizing a id with
  | zero => exact after_throw
  | succ height ih =>
    simp only [Edit.copyWithin]
    rw [after_bind_iff, after_get_iff, after_bind_iff]
    refine After.mono (after_mapM (fun _ ids a' => a.GrownAll ids a') ?_
      ⟨⟨h, le_rfl⟩, fun _ _ => rfl, by simp, .nil⟩) fun ids a₁ h₁ => ?_
    · intro _ _ _ ids a₁ h₁
      exact (ih h₁.regrows.forest).mono fun _ _ h₂ => h₁.add h₂
    · exact (h₁.gather rfl rfl).after

/-- A copy of any tree is a root of its own. -/
theorem Forest.copy_ends (h : a.Forest) (hid : id.index < a.size) :
    Ends (Edit.copy id) a a.Grown := by
  obtain ⟨T, rfl, hheld⟩ := h.exists_tree hid
  have hapart := Apart.of_holds hheld (h.nodup_ids hheld)
  rw [← add_zero ({.tree (a.parent T.id) T} : Multiset Part)] at hapart
  refine (hapart.copy.and_after ?_).mono fun _ _ hboth => hboth.2
  rw [Edit.copy, after_bind_iff, after_get_iff]
  exact copyWithin_after a.size h

end Arena

end MessageLang
