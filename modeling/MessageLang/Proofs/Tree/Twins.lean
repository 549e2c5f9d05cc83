import MessageLang.Proofs.Tree.Copying
import MessageLang.Proofs.Tree.Forest

namespace MessageLang

/-- Being the same tree but for the handles of the nodes. -/
inductive Tree.Twin : Tree → Tree → Prop
  | node {id id' : NodeId} {form : NodeForm} {span : Span} {grouped : Bool}
      {children children' : List Tree} (length_eq : children.length = children'.length)
      (twins : ∀ pair ∈ children.zip children', Twin pair.1 pair.2) :
      Twin (.node id form span grouped children) (.node id' form span grouped children')

@[simp]
theorem NodeForm.sameShape_self (form : NodeForm) : form.sameShape form = true := by
  cases form <;> simp [sameShape]

namespace Tree

variable {T T' : Tree}

theorem Twin.symm (h : T.Twin T') : T'.Twin T := by
  induction h with
  | node length_eq _ ih =>
    refine .node length_eq.symm fun pair hpair => ?_
    rw [← List.zip_swap, List.mem_map] at hpair
    obtain ⟨swapped, hswapped, rfl⟩ := hpair
    exact ih swapped hswapped

theorem length_copyAll (trees : List Tree) (size : Nat) :
    (copyAll trees size).1.length = trees.length := by
  induction trees generalizing size with
  | nil => rfl
  | cons T trees ih => exact congrArg Nat.succ (ih _)

/-- The pairs of trees and their copies are each a tree and a copy of that. -/
theorem exists_copy_of_mem_zip {trees : List Tree} {size : Nat} {pair : Tree × Tree}
    (h : pair ∈ trees.zip (copyAll trees size).1) :
    pair.1 ∈ trees ∧ ∃ size, pair.2 = (pair.1.copy size).1 := by
  induction trees generalizing size with
  | nil => cases h
  | cons T trees ih =>
    rcases List.mem_cons.mp h with rfl | h
    · exact ⟨List.mem_cons_self, size, rfl⟩
    · obtain ⟨hmem, hcopy⟩ := ih h
      exact ⟨List.mem_cons_of_mem _ hmem, hcopy⟩

theorem twin_copy (T : Tree) (size : Nat) : T.Twin (T.copy size).1 := by
  induction T generalizing size with
  | node id form span grouped children ih =>
    rw [copy_eq]
    refine .node (length_copyAll children size).symm fun pair hpair => ?_
    obtain ⟨hmem, size', heq⟩ := exists_copy_of_mem_zip hpair
    rw [heq]
    exact ih pair.1 hmem size'

end Tree

namespace Arena

variable {a a' : Arena} {parent parent' : Option NodeId} {T T' : Tree} {id : NodeId}

/-- Trees that differ in their handles only are found to have the same shape. -/
theorem Holds.sameShapeWithin (h : a.Holds parent T) (h' : a.Holds parent' T') (htwin : T.Twin T')
    {height : Nat} (hheight : T.ids.length ≤ height) :
    a.sameShapeWithin height T.id T'.id = true := by
  induction htwin generalizing parent parent' height with
  | @node id id' form span grouped children children' length_eq _ ih =>
    cases height with
    | zero =>
      rw [Tree.ids_eq, List.length_cons] at hheight
      omega
    | succ height =>
      rw [Arena.sameShapeWithin, h.form_eq, h'.form_eq, h.children_eq, h'.children_eq]
      simp only [Tree.form, Tree.children, NodeForm.sameShape_self, List.length_map, length_eq,
        beq_self_eq_true, Bool.and_self, Bool.true_and]
      rw [List.zip_map, List.all_map, List.all_eq_true]
      intro pair hpair
      have hmem : pair.1 ∈ children := (List.of_mem_zip hpair).1
      have hlt := Tree.length_ids_lt_of_mem_children
        (T := .node id form span grouped children) hmem
      exact ih pair hpair (h.child hmem) (h'.child (List.of_mem_zip hpair).2) (by omega)

/-- A tree that two arenas hold has the same nodes in both. -/
theorem Holds.node_eq_node (h : a.Holds parent T) (h' : a'.Holds parent T) (hid : id ∈ T.ids) :
    a'.node id = a.node id := by
  induction h with
  | node _ eq _ ih =>
    rw [Tree.ids_eq, List.mem_cons, List.mem_flatMap] at hid
    rcases hid with rfl | ⟨child, hchild, hid⟩
    · exact h'.node_eq.trans eq.symm
    · exact ih child hchild (h'.child hchild) hid

/-- Copying a node of a forest makes a tree of new nodes, which is a root and the same as the one
copied in all but its handles. Nothing becomes of the nodes there were. -/
theorem Forest.copy_twin (h : a.Forest) (hid : id.index < a.size) :
    Ends (Edit.copy id) a fun id' a' => ∃ T T', T.id = id ∧ a.Holds (a.parent id) T ∧
      T'.id = id' ∧ a'.Holds none T' ∧ T.Twin T' ∧
      T'.ids.Nodup ∧ (∀ new ∈ T'.ids, a.size ≤ new.index) ∧
      (∀ old, old.index < a.size → a'.node old = a.node old) ∧
      a'.sameShape id id' = true ∧ a'.sameShape id' id = true := by
  obtain ⟨T, rfl, hheld⟩ := h.exists_tree hid
  have hapart := Apart.of_holds hheld (h.nodup_ids hheld)
  rw [← add_zero ({.tree (a.parent T.id) T} : Multiset Part)] at hapart
  refine hapart.copy.mono ?_
  rintro _ a' ⟨rfl, hmade⟩
  have hnew : a'.Holds none (T.copy a.size).1 := hmade.holds
  have hold : a'.Holds (a.parent T.id) T := by
    rw [add_left_comm] at hmade
    exact hmade.holds
  have hdisjoint : ∀ id ∈ (T.copy a.size).1.ids, id ∉ T.ids := by
    have hnodup := hmade.nodup
    simp only [Part.idsOf_add, Part.idsOf_singleton, Multiset.nodup_add, Part.ids] at hnodup
    intro id hid hmem
    exact Multiset.disjoint_left.mp hnodup.2.2 hid (by simpa using .inl hmem)
  have htwin := T.twin_copy a.size
  refine ⟨T, _, rfl, hheld, rfl, hnew, htwin, hmade.ids_nodup, fun id hid => ?_, fun id hid => ?_,
    hold.sameShapeWithin hnew htwin (hold.length_ids_le (h.nodup_ids hheld)),
    hnew.sameShapeWithin hold htwin.symm (hnew.length_ids_le hmade.ids_nodup)⟩
  · refine (hmade.owned id ?_).resolve_left (hdisjoint id hid)
    simpa [Part.ids] using .inl hid
  · by_cases hmem : id ∈ T.ids
    · exact hheld.node_eq_node hold hmem
    · exact hmade.keeps.node_eq id hid hmem

/-- A loop around a reference in parentheses. -/
def nestedArena : Arena where
  nodes := #[{ form := .expr (.reference "more"), span := ⟨10, 14, by decide⟩, parent := some ⟨1⟩ },
    { form := .expr .nested, span := ⟨9, 15, by decide⟩, parent := some ⟨2⟩, children := [⟨0⟩],
      grouped := true },
    { form := .expr .repeatLoop, span := ⟨2, 15, by decide⟩, children := [⟨1⟩] }]

/-- What is in the loop is copied, and the loop stays as it is. -/
theorem copy_twin_nestedArena : nestedArena.Forest ∧ 1 < nestedArena.size ∧
    Ends (Edit.copy ⟨1⟩) nestedArena fun id' a' => ∃ T T' : Tree, T.id = ⟨1⟩ ∧
      nestedArena.Holds (some ⟨2⟩) T ∧ T'.id = id' ∧ a'.Holds none T' ∧ T.Twin T' ∧
      T'.ids.Nodup ∧ (∀ new ∈ T'.ids, 3 ≤ new.index) ∧
      (∀ old, old.index < 3 → a'.node old = nestedArena.node old) ∧
      a'.sameShape ⟨1⟩ id' = true ∧ a'.sameShape id' ⟨1⟩ = true := by
  have hforest : nestedArena.Forest := forest_of_children_first (by decide) (by decide) (by decide)
  exact ⟨hforest, by decide, hforest.copy_twin (by decide)⟩

end Arena

end MessageLang
