import MessageLang.Proofs.Tree.Editing

namespace MessageLang

namespace Arena.Apart

variable {start a : Arena} {owned : List NodeId} {rest : Multiset Part} {size : Nat}
  {parent : Option NodeId} {T : Tree}

private theorem reparentAll {trees : List Tree} {id : NodeId}
    (h : start.Apart owned ((trees.map (.tree none) : List Part) + rest) size a) :
    Ends ((trees.map Tree.id).forM fun child =>
      Edit.update child fun n => { n with parent := some id }) a fun _ a' =>
      start.Apart owned ((trees.map (.tree (some id)) : List Part) + rest) size a' := by
  induction trees generalizing rest a with
  | nil => exact ends_pure_iff.mpr h
  | cons T trees ih =>
    simp only [List.map_cons, List.forM_eq_forM, List.forM_cons, ends_bind_iff, Edit.update,
      ends_modify_iff]
    simp only [List.map_cons, ← Multiset.cons_coe, ← Multiset.singleton_add, add_assoc] at h ⊢
    have h₁ := h.update_tree T (some id)
      (fun n => { n with parent := some id }) rfl rfl rfl
    rw [add_left_comm] at h₁ ⊢
    exact ih h₁

/-- Copying all trees of a list, when each can be copied. -/
private theorem copyAllWithin {height : Nat} {trees : List Tree}
    (hcopy : ∀ T ∈ trees, ∀ {rest : Multiset Part} {size : Nat} {a : Arena},
      start.Apart owned ({.tree parent T} + rest) size a →
        Ends (Edit.copyWithin height T.id) a fun id a' => id = (T.copy size).1.id ∧
          start.Apart owned ({.tree none (T.copy size).1} + ({.tree parent T} + rest))
            (T.copy size).2 a')
    (h : start.Apart owned ((trees.map (.tree parent) : List Part) + rest) size a) :
    Ends ((trees.map Tree.id).mapM (Edit.copyWithin height)) a fun ids a' =>
      ids = (Tree.copyAll trees size).1.map Tree.id ∧
        start.Apart owned (((Tree.copyAll trees size).1.map (.tree none) : List Part) +
          ((trees.map (.tree parent) : List Part) + rest)) (Tree.copyAll trees size).2 a' := by
  induction trees generalizing rest size a with
  | nil => exact ends_pure_iff.mpr ⟨rfl, h.regroup (zero_add _).symm⟩
  | cons T trees ih =>
    simp only [List.map_cons, List.mapM_cons, ends_bind_iff, ends_pure_iff]
    simp only [List.map_cons, ← Multiset.cons_coe, ← Multiset.singleton_add, add_assoc] at h ⊢
    refine (hcopy T (by simp) h).mono ?_
    rintro _ a₁ ⟨rfl, h₁⟩
    have h₁' : start.Apart owned ((trees.map (.tree parent) : List Part) +
        ({.tree none (T.copy size).1} + ({.tree parent T} + rest))) (T.copy size).2 a₁ :=
      h₁.regroup (by abel)
    refine (ih (fun U hU => hcopy U (by simp [hU])) h₁').mono ?_
    rintro _ a₂ ⟨rfl, h₂⟩
    refine ⟨rfl, ?_⟩
    have hall : (Tree.copyAll (T :: trees) size).1 =
      (T.copy size).1 :: (Tree.copyAll trees (T.copy size).2).1 := rfl
    have hsize : (Tree.copyAll (T :: trees) size).2 = (Tree.copyAll trees (T.copy size).2).2 := rfl
    rw [hall, hsize, List.map_cons, ← Multiset.cons_coe, ← Multiset.singleton_add]
    exact h₂.regroup (by abel)

private theorem copyWithin (height : Nat) :
    ∀ {T : Tree} {parent : Option NodeId} {rest : Multiset Part} {size : Nat} {a : Arena},
      T.ids.length ≤ height → start.Apart owned ({.tree parent T} + rest) size a →
      Ends (Edit.copyWithin height T.id) a fun id a' => id = (T.copy size).1.id ∧
        start.Apart owned ({.tree none (T.copy size).1} + ({.tree parent T} + rest))
          (T.copy size).2 a' := by
  induction height with
  | zero =>
    intro T _ _ _ _ hheight
    rw [T.ids_eq, List.length_cons] at hheight
    omega
  | succ height ih =>
    intro T parent rest size a hheight h
    simp only [Edit.copyWithin, ends_bind_iff, ends_get_iff, h.holds.node_eq]
    rw [open_iff, add_assoc, add_left_comm] at h
    have hcopy : ∀ child ∈ T.children, ∀ {rest : Multiset Part} {size : Nat} {a : Arena},
        start.Apart owned ({.tree (some T.id) child} + rest) size a →
          Ends (Edit.copyWithin height child.id) a fun id a' => id = (child.copy size).1.id ∧
            start.Apart owned ({.tree none (child.copy size).1} +
              ({.tree (some T.id) child} + rest)) (child.copy size).2 a' := by
      intro child hchild rest size a
      refine ih ?_
      have hlt := Tree.length_ids_lt_of_mem_children hchild
      omega
    refine (copyAllWithin hcopy h).mono ?_
    rintro _ a₁ ⟨rfl, h₁⟩
    simp only [Edit.push, ends_modifyGet_iff]
    have hnew : ∀ n, (a₁.push n).1 = ⟨(Tree.copyAll T.children size).2⟩ :=
      fun _ => congrArg NodeId.mk h₁.size_eq
    rw [hnew]
    have h₂ := h₁.push { form := T.form, span := T.span, grouped := T.grouped }
    rw [add_left_comm] at h₂
    refine h₂.reparentAll.mono fun _ a₃ h₃ => ?_
    simp only [Edit.update, ends_modify_iff, ends_pure_iff]
    refine ⟨congrArg (·.1.id) (T.copy_eq size).symm, ?_⟩
    rw [add_left_comm] at h₃
    have h₄ := h₃.update_top
      fun n => { n with children := (Tree.copyAll T.children size).1.map Tree.id }
    rw [T.copy_eq]
    refine open_iff.mpr ?_
    rw [add_left_comm]
    refine open_iff.mpr ?_
    simp only [Tree.top, Tree.id, Tree.form, Tree.span, Tree.children, Tree.grouped] at h₄ ⊢
    exact h₄.regroup (by abel)

/-- A copy has the same nodes under new handles. What it is made from stays. -/
theorem copy (h : start.Apart owned ({.tree parent T} + rest) size a) :
    Ends (Edit.copy T.id) a (start.Made owned ({.tree parent T} + rest) (T.copy size)) := by
  simp only [Edit.copy, ends_bind_iff, ends_get_iff]
  exact copyWithin a.size (h.holds.length_ids_le h.ids_nodup) h

end Arena.Apart

end MessageLang
