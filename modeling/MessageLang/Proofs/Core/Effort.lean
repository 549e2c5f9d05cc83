import MessageLang.Proofs.Core.TreeStep

namespace MessageLang

namespace Tree

/-- How many steps and levels lowering takes at most for a node itself: those for the nodes that
stand in its place included. -/
def weight : NodeForm → Nat
  | .expr .whileLoop => 6
  | .expr (.function ..) => 4
  | .expr (.binary _) => 3
  | .expr (.unary _) => 2
  | _ => 1

mutual

/-- A bound for the steps and levels on the way to any one node while a tree is lowered. -/
def effort : Tree → Nat
  | node _ form _ _ children => weight form + effortAll children

def effortAll : List Tree → Nat
  | [] => 0
  | T :: rest => max T.effort (effortAll rest)

end

theorem effort_eq (T : Tree) : T.effort = weight T.form + effortAll T.children := by
  cases T
  rfl

theorem weight_pos (form : NodeForm) : 0 < weight form := by
  unfold weight
  split <;> decide

theorem weight_le (form : NodeForm) : weight form ≤ 6 := by
  unfold weight
  split <;> decide

theorem effort_pos (T : Tree) : 0 < T.effort := by
  rw [effort_eq]
  exact Nat.add_pos_left (weight_pos _) _

theorem effort_le_effortAll {trees : List Tree} {T : Tree} (h : T ∈ trees) :
    T.effort ≤ effortAll trees := by
  induction trees with
  | nil => cases h
  | cons U rest ih =>
    rw [effortAll]
    rcases List.mem_cons.mp h with rfl | h
    · exact Nat.le_max_left ..
    · exact (ih h).trans (Nat.le_max_right ..)

theorem effort_le_of_mem_children {T child : Tree} (h : child ∈ T.children) :
    child.effort + weight T.form ≤ T.effort := by
  have hle := effort_le_effortAll h
  rw [effort_eq T]
  omega

/-- A tree takes no more than a fixed effort for every node. -/
theorem effort_le_length (T : Tree) : T.effort ≤ 6 * T.ids.length := by
  induction T with
  | node id form span grouped children ih =>
    have hall : effortAll children ≤ 6 * (children.flatMap ids).length := by
      clear id form span grouped
      induction children with
      | nil => exact Nat.zero_le _
      | cons T rest ihrest =>
        have hT := ih T (by simp)
        have hrest := ihrest fun U hU => ih U (by simp [hU])
        rw [effortAll, List.flatMap_cons, List.length_append]
        omega
    have hweight := weight_le form
    rw [effort, ids, idsAll_eq, List.length_cons]
    omega

theorem effort_setGrouped (T : Tree) (grouped : Bool) : (T.setGrouped grouped).effort = T.effort := by
  cases T
  rfl

theorem effort_leaf (form : NodeForm) (span : Span) (size : Nat) :
    (leaf form span size).1.effort = weight form := rfl

mutual

theorem effort_copy (T : Tree) (size : Nat) : (T.copy size).1.effort = T.effort := by
  match T with
  | node id form span grouped children =>
    rw [copy_eq, effort, effort]
    exact congrArg _ (effortAll_copyAll children size)

theorem effortAll_copyAll (trees : List Tree) (size : Nat) :
    effortAll (copyAll trees size).1 = effortAll trees := by
  match trees with
  | [] => rfl
  | T :: rest =>
    have hall : (copyAll (T :: rest) size).1 =
      (T.copy size).1 :: (copyAll rest (T.copy size).2).1 := rfl
    rw [hall, effortAll, effortAll, effort_copy T, effortAll_copyAll rest]

end

/-- What trees and tokens take below a node that is made of them. -/
def Twig.effortAll : List Twig → Nat
  | [] => 0
  | .tree T :: rest => max T.effort (effortAll rest)
  | .token _ :: rest => max 1 (effortAll rest)

theorem effortAll_leaves (twigs : List Twig) (size : Nat) :
    effortAll (leaves twigs size).1 = Twig.effortAll twigs := by
  induction twigs generalizing size with
  | nil => rfl
  | cons twig twigs ih =>
    cases twig with
    | tree T => exact congrArg (max T.effort) (ih size)
    | token t => exact congrArg (max 1) (ih (size + 1))

theorem effort_allocAt (form : NodeForm) (span : Span) (twigs : List Twig) (size : Nat) :
    (allocAt form span twigs size).1.effort = weight form + Twig.effortAll twigs := by
  rw [← effortAll_leaves twigs size]
  rfl

theorem effort_alloc (form : NodeForm) (twigs : List Twig) (size : Nat) :
    (alloc form twigs size).1.effort = weight form + Twig.effortAll twigs := by
  rw [← effortAll_leaves twigs size]
  rfl

theorem Twig.effortAll_map_tree (trees : List Tree) :
    effortAll (trees.map .tree) = Tree.effortAll trees := by
  induction trees with
  | nil => rfl
  | cons T rest ih => rw [List.map_cons, effortAll, ih, Tree.effortAll]

theorem Twig.effortAll_append (twigs twigs' : List Twig) :
    effortAll (twigs ++ twigs') = max (effortAll twigs) (effortAll twigs') := by
  induction twigs with
  | nil => exact (Nat.zero_max _).symm
  | cons twig twigs ih =>
    cases twig with
    | tree T => rw [List.cons_append, effortAll, ih, effortAll, Nat.max_assoc]
    | token t => rw [List.cons_append, effortAll, ih, effortAll, Nat.max_assoc]

section

variable {T : Tree} {above : List NodeForm} {s s' : Lowering} {size : Nat} {made : Tree × Nat}

theorem effort_le_of_mem_expressions {child : Tree} (h : child ∈ T.expressions) :
    child.effort + weight T.form ≤ T.effort :=
  effort_le_of_mem_children (List.mem_of_mem_filter h)

theorem effort_le_of_mem_types {child : Tree} (h : child ∈ T.types) :
    child.effort + weight T.form ≤ T.effort :=
  effort_le_of_mem_children (List.mem_of_mem_filter h)

private theorem effort_function {input output : Bool} {body : Tree}
    (hform : T.form = .expr (.function input output)) (hbody : body ∈ T.expressions) (size : Nat) :
    (T.function input output body size).1.effort < T.effort := by
  have hbody := effort_le_of_mem_expressions hbody
  have hpos := body.effort_pos
  have hinput : (orEmpty T.span.startPoint (T.inputType? input) size).1.effort + 4 ≤ T.effort := by
    cases htype : T.inputType? input with
    | none =>
      rw [hform] at hbody
      simp only [orEmpty, effort_leaf, weight] at hbody ⊢
      omega
    | some type =>
      have hle := effort_le_of_mem_types (mem_types_of_inputType?_eq_some htype)
      rwa [hform] at hle
  have houtput : effortAll (T.outputType? input output).toList + 4 ≤ T.effort := by
    cases htype : T.outputType? input output with
    | none =>
      rw [hform] at hbody
      simp only [Option.toList, effortAll, weight] at hbody ⊢
      omega
    | some type =>
      have hle := effort_le_of_mem_types (mem_types_of_outputType?_eq_some htype)
      rw [hform] at hle
      simpa [effortAll, weight] using hle
  rw [hform] at hbody
  simp only [function, Growing.bind_apply, effort_allocAt, Twig.effortAll, Twig.effortAll_append,
    Twig.effortAll_map_tree, weight] at hbody ⊢
  omega

/-- What replaces a tree takes less effort than the tree itself. -/
theorem Rewrites.effort_lt (h : T.Rewrites s size made s') : made.1.effort < T.effort := by
  cases h with
  | @unary _ operand _ hform hoperands =>
    have hoperand := effort_le_of_mem_expressions (hoperands ▸ List.mem_cons_self)
    have hpos := operand.effort_pos
    rw [hform] at hoperand
    simp only [Tree.unary, Growing.bind_apply, effort_allocAt, Twig.effortAll, effort_leaf,
      weight] at hoperand ⊢
    omega
  | logic hform _ hoperands =>
    rw [Tree.logic, effort_allocAt, Twig.effortAll_map_tree, effort_eq T, hform]
    simp only [weight]
    omega
  | @binary _ left _ hform _ hoperands =>
    rw [twoOperands?_eq_some_iff] at hoperands
    have hpos := left.effort_pos
    have hleft := effort_le_of_mem_expressions (hoperands ▸ List.mem_cons_self)
    have hright := effort_le_of_mem_expressions
      (hoperands ▸ List.mem_cons_of_mem _ List.mem_cons_self)
    rw [hform] at hleft hright
    simp only [Tree.binary, Growing.bind_apply, effort_allocAt, effort_alloc, Twig.effortAll,
      effort_leaf, weight] at hleft hright ⊢
    omega
  | @whileLoop _ _ condition body hform hoperands _ =>
    rw [twoOperands?_eq_some_iff] at hoperands
    have hcondition := effort_le_of_mem_expressions (hoperands ▸ List.mem_cons_self)
    have hbody := effort_le_of_mem_expressions
      (hoperands ▸ List.mem_cons_of_mem _ List.mem_cons_self)
    have hpos := condition.effort_pos
    rw [hform] at hcondition hbody
    simp only [Tree.whileLoop, Growing.bind_apply, effort_allocAt, effort_alloc, effort_copy,
      Twig.effortAll, effort_leaf, weight] at hcondition hbody ⊢
    omega
  | function hform hoperands => exact effort_function hform (hoperands ▸ List.mem_cons_self) size
  | block hform hitems _ =>
    have hitem := effort_le_of_mem_expressions (hitems ▸ List.mem_cons_self)
    have hpos := weight_pos T.form
    rw [effort_setGrouped]
    omega

private theorem effort_of_mem_nameFields {log : Log} {seen : Placement.FieldsSeen} {index : Nat}
    {trees : List Tree} {child : Tree} (h : child ∈ (nameFields log seen index trees).2) :
    child.effort ≤ effortAll trees := by
  induction trees generalizing log seen index with
  | nil => cases h
  | cons T rest ih =>
    rw [effortAll]
    unfold nameFields at h
    split at h <;> rcases List.mem_cons.mp h with rfl | h
    · next hform =>
      refine le_trans (Nat.le_of_eq ?_) (Nat.le_max_left ..)
      rw [effort_eq, effort_eq, hform]
      rfl
    · exact (ih h).trans (Nat.le_max_right ..)
    · exact Nat.le_max_left ..
    · exact (ih h).trans (Nat.le_max_right ..)
    · exact Nat.le_max_left ..
    · exact (ih h).trans (Nat.le_max_right ..)

/-- The parts of a tree that stays take less effort than the tree. -/
theorem Settles.effort_lt (h : Settles above T s size made s') {child : Tree}
    (hchild : child ∈ made.1.children) : child.effort < T.effort := by
  have hpos := weight_pos T.form
  have hold : ∀ child ∈ T.children, child.effort < T.effort := fun child hchild => by
    have hle := effort_le_of_mem_children hchild
    omega
  cases h with
  | conditional hform hbranches =>
    obtain ⟨branch, hbranch⟩ := List.exists_mem_of_length_pos (hbranches ▸ Nat.zero_lt_two)
    have hone := effort_le_of_mem_expressions hbranch
    have hbranchpos := branch.effort_pos
    rcases List.mem_append.mp hchild with hchild | hchild
    · exact hold child hchild
    · have hle := effort_le_effortAll hchild
      simp only [effortAll, effort, weight] at hle
      omega
  | struct hform =>
    have hle := effort_of_mem_nameFields hchild
    rw [effort_eq T]
    omega
  | placed => exact hold child hchild
  | kept => exact hold child hchild

end

end Tree

end MessageLang
