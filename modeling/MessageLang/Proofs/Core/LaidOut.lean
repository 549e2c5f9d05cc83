import MessageLang.Proofs.Core.Reading

namespace MessageLang

namespace Tree

def Twig.laidOut : Twig → Bool
  | tree T => T.laidOut
  | token _ => true

theorem map_form_leaves (twigs : List Twig) (size : Nat) :
    (leaves twigs size).1.map Tree.form = twigs.map Twig.form := by
  induction twigs generalizing size with
  | nil => rfl
  | cons twig twigs ih =>
    cases twig with
    | tree T => exact congrArg (T.form :: ·) (ih size)
    | token t => exact congrArg (NodeForm.token t :: ·) (ih (size + 1))

theorem laidOutAll_leaves (twigs : List Twig) (size : Nat) :
    laidOutAll (leaves twigs size).1 = twigs.all Twig.laidOut := by
  induction twigs generalizing size with
  | nil => rfl
  | cons twig twigs ih =>
    cases twig with
    | tree T => exact congrArg (T.laidOut && ·) (ih size)
    | token t => exact ih (size + 1)

@[simp]
theorem laidOut_leaf (form : NodeForm) (span : Span) (size : Nat) :
    (leaf form span size).1.laidOut = form.admits [] := Bool.and_true _

@[simp]
theorem laidOut_allocAt (form : NodeForm) (span : Span) (twigs : List Twig) (size : Nat) :
    (allocAt form span twigs size).1.laidOut =
      (form.admits (twigs.map Twig.form) && twigs.all Twig.laidOut) := by
  rw [← map_form_leaves twigs size, ← laidOutAll_leaves twigs size]
  rfl

@[simp]
theorem laidOut_alloc (form : NodeForm) (twigs : List Twig) (size : Nat) :
    (alloc form twigs size).1.laidOut =
      (form.admits (twigs.map Twig.form) && twigs.all Twig.laidOut) := by
  rw [← map_form_leaves twigs size, ← laidOutAll_leaves twigs size]
  rfl

mutual

theorem laidOut_copy (T : Tree) (size : Nat) : (T.copy size).1.laidOut = T.laidOut := by
  match T with
  | node id form span grouped children =>
    rw [copy_eq, laidOut, laidOut, Tree.form, Tree.children, laidOutAll_copyAll children size,
      map_form_copyAll children size]

theorem laidOutAll_copyAll (trees : List Tree) (size : Nat) :
    laidOutAll (copyAll trees size).1 = laidOutAll trees := by
  match trees with
  | [] => rfl
  | T :: rest =>
    have hall : (copyAll (T :: rest) size).1 =
      (T.copy size).1 :: (copyAll rest (T.copy size).2).1 := rfl
    rw [hall, laidOutAll, laidOutAll, laidOut_copy T, laidOutAll_copyAll rest]

theorem map_form_copyAll (trees : List Tree) (size : Nat) :
    (copyAll trees size).1.map Tree.form = trees.map Tree.form := by
  match trees with
  | [] => rfl
  | T :: rest =>
    have hall : (copyAll (T :: rest) size).1 =
      (T.copy size).1 :: (copyAll rest (T.copy size).2).1 := rfl
    rw [hall, List.map_cons, List.map_cons, form_copy, map_form_copyAll rest]

end

theorem laidOut_setGrouped (T : Tree) (grouped : Bool) :
    (T.setGrouped grouped).laidOut = T.laidOut := by
  cases T
  rfl

theorem laidOut_inherit (T : Tree) (grouped : Bool) : (T.inherit grouped).laidOut = T.laidOut := by
  cases grouped
  · rfl
  · exact laidOut_setGrouped T true

theorem exists_form_eq_expr_of_mem_expressions {T child : Tree} (h : child ∈ T.expressions) :
    ∃ form, child.form = .expr form := by
  have hexpr := (List.mem_filter.mp h).2
  unfold isExpr at hexpr
  cases hform : child.form with
  | expr form => exact ⟨form, rfl⟩
  | _ => simp [hform, NodeForm.expr?] at hexpr

theorem exists_form_eq_type_of_mem_types {T child : Tree} (h : child ∈ T.types) :
    ∃ form, child.form = .type form := by
  have htype := (List.mem_filter.mp h).2
  unfold isType at htype
  cases hform : child.form with
  | type form => exact ⟨form, rfl⟩
  | _ => simp [hform, NodeForm.type?] at htype

section

variable {T : Tree} {s s' : Lowering} {size : Nat} {made : Tree × Nat}

/-- What a tree with the right layout is rewritten to has the right layout. -/
theorem Rewrites.laidOut (h : T.Rewrites s size made s') (hlaid : T.laidOut = true) :
    made.1.laidOut = true := by
  have hpart : ∀ {child}, child ∈ T.expressions → child.laidOut = true := fun hchild =>
    laidOut_of_mem_children hlaid (List.mem_of_mem_filter hchild)
  cases h with
  | @unary op operand others hform hoperands =>
    have hoperand : operand ∈ T.expressions := hoperands ▸ List.mem_cons_self
    obtain ⟨form, hsort⟩ := exists_form_eq_expr_of_mem_expressions hoperand
    simp [Tree.unary, Growing.bind_apply, NodeForm.admits, ExprForm.admits, Twig.form,
      Twig.laidOut, NodeForm.expr?, NodeForm.type?, hsort, hpart hoperand]
  | @logic text op left right hform hlogic hoperands =>
    obtain ⟨hadmits, hchildren⟩ := laidOut_iff.mp hlaid
    have hforms : (T.children.map Twig.tree).map Twig.form = T.children.map Tree.form := by
      rw [List.map_map]
      rfl
    rw [hform] at hadmits
    rw [Tree.logic, laidOut_allocAt, hforms, Bool.and_eq_true, List.all_map, List.all_eq_true]
    exact ⟨hadmits, hchildren⟩
  | @binary op left right hform hlogic hoperands =>
    rw [twoOperands?_eq_some_iff] at hoperands
    have hleft : left ∈ T.expressions := hoperands ▸ List.mem_cons_self
    have hright : right ∈ T.expressions := hoperands ▸ List.mem_cons_of_mem _ List.mem_cons_self
    obtain ⟨leftForm, hleftSort⟩ := exists_form_eq_expr_of_mem_expressions hleft
    obtain ⟨rightForm, hrightSort⟩ := exists_form_eq_expr_of_mem_expressions hright
    simp [Tree.binary, Growing.bind_apply, NodeForm.admits, ExprForm.admits, Twig.form,
      Twig.laidOut, NodeForm.expr?, NodeForm.type?, hleftSort, hrightSort, hpart hleft,
      hpart hright]
  | @whileLoop temporary temporaries condition body hform hoperands hfresh =>
    rw [twoOperands?_eq_some_iff] at hoperands
    have hcondition : condition ∈ T.expressions := hoperands ▸ List.mem_cons_self
    have hbody : body ∈ T.expressions := hoperands ▸ List.mem_cons_of_mem _ List.mem_cons_self
    obtain ⟨conditionForm, hconditionSort⟩ := exists_form_eq_expr_of_mem_expressions hcondition
    obtain ⟨bodyForm, hbodySort⟩ := exists_form_eq_expr_of_mem_expressions hbody
    simp [Tree.whileLoop, Growing.bind_apply, NodeForm.admits, ExprForm.admits, Twig.form,
      Twig.laidOut, NodeForm.expr?, NodeForm.type?, hconditionSort, hbodySort, hpart hcondition,
      hpart hbody, laidOut_copy, ExprForm.isLocalDef, List.filterMap_cons]
  | @function input output body others hform hoperands =>
    have hbody : body ∈ T.expressions := hoperands ▸ List.mem_cons_self
    obtain ⟨bodyForm, hbodySort⟩ := exists_form_eq_expr_of_mem_expressions hbody
    have htype : ∀ {type}, type ∈ T.types →
        (∃ form, type.form = .type form) ∧ type.laidOut = true := fun hmem =>
      ⟨exists_form_eq_type_of_mem_types hmem,
        laidOut_of_mem_children hlaid (List.mem_of_mem_filter hmem)⟩
    obtain ⟨inputForm, hinputSort, hinput⟩ : ∃ form,
        (orEmpty T.span.startPoint (T.inputType? input) size).1.form = .type form ∧
        (orEmpty T.span.startPoint (T.inputType? input) size).1.laidOut = true := by
      cases hin : T.inputType? input with
      | none => exact ⟨.empty, rfl, rfl⟩
      | some type =>
        obtain ⟨⟨form, hsort⟩, hlaid⟩ := htype (mem_types_of_inputType?_eq_some hin)
        exact ⟨form, hsort, hlaid⟩
    simp only [Tree.function, Growing.bind_apply, laidOut_allocAt]
    cases hout : T.outputType? input output with
    | none =>
      simp [NodeForm.admits, ExprForm.admits, Twig.form, Twig.laidOut, NodeForm.expr?,
        NodeForm.type?, hbodySort, hinputSort, hinput, hpart hbody, List.filterMap_cons]
    | some type =>
      obtain ⟨⟨outputForm, houtputSort⟩, houtput⟩ := htype (mem_types_of_outputType?_eq_some hout)
      simp [NodeForm.admits, ExprForm.admits, Twig.form, Twig.laidOut, NodeForm.expr?,
        NodeForm.type?, hbodySort, hinputSort, hinput, houtputSort, houtput, hpart hbody,
        List.filterMap_cons]
  | @block item hform hitems hfree =>
    exact (laidOut_setGrouped item true).trans (hpart (hitems ▸ List.mem_cons_self))

/-- Naming fields changes neither what has types as children nor any layout. -/
private theorem laidOut_nameFields {log : Log} {seen : Placement.FieldsSeen} {index : Nat}
    {trees : List Tree} (hlaid : ∀ T ∈ trees, T.laidOut = true) :
    (((nameFields log seen index trees).2.map Tree.form).countP (·.type?.isSome) =
      (trees.map Tree.form).countP (·.type?.isSome)) ∧
      ∀ T ∈ (nameFields log seen index trees).2, T.laidOut = true := by
  induction trees generalizing log seen index with
  | nil => exact ⟨rfl, hlaid⟩
  | cons T rest ih =>
    have hrest : ∀ {log seen index}, _ := fun {log seen index} =>
      @ih log seen index fun U hU => hlaid U (by simp [hU])
    have hT := hlaid T (by simp)
    -- trees that are no fields stay as they are
    have hstay : ∀ {log seen index}, ((T :: (nameFields log seen index rest).2).map
        Tree.form).countP (·.type?.isSome) = ((T :: rest).map Tree.form).countP (·.type?.isSome) ∧
        ∀ U ∈ T :: (nameFields log seen index rest).2, U.laidOut = true := by
      intro log seen index
      refine ⟨?_, List.forall_mem_cons.mpr ⟨hT, hrest.2⟩⟩
      rw [List.map_cons, List.map_cons, List.countP_cons, List.countP_cons, hrest.1]
    unfold nameFields
    split
    · next declared hform =>
      refine ⟨?_, List.forall_mem_cons.mpr ⟨?_, hrest.2⟩⟩
      · have hnone : ∀ name, (NodeForm.expr (.structField name)).type? = none := fun _ => rfl
        simp only [List.map_cons, List.countP_cons, hrest.1, form_setForm, hform, hnone]
      · have hT := laidOut_iff.mp hT
        rw [hform] at hT
        exact laidOut_iff.mpr hT
    · exact hstay
    · exact hstay

/-- A tree with the right layout keeps it when it stays. -/
theorem Settles.laidOut {above : List NodeForm} (h : T.Settles above s size made s')
    (hlaid : T.laidOut = true) : made.1.laidOut = true := by
  obtain ⟨hadmits, hchildren⟩ := laidOut_iff.mp hlaid
  cases h with
  | conditional hform hbranches =>
    have hadmits := laidOut_expr hlaid hform
    simp only [ExprForm.admits, length_exprForms, hbranches, Bool.and_eq_true, beq_iff_eq]
      at hadmits
    have hsame : (T.completeConditional size).1.children = T.children ++
        [.node ⟨size + 1⟩ (.token (.keyword .elseWord T.span.stop)) (Token.span _) false [],
          (leaf (.expr (.constant .nothing)) (.point T.span.stop) size).1] := rfl
    have hexprs : (T.completeConditional size).1.expressions.length = 3 := by
      rw [expressions, hsame, List.filter_append, List.length_append]
      exact congrArg (· + 1) hbranches
    have htypes : (T.completeConditional size).1.types = T.types := by
      rw [types, hsame, List.filter_append]
      exact List.append_nil _
    have hsort : (T.completeConditional size).1.form = .expr .conditional := hform
    refine (laidOut_expr_iff hsort).mpr ⟨?_, ?_⟩
    · simp [ExprForm.admits, length_exprForms, hexprs, htypes, hadmits.2]
    · rw [hsame, List.forall_mem_append]
      exact ⟨hchildren, by simp [laidOut, laidOutAll, NodeForm.admits, leaf, ExprForm.admits]⟩
  | struct hform =>
    obtain ⟨hcount, hfields⟩ := @laidOut_nameFields s.log ⟨[], false⟩ 0 _ hchildren
    refine laidOut_iff.mpr ⟨?_, hfields⟩
    rw [hform] at hadmits
    rw [form_withChildren, children_withChildren, hform]
    simpa [NodeForm.admits, ExprForm.admits, hcount] using hadmits
  | placed => exact hlaid
  | kept => exact hlaid

end

end Tree

end MessageLang
