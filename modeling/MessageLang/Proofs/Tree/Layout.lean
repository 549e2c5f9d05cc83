import MessageLang.Proofs.Tree.Growing

namespace MessageLang

namespace ExprForm

def isLocalDef : ExprForm → Bool
  | localDef .. => true
  | _ => false

/-- Which expressions, and how many types, an expression has as children. -/
def admits (expressions : List ExprForm) (types : Nat) : ExprForm → Bool
  | constant _ | reference _ => expressions.length == 0 && types == 0
  | structField _ | nested | newObject | unary _ | repeatLoop | assignment _ =>
    expressions.length == 1 && types == 0
  | call | binary _ | logic _ | whileLoop => expressions.length == 2 && types == 0
  | conditional => (expressions.length == 2 || expressions.length == 3) && types == 0
  | returnExit | breakExit => expressions.length ≤ 1 && types == 0
  | localDef .. => expressions.length == 1 && types ≤ 1
  | locals => expressions.all isLocalDef && types == 0
  | handler => expressions.length == 1 && (types == 1 || types == 2)
  | function input output => expressions.length == 1 && types == input.toNat + output.toNat
  | array | struct | block => types == 0

end ExprForm

namespace TypeForm

def isTypedField : TypeForm → Bool
  | typedField _ => true
  | _ => false

def isInlineDeclaration : TypeForm → Bool
  | inlineDeclaration _ => true
  | _ => false

/-- Which types, and how many expressions, a piece of type syntax has as children. -/
def admits (types : List TypeForm) (expressions : Nat) : TypeForm → Bool
  | empty | simple _ | parameter _ => types.length == 0 && expressions == 0
  | typedField _ => types.length == 1 && expressions ≤ 1
  | compound => types.all isTypedField && expressions == 0
  | template _ | mergedType => expressions == 0
  | functionType => types.length == 2 && expressions == 0
  | nestedType => types.length == 1 && expressions == 0
  | inlineDeclaration symbol => types.length == (if symbol.isSome then 1 else 2) && expressions == 0
  | inlineType => types.all isInlineDeclaration && expressions == 0

end TypeForm

/-- Whether a node of a form may have children of certain forms. Tokens may stand everywhere, but
have no children themselves. -/
def NodeForm.admits (children : List NodeForm) : NodeForm → Bool
  | token _ => children.isEmpty
  | expr form => form.admits (children.filterMap expr?) (children.countP (·.type?.isSome))
  | type form => form.admits (children.filterMap type?) (children.countP (·.expr?.isSome))

namespace Tree

mutual

/-- Whether every node of a tree has children as its form asks for. -/
def laidOut : Tree → Bool
  | node _ form _ _ children => form.admits (children.map Tree.form) && laidOutAll children

def laidOutAll : List Tree → Bool
  | [] => true
  | T :: rest => T.laidOut && laidOutAll rest

end

theorem laidOut_iff {T : Tree} : T.laidOut = true ↔
    T.form.admits (T.children.map form) = true ∧ ∀ child ∈ T.children, child.laidOut = true := by
  obtain ⟨_, form, _, _, children⟩ := T
  have hall : laidOutAll children = true ↔ ∀ child ∈ children, child.laidOut = true := by
    induction children with
    | nil => simp [laidOutAll]
    | cons T rest ih => simp [laidOutAll, ih]
  simp [laidOut, Tree.form, Tree.children, hall]

/-- The expressions among the children of a tree, as what they are. -/
def exprForms (T : Tree) : List ExprForm := T.expressions.filterMap (·.form.expr?)

theorem length_exprForms (T : Tree) : T.exprForms.length = T.expressions.length := by
  rw [exprForms, List.length_filterMap_eq_countP, List.countP_eq_length]
  intro child hchild
  exact (List.mem_filter.mp hchild).2

/-- What the layout of an expression asks for, in terms of the expressions and types in it. -/
theorem laidOut_expr_iff {T : Tree} {form : ExprForm} (hform : T.form = .expr form) :
    T.laidOut = true ↔ form.admits T.exprForms T.types.length = true ∧
      ∀ child ∈ T.children, child.laidOut = true := by
  have hexprs : (T.children.map Tree.form).filterMap NodeForm.expr? = T.exprForms := by
    rw [List.filterMap_map, exprForms, expressions, List.filterMap_filter]
    refine List.filterMap_congr fun child _ => ?_
    cases hexpr : child.form.expr? <;> simp [isExpr, hexpr]
  have htypes : (T.children.map Tree.form).countP (·.type?.isSome) = T.types.length := by
    rw [List.countP_map, List.countP_eq_length_filter]
    rfl
  rw [laidOut_iff, hform, NodeForm.admits, hexprs, htypes]

theorem laidOut_expr {T : Tree} {form : ExprForm} (h : T.laidOut = true)
    (hform : T.form = .expr form) : form.admits T.exprForms T.types.length = true :=
  ((laidOut_expr_iff hform).mp h).1

/-- The types among the children of a tree, as what they are. -/
def typeForms (T : Tree) : List TypeForm := T.types.filterMap (·.form.type?)

theorem length_typeForms (T : Tree) : T.typeForms.length = T.types.length := by
  rw [typeForms, List.length_filterMap_eq_countP, List.countP_eq_length]
  intro child hchild
  exact (List.mem_filter.mp hchild).2

/-- What the layout of a type asks for, in terms of the types and expressions in it. -/
theorem laidOut_type {T : Tree} {form : TypeForm} (h : T.laidOut = true)
    (hform : T.form = .type form) : form.admits T.typeForms T.expressions.length = true := by
  have htypes : (T.children.map Tree.form).filterMap NodeForm.type? = T.typeForms := by
    rw [List.filterMap_map, typeForms, types, List.filterMap_filter]
    refine List.filterMap_congr fun child _ => ?_
    cases htype : child.form.type? <;> simp [isType, htype]
  have hexprs : (T.children.map Tree.form).countP (·.expr?.isSome) = T.expressions.length := by
    rw [List.countP_map, List.countP_eq_length_filter]
    rfl
  have hadmits := (laidOut_iff.mp h).1
  rwa [hform, NodeForm.admits, htypes, hexprs] at hadmits

/-- The types in a type, as far as its form says what they are. -/
theorem types_of_laidOut {T : Tree} {form : TypeForm} (h : T.laidOut = true)
    (hform : T.form = .type form) :
    match form with
    | .empty | .simple _ | .parameter _ => T.types = []
    | .typedField _ | .nestedType | .inlineDeclaration (some _) => ∃ C, T.types = [C]
    | .functionType | .inlineDeclaration none => ∃ C D, T.types = [C, D]
    | .inlineType => ∀ C ∈ T.types, ∃ symbol, C.form = .type (.inlineDeclaration symbol)
    | _ => True := by
  have hlayout := laidOut_type h hform
  cases form with
  | empty | simple _ | parameter _ =>
    simp only [TypeForm.admits, Bool.and_eq_true, beq_iff_eq, length_typeForms] at hlayout
    exact List.length_eq_zero_iff.mp hlayout.1
  | typedField _ | nestedType =>
    simp only [TypeForm.admits, Bool.and_eq_true, beq_iff_eq, length_typeForms] at hlayout
    exact List.length_eq_one_iff.mp hlayout.1
  | functionType =>
    simp only [TypeForm.admits, Bool.and_eq_true, beq_iff_eq, length_typeForms] at hlayout
    exact List.length_eq_two.mp hlayout.1
  | inlineDeclaration symbol =>
    simp only [TypeForm.admits, Bool.and_eq_true, beq_iff_eq, length_typeForms] at hlayout
    cases symbol with
    | some _ => exact List.length_eq_one_iff.mp hlayout.1
    | none => exact List.length_eq_two.mp hlayout.1
  | inlineType =>
    simp only [TypeForm.admits, Bool.and_eq_true, List.all_eq_true, typeForms] at hlayout
    intro C hC
    obtain ⟨form, hsort⟩ := Option.isSome_iff_exists.mp (List.mem_filter.mp hC).2
    have hdeclaration := hlayout.1 form (List.mem_filterMap.mpr ⟨C, hC, hsort⟩)
    cases form with
    | inlineDeclaration symbol =>
      refine ⟨symbol, ?_⟩
      cases hC' : C.form <;> rw [hC'] at hsort <;> cases hsort
      rfl
    | _ => cases hdeclaration
  | _ => trivial

theorem laidOut_of_mem_children {T child : Tree} (h : T.laidOut = true)
    (hchild : child ∈ T.children) : child.laidOut = true :=
  (laidOut_iff.mp h).2 child hchild

/-- A token has no children. -/
theorem children_eq_nil_of_token {T : Tree} (h : T.laidOut = true)
    (hsort : T.form.token?.isSome = true) : T.children = [] := by
  have hadmits := (laidOut_iff.mp h).1
  cases hform : T.form with
  | token t => rwa [hform, NodeForm.admits, List.isEmpty_iff, List.map_eq_nil_iff] at hadmits
  | _ => rw [hform] at hsort; cases hsort

end Tree

end MessageLang
