import MessageLang.Proofs.Core.Plain
import MessageLang.Proofs.Core.TreeStep
import MessageLang.Proofs.Tree.Layout

namespace MessageLang

namespace Tree

mutual

/-- The plain tree that a tree is. -/
def plain : Tree → Plain
  | node _ form _ grouped children => .node form grouped (plainAll children)

/-- The plain trees that some trees are, except for those that are tokens. -/
def plainAll : List Tree → List Plain
  | [] => []
  | T :: rest => if T.form.token?.isSome then plainAll rest else T.plain :: plainAll rest

end

theorem plain_eq (T : Tree) : T.plain = .node T.form T.grouped (plainAll T.children) := by
  cases T
  rfl

@[simp]
theorem form_plain (T : Tree) : T.plain.form = T.form := by
  cases T
  rfl

theorem plainAll_eq (trees : List Tree) :
    plainAll trees = (trees.filter (·.form.token?.isNone)).map plain := by
  induction trees with
  | nil => rfl
  | cons T rest ih =>
    rw [plainAll, ih]
    cases htoken : T.form.token? <;> simp [htoken]

theorem plainAll_append (trees trees' : List Tree) :
    plainAll (trees ++ trees') = plainAll trees ++ plainAll trees' := by
  simp [plainAll_eq]

/-- The plain trees of a sort are those that the trees of the sort are. -/
private theorem filter_plainAll {p : NodeForm → Bool} (hp : ∀ form, p form = true →
    form.token?.isNone = true) (trees : List Tree) :
    (plainAll trees).filter (p ·.form) = (trees.filter (p ·.form)).map plain := by
  rw [plainAll_eq, List.filter_map, List.filter_filter]
  congr 1
  refine List.filter_congr fun T _ => ?_
  rw [Function.comp_apply, form_plain]
  cases hsort : p T.form with
  | true => rw [hp _ hsort, Bool.and_true]
  | false => rw [Bool.false_and]

theorem filter_isExpr_plainAll (T : Tree) :
    (plainAll T.children).filter Plain.isExpr = T.expressions.map plain :=
  filter_plainAll (p := fun form => form.expr?.isSome) (fun form => by cases form <;> simp
    [NodeForm.expr?, NodeForm.token?]) T.children

theorem filter_isType_plainAll (T : Tree) :
    (plainAll T.children).filter Plain.isType = T.types.map plain :=
  filter_plainAll (p := fun form => form.type?.isSome) (fun form => by cases form <;> simp
    [NodeForm.type?, NodeForm.token?]) T.children

/-- Without types among its children, a tree has only its expressions. -/
theorem plainAll_of_types_eq_nil {T : Tree} (h : T.types = []) :
    plainAll T.children = T.expressions.map plain := by
  rw [plainAll_eq, expressions]
  congr 1
  refine List.filter_congr fun child hchild => ?_
  have hnot : child.isType = false := by
    simpa using List.filter_eq_nil_iff.mp h child hchild
  unfold isType at hnot
  unfold isExpr
  cases hform : child.form with
  | type form => simp [hform, NodeForm.type?] at hnot
  | _ => rfl

def Twig.form : Twig → NodeForm
  | tree T => T.form
  | token t => .token t

/-- The plain trees among some children in the making. -/
def Twig.plains : List Twig → List Plain
  | [] => []
  | tree T :: rest => plainAll [T] ++ plains rest
  | token _ :: rest => plains rest

theorem plainAll_leaves (twigs : List Twig) (size : Nat) :
    plainAll (leaves twigs size).1 = Twig.plains twigs := by
  induction twigs generalizing size with
  | nil => rfl
  | cons twig twigs ih =>
    cases twig with
    | tree T =>
      have hleaves : (leaves (.tree T :: twigs) size).1 = [T] ++ (leaves twigs size).1 := rfl
      rw [hleaves, plainAll_append, ih, Twig.plains]
    | token t => exact ih (size + 1)

theorem plain_allocAt (form : NodeForm) (span : Span) (twigs : List Twig) (size : Nat) :
    (allocAt form span twigs size).1.plain = .node form false (Twig.plains twigs) :=
  congrArg (Plain.node form false) (plainAll_leaves twigs size)

theorem plain_alloc (form : NodeForm) (twigs : List Twig) (size : Nat) :
    (alloc form twigs size).1.plain = .node form false (Twig.plains twigs) :=
  congrArg (Plain.node form false) (plainAll_leaves twigs size)

theorem plain_leaf (form : NodeForm) (span : Span) (size : Nat) :
    (leaf form span size).1.plain = .leaf form := rfl

mutual

theorem plain_copy (T : Tree) (size : Nat) : (T.copy size).1.plain = T.plain := by
  match T with
  | node id form span grouped children =>
    rw [copy_eq]
    exact congrArg (Plain.node form grouped) (plainAll_copyAll children size)

theorem plainAll_copyAll (trees : List Tree) (size : Nat) :
    plainAll (copyAll trees size).1 = plainAll trees := by
  match trees with
  | [] => rfl
  | T :: rest =>
    have hform : (T.copy size).1.form = T.form := by rw [copy_eq]; rfl
    have hall : (copyAll (T :: rest) size).1 =
      (T.copy size).1 :: (copyAll rest (T.copy size).2).1 := rfl
    rw [hall, plainAll, plainAll, hform, plain_copy T, plainAll_copyAll rest]

end

theorem plain_setGrouped (T : Tree) : (T.setGrouped true).plain = T.plain.setGrouped := by
  cases T
  rfl

theorem plain_inherit (T : Tree) (grouped : Bool) :
    (T.inherit grouped).plain = if grouped then T.plain.setGrouped else T.plain := by
  cases grouped
  · rfl
  · exact plain_setGrouped T

@[simp]
theorem form_leaf (form : NodeForm) (span : Span) (size : Nat) :
    (leaf form span size).1.form = form := rfl

@[simp]
theorem form_allocAt (form : NodeForm) (span : Span) (twigs : List Twig) (size : Nat) :
    (allocAt form span twigs size).1.form = form := rfl

@[simp]
theorem form_alloc (form : NodeForm) (twigs : List Twig) (size : Nat) :
    (alloc form twigs size).1.form = form := rfl

@[simp]
theorem form_copy (T : Tree) (size : Nat) : (T.copy size).1.form = T.form := by
  rw [copy_eq]
  rfl

@[simp]
theorem Twig.plains_nil : plains [] = [] := rfl

@[simp]
theorem Twig.plains_token (t : Token) (rest : List Twig) :
    plains (.token t :: rest) = plains rest := rfl

@[simp]
theorem Twig.plains_tree (T : Tree) (rest : List Twig) : plains (.tree T :: rest) =
    (if T.form.token?.isSome then plains rest else T.plain :: plains rest) := by
  rw [plains, plainAll]
  split <;> rfl

@[simp]
theorem token?_expr (form : ExprForm) : NodeForm.token? (.expr form) = none := rfl

@[simp]
theorem token?_type (form : TypeForm) : NodeForm.token? (.type form) = none := rfl

theorem Twig.plains_map_tree (trees : List Tree) : plains (trees.map .tree) = plainAll trees := by
  induction trees with
  | nil => rfl
  | cons T rest ih => rw [List.map_cons, plains, ih, ← plainAll_append, List.singleton_append]

theorem token?_of_mem_expressions {T child : Tree} (h : child ∈ T.expressions) :
    child.form.token? = none := by
  have hexpr := (List.mem_filter.mp h).2
  unfold isExpr at hexpr
  cases hform : child.form with
  | token t => simp [hform, NodeForm.expr?] at hexpr
  | _ => rfl

theorem token?_of_mem_types {T child : Tree} (h : child ∈ T.types) :
    child.form.token? = none := by
  have htype := (List.mem_filter.mp h).2
  unfold isType at htype
  cases hform : child.form with
  | token t => simp [hform, NodeForm.type?] at htype
  | _ => rfl

section

variable (T : Tree) (size : Nat)

theorem plain_unary {operand : Tree} (hoperand : operand.form.token? = none) (op : String) :
    (T.unary op operand size).1.plain =
      .call false operand.plain (.symbol (Lowering.unaryMessage op)) := by
  simp only [unary, Growing.bind_apply, plain_allocAt]
  simp [hoperand, plain_leaf, Plain.call, Plain.symbol]

theorem plain_binary {left right : Tree} (hleft : left.form.token? = none)
    (hright : right.form.token? = none) (op : String) : (T.binary op left right size).1.plain =
      .call false (.call false left.plain (.symbol op)) right.plain := by
  simp only [binary, Growing.bind_apply, plain_allocAt]
  simp [hleft, hright, plain_alloc, plain_leaf, Plain.call, Plain.symbol]

theorem plain_logic (op : LogicOp) :
    (T.logic op size).1.plain = .node (.expr (.logic op)) false (plainAll T.children) := by
  rw [logic, plain_allocAt, Twig.plains_map_tree]

theorem plainAll_completeConditional : plainAll (T.completeConditional size).1.children =
    plainAll T.children ++ [.nothing] := by
  simp only [completeConditional, append, Growing.bind_apply, Growing.pure_apply, children]
  rw [plainAll_append, plainAll_leaves]
  simp [plain_leaf, Plain.nothing]

/-- What stands in place of a loop with its condition in front. Its conditionals still lack a
branch. -/
theorem plain_whileLoop {condition body : Tree} (hcondition : condition.form.token? = none)
    (hbody : body.form.token? = none) (temporary : String) :
    (T.whileLoop temporary condition body size).1.plain =
      .node (.expr .conditional) false [condition.plain, .node (.expr .repeatLoop) false [.block [
        .node (.expr .locals) false [.node (.expr (.localDef temporary false)) false [body.plain]],
        .node (.expr .conditional) false [.call false condition.plain (.symbol "not"),
          .node (.expr .breakExit) false [.leaf (.expr (.reference temporary))]]]]] := by
  simp only [whileLoop, Growing.bind_apply, plain_allocAt]
  simp [hcondition, hbody, plain_allocAt, plain_alloc, plain_leaf, plain_copy, Plain.call,
    Plain.symbol, Plain.block]

/-- The types that the handler made of a function has. -/
def handlerTypes (input output : Bool) : List Plain :=
  ((T.inputType? input).map plain).getD (.leaf (.type .empty)) ::
    ((T.outputType? input output).map plain).toList

theorem plain_function {body : Tree} (hbody : body.form.token? = none) (input output : Bool) :
    (T.function input output body size).1.plain =
      .function false (T.handlerTypes input output) body.plain := by
  have hinput : ∀ type, T.inputType? input = some type → type.form.token? = none :=
    fun _ htype => token?_of_mem_types (mem_types_of_inputType?_eq_some htype)
  have houtput : ∀ type, T.outputType? input output = some type → type.form.token? = none :=
    fun _ htype => token?_of_mem_types (mem_types_of_outputType?_eq_some htype)
  simp only [function, Growing.bind_apply, plain_allocAt]
  cases hin : T.inputType? input with
  | none =>
    cases hout : T.outputType? input output with
    | none =>
      simp [hbody, plain_allocAt, orEmpty, plain_leaf, Plain.function, Plain.block, handlerTypes,
        hin, hout]
    | some outputType =>
      simp [hbody, plain_allocAt, orEmpty, plain_leaf, Plain.function, Plain.block, handlerTypes,
        hin, hout, houtput _ hout]
  | some inputType =>
    cases hout : T.outputType? input output with
    | none =>
      simp [hbody, plain_allocAt, orEmpty, Growing.pure_apply, Plain.function, Plain.block,
        handlerTypes, hin, hout, hinput _ hin]
    | some outputType =>
      simp [hbody, plain_allocAt, orEmpty, Growing.pure_apply, Plain.function, Plain.block,
        handlerTypes, hin, hout, hinput _ hin, houtput _ hout]

end

end Tree

end MessageLang
