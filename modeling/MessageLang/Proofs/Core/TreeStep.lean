import MessageLang.Core.Lower
import MessageLang.Proofs.Tree.Growing

namespace MessageLang

open Lowering (unaryMessage needsBlock)

/-- A report at a tree. -/
def Log.reportAt (log : Log) (T : Tree) (problem : Problem) : Log :=
  ⟨log.reports.push ⟨problem, T.id, T.span⟩⟩

theorem Log.toList_reportAt (log : Log) (T : Tree) (problem : Problem) :
    (log.reportAt T problem).toList = log.toList ++ [⟨problem, T.id, T.span⟩] := Array.toList_push ..

theorem Log.toList_foldl_reportAt (problems : List Problem) (log : Log) (T : Tree) :
    (problems.foldl (·.reportAt T) log).toList =
      log.toList ++ problems.map (⟨·, T.id, T.span⟩) := by
  induction problems generalizing log with
  | nil => exact (List.append_nil _).symm
  | cons problem rest ih =>
    rw [List.foldl_cons, ih, Log.toList_reportAt, List.append_assoc]
    rfl

namespace Tree

section

variable (T : Tree)

def expr? : Option ExprForm := T.form.expr?

def operatorSpan : Span :=
  match T.tokens with
  | token :: _ => token.span
  | [] => T.span.startPoint

/-- The operands of a tree that has two. -/
def twoOperands? : Option (Tree × Tree) :=
  match T.expressions with
  | [left, right] => some (left, right)
  | _ => none

def withChildren (children : List Tree) : Tree := .node T.id T.form T.span T.grouped children

def unary (op : String) (operand : Tree) : Growing Tree := do
  let message ← leaf (.expr (.constant (.symbol (unaryMessage op)))) T.operatorSpan
  allocAt (.expr .call) T.span [.tree operand, .tree message]

def binary (op : String) (left right : Tree) : Growing Tree := do
  let message ← leaf (.expr (.constant (.symbol op))) T.operatorSpan
  let partially ← alloc (.expr .call) [.tree left, .tree message]
  allocAt (.expr .call) T.span [.tree partially, .tree right]

def logic (op : LogicOp) : Growing Tree := allocAt (.expr (.logic op)) T.span (T.children.map .tree)

def completeConditional : Growing Tree := do
  let stop := T.span.stop
  let nothing ← leaf (.expr (.constant .nothing)) (.point stop)
  append T [.token (.keyword .elseWord stop), .tree nothing]

def whileLoop (temporary : String) (condition body : Tree) : Growing Tree := do
  let definition ← allocAt (.expr (.localDef temporary false)) body.span
    [.token (.minted .identifier temporary body.span.start), .tree body]
  let binding ← allocAt (.expr .locals) body.span
    [.token (.keyword .letWord body.span.start), .tree definition]
  let again ← condition.copy
  let not ← leaf (.expr (.constant (.symbol "not"))) condition.span.stopPoint
  let negated ← alloc (.expr .call) [.tree again, .tree not]
  let result ← leaf (.expr (.reference temporary)) T.span.stopPoint
  let leave ← alloc (.expr .breakExit)
    [.token (.keyword .breakWord T.span.stop), .tree result]
  let check ← alloc (.expr .conditional)
    [.token (.keyword .ifWord condition.span.start), .tree negated,
      .token (.keyword .thenWord T.span.stop), .tree leave]
  let code ← alloc (.expr .block)
    [.token (.minted .punctuation "\x7b" body.span.start), .tree binding, .tree check,
      .token (.minted .punctuation "\x7d" T.span.stop)]
  let loop ← alloc (.expr .repeatLoop) [.token (.keyword .repeatWord body.span.start), .tree code]
  allocAt (.expr .conditional) T.span
    [.token (.keyword .ifWord T.span.start), .tree condition,
      .token (.keyword .thenWord condition.span.stop), .tree loop]

def inputType? (input : Bool) : Option Tree := if input then T.types.head? else none

def outputType? (input output : Bool) : Option Tree :=
  if output then (if input then T.types.drop 1 else T.types).head? else none

variable {T} in
theorem mem_types_of_inputType?_eq_some {input : Bool} {type : Tree}
    (h : T.inputType? input = some type) : type ∈ T.types := by
  unfold inputType? at h
  split at h
  · exact List.mem_of_mem_head? h
  · cases h

variable {T} in
theorem mem_types_of_outputType?_eq_some {input output : Bool} {type : Tree}
    (h : T.outputType? input output = some type) : type ∈ T.types := by
  unfold outputType? at h
  split at h
  · split at h
    · exact List.mem_of_mem_drop (List.mem_of_mem_head? h)
    · exact List.mem_of_mem_head? h
  · cases h

/-- A type, or the empty type at a span. -/
def orEmpty (span : Span) : Option Tree → Growing Tree
  | some type => pure type
  | none => leaf (.type .empty) span

def function (input output : Bool) (body : Tree) : Growing Tree := do
  let inputType ← orEmpty T.span.startPoint (T.inputType? input)
  let handler ← allocAt (.expr .handler) T.span
    ([.token (.keyword .onWord T.span.start), .tree inputType] ++
      (T.outputType? input output).toList.map .tree ++ [.tree body])
  let code ← allocAt (.expr .block) T.span
    [.token (.minted .punctuation "\x7b" T.span.start), .tree handler,
      .token (.minted .punctuation "\x7d" T.span.stop)]
  allocAt (.expr .newObject) T.span [.token (.keyword .newWord T.span.start), .tree code]

def hasHandler : Bool :=
  match T.expressions with
  | [] => false
  | code :: _ => code.expr? == some .handler ||
    (code.expr? == some .block && code.expressions.any (·.expr? == some .handler))

/-- What is wrong with where a tree stands, given what the nodes above it are, nearest first. -/
def problem? (above : List NodeForm) : Option Problem :=
  let inBlock := (above.find? (·.expr?.isSome)).any (·.expr? == some .block)
  let inGroup := above.head?.any (·.expr? == some .locals)
  match T.expr? with
  | some .newObject => if T.hasHandler then none else some .newWithoutHandler
  | some (.assignment _) => if inBlock then none else some .assignmentOutsideBlock
  | some .locals => if inBlock then none else some .localOutsideBlock
  | some (.localDef ..) => if inGroup || inBlock then none else some .localOutsideBlock
  | some .returnExit =>
    if (above.find? fun form => form.expr?.any (· == .handler)).isSome then none
    else some .returnOutsideHandler
  | some .breakExit =>
    if (above.find? fun form => form.expr?.any (· == .repeatLoop)).isSome then none
    else some .breakOutsideRepeat
  | _ => none

end

/-- Goes through the children of a struct, of which the items count, and gives fields without a
name that of their position. -/
def nameFields (log : Log) (seen : Placement.FieldsSeen) (index : Nat) :
    List Tree → Log × List Tree
  | [] => (log, [])
  | T :: rest =>
    match T.form with
    | .expr (.structField declared) =>
      let name := declared.getD (Placement.positional index)
      let log := (seen.problems name).foldl (·.reportAt T) log
      let (log, rest) := nameFields log (seen.add name) (index + 1) rest
      (log, T.setForm (.expr (.structField name)) :: rest)
    | .expr _ =>
      let (log, rest) := nameFields log seen (index + 1) rest
      (log, T :: rest)
    | _ =>
      let (log, rest) := nameFields log seen index rest
      (log, T :: rest)

@[simp]
theorem form_withChildren (T : Tree) (children : List Tree) :
    (T.withChildren children).form = T.form := rfl

@[simp]
theorem children_withChildren (T : Tree) (children : List Tree) :
    (T.withChildren children).children = children := rfl

theorem twoOperands?_eq_some_iff {T left right : Tree} :
    T.twoOperands? = some (left, right) ↔ T.expressions = [left, right] := by
  unfold twoOperands?
  split <;> simp_all

theorem map_id_nameFields (log : Log) (seen : Placement.FieldsSeen) (index : Nat)
    (trees : List Tree) : (nameFields log seen index trees).2.map id = trees.map id := by
  induction trees generalizing log seen index with
  | nil => rfl
  | cons T rest ih =>
    unfold nameFields
    split <;> simp only [List.map_cons, ih]
    rfl

/-- Of the children of a struct the fields alone are reported, for their names. -/
theorem exists_reports_nameFields (log : Log) (seen : Placement.FieldsSeen) (index : Nat)
    (trees : List Tree) : ∃ more, (nameFields log seen index trees).1.toList = log.toList ++ more ∧
      ∀ r ∈ more, (r.problem = .positionalAfterNamed ∨ ∃ name, r.problem = .duplicateField name) ∧
        ∃ V ∈ (nameFields log seen index trees).2,
          (∃ name, V.form = .expr (.structField name)) ∧ V.id = r.node ∧ V.span = r.span := by
  induction trees generalizing log seen index with
  | nil => exact ⟨[], (List.append_nil _).symm, fun _ h => nomatch h⟩
  | cons T rest ih =>
    unfold nameFields
    split
    · next declared _ =>
      let name := declared.getD (Placement.positional index)
      obtain ⟨more, heq, hmore⟩ :=
        ih ((seen.problems name).foldl (·.reportAt T) log) (seen.add name) (index + 1)
      refine ⟨_, heq.trans (by rw [Log.toList_foldl_reportAt, List.append_assoc]), fun r hr => ?_⟩
      rcases List.mem_append.mp hr with hr | hr
      · obtain ⟨problem, hproblem, rfl⟩ := List.mem_map.mp hr
        refine ⟨?_, _, List.mem_cons_self, ⟨some name, rfl⟩, rfl, rfl⟩
        rcases List.mem_append.mp hproblem with h | h
        · exact .inl (List.mem_singleton.mp (List.mem_ite_nil_right.mp h).2)
        · exact .inr ⟨_, List.mem_singleton.mp (List.mem_ite_nil_right.mp h).2⟩
      · obtain ⟨hproblem, V, hV, hfield⟩ := hmore r hr
        exact ⟨hproblem, V, List.mem_cons_of_mem _ hV, hfield⟩
    · obtain ⟨more, heq, hmore⟩ := ih log seen (index + 1)
      refine ⟨more, heq, fun r hr => ?_⟩
      obtain ⟨hproblem, V, hV, hfield⟩ := hmore r hr
      exact ⟨hproblem, V, List.mem_cons_of_mem _ hV, hfield⟩
    · obtain ⟨more, heq, hmore⟩ := ih log seen index
      refine ⟨more, heq, fun r hr => ?_⟩
      obtain ⟨hproblem, V, hV, hfield⟩ := hmore r hr
      exact ⟨hproblem, V, List.mem_cons_of_mem _ hV, hfield⟩

/-- Notes what is wrong with where a tree stands. -/
def checkPlacement (above : List NodeForm) (T : Tree) (s : Lowering) : Lowering :=
  match T.problem? above with
  | some problem => { s with log := s.log.reportAt T problem }
  | none => s

/-- What replaces a grouped tree is grouped too. -/
def inherit (T : Tree) (grouped : Bool) : Tree := if grouped then T.setGrouped true else T

theorem form_inherit (T : Tree) (grouped : Bool) : (T.inherit grouped).form = T.form := by
  cases grouped <;> rfl

/-- A step that gives another tree to stand in place of one, because the core language says it
otherwise. -/
inductive Rewrites (T : Tree) (s : Lowering) (size : Nat) : Tree × Nat → Lowering → Prop
  | unary {op : String} {operand : Tree} {others : List Tree}
      (form_eq : T.form = .expr (.unary op)) (operands : T.expressions = operand :: others) :
      Rewrites T s size (T.unary op operand size) s
  | logic {text : String} {op : LogicOp} {left right : Tree}
      (form_eq : T.form = .expr (.binary text)) (isLogic : LogicOp.ofText? text = some op)
      (operands : T.twoOperands? = some (left, right)) : Rewrites T s size (T.logic op size) s
  | binary {op : String} {left right : Tree}
      (form_eq : T.form = .expr (.binary op)) (notLogic : LogicOp.ofText? op = none)
      (operands : T.twoOperands? = some (left, right)) :
      Rewrites T s size (T.binary op left right size) s
  | whileLoop {name : String} {temporaries : Temporaries} {condition body : Tree}
      (form_eq : T.form = .expr .whileLoop) (operands : T.twoOperands? = some (condition, body))
      (fresh : s.temporaries.fresh? = some (name, temporaries)) :
      Rewrites T s size (T.whileLoop name condition body size) { s with temporaries }
  | function {input output : Bool} {body : Tree} {others : List Tree}
      (form_eq : T.form = .expr (.function input output))
      (operands : T.expressions = body :: others) :
      Rewrites T s size (T.function input output body size) s
  | block {item : Tree} (form_eq : T.form = .expr .block) (items : T.expressions = [item])
      (free : item.expr?.any needsBlock = false) : Rewrites T s size (item.setGrouped true, size) s

/-- Rewriting finds nothing wrong. -/
theorem Rewrites.log_eq {T : Tree} {s s' : Lowering} {size : Nat} {made : Tree × Nat}
    (h : T.Rewrites s size made s') : s'.log = s.log := by
  cases h <;> rfl

/-- Forms that are neither rewritten nor completed. Some of them may not stand everywhere. -/
def isPlaced : ExprForm → Bool
  | .unary _ | .binary _ | .whileLoop | .function .. | .block | .conditional | .struct => false
  | _ => true

/-- Trees that nothing is done about, although something is done about others of their form. -/
def Kept (T : Tree) : Prop :=
  match T.form with
  | .expr (.unary _) | .expr (.function ..) => T.expressions = []
  | .expr (.binary _) | .expr .whileLoop => T.twoOperands? = none
  | .expr .block => ∀ item, T.expressions = [item] → item.expr?.any needsBlock = true
  | .expr .conditional => T.expressions.length ≠ 2
  | .expr _ => False
  | _ => True

/-- A step after which a tree stays where it is, perhaps with other parts. -/
inductive Settles (above : List NodeForm) (T : Tree) (s : Lowering) (size : Nat) :
    Tree × Nat → Lowering → Prop
  | conditional (form_eq : T.form = .expr .conditional) (branches : T.expressions.length = 2) :
      Settles above T s size (T.completeConditional size) s
  | struct (form_eq : T.form = .expr .struct) :
      Settles above T s size
        (T.withChildren (nameFields s.log ⟨[], false⟩ 0 T.children).2, size)
        { s with log := (nameFields s.log ⟨[], false⟩ 0 T.children).1 }
  | placed {form : ExprForm} (form_eq : T.form = .expr form) (isPlaced : isPlaced form = true) :
      Settles above T s size (T, size) (T.checkPlacement above s)
  | kept (kept : T.Kept) : Settles above T s size (T, size) s

theorem Settles.form_eq {above : List NodeForm} {T : Tree} {s s' : Lowering} {size : Nat}
    {made : Tree × Nat} (h : T.Settles above s size made s') : made.1.form = T.form := by
  cases h <;> rfl

end Tree

end MessageLang
