import MessageLang.Core.Placement
import MessageLang.Core.Temporaries
import MessageLang.Tree.Replacement

namespace MessageLang

/-- What lowering keeps besides the tree. -/
structure Lowering where
  log : Log
  temporaries : Temporaries

namespace Lowering

/-- The operands of a node that has two. -/
def twoOperands? (a : Arena) (id : NodeId) : Option (NodeId × NodeId) :=
  match a.expressions id with
  | [left, right] => some (left, right)
  | _ => none

/-- Where the operator of a node is written, or where the node starts if none is. -/
def operatorSpan (a : Arena) (id : NodeId) : Span :=
  match a.tokens id with
  | token :: _ => token.span
  | [] => (a.span id).startPoint

/-- The message that a unary operator sends. -/
def unaryMessage (op : String) : String := if op = "-" then "negative" else op

private def expr (form : ExprForm) : NodeForm := .expr form

private def symbol (name : String) : NodeForm := .expr (.constant (.symbol name))

private def minted (word : Keyword) (offset : Nat) : Piece := .token (.keyword word offset)

private def brace (text : String) (offset : Nat) : Piece :=
  .token (.minted .punctuation text offset)

/-- An operator before its operand becomes a message to the operand. -/
def unary (id : NodeId) (op : String) : Edit (Option NodeId) := do
  let a ← get
  match a.expressions id with
  | [] => return none
  | operand :: _ =>
    Edit.detach operand
    let message ← Edit.leaf (symbol (unaryMessage op)) (operatorSpan a id)
    Edit.allocAt (expr .call) (a.span id) [.node operand, .node message]

/-- An operator between operands becomes a message to the left one, whose answer is sent the
right one. -/
def binary (id : NodeId) (op : String) : Edit (Option NodeId) := do
  let a ← get
  match twoOperands? a id with
  | none => return none
  | some (left, right) =>
    Edit.detach left
    Edit.detach right
    let message ← Edit.leaf (symbol op) (operatorSpan a id)
    let partially ← Edit.alloc (expr .call) [.node left, .node message]
    Edit.allocAt (expr .call) (a.span id) [.node partially, .node right]

/-- The operators that may skip their right operand keep their node, tokens included. -/
def logic (id : NodeId) (op : LogicOp) : Edit (Option NodeId) := do
  let a ← get
  match twoOperands? a id with
  | none => return none
  | some _ =>
    (a.children id).forM Edit.detach
    Edit.allocAt (expr (.logic op)) (a.span id) ((a.children id).map .node)

/-- A missing second branch gives nothing. -/
def completeConditional (id : NodeId) : Edit Unit := do
  let a ← get
  if (a.expressions id).length = 2 then
    let stop := (a.span id).stop
    let nothing ← Edit.leaf (expr (.constant .nothing)) (.point stop)
    Edit.append id [minted .elseWord stop, .node nothing]

/-- A loop with its condition in front becomes a conditional around a loop that keeps the value
of its body in a temporary, asks the condition again and leaves with that value. -/
def whileLoop (id : NodeId) (temporary : String) (condition body : NodeId) : Edit NodeId := do
  let a ← get
  let span := a.span id
  let conditionSpan := a.span condition
  let bodySpan := a.span body
  Edit.detach condition
  Edit.detach body
  let definition ← Edit.allocAt (expr (.localDef temporary false)) bodySpan
    [.token (.minted .identifier temporary bodySpan.start), .node body]
  let binding ← Edit.allocAt (expr .locals) bodySpan
    [minted .letWord bodySpan.start, .node definition]
  let again ← Edit.copy condition
  let not ← Edit.leaf (symbol "not") conditionSpan.stopPoint
  let negated ← Edit.alloc (expr .call) [.node again, .node not]
  let result ← Edit.leaf (expr (.reference temporary)) span.stopPoint
  let leave ← Edit.alloc (expr .breakExit) [minted .breakWord span.stop, .node result]
  let check ← Edit.alloc (expr .conditional)
    [minted .ifWord conditionSpan.start, .node negated, minted .thenWord span.stop, .node leave]
  let code ← Edit.alloc (expr .block)
    [brace "\x7b" bodySpan.start, .node binding, .node check, brace "\x7d" span.stop]
  let loop ← Edit.alloc (expr .repeatLoop) [minted .repeatWord bodySpan.start, .node code]
  Edit.allocAt (expr .conditional) span
    [minted .ifWord span.start, .node condition, minted .thenWord conditionSpan.stop, .node loop]

/-- A function becomes an object with one handler. Without an input type the handler takes the
empty type. -/
def function (id : NodeId) (input output : Bool) : Edit (Option NodeId) := do
  let a ← get
  let span := a.span id
  match a.expressions id with
  | [] => return none
  | body :: _ =>
    let types := a.types id
    let inputType := if input then types.head? else none
    let outputType := if output then (if input then types.drop 1 else types).head? else none
    Edit.detach body
    inputType.forM Edit.detach
    outputType.forM Edit.detach
    let inputType ← match inputType with
      | some type => pure type
      | none => Edit.leaf (.type .empty) span.startPoint
    let handler ← Edit.allocAt (expr .handler) span
      ([minted .onWord span.start, .node inputType] ++ outputType.toList.map .node ++ [.node body])
    let code ← Edit.allocAt (expr .block) span
      [brace "\x7b" span.start, .node handler, brace "\x7d" span.stop]
    Edit.allocAt (expr .newObject) span [minted .newWord span.start, .node code]

/-- Items that make sense only as items of a block. -/
def needsBlock : ExprForm → Bool
  | .locals | .localDef .. | .assignment _ | .handler => true
  | _ => false

/-- A block with a single item is that item, unless the item needs the block. -/
def collapse (id : NodeId) : Edit (Option NodeId) := do
  let a ← get
  match a.expressions id with
  | [item] =>
    if (a.expr? item).any needsBlock then return none
    Edit.detach item
    Edit.setGrouped item true
    return some item
  | _ => return none

/-- Notes what is wrong with where a node stands. -/
def checkPlacement (id : NodeId) : StateT Lowering Edit Unit := do
  let a ← getThe Arena
  modifyThe Lowering fun s => { s with log := Placement.check a s.log id }

/-- A name for a generated local. -/
def freshName : StateT Lowering Edit String := do
  match (← getThe Lowering).temporaries.fresh? with
  | some (name, temporaries) =>
    modifyThe Lowering fun s => { s with temporaries }
    return name
  | none => throw Fault.unending

/-- What stands in place of a node of a certain form, if the core language says it otherwise.
The rules of placement are checked on the nodes that stay. -/
def stepOf (id : NodeId) : ExprForm → StateT Lowering Edit (Option NodeId)
  | .unary op => unary id op
  | .binary op =>
    match LogicOp.ofText? op with
    | some op => logic id op
    | none => binary id op
  | .whileLoop => do
    match twoOperands? (← getThe Arena) id with
    | none => return none
    | some (condition, body) => whileLoop id (← freshName) condition body
  | .function input output => function id input output
  | .block => collapse id
  | .conditional => do
    completeConditional id
    return none
  | .struct => do
    let log ← Placement.checkStruct (← getThe Lowering).log id
    modifyThe Lowering fun s => { s with log }
    return none
  | _ => do
    checkPlacement id
    return none

/-- One step at a node. What replaces a grouped node is grouped too. -/
def step (id : NodeId) : StateT Lowering Edit (Option NodeId) := do
  match (← getThe Arena).expr? id with
  | none => return none
  | some form =>
    let replacement ← stepOf id form
    if (← getThe Arena).isGrouped id then
      replacement.forM fun new => (Edit.setGrouped new true : Edit Unit)
    return replacement

end Lowering

/-- Turns a tree into the core language, in place. Returns its new root and what is wrong with
where things stand in it. Generated locals get names that start with `stem`. -/
def lower (stem : String) (root : NodeId) (log : Log) : Edit (NodeId × Log) := do
  let temporaries := Temporaries.ofTree (← get) root stem
  let (root, state) ← Edit.replaceAll Lowering.step root ⟨log, temporaries⟩
  return (root, state.log)

end MessageLang
