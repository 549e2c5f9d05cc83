import MessageLang.Typing.Locals

namespace MessageLang.Typing

section

variable (a : Arena) (options : TypingOptions) (compute : NodeId → Typing TypeId)

/-- The type of the first expression in a node. A missing one is nothing. -/
def operand (node : NodeId) : Typing TypeId :=
  match a.expressions node with
  | first :: _ => compute first
  | [] => return .nothing

def constant (c : Constant) : TypeId :=
  match c.kind with
  | .nothing => .nothing
  | .boolean => .boolean
  | .number _ => .number
  | .string => .string
  | .symbol => .symbol

def reference (node : NodeId) (name : String) : Typing TypeId := do
  let p ← get
  match p.terms.get? p.scope name with
  | some found => meaningType a compute found.meaning
  | none =>
    report a node (.unresolvedName name)
    return .anything

/-- The value comes before the variable. What cannot be assigned to keeps its type. -/
def assignment (node : NodeId) (name : String) : Typing TypeId := do
  let value ← operand a compute node
  let p ← get
  match p.terms.get? p.scope name with
  | none =>
    report a node (.unresolvedName name)
    return value
  | some found =>
    let target ← meaningType a compute found.meaning
    if !found.mutable then report a node (.immutableAssignment name)
    else if !(← fits a node target value) then report a node .incompatibleAssignment
    return target

/-- An array of what all of its items are. -/
def array (node : NodeId) : Typing TypeId := do
  let items ← (a.expressions node).mapM compute
  let item ← if items.isEmpty then pure .anything else tabling (Tabling.union items)
  tabling (Tabling.instantiate .array [item])

/-- The fields of a struct from the one at a position on. -/
def fieldsFrom (position : Nat) : List NodeId → Typing (List Field)
  | [] => return []
  | node :: rest => do
    let name := match a.expr? node with
      | some (.structField (some name)) => name
      | _ => Field.positionalName position
    let type ← compute node
    return ⟨name, type, false⟩ :: (← fieldsFrom (position + 1) rest)

def struct (node : NodeId) : Typing TypeId := do
  let fields ← fieldsFrom a compute 0 (a.expressions node)
  tabling (Tabling.compound fields)

/-- The handlers in the code of an object. -/
def handlersOf (code : NodeId) : List NodeId :=
  match a.expr? code with
  | some .handler => [code]
  | some .block => (a.expressions code).filter fun item => a.expr? item == some .handler
  | _ => []

/-- An object answers what its handlers answer. -/
def newObject (node : NodeId) : Typing TypeId := do
  match a.expressions node with
  | [] => return .anything
  | code :: _ =>
    let _ ← compute code
    match handlersOf a code with
    | [] => return .anything
    | handlers =>
      let object ← tabling Tabling.simple
      for handler in handlers do
        let p ← get
        match p.types.lookup handler with
        | none => pure ()
        | some type =>
          for (guard, answer) in (p.table.get type).handlers do
            tabling (Tabling.addHandler object guard answer)
      return object

/-- What leaves a handler is to fit the type it declares, or else makes up its type. -/
def handlerResult (declared : Option TypeId) (exits : List (NodeId × TypeId)) :
    Typing TypeId := do
  match declared with
  | none => tabling (Tabling.union (exits.map (·.2)))
  | some expected =>
    for (node, type) in exits do
      if !(← fits a node expected type) then report a node .incompatibleReturn
    return expected

/-- Types the body of a handler, with returns and breaks of its own. Gives what leaves it: the
returns, and the value of the body unless there is none. -/
def handlerExits (node : NodeId) : Typing (List (NodeId × TypeId)) := do
  let outer ← get
  modify fun p => { p with escapes := [], breaks := [] }
  let body := (a.expressions node).head?
  let value ← match body with
    | some body => compute body
    | none => pure .nothing
  let p ← get
  let own := if p.table.isNever value then [] else [(body.getD node, value)]
  modify fun p => { p with escapes := outer.escapes, breaks := outer.breaks }
  return p.escapes ++ own

/-- A handler answers its input type. The named fields of its input are variables in its body. -/
def handler (node : NodeId) : Typing TypeId := do
  let (input, result) ← inNewScope do
    let input ← match a.types node with
      | type :: _ => readType a type
      | [] => pure .empty
    let declared ← (a.types node)[1]?.mapM (readType a)
    let fields := ((← get).table.fields? input).getD []
    for f in fields.filter (!·.isPositional) do
      addTerm f.name ⟨.known f.type, false⟩
    let exits ← handlerExits a compute node
    let result ← handlerResult a declared exits
    return (input, result)
  tabling (Tabling.function input result)

/-- The first of some handlers whose guard the message fits, as what it answers and its guard.
The answer is told what the match found out about wildcards. Guards that do not fit leave
nothing behind; if none fits, the conflicts on the way are reported. -/
def firstMatch? (message : NodeId) (type : TypeId) :
    List (TypeId × TypeId) → Typing (Option (TypeId × TypeId))
  | [] => do
    reportConflicts a message
    return none
  | (guard, answer) :: rest => do
    let point := (← get).checker.checkpoint
    if ← checking fun t => Checking.canAssign t guard type then
      let _ ← checking fun _ => Checking.takeConflicts
      let p ← get
      let answer ← tabling (Tabling.substitute answer (p.checker.bindings.resolutions p.table))
      return some (answer, guard)
    else
      modify fun p => { p with checker := p.checker.rollback point }
      firstMatch? message type rest

/-- The symbol that a message is, if it is one as it stands. -/
def symbol? (message : NodeId) : Option String :=
  match a.expr? message with
  | some (.constant ⟨.symbol, name⟩) => some name
  | _ => none

/-- What a receiver answers a message with. Of a receiver that may be anything nothing is
known. -/
def answer (node message : NodeId) (receiver messageType : TypeId) : Typing TypeId := do
  let p ← get
  let t := p.table
  let receiver := p.checker.bindings.resolve t receiver
  if t.isAnything receiver || t.isNever receiver || t.isWildcard receiver then return .anything
  match (symbol? a message).bind (t.answer? receiver ·) with
  | some answer => return answer
  | none =>
    match ← firstMatch? a message messageType (t.get receiver).handlers with
    | some (answer, guard) =>
      modify fun p => { p with coercions := (node, guard) :: p.coercions }
      return answer
    | none =>
      report a node .noMatchingHandler
      return .anything

def call (node : NodeId) : Typing TypeId := do
  match a.expressions node with
  | [receiver, message] =>
    let receiverType ← compute receiver
    let messageType ← compute message
    answer a node message receiverType messageType
  | _ => return .anything

def logic (node : NodeId) (op : LogicOp) : Typing TypeId := do
  for operand in a.expressions node do
    let type ← compute operand
    if !(← fits a operand .boolean type) then report a operand (.nonBooleanOperand op.text)
  return .boolean

/-- A conditional is what its branches are. A missing branch is nothing. -/
def conditional (node : NodeId) : Typing TypeId := do
  match a.expressions node with
  | [] => return .anything
  | condition :: branches =>
    let type ← compute condition
    if !(← fits a condition .boolean type) then report a condition .nonBooleanCondition
    let types ← branches.mapM compute
    tabling (Tabling.union (if types.length < 2 then types ++ [.nothing] else types))

/-- A loop is what its breaks give, or nothing if there are none. -/
def repeatLoop (node : NodeId) : Typing TypeId := do
  let outer := (← get).breaks
  modify fun p => { p with breaks := [] }
  let _ ← operand a compute node
  let breaks := (← get).breaks
  modify fun p => { p with breaks := outer }
  if breaks.isEmpty then return .nothing
  tabling (Tabling.union breaks)

def returnExit (node : NodeId) : Typing TypeId := do
  let type ← operand a compute node
  modify fun p => { p with escapes := p.escapes ++ [(node, type)] }
  return .never

def breakExit (node : NodeId) : Typing TypeId := do
  let type ← operand a compute node
  modify fun p => { p with breaks := p.breaks ++ [type] }
  return .never

/-- Where in a block typing is: whether a return has been passed, and whether what comes after
it has been reported. -/
structure Reach where
  returned : Bool
  reported : Bool

/-- Types the items of a block one after the other. Gives the type of the last one, or the one
given if there are none. -/
def itemsFrom (reach : Reach) (last : TypeId) : List NodeId → Typing TypeId
  | [] => return last
  | item :: rest => do
    let isUnreachable := reach.returned && !reach.reported && options.reportsUnreachable
    if isUnreachable then report a item .unreachableCode
    let type ←
      if a.expr? item = some .locals then do
        defineLocals a compute item
        setType item .nothing
        pure .nothing
      else compute item
    let returned := reach.returned || a.expr? item == some .returnExit
    itemsFrom ⟨returned, reach.reported || isUnreachable⟩ type rest

/-- The locals of a block are known in all of it, also before their definitions. -/
def block (node : NodeId) : Typing TypeId := inNewScope do
  let items := a.expressions node
  for item in items do
    if a.expr? item = some .locals then declareLocals a item
  itemsFrom a options compute ⟨false, false⟩ .nothing items

/-- Locals outside of a block are known from where they stand. -/
def locals (node : NodeId) : Typing TypeId := do
  declareLocals a node
  defineLocals a compute node
  return .nothing

/-- The type of an expression of a certain form. Forms that the core language does not have may
be anything. -/
def ofForm (node : NodeId) : ExprForm → Typing TypeId
  | .constant c => return constant c
  | .reference name => reference a compute node name
  | .array => array a compute node
  | .struct => struct a compute node
  | .structField _ | .nested | .localDef .. => operand a compute node
  | .newObject => newObject a compute node
  | .call => call a compute node
  | .logic op => logic a compute node op
  | .conditional => conditional a compute node
  | .repeatLoop => repeatLoop a compute node
  | .assignment name => assignment a compute node name
  | .returnExit => returnExit a compute node
  | .breakExit => breakExit a compute node
  | .locals => locals a compute node
  | .handler => handler a compute node
  | .block => block a options compute node
  | .function .. | .unary _ | .binary _ | .whileLoop => return .anything

end

end MessageLang.Typing
