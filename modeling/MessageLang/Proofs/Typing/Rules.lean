import MessageLang.Typing.Pass

/-!
Parts of the rules for expressions under names of their own, so that what is shown about a rule is
put together from what is shown about its parts.
-/

namespace MessageLang.Typing

variable (a : Arena) (options : TypingOptions) (compute : NodeId → Typing TypeId)

/-- Compares a type with what it has to be, reports if it is not that, and goes on. -/
def demand {α : Type} (node : NodeId) (target source : TypeId) (problem : Problem)
    (next : PUnit → Typing α) : Typing α := do
  let verdict ← fits a node target source
  if (!verdict) = true then report a node problem >>= next else next ⟨⟩

/-- Types a local of a group, unless it is not known in the block. -/
def defineLocal (definition : NodeId) : Typing Unit := do
  match (← get).ofLocal.lookup definition with
  | some id => setType definition (← resolve a compute id)
  | none => pure ()

theorem defineLocals_eq (group : NodeId) :
    defineLocals a compute group = (a.expressions group).forM (defineLocal a compute) := rfl

/-- What leaves a handler, once the value of its body is known. The returns and breaks from outside
are put back. -/
def collectExits (outer : Pass) (node : NodeId) (value : TypeId) :
    Typing (List (NodeId × TypeId)) := do
  let p ← get
  let own := if p.table.isNever value then [] else [((a.expressions node).head?.getD node, value)]
  modify fun p => { p with escapes := outer.escapes, breaks := outer.breaks }
  return p.escapes ++ own

theorem handlerExits_eq (node : NodeId) : handlerExits a compute node = (do
    let outer ← get
    modify fun p => { p with escapes := [], breaks := [] }
    let value ← operand a compute node
    collectExits a outer node value) := by
  simp only [handlerExits, operand, collectExits]
  cases a.expressions node <;> rfl

/-- The rest of a handler, once the type of its input is known. -/
def handlerBody (node : NodeId) (input : TypeId) : Typing (TypeId × TypeId) := do
  let declared ← (a.types node)[1]?.mapM (readType a)
  let fields := ((← get).table.fields? input).getD []
  for f in fields.filter (!·.isPositional) do
    addTerm f.name ⟨.known f.type, false⟩
  let exits ← handlerExits a compute node
  let result ← handlerResult a declared exits
  return (input, result)

/-- The type of the input of a handler. -/
def handlerInput (node : NodeId) : Typing TypeId :=
  match a.types node with
  | type :: _ => readType a type
  | [] => pure .empty

theorem handler_eq (node : NodeId) : handler a compute node = (do
    let sides ← inNewScope do
      let input ← handlerInput a node
      handlerBody a compute node input
    tabling (Tabling.function sides.1 sides.2)) := by
  simp only [handler, handlerInput, handlerBody]
  cases a.types node <;> rfl

/-- Declares the locals of all groups among the items of a block. -/
def declareGroups (node : NodeId) : Typing PUnit :=
  forIn (a.expressions node) PUnit.unit fun item _ => do
    if a.expr? item = some .locals then declareLocals a item
    return .yield ⟨⟩

theorem block_eq (node : NodeId) : block a options compute node = inNewScope (do
    declareGroups a node
    itemsFrom a options compute ⟨false, false⟩ .nothing (a.expressions node)) := rfl

/-- Reports an item of a block that cannot be reached, unless one was reported before. -/
def reportUnreachable (reach : Reach) (item : NodeId) : Typing Unit :=
  if (reach.returned && !reach.reported && options.reportsUnreachable) = true then
    report a item .unreachableCode
  else pure ()

/-- Types an item of a block. A group of locals has no value. -/
def typeItem (item : NodeId) : Typing TypeId :=
  if a.expr? item = some .locals then do
    defineLocals a compute item
    setType item .nothing
    return .nothing
  else compute item

/-- What is reached after an item of a block. -/
def Reach.after (reach : Reach) (item : NodeId) : Reach where
  returned := reach.returned || a.expr? item == some .returnExit
  reported := reach.reported || (reach.returned && !reach.reported && options.reportsUnreachable)

theorem itemsFrom_cons (reach : Reach) (last : TypeId) (item : NodeId) (rest : List NodeId) :
    itemsFrom a options compute reach last (item :: rest) = (do
      reportUnreachable a options reach item
      let type ← typeItem a compute item
      itemsFrom a options compute (reach.after a options item) type rest) := by
  rw [itemsFrom, reportUnreachable, typeItem]
  dsimp only
  split
  · split <;> simp only [bind_assoc, pure_bind, Reach.after]
  · split <;> simp only [bind_assoc, pure_bind, Reach.after]

/-- Notes the type that was found for a node, and gives it. -/
def noted (node : NodeId) (type : TypeId) : Typing TypeId := do
  setType node type
  return type

theorem computeWithin_succ (steps : Nat) (node : NodeId) :
    computeWithin a options (steps + 1) node = (do
      let type ← match a.expr? node with
        | some form => ofForm a options (computeWithin a options steps) node form
        | none => pure .anything
      noted node type) := by
  rw [computeWithin]
  cases a.expr? node <;> rfl

end MessageLang.Typing
