import MessageLang.Typing.State

namespace MessageLang.Typing

section

variable (a : Arena) (compute : NodeId → Typing TypeId)

/-- The type of a local with a certain value. A declared type stands, whether the value fits it
or not. -/
def valueType (value : Option NodeId) (declared : Option TypeId) : Typing TypeId := do
  match value with
  | none => return declared.getD .nothing
  | some value =>
    let found ← compute value
    match declared with
    | none => return found
    | some expected =>
      if !(← fits a value expected found) then report a value .incompatibleAssignment
      return expected

/-- Takes back what was found since an earlier state: problems, verdicts and bindings, and the
types of placeholders. What values since then gave to returns and breaks goes as well. -/
def takeBack (before : Pass) : Typing Unit := modify fun p =>
  let recent := p.resolved.take (p.resolved.length - before.resolved.length)
  let p := recent.foldl (fun p id => p.updatePlaceholder id ({ · with result := none })) p
  { p with
    space := { p.space with log := p.log.restore before.log.size }
    checker := p.checker.rollback before.checker.checkpoint
    resolved := p.resolved.drop recent.length
    escapes := p.escapes.take before.escapes.length
    breaks := p.breaks.take before.breaks.length }

/-- Finds the type of a placeholder from its value. If the value asked for that very type, what
was found rests on nothing: it is taken back, the local is reported and may be anything, and the
value is typed again on these terms. -/
def resolveNow (id : PlaceholderId) : Typing TypeId := do
  let before ← get
  let entry := before.placeholder id
  modify fun p =>
    { p with
      resolving := id :: p.resolving
      scope := entry.scope
      typeScope := entry.typeScope }
  let found ← valueType a compute entry.value entry.declared
  let isCyclic := ((← get).placeholder id).cyclic && entry.declared.isNone
  if isCyclic then
    takeBack before
    modify (·.updatePlaceholder id ({ · with result := some .anything }))
    report a entry.definition (.recursiveDefinition entry.name)
    let _ ← valueType a compute entry.value none
  let type := if isCyclic then .anything else found
  modify fun p =>
    { p.updatePlaceholder id ({ · with result := some type }) with
      resolving := p.resolving.drop 1
      resolved := id :: p.resolved
      scope := before.scope
      typeScope := before.typeScope }
  return type

/-- The type of a placeholder. One that is being found counts as what it was declared, or else
as anything, and then the definition is recursive. -/
def resolve (id : PlaceholderId) : Typing TypeId := do
  let p ← get
  let entry := p.placeholder id
  match entry.result with
  | some type => return type
  | none =>
    if id ∈ p.resolving then
      match entry.declared with
      | some type => return type
      | none =>
        modify (·.updatePlaceholder id ({ · with cyclic := true }))
        return .anything
    else
      resolveNow a compute id

def meaningType : Meaning → Typing TypeId
  | .known type => return type
  | .pending id => resolve a compute id

/-- Enters one local into the current scope. -/
def declareLocal (definition : NodeId) : Typing Unit := do
  match a.expr? definition with
  | some (.localDef name mutable) =>
    let declared ← (a.types definition).head?.mapM (readType a)
    let p ← get
    let id : PlaceholderId := ⟨p.placeholders.size⟩
    let entry : Placeholder :=
      { name, definition, declared
        value := (a.expressions definition).head?
        scope := p.scope
        typeScope := p.typeScope }
    set { p with
      placeholders := p.placeholders.push entry
      ofLocal := (definition, id) :: p.ofLocal }
    addTerm name ⟨.pending id, mutable⟩
  | _ => return ()

/-- Enters the locals of a group into the current scope. Their values are left alone. -/
def declareLocals (group : NodeId) : Typing Unit := (a.expressions group).forM (declareLocal a)

/-- Finds the types of the locals of a group, in order. -/
def defineLocals (group : NodeId) : Typing Unit :=
  (a.expressions group).forM fun definition => do
    match (← get).ofLocal.lookup definition with
    | some id => setType definition (← resolve a compute id)
    | none => return ()

end

end MessageLang.Typing
