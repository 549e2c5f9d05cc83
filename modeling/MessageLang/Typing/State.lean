import MessageLang.Assign.Checker
import MessageLang.Typing.TypeReader

namespace MessageLang

/-- The handle of a placeholder. -/
structure PlaceholderId where
  index : Nat
deriving DecidableEq, Inhabited

/-- A local whose type is found when it is first asked for. So a definition may use what is
defined further down. -/
structure Placeholder where
  name : String
  definition : NodeId
  value : Option NodeId
  /-- The frames that the value is typed in. -/
  scope : ScopeId
  typeScope : ScopeId
  /-- The type that the definition is given, which then is its type whatever the value. -/
  declared : Option TypeId
  result : Option TypeId := none
  /-- The value asked for the type of this local while that was being found. -/
  cyclic : Bool := false
deriving Inhabited

/-- Where the type of a variable comes from. -/
inductive Meaning where
  | known (type : TypeId)
  | pending (id : PlaceholderId)

structure Variable where
  meaning : Meaning
  mutable : Bool

/-- Settings of typing. -/
structure TypingOptions where
  /-- Report the first item after a return in a block. -/
  reportsUnreachable : Bool := true
  /-- Let a type with one compound field take what that field takes. -/
  unwrapsSingleField : Bool := true

/-- What is known while a tree is being typed. -/
structure Pass where
  space : TypeSpace
  checker : Checker
  terms : Scopes Variable
  scope : ScopeId
  typeScope : ScopeId
  /-- The types found for nodes, the latest first. -/
  types : List (NodeId × TypeId)
  /-- The guards that the messages of calls were matched with, the latest first. -/
  coercions : List (NodeId × TypeId)
  /-- What the returns since the last handler was entered give, each with its node. -/
  escapes : List (NodeId × TypeId)
  /-- What the breaks since the last loop was entered give. -/
  breaks : List TypeId
  placeholders : Array Placeholder
  /-- The latest placeholder of each local. -/
  ofLocal : List (NodeId × PlaceholderId)
  /-- The placeholders whose types are being found, innermost first. -/
  resolving : List PlaceholderId
  /-- The placeholders whose types have been found, the latest first. -/
  resolved : List PlaceholderId

/-- A step of typing, which stops at the first fault. -/
abbrev Typing := StateT Pass (Except Fault)

namespace Pass

def table (p : Pass) : TypeTable := p.space.table

def log (p : Pass) : Log := p.space.log

def placeholder (p : Pass) (id : PlaceholderId) : Placeholder :=
  p.placeholders.getD id.index default

def updatePlaceholder (p : Pass) (id : PlaceholderId) (change : Placeholder → Placeholder) : Pass :=
  { p with placeholders := p.placeholders.modify id.index change }

/-- Before anything is typed. The only term known is the function that prints. -/
def start (options : TypingOptions) (log : Log) : Except Fault Pass := do
  let space := { TypeSpace.initial with log }
  let (print, table) ← Tabling.function .anything .nothing space.table
  return {
    space := { space with table }
    checker := .new options.unwrapsSingleField
    terms := Scopes.empty.add Scopes.root "print" ⟨.known print, false⟩
    scope := Scopes.root
    typeScope := Scopes.root
    types := []
    coercions := []
    escapes := []
    breaks := []
    placeholders := #[]
    ofLocal := []
    resolving := []
    resolved := [] }

end Pass

namespace Typing

def reading {α : Type} (step : Reading α) : Typing α := fun p => do
  let (result, space) ← step p.space
  return (result, { p with space })

def tabling {α : Type} (change : Tabling α) : Typing α := reading (Reading.tabling change)

def checking {α : Type} (step : TypeTable → Checking α) : Typing α := fun p => do
  let (result, checker) ← step p.table p.checker
  return (result, { p with checker })

def report (a : Arena) (node : NodeId) (problem : Problem) : Typing Unit :=
  reading (Reading.report a node problem)

/-- Reports the conflicts found since the last time. -/
def reportConflicts (a : Arena) (node : NodeId) : Typing Unit := do
  for conflict in ← checking fun _ => Checking.takeConflicts do
    let t := (← get).table
    report a node (.wildcardConflict (t.display conflict.wildcard) (t.display conflict.bound))

/-- Whether one type may be used where another is required. Conflicts are reported. -/
def fits (a : Arena) (node : NodeId) (target source : TypeId) : Typing Bool := do
  let verdict ← checking fun t => Checking.canAssign t target source
  reportConflicts a node
  return verdict

/-- The type that a tree describes in the current scope. -/
def readType (a : Arena) (node : NodeId) : Typing TypeId := do
  reading (Reading.type a (← get).typeScope node)

/-- Notes the type of a node. -/
def setType (node : NodeId) (type : TypeId) : Typing Unit :=
  modify fun p => { p with types := (node, type) :: p.types }

def addTerm (name : String) (meaning : Variable) : Typing Unit :=
  modify fun p => { p with terms := p.terms.add p.scope name meaning }

/-- Runs a step in new frames inside the current ones. -/
def inNewScope {α : Type} (step : Typing α) : Typing α := do
  let outer ← get
  modify fun p =>
    let (scope, terms) := p.terms.push p.scope
    let (typeScope, scopes) := p.space.scopes.push p.typeScope
    { p with terms, scope, typeScope, space := { p.space with scopes } }
  let result ← step
  modify fun p => { p with scope := outer.scope, typeScope := outer.typeScope }
  return result

end Typing

end MessageLang
