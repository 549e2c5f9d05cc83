import MessageLang.Diagnostic.Log
import MessageLang.Tree.Query
import MessageLang.Types.Builtin
import MessageLang.Types.Instance
import MessageLang.Types.Union

namespace MessageLang

/-- What reading a type may add to: the types there are, the names they are known by and the
problems found. -/
structure TypeSpace where
  table : TypeTable
  scopes : Scopes TypeId
  log : Log

/-- A step of reading types, which stops at the first fault. -/
abbrev Reading := StateT TypeSpace (Except Fault)

namespace TypeSpace

/-- The built-in types, known by name in the root frame. -/
def initial : TypeSpace := ⟨.initial, TypeTable.initialScopes, .empty⟩

end TypeSpace

namespace Reading

def tabling {α : Type} (change : Tabling α) : Reading α := fun space => do
  let (result, table) ← change space.table
  return (result, { space with table })

def report (a : Arena) (node : NodeId) (problem : Problem) : Reading Unit :=
  modify fun space => { space with log := space.log.report a node problem }

/-- What a name means, or a report that it means nothing. -/
def named? (a : Arena) (scope : ScopeId) (node : NodeId) (name : String) :
    Reading (Option TypeId) := do
  match (← get).scopes.get? scope name with
  | some type => return some type
  | none =>
    report a node (.unresolvedType name)
    return none

/-- The wildcard that a parameter stands for. The first use in a scope binds it there, so that
all later ones mean the same. -/
def parameter (scope : ScopeId) (name : String) : Reading TypeId := do
  let written := "$" ++ name
  match (← get).scopes.get? scope written with
  | some bound => return bound
  | none =>
    let wildcard ← tabling (Tabling.wildcard written)
    modify fun space => { space with scopes := space.scopes.add scope written wildcard }
    return wildcard

section

variable (a : Arena) (scope : ScopeId) (read : NodeId → Reading TypeId)

/-- The fields of a compound type. A name that was there before is reported, and its field left
out. -/
def fieldsFrom (index : Nat) (names : List String) : List NodeId → Reading (List Field)
  | [] => return []
  | child :: rest => do
    match a.type? child with
    | some (.typedField label) =>
      let name := label.getD (Field.positionalName index)
      if name ∈ names then
        report a child (.duplicateField name)
        fieldsFrom (index + 1) names rest
      else
        let type ← read child
        let hasDefault := !(a.expressions child).isEmpty
        return ⟨name, type, hasDefault⟩ :: (← fieldsFrom (index + 1) (name :: names) rest)
    | _ => fieldsFrom (index + 1) names rest

/-- A template with its arguments, if there are as many as it asks for. -/
def instantiate (node : NodeId) (name : String) (arguments : List NodeId) : Reading TypeId := do
  match ← named? a scope node name with
  | none => return .anything
  | some template =>
    let arguments ← arguments.mapM read
    let expected := ((← get).table.get template).params.length
    if expected = arguments.length then
      tabling (Tabling.instantiate template arguments)
    else
      report a node (.templateArity name expected arguments.length)
      return .anything

/-- Lets a type answer what a declaration says. One with parts missing says nothing. -/
def declare (type : TypeId) (declaration : NodeId) : Reading Unit := do
  match a.type? declaration, a.types declaration with
  | some (.inlineDeclaration (some symbol)), [answer] =>
    let answer ← read answer
    tabling (Tabling.addSymbol type symbol answer)
  | some (.inlineDeclaration none), [guard, answer] =>
    let guard ← read guard
    let answer ← read answer
    tabling (Tabling.addHandler type guard answer)
  | _, _ => return ()

/-- The type that a node of a certain form describes. What is missing or unknown may be
anything. -/
def readForm (node : NodeId) : TypeForm → Reading TypeId
  | .empty => return .empty
  | .simple name => return (← named? a scope node name).getD .anything
  | .parameter name => parameter scope name
  | .typedField _ | .nestedType =>
    match a.types node with
    | inner :: _ => read inner
    | [] => return .anything
  | .compound => do
    let fields ← fieldsFrom a read 0 [] (a.types node)
    tabling (Tabling.compound fields)
  | .template name => instantiate a scope read node name (a.types node)
  | .functionType =>
    match a.types node with
    | [argument, result] => do
      let argument ← read argument
      let result ← read result
      tabling (Tabling.function argument result)
    | _ => return .anything
  | .mergedType => do
    let alternatives ← (a.types node).mapM read
    tabling (Tabling.union alternatives)
  | .inlineType => do
    let type ← tabling Tabling.simple
    (a.types node).forM (declare a read type)
    return type
  | .inlineDeclaration _ => do
    let type ← tabling Tabling.simple
    declare a read type node
    return type

end

/-- The type that a tree of at most a given height describes. -/
def readWithin (a : Arena) (scope : ScopeId) : Nat → NodeId → Reading TypeId
  | 0, _ => throw .unending
  | height + 1, node =>
    match a.type? node with
    | none => return .anything
    | some form => readForm a scope (readWithin a scope height) node form

/-- The type that a tree describes, with its names looked up from a scope. Reading never fails:
what is wrong is reported and taken for a type that may be anything. -/
def type (a : Arena) (scope : ScopeId) (node : NodeId) : Reading TypeId :=
  readWithin a scope a.size node

end Reading

end MessageLang
