import MessageLang.Types.Builtin
import MessageLang.Types.Reach

namespace MessageLang

/-- A type as part of a graph: a built-in one, or the one with a number. -/
inductive GraphRef where
  | builtin (id : TypeId)
  | index (number : Nat)

/-- The types that a type leads to, numbered from itself outwards, with the types they refer
to by number. It shows which types are the same and not only what they look like. -/
structure TypeGraph where
  root : GraphRef
  types : List TypeId
  ref : TypeId → GraphRef

namespace TypeId

/-- The built-in types that have a name of their own in the listings of types. -/
def isBuiltin (id : TypeId) : Bool :=
  id ∈ [nothing, anything, never, empty, boolean, number, string, symbol, array, arrayItem]

end TypeId

namespace TypeTable

/-- All types that a type refers to, what a template leaves open included. -/
def references (t : TypeTable) (id : TypeId) : List TypeId :=
  let d := t.get id
  d.fieldTypes ++ d.symbols.map (·.2) ++ d.handlers.flatMap (fun (guard, answer) => [guard, answer])
    ++ d.params ++ d.variants

/-- The graph of a type. Built-in types are not gone into. -/
def graph (t : TypeTable) (root : TypeId) : TypeGraph :=
  let start := [root].filter (!·.isBuiltin)
  let next id := (t.references id).filter (!·.isBuiltin)
  let types := discoverWithin next t.size start start
  let ref id := if id.isBuiltin then .builtin id else .index (types.idxOf id)
  { root := ref root, types, ref }

end TypeTable

end MessageLang
