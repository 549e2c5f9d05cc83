import MessageLang.Types.Display
import MessageLang.Types.Reach

namespace MessageLang

/-- What types are put in place of which. -/
abbrev Substitution := List (TypeId × TypeId)

namespace Substitution

/-- The substitution by some pairs, the later ones taking the place of earlier ones. -/
def ofPairs (pairs : List (TypeId × TypeId)) : Substitution := pairs.reverse

end Substitution

namespace TypeTable

/-- Whether a type leads to one that a substitution replaces. -/
def mentions (t : TypeTable) (map : Substitution) (id : TypeId) : Bool :=
  (t.reachable id).any fun part => (map.lookup part).isSome

end TypeTable

namespace Tabling

/-- A change to a table that remembers what it has made copies of. -/
abbrev Copying := StateT (List (TypeId × TypeId)) Tabling

/-- The copy of a type under a substitution, to at most so many levels of copies. A type that
leads to nothing replaced is its own copy. The copy is entered before its parts are made, so
that a type that leads back to itself gives such a type again. -/
def substituteWithin (map : Substitution) : Nat → TypeId → Copying TypeId
  | 0, _ => throw Fault.unending
  | levels + 1, id => do
    if let some image := map.lookup id then return image
    if let some made := (← get).lookup id then return made
    let t ← getThe TypeTable
    if !t.mentions map id then return id
    let old := t.get id
    let copy ← push { name := old.name }
    modify fun made => (id, copy) :: made
    let part := substituteWithin map levels
    let shape ← match old.shape with
      | .compound fields => do
        let fields ← fields.mapM fun f => return { f with type := ← part f.type }
        pure (Shape.compound fields)
      | shape => pure shape
    let symbols ← old.symbols.mapM fun (symbol, answer) => return (symbol, ← part answer)
    let handlers ← old.handlers.mapM fun (guard, answer) => return (← part guard, ← part answer)
    let variants ← old.variants.mapM part
    update copy fun d => { d with shape, symbols, handlers, variants }
    return copy

/-- Puts types in place of others throughout a type. Only types that lead to a replaced one are
copied, each once, so there are no more levels of copies than types. -/
def substitute (id : TypeId) (map : Substitution) : Tabling TypeId := do
  if map.isEmpty then return id
  let (result, _) ← substituteWithin map ((← get).size + 1) id []
  return result

/-- Puts arguments in place of what a template leaves open. The instance is named after both. -/
def instantiate (template : TypeId) (arguments : List TypeId) : Tabling TypeId := do
  let params := ((← get).get template).params
  let result ← substitute template (.ofPairs (params.zip arguments))
  if result != template then
    let t ← get
    if let some name := (t.get template).name then
      let shown := ", ".intercalate (arguments.map t.display)
      update result fun d => { d with name := some (name ++ "(" ++ shown ++ ")") }
  return result

end Tabling

end MessageLang
