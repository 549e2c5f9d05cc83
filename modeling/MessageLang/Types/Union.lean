import MessageLang.Types.Builtin

namespace MessageLang

namespace TypeTable

/-- What a type contributes to a union: itself, or what it was made of if it is a union. -/
def alternatives (t : TypeTable) (id : TypeId) : List TypeId :=
  match (t.get id).variants with
  | [] => [id]
  | variants => variants

/-- The distinct alternatives of some types, in the order in which they come first. Where there
is never a value, there is no alternative either. -/
def unionParts (t : TypeTable) (ids : List TypeId) : List TypeId :=
  ((ids.flatMap t.alternatives).filter (!t.isNever ·)).eraseDups

/-- The symbols that some types answer, in order, each with the answers of those that do. -/
def answers (t : TypeTable) (parts : List TypeId) : List (String × List TypeId) :=
  let symbols := parts.flatMap fun id => (t.get id).symbols
  let sorted := symbols.foldl (fun all (symbol, id) => Descriptor.insertSymbol symbol id all) []
  sorted.map fun (symbol, _) => (symbol, parts.filterMap (t.answer? · symbol))

/-- More than the number of lists of distinct types. -/
def unionBound (t : TypeTable) : Nat := (t.size + 1).pow (t.size + 1)

end TypeTable

namespace Tabling

/-- The union of some types, with unions nested to at most so many levels. -/
def unionWithin : Nat → List TypeId → Tabling TypeId
  | 0, _ => throw .unending
  | levels + 1, ids => do
    let t ← get
    let parts := t.unionParts ids
    if parts.any t.isAnything then return .anything
    match parts with
    | [] => return .never
    | [only] => return only
    | _ =>
      if let some known := t.unions.lookup parts then return known
      let union ← push { variants := parts }
      modify fun t => { t with unions := (parts, union) :: t.unions }
      for (symbol, answers) in t.answers parts do
        addSymbol union symbol (← unionWithin levels answers)
      let handlers := (parts.flatMap fun id => (t.get id).handlers).eraseDups
      update union fun d => { d with handlers }
      return union

/-- A type for values of any of several types. It answers every symbol that one of them answers,
with the union of their answers, and has the handlers of all of them. The same alternatives in
the same order give the same union, which also ties unions of recursive types back to
themselves: each level either finds its union made or adds a new one. -/
def union (ids : List TypeId) : Tabling TypeId := do
  unionWithin (← get).unionBound ids

end Tabling

end MessageLang
