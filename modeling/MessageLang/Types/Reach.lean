import MessageLang.Types.Table

namespace MessageLang

/-- Adds to what is known, in at most so many rounds, what `next` leads to from the last round. -/
def discoverWithin {α : Type} [DecidableEq α] (next : α → List α) :
    Nat → (last known : List α) → List α
  | 0, _, known => known
  | rounds + 1, last, known =>
    match (last.flatMap next).eraseDups.filter (· ∉ known) with
    | [] => known
    | fresh => discoverWithin next rounds fresh (known ++ fresh)

namespace Descriptor

/-- The types that values of a type consist of, take or give. What a template leaves open is
not among them unless it occurs in one of these. -/
def parts (d : Descriptor) : List TypeId :=
  d.fieldTypes ++ d.symbols.map (·.2) ++ d.handlers.flatMap (fun (guard, answer) => [guard, answer])
    ++ d.variants

end Descriptor

namespace TypeTable

/-- All types that a type leads to through its parts, itself first, the nearer ones before the
farther. Every round finds a new type, so there are no more rounds than types. -/
def reachable (t : TypeTable) (id : TypeId) : List TypeId :=
  discoverWithin (fun id => (t.get id).parts) t.size [id] [id]

end TypeTable

end MessageLang
