import MessageLang.Types.Table

namespace MessageLang

/-- Wildcards that have been matched with each other, and what they stand for once that is
known. -/
structure WildcardClass where
  members : List TypeId
  binding : Option TypeId
deriving DecidableEq

/-- What is known of wildcards. No wildcard is in two classes. -/
abbrev Bindings := List WildcardClass

namespace Bindings

/-- The wildcards that something is known of. -/
def known (b : Bindings) : List TypeId := b.flatMap (·.members)

def class? (b : Bindings) (wildcard : TypeId) : Option WildcardClass :=
  b.find? (wildcard ∈ ·.members)

/-- What a wildcard stands for. -/
def binding? (b : Bindings) (wildcard : TypeId) : Option TypeId :=
  b.class? wildcard >>= (·.binding)

/-- Makes a wildcard known, in a class by itself unless it is in one. -/
def introduce (b : Bindings) (wildcard : TypeId) : Bindings :=
  if wildcard ∈ b.known then b else ⟨[wildcard], none⟩ :: b

/-- Lets the class of a wildcard stand for a type. -/
def bind (b : Bindings) (wildcard type : TypeId) : Bindings :=
  b.map fun c => if wildcard ∈ c.members then { c with binding := some type } else c

/-- Makes one class of those of two known wildcards. Fails with what the two stand for if that
differs. -/
def join (b : Bindings) (left right : TypeId) : Except (TypeId × TypeId) Bindings :=
  match b.class? left, b.class? right with
  | some c, some d =>
    if c = d then .ok b
    else
      let joined (binding : Option TypeId) : Bindings :=
        ⟨c.members ++ d.members, binding⟩ :: b.filter fun other => other ≠ c ∧ other ≠ d
      match c.binding, d.binding with
      | some x, some y => if x = y then .ok (joined (some x)) else .error (x, y)
      | some x, none => .ok (joined (some x))
      | none, binding => .ok (joined binding)
  | _, _ => .ok b

/-- Follows at most so many bindings. -/
def resolveWithin (b : Bindings) (t : TypeTable) : Nat → TypeId → TypeId
  | 0, id => id
  | steps + 1, id =>
    if t.isWildcard id then
      match b.binding? id with
      | some bound => b.resolveWithin t steps bound
      | none => id
    else id

/-- Follows bindings up to a type that is no wildcard or is not bound. No wildcard comes twice on
the way. -/
def resolve (b : Bindings) (t : TypeTable) (id : TypeId) : TypeId :=
  b.resolveWithin t (b.known.length + 1) id

/-- The type that a wildcard stands for in the end. -/
def resolution? (b : Bindings) (t : TypeTable) (wildcard : TypeId) : Option TypeId :=
  let resolved := b.resolve t wildcard
  if resolved = wildcard || t.isWildcard resolved then none else some resolved

/-- All wildcards that stand for a type, with the type. -/
def resolutions (b : Bindings) (t : TypeTable) : List (TypeId × TypeId) :=
  b.known.filterMap fun wildcard => (b.resolution? t wildcard).map (wildcard, ·)

end Bindings

end MessageLang
