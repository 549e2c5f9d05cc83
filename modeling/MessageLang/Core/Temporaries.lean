import MessageLang.Tree.Query

namespace MessageLang

/-- The names of generated locals: a stem and a number. `taken` holds the names that are in use
already, `next` the first number not tried yet. -/
structure Temporaries where
  stem : String
  taken : List String
  next : Nat

namespace Temporaries

def name (t : Temporaries) (number : Nat) : String := t.stem ++ toString number

/-- A name that an expression binds, refers to or assigns. -/
def nameOf? : ExprForm → Option String
  | .reference name | .assignment name | .localDef name _ => some name
  | _ => none

/-- The generator for a tree, which avoids all names in it. -/
def ofTree (a : Arena) (root : NodeId) (stem : String) : Temporaries where
  stem
  taken := (a.preorder root).filterMap fun (_, id) => a.expr? id >>= nameOf?
  next := 0

/-- The next name that is not taken. Among as many numbers as there are taken names and one
more, some number gives a name that is free. -/
def fresh? (t : Temporaries) : Option (String × Temporaries) :=
  let candidates := (List.range (t.taken.length + 1)).map (t.next + ·)
  (candidates.find? fun number => t.name number ∉ t.taken).map fun number =>
    (t.name number, { t with taken := t.name number :: t.taken, next := number + 1 })

end Temporaries

end MessageLang
