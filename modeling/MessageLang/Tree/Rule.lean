import MessageLang.Tree.Replacement

namespace MessageLang

/-- Small changes, for shaping trees by hand. -/
inductive Rule where
  /-- Leaves everything as it is. -/
  | keep
  /-- A node of a sort, if it has expressions below it, becomes the first of them. -/
  | unwrap (sort : String)
  /-- References to one name become references to another. -/
  | rename (old new : String)
  /-- References to a name get parentheses, unless they stand in some. -/
  | wrap (name : String)

def Rule.step (id : NodeId) : Rule → Edit (Option NodeId)
  | keep => return some id
  | unwrap sort => do
    let a ← get
    match a.expressions id with
    | first :: _ =>
      if (a.form id).name = sort then
        Edit.detach first
        return some first
      return none
    | [] => return none
  | rename old new => do
    let a ← get
    if a.expr? id = some (.reference old) then
      Edit.leaf (.expr (.reference new)) (a.span id)
    else
      return none
  | wrap name => do
    let a ← get
    let wrapped := (a.parent id).any fun parent => a.expr? parent == some .nested
    if a.expr? id = some (.reference name) && !wrapped then
      let inner ← Edit.copy id
      Edit.alloc (.expr .nested) [.node inner]
    else
      return none

namespace Edit

def applyRule (rule : Rule) (root : NodeId) : Edit NodeId := do
  let step : NodeId → StateT Unit Edit (Option NodeId) := fun id => rule.step id
  let (root, ()) ← replaceAll step root ()
  return root

/-- Gives a reference another name. Says whether the node was one. -/
def renameReference (id : NodeId) (name : String) : Edit Bool := do
  match (← get).expr? id with
  | some (.reference _) =>
    setForm id (.expr (.reference name))
    return true
  | _ => return false

end Edit

end MessageLang
