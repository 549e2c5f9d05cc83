import MessageLang.Tree.Edit

namespace MessageLang.Edit

/-- Replaces nodes of a tree from the root down. `step` gives what is to stand in place of a node,
or nothing if the node is to stay; what it gives is tried again until it stays, and only then
come the children. The budget bounds the steps and levels on the way to any one node. Returns
the node that now stands where `id` stood. -/
def replaceAllWithin {σ : Type} (step : NodeId → StateT σ Edit (Option NodeId)) :
    Nat → NodeId → StateT σ Edit NodeId
  | 0, _ => throw Fault.unending
  | budget + 1, id => do
    let next := (← step id).getD id
    if next = id then
      for child in (← getThe Arena).children id do
        let _ ← replaceAllWithin step budget child
      return id
    else
      replace id next
      replaceAllWithin step budget next

/-- Replaces nodes of a tree with steps that each add at most seven levels above what they keep. -/
def replaceAll {σ : Type} (step : NodeId → StateT σ Edit (Option NodeId)) (root : NodeId) :
    StateT σ Edit NodeId := do
  replaceAllWithin step (8 * (← getThe Arena).size + 8) root

end MessageLang.Edit
