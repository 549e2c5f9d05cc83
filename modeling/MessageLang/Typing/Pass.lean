import MessageLang.Typing.Rules

namespace MessageLang

namespace Typing

/-- Finds and notes the type of a node. The steps bound how deep one node is typed from within
another, and not how many are typed. -/
def computeWithin (a : Arena) (options : TypingOptions) : Nat → NodeId → Typing TypeId
  | 0, _ => throw .unending
  | steps + 1, node => do
    let type ← match a.expr? node with
      | some form => ofForm a options (computeWithin a options steps) node form
      | none => pure .anything
    setType node type
    return type

/-- A bound on how deep a pass over a tree goes. Locals are typed from wherever they are first
used, so the way to a node need not lead down the tree. Where locals stand in blocks, no node comes
on it twice, and the number of nodes would do. Locals that stand elsewhere may bring a node on its
own way again, and may do so without end. -/
def depthBound (a : Arena) : Nat := (a.size + 1) * (a.size + 1)

/-- Types a tree. What it is comes from its value and from all that escapes it. -/
def tree (a : Arena) (options : TypingOptions) (root : NodeId) : Typing TypeId := do
  let value ← computeWithin a options (depthBound a) root
  match (← get).escapes with
  | [] => return value
  | escapes => tabling (Tabling.union (escapes.map (·.2) ++ [value]))

end Typing

/-- The types found for a tree. -/
structure TypedTree where
  types : List (NodeId × TypeId)
  coercions : List (NodeId × TypeId)
  table : TypeTable
  result : TypeId

namespace TypedTree

def typeOf? (typed : TypedTree) (node : NodeId) : Option TypeId := typed.types.lookup node

/-- The guard that the message of a call was matched with. -/
def coercion? (typed : TypedTree) (call : NodeId) : Option TypeId := typed.coercions.lookup call

def display? (typed : TypedTree) (node : NodeId) : Option String :=
  (typed.typeOf? node).map typed.table.display

def resultDisplay (typed : TypedTree) : String := typed.table.display typed.result

end TypedTree

/-- Finds the types of a tree in the core language. What is wrong is added to a log. -/
def check (a : Arena) (options : TypingOptions) (root : NodeId) (log : Log) :
    Except Fault (TypedTree × Log) := do
  let start ← Pass.start options log
  let (result, pass) ← Typing.tree a options root start
  return (⟨pass.types, pass.coercions, pass.table, result⟩, pass.log)

end MessageLang
