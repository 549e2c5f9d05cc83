import MessageLang.Tree.Form

namespace MessageLang

/-- The handle of a node. -/
structure NodeId where
  index : Nat
deriving DecidableEq, Inhabited

structure Node where
  form : NodeForm
  span : Span
  children : List NodeId := []
  parent : Option NodeId := none
  /-- Standing in for a block that was removed around it, with the precedence of its braces. -/
  grouped : Bool := false
deriving Inhabited

/-- The nodes of any number of trees. Children and parents are handles, so that a tree can be
changed in place; a node that is taken out of its tree keeps its handle. -/
structure Arena where
  nodes : Array Node

namespace Arena

def empty : Arena := ⟨#[]⟩

/-- How many nodes there have ever been. -/
def size (a : Arena) : Nat := a.nodes.size

def node (a : Arena) (id : NodeId) : Node := a.nodes.getD id.index default

def form (a : Arena) (id : NodeId) : NodeForm := (a.node id).form

def expr? (a : Arena) (id : NodeId) : Option ExprForm := (a.form id).expr?

def type? (a : Arena) (id : NodeId) : Option TypeForm := (a.form id).type?

def token? (a : Arena) (id : NodeId) : Option Token := (a.form id).token?

def isExpr (a : Arena) (id : NodeId) : Bool := (a.expr? id).isSome

def isType (a : Arena) (id : NodeId) : Bool := (a.type? id).isSome

def children (a : Arena) (id : NodeId) : List NodeId := (a.node id).children

def parent (a : Arena) (id : NodeId) : Option NodeId := (a.node id).parent

def span (a : Arena) (id : NodeId) : Span := (a.node id).span

def isGrouped (a : Arena) (id : NodeId) : Bool := (a.node id).grouped

/-- Adds a node under the next handle. -/
def push (a : Arena) (n : Node) : NodeId × Arena := (⟨a.nodes.size⟩, ⟨a.nodes.push n⟩)

/-- Changes one node. -/
def update (a : Arena) (id : NodeId) (change : Node → Node) : Arena :=
  ⟨a.nodes.modify id.index change⟩

theorem size_push (a : Arena) (n : Node) : (a.push n).2.size = a.size + 1 := by
  simp [push, size]

theorem size_update (a : Arena) (id : NodeId) (change : Node → Node) :
    (a.update id change).size = a.size := by
  simp [update, size]

theorem node_push_new (a : Arena) (n : Node) : (a.push n).2.node (a.push n).1 = n := by
  simp [push, node]

theorem node_push_of_lt (a : Arena) (n : Node) {id : NodeId} (h : id.index < a.size) :
    (a.push n).2.node id = a.node id := by
  have h' : id.index < a.nodes.size := h
  simp [push, node, Array.getD_eq_getD_getElem?, Array.getElem?_push, Nat.ne_of_lt h']

theorem node_update_self (a : Arena) (change : Node → Node) {id : NodeId}
    (h : id.index < a.size) : (a.update id change).node id = change (a.node id) := by
  have h' : id.index < a.nodes.size := h
  simp [update, node, Array.getD_eq_getD_getElem?, Array.getElem_modify, h']

theorem node_update_of_ne (a : Arena) (change : Node → Node) {id other : NodeId}
    (h : other ≠ id) : (a.update id change).node other = a.node other := by
  have h' : id.index ≠ other.index := fun he => h (by cases id; cases other; simp_all)
  simp [update, node, Array.getD_eq_getD_getElem?, Array.getElem?_modify, h']

end Arena

end MessageLang
