import MessageLang.Tree.Arena

namespace MessageLang.Arena

/-- The children of a node that are expressions. Those inside type annotations and inside other
expressions are not among them. -/
def expressions (a : Arena) (id : NodeId) : List NodeId := (a.children id).filter a.isExpr

def types (a : Arena) (id : NodeId) : List NodeId := (a.children id).filter a.isType

def tokens (a : Arena) (id : NodeId) : List Token := (a.children id).filterMap a.token?

/-- At most `steps` ancestors, nearest first. -/
def ancestorsWithin (a : Arena) : Nat → NodeId → List NodeId
  | 0, _ => []
  | steps + 1, id =>
    match a.parent id with
    | none => []
    | some parent => parent :: a.ancestorsWithin steps parent

/-- The ancestors of a node, nearest first. In a tree they are distinct, so there are no more
of them than there are nodes. -/
def ancestors (a : Arena) (id : NodeId) : List NodeId := a.ancestorsWithin a.size id

def enclosingExpr? (a : Arena) (id : NodeId) : Option NodeId := (a.ancestors id).find? a.isExpr

/-- The nearest ancestor that is an expression of a certain sort. -/
def inside? (a : Arena) (sort : ExprForm → Bool) (id : NodeId) : Option NodeId :=
  (a.ancestors id).find? fun ancestor => (a.expr? ancestor).any sort

/-- The nodes under a root down to `height` levels, each before its children, with their depth. -/
def preorderWithin (a : Arena) : (height depth : Nat) → NodeId → List (Nat × NodeId)
  | 0, _, _ => []
  | height + 1, depth, id =>
    (depth, id) :: (a.children id).flatMap (a.preorderWithin height (depth + 1))

/-- The nodes of a tree, each before its children, with their depth. No tree is higher than the
number of nodes. -/
def preorder (a : Arena) (root : NodeId) : List (Nat × NodeId) := a.preorderWithin a.size 0 root

def sameShapeWithin (a : Arena) : Nat → NodeId → NodeId → Bool
  | 0, _, _ => false
  | height + 1, s, t =>
    (a.form s).sameShape (a.form t)
      && (a.children s).length == (a.children t).length
      && ((a.children s).zip (a.children t)).all fun (c, d) => a.sameShapeWithin height c d

/-- Whether two trees differ in nothing but where they stand in the source. -/
def sameShape (a : Arena) (s t : NodeId) : Bool := a.sameShapeWithin a.size s t

end MessageLang.Arena
