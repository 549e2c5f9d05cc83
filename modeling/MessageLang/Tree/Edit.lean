import MessageLang.Fault
import MessageLang.Tree.Query

namespace MessageLang

/-- A change to an arena, which stops at the first fault. -/
abbrev Edit := StateT Arena (Except Fault)

/-- A child in the making: a node there is, or a token that is still to become a leaf. -/
inductive Piece where
  | node (id : NodeId)
  | token (token : Token)

namespace Edit

def update (id : NodeId) (change : Node → Node) : Edit Unit := modify (·.update id change)

def push (n : Node) : Edit NodeId := modifyGet (·.push n)

/-- A node without children. -/
def leaf (form : NodeForm) (span : Span) : Edit NodeId := push { form, span }

def token (t : Token) : Edit NodeId := leaf (.token t) t.span

/-- Makes leaves of the tokens among some pieces. -/
def leaves : List Piece → Edit (List NodeId)
  | [] => pure []
  | .node id :: rest => do
    let ids ← leaves rest
    return id :: ids
  | .token t :: rest => do
    let id ← token t
    let ids ← leaves rest
    return id :: ids

/-- Gives a node its parent. No node has two, and none has the same one twice. -/
def adopt (parent child : NodeId) : Edit Unit := do
  if ((← get).parent child).isSome then throw .attached
  update child fun n => { n with parent := some parent }

def attach (form : NodeForm) (span : Span) (children : List NodeId) : Edit NodeId := do
  let id ← leaf form span
  children.forM (adopt id)
  update id fun n => { n with children }
  return id

/-- A node that spans from its first child to its last. -/
def alloc (form : NodeForm) (pieces : List Piece) : Edit NodeId := do
  let children ← leaves pieces
  let a ← get
  match children.head?, children.getLast? with
  | some first, some last => attach form ((a.span first).merge (a.span last)) children
  | _, _ => throw .childless

/-- A node with a span of its own, which may have no children. -/
def allocAt (form : NodeForm) (span : Span) (pieces : List Piece) : Edit NodeId := do
  attach form span (← leaves pieces)

/-- Adds children after those a node has. Its span grows to cover them. -/
def append (id : NodeId) (pieces : List Piece) : Edit Unit := do
  let added ← leaves pieces
  added.forM (adopt id)
  let a ← get
  update id fun n =>
    { n with
      children := n.children ++ added
      span := added.foldl (fun span child => span.merge (a.span child)) n.span }

/-- Takes a node out of a child list. -/
def removeChild (parent child : NodeId) : Edit Unit :=
  update parent fun n => { n with children := n.children.filter (· != child) }

/-- Makes a node a root. -/
def detach (id : NodeId) : Edit Unit := do
  match (← get).parent id with
  | some parent => removeChild parent id
  | none => pure ()
  update id fun n => { n with parent := none }

/-- Puts one node where another stands. The other becomes a root; if it was one before, so does
the new node. -/
def replace (old new : NodeId) : Edit Unit := do
  if old = new then return
  match (← get).parent new with
  | some parent => removeChild parent new
  | none => pure ()
  let parent := (← get).parent old
  match parent with
  | some parent => update parent fun n => { n with children := n.children.replace old new }
  | none => pure ()
  update old fun n => { n with parent := none }
  update new fun n => { n with parent }

def setGrouped (id : NodeId) (grouped : Bool) : Edit Unit :=
  update id fun n => { n with grouped }

def setForm (id : NodeId) (form : NodeForm) : Edit Unit := update id fun n => { n with form }

/-- Copies a tree of at most a given height, children before their parents. -/
def copyWithin : Nat → NodeId → Edit NodeId
  | 0, _ => throw .unending
  | height + 1, id => do
    let old := (← get).node id
    let children ← old.children.mapM (copyWithin height)
    let copy ← push { form := old.form, span := old.span, grouped := old.grouped }
    children.forM fun child => update child fun n => { n with parent := some copy }
    update copy fun n => { n with children }
    return copy

/-- Copies a tree. The copy is a root and shares no node with what it was made from. -/
def copy (id : NodeId) : Edit NodeId := do
  copyWithin (← get).size id

end Edit

end MessageLang
