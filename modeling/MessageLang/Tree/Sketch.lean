import MessageLang.Tree.Edit

namespace MessageLang

mutual

/-- What a tree is to look like, before it has nodes. -/
inductive Sketch where
  /-- A constant or a reference, written as one token. -/
  | word (form : ExprForm) (kind : TokenKind) (text : String)
  /-- A node over its parts, and over further parts that are written once the node is there.
  Its span is that of its parts unless it is given. -/
  | node (form : NodeForm) (parts more : List SketchPart) (span : Option Span)
  /-- A node without parts. It adds nothing to the source. -/
  | bare (form : NodeForm) (span : Span)
  | grouped (inner : Sketch)

/-- What a node is made of. -/
inductive SketchPart where
  | absent
  | many (parts : List SketchPart)
  /-- A token that is there already. -/
  | token (token : Token)
  /-- A token to be written at the end of the source. -/
  | lexeme (kind : TokenKind) (text : String)
  /-- A root that is there already. -/
  | existing (id : NodeId)
  | sketch (inner : Sketch)

end

/-- An arena and the source text that its nodes were written in. -/
structure Draft where
  arena : Arena
  source : String

namespace Draft

def empty : Draft := ⟨.empty, ""⟩

end Draft

/-- A change to a draft, which stops at the first fault. -/
abbrev Drafting := StateT Draft (Except Fault)

namespace Drafting

def edit {α : Type} (change : Edit α) : Drafting α := fun draft => do
  let (result, arena) ← change draft.arena
  return (result, { draft with arena })

/-- Writes a token at the end of the source, set off from what stands before it by a space. -/
def write (kind : TokenKind) (text : String) : Drafting Token := modifyGet fun draft =>
  let before := if draft.source.isEmpty then "" else draft.source ++ " "
  let source := before ++ text
  let span := ⟨before.utf8ByteSize, before.utf8ByteSize + text.utf8ByteSize, Nat.le_add_right ..⟩
  (⟨kind, text, span⟩, { draft with source })

end Drafting

mutual

/-- Builds the nodes of a sketch, writing its tokens from left to right. Parts get their nodes
first, then the tokens between them, then the node itself. -/
def Sketch.build : Sketch → Drafting NodeId
  | .word form kind text => do
    let token ← Drafting.write kind text
    Drafting.edit (Edit.leaf (.expr form) token.span)
  | .node form parts more span => do
    let pieces ← SketchPart.buildAll parts
    let id ← Drafting.edit <| match span with
      | some span => Edit.allocAt form span pieces
      | none => Edit.alloc form pieces
    let further ← SketchPart.buildAll more
    Drafting.edit (Edit.append id further)
    return id
  | .bare form span => Drafting.edit (Edit.leaf form span)
  | .grouped inner => do
    let id ← inner.build
    Drafting.edit (Edit.setGrouped id true)
    return id

def SketchPart.build : SketchPart → Drafting (List Piece)
  | .absent => return []
  | .many parts => SketchPart.buildAll parts
  | .token token => return [.token token]
  | .lexeme kind text => return [.token (← Drafting.write kind text)]
  | .existing id => return [.node id]
  | .sketch inner => return [.node (← inner.build)]

def SketchPart.buildAll : List SketchPart → Drafting (List Piece)
  | [] => return []
  | part :: rest => do
    let pieces ← part.build
    return pieces ++ (← SketchPart.buildAll rest)

end

end MessageLang
