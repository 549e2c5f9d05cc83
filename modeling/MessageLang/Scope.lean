namespace MessageLang

/-- The handle of a frame. -/
structure ScopeId where
  index : Nat
deriving DecidableEq, Inhabited

/-- The names bound in one region, the latest binding first, and the frame around it. -/
structure Frame (α : Type) where
  parent : Option ScopeId
  names : List (String × α)
deriving Inhabited

/-- Frames chained to their parents. A frame stays after its region has been left, so a
definition can be looked up later from where it was written. Terms and types have one each. -/
structure Scopes (α : Type) where
  frames : Array (Frame α)

namespace Scopes

variable {α : Type}

def root : ScopeId := ⟨0⟩

/-- The root frame alone, with nothing bound. -/
def empty : Scopes α := ⟨#[⟨none, []⟩]⟩

def frame (s : Scopes α) (id : ScopeId) : Frame α := s.frames.getD id.index default

def parent (s : Scopes α) (id : ScopeId) : Option ScopeId := (s.frame id).parent

/-- Opens a frame inside `parent`. -/
def push (s : Scopes α) (parent : ScopeId) : ScopeId × Scopes α :=
  (⟨s.frames.size⟩, ⟨s.frames.push ⟨some parent, []⟩⟩)

/-- Binds a name in a frame, in front of what the name meant there and further out. -/
def add (s : Scopes α) (id : ScopeId) (name : String) (value : α) : Scopes α :=
  ⟨s.frames.modify id.index fun f => { f with names := (name, value) :: f.names }⟩

/-- What a frame itself binds a name to. -/
def here? (s : Scopes α) (id : ScopeId) (name : String) : Option α := (s.frame id).names.lookup name

/-- Looks through at most `steps` frames, going outwards. -/
def getWithin? (s : Scopes α) (name : String) : Nat → ScopeId → Option α
  | 0, _ => none
  | steps + 1, id =>
    match s.here? id name with
    | some value => some value
    | none =>
      match s.parent id with
      | some outer => s.getWithin? name steps outer
      | none => none

/-- What a name means in a frame: its binding in the nearest frame that has one. Every frame is
younger than its parent, so a frame's number bounds the way out of it. -/
def get? (s : Scopes α) (id : ScopeId) (name : String) : Option α :=
  s.getWithin? name (id.index + 1) id

end Scopes

end MessageLang
