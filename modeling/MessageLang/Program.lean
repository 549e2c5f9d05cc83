import MessageLang.Core.Lower
import MessageLang.Diagnostic.Render
import MessageLang.Typing.Pass

namespace MessageLang

/-- Settings of the whole front end. -/
structure ProgramOptions where
  /-- What the names of generated locals start with. -/
  stem : String := "_"
  typing : TypingOptions := {}

/-- A program in the core language with its types and all that is wrong with it: first what
stands where it may not, then what is used as what it is not. -/
structure Program where
  arena : Arena
  root : NodeId
  typed : TypedTree
  log : Log

namespace Program

/-- Lowers a tree and finds its types. -/
def compile (options : ProgramOptions) (a : Arena) (root : NodeId) : Except Fault Program := do
  let ((root, log), arena) ← lower options.stem root .empty a
  let (typed, log) ← check arena options.typing root log
  return { arena, root, typed, log }

def hasErrors (p : Program) : Bool := p.log.size != 0

end Program

end MessageLang
