import MessageLang.Diagnostic.Excerpt
import MessageLang.Diagnostic.Log
import MessageLang.Text.Lines

namespace MessageLang

namespace Problem

/-- Code that never runs does no harm, so it is only warned of. All else is an error. -/
def isWarning : Problem → Bool
  | unreachableCode => true
  | _ => false

/-- The number of a problem. Warnings have numbers of their own. -/
def code : Problem → String
  | positionalAfterNamed => "E0001"
  | duplicateField _ => "E0002"
  | newWithoutHandler => "E0003"
  | assignmentOutsideBlock => "E0004"
  | localOutsideBlock => "E0005"
  | returnOutsideHandler => "E0006"
  | breakOutsideRepeat => "E0007"
  | unresolvedType _ => "E0008"
  | unresolvedName _ => "E0009"
  | nonBooleanCondition => "E0010"
  | nonBooleanOperand _ => "E0011"
  | incompatibleAssignment => "E0012"
  | immutableAssignment _ => "E0013"
  | noMatchingHandler => "E0014"
  | incompatibleReturn => "E0015"
  | recursiveDefinition _ => "E0016"
  | unreachableCode => "W0001"
  | wildcardConflict .. => "E0017"
  | templateArity .. => "E0018"

/-- What is said at the place itself. -/
def label : Problem → String
  | positionalAfterNamed => "positional field here"
  | duplicateField name => "'" ++ name ++ "' defined again here"
  | newWithoutHandler => "no handler in this object"
  | assignmentOutsideBlock | localOutsideBlock => "not a block item"
  | returnOutsideHandler => "no enclosing handler"
  | breakOutsideRepeat => "no enclosing loop"
  | unresolvedType _ => "unknown type"
  | unresolvedName _ => "not found in scope"
  | nonBooleanCondition | nonBooleanOperand _ => "expected Boolean"
  | incompatibleAssignment => "value does not fit"
  | immutableAssignment name => "'" ++ name ++ "' is immutable"
  | noMatchingHandler => "message not understood"
  | incompatibleReturn => "returned here"
  | recursiveDefinition _ => "defined in terms of itself"
  | unreachableCode => "never runs"
  | wildcardConflict _ bound => "conflicts with " ++ bound
  | templateArity _ expected _ => "expected " ++ toString expected ++ " argument(s)"

/-- What would mend it, where that is plain. -/
def help? : Problem → Option String
  | positionalAfterNamed => some "move positional fields before named ones"
  | assignmentOutsideBlock => some "wrap the assignment in '\x7b \x7d'"
  | immutableAssignment name => some ("declare '" ++ name ++ "' with 'var' to make it mutable")
  | recursiveDefinition name => some ("annotate '" ++ name ++ "' with its type")
  | unreachableCode => some "remove the code after 'return'"
  | _ => none

end Problem

/-- The span of a problem, cut to the size of its source and made to hold something if it can. -/
def Span.cutTo (s : Span) (size : Nat) : Span :=
  let start := min s.start size
  let stop := max (min s.stop size) start
  if start = stop then
    ⟨start, min (stop + 1) size, by have := Nat.min_le_right s.start size; omega⟩
  else ⟨start, stop, Nat.le_max_right ..⟩

/-- A problem as text: what it is, the source around it, and where it is in the file. The
offsets of a span count bytes, yet the source is shown as if they counted characters; only the
note says where the problem is by bytes. -/
def Problem.render (p : Problem) (span : Span) (source file : String) : String :=
  let span := span.cutTo source.utf8ByteSize
  let place := (LineIndex.ofText source).position span.start
  let severity := if p.isWarning then "Warning" else "Error"
  let head := "[" ++ p.code ++ "] " ++ severity ++ ": " ++ p.message
  let note := "Note: at " ++ file ++ ":" ++ toString place.line ++ ":" ++ toString place.column
  let remarks := (p.help?.map ("Help: " ++ ·)).toList ++ [note]
  let excerpt : Excerpt := ⟨SourceLine.ofText source, span.start, span.stop, p.label⟩
  String.join ((head :: excerpt.draw remarks).map (· ++ "\n"))

/-- All problems of a log as texts. -/
def Log.render (log : Log) (source file : String) : List String :=
  log.toList.map fun r => r.problem.render r.span source file

end MessageLang
