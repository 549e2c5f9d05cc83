namespace MessageLang

/-- The two kinds of rules: what may stand where, and what may be used as what. -/
inductive Phase where
  | legality
  | type
deriving DecidableEq

/-- What is wrong with a program. -/
inductive Problem where
  /-- A struct field without a name after one with a name. -/
  | positionalAfterNamed
  /-- A field name given twice in one struct or compound type. -/
  | duplicateField (name : String)
  /-- An object whose code is neither a handler nor a block with a handler in it. -/
  | newWithoutHandler
  /-- An assignment whose nearest enclosing expression is no block. -/
  | assignmentOutsideBlock
  /-- A local whose nearest enclosing expression is no block. -/
  | localOutsideBlock
  | returnOutsideHandler
  | breakOutsideRepeat
  | unresolvedType (name : String)
  | unresolvedName (name : String)
  | nonBooleanCondition
  | nonBooleanOperand (op : String)
  | incompatibleAssignment
  | immutableAssignment (name : String)
  | noMatchingHandler
  | incompatibleReturn
  /-- A local that depends on itself and has no annotation. -/
  | recursiveDefinition (name : String)
  | unreachableCode
  /-- A wildcard that would have to stand for two types at once. -/
  | wildcardConflict (name bound : String)
  | templateArity (name : String) (expected found : Nat)
deriving DecidableEq

namespace Problem

/-- Which rules a problem breaks. A name given twice counts as a matter of legality in compound
types too, where it is found only while types are compiled. -/
def phase : Problem → Phase
  | positionalAfterNamed | duplicateField _ | newWithoutHandler | assignmentOutsideBlock
  | localOutsideBlock | returnOutsideHandler | breakOutsideRepeat => .legality
  | _ => .type

private def quoted (name : String) : String := "'" ++ name ++ "'"

def message : Problem → String
  | positionalAfterNamed => "Positional field after named field"
  | duplicateField name => "Duplicate field name " ++ quoted name
  | newWithoutHandler => "'new' requires an 'on' handler"
  | assignmentOutsideBlock => "Assignment must be directly inside a block"
  | localOutsideBlock => "Local declaration must be directly inside a block"
  | returnOutsideHandler => "'return' outside of an 'on' handler"
  | breakOutsideRepeat => "'break' outside of a 'repeat' loop"
  | unresolvedType name => "Unresolved type " ++ quoted name
  | unresolvedName name => "Unresolved name " ++ quoted name
  | nonBooleanCondition => "Condition must be Boolean"
  | nonBooleanOperand op => "Operand of " ++ quoted op ++ " must be Boolean"
  | incompatibleAssignment => "Incompatible types in assignment"
  | immutableAssignment name => "Cannot assign to immutable " ++ quoted name
  | noMatchingHandler => "No matching handler found"
  | incompatibleReturn => "Incompatible return type"
  | recursiveDefinition name =>
    "Recursive definition of " ++ quoted name ++ " requires a type annotation"
  | unreachableCode => "Unreachable code after 'return'"
  | wildcardConflict name bound =>
    "Wildcard " ++ quoted name ++ " already resolved to " ++ quoted bound
  | templateArity name expected found =>
    "Template " ++ quoted name ++ " expects " ++ toString expected ++ " argument(s), found "
      ++ toString found

end Problem

end MessageLang
