import MessageLang.Text.Quoted
import MessageLang.Tree.Query

namespace MessageLang

private def labelled (kind : String) : Option String → String
  | some name => kind ++ " " ++ name
  | none => kind

def Constant.label (c : Constant) : String :=
  match c.kind with
  | .nothing => "Constant ()"
  | .boolean => "Constant Boolean " ++ c.value
  | .number 10 => "Constant Number " ++ c.value
  | .number base => "Constant Number " ++ c.value ++ " (base " ++ toString base ++ ")"
  | .string => "Constant String " ++ quote c.value
  | .symbol => "Constant Symbol " ++ c.value

def ExprForm.label : ExprForm → String
  | constant value => value.label
  | reference name => "Reference " ++ name
  | array => "Array"
  | function .. => "Function"
  | structField name => labelled "StructField" name
  | struct => "Struct"
  | nested => "Nested"
  | newObject => "New"
  | unary op => "Unary " ++ op
  | call => "Call"
  | binary op => "Binary " ++ op
  | logic op => "Logic " ++ op.text
  | conditional => "If"
  | repeatLoop => "Repeat"
  | whileLoop => "While"
  | assignment name => "Assignment " ++ name
  | returnExit => "Return"
  | breakExit => "Break"
  | localDef name true => "Local var " ++ name
  | localDef name false => "Local " ++ name
  | locals => "Locals"
  | handler => "On"
  | block => "Block"

def TypeForm.label : TypeForm → String
  | empty => "EmptyType"
  | simple name => "SimpleType " ++ name
  | typedField name => labelled "TypedField" name
  | compound => "CompoundType"
  | template name => "TemplateType " ++ name
  | parameter name => "ParameterType $" ++ name
  | functionType => "FunctionType"
  | nestedType => "NestedType"
  | mergedType => "MergedType"
  | inlineDeclaration symbol => labelled "InlineDeclaration" (symbol.map ("." ++ ·))
  | inlineType => "InlineType"

/-- How a node shows in an outline. Tokens, and whatever hangs below one, do not. -/
def NodeForm.label? : NodeForm → Option String
  | token _ => none
  | expr form => some form.label
  | type form => some form.label

namespace Arena

def outlineWithin (a : Arena) : (height depth : Nat) → NodeId → List String
  | 0, _, _ => []
  | height + 1, depth, id =>
    match (a.form id).label? with
    | none => []
    | some label =>
      ("".pushn ' ' (2 * depth) ++ label)
        :: (a.children id).flatMap (a.outlineWithin height (depth + 1))

/-- A tree as text: a line for each expression and type, indented by two spaces a level. -/
def outline (a : Arena) (root : NodeId) : String :=
  "\n".intercalate (a.outlineWithin a.size 0 root)

end Arena

end MessageLang
