import MessageLang.Text.Token

namespace MessageLang

inductive ConstantKind where
  /-- The literal for no value, written as an empty pair of parentheses. -/
  | nothing
  | boolean
  | number (base : Nat)
  | string
  /-- The name of a message. -/
  | symbol
deriving DecidableEq

/-- A literal, with its value as text. -/
structure Constant where
  kind : ConstantKind
  value : String
deriving DecidableEq

namespace Constant

def nothing : Constant := ⟨.nothing, ""⟩

def symbol (name : String) : Constant := ⟨.symbol, name⟩

end Constant

/-- The boolean operators that may leave their second operand alone. -/
inductive LogicOp where
  | and
  | or
deriving DecidableEq

namespace LogicOp

def text : LogicOp → String
  | and => "and"
  | or => "or"

def ofText? : String → Option LogicOp
  | "and" => some and
  | "or" => some or
  | _ => none

end LogicOp

/-- What an expression is. Names, operators and literal values are part of the form; operands,
bodies and type annotations are children of the node:

* constants and references have none;
* `structField`, `nested`, `newObject`, `unary`, `repeatLoop` and `assignment` have one;
* `call` has a receiver and a message, `binary` and `logic` two operands, `whileLoop` a
  condition and a body, `conditional` a condition and one or two branches;
* `returnExit` and `breakExit` may have a value;
* `localDef` has a value and may have an annotation, `locals` has local definitions;
* `handler` has an input type, perhaps an output type, and a body, `function` the same with
  the input type left to choice;
* `array`, `struct` and `block` have any number of items. -/
inductive ExprForm where
  | constant (value : Constant)
  | reference (name : String)
  | array
  | function (input output : Bool)
  | structField (name : Option String)
  | struct
  | nested
  | newObject
  | unary (op : String)
  | call
  | binary (op : String)
  | logic (op : LogicOp)
  | conditional
  | repeatLoop
  | whileLoop
  | assignment (name : String)
  | returnExit
  | breakExit
  | localDef (name : String) (mutable : Bool)
  | locals
  | handler
  | block
deriving DecidableEq

namespace ExprForm

def name : ExprForm → String
  | constant _ => "constant"
  | reference _ => "reference"
  | array => "array"
  | function .. => "function"
  | structField _ => "struct-field"
  | struct => "struct"
  | nested => "nested"
  | newObject => "new"
  | unary _ => "unary"
  | call => "call"
  | binary _ => "binary"
  | logic _ => "logic"
  | conditional => "if"
  | repeatLoop => "repeat"
  | whileLoop => "while"
  | assignment _ => "assignment"
  | returnExit => "return"
  | breakExit => "break"
  | localDef .. => "local"
  | locals => "locals"
  | handler => "on"
  | block => "block"

/-- Forms that the core language does not have. -/
def isSurfaceOnly : ExprForm → Bool
  | function .. | unary _ | binary _ | whileLoop => true
  | _ => false

end ExprForm

/-- What a piece of type syntax is. A `typedField` has the field's type and perhaps a default
value as children, `functionType` an argument and a result, `inlineDeclaration` a result and,
when it names no symbol, a guard in front of it; `compound`, `template`, `mergedType` and
`inlineType` have any number of parts. -/
inductive TypeForm where
  | empty
  | simple (name : String)
  | typedField (name : Option String)
  | compound
  | template (name : String)
  /-- The name is without the dollar sign that it is written with. -/
  | parameter (name : String)
  | functionType
  | nestedType
  | mergedType
  | inlineDeclaration (symbol : Option String)
  | inlineType
deriving DecidableEq

namespace TypeForm

def name : TypeForm → String
  | empty => "empty"
  | simple _ => "simple"
  | typedField _ => "typed-field"
  | compound => "compound"
  | template _ => "template"
  | parameter _ => "parameter"
  | functionType => "function-type"
  | nestedType => "nested-type"
  | mergedType => "merged-type"
  | inlineDeclaration _ => "inline-declaration"
  | inlineType => "inline-type"

end TypeForm

/-- What a node of a tree is. -/
inductive NodeForm where
  | token (token : Token)
  | expr (form : ExprForm)
  | type (form : TypeForm)
deriving DecidableEq

namespace NodeForm

instance : Inhabited NodeForm := ⟨expr (.constant .nothing)⟩

def name : NodeForm → String
  | token _ => "token"
  | expr form => form.name
  | type form => form.name

def expr? : NodeForm → Option ExprForm
  | expr form => some form
  | _ => none

def type? : NodeForm → Option TypeForm
  | type form => some form
  | _ => none

def token? : NodeForm → Option Token
  | token t => some t
  | _ => none

/-- Being the same but for where it stands in the source. -/
def sameShape : NodeForm → NodeForm → Bool
  | token s, token t => s.kind == t.kind && s.text == t.text
  | f, g => f == g

end NodeForm

end MessageLang
