import MessageLang.Scope
import MessageLang.Types.Table

namespace MessageLang

namespace TypeId

def nothing : TypeId := ⟨0⟩
def anything : TypeId := ⟨1⟩
def never : TypeId := ⟨2⟩
/-- The compound type without fields. -/
def empty : TypeId := ⟨3⟩
def boolean : TypeId := ⟨4⟩
def number : TypeId := ⟨5⟩
def string : TypeId := ⟨6⟩
def symbol : TypeId := ⟨7⟩
/-- What the items of the array template are. -/
def arrayItem : TypeId := ⟨14⟩
/-- The template of arrays. -/
def array : TypeId := ⟨15⟩

end TypeId

namespace TypeTable

open TypeId

private def named (name : String) (shape : Shape) : Tabling TypeId :=
  Tabling.push { name := some name, shape }

private def arithmetic : List String := ["+", "-", "*", "/", "%"]

private def comparison : List String := ["<", "<=", ">", ">=", "==", "!="]

/-- Enters the types of the language itself. Operators reach them as messages, so a number
answers a plus sign with a type that answers numbers with numbers. -/
def enterBuiltins : Tabling Unit := do
  let _ ← named "Nothing" .nothing
  let _ ← named "Anything" .anything
  let _ ← named "Never" .never
  let _ ← Tabling.compound []
  let boolean ← named "Boolean" .simple
  let number ← named "Number" .simple
  let string ← named "String" .simple
  let symbol ← named "Symbol" .simple
  let numberOp ← Tabling.function number number
  let numberTest ← Tabling.function number boolean
  arithmetic.forM fun op => Tabling.addSymbol number op numberOp
  comparison.forM fun op => Tabling.addSymbol number op numberTest
  Tabling.addSymbol number "negative" number
  let booleanTest ← Tabling.function boolean boolean
  Tabling.addSymbol boolean "not" boolean
  Tabling.addSymbol boolean "==" booleanTest
  Tabling.addSymbol boolean "!=" booleanTest
  let concat ← Tabling.function string string
  let stringTest ← Tabling.function string boolean
  Tabling.addSymbol string "+" concat
  Tabling.addSymbol string "==" stringTest
  Tabling.addSymbol string "length" number
  let symbolTest ← Tabling.function symbol boolean
  Tabling.addSymbol symbol "==" symbolTest
  let item ← Tabling.wildcard "$Item"
  let array ← named "Array" .simple
  Tabling.update array fun d => { d with params := [item] }
  let elementAt ← Tabling.function number item
  let append ← Tabling.function item array
  Tabling.addSymbol array "length" number
  Tabling.addSymbol array "first" item
  Tabling.addSymbol array "at" elementAt
  Tabling.addSymbol array "append" append

/-- The table that every session starts from. -/
def initial : TypeTable :=
  match enterBuiltins empty with
  | .ok (_, table) => table
  | .error _ => empty

/-- The built-in types that a program can call by name. -/
def builtinNames : List (String × TypeId) :=
  [("Nothing", nothing), ("Anything", anything), ("Boolean", boolean), ("Number", number),
    ("String", string), ("Symbol", symbol), ("Array", array)]

/-- Type scopes with the built-in names in the root frame. -/
def initialScopes : Scopes TypeId :=
  builtinNames.foldl (fun scopes (name, id) => scopes.add Scopes.root name id) .empty

end TypeTable

end MessageLang
