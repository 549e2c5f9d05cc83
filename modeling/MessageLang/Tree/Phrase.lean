import MessageLang.Text.Quoted
import MessageLang.Tree.Sketch

namespace MessageLang

namespace SketchPart

def reserved (word : Keyword) : SketchPart := lexeme (.keyword word) word.text

def name (text : String) : SketchPart := lexeme .identifier text

def mark (text : String) : SketchPart := lexeme .punctuation text

/-- An operator between or before operands. Those spelt like words are reserved words. -/
def operator : String → SketchPart
  | "and" => reserved .andWord
  | "or" => reserved .orWord
  | "not" => reserved .notWord
  | op => lexeme .operator op

def sketches (parts : List Sketch) : SketchPart := many (parts.map sketch)

/-- A part that may be left out. -/
def optional : Option Sketch → SketchPart
  | some part => sketch part
  | none => absent

/-- A name and a colon in front of what is named. -/
def labelling : Option String → SketchPart
  | some label => many [name label, mark ":"]
  | none => absent

end SketchPart

namespace Sketch

open SketchPart (reserved name mark operator sketch sketches optional labelling)

private def expr (form : ExprForm) (parts : List SketchPart) : Sketch :=
  node (.expr form) parts [] none

private def type (form : TypeForm) (parts : List SketchPart) : Sketch :=
  node (.type form) parts [] none

private def literal (kind : ConstantKind) (value : String) (token : TokenKind) (text : String) :
    Sketch :=
  .word (.constant ⟨kind, value⟩) token text

/-- The base that a number is written in, which its first two characters give. -/
def baseOf (text : String) : Nat :=
  if text.startsWith "0x" then 16
  else if text.startsWith "0o" then 8
  else if text.startsWith "0b" then 2
  else 10

def number (text : String) : Sketch := literal (.number (baseOf text)) text .number text

def string (value : String) : Sketch := literal .string value .string (quote value)

def boolean (value : Bool) : Sketch :=
  let text := if value then "true" else "false"
  literal .boolean text .identifier text

def nothing : Sketch := literal .nothing "" .punctuation "()"

def symbol (name : String) : Sketch := literal .symbol name .symbol ("." ++ name)

def reference (name : String) : Sketch := .word (.reference name) .identifier name

def nested (inner : Sketch) : Sketch := expr .nested [mark "(", sketch inner, mark ")"]

def unary (op : String) (operand : Sketch) : Sketch :=
  expr (.unary op) [operator op, sketch operand]

def binary (left : Sketch) (op : String) (right : Sketch) : Sketch :=
  expr (.binary op) [sketch left, operator op, sketch right]

def call (receiver message : Sketch) : Sketch := expr .call [sketch receiver, sketch message]

def send (receiver : Sketch) (message : String) : Sketch := call receiver (symbol message)

private def thenParts (condition branch : Sketch) : List SketchPart :=
  [reserved .ifWord, sketch condition, reserved .thenWord, sketch branch]

def ifThen (condition branch : Sketch) : Sketch := expr .conditional (thenParts condition branch)

def ifElse (condition branch otherwise : Sketch) : Sketch :=
  node (.expr .conditional) (thenParts condition branch) [reserved .elseWord, sketch otherwise] none

def whileLoop (condition body : Sketch) : Sketch :=
  expr .whileLoop [reserved .whileWord, sketch condition, reserved .doWord, sketch body]

def repeatLoop (body : Sketch) : Sketch := expr .repeatLoop [reserved .repeatWord, sketch body]

def newObject (code : Sketch) : Sketch := expr .newObject [reserved .newWord, sketch code]

def block (items : List Sketch) : Sketch :=
  expr .block [mark "\x7b", sketches items, mark "\x7d"]

def array (items : List Sketch) : Sketch := expr .array [mark "[", sketches items, mark "]"]

def struct (fields : List Sketch) : Sketch := expr .struct [mark "(", sketches fields, mark ")"]

def field (label : Option String) (value : Sketch) : Sketch :=
  expr (.structField label) [labelling label, sketch value]

def assign (target : String) (value : Sketch) : Sketch :=
  expr (.assignment target) [name target, .lexeme .operator ":=", sketch value]

/-- One definition, without the word that introduces it. -/
def localDef (target : String) (mutable : Bool) (declared : Option Sketch) (value : Sketch) :
    Sketch :=
  let typed := match declared with
    | some declared => SketchPart.many [mark ":", sketch declared]
    | none => SketchPart.absent
  expr (.localDef target mutable)
    [name target, typed, .lexeme .operator "=", sketch value]

def locals (mutable : Bool) (definitions : List Sketch) : Sketch :=
  expr .locals [reserved (if mutable then .varWord else .letWord), sketches definitions]

def letOne (target : String) (declared : Option Sketch) (value : Sketch) : Sketch :=
  locals false [localDef target false declared value]

def varOne (target : String) (value : Sketch) : Sketch :=
  locals true [localDef target true none value]

def returnExit (value : Option Sketch) : Sketch :=
  expr .returnExit [reserved .returnWord, optional value]

def breakExit (value : Option Sketch) : Sketch :=
  expr .breakExit [reserved .breakWord, optional value]

def handler (input : Sketch) (output : Option Sketch) (body : Sketch) : Sketch :=
  expr .handler [reserved .onWord, sketch input, optional output, sketch body]

def function (input output : Option Sketch) (body : Sketch) : Sketch :=
  expr (.function input.isSome output.isSome)
    [reserved .fnWord, optional input, optional output, sketch body]

def emptyType : Sketch := type .empty [mark "()"]

def simpleType (text : String) : Sketch := type (.simple text) [name text]

def parameterType (text : String) : Sketch := type (.parameter text) [name ("$" ++ text)]

def typedField (label : Option String) (fieldType : Sketch) : Sketch :=
  type (.typedField label) [labelling label, sketch fieldType]

def typedFieldDefault (label : String) (fieldType default : Sketch) : Sketch :=
  node (.type (.typedField label)) [labelling label, sketch fieldType]
    [.lexeme .operator "=", sketch default] none

def compoundType (fields : List Sketch) : Sketch :=
  type .compound [mark "(", sketches fields, mark ")"]

def templateType (text : String) (arguments : List Sketch) : Sketch :=
  type (.template text) [name text, mark "(", sketches arguments, mark ")"]

private def arrow : SketchPart := .lexeme .operator "->"

def functionType (argument result : Sketch) : Sketch :=
  type .functionType [sketch argument, arrow, sketch result]

def nestedType (inner : Sketch) : Sketch := type .nestedType [mark "(", sketch inner, mark ")"]

def mergedType (alternatives : List Sketch) : Sketch := type .mergedType [sketches alternatives]

def inlineType (declarations : List Sketch) : Sketch :=
  type .inlineType [mark "\x7b", sketches declarations, mark "\x7d"]

def symbolDeclaration (name : String) (result : Sketch) : Sketch :=
  type (.inlineDeclaration name) [.lexeme .symbol ("." ++ name), arrow, sketch result]

def guardDeclaration (guard result : Sketch) : Sketch :=
  type (.inlineDeclaration none) [sketch guard, arrow, sketch result]

end Sketch

end MessageLang
