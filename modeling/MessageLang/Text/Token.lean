import MessageLang.Text.Span

namespace MessageLang

/-- The reserved words of the surface language. -/
inductive Keyword where
  | ifWord | thenWord | elseWord | whileWord | doWord | repeatWord | breakWord | returnWord
  | letWord | varWord | newWord | onWord | fnWord | notWord | andWord | orWord
deriving DecidableEq

namespace Keyword

def text : Keyword → String
  | ifWord => "if"
  | thenWord => "then"
  | elseWord => "else"
  | whileWord => "while"
  | doWord => "do"
  | repeatWord => "repeat"
  | breakWord => "break"
  | returnWord => "return"
  | letWord => "let"
  | varWord => "var"
  | newWord => "new"
  | onWord => "on"
  | fnWord => "fn"
  | notWord => "not"
  | andWord => "and"
  | orWord => "or"

def all : List Keyword :=
  [ifWord, thenWord, elseWord, whileWord, doWord, repeatWord, breakWord, returnWord,
    letWord, varWord, newWord, onWord, fnWord, notWord, andWord, orWord]

def ofText? (text : String) : Option Keyword := all.find? (·.text == text)

end Keyword

inductive TokenKind where
  | keyword (word : Keyword)
  | identifier
  | number
  | string
  | symbol
  | operator
  | punctuation
  | whitespace
  | comment
deriving DecidableEq

/-- A piece of source text. Trees keep their tokens, so that the text can be given back. -/
structure Token where
  kind : TokenKind
  text : String
  span : Span
deriving DecidableEq

namespace Token

/-- A token that no source text stands for, at the offset where it would be written. -/
def minted (kind : TokenKind) (text : String) (offset : Nat) : Token :=
  ⟨kind, text, .point offset⟩

def keyword (word : Keyword) (offset : Nat) : Token := minted (.keyword word) word.text offset

/-- Minted tokens have text but take no room in the source. -/
def isMinted (t : Token) : Bool := t.span.isEmpty && !t.text.isEmpty

end Token

end MessageLang
