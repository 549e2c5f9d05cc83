import MessageLang.Text.Unprintable

namespace MessageLang.Quoted

/-- Hexadecimal digits in lower case, without leading zeros. -/
def hexadecimal (n : Nat) : String := String.ofList (Nat.toDigits 16 n)

/-- How one character is written between double quotes. A single quote needs no mark. -/
def escape (c : Char) : String :=
  if c = '"' then "\\\""
  else if c = '\\' then "\\\\"
  else if c = '\t' then "\\t"
  else if c = '\r' then "\\r"
  else if c = '\n' then "\\n"
  else if c.toNat = 0 then "\\0"
  else if isUnprintable c then "\\u\x7b" ++ hexadecimal c.toNat ++ "\x7d"
  else String.singleton c

end MessageLang.Quoted

namespace MessageLang

/-- A text as a string literal of the language. -/
def quote (text : String) : String :=
  "\"" ++ String.join (text.toList.map Quoted.escape) ++ "\""

end MessageLang
