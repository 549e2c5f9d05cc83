import MessageLang.Fault

namespace MessageLang

/-- The offsets at which the lines of a text begin. Only a newline ends a line, so a carriage
return counts as one more column. -/
structure LineIndex where
  starts : List Nat

/-- A place in a text, counted from one, the column in bytes. -/
structure Position where
  line : Nat
  column : Nat
deriving DecidableEq

namespace LineIndex

/-- The offset after each newline byte, counting on from an offset. -/
def startsFrom (offset : Nat) : List UInt8 → List Nat
  | [] => []
  | byte :: rest =>
    if byte = 10 then (offset + 1) :: startsFrom (offset + 1) rest else startsFrom (offset + 1) rest

def ofText (text : String) : LineIndex := ⟨0 :: startsFrom 0 text.toUTF8.data.toList⟩

def lineCount (index : LineIndex) : Nat := index.starts.length

/-- The place of an offset. Offsets past the end of the text count on from its last line. -/
def position (index : LineIndex) (offset : Nat) : Position :=
  let begun := index.starts.takeWhile (· ≤ offset)
  { line := begun.length, column := offset - begun.getLastD 0 + 1 }

/-- The place of a 32-bit offset, whose column is to fit in 32 bits as well. -/
def position? (index : LineIndex) (offset : Nat) : Except Fault Position :=
  let place := index.position offset
  if place.column < UInt32.size then .ok place else .error .columnTooLarge

end LineIndex

end MessageLang
