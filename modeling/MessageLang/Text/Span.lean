namespace MessageLang

/-- A stretch of source text in bytes: `start` is the first byte, `stop` the one after the
last. A node that no source text stands for gets an empty span at a real offset. -/
structure Span where
  start : Nat
  stop : Nat
  start_le_stop : start ≤ stop := by omega
deriving DecidableEq

namespace Span

/-- The span between two offsets, unless they come in the wrong order. -/
def ofBounds? (start stop : Nat) : Option Span :=
  if h : start ≤ stop then some ⟨start, stop, h⟩ else none

/-- The empty span at an offset. -/
def point (offset : Nat) : Span := ⟨offset, offset, Nat.le_refl offset⟩

instance : Inhabited Span := ⟨point 0⟩

def length (s : Span) : Nat := s.stop - s.start

def isEmpty (s : Span) : Bool := s.start == s.stop

/-- The least span that covers both. -/
def merge (s t : Span) : Span where
  start := min s.start t.start
  stop := max s.stop t.stop
  start_le_stop :=
    Nat.le_trans (Nat.min_le_left ..) (Nat.le_trans s.start_le_stop (Nat.le_max_left ..))

/-- The least span that covers all of a list, if there is one to cover. -/
def hull : List Span → Option Span
  | [] => none
  | s :: rest => some (rest.foldl merge s)

def startPoint (s : Span) : Span := point s.start

def stopPoint (s : Span) : Span := point s.stop

instance : ToString Span where
  toString s := "[" ++ toString s.start ++ ":" ++ toString s.stop ++ "]"

/-- Being inside another span. -/
def Within (s t : Span) : Prop := t.start ≤ s.start ∧ s.stop ≤ t.stop

theorem within_merge_left (s t : Span) : s.Within (s.merge t) :=
  ⟨Nat.min_le_left .., Nat.le_max_left ..⟩

theorem within_merge_right (s t : Span) : t.Within (s.merge t) :=
  ⟨Nat.min_le_right .., Nat.le_max_right ..⟩

end Span

end MessageLang
