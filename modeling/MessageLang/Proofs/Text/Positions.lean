import MessageLang.Text.Lines
import Mathlib.Data.List.Basic

namespace MessageLang

/-- The bytes that the offsets into a text count. -/
def bytesOf (text : String) : List UInt8 := text.toUTF8.data.toList

theorem length_bytesOf (text : String) : (bytesOf text).length = text.utf8ByteSize := by
  simp [bytesOf]

/-- The line of an offset begins after the last newline before it, or where the text does. -/
structure BeginsLine (bytes : List UInt8) (offset start : Nat) : Prop where
  le : start ≤ offset
  after : start = 0 ∨ bytes[start - 1]? = some 10
  between : ∀ i, start ≤ i → i < offset → bytes[i]? ≠ some 10

/-- The order in which places come when a text is read. -/
def Position.Before (p q : Position) : Prop :=
  p.line < q.line ∨ p.line = q.line ∧ p.column < q.column

namespace LineIndex

section

variable {bytes more : List UInt8} {base offset later start : Nat}

theorem mem_startsFrom_iff :
    start ∈ startsFrom base bytes ↔ ∃ i, bytes[i]? = some 10 ∧ start = base + i + 1 := by
  induction bytes generalizing base with
  | nil => simp [startsFrom]
  | cons byte rest ih =>
    have hcons : start ∈ startsFrom base (byte :: rest) ↔
        byte = 10 ∧ start = base + 1 ∨ start ∈ startsFrom (base + 1) rest := by
      rw [startsFrom]
      split <;> simp [*]
    rw [hcons, ih]
    constructor
    · rintro (⟨hbyte, rfl⟩ | ⟨i, hi, rfl⟩)
      · exact ⟨0, congrArg some hbyte, rfl⟩
      · exact ⟨i + 1, hi, by omega⟩
    · rintro ⟨i, hi, rfl⟩
      cases i with
      | zero => exact .inl ⟨Option.some_inj.mp hi, rfl⟩
      | succ i => exact .inr ⟨i, hi, by omega⟩

theorem lt_of_mem_startsFrom (h : start ∈ startsFrom base bytes) : base < start := by
  obtain ⟨i, -, rfl⟩ := mem_startsFrom_iff.mp h
  omega

/-- No line begins after the end of the text. -/
theorem le_of_mem_startsFrom (h : start ∈ startsFrom base bytes) : start ≤ base + bytes.length := by
  obtain ⟨i, hi, rfl⟩ := mem_startsFrom_iff.mp h
  have hlt := (List.getElem?_eq_some_iff.mp hi).1
  omega

theorem startsFrom_append : startsFrom base (bytes ++ more) =
    startsFrom base bytes ++ startsFrom (base + bytes.length) more := by
  induction bytes generalizing base with
  | nil => simp [startsFrom]
  | cons byte rest ih =>
    have hlength : base + 1 + rest.length = base + (byte :: rest).length := by
      rw [List.length_cons, Nat.add_assoc, Nat.add_comm 1]
    rw [List.cons_append, startsFrom, startsFrom, ih, hlength]
    split
    · rw [List.cons_append]
    · rfl

theorem length_startsFrom (base : Nat) (bytes : List UInt8) :
    (startsFrom base bytes).length = bytes.count 10 := by
  induction bytes generalizing base with
  | nil => rfl
  | cons byte rest ih =>
    rw [startsFrom, List.count_cons]
    split
    · next heq => rw [List.length_cons, ih, if_pos (by simpa using heq)]
    · next hne => rw [ih, if_neg (by simpa using hne), Nat.add_zero]

/-- Lines begin one after the other. -/
theorem pairwise_startsFrom (base : Nat) (bytes : List UInt8) :
    (startsFrom base bytes).Pairwise (· < ·) := by
  induction bytes generalizing base with
  | nil => exact .nil
  | cons byte rest ih =>
    rw [startsFrom]
    split
    · exact .cons (fun _ => lt_of_mem_startsFrom) (ih _)
    · exact ih _

/-- The beginnings of the lines that have begun by an offset. -/
def begun (bytes : List UInt8) (offset : Nat) : List Nat := 0 :: startsFrom 0 (bytes.take offset)

theorem pairwise_begun (bytes : List UInt8) (offset : Nat) : (begun bytes offset).Pairwise (· < ·) :=
  .cons (fun _ => lt_of_mem_startsFrom) (pairwise_startsFrom _ _)

theorem length_begun (bytes : List UInt8) (offset : Nat) :
    (begun bytes offset).length = (bytes.take offset).count 10 + 1 := by
  rw [begun, List.length_cons, length_startsFrom]

theorem le_of_mem_begun (h : start ∈ begun bytes offset) : start ≤ offset := by
  rcases List.mem_cons.mp h with rfl | h
  · exact Nat.zero_le _
  · have hle := le_of_mem_startsFrom h
    have htake := List.length_take_le offset bytes
    omega

/-- Further on more lines may have begun. -/
theorem exists_begun_eq_append (bytes : List UInt8) (h : offset ≤ later) :
    ∃ starts, begun bytes later = begun bytes offset ++ starts := by
  obtain ⟨distance, rfl⟩ := Nat.exists_eq_add_of_le h
  rw [begun, List.take_add, startsFrom_append, ← List.cons_append, ← begun]
  exact ⟨_, rfl⟩

/-- The lines that have begun by an offset come first, and all others begin after it. -/
theorem exists_starts_eq_append (bytes : List UInt8) (offset : Nat) : ∃ rest,
    0 :: startsFrom 0 bytes = begun bytes offset ++ rest ∧ ∀ start ∈ rest, offset < start := by
  refine ⟨startsFrom (bytes.take offset).length (bytes.drop offset), ?_, fun start hstart => ?_⟩
  · conv_lhs => rw [← List.take_append_drop offset bytes, startsFrom_append, Nat.zero_add]
    rw [begun, List.cons_append]
  · have hlt := lt_of_mem_startsFrom hstart
    by_cases hle : offset ≤ bytes.length
    · rwa [List.length_take_of_le hle] at hlt
    · rw [List.drop_of_length_le (by omega)] at hstart
      cases hstart

/-- An offset parts the lines: first come those that have begun by then. -/
theorem le_iff_lt_length_begun {k : Nat} (h : (0 :: startsFrom 0 bytes)[k]? = some start) :
    start ≤ offset ↔ k < (begun bytes offset).length := by
  obtain ⟨rest, heq, hrest⟩ := exists_starts_eq_append bytes offset
  rw [heq, List.getElem?_append] at h
  split at h
  · next hlt => exact iff_of_true (le_of_mem_begun (List.mem_of_getElem? h)) hlt
  · next hge => exact iff_of_false (Nat.not_le_of_lt (hrest start (List.mem_of_getElem? h))) hge

/-- Of the lines that have begun the last one is that of the offset. -/
theorem exists_begun_eq_concat (bytes : List UInt8) (offset : Nat) : ∃ earlier start,
    begun bytes offset = earlier ++ [start] ∧ BeginsLine bytes offset start := by
  obtain hnil | ⟨earlier, start, heq⟩ := (begun bytes offset).eq_nil_or_concat
  · cases hnil
  · rw [List.concat_eq_append] at heq
    have hmem : start ∈ begun bytes offset := by simp [heq]
    have hsorted := pairwise_begun bytes offset
    rw [heq, List.pairwise_append] at hsorted
    refine ⟨earlier, start, heq, le_of_mem_begun hmem, ?_, fun i hle hlt hi => ?_⟩
    · refine (List.mem_cons.mp hmem).imp_right fun hmem => ?_
      obtain ⟨i, hi, rfl⟩ := mem_startsFrom_iff.mp hmem
      rw [Nat.zero_add, Nat.add_sub_cancel]
      have hlt := (List.getElem?_eq_some_iff.mp hi).1
      rw [List.length_take] at hlt
      rwa [List.getElem?_take_of_lt (by omega)] at hi
    · have hlater : i + 1 ∈ begun bytes offset :=
        List.mem_cons_of_mem _ (mem_startsFrom_iff.mpr ⟨i, by rwa [List.getElem?_take_of_lt hlt], by omega⟩)
      rw [heq, List.mem_append, List.mem_singleton] at hlater
      rcases hlater with hearlier | heq
      · have hless := hsorted.2.2 _ hearlier start (by simp)
        omega
      · omega

end

variable {text : String} {offset later : Nat}

theorem starts_ofText (text : String) : (ofText text).starts = 0 :: startsFrom 0 (bytesOf text) := rfl

theorem takeWhile_starts (text : String) (offset : Nat) :
    (ofText text).starts.takeWhile (· ≤ offset) = begun (bytesOf text) offset := by
  obtain ⟨rest, heq, hrest⟩ := exists_starts_eq_append (bytesOf text) offset
  rw [starts_ofText, heq, List.takeWhile_append_of_pos fun _ h => by simpa using le_of_mem_begun h]
  cases rest with
  | nil => exact List.append_nil _
  | cons start rest =>
    have hlt : offset < start := hrest start (by simp)
    rw [List.takeWhile_cons_of_neg (by simpa using hlt), List.append_nil]

/-- The place of an offset counts from the last line that has begun. -/
theorem exists_position_eq (text : String) (offset : Nat) : ∃ earlier start,
    begun (bytesOf text) offset = earlier ++ [start] ∧ BeginsLine (bytesOf text) offset start ∧
      (ofText text).position offset = ⟨earlier.length + 1, offset - start + 1⟩ := by
  obtain ⟨earlier, start, heq, hbegins⟩ := exists_begun_eq_concat (bytesOf text) offset
  refine ⟨earlier, start, heq, hbegins, ?_⟩
  simp only [position, takeWhile_starts, heq, List.length_append, List.length_singleton,
    List.getLastD_concat]

theorem position_before (text : String) (h : offset < later) :
    ((ofText text).position offset).Before ((ofText text).position later) := by
  obtain ⟨earlier, start, hbegun, hbegins, hplace⟩ := exists_position_eq text offset
  obtain ⟨earlier', start', hbegun', hbegins', hplace'⟩ := exists_position_eq text later
  obtain ⟨starts, hstarts⟩ := exists_begun_eq_append (bytesOf text) (Nat.le_of_lt h)
  rw [hbegun', hbegun] at hstarts
  rw [hplace, hplace']
  cases starts with
  | nil =>
    obtain ⟨rfl, hsame⟩ := List.append_inj' (hstarts.trans (List.append_nil _)) rfl
    obtain rfl := List.singleton_inj.mp hsame
    have hle := hbegins.le
    exact .inr ⟨rfl, by dsimp only; omega⟩
  | cons next rest =>
    have hlength := congrArg List.length hstarts
    simp only [List.length_append, List.length_cons, List.length_nil] at hlength
    exact .inl (by dsimp only; omega)

theorem position?_eq_ok_iff {place : Position} : (ofText text).position? offset = .ok place ↔
    ((ofText text).position offset).column < UInt32.size ∧ (ofText text).position offset = place := by
  unfold position?
  dsimp only
  split <;> simp [*]

/-- In a text of a size that fits in 32 bits lines begin at offsets that fit as well, each before the
next. Any 32-bit offset but the greatest one, in the text or past its end, has a place that fits: its
line is one more than the newlines before it, which is how many lines have begun by then, and its
column counts on from where the last of these begins. Later offsets have later places. -/
theorem position?_ofText (hsize : text.utf8ByteSize < UInt32.size) :
    (ofText text).starts.Pairwise (· < ·) ∧
      (∀ start ∈ (ofText text).starts, start < UInt32.size) ∧
      ∀ offset, offset + 1 < UInt32.size → ∃ place start,
        (ofText text).position? offset = .ok place ∧
        place.line = ((bytesOf text).take offset).count 10 + 1 ∧ place.line < UInt32.size ∧
        (∀ k s, (ofText text).starts[k]? = some s → (s ≤ offset ↔ k < place.line)) ∧
        (ofText text).starts[place.line - 1]? = some start ∧
        BeginsLine (bytesOf text) offset start ∧
        place.column = offset - start + 1 ∧ place.column < UInt32.size ∧
        ∀ later place', offset < later → (ofText text).position? later = .ok place' →
          place.Before place' := by
  refine ⟨.cons (fun _ => lt_of_mem_startsFrom) (pairwise_startsFrom _ _), fun start hstart => ?_,
    fun offset hoffset => ?_⟩
  · rcases List.mem_cons.mp hstart with rfl | hstart
    · decide
    · have hle := le_of_mem_startsFrom hstart
      rw [Nat.zero_add, ← bytesOf, length_bytesOf] at hle
      exact Nat.lt_of_le_of_lt hle hsize
  · obtain ⟨earlier, start, hbegun, hbegins, hplace⟩ := exists_position_eq text offset
    obtain ⟨rest, hstarts, hrest⟩ := exists_starts_eq_append (bytesOf text) offset
    rw [← starts_ofText, hbegun] at hstarts
    have hlength : (begun (bytesOf text) offset).length = earlier.length + 1 := by
      rw [hbegun, List.length_append, List.length_singleton]
    have hcount : earlier.length + 1 = ((bytesOf text).take offset).count 10 + 1 := by
      rw [← length_begun, hlength]
    have hlines : ((bytesOf text).take offset).count 10 ≤ offset :=
      Nat.le_trans List.count_le_length (List.length_take_le _ _)
    have hstart := hbegins.le
    refine ⟨_, start, position?_eq_ok_iff.mpr ⟨?_, hplace⟩, hcount, ?_, fun k s hk => ?_, ?_, hbegins,
      rfl, ?_, fun later place' hlater hplace' => ?_⟩
    · rw [hplace]
      dsimp only
      omega
    · dsimp only
      omega
    · rw [← hlength]
      exact le_iff_lt_length_begun hk
    · simp [hstarts]
    · dsimp only
      omega
    · obtain ⟨-, rfl⟩ := position?_eq_ok_iff.mp hplace'
      rw [← hplace]
      exact position_before text hlater

/-- The fifth byte of the second line. -/
theorem position?_ofText_twoLines : "let a = 1\nlet b = 2\n".utf8ByteSize < UInt32.size ∧
    14 + 1 < UInt32.size ∧ ∃ place start,
      (ofText "let a = 1\nlet b = 2\n").position? 14 = .ok place ∧ place = ⟨2, 5⟩ ∧
      BeginsLine (bytesOf "let a = 1\nlet b = 2\n") 14 start ∧ place.column = 14 - start + 1 ∧
      ∀ later place', 14 < later →
        (ofText "let a = 1\nlet b = 2\n").position? later = .ok place' → place.Before place' := by
  have hsize : "let a = 1\nlet b = 2\n".utf8ByteSize < UInt32.size := by decide +kernel
  have hrun : (ofText "let a = 1\nlet b = 2\n").position? 14 = .ok ⟨2, 5⟩ := by rfl
  obtain ⟨-, -, hplaces⟩ := position?_ofText hsize
  obtain ⟨place, start, hplace, -, -, -, -, hbegins, hcolumn, -, hlater⟩ := hplaces 14 (by decide)
  exact ⟨hsize, by decide, place, start, hplace, (Except.ok.inj (hrun.symm.trans hplace)).symm,
    hbegins, hcolumn, hlater⟩

end LineIndex

end MessageLang
