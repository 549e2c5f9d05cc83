import MessageLang.Proofs.Outcome
import MessageLang.Tree.Sketch
import Mathlib.Data.String.Basic

namespace MessageLang

/-- The text at a span of a source, if it is between two characters that the span starts and stops. -/
def Span.slice? (source : String) (s : Span) : Option String :=
  let start : String.Pos.Raw := ⟨s.start⟩
  let stop : String.Pos.Raw := ⟨s.stop⟩
  if start.isValid source && stop.isValid source then some (start.extract source stop) else none

theorem Span.slice?_append {s : Span} {before text after : String}
    (hstart : s.start = before.utf8ByteSize)
    (hstop : s.stop = before.utf8ByteSize + text.utf8ByteSize) :
    s.slice? (before ++ text ++ after) = some text := by
  have hvalid : (⟨s.start⟩ : String.Pos.Raw).isValid (before ++ text ++ after) = true :=
    String.Pos.Raw.isValid_eq_true_iff.mpr <| String.Pos.Raw.isValid_iff_exists_append.mpr
      ⟨before, text ++ after, String.append_assoc .., congrArg String.Pos.Raw.mk hstart⟩
  have hvalid' : (⟨s.stop⟩ : String.Pos.Raw).isValid (before ++ text ++ after) = true :=
    String.Pos.Raw.isValid_eq_true_iff.mpr <| String.Pos.Raw.isValid_iff_exists_append.mpr
      ⟨before ++ text, after, rfl,
        congrArg String.Pos.Raw.mk (hstop.trans (String.utf8ByteSize_append ..).symm)⟩
  have hextract : String.Pos.Raw.extract (before ++ text ++ after) ⟨before.utf8ByteSize⟩
      ⟨before.utf8ByteSize + text.utf8ByteSize⟩ = text := by
    simpa [String.append_assoc] using
      String.extract_of_valid before.toList text.toList after.toList
  dsimp only [slice?]
  rw [if_pos (by rw [hvalid, hvalid']; rfl), hstart, hstop, hextract]

namespace Draft

/-- What stands before a token that is written after a source. -/
def lead (source : String) : String := if source.isEmpty then "" else source ++ " "

/-- Where a token comes to stand that is written after a source. -/
def place (source text : String) : Span :=
  ⟨(lead source).utf8ByteSize, (lead source).utf8ByteSize + text.utf8ByteSize, Nat.le_add_right ..⟩

/-- A source after which some tokens have been written. -/
def written (source : String) : List String → String
  | [] => source
  | text :: rest => written (lead source ++ text) rest

/-- The tokens that are written after a source, and where they come to stand. -/
def whereabouts (source : String) : List String → List (String × Span)
  | [] => []
  | text :: rest => (text, place source text) :: whereabouts (lead source ++ text) rest

variable {source text : String} {texts texts' : List String}

theorem written_append :
    written source (texts ++ texts') = written (written source texts) texts' := by
  induction texts generalizing source with
  | nil => rfl
  | cons text rest ih => exact ih

theorem whereabouts_append :
    whereabouts source (texts ++ texts') =
      whereabouts source texts ++ whereabouts (written source texts) texts' := by
  induction texts generalizing source with
  | nil => rfl
  | cons text rest ih => exact congrArg _ ih

theorem map_fst_whereabouts (source : String) (texts : List String) :
    (whereabouts source texts).map Prod.fst = texts := by
  induction texts generalizing source with
  | nil => rfl
  | cons text rest ih => exact congrArg (text :: ·) (ih _)

theorem exists_lead_eq (source : String) : ∃ gap, lead source = source ++ gap := by
  unfold lead
  split
  · next hempty => exact ⟨"", by simp [String.isEmpty_iff.mp hempty]⟩
  · exact ⟨" ", rfl⟩

/-- Writing leaves what there is. -/
theorem exists_written_eq (source : String) (texts : List String) :
    ∃ more, written source texts = source ++ more := by
  induction texts generalizing source with
  | nil => exact ⟨"", String.append_empty.symm⟩
  | cons text rest ih =>
    obtain ⟨gap, hgap⟩ := exists_lead_eq source
    obtain ⟨more, hmore⟩ := ih (lead source ++ text)
    exact ⟨gap ++ (text ++ more), by rw [written, hmore, hgap]; simp only [String.append_assoc]⟩

/-- Each token can be read where it stands. -/
theorem slice?_of_mem_whereabouts {placed : String × Span} (h : placed ∈ whereabouts source texts) :
    placed.2.slice? (written source texts) = some placed.1 := by
  induction texts generalizing source with
  | nil => cases h
  | cons text rest ih =>
    rcases List.mem_cons.mp h with rfl | h
    · obtain ⟨more, hmore⟩ := exists_written_eq (lead source ++ text) rest
      rw [written, hmore]
      exact Span.slice?_append rfl rfl
    · exact ih h

theorem written_of_ne_empty (h : source ≠ "") :
    written source texts = " ".intercalate (source :: texts) := by
  induction texts generalizing source with
  | nil => simp [written]
  | cons text rest ih =>
    have hlead : lead source = source ++ " " := by
      rw [lead, if_neg (by simpa using h)]
    have hne : source ++ " " ++ text ≠ "" := by simp [h]
    rw [written, hlead, ih hne, String.intercalate_cons_append, String.intercalate_cons_cons]

/-- Tokens that are written from the start on have single spaces between them. -/
theorem written_empty (h : ∀ text ∈ texts, text ≠ "") :
    written "" texts = " ".intercalate texts := by
  cases texts with
  | nil => simp [written]
  | cons text rest =>
    have hlead : lead "" = "" := rfl
    rw [written, hlead, String.empty_append, written_of_ne_empty (h text List.mem_cons_self)]

theorem utf8ByteSize_lead_le (source : String) : source.utf8ByteSize ≤ (lead source).utf8ByteSize := by
  obtain ⟨gap, hgap⟩ := exists_lead_eq source
  rw [hgap, String.utf8ByteSize_append]
  exact Nat.le_add_right ..

end Draft

end MessageLang
