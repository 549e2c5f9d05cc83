import MessageLang.Core.Temporaries
import Mathlib.Data.List.Perm.Subperm
import Mathlib.Data.List.Nodup
import Mathlib.Data.Nat.Nth

namespace MessageLang.Temporaries

/-- The names of a stem and a number that are none of certain names, in the order of the
numbers. -/
noncomputable def freeName (stem : String) (names : List String) (index : Nat) : String :=
  stem ++ toString (Nat.nth (fun number => stem ++ toString number ∉ names) index)

/-- A generator that avoids certain names and has given so many. -/
structure Gave (stem : String) (names : List String) (count : Nat) (t : Temporaries) : Prop where
  stem_eq : t.stem = stem
  taken_iff : ∀ number, t.next ≤ number → (t.name number ∈ t.taken ↔ t.name number ∈ names)
  count_eq : Nat.count (fun number => stem ++ toString number ∉ names) t.next = count

variable {t : Temporaries} {stem : String} {names : List String} {count : Nat}

theorem name_injective (t : Temporaries) : Function.Injective t.name := by
  intro m n h
  have hdigits : Nat.toDigits 10 m = Nat.toDigits 10 n := by
    have hrepr : Nat.repr m = Nat.repr n := (String.append_right_inj t.stem).mp h
    simpa [Nat.repr] using congrArg String.toList hrepr
  rw [← Nat.ofDigitChars_ten_toDigits (n := m), hdigits, Nat.ofDigitChars_ten_toDigits]

/-- The next name is that of the first number left that gives a free one. -/
theorem exists_fresh?_eq (t : Temporaries) : ∃ number, t.next ≤ number ∧
    t.name number ∉ t.taken ∧
    (∀ earlier, t.next ≤ earlier → earlier < number → t.name earlier ∈ t.taken) ∧
    t.fresh? =
      some (t.name number, { t with taken := t.name number :: t.taken, next := number + 1 }) := by
  unfold fresh?
  rw [← List.range'_eq_map_range]
  have hsome : (List.range' t.next (t.taken.length + 1)).find?
      (fun number => t.name number ∉ t.taken) ≠ none := by
    rw [Ne, List.find?_range'_eq_none]
    intro hall
    -- otherwise there are more taken names than there are
    have hsub : (List.range' t.next (t.taken.length + 1)).map t.name ⊆ t.taken := by
      intro name hname
      obtain ⟨number, hnumber, rfl⟩ := List.mem_map.mp hname
      obtain ⟨hle, hlt⟩ := List.mem_range'_1.mp hnumber
      simpa using hall number hle hlt
    have hle := (List.subperm_of_subset ((List.nodup_range' 1).map t.name_injective) hsub).length_le
    simp at hle
  obtain ⟨number, hfind⟩ := Option.ne_none_iff_exists'.mp hsome
  have hspec := hfind
  rw [List.find?_range'_eq_some] at hspec
  obtain ⟨hfree, hmem, hearlier⟩ := hspec
  refine ⟨number, (List.mem_range'_1.mp hmem).1, by simpa using hfree, ?_,
    congrArg (Option.map _) hfind⟩
  intro earlier hle hlt
  simpa using hearlier earlier hle hlt

theorem gave_zero (stem : String) (names : List String) : Gave stem names 0 ⟨stem, names, 0⟩ :=
  ⟨rfl, fun _ _ => Iff.rfl, Nat.count_zero _⟩

/-- Names are given in the order of their numbers, and none is left out. -/
theorem Gave.fresh? (h : Gave stem names count t) : ∃ t',
    t.fresh? = some (freeName stem names count, t') ∧ Gave stem names (count + 1) t' := by
  obtain ⟨hstem, htaken, hcount⟩ := h
  obtain ⟨number, hle, hfree, hearlier, hfresh⟩ := t.exists_fresh?_eq
  have hname : ∀ m, t.name m = stem ++ toString m := fun m => by rw [Temporaries.name, hstem]
  have hfree' : stem ++ toString number ∉ names := by
    rwa [htaken number hle, hname] at hfree
  -- between the numbers given last and now there is none that is free
  have hbetween : ∀ offset, t.next + offset ≤ number →
      Nat.count (fun m => stem ++ toString m ∉ names) (t.next + offset) = count := by
    intro offset
    induction offset with
    | zero => exact fun _ => hcount
    | succ offset ih =>
      intro hlt
      have hmem := hearlier (t.next + offset) (by omega) (by omega)
      rw [htaken _ (by omega), hname] at hmem
      rw [← Nat.add_assoc, Nat.count_succ, ih (by omega), if_neg (not_not.mpr hmem)]
      rfl
  obtain ⟨offset, rfl⟩ := Nat.exists_eq_add_of_le hle
  have hnth : freeName stem names count = t.name (t.next + offset) := by
    rw [freeName, hname, ← hbetween offset le_rfl]
    exact congrArg (stem ++ toString ·) (Nat.nth_count hfree')
  rw [hnth]
  refine ⟨_, hfresh, hstem, fun m hm => ?_, ?_⟩
  · have hne : t.name m ≠ t.name (t.next + offset) := fun heq => by
      have heq := t.name_injective heq
      change t.next + offset + 1 ≤ m at hm
      omega
    refine (List.mem_cons.trans (or_iff_right hne)).trans (htaken m ?_)
    change t.next + offset + 1 ≤ m at hm
    omega
  · change Nat.count _ (t.next + offset + 1) = _
    rw [Nat.count_succ, hbetween offset le_rfl, if_pos hfree']

end MessageLang.Temporaries
