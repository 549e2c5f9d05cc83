import MessageLang.Types.Reach

namespace MessageLang

/-- Every handle in a table is a handle of that table. -/
def TypeTable.Closed (t : TypeTable) : Prop :=
  ∀ id, ∀ part ∈ (t.get id).parts, part.index < t.size

variable {t : TypeTable}

/-- A handle that is out of range is read as a type that answers nothing. -/
theorem TypeTable.get_mem_or_eq_default (t : TypeTable) (id : TypeId) :
    t.get id ∈ t.types ∨ t.get id = default := by
  simp only [TypeTable.get, Array.getD_eq_getD_getElem?]
  cases h : t.types[id.index]? with
  | none => exact .inr rfl
  | some d => exact .inl (Array.mem_of_getElem? h)

theorem TypeTable.closed_iff :
    t.Closed ↔ ∀ d ∈ t.types, ∀ part ∈ d.parts, part.index < t.size := by
  constructor
  · intro h d hd part hpart
    obtain ⟨index, hlt, rfl⟩ := Array.mem_iff_getElem.mp hd
    refine h ⟨index⟩ part ?_
    simpa [TypeTable.get, hlt] using hpart
  · intro h id part hpart
    rcases t.get_mem_or_eq_default id with hmem | hdefault
    · exact h _ hmem part hpart
    · rw [hdefault] at hpart
      cases hpart

theorem TypeTable.isWildcard_eq_false (h : ∀ d ∈ t.types, d.shape ≠ .wildcard) (id : TypeId) :
    t.isWildcard id = false := by
  rw [TypeTable.isWildcard, beq_eq_false_iff_ne]
  rcases t.get_mem_or_eq_default id with hmem | hdefault
  · exact h _ hmem
  · rw [hdefault]
    exact nofun

end MessageLang
