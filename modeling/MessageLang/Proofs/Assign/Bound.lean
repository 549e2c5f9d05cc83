import MessageLang.Assign.Bindings

namespace MessageLang.Bindings

/-- All that wildcards stand for is of a certain sort. -/
def AllBound (P : TypeId → Prop) (b : Bindings) : Prop :=
  ∀ cls ∈ b, ∀ bound, cls.binding = some bound → P bound

variable {P : TypeId → Prop} {b : Bindings}

theorem AllBound.binding? (h : b.AllBound P) {wildcard bound : TypeId}
    (hbound : b.binding? wildcard = some bound) : P bound := by
  simp only [Bindings.binding?, Option.bind_eq_bind, Option.bind_eq_some_iff] at hbound
  obtain ⟨cls, hcls, hbound⟩ := hbound
  exact h cls (List.mem_of_find?_eq_some hcls) bound hbound

theorem AllBound.introduce (h : b.AllBound P) (wildcard : TypeId) :
    (b.introduce wildcard).AllBound P := by
  unfold Bindings.introduce
  split
  · exact h
  · intro cls hcls bound hbound
    rcases List.mem_cons.mp hcls with rfl | hcls
    · cases hbound
    · exact h cls hcls bound hbound

theorem AllBound.bind (h : b.AllBound P) (wildcard : TypeId) {type : TypeId} (htype : P type) :
    (b.bind wildcard type).AllBound P := by
  intro cls hcls bound hbound
  obtain ⟨old, hold, rfl⟩ := List.mem_map.mp hcls
  split at hbound
  · cases hbound
    exact htype
  · exact h old hold bound hbound

theorem AllBound.join (h : b.AllBound P) {left right : TypeId} {joined : Bindings}
    (hjoin : b.join left right = .ok joined) : joined.AllBound P := by
  -- the joined class stands for what one of the two classes stood for
  have hjoined : ∀ {c d : WildcardClass} {binding : Option TypeId},
      (∀ bound, binding = some bound → P bound) →
        AllBound P (⟨c.members ++ d.members, binding⟩ ::
          b.filter fun other => decide (other ≠ c ∧ other ≠ d)) := by
    intro c d binding hbinding cls hcls bound hbound
    rcases List.mem_cons.mp hcls with rfl | hcls
    · exact hbinding bound hbound
    · exact h cls (List.mem_filter.mp hcls).1 bound hbound
  unfold Bindings.join at hjoin
  split at hjoin
  · next c d hc hd =>
    split at hjoin
    · cases hjoin
      exact h
    · split at hjoin
      · next x y hx hy =>
        split at hjoin
        · cases hjoin
          exact hjoined fun bound hbound => h c (List.mem_of_find?_eq_some hc) bound (hx.trans hbound)
        · cases hjoin
      · next x hx hy =>
        cases hjoin
        exact hjoined fun bound hbound => h c (List.mem_of_find?_eq_some hc) bound (hx.trans hbound)
      · next hx =>
        cases hjoin
        exact hjoined fun bound hbound => h d (List.mem_of_find?_eq_some hd) bound hbound
  · cases hjoin
    exact h

/-- Making a wildcard known changes nothing for those that are. -/
theorem binding?_introduce (b : Bindings) (wildcard id : TypeId) :
    (b.introduce wildcard).binding? id = b.binding? id := by
  unfold Bindings.introduce
  split
  · rfl
  · next hnot =>
    by_cases hid : id = wildcard
    · subst hid
      have hnone : b.class? id = none := by
        rw [Bindings.class?, List.find?_eq_none]
        intro cls hcls hmem
        exact hnot (List.mem_flatMap.mpr ⟨cls, hcls, by simpa using hmem⟩)
      have hfresh : class? (⟨[id], none⟩ :: b) id = some ⟨[id], none⟩ := by simp [class?]
      simp [binding?, hnone, hfresh]
    · have hother : class? (⟨[wildcard], none⟩ :: b) id = b.class? id := by simp [class?, hid]
      rw [binding?, binding?, hother]

/-- Wildcards cannot be joined only if they stand for two types. -/
theorem join_eq_error {left right bound attempted : TypeId}
    (h : b.join left right = .error (bound, attempted)) :
    b.binding? left = some bound ∧ b.binding? right = some attempted := by
  unfold Bindings.join at h
  split at h
  · next c d hc hd =>
    split at h
    · cases h
    · split at h
      · next x y hx hy =>
        split at h
        · cases h
        · cases h
          exact ⟨by simp [binding?, hc, hx], by simp [binding?, hd, hy]⟩
      · cases h
      · cases h
  · cases h

theorem resolve_of_not_wildcard {t : TypeTable} {id : TypeId} (h : t.isWildcard id = false) :
    b.resolve t id = id := by
  simp [Bindings.resolve, resolveWithin, h]

/-- Following bindings leads to a type of that sort, or nowhere. -/
theorem AllBound.resolve (h : b.AllBound P) (t : TypeTable) {id : TypeId} (hid : P id) :
    P (b.resolve t id) := by
  have hwithin : ∀ steps id, P id → P (b.resolveWithin t steps id) := by
    intro steps
    induction steps with
    | zero => exact fun _ hid => hid
    | succ steps ih =>
      intro id hid
      unfold resolveWithin
      split
      · split
        · next bound hbound => exact ih bound (h.binding? hbound)
        · exact hid
      · exact hid
  exact hwithin _ id hid

/-- What wildcards are found to stand for is of that sort. -/
theorem AllBound.resolutions (h : b.AllBound P) {t : TypeTable} {entry : TypeId × TypeId}
    (hentry : entry ∈ b.resolutions t) : P entry.2 := by
  obtain ⟨wildcard, -, hsome⟩ := List.mem_filterMap.mp hentry
  obtain ⟨type, htype, rfl⟩ := Option.map_eq_some_iff.mp hsome
  simp only [resolution?] at htype
  split at htype
  · cases htype
  · next hnot =>
    cases htype
    have hbound : b.AllBound fun type => type = wildcard ∨ P type :=
      fun cls hcls bound hb => .inr (h cls hcls bound hb)
    exact (hbound.resolve t (.inl rfl)).resolve_left fun heq => by simp [heq] at hnot

end MessageLang.Bindings
