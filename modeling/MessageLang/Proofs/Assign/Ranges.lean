import MessageLang.Proofs.Assign.Lasting

namespace MessageLang

open Checking

namespace Bindings

variable {t : TypeTable} {b b' : Bindings} {size : Nat} {wildcard source left right type : TypeId}

/-- The wildcards that something is known of, and what they stand for, are among so many types. -/
structure InRange (b : Bindings) (size : Nat) : Prop where
  known_lt : ∀ wildcard ∈ b.known, wildcard.index < size
  bound_lt : b.AllBound (·.index < size)

theorem InRange.mono {size' : Nat} (h : b.InRange size) (hle : size ≤ size') : b.InRange size' where
  known_lt wildcard hwildcard := (h.known_lt wildcard hwildcard).trans_le hle
  bound_lt cls hcls bound hbound := (h.bound_lt cls hcls bound hbound).trans_le hle

theorem InRange.introduce (h : b.InRange size) (hwildcard : wildcard.index < size) :
    (b.introduce wildcard).InRange size := by
  refine ⟨fun other hother => ?_, h.bound_lt.introduce wildcard⟩
  unfold Bindings.introduce at hother
  split at hother
  · exact h.known_lt other hother
  · rw [known_cons, List.singleton_append, List.mem_cons] at hother
    obtain rfl | hother := hother
    · exact hwildcard
    · exact h.known_lt other hother

theorem InRange.bind (h : b.InRange size) (wildcard : TypeId) (htype : type.index < size) :
    (b.bind wildcard type).InRange size where
  known_lt := known_bind b wildcard type ▸ h.known_lt
  bound_lt := h.bound_lt.bind wildcard htype

/-- Joining classes makes no wildcard known. -/
theorem InRange.join (h : b.InRange size) (hjoin : b.join left right = .ok b') : b'.InRange size := by
  refine ⟨fun wildcard hwildcard => ?_, h.bound_lt.join hjoin⟩
  obtain rfl | ⟨cls, hcls, other, hother, -, -, -, -, rfl⟩ := join_eq_ok hjoin
  · exact h.known_lt wildcard hwildcard
  · have hknown : ∀ old ∈ b, wildcard ∈ old.members → wildcard.index < size := fun old hold hmem =>
      h.known_lt wildcard (mem_known.mpr ⟨old, hold, hmem⟩)
    rw [known_cons, List.mem_append, List.mem_append] at hwildcard
    obtain (hmem | hmem) | hrest := hwildcard
    · exact hknown cls hcls hmem
    · exact hknown other hother hmem
    · obtain ⟨rest, hrest, hmem⟩ := mem_known.mp hrest
      exact hknown rest (List.mem_of_mem_filter hrest) hmem

/-- What is known once a wildcard has taken a type is in range, and so is the type that is to fit. -/
theorem InRange.taking (h : b.InRange size) (hwildcard : wildcard.index < size)
    (hsource : source.index < size) :
    (Checking.taking t b wildcard source).All (InRange · size) (·.index < size) := by
  have hintroduced := h.introduce hwildcard
  unfold Checking.taking
  split
  · have hboth := hintroduced.introduce hsource
    split
    · next hjoin => exact hboth.join hjoin
    · exact hboth
  · split
    · exact hintroduced.bind wildcard hsource
    · next hbound => exact hintroduced.bound_lt.binding? hbound

end Bindings

/-- All types that a checker has met are among so many: those in what it knows of wildcards, in what it
decided and in the conflicts that wait to be reported. -/
structure Checker.InRange (c : Checker) (size : Nat) : Prop where
  bindings : c.bindings.InRange size
  demand_lt : ∀ entry ∈ c.verdicts, entry.1.target.index < size ∧ entry.1.source.index < size
  conflict_lt : ∀ conflict ∈ c.conflicts,
    conflict.wildcard.index < size ∧ conflict.bound.index < size ∧ conflict.attempted.index < size

namespace Checker

variable {t : TypeTable} {c c' : Checker} {size : Nat} {demand : Demand} {target source : TypeId}

theorem InRange.mono {size' : Nat} (h : c.InRange size) (hle : size ≤ size') : c.InRange size' where
  bindings := h.bindings.mono hle
  demand_lt entry hentry := (h.demand_lt entry hentry).imp (·.trans_le hle) (·.trans_le hle)
  conflict_lt conflict hconflict := (h.conflict_lt conflict hconflict).imp (·.trans_le hle)
    (And.imp (·.trans_le hle) (·.trans_le hle))

theorem new_inRange (unwraps : Bool) (size : Nat) : (Checker.new unwraps).InRange size where
  bindings := ⟨fun _ h => (nomatch h), fun _ h => (nomatch h)⟩
  demand_lt _ h := nomatch h
  conflict_lt _ h := nomatch h

theorem InRange.withBindings (h : c.InRange size) {bindings : Bindings}
    (hbindings : bindings.InRange size) : { c with bindings }.InRange size :=
  { h with bindings := hbindings }

theorem InRange.conflict (h : c.InRange size) {conflict : Conflict}
    (hconflict : conflict.wildcard.index < size ∧ conflict.bound.index < size ∧
      conflict.attempted.index < size) :
    { c with conflicts := c.conflicts ++ [conflict] }.InRange size where
  bindings := h.bindings
  demand_lt := h.demand_lt
  conflict_lt := by
    rw [List.forall_mem_append, List.forall_mem_singleton]
    exact ⟨h.conflict_lt, hconflict⟩

/-- What was bound before a match that is undone comes back. -/
theorem InRange.rollback (h : c.InRange size) {point : Checkpoint}
    (hpoint : point.bindings.InRange size) : (c.rollback point).InRange size where
  bindings := hpoint
  demand_lt entry hentry := h.demand_lt entry (mem_of_mem_rollback hentry)
  conflict_lt := h.conflict_lt

theorem InRange.assume (h : c.InRange size)
    (hdemand : demand.target.index < size ∧ demand.source.index < size) :
    (c.assume demand).InRange size :=
  { h with demand_lt := List.forall_mem_cons.mpr ⟨hdemand, h.demand_lt⟩ }

theorem InRange.refuse (h : c.InRange size)
    (hdemand : demand.target.index < size ∧ demand.source.index < size) (before : Nat) :
    (c.refuse before demand).InRange size where
  bindings := h.bindings
  demand_lt := List.forall_mem_cons.mpr
    ⟨hdemand, fun entry hentry => h.demand_lt entry (List.mem_of_mem_drop hentry)⟩
  conflict_lt := h.conflict_lt

/-- A wildcard takes a type, or comes into conflict with it over another one that is in range. -/
theorem InRange.bind {check : TypeId → TypeId → Checking Bool} {wildcard : TypeId}
    (h : c.InRange size) (hwildcard : wildcard.index < size) (hsource : source.index < size)
    (hcheck : ∀ (bound : TypeId) (c : Checker), bound.index < size → c.InRange size →
      After (check bound source) c fun _ c' => c'.InRange size) :
    After (Checking.bind t check wildcard source) c fun _ c' => c'.InRange size := by
  have htaking := h.bindings.taking (t := t) hwildcard hsource
  simp only [After, bind_apply]
  cases hcase : taking t c.bindings wildcard source with
  | done bindings =>
    rw [hcase] at htaking
    rintro _ _ ⟨⟩
    exact h.withBindings htaking
  | clash bindings bound attempted =>
    obtain ⟨hbound, hattempted⟩ := taking_eq_clash hcase
    rw [hcase] at htaking
    rintro _ _ ⟨⟩
    exact (h.withBindings htaking).conflict
      ⟨hwildcard, h.bindings.bound_lt.binding? hbound, h.bindings.bound_lt.binding? hattempted⟩
  | asks bound =>
    rw [hcase] at htaking
    refine (hcheck bound _ htaking (h.withBindings (h.bindings.introduce hwildcard))).bind
      fun verdict c' hc' => ?_
    cases verdict with
    | true => exact after_pure_iff.mpr hc'
    | false =>
      rw [if_neg Bool.false_ne_true, Checking.conflict, after_bind_iff, after_modify_iff,
        after_pure_iff]
      exact hc'.conflict ⟨hwildcard, htaking, hsource⟩

/-- Comparing two types of a table comes upon types of the table only. -/
theorem InRange.canAssign (h : c.InRange t.size) (hclosed : t.Closed)
    (htarget : target.index < t.size) (hsource : source.index < t.size) :
    After (Checking.canAssign t target source) c fun _ c' => c'.InRange t.size :=
  canAssignWithin_keepsAmong (P := (·.index < t.size)) (K := fun _ c => c.InRange t.size)
    (fun _ _ _ hpart => hclosed.component_lt hpart) (fun _ _ h => h.bindings.bound_lt)
    (fun _ _ _ _ _ _ hwildcard hsource _ hcheck h => h.bind hwildcard hsource hcheck)
    (fun _ _ _ h _ _ hdemand => ⟨h.assume hdemand, h.assume hdemand⟩)
    (fun _ _ _ _ _ _ _ hdemand h' _ => h'.refuse hdemand _) _ c target source htarget hsource h

theorem InRange.takeConflicts (h : c.InRange size) :
    After Checking.takeConflicts c fun conflicts c' => c'.InRange size ∧ ∀ conflict ∈ conflicts,
      conflict.wildcard.index < size ∧ conflict.bound.index < size ∧
        conflict.attempted.index < size :=
  after_modifyGet_iff.mpr ⟨{ h with conflict_lt := fun _ h => nomatch h }, h.conflict_lt⟩

end Checker

end MessageLang
