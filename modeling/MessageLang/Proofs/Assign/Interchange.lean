import MessageLang.Proofs.Assign.Ending
import MessageLang.Proofs.Assign.Lasting

namespace MessageLang

open Checking Checker

section

variable {t : TypeTable} {c : Checker} {s : Session}
  {target source given given' wildcard bound other : TypeId}

/-- No verdict is on a wildcard that is given: what it stands for is given in its place, and one that
stands for nothing is never examined. -/
def Checker.GivesKnown (t : TypeTable) (c : Checker) : Prop :=
  ∀ entry ∈ c.verdicts, t.isWildcard entry.1.source = false

theorem Checker.GivesKnown.enter (h : c.GivesKnown t) {demand : Demand} (verdict : Bool)
    (hsource : t.isWildcard demand.source = false) :
    GivesKnown t { c with verdicts := (demand, verdict) :: c.verdicts } :=
  List.forall_mem_cons.mpr ⟨hsource, h⟩

theorem Checker.GivesKnown.keepVerdicts (h : c.GivesKnown t) (count : Nat) :
    (c.keepVerdicts count).GivesKnown t :=
  fun entry hentry => h entry (List.mem_of_mem_drop hentry)

/-- There is no verdict on a wildcard that is given. -/
theorem Checker.GivesKnown.verdict?_eq_none (h : c.GivesKnown t)
    (hwild : t.isWildcard source = true) : c.verdict? ⟨target, source⟩ = none := by
  refine List.lookup_eq_none_iff.mpr fun entry hentry => ?_
  have hknown := h entry hentry
  rw [bne_iff_ne]
  intro heq
  rw [← heq, hwild] at hknown
  cases hknown

theorem canAssign_givesKnown (target given : TypeId) (h : c.GivesKnown t) :
    After (canAssign t target given) c fun _ c' => c'.GivesKnown t := by
  refine canAssignWithin_keeps (K := fun _ c => c.GivesKnown t) (fun _ _ _ _ _ _ => ?_)
    (fun start c demand h _ hsource => ?_) (fun start c c' demand _ _ hsource h _ => ?_) _ c
    target given h
  · exact bind_keeps fun _ _ _ h => h
  · have hassumed := h.enter true hsource
    exact ⟨hassumed, hassumed⟩
  · exact (h.keepVerdicts _).enter false hsource

theorem Session.Reached.givesKnown (h : Session.Reached t s) : s.checker.GivesKnown t := by
  induction h with
  | start closed unwraps => exact fun _ hentry => nomatch hentry
  | extend before _ more ih =>
    intro entry hentry
    have hlt := (before.sound.consistent.demand_lt entry hentry).2
    rw [more.isWildcard_eq hlt]
    exact ih entry hentry
  | assign _ _ _ run ih => exact canAssign_givesKnown _ _ ih _ _ run
  | checkpoint _ ih => exact ih
  | commit _ ih => exact ih
  | rollback _ ih => exact fun entry hentry => ih entry (mem_of_mem_rollback hentry)

/-- What is given matters only by what it stands for. -/
theorem canAssignWithin_congr_given (levels : Nat)
    (h : c.bindings.resolve t given = c.bindings.resolve t given') :
    canAssignWithin t levels target given c = canAssignWithin t levels target given' c := by
  cases levels with
  | zero => rfl
  | succ levels => rw [canAssignWithin_succ, canAssignWithin_succ, h]

/-- Where no wildcard is required, one level less is enough. -/
theorem canAssignWithin_eq_canAssign (hclosed : t.Closed) (hc : c.bindings.Proper t)
    (htarget : target.index < t.size) (hgiven : given.index < t.size)
    (hknown : t.isWildcard target = false) :
    canAssignWithin t (2 * (t.size * t.size) + 1) target given c = canAssign t target given c := by
  have halike : ∀ levels, 2 * (t.size * t.size) + 1 ≤ levels →
      EndAlike (canAssignWithin t levels target given)
        (canAssignApart t (2 * (t.size * t.size) + 1) [] target given) c
          fun _ c' => c'.bindings.Proper t := fun levels hlevels => by
    refine canAssignWithin_endAlike hclosed levels _ _ [] target given c htarget hgiven ?_ ?_ hc
      (openDemands_le t c) (by simp) <;> simp only [hknown, Bool.false_eq_true, if_false] <;> omega
  obtain ⟨verdict, c', hrun, hapart, -⟩ := halike _ (le_refl _)
  obtain ⟨verdict', c'', hrun', hapart', -⟩ := halike (2 * (t.size * t.size + 1)) (by omega)
  rw [canAssign, hrun, hrun', ← hapart, hapart']

theorem Bindings.introduce_eq_self {b : Bindings} (h : b.binding? wildcard = some bound) :
    b.introduce wildcard = b := by
  have hmem : wildcard ∈ b.known := by
    by_contra hnot
    have hclass : b.class? wildcard = none := List.find?_eq_none.mpr fun cls hcls hmem =>
      hnot (mem_known.mpr ⟨cls, hcls, by simpa using hmem⟩)
    rw [binding?, hclass] at h
    cases h
  rw [introduce, if_pos hmem]

/-- A type that stands for no wildcard and has values goes from a wildcard to what it stands for. -/
theorem taking_eq_asks_of_bound {b : Bindings} (hbound : b.binding? wildcard = some bound)
    (hsource : t.isWildcard source = false) : taking t b wildcard source = .asks bound := by
  simp [taking, hsource, Bindings.introduce_eq_self hbound, hbound]

/-- A wildcard that stands for nothing joins any other one. -/
theorem taking_eq_done_of_free {b : Bindings} (wildcard : TypeId)
    (hwild : t.isWildcard source = true) (hfree : b.binding? source = none) :
    ∃ joined, taking t b wildcard source = .done joined := by
  cases htaking : taking t b wildcard source with
  | done joined => exact ⟨joined, rfl⟩
  | clash _ _ _ =>
    have hattempted := (taking_eq_clash htaking).2
    rw [hfree] at hattempted
    cases hattempted
  | asks _ =>
    have hknown := (taking_eq_asks htaking).2
    rw [hwild] at hknown
    cases hknown

theorem isNothing_of_isWildcard {id : TypeId} (hwild : t.isWildcard id = true) :
    t.isNothing id = false := by
  have hshape : (t.get id).shape = .wildcard := by simpa [TypeTable.isWildcard] using hwild
  rw [TypeTable.isNothing, hshape]
  rfl

/-- A type is without values if what it stands for is. -/
theorem isNothing_resolve {b : Bindings} (hproper : b.Proper t) (hkept : b.Kept t) (id : TypeId) :
    t.isNothing (b.resolve t id) = t.isNothing id := by
  rw [Bindings.resolve_eq hproper.known]
  split
  · next hwild =>
    cases hbound : b.binding? id with
    | none => rfl
    | some bound =>
      rw [Option.getD_some, hkept.valued.binding? hbound, isNothing_of_isWildcard hwild]
  · rfl

/-- A wildcard is to take whatever has values, unless that is the wildcard itself. -/
theorem course_of_wildcard (hwild : t.isWildcard target = true)
    (hvalued : t.isNothing source = false) (hne : target ≠ source) (known : Option Bool) :
    course t target source known = .binding := by
  simp [course, isNothing_of_isWildcard hwild, hvalued, hne, hwild]

/-- A wildcard never takes Nothing. -/
theorem course_of_nothing (hwild : t.isWildcard target = true)
    (hnothing : t.isNothing source = true) (known : Option Bool) :
    course t target source known = .settled false := by
  simp [course, isNothing_of_isWildcard hwild, hnothing, fields?_of_isWildcard hwild]

/-- A wildcard that stands for nothing yet fits what has values, if there is no verdict on it. -/
theorem course_of_free (hknown : t.isWildcard target = false) (hvalues : t.isNothing target = false)
    (hwild : t.isWildcard source = true) : course t target source none = .settled true := by
  have hne : target ≠ source := by
    rintro rfl
    rw [hknown] at hwild
    cases hwild
  simp [course, hvalues, isNothing_of_isWildcard hwild, hne, hknown, hwild]

/-- A wildcard takes one that stands for nothing yet, as a type does that has values. -/
theorem canAssign_free (hgives : c.GivesKnown t) (hwild : t.isWildcard wildcard = true)
    (hknown : t.isWildcard bound = false) (hvalues : t.isNothing bound = false)
    (hne : wildcard ≠ c.bindings.resolve t other)
    (hsource : t.isWildcard (c.bindings.resolve t other) = true)
    (hfree : c.bindings.binding? (c.bindings.resolve t other) = none) :
    canAssign t bound other c = .ok (true, c) ∧
      ∃ c', canAssign t wildcard other c = .ok (true, c') := by
  have hvalued := isNothing_of_isWildcard hsource
  constructor
  · rw [canAssign, Nat.mul_succ, canAssignWithin_succ, hgives.verdict?_eq_none hsource,
      course_of_free hknown hvalues hsource]
  · obtain ⟨joined, htaking⟩ := taking_eq_done_of_free wildcard hsource hfree
    rw [canAssign, Nat.mul_succ, canAssignWithin_succ, course_of_wildcard hwild hvalued hne]
    simp only [bind_apply, htaking]
    exact ⟨_, rfl⟩

/-- A type that is no wildcard goes on from a wildcard to what that stands for. -/
theorem canAssign_asks (hclosed : t.Closed) (hproper : c.bindings.Proper t)
    (hwild : t.isWildcard wildcard = true) (hbound : c.bindings.binding? wildcard = some bound)
    (hother : other.index < t.size) (hsource : t.isWildcard (c.bindings.resolve t other) = false)
    (hvalued : t.isNothing (c.bindings.resolve t other) = false) {verdict : Bool} {c' : Checker}
    (hrun : canAssign t bound other c = .ok (verdict, c')) :
    ∃ c'', canAssign t wildcard other c = .ok (verdict, c'') := by
  have hne : wildcard ≠ c.bindings.resolve t other := by
    intro heq
    rw [← heq, hwild] at hsource
    cases hsource
  have hsame : c.bindings.resolve t (c.bindings.resolve t other) = c.bindings.resolve t other :=
    Bindings.resolve_of_not_wildcard hsource
  have hcheck : canAssignWithin t (2 * (t.size * t.size) + 1) bound (c.bindings.resolve t other) c =
      .ok (verdict, c') := by
    rw [canAssignWithin_congr_given _ hsame, canAssignWithin_eq_canAssign hclosed hproper
      (hproper.lt.binding? hbound) hother (hproper.known.binding? hbound), hrun]
  rw [canAssign, Nat.mul_succ, canAssignWithin_succ, course_of_wildcard hwild hvalued hne]
  simp only [bind_apply, taking_eq_asks_of_bound hbound hsource, Bindings.introduce_eq_self hbound,
    Bind.bind, StateT.bind, Except.bind, hcheck]
  cases verdict with
  | true => exact ⟨_, rfl⟩
  | false => exact ⟨_, rfl⟩

/-- A wildcard that stands for a type can be exchanged for it wherever it is given. Where it is
required it takes what the type takes, but for Nothing, which a wildcard never takes. -/
theorem Session.Reached.wildcard_exchanges (h : Session.Reached t s)
    (hwild : t.isWildcard wildcard = true)
    (hbound : s.checker.bindings.binding? wildcard = some bound) (hother : other.index < t.size) :
    (∃ verdict c, canAssign t other wildcard s.checker = .ok (verdict, c) ∧
      canAssign t other bound s.checker = .ok (verdict, c)) ∧
    ∃ verdict c c', canAssign t bound other s.checker = .ok (verdict, c) ∧
      canAssign t wildcard other s.checker = .ok (verdict && !t.isNothing other, c') := by
  have hclosed := h.sound.closed
  have hproper := h.proper
  have hboundlt := hproper.lt.binding? hbound
  have hknown := hproper.known.binding? hbound
  have hresolve : s.checker.bindings.resolve t wildcard = s.checker.bindings.resolve t bound := by
    rw [Bindings.resolve_eq hproper.known, if_pos hwild, hbound, Option.getD_some,
      Bindings.resolve_of_not_wildcard hknown]
  constructor
  · obtain ⟨verdict, c, hrun, -⟩ := canAssign_ends_apart hclosed hproper hother hboundlt
    refine ⟨verdict, c, ?_, hrun⟩
    rw [canAssign, canAssignWithin_congr_given _ hresolve, ← hrun, canAssign]
  obtain ⟨verdict, c, hrun, -⟩ := canAssign_ends_apart hclosed hproper hboundlt hother
  have hnothing := isNothing_resolve hproper h.kept.1 other
  cases hvalued : t.isNothing other with
  | true =>
    refine ⟨verdict, c, s.checker, hrun, ?_⟩
    rw [canAssign, Nat.mul_succ, canAssignWithin_succ,
      course_of_nothing hwild (hnothing.trans hvalued), Bool.not_true, Bool.and_false]
  | false =>
    simp only [Bool.not_false, Bool.and_true]
    cases hsource : t.isWildcard (s.checker.bindings.resolve t other) with
    | false =>
      obtain ⟨c', hrun'⟩ := canAssign_asks hclosed hproper hwild hbound hother hsource
        (hnothing.trans hvalued) hrun
      exact ⟨verdict, c, c', hrun, hrun'⟩
    | true =>
      have hfree := Bindings.binding?_resolve hproper.known hsource
      have hne : wildcard ≠ s.checker.bindings.resolve t other := by
        intro heq
        rw [← heq, hbound] at hfree
        cases hfree
      obtain ⟨hrun', c', hrun''⟩ := canAssign_free h.givesKnown hwild hknown
        (h.kept.1.valued.binding? hbound) hne hsource hfree
      exact ⟨true, s.checker, c', hrun', hrun''⟩

/-- A wildcard, the type without fields, Nothing and a type that answers a symbol with itself. -/
def wildcardAndNothing : TypeTable where
  types := #[{ shape := .wildcard }, { shape := .compound [] }, { shape := .nothing },
    { symbols := [("next", ⟨3⟩)] }]
  unions := []

/-- The wildcard stands for the type without fields. -/
def wildcardAndNothingBound : Session := ⟨⟨[], [⟨[⟨0⟩], some ⟨1⟩⟩], [], true⟩, []⟩

/-- Nothing is taken by the type without fields, but not by a wildcard that stands for it. -/
theorem wildcard_refuses_nothing :
    Session.Reached wildcardAndNothing wildcardAndNothingBound ∧
      wildcardAndNothingBound.checker.bindings.binding? ⟨0⟩ = some ⟨1⟩ ∧
      canAssign wildcardAndNothing ⟨1⟩ ⟨2⟩ wildcardAndNothingBound.checker =
        .ok (true, { wildcardAndNothingBound.checker with verdicts := [(⟨⟨1⟩, ⟨2⟩⟩, true)] }) ∧
      canAssign wildcardAndNothing ⟨0⟩ ⟨2⟩ wildcardAndNothingBound.checker =
        .ok (false, wildcardAndNothingBound.checker) := by
  have hclosed : wildcardAndNothing.Closed := TypeTable.closed_iff.mpr (by decide)
  have hrun : canAssign wildcardAndNothing ⟨0⟩ ⟨1⟩ (.new true) =
      .ok (true, wildcardAndNothingBound.checker) := rfl
  exact ⟨.assign (.start hclosed true) (by decide) (by decide) hrun, rfl, rfl, rfl⟩

theorem wildcard_exchanges_wildcardAndNothing :
    Session.Reached wildcardAndNothing wildcardAndNothingBound ∧
      (∃ verdict c,
        canAssign wildcardAndNothing ⟨3⟩ ⟨0⟩ wildcardAndNothingBound.checker = .ok (verdict, c) ∧
        canAssign wildcardAndNothing ⟨3⟩ ⟨1⟩ wildcardAndNothingBound.checker = .ok (verdict, c)) ∧
      ∃ verdict c c',
        canAssign wildcardAndNothing ⟨1⟩ ⟨3⟩ wildcardAndNothingBound.checker = .ok (verdict, c) ∧
        canAssign wildcardAndNothing ⟨0⟩ ⟨3⟩ wildcardAndNothingBound.checker =
          .ok (verdict && !wildcardAndNothing.isNothing ⟨3⟩, c') := by
  have hclosed : wildcardAndNothing.Closed := TypeTable.closed_iff.mpr (by decide)
  have hrun : canAssign wildcardAndNothing ⟨0⟩ ⟨1⟩ (.new true) =
      .ok (true, wildcardAndNothingBound.checker) := rfl
  have hreached : Session.Reached wildcardAndNothing wildcardAndNothingBound :=
    .assign (.start hclosed true) (by decide) (by decide) hrun
  exact ⟨hreached, hreached.wildcard_exchanges rfl rfl (by decide)⟩

end

end MessageLang
