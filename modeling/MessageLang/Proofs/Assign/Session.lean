import MessageLang.Proofs.Assign.Extension
import MessageLang.Proofs.Assign.Verdict

namespace MessageLang

open Checking Checker

/-- A checker in use, with the checkpoints that were not gone back to or given up yet, the latest
first. -/
structure Session where
  checker : Checker
  points : List Checkpoint

/-- What a session comes to when types of its table are compared and matches are tried, in any
order. The types there are stay as they are, but there may be more of them every time. Going back
to a checkpoint gives up those after it. -/
inductive Session.Reached : TypeTable → Session → Prop
  | start {t : TypeTable} (closed : t.Closed) (unwraps : Bool) : Reached t ⟨.new unwraps, []⟩
  | extend {t t' : TypeTable} {s : Session} (before : Reached t s) (closed : t'.Closed)
      (more : t.Extends t') : Reached t' s
  | assign {t : TypeTable} {s : Session} {target source : TypeId} {verdict : Bool} {c : Checker}
      (before : Reached t s) (target_lt : target.index < t.size) (source_lt : source.index < t.size)
      (run : canAssign t target source s.checker = .ok (verdict, c)) : Reached t ⟨c, s.points⟩
  | checkpoint {t : TypeTable} {s : Session} (before : Reached t s) :
      Reached t ⟨s.checker, s.checker.checkpoint :: s.points⟩
  | commit {t : TypeTable} {c : Checker} {point : Checkpoint} {later points : List Checkpoint}
      (before : Reached t ⟨c, later ++ point :: points⟩) : Reached t ⟨c, later ++ points⟩
  | rollback {t : TypeTable} {c : Checker} {point : Checkpoint} {later points : List Checkpoint}
      (before : Reached t ⟨c, later ++ point :: points⟩) : Reached t ⟨c.rollback point, points⟩

section

variable {t t' : TypeTable} {unwraps : Bool} {c c' : Checker} {s : Session}
  {target source : TypeId}

/-- Between calls no assumption is open, so demands entered as met are met. -/
def VerdictsHold (t : TypeTable) (unwraps : Bool) (c : Checker) : Prop :=
  ∀ d : Demand, (d, true) ∈ c.verdicts → d.WildcardFree t →
    t.Assignable unwraps d.target d.source

/-- Demands that were found to be met meanwhile rest on each other and on older ones. -/
theorem VerdictsHold.grow (h : VerdictsHold t unwraps c) (hc : c.Consistent t unwraps)
    (hgrows : c.Grows t c') : VerdictsHold t unwraps c' := by
  intro d hd hfree
  refine TypeTable.Assignable.of_closed (R := fun a b => (⟨a, b⟩, true) ∈ c'.verdicts ∧
    Demand.WildcardFree t ⟨a, b⟩) ?_ ⟨hd, hfree⟩
  rintro a b ⟨hmem, htarget, hsource⟩
  rcases hgrows.justified ⟨a, b⟩ hmem htarget hsource with hold | hfits
  · exact (h _ hold ⟨htarget, hsource⟩).fits.mono fun _ _ => .inr
  · rw [hc.unwraps_eq] at hfits
    refine TypeTable.Fits.transfer (P := t.WildcardFree) (fun _ h _ hpart => h.of_component hpart)
      (fun _ _ => rfl) (fun x y hx hy hacc => ?_) htarget hsource hfits
    rcases hacc with hmem | hfits
    · exact .inl ⟨hmem, hx, hy⟩
    · rw [hgrows.unwraps_eq, hc.unwraps_eq] at hfits
      exact .inr (.of_fits (hfits.mono fun _ _ => False.elim))

theorem Checker.Accepts.assignable (h : c.Accepts t target source) (hc : c.Consistent t unwraps)
    (hverdicts : VerdictsHold t unwraps c) (htarget : t.WildcardFree target)
    (hsource : t.WildcardFree source) : t.Assignable unwraps target source := by
  rcases h with hmem | hfits
  · exact hverdicts _ hmem ⟨htarget, hsource⟩
  · exact .of_fits ((hc.unwraps_eq ▸ hfits).mono fun _ _ => False.elim)

/-- What a session keeps to. -/
structure Session.Sound (t : TypeTable) (s : Session) : Prop where
  closed : t.Closed
  consistent : s.checker.Consistent t s.checker.unwrapsSingleField
  verdicts_hold : VerdictsHold t s.checker.unwrapsSingleField s.checker
  points_bound : ∀ point ∈ s.points, point.bindings.AllBound (·.index < t.size) ∧
    point.bindings.AllBound (t.isWildcard · = false)

theorem Session.Sound.extend (h : Session.Sound t s) (hclosed : t'.Closed) (hmore : t.Extends t') :
    Session.Sound t' s := by
  obtain ⟨hbefore, hc, hverdicts, hpoints⟩ := h
  refine ⟨hclosed, hc.extend hbefore hmore, fun d hd hfree => ?_, fun point hpoint => ?_⟩
  · have hlt := hc.demand_lt _ hd
    rw [hmore.assignable_iff hbefore hlt.1 hlt.2]
    exact hverdicts d hd ⟨(hmore.wildcardFree_iff hbefore hlt.1).mp hfree.1,
      (hmore.wildcardFree_iff hbefore hlt.2).mp hfree.2⟩
  · exact hmore.allBound (hpoints point hpoint).1 (hpoints point hpoint).2

theorem Session.Sound.rollback {point : Checkpoint} {later points : List Checkpoint}
    (h : Session.Sound t ⟨c, later ++ point :: points⟩) :
    Session.Sound t ⟨c.rollback point, points⟩ := by
  obtain ⟨hclosed, hc, hverdicts, hpoints⟩ := h
  obtain ⟨hlt, hknown⟩ := hpoints point (by simp)
  exact ⟨hclosed, hc.rollback hlt hknown, fun d hd => hverdicts d (mem_of_mem_rollback hd),
    fun p hp => hpoints p (by simp [hp])⟩

theorem Session.Reached.sound (h : Reached t s) : Session.Sound t s := by
  induction h with
  | start closed unwraps =>
    refine ⟨closed, ⟨rfl, ?_, ?_, ?_, ?_⟩, ?_, ?_⟩ <;>
      simp [Checker.new, Bindings.AllBound, VerdictsHold]
  | extend _ closed more ih => exact ih.extend closed more
  | assign _ target_lt source_lt run ih =>
    obtain ⟨hclosed, hc, hverdicts, hpoints⟩ := ih
    obtain ⟨_, _, hrun, hc', hgrows, _⟩ :=
      ends_iff.mp (canAssign_ends hclosed target_lt source_lt hc)
    cases run.symm.trans hrun
    rw [← hgrows.unwraps_eq] at hc'
    refine ⟨hclosed, hc', ?_, hpoints⟩
    rw [hgrows.unwraps_eq]
    exact hverdicts.grow hc hgrows
  | checkpoint _ ih =>
    obtain ⟨hclosed, hc, hverdicts, hpoints⟩ := ih
    refine ⟨hclosed, hc, hverdicts, fun point hpoint => ?_⟩
    rcases List.mem_cons.mp hpoint with rfl | hpoint
    · exact ⟨hc.bound_lt, hc.bound_known⟩
    · exact hpoints point hpoint
  | @commit _ _ _ later _ _ ih =>
    obtain ⟨hclosed, hc, hverdicts, hpoints⟩ := ih
    refine ⟨hclosed, hc, hverdicts, fun point hpoint => hpoints point ?_⟩
    simp only [List.mem_append, List.mem_cons] at hpoint ⊢
    tauto
  | rollback _ ih => exact ih.rollback

/-- At any time between calls a comparison of types without wildcards ends, and its answer is
whether the one is assignable to the other, whatever was compared, tried or undone before. -/
theorem canAssign_eq_true_iff (h : Session.Reached t s) (htarget_lt : target.index < t.size)
    (hsource_lt : source.index < t.size) (htarget : t.WildcardFree target)
    (hsource : t.WildcardFree source) :
    ∃ verdict c', canAssign t target source s.checker = .ok (verdict, c') ∧
      (verdict = true ↔ t.Assignable s.checker.unwrapsSingleField target source) := by
  obtain ⟨hclosed, hc, hverdicts, _⟩ := h.sound
  obtain ⟨verdict, c', hrun, hc', hgrows, hyes, hno⟩ :=
    ends_iff.mp (canAssign_ends hclosed htarget_lt hsource_lt hc)
  refine ⟨verdict, c', hrun, fun hv => ?_, hno htarget hsource⟩
  exact (hyes hv htarget hsource).assignable hc' (hverdicts.grow hc hgrows) htarget hsource

/-- Two pairs of types that lead to each other. The pairs differ in the end, but only one type of
each tells so by itself. -/
def mutualPairs : TypeTable where
  types := #[{ symbols := [("negative", ⟨0⟩)] }, { symbols := [("length", ⟨0⟩)] },
    { symbols := [("a", ⟨3⟩), ("b", ⟨0⟩)] }, { symbols := [("a", ⟨2⟩)] },
    { symbols := [("a", ⟨5⟩), ("b", ⟨1⟩)] }, { symbols := [("a", ⟨4⟩)] }]
  unions := []

/-- A session that has compared two of these types before, in vain. -/
def mutualPairsCompared : Session := ⟨⟨[(⟨⟨2⟩, ⟨4⟩⟩, false)], [], [], true⟩, []⟩

theorem canAssign_eq_true_iff_after_failure :
    Session.Reached mutualPairs mutualPairsCompared ∧ mutualPairs.WildcardFree ⟨3⟩ ∧
      mutualPairs.WildcardFree ⟨5⟩ ∧
      ∃ verdict c',
        canAssign mutualPairs ⟨3⟩ ⟨5⟩ mutualPairsCompared.checker = .ok (verdict, c') ∧
        (verdict = true ↔ mutualPairs.Assignable true ⟨3⟩ ⟨5⟩) := by
  have hclosed : mutualPairs.Closed := TypeTable.closed_iff.mpr (by decide)
  have hfree : ∀ id, mutualPairs.WildcardFree id :=
    fun _ part _ => TypeTable.isWildcard_eq_false (by decide) part
  have hrun : canAssign mutualPairs ⟨2⟩ ⟨4⟩ (.new true) =
      .ok (false, mutualPairsCompared.checker) := rfl
  have hreached : Session.Reached mutualPairs mutualPairsCompared :=
    .assign (.start hclosed true) (by decide) (by decide) hrun
  exact ⟨hreached, hfree _, hfree _,
    canAssign_eq_true_iff hreached (by decide) (by decide) (hfree _) (hfree _)⟩

end

end MessageLang
