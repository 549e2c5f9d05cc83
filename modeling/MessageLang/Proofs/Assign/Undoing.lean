import MessageLang.Proofs.Assign.Lasting

namespace MessageLang

open Checking Checker

/-- What was decided on demands, to be looked up, apart from the order in which the demands were
entered, from which it is known what to take out again. -/
@[ext]
structure Ledger where
  verdict? : Demand → Option Bool
  entered : List Demand

namespace Ledger

/-- Entering a demand again replaces its verdict, and leaves its place in the order. -/
def enter (l : Ledger) (d : Demand) (verdict : Bool) : Ledger where
  verdict? := Function.update l.verdict? d (some verdict)
  entered := if (l.verdict? d).isSome then l.entered else l.entered ++ [d]

/-- Takes out all demands but the first ones that were entered. -/
def forget (l : Ledger) (count : Nat) : Ledger where
  verdict? d := if d ∈ l.entered.drop count then none else l.verdict? d
  entered := l.entered.take count

end Ledger

namespace Checker

/-- The demands that there is a verdict on or that are under examination, the latest first. -/
def demands (c : Checker) : List Demand := c.verdicts.map (·.1)

def ledger (c : Checker) : Ledger := ⟨c.verdict?, c.demands.reverse⟩

/-- What a comparison leaves behind while it is in progress and after it: all verdicts and conflicts
that there were at some time, and no demand entered twice. -/
structure Traces (start c : Checker) : Prop extends start.Retains c where
  nodup : c.demands.Nodup
  conflicts : start.conflicts <+: c.conflicts

variable {t : TypeTable} {start c : Checker} {d : Demand} {target source given : TypeId}

theorem verdict?_eq_none_iff : c.verdict? d = none ↔ d ∉ c.demands := by
  rw [verdict?, List.lookup_eq_none_iff, demands, List.mem_map]
  constructor
  · rintro h ⟨entry, hentry, rfl⟩
    simpa using h entry hentry
  · intro h entry hentry
    simpa using fun heq : d = entry.1 => h ⟨entry, hentry, heq.symm⟩

/-- A demand on which there is no verdict yet is entered as the last one. -/
theorem ledger_cons (h : c.verdict? d = none) (verdict : Bool) :
    ledger { c with verdicts := (d, verdict) :: c.verdicts } = c.ledger.enter d verdict := by
  ext1
  · funext other
    by_cases hother : other = d
    · simp [ledger, Ledger.enter, verdict?, hother]
    · simp [ledger, Ledger.enter, verdict?, List.lookup_cons, beq_false_of_ne hother, hother]
  · simp [ledger, Ledger.enter, demands, h]

/-- Where no demand is entered twice, dropping verdicts takes the demands out of the ledger that
were entered last. -/
theorem ledger_keepVerdicts (h : c.demands.Nodup) (count : Nat) :
    (c.keepVerdicts count).ledger = c.ledger.forget count := by
  have hlength : c.verdicts.length = c.demands.length := (List.length_map _).symm
  have hkept : (c.keepVerdicts count).demands = c.demands.drop (c.demands.length - count) := by
    simp only [keepVerdicts, demands, List.map_drop, List.length_map]
  ext1
  · funext other
    have hapart := List.disjoint_take_drop h (le_refl (c.demands.length - count))
    simp only [ledger, Ledger.forget, List.drop_reverse, List.mem_reverse]
    split
    · next hmem => exact verdict?_eq_none_iff.mpr (hkept ▸ hapart hmem)
    · next hnot =>
      have hnone : (c.verdicts.take (c.verdicts.length - count)).lookup other = none := by
        refine (verdict?_eq_none_iff (c := { c with verdicts := _ })).mpr ?_
        rwa [demands, List.map_take, hlength]
      rw [keepVerdicts, verdict?, verdict?, ← Option.none_or (o := List.lookup _ (List.drop _ _)),
        ← hnone, ← List.lookup_append, List.take_append_drop]
  · rw [ledger, Ledger.forget, ledger, hkept, List.take_reverse]

/-- Assuming a demand enters it. -/
theorem ledger_assume (h : c.verdict? d = none) : (c.assume d).ledger = c.ledger.enter d true :=
  ledger_cons h true

theorem Traces.refl (h : c.demands.Nodup) : c.Traces c := ⟨.refl c, h, List.prefix_refl _⟩

theorem Traces.trans {c' : Checker} (h : start.Traces c) (h' : c.Traces c') : start.Traces c' :=
  ⟨h.toRetains.trans h'.toRetains, h'.nodup, h.conflicts.trans h'.conflicts⟩

/-- Refusing a demand takes out what was entered since it was assumed, itself included, and enters it
as not met. -/
theorem Traces.ledger_refuse {c' : Checker} (hnone : c.verdict? d = none)
    (h : (c.assume d).Traces c') : (c'.refuse c.verdicts.length d).ledger =
      (c'.ledger.forget c.verdicts.length).enter d false := by
  have hkept := ((Retains.assume c d).trans h.toRetains).verdicts_keepVerdicts
  rw [← ledger_keepVerdicts h.nodup]
  refine ledger_cons ?_ false
  rwa [verdict?, hkept]

theorem canAssignWithin_traces (levels : Nat) (target given : TypeId) (h : start.Traces c) :
    After (canAssignWithin t levels target given) c fun _ c' => start.Traces c' := by
  refine canAssignWithin_keeps (K := Checker.Traces) (fun _ _ _ _ _ _ => ?_) ?_ ?_ levels start
    target given h
  · exact bind_keeps fun _ _ _ h =>
      ⟨⟨h.unwraps_eq, h.verdicts_suffix⟩, h.nodup, h.conflicts.trans (List.prefix_append _ _)⟩
  · intro start c demand h hnone _
    have hassumed : (c.assume demand).demands.Nodup :=
      List.nodup_cons.mpr ⟨verdict?_eq_none_iff.mp hnone, h.nodup⟩
    exact ⟨h.trans ⟨.assume c demand, hassumed, List.prefix_refl _⟩, .refl hassumed⟩
  · -- what came after the assumption is dropped with it, which leaves the verdicts of before
    intro start c c' demand h hnone _ h' hexamined
    have hkept := ((Retains.assume c demand).trans hexamined.toRetains).verdicts_keepVerdicts
    refine ⟨⟨h'.unwraps_eq, ?_⟩, ?_, h'.conflicts⟩
    · rw [refuse, hkept]
      exact h.verdicts_suffix.trans (List.suffix_cons _ _)
    · rw [refuse, demands, hkept]
      exact List.nodup_cons.mpr ⟨verdict?_eq_none_iff.mp hnone, h.nodup⟩

/-- One comparison leaves all verdicts and conflicts that there were, and enters no demand twice. -/
theorem canAssign_traces (t : TypeTable) (target given : TypeId) (h : c.demands.Nodup) :
    After (canAssign t target given) c fun _ c' => c.Traces c' :=
  canAssignWithin_traces _ target given (.refl h)

/-- What there may be after types were compared further, while there may be more of them every time
and matches are tried in between, also one within the other: each try ends by keeping what it left
or by going back to where it began. -/
inductive Tries : Checker → TypeTable → TypeTable → Checker → Prop
  | refl {t : TypeTable} {c : Checker} : Tries c t t c
  | extend {t t' t'' : TypeTable} {c c' : Checker} (before : Tries c t t' c') (closed : t''.Closed)
      (more : t'.Extends t'') : Tries c t t'' c'
  | assign {t t' : TypeTable} {c c' c'' : Checker} {target source : TypeId} {verdict : Bool}
      (before : Tries c t t' c') (target_lt : target.index < t'.size)
      (source_lt : source.index < t'.size)
      (run : canAssign t' target source c' = .ok (verdict, c'')) : Tries c t t' c''
  | kept {t t' t'' : TypeTable} {c c' c'' : Checker} (before : Tries c t t' c')
      (within : Tries c' t' t'' c'') : Tries c t t'' c''
  | undone {t t' t'' : TypeTable} {c c' c'' : Checker} (before : Tries c t t' c')
      (within : Tries c' t' t'' c'') : Tries c t t'' (c''.rollback c'.checkpoint)

end Checker

section

variable {t t' : TypeTable} {c c' : Checker} {s : Session} {points : List Checkpoint}

/-- No demand is entered twice in a session. -/
theorem Session.Reached.demands_nodup (h : Session.Reached t s) : s.checker.demands.Nodup := by
  induction h with
  | start => exact List.nodup_nil
  | extend _ _ _ ih => exact ih
  | assign _ _ _ run ih => exact (canAssign_traces _ _ _ ih _ _ run).nodup
  | checkpoint _ ih => exact ih
  | commit _ ih => exact ih
  | rollback _ ih => exact ih.sublist ((List.drop_sublist _ _).map _)

/-- Trying matches is a session that goes on. -/
theorem Checker.Tries.reached (h : c.Tries t t' c') (hreached : Session.Reached t ⟨c, points⟩) :
    Session.Reached t' ⟨c', points⟩ := by
  induction h generalizing points with
  | refl => exact hreached
  | extend _ closed more ih => exact .extend (ih hreached) closed more
  | assign _ target_lt source_lt run ih => exact .assign (ih hreached) target_lt source_lt run
  | kept _ _ ih ih' => exact ih' (ih hreached)
  | @undone _ _ t'' _ c' c'' _ _ ih ih' =>
    have hopen : Session.Reached t'' ⟨c'', [] ++ c'.checkpoint :: points⟩ :=
      ih' (.checkpoint (ih hreached))
    exact .rollback hopen

theorem Checker.Tries.extends (h : c.Tries t t' c') : t.Extends t' := by
  induction h with
  | refl => exact .refl _
  | extend _ _ more ih => exact ih.trans more
  | assign _ _ _ _ ih => exact ih
  | kept _ _ ih ih' => exact ih.trans ih'
  | undone _ _ ih ih' => exact ih.trans ih'

/-- Trying matches leaves all verdicts and conflicts that there were. -/
theorem Checker.Tries.traces (h : c.Tries t t' c') (hnodup : c.demands.Nodup) : c.Traces c' := by
  induction h with
  | refl => exact .refl hnodup
  | extend _ _ _ ih => exact ih hnodup
  | assign _ _ _ run ih =>
    have h := ih hnodup
    exact h.trans (canAssign_traces _ _ _ h.nodup _ _ run)
  | kept _ _ ih ih' =>
    have h := ih hnodup
    exact h.trans (ih' h.nodup)
  | undone _ _ ih ih' =>
    have h := ih hnodup
    have h' := ih' h.nodup
    rw [h'.rollback_eq]
    exact ⟨⟨h.unwraps_eq, h.verdicts_suffix⟩, h.nodup, h.conflicts.trans h'.conflicts⟩

/-- Trying matches leaves what was known of wildcards. -/
theorem Checker.Tries.later (h : c.Tries t t' c') (hreached : Session.Reached t ⟨c, points⟩) :
    c.bindings.Later c'.bindings := by
  induction h generalizing points with
  | refl => exact .refl _
  | extend _ _ _ ih => exact ih hreached
  | assign before _ _ run ih =>
    have hkept := (before.reached hreached).kept.1
    exact (ih hreached).trans (canAssign_lasting _ _ hkept _ _ run).later
  | kept before _ ih ih' => exact (ih hreached).trans (ih' (before.reached hreached))
  | undone _ _ ih => exact ih hreached

theorem Bindings.Later.known_subset {b b' : Bindings} (h : b.Later b') : b.known ⊆ b'.known := by
  intro wildcard hwildcard
  obtain ⟨cls, hcls, hmem⟩ := Bindings.mem_known.mp hwildcard
  obtain ⟨cls', hcls', hmem', _⟩ := h.joined wildcard wildcard ⟨cls, hcls, hmem, hmem⟩
  exact Bindings.mem_known.mpr ⟨cls', hcls', hmem'⟩

/-- What wildcards lead to does not change when there are more types. -/
theorem TypeTable.Extends.resolve_eq (h : t.Extends t') {b : Bindings} {id : TypeId}
    (hid : id.index < t.size) (hknown : b.AllBound (t.isWildcard · = false))
    (hlt : b.AllBound (·.index < t.size)) : b.resolve t' id = b.resolve t id := by
  rw [Bindings.resolve_eq hknown, Bindings.resolve_eq (h.allBound hlt hknown).2,
    h.isWildcard_eq hid]

/-- Whatever is compared and tried after a checkpoint, comparing goes on to end, and verdicts, known
wildcards and conflicts are only added, no demand twice. So taking out the demands entered since, and
putting back what was known of wildcards, restores what there was exactly: the verdicts, the order
in which they were entered, the wildcards that are known, and what each leads to. Only the conflicts
stay. -/
theorem Session.Reached.rollback_tries (h : Session.Reached t s) (htries : s.checker.Tries t t' c) :
    (∀ target source : TypeId, target.index < t'.size → source.index < t'.size →
      ∃ verdict c', canAssign t' target source c = .ok (verdict, c')) ∧
    c.demands.Nodup ∧ s.checker.verdicts <:+ c.verdicts ∧
    s.checker.bindings.known ⊆ c.bindings.known ∧ s.checker.conflicts <+: c.conflicts ∧
    (c.rollback s.checker.checkpoint).ledger = c.ledger.forget s.checker.checkpoint.verdictCount ∧
    (c.rollback s.checker.checkpoint).ledger = s.checker.ledger ∧
    c.rollback s.checker.checkpoint = { s.checker with conflicts := c.conflicts } ∧
    (∀ wildcard, wildcard ∈ (c.rollback s.checker.checkpoint).bindings.known ↔
      wildcard ∈ s.checker.bindings.known) ∧
    ∀ id : TypeId, id.index < t.size →
      (c.rollback s.checker.checkpoint).bindings.resolve t' id = s.checker.bindings.resolve t id := by
  have hreached : Session.Reached t ⟨s.checker, s.points⟩ := h
  have htraces := htries.traces h.demands_nodup
  have hends : ∀ target source : TypeId, target.index < t'.size → source.index < t'.size →
      ∃ verdict c', canAssign t' target source c = .ok (verdict, c') := by
    intro target source htarget hsource
    have hsound := (htries.reached hreached).sound
    obtain ⟨verdict, c', hrun, _⟩ :=
      ends_iff.mp (canAssign_ends hsound.closed htarget hsource hsound.consistent)
    exact ⟨verdict, c', hrun⟩
  have hback := htraces.rollback_eq
  refine ⟨hends, htraces.nodup, htraces.verdicts_suffix,
    (htries.later hreached).known_subset, htraces.conflicts,
    ledger_keepVerdicts htraces.nodup _, ?_, hback, fun _ => by rw [hback], fun id hid => ?_⟩
  · rw [hback]
    rfl
  · have hc := h.sound.consistent
    rw [hback]
    exact htries.extends.resolve_eq hid hc.bound_known hc.bound_lt

/-- A wildcard, and two types that each answer to something else. -/
def wildcardAndTwo : TypeTable where
  types := #[{ shape := .wildcard }, { symbols := [("negative", ⟨1⟩)] },
    { symbols := [("length", ⟨2⟩)] }]
  unions := []

/-- A session that has compared the two types, in vain. -/
def wildcardAndTwoCompared : Session := ⟨⟨[(⟨⟨1⟩, ⟨2⟩⟩, false)], [], [], true⟩, []⟩

/-- The wildcard takes one of the types, after which a match is tried and undone, and the wildcard
is to take the other type. -/
def wildcardAndTwoTried : Checker :=
  ⟨[(⟨⟨1⟩, ⟨2⟩⟩, false)], [⟨[⟨0⟩], some ⟨1⟩⟩], [⟨⟨0⟩, ⟨1⟩, ⟨2⟩⟩], true⟩

theorem rollback_tries_wildcardAndTwo :
    Session.Reached wildcardAndTwo wildcardAndTwoCompared ∧
      wildcardAndTwoCompared.checker.Tries wildcardAndTwo wildcardAndTwo wildcardAndTwoTried ∧
      wildcardAndTwoTried.rollback wildcardAndTwoCompared.checker.checkpoint =
        { wildcardAndTwoCompared.checker with conflicts := [⟨⟨0⟩, ⟨1⟩, ⟨2⟩⟩] } ∧
      (wildcardAndTwoTried.rollback wildcardAndTwoCompared.checker.checkpoint).ledger =
        wildcardAndTwoCompared.checker.ledger := by
  have hclosed : wildcardAndTwo.Closed := TypeTable.closed_iff.mpr (by decide)
  have hrefused : canAssign wildcardAndTwo ⟨1⟩ ⟨2⟩ (.new true) =
      .ok (false, wildcardAndTwoCompared.checker) := rfl
  have hreached : Session.Reached wildcardAndTwo wildcardAndTwoCompared :=
    .assign (.start hclosed true) (by decide) (by decide) hrefused
  have hbind : canAssign wildcardAndTwo ⟨0⟩ ⟨1⟩ wildcardAndTwoCompared.checker =
      .ok (true, { wildcardAndTwoTried with conflicts := [] }) := rfl
  have htry : canAssign wildcardAndTwo ⟨2⟩ ⟨1⟩ { wildcardAndTwoTried with conflicts := [] } =
      .ok (false, { wildcardAndTwoTried with
        verdicts := (⟨⟨2⟩, ⟨1⟩⟩, false) :: wildcardAndTwoTried.verdicts, conflicts := [] }) := rfl
  have hconflict : canAssign wildcardAndTwo ⟨0⟩ ⟨2⟩ { wildcardAndTwoTried with conflicts := [] } =
      .ok (false, wildcardAndTwoTried) := rfl
  have hbound := Checker.Tries.assign .refl (by decide) (by decide) hbind
  have hundone := hbound.undone (.assign .refl (by decide) (by decide) htry)
  have htries := hundone.assign (by decide) (by decide) hconflict
  obtain ⟨_, _, _, _, _, _, hledger, hback, _⟩ := hreached.rollback_tries htries
  exact ⟨hreached, htries, hback, hledger⟩

end

end MessageLang
