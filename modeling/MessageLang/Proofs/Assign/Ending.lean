import MessageLang.Proofs.Assign.Alike
import MessageLang.Proofs.Assign.Session

namespace MessageLang

open Checking Checker

namespace Bindings

/-- What wildcards stand for are types of the table and no wildcards. -/
def Proper (t : TypeTable) (b : Bindings) : Prop :=
  b.AllBound fun id => id.index < t.size ∧ t.isWildcard id = false

variable {t : TypeTable} {b : Bindings}

theorem Proper.lt (h : b.Proper t) : b.AllBound (·.index < t.size) :=
  fun cls hcls bound hbound => (h cls hcls bound hbound).1

theorem Proper.known (h : b.Proper t) : b.AllBound (t.isWildcard · = false) :=
  fun cls hcls bound hbound => (h cls hcls bound hbound).2

end Bindings

/-- At any time what wildcards stand for is proper. -/
theorem Session.Reached.proper {t : TypeTable} {s : Session} (h : Session.Reached t s) :
    s.checker.bindings.Proper t := fun cls hcls bound hbound =>
  ⟨h.sound.consistent.bound_lt cls hcls bound hbound,
    h.sound.consistent.bound_known cls hcls bound hbound⟩

/-- A comparison that knows which demands are under examination on the way to it, and stops with a
fault if it is to examine one of them again. -/
def Checking.canAssignApart (t : TypeTable) : Nat → List Demand → TypeId → TypeId → Checking Bool
  | 0, _, _, _ => throw .unending
  | levels + 1, entered, target, given => do
    let c ← get
    let source := c.bindings.resolve t given
    match course t target source (c.verdict? ⟨target, source⟩) with
    | .settled verdict => return verdict
    | .binding => Checking.bind t (canAssignApart t levels entered) target source
    | .examination =>
      if ⟨target, source⟩ ∈ entered then throw .unending
      else examine t (canAssignApart t levels (⟨target, source⟩ :: entered)) ⟨target, source⟩

/-- Two steps end with the same answer and in the same state, which are as said. -/
def EndAlike (step step' : Checking Bool) (c : Checker) (post : Bool → Checker → Prop) : Prop :=
  ∃ verdict c', step c = .ok (verdict, c') ∧ step' c = .ok (verdict, c') ∧ post verdict c'

section

variable {step step' next next' : Checking Bool} {c : Checker} {mid post : Bool → Checker → Prop}

theorem endAlike_pure {verdict : Bool} (h : post verdict c) :
    EndAlike (pure verdict) (pure verdict) c post :=
  ⟨verdict, c, rfl, rfl, h⟩

theorem EndAlike.mono (h : EndAlike step step' c mid) (himp : ∀ v c', mid v c' → post v c') :
    EndAlike step step' c post := by
  obtain ⟨v, c', hrun, hrun', hmid⟩ := h
  exact ⟨v, c', hrun, hrun', himp v c' hmid⟩

theorem EndAlike.and_after (h : EndAlike step step' c mid) (hafter : After step c post) :
    EndAlike step step' c fun v c' => mid v c' ∧ post v c' := by
  obtain ⟨v, c', hrun, hrun', hmid⟩ := h
  exact ⟨v, c', hrun, hrun', hmid, hafter v c' hrun⟩

theorem EndAlike.bind {next next' : Bool → Checking Bool} (h : EndAlike step step' c mid)
    (hnext : ∀ v c', mid v c' → EndAlike (next v) (next' v) c' post) :
    EndAlike (step >>= next) (step' >>= next') c post := by
  obtain ⟨v, c', hrun, hrun', hmid⟩ := h
  obtain ⟨w, c'', hrest, hrest', hpost⟩ := hnext v c' hmid
  refine ⟨w, c'', ?_, ?_, hpost⟩
  · simpa only [Bind.bind, StateT.bind, Except.bind, hrun] using hrest
  · simpa only [Bind.bind, StateT.bind, Except.bind, hrun'] using hrest'

/-- Two steps end alike from every state of a sort, in a state of that sort. -/
def EndAlikeIn (K : Checker → Prop) (step step' : Checking Bool) : Prop :=
  ∀ c, K c → EndAlike step step' c fun _ c' => K c'

variable {K : Checker → Prop}

theorem endAlikeIn_sequences : Sequences (EndAlikeIn K) where
  pure _ _ hc := endAlike_pure hc
  and h h' c hc := by
    refine (h c hc).bind fun verdict c' hc' => ?_
    cases verdict with
    | true => exact h' c' hc'
    | false => exact endAlike_pure hc'

theorem endAlikeIn_branches : Branches (EndAlikeIn K) := by
  intro step step' next next' h h' c hc
  refine (h c hc).bind fun verdict c' hc' => ?_
  cases verdict with
  | true => exact endAlike_pure hc'
  | false => exact h' c' hc'

theorem endAlikeIn_unwraps : Unwraps (EndAlikeIn K) := by
  intro step step' next next' h h' c hc
  refine (h c hc).bind fun verdict c' hc' => ?_
  cases verdict with
  | true => exact endAlike_pure hc'
  | false =>
    rw [if_neg Bool.false_ne_true, if_neg Bool.false_ne_true]
    change EndAlike (if c'.unwrapsSingleField = true then next else pure false)
      (if c'.unwrapsSingleField = true then next' else pure false) c' _
    split
    · exact h' c' hc'
    · exact endAlike_pure hc'

end

section

variable {t : TypeTable} {c : Checker} {check check' : TypeId → TypeId → Checking Bool}
  {demand : Demand} {target source given wildcard : TypeId} {post : Bool → Checker → Prop}

theorem examine_endAlike (h : EndAlike (compareParts t check demand) (compareParts t check' demand)
    (c.assume demand) fun v c' => post v (if v then c' else c'.refuse c.verdicts.length demand)) :
    EndAlike (examine t check demand) (examine t check' demand) c post := by
  simp only [EndAlike, examine_apply]
  exact h.bind fun v c' hc' => ⟨v, _, rfl, rfl, hc'⟩

theorem bind_endAlike (hc : c.bindings.Proper t) (hsource : source.index < t.size)
    (hcheck : ∀ bound c', bound.index < t.size → t.isWildcard bound = false →
      c'.verdicts = c.verdicts → c'.bindings.Proper t →
        EndAlike (check bound source) (check' bound source) c' fun _ c'' => c''.bindings.Proper t) :
    EndAlike (Checking.bind t check wildcard source) (Checking.bind t check' wildcard source) c
      fun _ c' => c'.bindings.Proper t := by
  have hproper := taking_allBound hc wildcard fun hknown => ⟨hsource, hknown⟩
  simp only [EndAlike, bind_apply]
  cases htaking : taking t c.bindings wildcard source with
  | done bindings =>
    rw [htaking] at hproper
    exact ⟨_, _, rfl, rfl, hproper⟩
  | clash bindings bound attempted =>
    rw [htaking] at hproper
    exact ⟨_, _, rfl, rfl, hproper⟩
  | asks bound =>
    rw [htaking] at hproper
    have hfits := hcheck bound { c with bindings := c.bindings.introduce wildcard } hproper.1
      hproper.2 rfl (hc.introduce wildcard)
    refine hfits.bind fun verdict c' hc' => ?_
    cases verdict with
    | true => exact endAlike_pure hc'
    | false => exact ⟨_, _, rfl, rfl, hc'⟩

theorem canAssignApart_succ (t : TypeTable) (levels : Nat) (entered : List Demand)
    (target given : TypeId) (c : Checker) :
    canAssignApart t (levels + 1) entered target given c =
      match course t target (c.bindings.resolve t given)
        (c.verdict? ⟨target, c.bindings.resolve t given⟩) with
      | .settled verdict => .ok (verdict, c)
      | .binding =>
        Checking.bind t (canAssignApart t levels entered) target (c.bindings.resolve t given) c
      | .examination =>
        if ⟨target, c.bindings.resolve t given⟩ ∈ entered then .error .unending
        else examine t (canAssignApart t levels (⟨target, c.bindings.resolve t given⟩ :: entered))
          ⟨target, c.bindings.resolve t given⟩ c := by
  have hget : ∀ next : Checker → Checking Bool, (get >>= next) c = next c c := fun _ => rfl
  rw [canAssignApart, hget]
  cases course t target (c.bindings.resolve t given)
    (c.verdict? ⟨target, c.bindings.resolve t given⟩) with
  | settled verdict => rfl
  | binding => rfl
  | examination =>
    dsimp only
    split <;> rfl

/-- A comparison that knows the demands under examination ends like one that does not. The induction
is on the levels. Whatever is under examination has a verdict, which nothing takes back before the
examination is over; so a demand that is examined is another one, and there are fewer left. -/
theorem canAssignWithin_endAlike (hclosed : t.Closed) (levels : Nat) :
    ∀ (levels' demands : Nat) (entered : List Demand) (target given : TypeId) (c : Checker),
      target.index < t.size → given.index < t.size →
      2 * demands + 1 + (if t.isWildcard target then 1 else 0) ≤ levels →
      2 * demands + 1 + (if t.isWildcard target then 1 else 0) ≤ levels' →
      c.bindings.Proper t → c.openDemands t ≤ demands →
      (∀ demand ∈ entered, c.verdict? demand ≠ none) →
        EndAlike (canAssignWithin t levels target given)
          (canAssignApart t levels' entered target given) c fun _ c' => c'.bindings.Proper t := by
  induction levels with
  | zero => intro _ demands _ target _ _ _ _ hlevels; omega
  | succ levels ih =>
    intro levels' demands entered target given c htarget hgiven hlevels hlevels' hc hopen hentered
    obtain _ | levels' := levels'
    · omega
    have hsource : (c.bindings.resolve t given).index < t.size := hc.lt.resolve t hgiven
    simp only [EndAlike, canAssignWithin_succ, canAssignApart_succ]
    generalize c.bindings.resolve t given = source at hsource
    cases hcourse : course t target source (c.verdict? ⟨target, source⟩) with
    | settled verdict => exact ⟨_, _, rfl, rfl, hc⟩
    | binding =>
      have hwild := (course_eq_binding hcourse).1
      rw [if_pos hwild] at hlevels hlevels'
      refine bind_endAlike hc hsource fun bound c' hbound hknown hverdicts hc' => ?_
      have hsame : ∀ demand, c'.verdict? demand = c.verdict? demand := fun _ => by
        rw [verdict?, hverdicts, verdict?]
      refine ih levels' demands entered bound source c' hbound hsource ?_ ?_ hc' ?_ ?_
      · simp only [hknown, Bool.false_eq_true, if_false]
        omega
      · simp only [hknown, Bool.false_eq_true, if_false]
        omega
      · exact (openDemands_le_of_suffix (hverdicts ▸ List.suffix_refl _)).trans hopen
      · exact fun demand hdemand => hsame demand ▸ hentered demand hdemand
    | examination =>
      obtain ⟨hnone, hwild, -⟩ := course_eq_examination hcourse
      have hfresh : ⟨target, source⟩ ∉ entered := fun hmem => hentered _ hmem hnone
      dsimp only
      rw [if_neg hfresh]
      have hlt := openDemands_assume_lt (c := c) htarget hsource hnone
      rw [hwild] at hlevels hlevels'
      have hkeeps : ∀ a b, a.index < t.size → b.index < t.size →
          EndAlikeIn (fun c' => (c.assume ⟨target, source⟩).Retains c' ∧ c'.bindings.Proper t)
            (canAssignWithin t levels a b)
            (canAssignApart t levels' (⟨target, source⟩ :: entered) a b) := by
        rintro a b ha hb c' ⟨hretains, hc'⟩
        have hfewer := openDemands_le_of_suffix (t := t) hretains.verdicts_suffix
        have hstands : ∀ demand ∈ ⟨target, source⟩ :: entered, c'.verdict? demand ≠ none := by
          intro demand hdemand hnone'
          have hassumed := verdict?_eq_none_of_suffix hretains.verdicts_suffix hnone'
          rcases List.mem_cons.mp hdemand with rfl | hdemand
          · simp [Checker.assume, verdict?] at hassumed
          · exact hentered demand hdemand
              (verdict?_eq_none_of_suffix (List.suffix_cons _ _) hassumed)
        refine ((ih levels' (demands - 1) _ a b c' ha hb ?_ ?_ hc' ?_ hstands).and_after
          (canAssignWithin_retains levels a b hretains)).mono fun _ _ h => ⟨h.2, h.1⟩
        · split <;> simp only [Bool.false_eq_true, if_false] at hlevels <;> omega
        · split <;> simp only [Bool.false_eq_true, if_false] at hlevels' <;> omega
        · omega
      have hparts := compareParts_composes (P := fun id => id.index < t.size) _ _
        (fun _ _ _ => hclosed.component_lt) hkeeps htarget hsource endAlikeIn_sequences
        (fun _ _ => endAlikeIn_branches) fun _ => endAlikeIn_unwraps
      refine examine_endAlike ((hparts _ ⟨.refl _, hc⟩).mono fun verdict c' hc' => ?_)
      cases verdict with
      | true => exact hc'.2
      | false => exact hc'.2

/-- Within enough levels a comparison ends in a state where what wildcards stand for is proper. -/
theorem canAssign_proper (hclosed : t.Closed) (hc : c.bindings.Proper t)
    (htarget : target.index < t.size) (hgiven : given.index < t.size) :
    Ends (canAssign t target given) c fun _ c' => c'.bindings.Proper t := by
  obtain ⟨verdict, c', hrun, -, hc'⟩ := canAssignWithin_endAlike hclosed _ _ _ [] target given c
    htarget hgiven (levels_le t target) (levels_le t target) hc (openDemands_le t c) (by simp)
  exact ends_iff.mpr ⟨verdict, c', hrun, hc'⟩

/-- A comparison ends whatever types there are and whatever was decided before, with the same result
however many levels there are beyond those for all pairs of types; and none of its demands is
examined while it is under examination already, also not when wildcards pass it on. -/
theorem canAssign_ends_apart (hclosed : t.Closed) (hc : c.bindings.Proper t)
    (htarget : target.index < t.size) (hgiven : given.index < t.size) :
    ∃ verdict c', canAssign t target given c = .ok (verdict, c') ∧
      ∀ levels, 2 * (t.size * t.size + 1) ≤ levels →
        canAssignWithin t levels target given c = .ok (verdict, c') ∧
        canAssignApart t levels [] target given c = .ok (verdict, c') := by
  have halike : ∀ levels levels', 2 * (t.size * t.size + 1) ≤ levels →
      2 * (t.size * t.size + 1) ≤ levels' →
        EndAlike (canAssignWithin t levels target given) (canAssignApart t levels' [] target given) c
          fun _ c' => c'.bindings.Proper t := fun levels levels' hlevels hlevels' =>
    canAssignWithin_endAlike hclosed levels levels' _ [] target given c htarget hgiven
      ((levels_le t target).trans hlevels) ((levels_le t target).trans hlevels') hc
      (openDemands_le t c) (by simp)
  obtain ⟨verdict, c', hrun, hapart, -⟩ := halike _ _ (le_refl _) (le_refl _)
  refine ⟨verdict, c', hrun, fun levels hlevels => ?_⟩
  obtain ⟨v, d, hrun', hapart', -⟩ := halike levels _ hlevels (le_refl _)
  obtain ⟨w, d', hrun'', hapart'', -⟩ := halike _ levels (le_refl _) hlevels
  -- all of them are what the comparison comes to that knows the demands
  cases hapart.symm.trans hapart'
  cases hrun.symm.trans hrun''
  exact ⟨hrun', hapart''⟩

/-- A wildcard, a type with an answer of it, and one with an answer of itself. Another answer tells
the two types apart. -/
def wildcardInside : TypeTable where
  types := #[{ shape := .wildcard }, { symbols := [("next", ⟨0⟩), ("end", ⟨3⟩)] },
    { symbols := [("next", ⟨2⟩), ("end", ⟨4⟩)] }, { symbols := [("length", ⟨3⟩)] },
    { symbols := [("negative", ⟨4⟩)] }]
  unions := []

/-- The wildcard stands for the type with an answer of it. -/
def wildcardInsideBound : Checker := ⟨[], [⟨[⟨0⟩], some ⟨1⟩⟩], [], true⟩

/-- What is decided on the way to the other answer goes again with the assumption it rests on. -/
def wildcardInsideCompared : Checker :=
  ⟨[(⟨⟨1⟩, ⟨2⟩⟩, false)], [⟨[⟨0⟩], some ⟨1⟩⟩], [⟨⟨0⟩, ⟨1⟩, ⟨2⟩⟩], true⟩

theorem canAssign_ends_apart_wildcardInside :
    wildcardInside.Closed ∧ wildcardInsideBound.bindings.Proper wildcardInside ∧
      canAssign wildcardInside ⟨0⟩ ⟨2⟩ wildcardInsideBound = .ok (false, wildcardInsideCompared) ∧
      ∀ levels, 2 * (wildcardInside.size * wildcardInside.size + 1) ≤ levels →
        canAssignWithin wildcardInside levels ⟨0⟩ ⟨2⟩ wildcardInsideBound =
          .ok (false, wildcardInsideCompared) ∧
        canAssignApart wildcardInside levels [] ⟨0⟩ ⟨2⟩ wildcardInsideBound =
          .ok (false, wildcardInsideCompared) := by
  have hclosed : wildcardInside.Closed := TypeTable.closed_iff.mpr (by decide)
  have hproper : wildcardInsideBound.bindings.Proper wildcardInside := by
    intro cls hcls bound hbound
    cases List.mem_singleton.mp hcls
    cases hbound
    decide
  have hrun : canAssign wildcardInside ⟨0⟩ ⟨2⟩ wildcardInsideBound =
      .ok (false, wildcardInsideCompared) := rfl
  have htarget : (⟨0⟩ : TypeId).index < wildcardInside.size := by decide
  have hgiven : (⟨2⟩ : TypeId).index < wildcardInside.size := by decide
  obtain ⟨verdict, c', hrun', hlevels⟩ := canAssign_ends_apart hclosed hproper htarget hgiven
  cases hrun.symm.trans hrun'
  exact ⟨hclosed, hproper, hrun, hlevels⟩

end

end MessageLang
