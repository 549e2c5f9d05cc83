import MessageLang.Proofs.Assign.Course
import MessageLang.Proofs.Assign.Examination
import MessageLang.Proofs.Types.Growth

namespace MessageLang

open Checking Checker

section

variable {t : TypeTable} {unwraps : Bool} {demands : Nat} {c c' : Checker} {d : Demand}

/-- The types that a demand is about lead to no wildcard. -/
def Demand.WildcardFree (t : TypeTable) (d : Demand) : Prop :=
  t.WildcardFree d.target ∧ t.WildcardFree d.source

/-- An answer to a demand without wildcards: yes rests on verdicts that are there by then, and
whatever is assignable gets it. -/
private def accepts (t : TypeTable) (target source : TypeId) (c : Checker) : Prop :=
  t.WildcardFree target → t.WildcardFree source → c.Accepts t target source

private def mustAccept (t : TypeTable) (unwraps : Bool) (target source : TypeId) : Prop :=
  t.WildcardFree target ∧ t.WildcardFree source ∧ t.Assignable unwraps target source

/-- A demand that its examination decides on: nothing about the two types settles it already. -/
private structure Undetermined (t : TypeTable) (d : Demand) : Prop where
  target_lt : d.target.index < t.size
  source_lt : d.source.index < t.size
  target_ne : d.target ≠ d.source
  not_nothing : t.isNothing d.target = false
  some_of_nothing : t.isNothing d.source = true → (t.fields? d.target).isSome = true
  not_anything : t.isAnything d.target = false ∧ t.isAnything d.source = false
  not_never : t.isNever d.source = false

private theorem Undetermined.fits_iff (hd : Undetermined t d) {R : TypeId → TypeId → Prop} :
    t.Fits unwraps R d.target d.source ↔
      t.HandlersFit R d.target d.source ∨ t.CompoundFits unwraps R d.target d.source := by
  simp [TypeTable.Fits, hd.not_nothing, hd.target_ne, hd.not_anything.1, hd.not_anything.2,
    hd.not_never]
  exact fun _ => hd.some_of_nothing

private theorem lasts_accepts (a b : TypeId) : Lasts t (accepts t a b) :=
  fun _ _ hgrows h ha hb => (h ha hb).grow hgrows

private theorem compareParts_judges (hclosed : t.Closed) (hd : Undetermined t d)
    {check : TypeId → TypeId → Checking Bool}
    (hcheck : JudgesPairs t unwraps demands check (accepts t) (mustAccept t unwraps)) :
    Judges t unwraps demands (compareParts t check d)
      (fun c => d.WildcardFree t → t.Fits unwraps (c.Accepts t) d.target d.source)
      (d.WildcardFree t ∧ t.Assignable unwraps d.target d.source) := by
  have hfree : ∀ id, t.WildcardFree id → ∀ part ∈ (t.get id).components, t.WildcardFree part :=
    fun _ h _ hpart => h.of_component hpart
  have hholds : ∀ c : Checker, t.Fits unwraps (fun a b => accepts t a b c) d.target d.source →
      d.WildcardFree t → t.Fits unwraps (c.Accepts t) d.target d.source :=
    fun c h hwild => TypeTable.Fits.transfer hfree (fun _ _ => rfl)
      (fun a b ha hb hab => hab ha hb) hwild.1 hwild.2 h
  have hmust : d.WildcardFree t ∧ t.Assignable unwraps d.target d.source →
      t.Fits unwraps (mustAccept t unwraps) d.target d.source :=
    fun ⟨hwild, h⟩ => TypeTable.Fits.transfer hfree (fun _ _ => rfl)
      (fun a b ha hb hab => ⟨ha, hb, hab⟩) hwild.1 hwild.2 h.fits
  unfold compareParts
  split
  · next hshape =>
    refine (handlersMatch_judges hclosed hcheck hshape).imp
      (fun c _ h => hholds c (hd.fits_iff.mpr (.inl h))) fun hm => ?_
    refine (hd.fits_iff.mp (hmust hm)).resolve_right ?_
    rintro ⟨fields, hfields, _⟩
    rw [TypeTable.fields?_eq_some_iff, hshape] at hfields
    cases hfields
  · next fields hshape =>
    refine (compoundMatch_judges hclosed hcheck (TypeTable.fields?_eq_some_iff.mpr hshape)
      hd.source_lt).imp (fun c _ h => hholds c (hd.fits_iff.mpr (.inr h))) fun hm => ?_
    refine (hd.fits_iff.mp (hmust hm)).resolve_left ?_
    rintro ⟨hsimple, _⟩
    rw [hshape] at hsimple
    cases hsimple
  · next hsimple hcompound =>
    refine judges_no fun hm => ?_
    rcases hd.fits_iff.mp (hmust hm) with h | ⟨fields, hfields, _⟩
    · exact hsimple h.1
    · exact hcompound fields (TypeTable.fields?_eq_some_iff.mp hfields)

private theorem examine_ends (hclosed : t.Closed) (hd : Undetermined t d)
    {check : TypeId → TypeId → Checking Bool}
    (hcheck : JudgesPairs t unwraps demands check (accepts t) (mustAccept t unwraps))
    (hc : c.Consistent t unwraps) (hopen : c.openDemands t ≤ demands + 1)
    (hnone : c.verdict? d = none) :
    Ends (examine t check d) c fun verdict c' => c'.Consistent t unwraps ∧ c.Grows t c' ∧
      (verdict = true → (d, true) ∈ c'.verdicts) ∧
      (d.WildcardFree t ∧ t.Assignable unwraps d.target d.source → verdict = true) := by
  have hentered : (d, true) ∈ (c.assume d).verdicts := List.mem_cons_self
  have hlt := openDemands_assume_lt hd.target_lt hd.source_lt hnone
  have hparts := compareParts_judges hclosed hd hcheck (c.assume d)
    (hc.assume hd.target_lt hd.source_lt) (by omega)
  simp only [examine_eq, Checking.decide, ends_bind_iff, ends_get_iff, ends_modify_iff]
  refine hparts.mono ?_
  rintro verdict c₂ ⟨hc₂, hgrows, hyes, hno⟩
  have hsuffix : c.verdicts <:+ c₂.verdicts :=
    (List.suffix_cons _ _).trans hgrows.verdicts_suffix
  cases verdict with
  | true =>
    rw [if_neg (by simp), ends_pure_iff]
    refine ⟨hc₂, ⟨hgrows.unwraps_eq, hsuffix, ?_⟩, fun _ => ?_, fun _ => rfl⟩
    · -- a new verdict is the one examined here or one found on the way
      intro other hother htarget hsource
      rcases hgrows.justified other hother htarget hsource with hold | hfits
      · rcases List.mem_cons.mp hold with heq | hold
        · cases heq
          exact .inr (hc.unwraps_eq ▸ hyes rfl ⟨htarget, hsource⟩)
        · exact .inl hold
      · exact .inr hfits
    · exact hgrows.verdicts_suffix.subset hentered
  | false =>
    have hkept : (c₂.keepVerdicts c.verdicts.length).verdicts = c.verdicts := by
      obtain ⟨fresh, heq⟩ := hsuffix
      simp [keepVerdicts, ← heq]
    simp only [Bool.not_false, if_true, ends_bind_iff, ends_modify_iff, ends_pure_iff, hkept]
    refine ⟨⟨hc₂.unwraps_eq, hc₂.bound_lt, hc₂.bound_known, ?_, ?_⟩, ⟨?_, List.suffix_cons _ _, ?_⟩,
      (fun hv => by cases hv), hno⟩
    · intro entry hentry
      rcases List.mem_cons.mp hentry with rfl | hentry
      · exact ⟨hd.target_lt, hd.source_lt⟩
      · exact hc.demand_lt entry hentry
    · intro other hother htarget hsource hassignable
      rcases List.mem_cons.mp hother with heq | hother
      · cases heq
        cases hno ⟨⟨htarget, hsource⟩, hassignable⟩
      · exact hc.refuted other hother htarget hsource hassignable
    · exact hgrows.unwraps_eq
    · intro other hother _ _
      rcases List.mem_cons.mp hother with heq | hother
      · cases heq
      · exact .inl hother

private theorem bind_ends {check : TypeId → TypeId → Checking Bool} {wildcard source : TypeId}
    (hcheck : ∀ bound, bound.index < t.size → t.isWildcard bound = false →
      Judges t unwraps demands (check bound source) (fun _ => True) False)
    (hsource : source.index < t.size) (hc : c.Consistent t unwraps)
    (hopen : c.openDemands t ≤ demands) :
    Ends (Checking.bind t check wildcard source) c fun _ c' =>
      c'.Consistent t unwraps ∧ c.Grows t c' := by
  -- what is bound or found in conflict does not touch the verdicts
  have hsame : ∀ {c : Checker} (c' : Checker), c.Consistent t unwraps →
      c'.unwrapsSingleField = c.unwrapsSingleField → c'.verdicts = c.verdicts →
      c'.bindings.AllBound (·.index < t.size) → c'.bindings.AllBound (t.isWildcard · = false) →
      c'.Consistent t unwraps ∧ c.Grows t c' := by
    intro c c' hc hunwraps hverdicts hlt hknown
    exact ⟨⟨hunwraps.trans hc.unwraps_eq, hlt, hknown, hverdicts ▸ hc.demand_lt,
      hverdicts ▸ hc.refuted⟩, .of_eq hunwraps hverdicts⟩
  have htaking := (taking_allBound hc.bound_lt wildcard fun _ => hsource).and
    (taking_allBound (t := t) hc.bound_known wildcard id)
  simp only [Ends, bind_apply]
  cases hcase : taking t c.bindings wildcard source with
  | done bindings =>
    rw [hcase] at htaking
    exact hsame _ hc rfl rfl htaking.1 htaking.2
  | clash bindings bound attempted =>
    rw [hcase] at htaking
    exact hsame _ hc rfl rfl htaking.1 htaking.2
  | asks bound =>
    rw [hcase] at htaking
    obtain ⟨hc₁, hgrows₁⟩ := hsame { c with bindings := c.bindings.introduce wildcard } hc rfl rfl
      (hc.bound_lt.introduce wildcard) (hc.bound_known.introduce wildcard)
    refine (hcheck bound htaking.1 htaking.2 _ hc₁ hopen).bind ?_
    rintro verdict c₂ ⟨hc₂, hgrows₂, _⟩
    have hgrows := hgrows₁.trans hgrows₂
    cases verdict with
    | true => exact ends_pure_iff.mpr ⟨hc₂, hgrows⟩
    | false =>
      rw [if_neg Bool.false_ne_true, conflict, ends_bind_iff, ends_modify_iff, ends_pure_iff]
      refine And.imp_right hgrows.trans ?_
      exact hsame _ hc₂ rfl rfl hc₂.bound_lt hc₂.bound_known

/-- What settles a comparison at once: what was decided before, that the types do not fit or that
they do whatever their parts are, or that a wildcard is given. -/
private theorem course_eq_settled (unwraps : Bool) {target source : TypeId} {known : Option Bool}
    {verdict : Bool} (h : course t target source known = .settled verdict) :
    known = some verdict ∨ (verdict = false ∧ ∀ R, ¬ t.Fits unwraps R target source) ∨
      verdict = true ∧ (t.isWildcard source = true ∨ ∀ R, t.Fits unwraps R target source) := by
  unfold course at h
  split at h
  · next hnothing =>
    cases h
    exact .inr (.inl ⟨rfl, fun _ hfits => by simpa [hnothing] using hfits.1⟩)
  next hnothing =>
  split at h
  · next hempty =>
    cases h
    rw [Bool.and_eq_true, Option.isNone_iff_eq_none] at hempty
    exact .inr (.inl ⟨rfl, fun _ hfits => by simpa [hempty.2] using hfits.2.1 hempty.1⟩)
  next hempty =>
  have hfits : ∀ {R}, (target = source ∨ t.isAnything target = true ∨ t.isAnything source = true ∨
      t.isNever source = true ∨ t.HandlersFit R target source ∨
      t.CompoundFits unwraps R target source) → t.Fits unwraps R target source :=
    fun hfits => ⟨by simpa using hnothing,
      fun hsource => by simpa [hsource, Option.isSome_iff_ne_none] using hempty, hfits⟩
  split at h
  · next hsame =>
    cases h
    exact .inr (.inr ⟨rfl, .inr fun _ => hfits (.inl hsame)⟩)
  split at h
  · cases h
  cases known with
  | some before =>
    cases h
    exact .inl rfl
  | none =>
    dsimp only at h
    split at h
    · next hopenEnded =>
      cases h
      simp only [Bool.or_eq_true] at hopenEnded
      refine .inr (.inr ⟨rfl, ?_⟩)
      rcases hopenEnded with ((htarget | hsource) | hnever) | hwild
      · exact .inr fun _ => hfits (.inr (.inl htarget))
      · exact .inr fun _ => hfits (.inr (.inr (.inl hsource)))
      · exact .inr fun _ => hfits (.inr (.inr (.inr (.inl hnever))))
      · exact .inl hwild
    · cases h

private theorem undetermined_of_course {target source : TypeId} {known : Option Bool}
    (htarget : target.index < t.size) (hsource : source.index < t.size)
    (h : course t target source known = .examination) : Undetermined t ⟨target, source⟩ := by
  unfold course at h
  split at h
  · cases h
  next hnothing =>
  split at h
  · cases h
  next hempty =>
  split at h
  · cases h
  next hne =>
  split at h
  · cases h
  cases known with
  | some before => cases h
  | none =>
    dsimp only at h
    split at h
    · cases h
    next hopenEnded =>
    simp only [Bool.not_eq_true, Bool.or_eq_false_iff] at hopenEnded
    obtain ⟨⟨⟨hanything, hanything'⟩, hnever⟩, _⟩ := hopenEnded
    have hsome : t.isNothing source = true → (t.fields? target).isSome = true := fun hsource => by
      simpa [hsource, Option.isSome_iff_ne_none] using hempty
    exact ⟨htarget, hsource, hne, by simpa using hnothing, hsome, ⟨hanything, hanything'⟩, hnever⟩

/-- A comparison that is settled with yes is one that is entered as met, or of types that fit
whatever their parts are. -/
private theorem accepts_of_settled {target source : TypeId} {verdict : Bool}
    (hc : c.Consistent t unwraps)
    (hcourse : course t target source (c.verdict? ⟨target, source⟩) = .settled verdict)
    (hyes : verdict = true) (hsource : t.WildcardFree source) : c.Accepts t target source := by
  cases hyes
  rcases course_eq_settled unwraps hcourse with hknown | ⟨hno, -⟩ | ⟨-, hwild | hfits⟩
  · exact .inl (mem_of_lookup_eq_some hknown)
  · cases hno
  · simp [hsource source .refl] at hwild
  · exact .inr (hc.unwraps_eq ▸ hfits _)

/-- A comparison of types that are assignable is not settled with no. -/
private theorem settled_of_assignable {target source : TypeId} {verdict : Bool}
    (hc : c.Consistent t unwraps)
    (hcourse : course t target source (c.verdict? ⟨target, source⟩) = .settled verdict)
    (htarget : t.WildcardFree target) (hsource : t.WildcardFree source)
    (hassignable : t.Assignable unwraps target source) : verdict = true := by
  rcases course_eq_settled unwraps hcourse with hknown | ⟨-, hnot⟩ | ⟨hyes, -⟩
  · by_contra hno
    rw [Bool.not_eq_true] at hno
    cases hno
    exact hc.refuted _ (mem_of_lookup_eq_some hknown) htarget hsource hassignable
  · exact absurd hassignable.fits (hnot _)
  · exact hyes

/-- Every demand on types of a table gets its answer within two levels for each demand that is
still open: one for its examination and one for a wildcard that passes it on. -/
private theorem canAssignWithin_judges (hclosed : t.Closed) (levels : Nat) :
    ∀ (demands : Nat) (target given : TypeId), target.index < t.size → given.index < t.size →
      2 * demands + 1 + (if t.isWildcard target then 1 else 0) ≤ levels →
      Judges t unwraps demands (canAssignWithin t levels target given) (accepts t target given)
        (mustAccept t unwraps target given) := by
  induction levels with
  | zero => intro demands target given _ _ hlevels; omega
  | succ levels ih =>
    intro demands target given htarget hgiven hlevels c hc hopen
    have hsource : (c.bindings.resolve t given).index < t.size := hc.bound_lt.resolve t hgiven
    -- a type without wildcards stands for itself
    have hresolve : t.WildcardFree given → c.bindings.resolve t given = given :=
      fun h => Bindings.resolve_of_not_wildcard (h given .refl)
    simp only [Ends, canAssignWithin_succ]
    generalize c.bindings.resolve t given = source at hsource hresolve
    cases hcourse : course t target source (c.verdict? ⟨target, source⟩) with
    | settled verdict =>
      refine ⟨hc, .refl c, fun hyes htw hgw => ?_, fun hmust => ?_⟩
      · cases hresolve hgw
        exact accepts_of_settled hc hcourse hyes hgw
      · obtain ⟨htw, hgw, hassignable⟩ := hmust
        cases hresolve hgw
        exact settled_of_assignable hc hcourse htw hgw hassignable
    | binding =>
      have hwild := (course_eq_binding hcourse).1
      rw [if_pos hwild] at hlevels
      have hcheck : ∀ bound : TypeId, bound.index < t.size → t.isWildcard bound = false →
          Judges t unwraps demands (canAssignWithin t levels bound source) (fun _ => True)
            False := by
        intro bound hbound hknown
        refine (ih demands bound source hbound hsource ?_).imp (fun _ _ _ => trivial) False.elim
        simp only [hknown, Bool.false_eq_true, if_false]
        omega
      have hbound : ¬ t.WildcardFree target := fun htw => by simp [htw target .refl] at hwild
      refine (bind_ends hcheck hsource hc hopen).mono fun verdict c' hbinds => ?_
      obtain ⟨hc', hgrows⟩ := hbinds
      exact ⟨hc', hgrows, fun _ htw => absurd htw hbound, fun hm => absurd hm.1 hbound⟩
    | examination =>
      have hnone := (course_eq_examination hcourse).1
      have hd := undetermined_of_course htarget hsource hcourse
      have hpositive : 0 < c.openDemands t :=
        Nat.zero_lt_of_lt (openDemands_assume_lt htarget hsource hnone)
      have hcheck : JudgesPairs t unwraps (demands - 1) (canAssignWithin t levels) (accepts t)
          (mustAccept t unwraps) := by
        refine fun a b => ⟨lasts_accepts a b, fun ha hb => ih (demands - 1) a b ha hb ?_⟩
        split <;> omega
      refine (examine_ends hclosed hd hcheck hc (by omega) hnone).mono ?_
      rintro verdict c' ⟨hc', hgrows, hentered, hno⟩
      refine ⟨hc', hgrows, fun hyes _ hgw => ?_, fun hmust => ?_⟩
      · cases hresolve hgw
        exact .inl (hentered hyes)
      · obtain ⟨htw, hgw, hassignable⟩ := hmust
        cases hresolve hgw
        exact hno ⟨⟨htw, hgw⟩, hassignable⟩

/-- Within enough levels a comparison ends, keeps what a checker relies on and tells types without
wildcards apart. -/
theorem canAssignWithin_ends (hclosed : t.Closed) {levels : Nat} {target given : TypeId}
    (htarget : target.index < t.size) (hgiven : given.index < t.size)
    (hlevels : 2 * demands + 1 + (if t.isWildcard target then 1 else 0) ≤ levels)
    (hc : c.Consistent t unwraps) (hopen : c.openDemands t ≤ demands) :
    Ends (canAssignWithin t levels target given) c fun verdict c' => c'.Consistent t unwraps ∧
      c.Grows t c' ∧
      (verdict = true → t.WildcardFree target → t.WildcardFree given →
        c'.Accepts t target given) ∧
      (t.WildcardFree target → t.WildcardFree given → t.Assignable unwraps target given →
        verdict = true) := by
  refine (canAssignWithin_judges hclosed _ _ _ _ htarget hgiven hlevels c hc hopen).mono
    fun verdict c' ⟨hc', hgrows, hyes, hno⟩ => ?_
  exact ⟨hc', hgrows, hyes, fun ht hg h => hno ⟨ht, hg, h⟩⟩

/-- There are enough levels for all the demands there can be. -/
theorem levels_le (t : TypeTable) (target : TypeId) :
    2 * (t.size * t.size) + 1 + (if t.isWildcard target then 1 else 0) ≤
      2 * (t.size * t.size + 1) := by
  split <;> omega

theorem canAssign_ends (hclosed : t.Closed) {target given : TypeId}
    (htarget : target.index < t.size) (hgiven : given.index < t.size) (hc : c.Consistent t unwraps) :
    Ends (canAssign t target given) c fun verdict c' => c'.Consistent t unwraps ∧ c.Grows t c' ∧
      (verdict = true → t.WildcardFree target → t.WildcardFree given →
        c'.Accepts t target given) ∧
      (t.WildcardFree target → t.WildcardFree given → t.Assignable unwraps target given →
        verdict = true) :=
  canAssignWithin_ends hclosed htarget hgiven (levels_le t target) hc (openDemands_le t c)

end

end MessageLang
