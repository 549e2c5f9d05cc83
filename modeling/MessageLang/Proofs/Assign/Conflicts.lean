import MessageLang.Proofs.Assign.Ending
import MessageLang.Proofs.Assign.Forgetting

namespace MessageLang

open Checking Checker

section

variable {t : TypeTable} {c d : Checker} {start pending : List Conflict} {target source given : TypeId}

/-- Two checkers that differ in the conflicts found before some time and in nothing else. -/
def Checker.Apart (start pending : List Conflict) (c d : Checker) : Prop :=
  ∃ met, c.conflicts = start ++ met ∧ d = { c with conflicts := pending ++ met }

theorem Checker.Apart.withBindings (h : c.Apart start pending d) (bindings : Bindings) :
    ({ c with bindings } : Checker).Apart start pending { d with bindings } := by
  obtain ⟨met, hmet, rfl⟩ := h
  exact ⟨met, hmet, rfl⟩

theorem Checker.Apart.conflict (h : c.Apart start pending d) (conflict : Conflict) :
    ({ c with conflicts := c.conflicts ++ [conflict] } : Checker).Apart start pending
      { d with conflicts := d.conflicts ++ [conflict] } := by
  obtain ⟨met, hmet, rfl⟩ := h
  exact ⟨met ++ [conflict], by simp [hmet], by simp⟩

theorem bind_apart {check : TypeId → TypeId → Checking Bool} {wildcard : TypeId}
    (hcheck : ∀ bound, Alike (Apart start pending) (check bound source)) :
    Alike (Apart start pending) (Checking.bind t check wildcard source) := by
  intro c d h
  have hsame : d.bindings = c.bindings := by
    obtain ⟨met, -, rfl⟩ := h
    rfl
  simp only [AlikeAt, After, bind_apply, hsame]
  cases taking t c.bindings wildcard source with
  | done bindings =>
    rintro _ _ ⟨⟩ _ _ ⟨⟩
    exact ⟨rfl, h.withBindings bindings⟩
  | clash bindings bound attempted =>
    rintro _ _ ⟨⟩ _ _ ⟨⟩
    exact ⟨rfl, (h.withBindings bindings).conflict _⟩
  | asks bound =>
    refine AlikeAt.bind (hcheck bound _ _ (h.withBindings _)) fun verdict c' d' h' => ?_
    cases verdict with
    | true => exact alikeAt_pure true h'
    | false =>
      rintro _ _ ⟨⟩ _ _ ⟨⟩
      exact ⟨rfl, h'.conflict _⟩

/-- Conflicts found before make no difference to a comparison. -/
theorem canAssignWithin_apart (levels : Nat) (target given : TypeId) :
    Alike (Apart start pending) (canAssignWithin t levels target given) := by
  induction levels generalizing target given with
  | zero => exact fun _ _ _ _ _ hrun => nomatch hrun
  | succ levels ih =>
    rintro c d ⟨met, hmet, rfl⟩
    have h : c.Apart start pending { c with conflicts := pending ++ met } := ⟨met, hmet, rfl⟩
    refine canAssignWithin_alike h rfl rfl (fun _ => bind_apart (fun bound => ih bound _) _ _ h) rfl
      fun _ => ?_
    refine examine_alike (compareParts_alike (P := fun _ => True) (fun _ _ _ _ => trivial)
      (fun a b _ _ => ih a b) ?_ trivial trivial) ⟨met, hmet, rfl⟩ (fun _ _ h => h) ?_
    · rintro c _ ⟨met, -, rfl⟩
      rfl
    · rintro c _ ⟨met, hmet, rfl⟩
      exact ⟨met, hmet, rfl⟩

/-- What a comparison comes to does not depend on the conflicts that are there, and those that it
meets are put behind them. -/
theorem canAssign_meets (hclosed : t.Closed) (hc : c.bindings.Proper t)
    (htarget : target.index < t.size) (hgiven : given.index < t.size) :
    ∃ verdict c' met, canAssign t target given c = .ok (verdict, c') ∧ c'.bindings.Proper t ∧
      c'.conflicts = c.conflicts ++ met ∧
      ∀ pending, canAssign t target given { c with conflicts := pending } =
        .ok (verdict, { c' with conflicts := pending ++ met }) := by
  obtain ⟨verdict, c', hrun, hc'⟩ := ends_iff.mp (canAssign_proper hclosed hc htarget hgiven)
  have hapart : ∀ pending, ∃ met, c'.conflicts = c.conflicts ++ met ∧
      canAssign t target given { c with conflicts := pending } =
        .ok (verdict, { c' with conflicts := pending ++ met }) := by
    intro pending
    have hpending : ({ c with conflicts := pending } : Checker).bindings.Proper t := hc
    obtain ⟨w, d', hrun', -⟩ := ends_iff.mp (canAssign_proper hclosed hpending htarget hgiven)
    have hstart : c.Apart c.conflicts pending { c with conflicts := pending } := ⟨[], by simp, by simp⟩
    obtain ⟨rfl, met, hmet, rfl⟩ :=
      canAssignWithin_apart _ target given _ _ hstart verdict c' hrun w d' hrun'
    exact ⟨met, hmet, hrun'⟩
  obtain ⟨met, hmet, -⟩ := hapart []
  refine ⟨verdict, c', met, hrun, hc', hmet, fun pending => ?_⟩
  obtain ⟨met', hmet', hrun'⟩ := hapart pending
  rwa [List.append_cancel_left (hmet.symm.trans hmet')]

end

/-- There may be more than one way to meet a demand: another handler of the given type where one does
not do, or the fields of the only field where the field itself does not. -/
def TypeTable.Forks (t : TypeTable) (unwraps : Bool) (target source : TypeId) : Prop :=
  (t.get target).handlers ≠ [] ∧ 1 < (t.get source).handlers.length ∨
    unwraps = true ∧ t.HasInside target

/-- A step keeps something, and meets no conflict if its answer is yes. -/
def Clean (K : Checker → Prop) (step : Checking Bool) : Prop :=
  ∀ c, K c → After step c fun verdict c' => K c' ∧ (verdict = true → c'.conflicts = c.conflicts)

section

variable {K : Checker → Prop} {step next : Checking Bool}

theorem clean_pure (verdict : Bool) : Clean K (pure verdict) :=
  fun _ hc => after_pure_iff.mpr ⟨hc, fun _ => rfl⟩

theorem Clean.and (h : Clean K step) (h' : Clean K next) :
    Clean K (do if ← step then next else return false) := by
  intro c hc
  refine (h c hc).bind fun verdict c' hc' => ?_
  cases verdict with
  | true =>
    exact (h' c' hc'.1).mono fun _ _ h'' => ⟨h''.1, fun hv => (h''.2 hv).trans (hc'.2 rfl)⟩
  | false => exact after_pure_iff.mpr ⟨hc'.1, fun hv => nomatch hv⟩

/-- Where the fields of an only field are not tried, a type is met by its own fields or not at all. -/
theorem Clean.unwraps (hnot : ∀ c, K c → c.unwrapsSingleField = false) (h : Clean K step) :
    Clean K (do
      if ← step then return true
      else if (← get).unwrapsSingleField then next else return false) := by
  intro c hc
  refine (h c hc).bind fun verdict c' hc' => ?_
  cases verdict with
  | true => exact after_pure_iff.mpr hc'
  | false =>
    rw [if_neg Bool.false_ne_true, after_bind_iff, after_get_iff, hnot c' hc'.1]
    exact after_pure_iff.mpr hc'

end

section

variable {t : TypeTable} {unwraps : Bool} {P : TypeId → Prop} {c : Checker} {target source given : TypeId}

theorem bind_clean {check : TypeId → TypeId → Checking Bool} {wildcard : TypeId}
    (hcheck : ∀ bound, P bound → Clean (fun c => c.unwrapsSingleField = unwraps ∧
      c.bindings.AllBound P) (check bound source))
    (hsource : P source) : Clean (fun c => c.unwrapsSingleField = unwraps ∧ c.bindings.AllBound P)
      (Checking.bind t check wildcard source) := by
  rintro c ⟨hunwraps, hbound⟩
  have htaken := taking_allBound (t := t) hbound wildcard fun _ => hsource
  simp only [After, bind_apply]
  cases htaking : taking t c.bindings wildcard source with
  | done bindings =>
    rw [htaking] at htaken
    rintro _ _ ⟨⟩
    exact ⟨⟨hunwraps, htaken⟩, fun _ => rfl⟩
  | clash bindings bound attempted =>
    rw [htaking] at htaken
    rintro _ _ ⟨⟩
    exact ⟨⟨hunwraps, htaken⟩, fun hv => absurd hv Bool.false_ne_true⟩
  | asks bound =>
    rw [htaking] at htaken
    refine After.bind (hcheck bound htaken _ ⟨hunwraps, hbound.introduce wildcard⟩)
      fun verdict c' hc' => ?_
    cases verdict with
    | true => exact after_pure_iff.mpr hc'
    | false =>
      rintro _ _ ⟨⟩
      exact ⟨hc'.1, fun hv => absurd hv Bool.false_ne_true⟩

/-- A comparison that is met meets no conflict, if there is never more than one way to meet a demand
on types with wildcards. The induction is on the levels: conflicts come with wildcards that refuse a
type, and where there is no other way, what asked for it is refused as well. -/
theorem canAssignWithin_clean (hclosed : ∀ id, P id → ∀ part ∈ (t.get id).components, P part)
    (hforks : ∀ a b, P a → P b → t.Forks unwraps a b → Demand.WildcardFree t ⟨a, b⟩) (levels : Nat)
    (target given : TypeId) (htarget : P target) (hgiven : P given) :
    Clean (fun c => c.unwrapsSingleField = unwraps ∧ c.bindings.AllBound P)
      (canAssignWithin t levels target given) := by
  induction levels generalizing target given with
  | zero => exact fun _ _ _ _ hrun => nomatch hrun
  | succ levels ih =>
    rintro c ⟨hunwraps, hbound⟩
    have hsource : P (c.bindings.resolve t given) := hbound.resolve t hgiven
    by_cases hfree : Demand.WildcardFree t ⟨target, c.bindings.resolve t given⟩
    · rw [after_canAssignWithin_resolve_iff (hfree.2 _ .refl)]
      have hdecides := canAssignWithin_decides (levels + 1) hfree.1 hfree.2 c
      have hretains := canAssignWithin_retains (t := t) (levels + 1) target
        (c.bindings.resolve t given) (.refl c)
      intro verdict c' hrun
      have h := hdecides verdict c' hrun
      exact ⟨⟨(hretains verdict c' hrun).unwraps_eq.trans hunwraps, h.bindings_eq ▸ hbound⟩,
        fun _ => h.conflicts_eq⟩
    refine after_canAssignWithin (fun verdict => ⟨⟨hunwraps, hbound⟩, fun _ => rfl⟩)
      (fun _ _ => bind_clean (fun bound hb => ih bound _ hb hsource) hsource c ⟨hunwraps, hbound⟩)
      fun _ _ => ?_
    generalize c.bindings.resolve t given = source at hsource hfree
    have hone : ¬ t.Forks unwraps target source := fun h => hfree (hforks _ _ htarget hsource h)
    have hparts : Clean (fun c => c.unwrapsSingleField = unwraps ∧ c.bindings.AllBound P)
        (compareParts t (canAssignWithin t levels) ⟨target, source⟩) := by
      refine compareParts_composes (Q := fun step _ => Clean _ step) (canAssignWithin t levels)
        (canAssignWithin t levels) hclosed (fun a b ha hb => ih a b ha hb) htarget hsource
        ⟨clean_pure, .and⟩ (fun hhandlers hmore => absurd (.inl ⟨hhandlers, hmore⟩) hone)
        fun hinside => ?_
      have hnot : unwraps = false := by
        cases unwraps with
        | false => rfl
        | true => exact absurd (.inr ⟨rfl, hinside⟩) hone
      intro _ _ _ _ h _
      exact Clean.unwraps (fun c hc => hc.1.trans hnot) h
    refine after_examine_iff.mpr ((hparts (c.assume ⟨target, source⟩) ⟨hunwraps, hbound⟩).mono
      fun verdict c' hc' => ?_)
    cases verdict with
    | true => exact hc'
    | false => exact ⟨hc'.1, fun hv => nomatch hv⟩

end

end MessageLang
