import MessageLang.Proofs.Assign.Composing

namespace MessageLang

open Checking Checker

/-- Two checkers answer the same to a step if both do, and are related after it. -/
def AlikeAt (R : Checker → Checker → Prop) (step : Checking Bool) (c d : Checker) : Prop :=
  After step c fun v c' => After step d fun w d' => v = w ∧ R c' d'

/-- Related checkers answer the same to a step and stay related. -/
def Alike (R : Checker → Checker → Prop) (step : Checking Bool) : Prop :=
  ∀ c d, R c d → AlikeAt R step c d

section

variable {R S : Checker → Checker → Prop} {c d : Checker} {step next : Checking Bool}

theorem alikeAt_pure (verdict : Bool) (h : R c d) : AlikeAt R (pure verdict) c d :=
  after_pure_iff.mpr (after_pure_iff.mpr ⟨rfl, h⟩)

/-- After a step that two checkers answer the same, they go on the same way. -/
theorem AlikeAt.bind {next : Bool → Checking Bool} (h : AlikeAt R step c d)
    (hnext : ∀ verdict c' d', R c' d' → AlikeAt S (next verdict) c' d') :
    AlikeAt S (step >>= next) c d := by
  rw [AlikeAt, after_bind_iff]
  intro v c₁ hc₁ v' c' hc'
  rw [after_bind_iff]
  intro w d₁ hd₁ w' d' hd'
  obtain ⟨rfl, hr₁⟩ := h v c₁ hc₁ w d₁ hd₁
  exact hnext v c₁ d₁ hr₁ v' c' hc' w' d' hd'

theorem alike_pure (verdict : Bool) : Alike R (pure verdict) :=
  fun _ _ hr => alikeAt_pure verdict hr

theorem Alike.bind {next : Bool → Checking Bool} (h : Alike R step)
    (hnext : ∀ verdict, Alike R (next verdict)) : Alike R (step >>= next) :=
  fun c d hr => (h c d hr).bind hnext

theorem Alike.and (h : Alike R step) (h' : Alike R next) :
    Alike R (do if ← step then next else return false) := by
  refine h.bind fun verdict => ?_
  cases verdict with
  | true => exact h'
  | false => exact alike_pure false

theorem Alike.or (h : Alike R step) (h' : Alike R next) :
    Alike R (do if ← step then return true else next) := by
  refine h.bind fun verdict => ?_
  cases verdict with
  | true => exact alike_pure true
  | false => exact h'

theorem Alike.unwraps (hsame : ∀ c d, R c d → c.unwrapsSingleField = d.unwrapsSingleField)
    (h : Alike R step) (h' : Alike R next) :
    Alike R (do
      if ← step then return true
      else if (← get).unwrapsSingleField then next else return false) := by
  refine h.or fun c d hr => ?_
  simp only [AlikeAt, after_bind_iff, after_get_iff, hsame c d hr]
  cases d.unwrapsSingleField with
  | true => exact h' c d hr
  | false => exact alikeAt_pure false hr

end

section

variable {t : TypeTable} {R : Checker → Checker → Prop} {P : TypeId → Prop}
  {check : TypeId → TypeId → Checking Bool} {target source : TypeId}

theorem compareParts_alike (hclosed : ∀ id, P id → ∀ part ∈ (t.get id).components, P part)
    (hcheck : ∀ a b, P a → P b → Alike R (check a b))
    (hsame : ∀ c d, R c d → c.unwrapsSingleField = d.unwrapsSingleField) (htarget : P target)
    (hsource : P source) : Alike R (compareParts t check ⟨target, source⟩) :=
  compareParts_composes (Q := fun step _ => Alike R step) check check hclosed hcheck htarget hsource
    ⟨alike_pure, .and⟩ (fun _ _ => .or) fun _ => .unwraps hsame

variable {demand : Demand} {c d : Checker}

theorem after_examine_iff {post : Bool → Checker → Prop} :
    After (examine t check demand) c post ↔
      After (compareParts t check demand) (c.assume demand) fun verdict c' =>
        post verdict (if verdict then c' else c'.refuse c.verdicts.length demand) := by
  have happly : After (examine t check demand) c post ↔ After (do
      let verdict ← compareParts t check demand
      modify fun (c' : Checker) => if verdict then c' else c'.refuse c.verdicts.length demand
      return verdict) (c.assume demand) post := by
    simp only [After, examine_apply]
  simp only [happly, after_bind_iff, after_modify_iff, after_pure_iff]

/-- Two checkers that compare the parts of two types alike, while they assume that the one takes
the other, decide alike. -/
theorem examine_alike {S : Checker → Checker → Prop}
    (hparts : Alike S (compareParts t check demand))
    (hassumed : S (c.assume demand) (d.assume demand)) (hmet : ∀ c' d', S c' d' → R c' d')
    (hrefused : ∀ c' d', S c' d' →
      R (c'.refuse c.verdicts.length demand) (d'.refuse d.verdicts.length demand)) :
    AlikeAt R (examine t check demand) c d := by
  rw [AlikeAt, after_examine_iff]
  intro v c' hc'
  rw [after_examine_iff]
  intro w d' hd'
  obtain ⟨rfl, hs⟩ := hparts _ _ hassumed v c' hc' w d' hd'
  cases v with
  | true => exact ⟨rfl, hmet c' d' hs⟩
  | false => exact ⟨rfl, hrefused c' d' hs⟩

/-- A comparison is over at once, or a wildcard takes a type, or the parts are compared. -/
theorem after_canAssignWithin_iff {levels : Nat} {given : TypeId} {post : Bool → Checker → Prop} :
    After (canAssignWithin t (levels + 1) target given) c post ↔
      match course t target (c.bindings.resolve t given)
        (c.verdict? ⟨target, c.bindings.resolve t given⟩) with
      | .settled verdict => post verdict c
      | .binding =>
        After (Checking.bind t (canAssignWithin t levels) target (c.bindings.resolve t given)) c post
      | .examination =>
        After (examine t (canAssignWithin t levels) ⟨target, c.bindings.resolve t given⟩) c post := by
  simp only [After, canAssignWithin_succ]
  cases course t target (c.bindings.resolve t given)
    (c.verdict? ⟨target, c.bindings.resolve t given⟩) with
  | settled verdict => simp
  | binding => rfl
  | examination => rfl

/-- What a checker comes to by a demand that is neither settled by what the two types are nor
decided already. -/
theorem canAssignWithin_alike {levels : Nat} {given : TypeId} (hr : R c d)
    (hresolve : c.bindings.resolve t given = source)
    (hresolve' : d.bindings.resolve t given = source)
    (hbind : t.isWildcard target = true →
      AlikeAt R (Checking.bind t (canAssignWithin t levels) target source) c d)
    (hverdict : c.verdict? ⟨target, source⟩ = d.verdict? ⟨target, source⟩)
    (hexamine : c.verdict? ⟨target, source⟩ = none →
      AlikeAt R (examine t (canAssignWithin t levels) ⟨target, source⟩) c d) :
    AlikeAt R (canAssignWithin t (levels + 1) target given) c d := by
  simp only [AlikeAt, after_canAssignWithin_iff, hresolve, hresolve', ← hverdict]
  cases hcourse : course t target source (c.verdict? ⟨target, source⟩) with
  | settled verdict => exact ⟨rfl, hr⟩
  | binding => exact hbind (course_eq_binding hcourse).1
  | examination => exact hexamine (course_eq_examination hcourse).1

end

section

variable {t : TypeTable} {c c' start : Checker} {demand : Demand} {target source given : TypeId}

/-- A checker still has all verdicts that there were, under the same setting. -/
structure Checker.Retains (start c : Checker) : Prop where
  unwraps_eq : c.unwrapsSingleField = start.unwrapsSingleField
  verdicts_suffix : start.verdicts <:+ c.verdicts

theorem Checker.Retains.refl (c : Checker) : c.Retains c := ⟨rfl, List.suffix_refl _⟩

theorem Checker.Retains.trans (h : start.Retains c) (h' : c.Retains c') : start.Retains c' :=
  ⟨h'.unwraps_eq.trans h.unwraps_eq, h.verdicts_suffix.trans h'.verdicts_suffix⟩

theorem Checker.Retains.assume (c : Checker) (demand : Demand) : c.Retains (c.assume demand) :=
  ⟨rfl, List.suffix_cons _ _⟩

/-- Forgetting no more than the verdicts that came later. -/
theorem Checker.Retains.keepVerdicts (h : start.Retains c) {count : Nat}
    (hcount : start.verdicts.length ≤ count) : start.Retains (c.keepVerdicts count) := by
  obtain ⟨new, hnew⟩ := h.verdicts_suffix
  refine ⟨h.unwraps_eq, new.drop (c.verdicts.length - count), ?_⟩
  rw [Checker.keepVerdicts, ← hnew, List.drop_append_of_le_length]
  rw [List.length_append]
  omega

/-- Forgetting what came later leaves the verdicts that there were. -/
theorem Checker.Retains.verdicts_keepVerdicts (h : start.Retains c) :
    (c.keepVerdicts start.verdicts.length).verdicts = start.verdicts := by
  obtain ⟨new, hnew⟩ := h.verdicts_suffix
  simp [Checker.keepVerdicts, ← hnew]

/-- Going back to what there was gives all of it back but the conflicts, which stay. -/
theorem Checker.Retains.rollback_eq (h : start.Retains c) :
    c.rollback start.checkpoint = { start with conflicts := c.conflicts } := by
  rw [rollback, checkpoint, h.verdicts_keepVerdicts, Checker.keepVerdicts, h.unwraps_eq]

/-- Letting a wildcard take a type keeps what does not depend on bindings, nor on conflicts found
later. -/
theorem bind_keeps {P : Checker → Prop} {check : TypeId → TypeId → Checking Bool} {wildcard : TypeId}
    (hset : ∀ (c : Checker) bindings more, P c →
      P { c with bindings, conflicts := c.conflicts ++ more })
    (hcheck : ∀ bound c, P c → After (check bound source) c fun _ c' => P c') (h : P c) :
    After (Checking.bind t check wildcard source) c fun _ c' => P c' := by
  have hbound : ∀ (c : Checker) bindings, P c → P { c with bindings } := fun c bindings hc => by
    simpa using hset c bindings [] hc
  simp only [After, bind_apply]
  cases taking t c.bindings wildcard source with
  | done bindings =>
    rintro _ _ ⟨⟩
    exact hbound c bindings h
  | clash bindings bound attempted =>
    rintro _ _ ⟨⟩
    exact hset c bindings [⟨wildcard, bound, attempted⟩] h
  | asks bound =>
    refine (hcheck bound _ (hbound c (c.bindings.introduce wildcard) h)).bind
      fun verdict c' h' => ?_
    cases verdict with
    | true => exact after_pure_iff.mpr h'
    | false =>
      rw [if_neg Bool.false_ne_true, conflict, after_bind_iff, after_modify_iff, after_pure_iff]
      exact hset c' c'.bindings [⟨wildcard, bound, source⟩] h'

/-- A checker beside itself is a pair of related ones that shows how the one changes. -/
theorem alikeAt_self_iff {K : Checker → Prop} {step : Checking Bool} :
    AlikeAt (fun c d => c = d ∧ K c) step c c ↔ After step c fun _ c' => K c' := by
  constructor
  · exact fun h v c' hrun => (h v c' hrun v c' hrun).2.2
  · intro h v c' hrun w d' hrun'
    obtain ⟨rfl, rfl⟩ := Prod.mk.inj (Except.ok.inj (hrun.symm.trans hrun'))
    exact ⟨rfl, rfl, h v c' hrun⟩

/-- Letting a wildcard take a type keeps what holds of the bindings when it is done. -/
theorem bind_keepsBindings {K : Bindings → Prop} {P : TypeId → Prop}
    {check : TypeId → TypeId → Checking Bool} {wildcard source : TypeId}
    (htaking : (taking t c.bindings wildcard source).All K P)
    (hintroduced : K (c.bindings.introduce wildcard))
    (hcheck : ∀ bound c, P bound → K c.bindings →
      After (check bound source) c fun _ c' => K c'.bindings) :
    After (Checking.bind t check wildcard source) c fun _ c' => K c'.bindings := by
  simp only [After, bind_apply]
  cases hcase : taking t c.bindings wildcard source with
  | done bindings =>
    rw [hcase] at htaking
    rintro _ _ ⟨⟩
    exact htaking
  | clash bindings bound attempted =>
    rw [hcase] at htaking
    rintro _ _ ⟨⟩
    exact htaking
  | asks bound =>
    rw [hcase] at htaking
    refine (hcheck bound { c with bindings := c.bindings.introduce wildcard } htaking
      hintroduced).bind fun verdict c' hc' => ?_
    cases verdict with
    | true => exact after_pure_iff.mpr hc'
    | false => simpa [conflict] using hc'

theorem compareParts_keeps {K : Checker → Prop} {P : TypeId → Prop}
    {check : TypeId → TypeId → Checking Bool}
    (hclosed : ∀ id, P id → ∀ part ∈ (t.get id).components, P part)
    (hcheck : ∀ a b c, P a → P b → K c → After (check a b) c fun _ c' => K c') (htarget : P target)
    (hsource : P source) (h : K c) :
    After (compareParts t check ⟨target, source⟩) c fun _ c' => K c' := by
  have halike : ∀ a b, P a → P b → Alike (fun c d => c = d ∧ K c) (check a b) := by
    rintro a b ha hb c _ ⟨rfl, hc⟩
    exact alikeAt_self_iff.mpr (hcheck a b c ha hb hc)
  exact alikeAt_self_iff.mp
    (compareParts_alike hclosed halike (fun c d h => h.1 ▸ rfl) htarget hsource c c ⟨rfl, h⟩)

/-- What a comparison comes to: it is over at once, or a wildcard takes a type that has values, or a
demand is examined on which there is no verdict yet, and not of a wildcard that stands for nothing. -/
theorem after_canAssignWithin {levels : Nat} {post : Bool → Checker → Prop}
    (hsame : ∀ verdict, post verdict c)
    (hbind : t.isWildcard target = true → t.isNothing (c.bindings.resolve t given) = false →
      After (Checking.bind t (canAssignWithin t levels) target (c.bindings.resolve t given)) c post)
    (hexamine : c.verdict? ⟨target, c.bindings.resolve t given⟩ = none →
      t.isWildcard (c.bindings.resolve t given) = false →
      After (examine t (canAssignWithin t levels) ⟨target, c.bindings.resolve t given⟩) c post) :
    After (canAssignWithin t (levels + 1) target given) c post := by
  rw [after_canAssignWithin_iff]
  split
  · exact hsame _
  · next hcourse => exact hbind (course_eq_binding hcourse).1 (course_eq_binding hcourse).2
  · next hcourse =>
    obtain ⟨hnone, -, hsource⟩ := course_eq_examination hcourse
    exact hexamine hnone hsource

/-- What a comparison of types of a sort keeps, between the checker that there was at some time and
the one there is: it is enough that a wildcard that takes a type keeps it, and the examination of a
demand on which there is no verdict yet. The examination is a time of its own, from when the demand
is assumed. -/
theorem canAssignWithin_keepsAmong {K : Checker → Checker → Prop} {P : TypeId → Prop}
    (hclosed : ∀ id, P id → ∀ part ∈ (t.get id).components, P part)
    (hbound : ∀ start c, K start c → c.bindings.AllBound P)
    (hbind : ∀ start wildcard source check c, t.isWildcard wildcard = true → P wildcard → P source →
      t.isNothing source = false →
      (∀ bound c, P bound → K start c → After (check bound source) c fun _ c' => K start c') →
        K start c → After (Checking.bind t check wildcard source) c fun _ c' => K start c')
    (hassume : ∀ start c demand, K start c → c.verdict? demand = none →
      t.isWildcard demand.source = false → P demand.target ∧ P demand.source →
        K start (c.assume demand) ∧ K (c.assume demand) (c.assume demand))
    (hrefuse : ∀ start c c' demand, K start c → c.verdict? demand = none →
      t.isWildcard demand.source = false → P demand.target ∧ P demand.source → K start c' →
        K (c.assume demand) c' → K start (c'.refuse c.verdicts.length demand))
    (levels : Nat) (start : Checker) (target given : TypeId) (htarget : P target) (hgiven : P given)
    (h : K start c) : After (canAssignWithin t levels target given) c fun _ c' => K start c' := by
  induction levels generalizing start c target given with
  | zero => exact fun _ _ hrun => nomatch hrun
  | succ levels ih =>
    have hsource : P (c.bindings.resolve t given) := (hbound start c h).resolve t hgiven
    refine after_canAssignWithin (fun _ => h) (fun hwild hvalued => ?_) fun hnone hsettled => ?_
    · exact hbind start _ _ _ c hwild htarget hsource hvalued
        (fun bound c hb hc => ih start bound _ hb hsource hc) h
    · refine after_examine_iff.mpr ?_
      refine (compareParts_keeps (P := P)
        (K := fun c' => K start c' ∧ K (c.assume ⟨target, c.bindings.resolve t given⟩) c')
        hclosed (fun a b c' ha hb hc v c'' hrun => ?_) htarget hsource
        (hassume start c _ h hnone hsettled ⟨htarget, hsource⟩)).mono fun verdict c' hc' => ?_
      · exact ⟨ih start a b ha hb hc.1 v c'' hrun, ih (c.assume _) a b ha hb hc.2 v c'' hrun⟩
      cases verdict with
      | true => exact hc'.1
      | false => exact hrefuse start c c' _ h hnone hsettled ⟨htarget, hsource⟩ hc'.1 hc'.2

/-- What a comparison of any types keeps. -/
theorem canAssignWithin_keeps {K : Checker → Checker → Prop}
    (hbind : ∀ start wildcard source check c, t.isNothing source = false →
      (∀ bound c, K start c → After (check bound source) c fun _ c' => K start c') →
        K start c → After (Checking.bind t check wildcard source) c fun _ c' => K start c')
    (hassume : ∀ start c demand, K start c → c.verdict? demand = none →
      t.isWildcard demand.source = false →
        K start (c.assume demand) ∧ K (c.assume demand) (c.assume demand))
    (hrefuse : ∀ start c c' demand, K start c → c.verdict? demand = none →
      t.isWildcard demand.source = false → K start c' → K (c.assume demand) c' →
        K start (c'.refuse c.verdicts.length demand))
    (levels : Nat) (start : Checker) (target given : TypeId) (h : K start c) :
    After (canAssignWithin t levels target given) c fun _ c' => K start c' :=
  canAssignWithin_keepsAmong (P := fun _ => True) (fun _ _ _ _ => trivial)
    (fun _ _ _ _ _ _ _ => trivial)
    (fun start wildcard source check c _ _ _ hvalued hcheck =>
      hbind start wildcard source check c hvalued fun bound c => hcheck bound c trivial)
    (fun start c demand h hnone hsettled _ => hassume start c demand h hnone hsettled)
    (fun start c c' demand h hnone hsettled _ => hrefuse start c c' demand h hnone hsettled)
    levels start target given trivial trivial h

/-- No comparison forgets a verdict that there was before. -/
theorem canAssignWithin_retains (levels : Nat) (target given : TypeId) (h : start.Retains c) :
    After (canAssignWithin t levels target given) c fun _ c' => start.Retains c' := by
  refine canAssignWithin_keeps (K := Checker.Retains)
    (fun _ _ _ _ _ _ => bind_keeps fun _ _ _ h => ⟨h.unwraps_eq, h.verdicts_suffix⟩)
    (fun _ c demand h _ _ => ⟨h.trans (.assume c demand), .refl _⟩)
    (fun _ _ _ _ h _ _ hkept _ => ?_) levels start target given h
  have hkept := hkept.keepVerdicts h.verdicts_suffix.length_le
  exact ⟨hkept.unwraps_eq, hkept.verdicts_suffix.trans (List.suffix_cons _ _)⟩

theorem canAssign_retains (t : TypeTable) (target given : TypeId) (c : Checker) :
    After (canAssign t target given) c fun _ c' => c.Retains c' :=
  canAssignWithin_retains _ target given (.refl c)

end

end MessageLang
