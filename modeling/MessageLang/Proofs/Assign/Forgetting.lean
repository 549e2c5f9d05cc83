import MessageLang.Proofs.Assign.Alike
import MessageLang.Proofs.Assign.Session

namespace MessageLang

open Checking Checker

section

variable {t : TypeTable} {unwraps : Bool} {c c' : Checker} {demand : Demand} {target given : TypeId}

/-- One checker has come from another by nothing but deciding on types without wildcards. -/
structure Checker.Decides (t : TypeTable) (c c' : Checker) : Prop where
  bindings_eq : c'.bindings = c.bindings
  conflicts_eq : c'.conflicts = c.conflicts
  fresh : ∃ new, c'.verdicts = new ++ c.verdicts ∧ ∀ entry ∈ new, entry.1.WildcardFree t

theorem Checker.Decides.refl (c : Checker) : c.Decides t c := ⟨rfl, rfl, [], rfl, by simp⟩

theorem Checker.Decides.assume (h : c.Decides t c') (hfree : demand.WildcardFree t) :
    c.Decides t (c'.assume demand) := by
  obtain ⟨new, hnew, hall⟩ := h.fresh
  refine ⟨h.bindings_eq, h.conflicts_eq, (demand, true) :: new, ?_,
    List.forall_mem_cons.mpr ⟨hfree, hall⟩⟩
  rw [Checker.assume, hnew, List.cons_append]

/-- What was decided before a demand was assumed is kept when it turns out not to be met. -/
theorem Checker.Decides.refuse (h : c.Decides t c') (hfree : demand.WildcardFree t) {before : Nat}
    (hbefore : c.verdicts.length ≤ before) : c.Decides t (c'.refuse before demand) := by
  obtain ⟨new, hnew, hall⟩ := h.fresh
  have hdrop : (c'.keepVerdicts before).verdicts =
      new.drop (new.length + c.verdicts.length - before) ++ c.verdicts := by
    rw [keepVerdicts, hnew, List.length_append, List.drop_append_of_le_length (by omega)]
  refine ⟨h.bindings_eq, h.conflicts_eq,
    (demand, false) :: new.drop (new.length + c.verdicts.length - before), ?_,
    List.forall_mem_cons.mpr ⟨hfree, fun entry hentry => hall entry (List.mem_of_mem_drop hentry)⟩⟩
  rw [Checker.refuse, hdrop, List.cons_append]

theorem Checker.Decides.verdict?_eq (h : c.Decides t c') (hfree : ¬ demand.WildcardFree t) :
    c'.verdict? demand = c.verdict? demand := by
  obtain ⟨new, hnew, hall⟩ := h.fresh
  have hnone : new.lookup demand = none := by
    rw [List.lookup_eq_none_iff]
    intro entry hentry
    rw [bne_iff_ne]
    rintro rfl
    exact hfree (hall entry hentry)
  rw [verdict?, verdict?, hnew, List.lookup_append, hnone, Option.none_or]

/-- Comparing types without wildcards decides on nothing else and binds no wildcard. -/
theorem canAssignWithin_decides (levels : Nat) (htarget : t.WildcardFree target)
    (hgiven : t.WildcardFree given) (c : Checker) :
    After (canAssignWithin t levels target given) c fun _ c' => c.Decides t c' := by
  -- a checker beside itself is a pair of related ones that shows how the one changes
  suffices halike : ∀ (start : Checker) (target given : TypeId), t.WildcardFree target →
      t.WildcardFree given →
        Alike (fun c d => c = d ∧ start.Decides t c) (canAssignWithin t levels target given) by
    intro v c' hrun
    exact (halike c target given htarget hgiven c c ⟨rfl, .refl c⟩ v c' hrun v c' hrun).2.2
  induction levels with
  | zero => exact fun _ _ _ _ _ _ _ _ _ _ hrun => nomatch hrun
  | succ levels ih =>
    rintro start target given htarget hgiven c _ ⟨rfl, hstart⟩
    have hresolve : c.bindings.resolve t given = given :=
      Bindings.resolve_of_not_wildcard (hgiven given .refl)
    have hfree : Demand.WildcardFree t ⟨target, given⟩ := ⟨htarget, hgiven⟩
    have hlength : start.verdicts.length ≤ c.verdicts.length := by
      obtain ⟨new, hnew, -⟩ := hstart.fresh
      simp [hnew]
    refine canAssignWithin_alike ⟨rfl, hstart⟩ hresolve hresolve (fun hwild => ?_) rfl fun _ => ?_
    · rw [htarget target .refl] at hwild
      cases hwild
    · refine examine_alike (compareParts_alike (fun _ h _ hpart => h.of_component hpart) (ih start)
        (fun c d h => h.1 ▸ rfl) htarget hgiven) ⟨rfl, hstart.assume hfree⟩ (fun _ _ h => h) ?_
      rintro c' _ ⟨rfl, h⟩
      exact ⟨rfl, h.refuse hfree hlength⟩

/-- What a checker can rely on while it examines types with wildcards: no assumption is open on
types without any. -/
structure Checker.Reliable (t : TypeTable) (unwraps : Bool) (demands : Nat) (c : Checker) :
    Prop where
  consistent : c.Consistent t unwraps
  verdicts_hold : VerdictsHold t unwraps c
  open_le : c.openDemands t ≤ demands

variable {demands : Nat}

theorem Checker.Reliable.grow (h : c.Reliable t unwraps demands) (hc' : c'.Consistent t unwraps)
    (hgrows : c.Grows t c') : c'.Reliable t unwraps demands where
  consistent := hc'
  verdicts_hold := h.verdicts_hold.grow h.consistent hgrows
  open_le := (openDemands_le_of_suffix hgrows.verdicts_suffix).trans h.open_le

theorem Checker.Reliable.assume (h : c.Reliable t unwraps demands) (hfree : ¬ demand.WildcardFree t)
    (htarget : demand.target.index < t.size) (hsource : demand.source.index < t.size)
    (hnone : c.verdict? demand = none) : (c.assume demand).Reliable t unwraps (demands - 1) where
  consistent := h.consistent.assume htarget hsource
  verdicts_hold d hd hd' := by
    rcases List.mem_cons.mp hd with heq | hd
    · cases heq
      exact absurd hd' hfree
    · exact h.verdicts_hold d hd hd'
  open_le := Nat.le_sub_one_of_lt ((openDemands_assume_lt htarget hsource hnone).trans_le h.open_le)

/-- A reliable checker ends a comparison, stays reliable, and is right on types without
wildcards. -/
theorem Checker.Reliable.canAssignWithin_ends (h : c.Reliable t unwraps demands)
    (hclosed : t.Closed) {levels : Nat} (htarget : target.index < t.size) (hgiven : given.index < t.size)
    (hlevels : 2 * demands + 1 + (if t.isWildcard target then 1 else 0) ≤ levels) :
    Ends (canAssignWithin t levels target given) c fun verdict c' => c'.Reliable t unwraps demands ∧
      c.verdicts <:+ c'.verdicts ∧ (t.WildcardFree target → t.WildcardFree given →
        (verdict = true ↔ t.Assignable unwraps target given)) := by
  refine (MessageLang.canAssignWithin_ends hclosed htarget hgiven hlevels h.consistent
    h.open_le).mono fun verdict c' ⟨hc', hgrows, hyes, hno⟩ => ?_
  have hc'' := h.grow hc' hgrows
  refine ⟨hc'', hgrows.verdicts_suffix, fun ht hg => ⟨fun hv => ?_, hno ht hg⟩⟩
  exact (hyes hv ht hg).assignable hc' hc''.verdicts_hold ht hg

end

section

variable {t : TypeTable} {unwraps : Bool} {demands : Nat} {P : TypeId → Prop} {c c' d d' : Checker}
  {demand : Demand} {target given source : TypeId}

/-- Two checkers know the same of wildcards, and of a sort of types with wildcards they have decided
the same. -/
structure Checker.Abreast (t : TypeTable) (P : TypeId → Prop) (c d : Checker) : Prop where
  bindings_eq : c.bindings = d.bindings
  conflicts_eq : c.conflicts = d.conflicts
  bound : c.bindings.AllBound P
  verdict?_eq : ∀ demand : Demand, P demand.target → P demand.source → ¬ demand.WildcardFree t →
    c.verdict? demand = d.verdict? demand

/-- Verdicts on types without wildcards make no difference. -/
theorem Checker.Abreast.decides (h : c.Abreast t P d) (hc : c.Decides t c') (hd : d.Decides t d') :
    c'.Abreast t P d' where
  bindings_eq := by rw [hc.bindings_eq, hd.bindings_eq, h.bindings_eq]
  conflicts_eq := by rw [hc.conflicts_eq, hd.conflicts_eq, h.conflicts_eq]
  bound := hc.bindings_eq ▸ h.bound
  verdict?_eq e ht hs hfree := by
    rw [hc.verdict?_eq hfree, hd.verdict?_eq hfree, h.verdict?_eq e ht hs hfree]

/-- The same verdict is entered on top of verdicts that are the same as far as it matters. -/
theorem Checker.Abreast.enter (h : c.Abreast t P d) (hc' : c'.bindings = d'.bindings)
    (hconflicts : c'.conflicts = d'.conflicts) (hbound : c'.bindings.AllBound P) {verdict : Bool}
    (hc : c'.verdicts = (demand, verdict) :: c.verdicts)
    (hd : d'.verdicts = (demand, verdict) :: d.verdicts) : c'.Abreast t P d' where
  bindings_eq := hc'
  conflicts_eq := hconflicts
  bound := hbound
  verdict?_eq e ht hs hfree := by
    have hsame := h.verdict?_eq e ht hs hfree
    rw [verdict?, verdict?] at hsame
    rw [verdict?, verdict?, hc, hd, List.lookup_cons, List.lookup_cons, hsame]

theorem Checker.Reliable.withBindings (h : c.Reliable t unwraps demands) {b : Bindings}
    (hlt : b.AllBound (·.index < t.size)) (hknown : b.AllBound (t.isWildcard · = false)) :
    ({ c with bindings := b } : Checker).Reliable t unwraps demands where
  consistent := ⟨h.consistent.unwraps_eq, hlt, hknown, h.consistent.demand_lt, h.consistent.refuted⟩
  verdicts_hold := h.verdicts_hold
  open_le := h.open_le

theorem Checker.Abreast.withBindings (h : c.Abreast t P d) {b : Bindings} (hb : b.AllBound P) :
    ({ c with bindings := b } : Checker).Abreast t P { d with bindings := b } :=
  ⟨rfl, h.conflicts_eq, hb, h.verdict?_eq⟩

theorem Checker.Abreast.conflict (h : c.Abreast t P d) (wildcard bound attempted : TypeId) :
    AlikeAt (Abreast t P) (Checking.conflict wildcard bound attempted) c d := by
  simp only [Checking.conflict, AlikeAt, after_bind_iff, after_modify_iff, after_pure_iff, true_and]
  exact ⟨h.bindings_eq, by simp [h.conflicts_eq], h.bound, h.verdict?_eq⟩

theorem bind_alike {check : TypeId → TypeId → Checking Bool} {wildcard : TypeId}
    (hcheck : ∀ bound, P bound → t.isWildcard bound = false → ∀ c d : Checker,
      c.Reliable t unwraps demands → d.Reliable t unwraps demands → c.Abreast t P d →
        AlikeAt (Abreast t P) (check bound source) c d)
    (hsource : P source) (hc : c.Reliable t unwraps demands) (hd : d.Reliable t unwraps demands)
    (h : c.Abreast t P d) : AlikeAt (Abreast t P) (Checking.bind t check wildcard source) c d := by
  have htaking := (taking_allBound h.bound wildcard fun _ => hsource).and
    (taking_allBound (t := t) hc.consistent.bound_known wildcard id)
  simp only [AlikeAt, After, bind_apply, ← h.bindings_eq]
  cases hcase : taking t c.bindings wildcard source with
  | done bindings =>
    rw [hcase] at htaking
    rintro _ _ ⟨⟩ _ _ ⟨⟩
    exact ⟨rfl, h.withBindings htaking.1⟩
  | clash bindings bound attempted =>
    rw [hcase] at htaking
    exact (h.withBindings htaking.1).conflict wildcard bound attempted
  | asks bound =>
    rw [hcase] at htaking
    have hlt := hc.consistent.bound_lt.introduce wildcard
    have hknown := hc.consistent.bound_known.introduce wildcard
    refine AlikeAt.bind (hcheck bound htaking.1 htaking.2 _ _ (hc.withBindings hlt hknown)
      (hd.withBindings hlt hknown) (h.withBindings (h.bound.introduce wildcard)))
      fun verdict c' d' h' => ?_
    cases verdict with
    | true => exact alikeAt_pure true h'
    | false => exact h'.conflict wildcard bound source

/-- A type that is bound is compared as what it stands for in the end. -/
theorem after_canAssignWithin_resolve_iff {levels : Nat} {post : Bool → Checker → Prop}
    (hknown : t.isWildcard (c.bindings.resolve t given) = false) :
    After (canAssignWithin t (levels + 1) target given) c post ↔
      After (canAssignWithin t (levels + 1) target (c.bindings.resolve t given)) c post := by
  simp only [canAssignWithin, after_bind_iff, after_get_iff,
    Bindings.resolve_of_not_wildcard hknown]

/-- Two reliable checkers that are abreast, each of which has only added verdicts since. -/
structure Checker.Paired (t : TypeTable) (unwraps : Bool) (P : TypeId → Prop) (demands : Nat)
    (start start' c d : Checker) : Prop where
  left : c.Reliable t unwraps demands
  right : d.Reliable t unwraps demands
  abreast : c.Abreast t P d
  left_suffix : start.verdicts <:+ c.verdicts
  right_suffix : start'.verdicts <:+ d.verdicts

/-- An assumption that turns out wrong goes with all that was decided since. -/
theorem Checker.refuse_verdicts (h : (c.assume demand).verdicts <:+ c'.verdicts) :
    (c'.refuse c.verdicts.length demand).verdicts = (demand, false) :: c.verdicts := by
  obtain ⟨new, hnew⟩ := (List.suffix_cons _ _).trans h
  simp [Checker.refuse, keepVerdicts, ← hnew]

variable (hclosed : t.Closed) (hlt : ∀ id, P id → id.index < t.size)

include hclosed hlt

/-- Comparing types without wildcards comes to the same whatever was decided before. -/
theorem Checker.Abreast.alikeAt_of_wildcardFree (h : c.Abreast t P d)
    (hc : c.Reliable t unwraps demands) (hd : d.Reliable t unwraps demands) {levels : Nat}
    (hpt : P target) (hpg : P given) (ht : t.WildcardFree target) (hg : t.WildcardFree given)
    (hlevels : 2 * demands + 1 + (if t.isWildcard target then 1 else 0) ≤ levels) :
    AlikeAt (Abreast t P) (canAssignWithin t levels target given) c d := by
  intro v c' hrun w d' hrun'
  obtain ⟨_, _, heq, -, -, hiff⟩ :=
    ends_iff.mp (hc.canAssignWithin_ends hclosed (hlt _ hpt) (hlt _ hpg) hlevels)
  obtain ⟨_, _, heq', -, -, hiff'⟩ :=
    ends_iff.mp (hd.canAssignWithin_ends hclosed (hlt _ hpt) (hlt _ hpg) hlevels)
  cases hrun.symm.trans heq
  cases hrun'.symm.trans heq'
  exact ⟨Bool.eq_iff_iff.mpr ((hiff ht hg).trans (hiff' ht hg).symm),
    h.decides (canAssignWithin_decides levels ht hg c _ _ hrun)
      (canAssignWithin_decides levels ht hg d _ _ hrun')⟩

/-- Checkers that are abreast before they compare two types are so afterwards. The induction is on
the levels; with each examination an assumption about types with wildcards is open in both. -/
theorem canAssignWithin_abreast (hparts : ∀ id, P id → ∀ part ∈ (t.get id).components, P part)
    (levels : Nat) : ∀ (demands : Nat) (target given : TypeId), P target → P given →
      2 * demands + 1 + (if t.isWildcard target then 1 else 0) ≤ levels → ∀ c d : Checker,
      c.Reliable t unwraps demands → d.Reliable t unwraps demands → c.Abreast t P d →
        AlikeAt (Abreast t P) (canAssignWithin t levels target given) c d := by
  induction levels with
  | zero => intro demands target given _ _ hlevels; omega
  | succ levels ih =>
    intro demands target given hpt hpg hlevels c d hc hd h
    have hps : P (c.bindings.resolve t given) := h.bound.resolve t hpg
    by_cases hfree : Demand.WildcardFree t ⟨target, c.bindings.resolve t given⟩
    · have hknown := hfree.2 _ .refl
      rw [AlikeAt, after_canAssignWithin_resolve_iff hknown]
      refine (h.alikeAt_of_wildcardFree hclosed hlt hc hd hpt hps hfree.1 hfree.2 hlevels).mono
        fun v c' hd' => ?_
      rw [h.bindings_eq] at hknown hd'
      exact (after_canAssignWithin_resolve_iff hknown).mpr hd'
    refine canAssignWithin_alike h rfl (h.bindings_eq ▸ rfl) (fun hwild => ?_)
      (h.verdict?_eq _ hpt hps hfree) fun hnone => ?_
    · rw [if_pos hwild] at hlevels
      refine bind_alike (fun bound hpb hknown => ih demands bound _ hpb hps ?_) hps hc hd h
      simp only [hknown, Bool.false_eq_true, if_false]
      omega
    generalize c.bindings.resolve t given = source at hps hfree hnone
    have hnone' : d.verdict? ⟨target, source⟩ = none := h.verdict?_eq _ hpt hps hfree ▸ hnone
    have hpositive : 0 < demands := Nat.zero_lt_of_lt
      ((openDemands_assume_lt (hlt _ hpt) (hlt _ hps) hnone).trans_le hc.open_le)
    have hcheck : ∀ a b, P a → P b →
        Alike (Paired t unwraps P (demands - 1) (c.assume ⟨target, source⟩)
          (d.assume ⟨target, source⟩)) (canAssignWithin t levels a b) := by
      intro a b hpa hpb x y hxy v x' hrun w y' hrun'
      have hlevels' : 2 * (demands - 1) + 1 + (if t.isWildcard a then 1 else 0) ≤ levels := by
        split <;> omega
      obtain ⟨_, _, heq, hx', hsuffix, -⟩ :=
        ends_iff.mp (hxy.left.canAssignWithin_ends hclosed (hlt _ hpa) (hlt _ hpb) hlevels')
      obtain ⟨_, _, heq', hy', hsuffix', -⟩ :=
        ends_iff.mp (hxy.right.canAssignWithin_ends hclosed (hlt _ hpa) (hlt _ hpb) hlevels')
      obtain ⟨hv, habreast⟩ := ih (demands - 1) a b hpa hpb hlevels' x y hxy.left hxy.right
        hxy.abreast v x' hrun w y' hrun'
      cases hrun.symm.trans heq
      cases hrun'.symm.trans heq'
      exact ⟨hv, hx', hy', habreast, hxy.left_suffix.trans hsuffix, hxy.right_suffix.trans hsuffix'⟩
    refine examine_alike (compareParts_alike hparts hcheck (fun x y hxy => ?_) hpt hps) ?_
      (fun _ _ hxy => hxy.abreast) fun x y hxy => ?_
    · rw [hxy.left.consistent.unwraps_eq, hxy.right.consistent.unwraps_eq]
    · exact ⟨hc.assume hfree (hlt _ hpt) (hlt _ hps) hnone,
        hd.assume hfree (hlt _ hpt) (hlt _ hps) hnone',
        h.enter h.bindings_eq h.conflicts_eq h.bound rfl rfl, List.suffix_refl _,
        List.suffix_refl _⟩
    · exact h.enter hxy.abreast.bindings_eq hxy.abreast.conflicts_eq hxy.abreast.bound
        (refuse_verdicts hxy.left_suffix) (refuse_verdicts hxy.right_suffix)

end

/-- What a comparison of two types may come to: parts of these, and of what wildcards stand for. -/
def Checker.Involves (c : Checker) (t : TypeTable) (target source id : TypeId) : Prop :=
  ∃ root, (root = target ∨ root = source ∨ ∃ cls ∈ c.bindings, cls.binding = some root) ∧
    Relation.ReflTransGen (fun whole part => part ∈ (t.get whole).components) root id

section

variable {t : TypeTable} {s : Session} {c : Checker} {target source id part : TypeId}

theorem Checker.Involves.component (h : c.Involves t target source id)
    (hpart : part ∈ (t.get id).components) : c.Involves t target source part := by
  obtain ⟨root, hroot, hreach⟩ := h
  exact ⟨root, hroot, hreach.tail hpart⟩

/-- What types lead to, those that are compared and those that are bound. -/
theorem Checker.Involves.of_closed {P : TypeId → Prop} (h : c.Involves t target source id)
    (hclosed : ∀ id, P id → ∀ part ∈ (t.get id).components, P part) (htarget : P target)
    (hsource : P source) (hbound : c.bindings.AllBound P) : P id := by
  obtain ⟨root, hroot, hreach⟩ := h
  induction hreach with
  | refl =>
    rcases hroot with rfl | rfl | ⟨cls, hcls, hbinding⟩
    · exact htarget
    · exact hsource
    · exact hbound cls hcls root hbinding
  | tail _ hpart ih => exact hclosed _ ih _ hpart

theorem Checker.Involves.lt (h : c.Involves t target source id) (hclosed : t.Closed)
    (htarget : target.index < t.size) (hsource : source.index < t.size)
    (hbound : c.bindings.AllBound (·.index < t.size)) : id.index < t.size :=
  h.of_closed (P := fun id => id.index < t.size) (fun _ _ _ => hclosed.component_lt) htarget hsource
    hbound

/-- At any time between calls, a comparison comes to the same as with all verdicts forgotten, the
wildcards it binds and the conflicts it finds included, as long as none of the verdicts on what it
may come to is about types with wildcards. -/
theorem canAssign_eq_of_forgotten (h : Session.Reached t s) (htarget : target.index < t.size)
    (hsource : source.index < t.size)
    (hverdicts : ∀ entry ∈ s.checker.verdicts, s.checker.Involves t target source entry.1.target →
      s.checker.Involves t target source entry.1.source → entry.1.WildcardFree t) :
    ∃ verdict c d, canAssign t target source s.checker = .ok (verdict, c) ∧
      canAssign t target source (s.checker.keepVerdicts 0) = .ok (verdict, d) ∧
      c.bindings = d.bindings ∧ c.conflicts = d.conflicts := by
  obtain ⟨hclosed, hc, hhold, -⟩ := h.sound
  have hforgotten : (s.checker.keepVerdicts 0).verdicts = [] := by simp [keepVerdicts]
  have hleft : s.checker.Reliable t s.checker.unwrapsSingleField (t.size * t.size) :=
    ⟨hc, hhold, openDemands_le t _⟩
  have hright : (s.checker.keepVerdicts 0).Reliable t s.checker.unwrapsSingleField
      (t.size * t.size) := by
    refine ⟨⟨hc.unwraps_eq, hc.bound_lt, hc.bound_known, ?_, ?_⟩, ?_, openDemands_le t _⟩ <;>
      simp [hforgotten, VerdictsHold]
  have habreast : s.checker.Abreast t (s.checker.Involves t target source)
      (s.checker.keepVerdicts 0) := by
    refine ⟨rfl, rfl, fun cls hcls bound hb => ⟨bound, .inr (.inr ⟨cls, hcls, hb⟩), .refl⟩,
      fun demand ht hs hfree => ?_⟩
    rw [verdict?, verdict?, hforgotten, List.lookup_nil, List.lookup_eq_none_iff]
    intro entry hentry
    rw [bne_iff_ne]
    rintro rfl
    exact hfree (hverdicts entry hentry ht hs)
  obtain ⟨v, c, hrun, -⟩ := ends_iff.mp (canAssign_ends hclosed htarget hsource hc)
  obtain ⟨w, d, hrun', -⟩ := ends_iff.mp (canAssign_ends hclosed htarget hsource hright.consistent)
  obtain ⟨rfl, h'⟩ := canAssignWithin_abreast hclosed
    (fun _ hid => Involves.lt hid hclosed htarget hsource hc.bound_lt)
    (fun _ hid _ => hid.component) _ _ target source ⟨target, .inl rfl, .refl⟩
    ⟨source, .inr (.inl rfl), .refl⟩ (levels_le t target) _ _ hleft hright habreast v c hrun w d
    hrun'
  exact ⟨v, c, d, hrun, hrun', h'.bindings_eq, h'.conflicts_eq⟩

/-- Two types without wildcards, a wildcard, and three types with one field of each of them. -/
def fieldPairs : TypeTable where
  types := #[{ symbols := [("negative", ⟨0⟩)] }, { symbols := [("length", ⟨0⟩)] },
    { shape := .wildcard }, { shape := .compound [⟨"x", ⟨0⟩, false⟩] },
    { shape := .compound [⟨"x", ⟨1⟩, false⟩] }, { shape := .compound [⟨"x", ⟨2⟩, false⟩] }]
  unions := []

/-- A session that has compared the first two types, in vain. -/
def fieldPairsCompared : Session := ⟨⟨[(⟨⟨0⟩, ⟨1⟩⟩, false)], [], [], true⟩, []⟩

theorem closed_fieldPairs : fieldPairs.Closed := TypeTable.closed_iff.mpr (by decide)

theorem wildcardFree_fieldPairs : ∀ id ∈ [(⟨0⟩ : TypeId), ⟨1⟩], fieldPairs.WildcardFree id :=
  fun _ => TypeTable.wildcardFree_of_closed (P := (· ∈ [(⟨0⟩ : TypeId), ⟨1⟩])) (by decide) (by decide)

theorem canAssign_eq_of_forgotten_fieldPairs :
    Session.Reached fieldPairs fieldPairsCompared ∧
      ∃ verdict c d, canAssign fieldPairs ⟨5⟩ ⟨4⟩ fieldPairsCompared.checker = .ok (verdict, c) ∧
        canAssign fieldPairs ⟨5⟩ ⟨4⟩ (fieldPairsCompared.checker.keepVerdicts 0) =
          .ok (verdict, d) ∧
        c.bindings = d.bindings ∧ c.conflicts = d.conflicts := by
  have hrun : canAssign fieldPairs ⟨0⟩ ⟨1⟩ (.new true) =
      .ok (false, fieldPairsCompared.checker) := rfl
  have hreached : Session.Reached fieldPairs fieldPairsCompared :=
    .assign (.start closed_fieldPairs true) (by decide) (by decide) hrun
  refine ⟨hreached, canAssign_eq_of_forgotten hreached (by decide) (by decide) ?_⟩
  intro entry hentry _ _
  rw [List.mem_singleton.mp hentry]
  exact ⟨wildcardFree_fieldPairs _ (by simp), wildcardFree_fieldPairs _ (by simp)⟩

/-- A verdict on a type with a wildcard outlives the wildcard's being bound: forgotten, it would not
be given again. -/
example :
    let bound : Checker := ⟨[(⟨⟨3⟩, ⟨5⟩⟩, true)], [⟨[⟨2⟩], some ⟨1⟩⟩], [], true⟩
    canAssign fieldPairs ⟨3⟩ ⟨5⟩ (.new true) = .ok (true, { bound with bindings := [] }) ∧
      canAssign fieldPairs ⟨2⟩ ⟨1⟩ { bound with bindings := [] } = .ok (true, bound) ∧
      canAssign fieldPairs ⟨3⟩ ⟨5⟩ bound = .ok (true, bound) ∧
      canAssign fieldPairs ⟨3⟩ ⟨5⟩ (bound.keepVerdicts 0) =
        .ok (false, ⟨[(⟨⟨3⟩, ⟨5⟩⟩, false)], bound.bindings, [], true⟩) :=
  ⟨rfl, rfl, rfl, rfl⟩

end

end MessageLang
