import MessageLang.Proofs.Assign.Alike
import MessageLang.Proofs.Typing.Supplying

namespace MessageLang

/-- A sort of nodes that stand where nodes may: groups of locals are of no such sort, and those
among the parts of one stand in a block. The other parts, and the values of the locals, are of that
sort again. -/
structure Arena.Orderly (a : Arena) (P : NodeId → Prop) : Prop where
  part : ∀ n, P n → ∀ c ∈ a.expressions n, a.expr? c ≠ some .locals → P c
  block : ∀ n, P n → ∀ c ∈ a.expressions n, a.expr? c = some .locals → a.expr? n = some .block
  value : ∀ n, P n → ∀ c ∈ a.expressions n, a.expr? c = some .locals →
    ∀ d ∈ a.expressions c, ∀ v ∈ a.expressions d, P v
  not_group : ∀ n, P n → a.expr? n ≠ some .locals

namespace Pass

variable {P : NodeId → Prop} {p p' p'' : Pass} {id : PlaceholderId} {type : TypeId}

/-- The values of all locals known are of a certain sort. -/
def Valued (P : NodeId → Prop) (p : Pass) : Prop :=
  ∀ id v, (p.placeholder id).value = some v → P v

/-- Problems, exits, coercions and verdicts are only added, and frames of types are only opened. -/
structure Collects (P : NodeId → Prop) (p p' : Pass) : Prop where
  valued : p.Valued P → p'.Valued P
  log : ∃ more, p'.log.toList = p.log.toList ++ more
  escapes : p.escapes <+: p'.escapes
  breaks : p.breaks <+: p'.breaks
  coercions : p.coercions <:+ p'.coercions
  checker : p.checker.Retains p'.checker
  scopes_le : p.space.scopes.size ≤ p'.space.scopes.size
  frame_eq : ∀ id : ScopeId, id.index < p.space.scopes.size →
    p'.space.scopes.frame id = p.space.scopes.frame id

/-- Such a change that leaves no conflict unreported. -/
structure Completes (P : NodeId → Prop) (p p' : Pass) : Prop extends p.Collects P p' where
  conflicts : p.checker.conflicts = [] → p'.checker.conflicts = []

theorem Collects.refl (p : Pass) : p.Collects P p :=
  ⟨fun h => h, ⟨[], (List.append_nil _).symm⟩, List.prefix_refl _, List.prefix_refl _,
    List.suffix_refl _, .refl _, Nat.le_refl _, fun _ _ => rfl⟩

theorem Collects.trans (h : p.Collects P p') (h' : p'.Collects P p'') : p.Collects P p'' where
  valued hp := h'.valued (h.valued hp)
  log := by
    obtain ⟨more, heq⟩ := h.log
    obtain ⟨more', heq'⟩ := h'.log
    exact ⟨more ++ more', by rw [heq', heq, List.append_assoc]⟩
  escapes := h.escapes.trans h'.escapes
  breaks := h.breaks.trans h'.breaks
  coercions := h.coercions.trans h'.coercions
  checker := h.checker.trans h'.checker
  scopes_le := h.scopes_le.trans h'.scopes_le
  frame_eq id hid := (h'.frame_eq id (hid.trans_le h.scopes_le)).trans (h.frame_eq id hid)

theorem Completes.refl (p : Pass) : p.Completes P p := ⟨.refl p, fun h => h⟩

theorem Completes.trans (h : p.Completes P p') (h' : p'.Completes P p'') : p.Completes P p'' :=
  ⟨h.toCollects.trans h'.toCollects, fun hp => h'.conflicts (h.conflicts hp)⟩

/-- What is known of names, of types of nodes and of where typing is does not matter, as long as the
values of the locals stay. -/
theorem Completes.of_eq (hlog : p'.log = p.log) (hescapes : p'.escapes = p.escapes)
    (hbreaks : p'.breaks = p.breaks) (hchecker : p'.checker = p.checker)
    (hscopes : p'.space.scopes = p.space.scopes) (hcoercions : p.coercions <:+ p'.coercions)
    (hvalue : ∀ id, (p'.placeholder id).value = (p.placeholder id).value) : p.Completes P p' where
  valued hp id v hv := hp id v (hvalue id ▸ hv)
  log := ⟨[], by rw [hlog, List.append_nil]⟩
  escapes := hescapes ▸ List.prefix_refl _
  breaks := hbreaks ▸ List.prefix_refl _
  coercions := hcoercions
  checker := hchecker ▸ .refl _
  scopes_le := hscopes ▸ Nat.le_refl _
  frame_eq _ _ := by rw [hscopes]
  conflicts hp := hchecker ▸ hp

theorem Completes.noted (x : NodeId) (type : TypeId) :
    p.Completes P { p with types := (x, type) :: p.types } :=
  .of_eq rfl rfl rfl rfl rfl (List.suffix_refl _) fun _ => rfl

theorem Completes.update {change : Placeholder → Placeholder}
    (hsame : ∀ e, (change e).value = e.value) : p.Completes P (p.updatePlaceholder id change) := by
  refine .of_eq rfl rfl rfl rfl rfl (List.suffix_refl _) fun other => ?_
  rcases p.placeholder_updatePlaceholder_eq_or id other change with heq | ⟨rfl, heq⟩ <;> rw [heq]
  exact hsame _

theorem Completes.pushed (p : Pass) : p.Completes P p.pushed where
  valued hp := hp
  log := ⟨[], (List.append_nil _).symm⟩
  escapes := List.prefix_refl _
  breaks := List.prefix_refl _
  coercions := List.suffix_refl _
  checker := .refl _
  scopes_le := (Nat.le_succ _).trans (Scopes.size_push _ _).ge
  frame_eq _ hid := Scopes.frame_push_of_lt _ _ hid
  conflicts hp := hp

/-- Exits that were put aside are those that there were. -/
theorem Completes.aside {escapes : List (NodeId × TypeId)} {breaks : List TypeId}
    (h : Completes P { p with escapes, breaks } p') :
    p.Completes P { p' with escapes := p.escapes, breaks := p.breaks } :=
  { h with escapes := List.prefix_refl _, breaks := List.prefix_refl _ }

/-- Going back to where log, exits and checker were before is exact, since they have only grown. -/
theorem Collects.takenBack_eq (h : p.Collects P p') :
    (takenBack p p').log = p.log ∧ (takenBack p p').escapes = p.escapes ∧
      (takenBack p p').breaks = p.breaks ∧
      (takenBack p p').checker = { p.checker with conflicts := p'.checker.conflicts } := by
  obtain ⟨more, hlog⟩ := h.log
  obtain ⟨escapes, hescapes⟩ := h.escapes
  obtain ⟨breaks, hbreaks⟩ := h.breaks
  refine ⟨Log.restore_eq hlog, ?_, ?_, h.checker.rollback_eq⟩
  · simp [takenBack, ← hescapes]
  · simp [takenBack, ← hbreaks]

theorem Completes.takenBack (h : p.Completes P p') : p.Completes P (takenBack p p') := by
  obtain ⟨hlog, hescapes, hbreaks, hchecker⟩ := h.takenBack_eq
  refine ⟨⟨fun hp id v hv => ?_, ⟨[], ?_⟩, ?_, ?_, h.coercions, ?_, h.scopes_le, h.frame_eq⟩,
    fun hp => ?_⟩
  · have hplaceholder := p'.placeholder_forget
      (p'.resolved.take (p'.resolved.length - p.resolved.length)) id
    exact h.valued hp id v ((congrArg Placeholder.value hplaceholder).symm.trans hv)
  · rw [hlog, List.append_nil]
  · rw [hescapes]
  · rw [hbreaks]
  · rw [hchecker]
    exact ⟨rfl, List.suffix_refl _⟩
  · rw [hchecker]
    exact h.conflicts hp

end Pass

namespace Typing

open Pass

section

variable {P : NodeId → Prop} {α : Type} {p q : Pass} {a : Arena} {node : NodeId}
  {target source type : TypeId} {problem : Problem}

theorem reading_collects {scope : ScopeId} {step : Reading α} (h : Reading.Reporting scope step) :
    After (reading step) p fun _ p' => ∃ space, p' = { p with space } ∧
      TypeSpace.Adds scope p.space space := by
  intro r p' hrun
  cases hstep : step p.space with
  | error fault =>
    simp [reading, hstep, bind, Except.bind] at hrun
  | ok result =>
    simp [reading, hstep, bind, Except.bind, pure, Except.pure] at hrun
    obtain ⟨rfl, rfl⟩ := hrun
    exact ⟨result.2, rfl, h p.space _ _ hstep⟩

/-- Reading in a frame that was not there before. -/
theorem reading_completes {scope : ScopeId} {step : Reading α} (h : p.Completes P q)
    (hstep : Reading.Reporting scope step) (hscope : p.space.scopes.size ≤ scope.index) :
    After (reading step) q fun _ q' => p.Completes P q' ∧ q'.typeScope = q.typeScope := by
  refine (reading_collects hstep).mono ?_
  rintro _ _ ⟨space, rfl, ⟨more, hlog, -⟩, hsize, hframe⟩
  refine ⟨⟨⟨h.valued, ?_, h.escapes, h.breaks, h.coercions, h.checker,
    h.scopes_le.trans_eq hsize.symm,
    fun id hid => ?_⟩, h.conflicts⟩, rfl⟩
  · obtain ⟨before, heq⟩ := h.log
    exact ⟨before ++ more, by rw [← List.append_assoc, ← heq]; exact hlog⟩
  · refine (hframe id ?_).trans (h.frame_eq id hid)
    rintro rfl
    exact absurd hid hscope.not_gt

theorem readType_completes (h : p.Completes P q)
    (hscope : p.space.scopes.size ≤ q.typeScope.index) :
    After (readType a node) q fun _ q' => p.Completes P q' ∧ q'.typeScope = q.typeScope := by
  rw [readType, after_bind_iff, after_get_iff]
  exact reading_completes h (Reading.type_reporting a q.typeScope node) hscope

theorem readOption_completes {node? : Option NodeId} (h : p.Completes P q)
    (hscope : p.space.scopes.size ≤ q.typeScope.index) :
    After (node?.mapM (readType a)) q fun _ q' =>
      p.Completes P q' ∧ q'.typeScope = q.typeScope := by
  cases node? with
  | none => exact after_pure_iff.mpr ⟨h, rfl⟩
  | some node =>
    rw [Option.mapM_some, after_map_iff]
    exact readType_completes h hscope

variable (P)

theorem tabling_completes {change : Tabling α} :
    After (tabling change) p fun _ p' => p.Completes P p' := by
  have hstep : Reading.Reporting ⟨p.space.scopes.size⟩ (Reading.tabling change) :=
    Reading.reporting_tabling change
  exact (reading_completes (.refl p) hstep le_rfl).mono fun _ _ h => h.1

theorem report_completes (hproblem : ∀ name, problem ≠ .recursiveDefinition name) :
    After (report a node problem) p fun _ p' => p.Completes P p' := by
  have hstep : Reading.Reporting ⟨p.space.scopes.size⟩ (Reading.report a node problem) :=
    Reading.reporting_report hproblem
  exact (reading_completes (.refl p) hstep le_rfl).mono fun _ _ h => h.1

theorem checking_collects {step : TypeTable → Checking α}
    (h : After (step p.table) p.checker fun _ c => p.checker.Retains c) :
    After (checking step) p fun _ p' => p.Collects P p' := by
  intro r p' hrun
  cases hstep : step p.table p.checker with
  | error fault =>
    simp [checking, hstep, bind, Except.bind] at hrun
  | ok result =>
    simp [checking, hstep, bind, Except.bind, pure, Except.pure] at hrun
    obtain ⟨rfl, rfl⟩ := hrun
    exact { Collects.refl p with checker := h _ _ hstep }

theorem canAssign_collects :
    After (checking fun t => Checking.canAssign t target source) p fun _ p' => p.Collects P p' :=
  checking_collects P (MessageLang.canAssign_retains p.table target source p.checker)

theorem takeConflicts_collects :
    After (checking fun _ => Checking.takeConflicts) p fun _ p' => p.Collects P p' ∧
      p'.checker.conflicts = [] := by
  intro r p' hrun
  simp only [checking, Checking.takeConflicts, modifyGet, MonadStateOf.modifyGet, StateT.modifyGet,
    bind, Except.bind, pure, Except.pure, Except.ok.injEq, Prod.mk.injEq] at hrun
  obtain ⟨-, rfl⟩ := hrun
  exact ⟨{ Collects.refl p with checker := ⟨rfl, List.suffix_refl _⟩ }, rfl⟩

/-- All conflicts that there are get reported. -/
theorem reportConflicts_collects :
    After (reportConflicts a node) p fun _ p' => p.Collects P p' ∧ p'.checker.conflicts = [] := by
  rw [reportConflicts]
  refine (takeConflicts_collects P).bind fun conflicts p₁ h₁ => ?_
  rw [after_bind_iff]
  let inv (_ : List Conflict) (q : Pass) : Prop := p.Collects P q ∧ q.checker.conflicts = []
  refine After.mono (after_forIn inv ?_ h₁)
    fun _ p₂ h₂ => after_pure_iff.mpr h₂
  rintro _ conflict _ p₂ ⟨h₂, hnone⟩
  simp only [after_bind_iff, after_get_iff]
  refine (report_completes P (by simp)).mono fun _ p₃ h₃ => after_pure_iff.mpr ⟨rfl, ?_⟩
  exact ⟨h₂.trans h₃.toCollects, h₃.conflicts hnone⟩

theorem fits_completes : After (fits a node target source) p fun _ p' => p.Completes P p' := by
  rw [fits]
  refine (canAssign_collects P).bind fun verdict p₁ h₁ => ?_
  refine (reportConflicts_collects P).bind fun _ p₂ h₂ => ?_
  exact after_pure_iff.mpr ⟨h₁.trans h₂.1, fun _ => h₂.2⟩

/-- Comparing a type with what it has to be, and reporting if it is not that, before going on. -/
theorem demand_completes {next : PUnit → Typing α} {post : α → Pass → Prop}
    (hproblem : ∀ name, problem ≠ .recursiveDefinition name)
    (hnext : ∀ q, p.Completes P q → After (next ⟨⟩) q post) :
    After (demand a node target source problem next) p post := by
  refine (fits_completes P).bind fun verdict p₁ h₁ => ?_
  split
  · exact (report_completes P hproblem).bind fun _ p₂ h₂ => hnext p₂ (h₁.trans h₂)
  · exact hnext p₁ h₁

theorem handlerResult_completes {declared : Option TypeId} {exits : List (NodeId × TypeId)} :
    After (handlerResult a declared exits) p fun _ p' => p.Completes P p' := by
  cases declared with
  | none => exact tabling_completes P
  | some expected =>
    rw [handlerResult, after_bind_iff]
    refine After.mono (after_forIn (fun _ q => p.Completes P q) ?_ (.refl p))
      fun _ p₁ h₁ => after_pure_iff.mpr h₁
    rintro _ ⟨node, type⟩ - p₁ h₁
    exact demand_completes P (by simp) fun p₂ h₂ => after_pure_iff.mpr ⟨rfl, h₁.trans h₂⟩

/-- Guards that do not fit leave no verdict and no binding, and conflicts only until one fits or all
are known not to. -/
theorem firstMatch?_collects {message : NodeId} {handlers : List (TypeId × TypeId)} :
    After (firstMatch? a message type handlers) p fun _ p' => p.Collects P p' ∧
      p'.checker.conflicts = [] := by
  induction handlers generalizing p with
  | nil =>
    rw [firstMatch?]
    exact (reportConflicts_collects P).bind fun _ p₁ h₁ => after_pure_iff.mpr h₁
  | cons handler rest ih =>
    rw [firstMatch?, after_bind_iff, after_get_iff]
    refine (canAssign_collects P).bind fun verdict p₁ h₁ => ?_
    split
    · refine (takeConflicts_collects P).bind fun _ p₂ h₂ => ?_
      rw [after_bind_iff, after_get_iff]
      refine (tabling_completes P).bind fun _ p₃ h₃ => after_pure_iff.mpr ?_
      exact ⟨h₁.trans (h₂.1.trans h₃.toCollects), h₃.conflicts h₂.2⟩
    · rw [after_bind_iff, after_modify_iff]
      have hback : p.Collects P { p₁ with checker := p₁.checker.rollback p.checker.checkpoint } :=
        { h₁ with
          checker := by
            have hkept := h₁.checker.keepVerdicts le_rfl
            exact ⟨hkept.unwraps_eq, hkept.verdicts_suffix⟩ }
      exact ih.mono fun _ p₂ h₂ => ⟨hback.trans h₂.1, h₂.2⟩

theorem answer_completes {message : NodeId} {receiver : TypeId} :
    After (answer a node message receiver type) p fun _ p' => p.Completes P p' := by
  simp only [answer, after_bind_iff, after_get_iff]
  split
  · exact after_pure_iff.mpr (.refl p)
  · split
    · exact after_pure_iff.mpr (.refl p)
    · rw [after_bind_iff]
      refine (firstMatch?_collects P).mono fun found p₁ h₁ => ?_
      have h₁ : p.Completes P p₁ := ⟨h₁.1, fun _ => h₁.2⟩
      split
      · rw [after_bind_iff, after_modify_iff, after_pure_iff]
        exact h₁.trans (.of_eq rfl rfl rfl rfl rfl (List.suffix_cons _ _) fun _ => rfl)
      · exact (report_completes P (by simp)).bind fun _ p₂ h₂ => after_pure_iff.mpr (h₁.trans h₂)

end

end Typing

end MessageLang
