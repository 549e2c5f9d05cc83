import MessageLang.Proofs.Typing.Completing
import MessageLang.Proofs.Typing.Progress

namespace MessageLang

namespace Pass

/-- Types have been read, made or compared and problems have been found, and nothing else. -/
def Compared (p p' : Pass) : Prop :=
  ∃ space checker, p' = { p with space, checker } ∧ p.log.toList <+: space.log.toList

variable {p p' p'' : Pass}

theorem Compared.trans (h : p.Compared p') (h' : p'.Compared p'') : p.Compared p'' := by
  obtain ⟨space, checker, rfl, hlog⟩ := h
  obtain ⟨space', checker', rfl, hlog'⟩ := h'
  exact ⟨space', checker', rfl, hlog.trans hlog'⟩

theorem Compared.returns (h : p.Compared p') (hp : p.Calm) (hnone : p'.checker.conflicts = []) :
    p.Returns p' := by
  obtain ⟨space, checker, rfl, hlog⟩ := h
  exact { Returns.refl hp with
    calm := { hp with conflicts_eq := hnone }
    log := hlog }

end Pass

namespace Typing

open Pass

/-- From a state two steps come to the same, and if they end, their result and the state after them
are as said. -/
def Agree {α : Type} (step step' : Typing α) (p : Pass) (post : α → Pass → Prop) : Prop :=
  step p = step' p ∧ After step p post

/-- Two steps that come to the same wherever typing may go on to another node, and that come back
from there. -/
def Restoring {α : Type} (step step' : Typing α) : Prop :=
  ∀ p, p.Calm → Agree step step' p fun _ p' => p.Returns p'

section

variable {α β : Type} {step step' : Typing α} {next next' : α → Typing β} {p : Pass}
  {mid : α → Pass → Prop} {post : β → Pass → Prop}

theorem Agree.mono {post post' : α → Pass → Prop} (h : Agree step step' p post)
    (himp : ∀ x p', post x p' → post' x p') : Agree step step' p post' := ⟨h.1, h.2.mono himp⟩

theorem Agree.bind (h : Agree step step' p mid)
    (hnext : ∀ x q, mid x q → Agree (next x) (next' x) q post) :
    Agree (step >>= next) (step' >>= next') p post := by
  refine ⟨?_, h.2.bind fun x q hq => (hnext x q hq).2⟩
  simp only [Bind.bind, StateT.bind, ← h.1]
  cases hrun : step p with
  | error fault => rfl
  | ok made => exact (hnext made.1 made.2 (h.2 _ _ hrun)).1

theorem Agree.same (h : After step p mid) : Agree step step p mid := ⟨rfl, h⟩

theorem Agree.pure {x : α} (h : mid x p) : Agree (pure x) (pure x) p mid :=
  .same (after_pure_iff.mpr h)

theorem Agree.get {next next' : Pass → Typing β} (h : Agree (next p) (next' p) p post) :
    Agree (get >>= next) (get >>= next') p post := h

theorem Agree.modify {change : Pass → Pass} {next next' : PUnit → Typing β}
    (h : Agree (next ⟨⟩) (next' ⟨⟩) (change p) post) :
    Agree (modify change >>= next) (modify change >>= next') p post := h

theorem Agree.report {a : Arena} {node : NodeId} {problem : Problem} {next next' : Unit → Typing β}
    (h : Agree (next ()) (next' ())
      { p with space := { p.space with log := p.log.report a node problem } } post) :
    Agree (report a node problem >>= next) (report a node problem >>= next') p post := h

theorem Restoring.seq (h : Restoring step step') (hnext : ∀ x, Restoring (next x) (next' x)) :
    Restoring (step >>= next) (step' >>= next') := fun p hp =>
  (h p hp).bind fun x q hq => (hnext x q hq.calm).mono fun _ _ => hq.trans

/-- Going on with a step from a state that a calm one came to. -/
theorem Restoring.after (h : Restoring step step') {q : Pass} (hq : p.Returns q) :
    Agree step step' q fun _ p' => p.Returns p' := (h q hq.calm).mono fun _ _ => hq.trans

theorem Restoring.same (h : ∀ p : Pass, p.Calm → After step p fun _ p' => p.Returns p') :
    Restoring step step := fun p hp => .same (h p hp)

theorem Restoring.pure (x : α) : Restoring (pure x) (pure x) := fun _ hp => .pure (.refl hp)

theorem Restoring.throw (fault : Fault) : Restoring (throw fault : Typing α) (throw fault) :=
  .same fun _ _ => after_throw

theorem Restoring.get {next next' : Pass → Typing β} (h : ∀ p, Restoring (next p) (next' p)) :
    Restoring (get >>= next) (get >>= next') := fun p hp => (h p p hp : Agree ..)

theorem Restoring.modify {change : Pass → Pass} (h : ∀ p : Pass, p.Calm → p.Returns (change p)) :
    Restoring (modify change : Typing PUnit) (modify change) :=
  .same fun p hp => after_modify_iff.mpr (h p hp)

theorem Restoring.sequential : Sequential fun step step' => Restoring step step' := ⟨.pure, .seq⟩

theorem Restoring.mapM {items : List α} {step step' : α → Typing β}
    (h : ∀ item, Restoring (step item) (step' item)) :
    Restoring (items.mapM step) (items.mapM step') :=
  Restoring.sequential.mapM fun item _ => h item

theorem Restoring.forM {items : List α} {step step' : α → Typing PUnit}
    (h : ∀ item, Restoring (step item) (step' item)) :
    Restoring (items.forM step) (items.forM step') :=
  Restoring.sequential.forM fun item _ => h item

theorem Restoring.option {item? : Option α} {step step' : α → Typing β}
    (h : ∀ item, Restoring (step item) (step' item)) :
    Restoring (item?.mapM step) (item?.mapM step') := Restoring.sequential.option h

theorem Restoring.forIn {items : List α} {step step' : α → PUnit → Typing (ForInStep PUnit)}
    (h : ∀ item, Restoring (step item ⟨⟩) (step' item ⟨⟩)) :
    Restoring (forIn items PUnit.unit step) (forIn items PUnit.unit step') :=
  Restoring.sequential.forIn fun item _ => h item

/-- A region is left for the frames that it was entered from. -/
theorem Restoring.inNewScope (h : Restoring step step') :
    Restoring (Typing.inNewScope step) (Typing.inNewScope step') := by
  intro p hp
  refine .get (.modify ((h p.pushed hp.pushed).bind fun x q hq => .modify (.pure ?_)))
  exact (hp.ongoing_pushed.trans hq).returns

end

section

variable {α β : Type} {a : Arena} {node definition : NodeId} {name : String}
  {target source type : TypeId} {problem : Problem} {p : Pass}

theorem reading_compared {step : Reading α}
    (h : ∀ space, After step space fun _ space' => space.log.toList <+: space'.log.toList) :
    After (reading step) p fun _ p' => p.Compared p' ∧ p'.checker = p.checker := by
  intro r p' hrun
  cases hstep : step p.space with
  | error fault =>
    simp [reading, hstep, bind, Except.bind] at hrun
  | ok result =>
    simp [reading, hstep, bind, Except.bind, pure, Except.pure] at hrun
    obtain ⟨-, rfl⟩ := hrun
    exact ⟨⟨_, _, rfl, h p.space _ _ hstep⟩, rfl⟩

theorem checking_compared {step : TypeTable → Checking α} :
    After (checking step) p fun _ p' => p.Compared p' := by
  intro r p' hrun
  cases hstep : step p.table p.checker with
  | error fault =>
    simp [checking, hstep, bind, Except.bind] at hrun
  | ok result =>
    simp [checking, hstep, bind, Except.bind, pure, Except.pure] at hrun
    obtain ⟨-, rfl⟩ := hrun
    exact ⟨_, _, rfl, List.prefix_refl _⟩

theorem report_compared :
    After (report a node problem) p fun _ p' => p.Compared p' ∧ p'.checker = p.checker :=
  reading_compared fun space => after_modify_iff.mpr
    (space.log.toList_report a node problem ▸ List.prefix_append _ _)

theorem tabling_compared {change : Tabling α} :
    After (tabling change) p fun _ p' => p.Compared p' ∧ p'.checker = p.checker :=
  reading_compared fun _ => Reading.after_tabling fun _ _ => List.prefix_refl _

theorem takeConflicts_compared : After (checking fun _ => Checking.takeConflicts) p fun _ p' =>
    p.Compared p' ∧ p'.checker.conflicts = [] := by
  intro r p' hrun
  simp only [checking, Checking.takeConflicts, modifyGet, MonadStateOf.modifyGet, StateT.modifyGet,
    bind, Except.bind, pure, Except.pure, Except.ok.injEq, Prod.mk.injEq] at hrun
  obtain ⟨-, rfl⟩ := hrun
  exact ⟨⟨_, _, rfl, List.prefix_refl _⟩, rfl⟩

/-- No conflict is left. -/
theorem reportConflicts_compared :
    After (reportConflicts a node) p fun _ p' => p.Compared p' ∧ p'.checker.conflicts = [] := by
  rw [reportConflicts]
  refine takeConflicts_compared.bind fun conflicts p₁ h₁ => ?_
  rw [after_bind_iff]
  let inv (_ : List Conflict) (q : Pass) : Prop := p.Compared q ∧ q.checker.conflicts = []
  refine After.mono (after_forIn inv ?_ h₁) fun _ p₂ h₂ => after_pure_iff.mpr h₂
  rintro _ conflict _ p₂ ⟨h₂, hnone⟩
  simp only [after_bind_iff, after_get_iff]
  refine report_compared.mono ?_
  rintro _ p₃ ⟨h₃, hsame⟩
  exact after_pure_iff.mpr ⟨rfl, h₂.trans h₃, hsame ▸ hnone⟩

theorem fits_compared : After (fits a node target source) p fun _ p' =>
    p.Compared p' ∧ p'.checker.conflicts = [] := by
  rw [fits]
  refine checking_compared.bind fun verdict p₁ h₁ => ?_
  refine reportConflicts_compared.bind fun _ p₂ h₂ => ?_
  exact after_pure_iff.mpr ⟨h₁.trans h₂.1, h₂.2⟩

/-- Conflicts with guards that do not fit wait until a guard fits or all are known not to. -/
theorem firstMatch?_compared {handlers : List (TypeId × TypeId)} :
    After (firstMatch? a node type handlers) p fun _ p' =>
      p.Compared p' ∧ p'.checker.conflicts = [] := by
  induction handlers generalizing p with
  | nil =>
    rw [firstMatch?]
    exact reportConflicts_compared.bind fun _ p₁ h₁ => after_pure_iff.mpr h₁
  | cons handler rest ih =>
    rw [firstMatch?, after_bind_iff, after_get_iff]
    refine checking_compared.bind fun verdict p₁ h₁ => ?_
    split
    · refine takeConflicts_compared.bind ?_
      rintro _ p₂ ⟨h₂, hnone⟩
      rw [after_bind_iff, after_get_iff]
      refine tabling_compared.bind ?_
      rintro _ p₃ ⟨h₃, hsame⟩
      exact after_pure_iff.mpr ⟨h₁.trans (h₂.trans h₃), hsame ▸ hnone⟩
    · rw [after_bind_iff, after_modify_iff]
      have hback : p₁.Compared { p₁ with checker := p₁.checker.rollback p.checker.checkpoint } :=
        ⟨_, _, rfl, List.prefix_refl _⟩
      exact ih.mono fun _ p₂ h₂ => ⟨(h₁.trans hback).trans h₂.1, h₂.2⟩

/-- Steps that read, make or compare types or find a problem, and leave no conflict. -/
theorem Restoring.compared {step : Typing α}
    (h : ∀ p, After step p fun _ p' =>
      p.Compared p' ∧ (p.checker.conflicts = [] → p'.checker.conflicts = [])) :
    Restoring step step :=
  .same fun p hp => (h p).mono fun _ _ h => h.1.returns hp (h.2 hp.conflicts_eq)

theorem tabling_restoring (change : Tabling α) : Restoring (tabling change) (tabling change) :=
  .compared fun _ => tabling_compared.mono fun _ _ h => ⟨h.1, fun hnone => h.2 ▸ hnone⟩

theorem report_restoring (a : Arena) (node : NodeId) (problem : Problem) :
    Restoring (report a node problem) (report a node problem) :=
  .compared fun _ => report_compared.mono fun _ _ h => ⟨h.1, fun hnone => h.2 ▸ hnone⟩

theorem readType_restoring (a : Arena) (node : NodeId) :
    Restoring (readType a node) (readType a node) := by
  refine .get fun p => .compared fun q => ?_
  refine (reading_compared fun space => ?_).mono fun _ _ h => ⟨h.1, fun hnone => h.2 ▸ hnone⟩
  refine (Reading.type_reporting a p.typeScope node space).mono fun _ space' h => ?_
  obtain ⟨more, hmore, -⟩ := h.log
  exact ⟨more, hmore.symm⟩

theorem fits_restoring (a : Arena) (node : NodeId) (target source : TypeId) :
    Restoring (fits a node target source) (fits a node target source) :=
  .compared fun _ => fits_compared.mono fun _ _ h => ⟨h.1, fun _ => h.2⟩

/-- Comparing a type with what it has to be, and reporting if it is not that. -/
theorem demand_restoring {next next' : PUnit → Typing β} (hnext : Restoring (next ⟨⟩) (next' ⟨⟩)) :
    Restoring (demand a node target source problem next)
      (demand a node target source problem next') := by
  refine (fits_restoring a node target source).seq fun verdict => ?_
  split
  · exact (report_restoring a node problem).seq fun _ => hnext
  · exact hnext

theorem answer_restoring (message : NodeId) (receiver : TypeId) :
    Restoring (answer a node message receiver type) (answer a node message receiver type) := by
  refine .get fun p => ?_
  dsimp only
  split
  · exact .pure _
  · split
    · exact .pure _
    · refine Restoring.seq (.compared fun _ => firstMatch?_compared.mono fun _ _ h =>
        ⟨h.1, fun _ => h.2⟩) fun found => ?_
      split
      · refine Restoring.seq (.modify fun q hq => ?_) fun _ => .pure _
        exact { Returns.refl hq with calm := { hq with } }
      · exact (report_restoring a node _).seq fun _ => .pure _

theorem handlerResult_restoring (declared : Option TypeId) (exits : List (NodeId × TypeId)) :
    Restoring (handlerResult a declared exits) (handlerResult a declared exits) := by
  cases declared with
  | none => exact tabling_restoring _
  | some expected =>
    exact Restoring.seq (.forIn fun exit => demand_restoring (.pure _)) fun _ => .pure _

theorem setType_restoring (node : NodeId) (type : TypeId) :
    Restoring (setType node type) (setType node type) :=
  .modify fun _ hp => { Returns.refl hp with calm := { hp with } }

/-- Naming what has a type that is known. -/
theorem addTerm_restoring (name : String) (type : TypeId) (mutable : Bool) :
    Restoring (addTerm name ⟨.known type, mutable⟩) (addTerm name ⟨.known type, mutable⟩) :=
  .modify fun _ hp => { Returns.refl hp with
    calm := { hp with pending_lt := hp.pending_lt.add _ _ fun _ h => nomatch h } }

theorem declareLocal_restoring (definition : NodeId) :
    Restoring (declareLocal a definition) (declareLocal a definition) := by
  rw [declareLocal]
  split
  · refine (Restoring.option fun type => readType_restoring a type).seq fun declared => ?_
    refine .same fun p hp => ?_
    simp only [after_bind_iff, after_get_iff, after_set_iff, addTerm, after_modify_iff]
    exact .declared hp definition _ _ rfl
  · exact .pure _

theorem declareLocals_restoring (group : NodeId) :
    Restoring (declareLocals a group) (declareLocals a group) := .forM declareLocal_restoring

end

section

variable {a : Arena} {options : TypingOptions} {compute compute' : NodeId → Typing TypeId}
  {node : NodeId} {name : String} {p : Pass} {id : PlaceholderId}
  (hcompute : ∀ n, Restoring (compute n) (compute' n))
include hcompute

theorem valueType_restoring (value : Option NodeId) (declared : Option TypeId) :
    Restoring (valueType a compute value declared) (valueType a compute' value declared) := by
  cases value with
  | none => exact .pure _
  | some v =>
    refine (hcompute v).seq fun found => ?_
    cases declared with
    | none => exact .pure _
    | some expected => exact demand_restoring (.pure _)

/-- The one attempt or the second one is closed, and the placeholder is off the stack again. -/
theorem resolveNow_restoring (hp : p.Calm) (hid : p.Waiting id)
    (hlt : id.index < p.placeholders.size) :
    Agree (resolveNow a compute id) (resolveNow a compute' id) p fun _ p' => p.Returns p' := by
  have hopened := hp.ongoing_opened id
  have hfirst := valueType_restoring hcompute (a := a) (p.placeholder id).value
    (p.placeholder id).declared (p.opened id) hopened.calm
  refine .get (.modify (hfirst.bind fun found q hq => .get ?_))
  have hq := hopened.trans hq
  dsimp only
  split
  · rw [takeBack_eq]
    have hmarked := hq.takenBack.marked (a := a) hid (p.placeholder id).definition
      (p.placeholder id).name
    have hagain := valueType_restoring hcompute (a := a) (p.placeholder id).value none _ hmarked.calm
    exact .modify (.modify (.report (hagain.bind fun _ q' hq' =>
      .modify (.pure ((hmarked.trans hq').closed hp hid hlt _)))))
  · exact .modify (.pure (hq.closed hp hid hlt _))

end

end Typing

end MessageLang
