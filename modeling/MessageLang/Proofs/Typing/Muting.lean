import MessageLang.Proofs.Typing.Completing
import MessageLang.Proofs.Typing.Lockstep

namespace MessageLang

namespace Typing

open Pass

section

variable {α β : Type} {base : Nat} {a : Arena} {node : NodeId} {target source type : TypeId}

theorem reading_inStep {step step' : Reading α} (h : InStep base step step') :
    InStep base (reading step) (reading step') where
  mirrors p hp := by
    have hspace := h.mirrors p.space hp
    unfold Mirrors at hspace ⊢
    change (step' (mute base p.space) >>= fun r => pure (r.1, { mute base p with space := r.2 })) =
      (step p.space >>= fun r => pure (r.1, { p with space := r.2 })).map _
    rw [hspace]
    cases step p.space <;> rfl
  grows p := by
    intro r p' hrun
    change (step p.space >>= fun r => pure (r.1, { p with space := r.2 })) = _ at hrun
    cases hstep : step p.space with
    | error fault =>
      rw [hstep] at hrun
      cases hrun
    | ok result =>
      rw [hstep] at hrun
      cases hrun
      exact h.grows p.space _ _ hstep

theorem tabling_inStep (change : Tabling α) : InStep base (tabling change) (tabling change) :=
  reading_inStep (Reading.tabling_inStep change)

theorem checking_inStep (step : TypeTable → Checking α) :
    InStep base (checking step) (checking step) where
  mirrors p _ := by
    change (step p.table p.checker >>= fun r => pure (r.1, { mute base p with checker := r.2 })) =
      (step p.table p.checker >>= fun r => pure (r.1, { p with checker := r.2 })).map _
    cases step p.table p.checker <;> rfl
  grows p := by
    intro r p' hrun
    change (step p.table p.checker >>= fun r => pure (r.1, { p with checker := r.2 })) = _ at hrun
    cases hstep : step p.table p.checker with
    | error fault =>
      rw [hstep] at hrun
      cases hrun
    | ok result =>
      rw [hstep] at hrun
      cases hrun
      exact List.prefix_refl _

theorem report_inStep {problem : Problem} (hproblem : problem ≠ .unreachableCode) :
    InStep base (report a node problem) (report a node problem) :=
  reading_inStep (Reading.report_inStep hproblem)

/-- Code that is not reached is reported in one of two runs only. -/
theorem unreachable_inStep : InStep base (report a node .unreachableCode) (pure ()) where
  mirrors p hp := by
    let noted := { p with space := { p.space with log := p.log.report a node .unreachableCode } }
    have hle : p.log.size ≤ noted.log.size := by simp [noted, Pass.log, Log.report, Log.size]
    have hsame : mute base noted = mute base p :=
      congrArg (fun log => { p with space := { p.space with log } }) (Log.muted_report_unreachable hp)
    have hmirrors := (InStep.pure ()).mirrors noted (hp.trans hle)
    rw [Mirrors, hsame] at hmirrors
    exact hmirrors
  grows p := after_report_iff.mpr (Log.toList_report .. ▸ List.prefix_append _ _)

theorem readType_inStep : InStep base (readType a node) (readType a node) :=
  .get (fun _ => rfl) fun _ => reading_inStep (Reading.type_inStep node)

theorem setType_inStep : InStep base (setType node type) (setType node type) :=
  .modify (fun _ => rfl) fun _ => rfl

theorem addTerm_inStep {name : String} {meaning : Variable} :
    InStep base (addTerm name meaning) (addTerm name meaning) :=
  .modify (fun _ => rfl) fun _ => rfl

theorem inNewScope_inStep {step step' : Typing α} (h : InStep base step step') :
    InStep base (inNewScope step) (inNewScope step') := by
  refine .get (fun _ => rfl) fun outer => .seq (.modify (fun _ => rfl) fun _ => rfl) fun _ => ?_
  exact h.seq fun _ => .seq (.modify (fun _ => rfl) fun _ => rfl) fun _ => .pure _

theorem reportConflicts_inStep : InStep base (reportConflicts a node) (reportConflicts a node) := by
  refine (checking_inStep _).seq fun _ => InStep.seq (.forIn fun conflict => ?_) fun _ => .pure _
  exact .get (fun _ => rfl) fun _ => (report_inStep (by simp)).seq fun _ => .pure _

theorem fits_inStep : InStep base (fits a node target source) (fits a node target source) :=
  (checking_inStep _).seq fun _ => reportConflicts_inStep.seq fun _ => .pure _

/-- Comparing a type with what it has to be, and reporting if it is not that. -/
theorem demand_inStep {problem : Problem} {next next' : PUnit → Typing β}
    (hproblem : problem ≠ .unreachableCode) (hnext : InStep base (next ⟨⟩) (next' ⟨⟩)) :
    InStep base (demand a node target source problem next)
      (demand a node target source problem next') := by
  refine fits_inStep.seq fun verdict => ?_
  split
  · exact (report_inStep hproblem).seq fun _ => hnext
  · exact hnext

theorem firstMatch?_inStep (handlers : List (TypeId × TypeId)) :
    InStep base (firstMatch? a node type handlers) (firstMatch? a node type handlers) := by
  induction handlers with
  | nil => exact reportConflicts_inStep.seq fun _ => .pure _
  | cons handler rest ih =>
    refine .get (fun _ => rfl) fun p => (checking_inStep _).seq fun verdict => ?_
    split
    · exact (checking_inStep _).seq fun _ => .get (fun _ => rfl) fun p =>
        (tabling_inStep _).seq fun _ => .pure _
    · exact .seq (.modify (fun _ => rfl) fun _ => rfl) fun _ => ih

theorem answer_inStep {message : NodeId} {receiver : TypeId} :
    InStep base (answer a node message receiver type) (answer a node message receiver type) := by
  refine .get (fun _ => rfl) fun p => ?_
  dsimp only
  split
  · exact .pure _
  · split
    · exact .pure _
    · refine (firstMatch?_inStep _).seq fun found => ?_
      split
      · exact .seq (.modify (fun _ => rfl) fun _ => rfl) fun _ => .pure _
      · exact (report_inStep (by simp)).seq fun _ => .pure _

theorem handlerResult_inStep (declared : Option TypeId) (exits : List (NodeId × TypeId)) :
    InStep base (handlerResult a declared exits) (handlerResult a declared exits) := by
  cases declared with
  | none => exact tabling_inStep _
  | some expected =>
    exact InStep.seq (.forIn fun exit => demand_inStep (by simp) (.pure _)) fun _ => .pure _

theorem forget_mute (p : Pass) (ids : List PlaceholderId) :
    (mute base p).forget ids = mute base (p.forget ids) := by
  induction ids generalizing p with
  | nil => rfl
  | cons id ids ih => exact ih (p.updatePlaceholder id ({ · with result := none }))

/-- Going back to an earlier state is the same with and without what is left out. -/
theorem takenBack_mute {p q : Pass} (hp : base ≤ p.log.size) (h : p.log.toList <+: q.log.toList) :
    takenBack (mute base p) (mute base q) = mute base (takenBack p q) := by
  have hlog : (mute base q).log.restore (mute base p).log.size = (takenBack p q).log.muted base :=
    (Log.muted_restore hp h).symm
  let recent := q.resolved.take (q.resolved.length - p.resolved.length)
  calc takenBack (mute base p) (mute base q)
    _ = { takenBack p q with
          space := { q.space with log := (mute base q).log.restore (mute base p).log.size }
          placeholders := ((mute base q).forget recent).placeholders } := rfl
    _ = mute base (takenBack p q) := by
      rw [hlog, forget_mute]
      rfl

theorem declareLocal_inStep (definition : NodeId) :
    InStep base (declareLocal a definition) (declareLocal a definition) := by
  rw [declareLocal]
  split
  · refine (InStep.option fun type => readType_inStep).seq fun declared => ?_
    exact .get_set (fun _ => rfl) (fun _ => rfl) (fun _ => rfl) fun _ => addTerm_inStep
  · exact .pure _

theorem declareLocals_inStep (group : NodeId) :
    InStep base (declareLocals a group) (declareLocals a group) := .forM declareLocal_inStep

end

section

variable {base : Nat} {a : Arena} {compute compute' : NodeId → Typing TypeId} {node : NodeId}
  {name : String} (hcompute : ∀ n, InStep base (compute n) (compute' n))
include hcompute

theorem valueType_inStep (value : Option NodeId) (declared : Option TypeId) :
    InStep base (valueType a compute value declared) (valueType a compute' value declared) := by
  cases value with
  | none => exact .pure _
  | some v =>
    refine (hcompute v).seq fun found => ?_
    cases declared with
    | none => exact .pure _
    | some expected => exact demand_inStep (by simp) (.pure _)

/-- Taking an attempt back leaves what there was before it, with and without what is left out. -/
theorem resolveNow_inStep (id : PlaceholderId) :
    InStep base (resolveNow a compute id) (resolveNow a compute' id) where
  mirrors p hp := by
    have hfirst := valueType_inStep hcompute (a := a) (p.placeholder id).value (p.placeholder id).declared
    have hagain := valueType_inStep hcompute (a := a) (p.placeholder id).value none
    refine .get (.modify rfl ((hfirst.mirrors (p.opened id) hp).bind fun found q hrun => .get ?_))
    have hgrows : p.log.toList <+: q.log.toList := hfirst.grows (p.opened id) _ _ hrun
    have hback : (takenBack p q).log = p.log := by
      obtain ⟨more, hmore⟩ := hgrows
      exact Log.restore_eq hmore.symm
    refine .ite rfl ?_ (.modify rfl (mirrors_pure _ _))
    rw [takeBack_eq, takeBack_eq]
    refine .modify (takenBack_mute hp hgrows) (.modify rfl ?_)
    have hbase : base ≤ (takenBack p q).log.size := hback ▸ hp
    have hreport : InStep base
        (report a (p.placeholder id).definition (.recursiveDefinition (p.placeholder id).name)) _ :=
      report_inStep (by simp)
    refine Mirrors.bind (hreport.mirrors _ ?_) fun _ s hs => Mirrors.bind (hagain.mirrors s ?_)
      fun _ _ _ => .modify rfl (mirrors_pure _ _)
    · exact hbase
    · exact hbase.trans (Log.size_le_of_prefix (hreport.grows (Pass.updatePlaceholder _ _ _) _ s hs))
  grows p := by
    rw [after_resolveNow_iff]
    refine ((valueType_inStep hcompute _ _).grows (p.opened id)).mono fun found q hq => ?_
    split
    · refine ((valueType_inStep hcompute _ _).grows _).mono fun _ q' hq' => List.IsPrefix.trans ?_ hq'
      obtain ⟨more, hmore⟩ := hq
      have hlog : (takenBack p q).log = p.log := Log.restore_eq hmore.symm
      change p.log.toList <+: ((takenBack p q).log.report ..).toList
      rw [hlog, Log.toList_report]
      exact List.prefix_append _ _
    · exact hq

theorem resolve_inStep (id : PlaceholderId) :
    InStep base (resolve a compute id) (resolve a compute' id) := by
  refine .get (fun _ => rfl) fun p => ?_
  dsimp only
  split
  · exact .pure _
  · split
    · split
      · exact .pure _
      · exact .seq (.modify (fun _ => rfl) fun _ => rfl) fun _ => .pure _
    · exact resolveNow_inStep hcompute id

theorem meaningType_inStep (meaning : Meaning) :
    InStep base (meaningType a compute meaning) (meaningType a compute' meaning) := by
  cases meaning with
  | known type => exact .pure _
  | pending id => exact resolve_inStep hcompute id

theorem reference_inStep :
    InStep base (reference a compute node name) (reference a compute' node name) := by
  refine .get (fun _ => rfl) fun p => ?_
  split
  · exact meaningType_inStep hcompute _
  · exact (report_inStep (by simp)).seq fun _ => .pure _

theorem fieldsFrom_inStep (position : Nat) (nodes : List NodeId) :
    InStep base (fieldsFrom a compute position nodes) (fieldsFrom a compute' position nodes) := by
  induction nodes generalizing position with
  | nil => exact .pure _
  | cons n rest ih => exact (hcompute n).seq fun type => (ih (position + 1)).seq fun fields => .pure _

theorem defineLocals_inStep (group : NodeId) :
    InStep base (defineLocals a compute group) (defineLocals a compute' group) := by
  refine .forM fun definition => .get (fun _ => rfl) fun p => ?_
  split
  · exact (resolve_inStep hcompute _).seq fun type => setType_inStep
  · exact .pure _

theorem operand_inStep : InStep base (operand a compute node) (operand a compute' node) := by
  rw [operand, operand]
  split
  · exact hcompute _
  · exact .pure _

theorem array_inStep : InStep base (array a compute node) (array a compute' node) := by
  refine (InStep.mapM hcompute).seq fun items => ?_
  dsimp only
  split
  · rw [pure_bind]
    exact tabling_inStep _
  · exact (tabling_inStep _).seq fun _ => tabling_inStep _

theorem struct_inStep : InStep base (struct a compute node) (struct a compute' node) :=
  (fieldsFrom_inStep hcompute 0 _).seq fun _ => tabling_inStep _

theorem newObject_inStep : InStep base (newObject a compute node) (newObject a compute' node) := by
  rw [newObject, newObject]
  split
  · exact .pure _
  · refine (hcompute _).seq fun _ => ?_
    split
    · exact .pure _
    · refine (tabling_inStep _).seq fun object => InStep.seq (.forIn fun handler => ?_) fun _ => .pure _
      refine .get (fun _ => rfl) fun p => ?_
      dsimp only
      split
      · exact .pure _
      · exact InStep.seq (.forIn fun entry => (tabling_inStep _).seq fun _ => .pure _) fun _ => .pure _

theorem logic_inStep (op : LogicOp) :
    InStep base (logic a compute node op) (logic a compute' node op) :=
  InStep.seq (.forIn fun operand => (hcompute operand).seq fun type => demand_inStep (by simp) (.pure _))
    fun _ => .pure _

theorem conditional_inStep : InStep base (conditional a compute node) (conditional a compute' node) := by
  rw [conditional, conditional]
  split
  · exact .pure _
  · exact (hcompute _).seq fun type => demand_inStep (by simp)
      ((InStep.mapM hcompute).seq fun types => tabling_inStep _)

theorem repeatLoop_inStep : InStep base (repeatLoop a compute node) (repeatLoop a compute' node) := by
  refine .get (fun _ => rfl) fun outer => .seq (.modify (fun _ => rfl) fun _ => rfl) fun _ =>
    (operand_inStep hcompute).seq fun _ => .get (fun _ => rfl) fun p =>
      .seq (.modify (fun _ => rfl) fun _ => rfl) fun _ => ?_
  split
  · exact .pure _
  · exact tabling_inStep _

theorem breakExit_inStep : InStep base (breakExit a compute node) (breakExit a compute' node) :=
  (operand_inStep hcompute).seq fun _ => .seq (.modify (fun _ => rfl) fun _ => rfl) fun _ => .pure _

theorem returnExit_inStep : InStep base (returnExit a compute node) (returnExit a compute' node) :=
  (operand_inStep hcompute).seq fun _ => .seq (.modify (fun _ => rfl) fun _ => rfl) fun _ => .pure _

theorem assignment_inStep :
    InStep base (assignment a compute node name) (assignment a compute' node name) := by
  refine (operand_inStep hcompute).seq fun value => .get (fun _ => rfl) fun p => ?_
  dsimp only
  split
  · exact (report_inStep (by simp)).seq fun _ => .pure _
  · refine (meaningType_inStep hcompute _).seq fun target => ?_
    split
    · exact (report_inStep (by simp)).seq fun _ => .pure _
    · exact demand_inStep (by simp) (.pure _)

theorem call_inStep : InStep base (call a compute node) (call a compute' node) := by
  rw [call, call]
  split
  · exact (hcompute _).seq fun receiverType => (hcompute _).seq fun messageType => answer_inStep
  · exact .pure _

theorem handlerExits_inStep :
    InStep base (handlerExits a compute node) (handlerExits a compute' node) := by
  rw [handlerExits_eq, handlerExits_eq]
  refine .get (fun _ => rfl) fun outer => .seq (.modify (fun _ => rfl) fun _ => rfl) fun _ => ?_
  refine (operand_inStep hcompute).seq fun value => .get (fun _ => rfl) fun p => ?_
  exact .seq (.modify (fun _ => rfl) fun _ => rfl) fun _ => .pure _

theorem handlerBody_inStep (input : TypeId) :
    InStep base (handlerBody a compute node input) (handlerBody a compute' node input) := by
  refine (InStep.option fun type => readType_inStep).seq fun declared => .get (fun _ => rfl) fun p => ?_
  refine InStep.seq (.forIn fun f => addTerm_inStep.seq fun _ => .pure _) fun _ => ?_
  exact (handlerExits_inStep hcompute).seq fun exits =>
    (handlerResult_inStep declared exits).seq fun _ => .pure _

omit hcompute in
theorem handlerInput_inStep : InStep base (handlerInput a node) (handlerInput a node) := by
  rw [handlerInput]
  split
  · exact readType_inStep
  · exact .pure _

theorem handler_inStep : InStep base (handler a compute node) (handler a compute' node) := by
  rw [handler_eq, handler_eq]
  refine (inNewScope_inStep ?_).seq fun _ => tabling_inStep _
  exact handlerInput_inStep.seq (handlerBody_inStep hcompute)

omit hcompute in
/-- One of two runs does not report what is not reached. -/
theorem reportUnreachable_inStep (unwraps : Bool) (reach reach' : Reach) (item : NodeId) :
    InStep base (reportUnreachable a ⟨true, unwraps⟩ reach item)
      (reportUnreachable a ⟨false, unwraps⟩ reach' item) := by
  simp only [reportUnreachable, Bool.and_true, Bool.and_false, Bool.false_eq_true, if_false]
  split
  · exact unreachable_inStep
  · exact .pure _

theorem typeItem_inStep (item : NodeId) :
    InStep base (typeItem a compute item) (typeItem a compute' item) := by
  rw [typeItem, typeItem]
  split
  · exact (defineLocals_inStep hcompute item).seq fun _ => setType_inStep.seq fun _ => .pure _
  · exact hcompute item

theorem itemsFrom_inStep (unwraps : Bool) (items : List NodeId) (returned reported reported' : Bool)
    (last : TypeId) : InStep base
      (itemsFrom a ⟨true, unwraps⟩ compute ⟨returned, reported⟩ last items)
      (itemsFrom a ⟨false, unwraps⟩ compute' ⟨returned, reported'⟩ last items) := by
  induction items generalizing returned reported reported' last with
  | nil => exact .pure _
  | cons item rest ih =>
    rw [itemsFrom_cons, itemsFrom_cons]
    exact (reportUnreachable_inStep unwraps _ _ item).seq fun _ =>
      (typeItem_inStep hcompute item).seq fun type => ih _ _ _ type

theorem block_inStep (unwraps : Bool) : InStep base
    (block a ⟨true, unwraps⟩ compute node) (block a ⟨false, unwraps⟩ compute' node) := by
  refine inNewScope_inStep (InStep.seq (.forIn fun item => ?_) fun _ =>
    itemsFrom_inStep hcompute unwraps _ _ _ _ _)
  split
  · exact (declareLocals_inStep item).seq fun _ => .pure _
  · exact .pure _

theorem locals_inStep : InStep base (locals a compute node) (locals a compute' node) :=
  (declareLocals_inStep node).seq fun _ => (defineLocals_inStep hcompute node).seq fun _ => .pure _

theorem ofForm_inStep (unwraps : Bool) (form : ExprForm) : InStep base
    (ofForm a ⟨true, unwraps⟩ compute node form) (ofForm a ⟨false, unwraps⟩ compute' node form) := by
  cases form with
  | constant c => exact .pure _
  | reference name => exact reference_inStep hcompute
  | array => exact array_inStep hcompute
  | struct => exact struct_inStep hcompute
  | structField _ | nested | localDef => exact operand_inStep hcompute
  | newObject => exact newObject_inStep hcompute
  | call => exact call_inStep hcompute
  | logic op => exact logic_inStep hcompute op
  | conditional => exact conditional_inStep hcompute
  | repeatLoop => exact repeatLoop_inStep hcompute
  | assignment name => exact assignment_inStep hcompute
  | returnExit => exact returnExit_inStep hcompute
  | breakExit => exact breakExit_inStep hcompute
  | locals => exact locals_inStep hcompute
  | handler => exact handler_inStep hcompute
  | block => exact block_inStep hcompute unwraps
  | function | unary | binary | whileLoop => exact .pure _

end

/-- Whether code that is not reached is reported makes no difference to typing, but for that. -/
theorem computeWithin_inStep {base : Nat} (a : Arena) (unwraps : Bool) (steps : Nat) (node : NodeId) :
    InStep base (computeWithin a ⟨true, unwraps⟩ steps node)
      (computeWithin a ⟨false, unwraps⟩ steps node) := by
  induction steps generalizing node with
  | zero => exact .throw _
  | succ steps ih =>
    have hnoted : ∀ type, InStep base (noted node type) (noted node type) :=
      fun type => setType_inStep.seq fun _ => .pure _
    rw [computeWithin_succ, computeWithin_succ]
    split
    · next form _ => exact (ofForm_inStep ih unwraps form).seq hnoted
    · exact hnoted .anything

theorem tree_inStep {base : Nat} (a : Arena) (unwraps : Bool) (root : NodeId) :
    InStep base (tree a ⟨true, unwraps⟩ root) (tree a ⟨false, unwraps⟩ root) := by
  refine (computeWithin_inStep a unwraps _ root).seq fun value => .get (fun _ => rfl) fun p => ?_
  split
  · exact .pure _
  · exact tabling_inStep _

end Typing

open Pass Typing in
/-- Without reports of code that is not reached, a check finds the same types, the same coercions, the
same table and the same result, or stops at the same fault. It adds to the log what it would add
otherwise, but for those reports. -/
theorem check_muted (a : Arena) (unwraps : Bool) (root : NodeId) (log : Log) :
    check a ⟨false, unwraps⟩ root log =
      (check a ⟨true, unwraps⟩ root log).map (fun (typed, full) => (typed, full.muted log.size)) ∧
    ∀ typed full, check a ⟨true, unwraps⟩ root log = .ok (typed, full) → log.toList <+: full.toList ∧
      ((∀ r ∈ log.toList, r.problem ≠ .unreachableCode) →
        (full.muted log.size).toList = full.toList.filter (·.problem ≠ .unreachableCode)) := by
  obtain ⟨print, t, hstart, -⟩ := Pass.start_eq ⟨true, unwraps⟩ log
  have hstart' : Pass.start ⟨false, unwraps⟩ log = .ok (started ⟨true, unwraps⟩ log print t) := hstart
  have htree : InStep log.size _ _ := tree_inStep a unwraps root
  have hmuted : mute log.size (started ⟨true, unwraps⟩ log print t) =
      started ⟨true, unwraps⟩ log print t :=
    congrArg (fun log' => started ⟨true, unwraps⟩ log' print t) log.muted_size
  refine ⟨?_, fun typed full hcheck => ?_⟩
  · have hmirrors := htree.mirrors (started ⟨true, unwraps⟩ log print t) (Nat.le_refl _)
    rw [Mirrors, hmuted] at hmirrors
    rw [check, check, hstart, hstart']
    change (tree a ⟨false, unwraps⟩ root _ >>= _) = Except.map _ (tree a ⟨true, unwraps⟩ root _ >>= _)
    rw [hmirrors]
    cases tree a ⟨true, unwraps⟩ root (started ⟨true, unwraps⟩ log print t) <;> rfl
  · obtain ⟨result, p, hrun, -, rfl⟩ := check_eq_ok hstart hcheck
    have hgrows : log.toList <+: p.log.toList := htree.grows _ result p hrun
    refine ⟨hgrows, fun hlog => Log.toList_muted_of_forall ?_⟩
    rwa [Log.size_eq_length, ← List.prefix_iff_eq_take.mp hgrows]

end MessageLang
