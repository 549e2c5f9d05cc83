import MessageLang.Proofs.Typing.Completing
import MessageLang.Proofs.Typing.Whole

namespace MessageLang

/-- A sort of nodes whose parts are of that sort again. -/
structure Arena.ClosedDown (a : Arena) (P : NodeId → Prop) : Prop where
  expression : ∀ n, P n → ∀ c ∈ a.expressions n, P c
  type : ∀ n, P n → ∀ c ∈ a.types n, P c

/-- A report of typing at a node of a certain sort, with the span of the node. It is of the phase of
types, or it is of a field name given twice, at the field of a compound type. -/
structure Report.Located (a : Arena) (P : NodeId → Prop) (r : Report) : Prop where
  node : P r.node
  span_eq : r.span = a.span r.node
  phase : r.problem.phase = .type ∨
    ∃ name label, r.problem = .duplicateField name ∧ a.type? r.node = some (.typedField label)

/-- A log goes on with such reports alone. -/
def Log.Locates (a : Arena) (P : NodeId → Prop) (log log' : Log) : Prop :=
  ∃ more, log'.toList = log.toList ++ more ∧ ∀ r ∈ more, r.Located a P

/-- What typing has reported since it started, and what it keeps for later, is at nodes of a certain
sort: exits, and locals with their values. -/
structure Pass.Located (a : Arena) (P : NodeId → Prop) (start : Log) (p : Pass) : Prop where
  log : start.Locates a P p.log
  escape : ∀ exit ∈ p.escapes, P exit.1
  placeholder : ∀ id : PlaceholderId, id.index < p.placeholders.size →
    P (p.placeholder id).definition ∧ ∀ v, (p.placeholder id).value = some v → P v

section

variable {a : Arena} {P : NodeId → Prop} {log log' log'' start : Log} {node : NodeId}
  {problem : Problem} {p : Pass} {id : PlaceholderId}

theorem Log.Locates.refl (log : Log) : log.Locates a P log := ⟨[], by simp, fun _ h => nomatch h⟩

theorem Log.Locates.trans (h : log.Locates a P log') (h' : log'.Locates a P log'') :
    log.Locates a P log'' := by
  obtain ⟨more, heq, hmore⟩ := h
  obtain ⟨more', heq', hmore'⟩ := h'
  exact ⟨more ++ more', by rw [heq', heq, List.append_assoc],
    List.forall_mem_append.mpr ⟨hmore, hmore'⟩⟩

theorem Log.locates_report (hnode : P node) (hphase : problem.phase = .type ∨
    ∃ name label, problem = .duplicateField name ∧ a.type? node = some (.typedField label)) :
    log.Locates a P (log.report a node problem) :=
  ⟨_, log.toList_report a node problem, List.forall_mem_singleton.mpr ⟨hnode, rfl, hphase⟩⟩

/-- A log that is taken back, but not further than to where typing started. -/
theorem Log.Locates.restore (h : start.Locates a P log) {mark : Nat} (hmark : start.size ≤ mark) :
    start.Locates a P (log.restore mark) := by
  obtain ⟨more, heq, hmore⟩ := h
  rw [size_eq_length] at hmark
  have hlist : (log.restore mark).toList = log.toList.take mark := by
    simp [Log.restore, Log.toList, Array.take_eq_extract]
  refine ⟨more.take (mark - start.toList.length), ?_, fun r hr => hmore r (List.mem_of_mem_take hr)⟩
  rw [hlist, heq, List.take_append, List.take_of_length_le hmark]

theorem Problem.ReadAt.phase (h : problem.ReadAt a node) : problem.phase = .type ∨
    ∃ name label, problem = .duplicateField name ∧ a.type? node = some (.typedField label) := by
  cases problem with
  | duplicateField name =>
    obtain ⟨label, hlabel⟩ := h
    exact .inr ⟨name, label, rfl, hlabel⟩
  | unresolvedType | templateArity => exact .inl rfl
  | _ => exact h.elim

/-- Reading a type at such a node reports at such nodes. -/
theorem Reading.admitsAt_locates (ha : a.ClosedDown P) (scope : ScopeId) :
    AdmitsAt a P scope fun space space' => space.log.Locates a P space'.log where
  part := ha.type
  refl space := .refl space.log
  trans := .trans
  table space _ := .refl space.log
  bind space _ _ := .refl space.log
  report _ _ _ hnode hproblem := Log.locates_report hnode hproblem.phase

namespace Pass.Located

variable {p' : Pass} {e : Placeholder} {change : Placeholder → Placeholder} (hp : p.Located a P start)
include hp

theorem valued : p.Valued P := by
  intro id v hv
  by_cases hlt : id.index < p.placeholders.size
  · exact (hp.placeholder id hlt).2 v hv
  · rw [placeholder_of_le (Nat.le_of_not_lt hlt)] at hv
    cases hv

/-- It is enough that no other exits are kept, and the same locals. -/
theorem of_same (hlog : start.Locates a P p'.log) (hescapes : p'.escapes ⊆ p.escapes)
    (hsize : p'.placeholders.size = p.placeholders.size)
    (hdefinition : ∀ id, (p'.placeholder id).definition = (p.placeholder id).definition)
    (hvalue : ∀ id, (p'.placeholder id).value = (p.placeholder id).value) :
    p'.Located a P start where
  log := hlog
  escape exit hexit := hp.escape exit (hescapes hexit)
  placeholder id hid := by
    rw [hdefinition, hvalue]
    exact hp.placeholder id (hsize ▸ hid)

theorem update (id : PlaceholderId) (hdefinition : ∀ e, (change e).definition = e.definition)
    (hvalue : ∀ e, (change e).value = e.value) : (p.updatePlaceholder id change).Located a P start := by
  refine hp.of_same hp.log (fun _ h => h) Array.size_modify (fun other => ?_) fun other => ?_ <;>
  rcases p.placeholder_updatePlaceholder_eq_or id other change with heq | ⟨rfl, heq⟩ <;> rw [heq]
  · exact hdefinition _
  · exact hvalue _

theorem report (hnode : P node) (hproblem : problem.phase = .type) :
    Located a P start { p with space := { p.space with log := p.log.report a node problem } } :=
  ⟨hp.log.trans (Log.locates_report hnode (.inl hproblem)), hp.escape, hp.placeholder⟩

/-- What was found since an earlier state is taken back. -/
theorem takenBack {before : Pass} (hbefore : before.Located a P start) :
    (takenBack before p).Located a P start := by
  have hmark : start.size ≤ before.log.size := by
    obtain ⟨more, heq, -⟩ := hbefore.log
    simp [Log.size_eq_length, heq]
  have hplaceholder := p.placeholder_forget
    (p.resolved.take (p.resolved.length - before.resolved.length))
  exact hp.of_same (hp.log.restore hmark) (List.take_subset _ _)
    (size_placeholders_takenBack before p)
    (fun id => (congrArg Placeholder.definition (hplaceholder id) :))
    fun id => (congrArg Placeholder.value (hplaceholder id) :)

theorem withPlaceholder (hdefinition : P e.definition) (hvalue : ∀ v, e.value = some v → P v)
    (ofLocal : List (NodeId × PlaceholderId)) :
    Located a P start { p with placeholders := p.placeholders.push e, ofLocal } where
  log := hp.log
  escape := hp.escape
  placeholder id hid := by
    rcases Nat.lt_succ_iff_lt_or_eq.mp (hid.trans_eq (Array.size_push _)) with hlt | heq
    · simpa [Pass.placeholder, Array.getD_eq_getD_getElem?, Array.getElem?_push,
        Nat.ne_of_lt hlt] using hp.placeholder id hlt
    · simpa [Pass.placeholder, Array.getD_eq_getD_getElem?, heq] using ⟨hdefinition, hvalue⟩

end Pass.Located

end

namespace Typing

open Pass

/-- A step of typing after which what held before still holds. -/
def Keeps {α : Type} (inv : Pass → Prop) (step : Typing α) : Prop :=
  ∀ p, inv p → After step p fun _ p' => inv p'

section

variable {inv : Pass → Prop} {α β : Type} {step : Typing α} {next : α → Typing β}

theorem Keeps.pure (x : α) : Keeps inv (pure x : Typing α) := fun _ hp => after_pure_iff.mpr hp

theorem Keeps.throw (fault : Fault) : Keeps inv (throw fault : Typing α) := fun _ _ => after_throw

theorem keeps_get : Keeps inv (get : Typing Pass) := fun _ hp => after_get_iff.mpr hp

theorem keeps_modify {change : Pass → Pass} (h : ∀ p, inv p → inv (change p)) :
    Keeps inv (modify change : Typing PUnit) := fun p hp => after_modify_iff.mpr (h p hp)

theorem Keeps.seq (hstep : Keeps inv step) (hnext : ∀ x, Keeps inv (next x)) :
    Keeps inv (step >>= next) := fun p hp => (hstep p hp).bind fun x p' => hnext x p'

theorem keeps_mapM {items : List α} {step : α → Typing β} (h : ∀ item ∈ items, Keeps inv (step item)) :
    Keeps inv (items.mapM step) := fun _ hp =>
  after_mapM (fun _ _ => inv) (fun _ item hitem _ p hp => h item hitem p hp) hp

theorem keeps_forM {items : List α} {step : α → Typing PUnit}
    (h : ∀ item ∈ items, Keeps inv (step item)) : Keeps inv (items.forM step) := fun _ hp =>
  after_forM (fun _ => inv) (fun _ item hitem p hp => h item hitem p hp) hp

theorem keeps_option {item? : Option α} {step : α → Typing β}
    (h : ∀ item, item? = some item → Keeps inv (step item)) : Keeps inv (item?.mapM step) := by
  cases item? with
  | none => exact .pure _
  | some item =>
    rw [Option.mapM_some]
    exact fun p hp => after_map_iff.mpr (h item rfl p hp)

theorem keeps_forIn {items : List α} {step : α → PUnit → Typing (ForInStep PUnit)}
    (h : ∀ item ∈ items, Keeps inv (step item ⟨⟩)) : Keeps inv (forIn items PUnit.unit step) := by
  induction items with
  | nil => exact .pure _
  | cons item rest ih =>
    rw [List.forIn_cons]
    refine (h item (by simp)).seq fun next => ?_
    cases next with
    | done => exact .pure _
    | yield => exact ih fun other hother => h other (by simp [hother])

end

section

variable {α : Type} {a : Arena} {P : NodeId → Prop} {start : Log} {node : NodeId} {problem : Problem}
  {target source type : TypeId}

theorem reading_keeps {step : Reading α}
    (h : Reading.Keeps (fun space space' => space.log.Locates a P space'.log) step) :
    Keeps (Located a P start) (reading step) := by
  intro p hp r p' hrun
  cases hstep : step p.space with
  | error fault =>
    simp [reading, hstep, bind, Except.bind] at hrun
  | ok result =>
    simp [reading, hstep, bind, Except.bind, pure, Except.pure] at hrun
    obtain ⟨rfl, rfl⟩ := hrun
    exact ⟨hp.log.trans (h p.space _ _ hstep), hp.escape, hp.placeholder⟩

theorem readType_keeps (ha : a.ClosedDown P) (hnode : P node) :
    Keeps (Located a P start) (readType a node) :=
  keeps_get.seq fun p => reading_keeps ((Reading.admitsAt_locates ha p.typeScope).type hnode)

theorem tabling_keeps {change : Tabling α} : Keeps (Located a P start) (tabling change) := by
  intro p hp r p' hrun
  cases hstep : change p.space.table with
  | error fault =>
    simp [tabling, reading, Reading.tabling, hstep, bind, Except.bind] at hrun
  | ok result =>
    simp [tabling, reading, Reading.tabling, hstep, bind, Except.bind, pure, Except.pure] at hrun
    obtain ⟨rfl, rfl⟩ := hrun
    exact ⟨hp.log, hp.escape, hp.placeholder⟩

theorem checking_keeps {step : TypeTable → Checking α} :
    Keeps (Located a P start) (checking step) := by
  intro p hp r p' hrun
  cases hstep : step p.table p.checker with
  | error fault =>
    simp [checking, hstep, bind, Except.bind] at hrun
  | ok result =>
    simp [checking, hstep, bind, Except.bind, pure, Except.pure] at hrun
    obtain ⟨rfl, rfl⟩ := hrun
    exact ⟨hp.log, hp.escape, hp.placeholder⟩

theorem setType_keeps : Keeps (Located a P start) (setType node type) :=
  keeps_modify fun _ hp => ⟨hp.log, hp.escape, hp.placeholder⟩

theorem addTerm_keeps {name : String} {meaning : Variable} :
    Keeps (Located a P start) (addTerm name meaning) :=
  keeps_modify fun _ hp => ⟨hp.log, hp.escape, hp.placeholder⟩

theorem inNewScope_keeps {step : Typing α} (h : Keeps (Located a P start) step) :
    Keeps (Located a P start) (inNewScope step) := by
  intro p hp
  rw [after_inNewScope_iff]
  exact (h p.pushed ⟨hp.log, hp.escape, hp.placeholder⟩).mono fun _ _ h' =>
    ⟨h'.log, h'.escape, h'.placeholder⟩

variable (hnode : P node)
include hnode

theorem report_keeps (hproblem : problem.phase = .type) :
    Keeps (Located a P start) (report a node problem) := fun _ hp =>
  after_report_iff.mpr (hp.report hnode hproblem)

theorem reportConflicts_keeps : Keeps (Located a P start) (reportConflicts a node) := by
  refine checking_keeps.seq fun _ => Keeps.seq (keeps_forIn fun conflict _ => ?_) fun _ => .pure _
  exact keeps_get.seq fun _ => (report_keeps hnode rfl).seq fun _ => .pure _

theorem fits_keeps : Keeps (Located a P start) (fits a node target source) :=
  checking_keeps.seq fun _ => (reportConflicts_keeps hnode).seq fun _ => .pure _

/-- Comparing a type with what it has to be, and reporting if it is not that. -/
theorem demand_keeps {next : PUnit → Typing α} (hproblem : problem.phase = .type)
    (hnext : Keeps (Located a P start) (next ⟨⟩)) :
    Keeps (Located a P start) (demand a node target source problem next) := by
  refine (fits_keeps hnode).seq fun verdict => ?_
  split
  · exact (report_keeps hnode hproblem).seq fun _ => hnext
  · exact hnext

theorem firstMatch?_keeps {handlers : List (TypeId × TypeId)} :
    Keeps (Located a P start) (firstMatch? a node type handlers) := by
  induction handlers with
  | nil => exact (reportConflicts_keeps hnode).seq fun _ => .pure _
  | cons handler rest ih =>
    refine keeps_get.seq fun p => checking_keeps.seq fun verdict => ?_
    split
    · exact checking_keeps.seq fun _ => keeps_get.seq fun p => tabling_keeps.seq fun _ => .pure _
    · exact (keeps_modify fun _ hp => ⟨hp.log, hp.escape, hp.placeholder⟩).seq fun _ => ih

theorem answer_keeps {message : NodeId} {receiver : TypeId} (hmessage : P message) :
    Keeps (Located a P start) (answer a node message receiver type) := by
  refine keeps_get.seq fun p => ?_
  dsimp only
  split
  · exact .pure _
  · split
    · exact .pure _
    · refine (firstMatch?_keeps hmessage).seq fun found => ?_
      split
      · exact (keeps_modify fun _ hp => ⟨hp.log, hp.escape, hp.placeholder⟩).seq fun _ => .pure _
      · exact (report_keeps hnode rfl).seq fun _ => .pure _

end

section

variable {a : Arena} {P : NodeId → Prop} {start : Log} {compute : NodeId → Typing TypeId}
  {node : NodeId} {name : String}
  (hcompute : ∀ n, P n → Keeps (Located a P start) (compute n))
include hcompute

theorem valueType_keeps {value : Option NodeId} (hvalue : ∀ v, value = some v → P v)
    {declared : Option TypeId} :
    Keeps (Located a P start) (valueType a compute value declared) := by
  cases value with
  | none => exact .pure _
  | some v =>
    refine (hcompute v (hvalue v rfl)).seq fun found => ?_
    cases declared with
    | none => exact .pure _
    | some expected => exact demand_keeps (hvalue v rfl) rfl (.pure _)

/-- What a first attempt reports is taken back if there is a second one. -/
theorem resolveNow_keeps (id : PlaceholderId) :
    Keeps (Located a P start) (resolveNow a compute id) := by
  intro p hp
  have hclosed : ∀ q type, q.Located a P start → (closed p q id type).Located a P start := by
    intro q type hq
    have hfound : (q.updatePlaceholder id ({ · with result := some type })).Located a P start :=
      hq.update id (fun _ => rfl) fun _ => rfl
    exact ⟨hfound.log, hfound.escape, hfound.placeholder⟩
  have hvalue := hp.valued id
  have hopened : (p.opened id).Located a P start := ⟨hp.log, hp.escape, hp.placeholder⟩
  rw [after_resolveNow_iff]
  by_cases hlt : id.index < p.placeholders.size
  · refine (valueType_keeps hcompute hvalue _ hopened).mono fun found q hq => ?_
    split
    · have hback : ((takenBack (p.opened id) q).updatePlaceholder id
          ({ · with result := some .anything })).Located a P start :=
        (hq.takenBack hopened).update id (fun _ => rfl) fun _ => rfl
      have hphase : (Problem.recursiveDefinition (p.placeholder id).name).phase = .type := rfl
      have hmarked := hback.report (hp.placeholder id hlt).1 hphase
      exact (valueType_keeps hcompute hvalue _ hmarked).mono fun _ q' hq' => hclosed q' _ hq'
    · exact hclosed q _ hq
  · -- there is no such local, so it has no value that could ask for it
    rw [placeholder_of_le (Nat.le_of_not_lt hlt)]
    refine after_pure_iff.mpr ?_
    have hcyclic : ((p.opened id).placeholder id).cyclic = false :=
      congrArg Placeholder.cyclic (placeholder_of_le (Nat.le_of_not_lt hlt))
    rw [hcyclic]
    exact hclosed _ _ hopened

theorem resolve_keeps (id : PlaceholderId) : Keeps (Located a P start) (resolve a compute id) := by
  refine keeps_get.seq fun p => ?_
  dsimp only
  split
  · exact .pure _
  · split
    · split
      · exact .pure _
      · refine Keeps.seq (keeps_modify fun q hq => ?_) fun _ => .pure _
        exact hq.update id (fun _ => rfl) fun _ => rfl
    · exact resolveNow_keeps hcompute id

theorem meaningType_keeps (meaning : Meaning) :
    Keeps (Located a P start) (meaningType a compute meaning) := by
  cases meaning with
  | known type => exact .pure _
  | pending id => exact resolve_keeps hcompute id

theorem reference_keeps (hnode : P node) :
    Keeps (Located a P start) (reference a compute node name) := by
  refine keeps_get.seq fun p => ?_
  split
  · exact meaningType_keeps hcompute _
  · exact (report_keeps hnode rfl).seq fun _ => .pure _

theorem fieldsFrom_keeps {nodes : List NodeId} (hnodes : ∀ n ∈ nodes, P n) (position : Nat) :
    Keeps (Located a P start) (fieldsFrom a compute position nodes) := by
  induction nodes generalizing position with
  | nil => exact .pure _
  | cons n rest ih =>
    obtain ⟨hn, hrest⟩ := List.forall_mem_cons.mp hnodes
    exact (hcompute n hn).seq fun type => (ih hrest (position + 1)).seq fun fields => .pure _

/-- The types of the locals of a group, wherever the locals were declared. -/
theorem defineLocals_keeps {group : NodeId} :
    Keeps (Located a P start) (defineLocals a compute group) := by
  refine keeps_forM fun definition _ => keeps_get.seq fun p => ?_
  split
  · exact (resolve_keeps hcompute _).seq fun type => setType_keeps
  · exact .pure _

section

variable (hnode : P node) (hparts : ∀ c ∈ a.expressions node, P c)
include hparts

theorem operand_keeps : Keeps (Located a P start) (operand a compute node) := by
  rw [operand]
  split
  · next first rest hfirst => exact hcompute first (hparts first (by simp [hfirst]))
  · exact .pure _

theorem array_keeps : Keeps (Located a P start) (array a compute node) := by
  refine (keeps_mapM fun item hitem => hcompute item (hparts item hitem)).seq fun items => ?_
  dsimp only
  split
  · rw [pure_bind]
    exact tabling_keeps
  · exact tabling_keeps.seq fun _ => tabling_keeps

theorem struct_keeps : Keeps (Located a P start) (struct a compute node) :=
  (fieldsFrom_keeps hcompute hparts 0).seq fun _ => tabling_keeps

theorem newObject_keeps : Keeps (Located a P start) (newObject a compute node) := by
  rw [newObject]
  split
  · exact .pure _
  · next code rest hcode =>
    refine (hcompute code (hparts code (by simp [hcode]))).seq fun _ => ?_
    split
    · exact .pure _
    · refine tabling_keeps.seq fun object => Keeps.seq (keeps_forIn fun handler _ => ?_) fun _ => .pure _
      refine keeps_get.seq fun p => ?_
      dsimp only
      split
      · exact .pure _
      · refine Keeps.seq (keeps_forIn fun entry _ => ?_) fun _ => .pure _
        exact tabling_keeps.seq fun _ => .pure _

theorem logic_keeps (op : LogicOp) : Keeps (Located a P start) (logic a compute node op) := by
  refine Keeps.seq (keeps_forIn fun operand hoperand => ?_) fun _ => .pure _
  refine (hcompute operand (hparts operand hoperand)).seq fun type => ?_
  exact demand_keeps (hparts operand hoperand) rfl (.pure _)

theorem conditional_keeps : Keeps (Located a P start) (conditional a compute node) := by
  rw [conditional]
  split
  · exact .pure _
  · next condition branches hall =>
    rw [hall] at hparts
    obtain ⟨hcondition, hbranches⟩ := List.forall_mem_cons.mp hparts
    refine (hcompute condition hcondition).seq fun type => demand_keeps hcondition rfl ?_
    exact (keeps_mapM fun branch hbranch => hcompute branch (hbranches branch hbranch)).seq
      fun types => tabling_keeps

/-- The breaks of a loop are its own. -/
theorem repeatLoop_keeps : Keeps (Located a P start) (repeatLoop a compute node) := by
  have hset : ∀ breaks, Keeps (Located a P start) (modify ({ · with breaks })) := fun breaks =>
    keeps_modify fun _ hp => ⟨hp.log, hp.escape, hp.placeholder⟩
  refine keeps_get.seq fun outer => (hset []).seq fun _ => (operand_keeps hcompute hparts).seq fun _ =>
    keeps_get.seq fun p => (hset outer.breaks).seq fun _ => ?_
  split
  · exact .pure _
  · exact tabling_keeps

theorem breakExit_keeps : Keeps (Located a P start) (breakExit a compute node) :=
  (operand_keeps hcompute hparts).seq fun _ =>
    (keeps_modify fun _ hp => ⟨hp.log, hp.escape, hp.placeholder⟩).seq fun _ => .pure _

include hnode

theorem assignment_keeps : Keeps (Located a P start) (assignment a compute node name) := by
  refine (operand_keeps hcompute hparts).seq fun value => keeps_get.seq fun p => ?_
  dsimp only
  split
  · exact (report_keeps hnode rfl).seq fun _ => .pure _
  · refine (meaningType_keeps hcompute _).seq fun target => ?_
    split
    · exact (report_keeps hnode rfl).seq fun _ => .pure _
    · exact demand_keeps hnode rfl (.pure _)

theorem call_keeps : Keeps (Located a P start) (call a compute node) := by
  rw [call]
  split
  · next receiver message hcall =>
    have hmessage := hparts message (by simp [hcall])
    exact (hcompute receiver (hparts receiver (by simp [hcall]))).seq fun receiverType =>
      (hcompute message hmessage).seq fun messageType => answer_keeps hnode hmessage
  · exact .pure _

theorem returnExit_keeps : Keeps (Located a P start) (returnExit a compute node) := by
  refine (operand_keeps hcompute hparts).seq fun type => Keeps.seq (keeps_modify fun p hp => ?_)
    fun _ => .pure _
  refine ⟨hp.log, List.forall_mem_append.mpr ⟨hp.escape, ?_⟩, hp.placeholder⟩
  exact List.forall_mem_singleton.mpr hnode

/-- What leaves a handler is at the handler, its body or the returns in it. -/
theorem handlerExits_keeps {p : Pass} (hp : p.Located a P start) :
    After (handlerExits a compute node) p fun exits p' =>
      p'.Located a P start ∧ ∀ exit ∈ exits, P exit.1 := by
  have hplace : P ((a.expressions node).head?.getD node) := by
    cases hhead : (a.expressions node).head? with
    | none => exact hnode
    | some body => exact hparts body (List.mem_of_mem_head? hhead)
  have hinner : Located a P start { p with escapes := [], breaks := [] } :=
    ⟨hp.log, List.forall_mem_nil _, hp.placeholder⟩
  simp only [handlerExits_eq, after_bind_iff, after_get_iff, after_modify_iff]
  refine (operand_keeps hcompute hparts _ hinner).mono fun value q hq => ?_
  simp only [collectExits, after_bind_iff, after_get_iff, after_modify_iff, after_pure_iff]
  refine ⟨⟨hq.log, hp.escape, hq.placeholder⟩, List.forall_mem_append.mpr ⟨hq.escape, ?_⟩⟩
  split
  · exact List.forall_mem_nil _
  · exact List.forall_mem_singleton.mpr hplace

end

end

section

variable {a : Arena} {P : NodeId → Prop} {start : Log} {options : TypingOptions}
  {compute : NodeId → Typing TypeId} {node group definition : NodeId}

theorem handlerResult_keeps {declared : Option TypeId} {exits : List (NodeId × TypeId)}
    (hexits : ∀ exit ∈ exits, P exit.1) :
    Keeps (Located a P start) (handlerResult a declared exits) := by
  cases declared with
  | none => exact tabling_keeps
  | some expected =>
    refine Keeps.seq (keeps_forIn fun exit hexit => ?_) fun _ => .pure _
    exact demand_keeps (hexits exit hexit) rfl (.pure _)

variable (ha : a.ClosedDown P)
include ha

theorem declareLocal_keeps (hdefinition : P definition) :
    Keeps (Located a P start) (declareLocal a definition) := by
  have hdeclared : ∀ type, (a.types definition).head? = some type → P type := fun type htype =>
    ha.type definition hdefinition type (List.mem_of_mem_head? htype)
  have hvalue : ∀ v, (a.expressions definition).head? = some v → P v := fun v hv =>
    ha.expression definition hdefinition v (List.mem_of_mem_head? hv)
  rw [declareLocal]
  split
  · refine (keeps_option fun type htype => readType_keeps ha (hdeclared type htype)).seq
      fun declared p hp => ?_
    simp only [after_bind_iff, after_get_iff, after_set_iff]
    exact addTerm_keeps _ (hp.withPlaceholder hdefinition hvalue _)
  · exact .pure _

theorem declareLocals_keeps (hgroup : P group) :
    Keeps (Located a P start) (declareLocals a group) :=
  keeps_forM fun definition hdefinition =>
    declareLocal_keeps ha (ha.expression group hgroup definition hdefinition)

variable (hcompute : ∀ n, P n → Keeps (Located a P start) (compute n)) (hnode : P node)
include hcompute hnode

theorem handlerBody_keeps (input : TypeId) :
    Keeps (Located a P start) (handlerBody a compute node input) := by
  refine (keeps_option fun type htype => readType_keeps ha
    (ha.type node hnode type (List.mem_of_getElem? htype))).seq fun declared => keeps_get.seq fun p => ?_
  refine Keeps.seq (keeps_forIn fun f _ => addTerm_keeps.seq fun _ => .pure _) fun _ p hp => ?_
  refine (handlerExits_keeps hcompute hnode (ha.expression node hnode) hp).bind ?_
  rintro exits q ⟨hq, hexits⟩
  exact ((handlerResult_keeps hexits).seq fun _ => .pure _) q hq

omit hcompute in
theorem handlerInput_keeps : Keeps (Located a P start) (handlerInput a node) := by
  rw [handlerInput]
  split
  · next type rest htype =>
    exact readType_keeps ha (ha.type node hnode type (by simp [htype]))
  · exact .pure _

theorem handler_keeps : Keeps (Located a P start) (handler a compute node) := by
  rw [handler_eq]
  refine (inNewScope_keeps ?_).seq fun _ => tabling_keeps
  exact (handlerInput_keeps ha hnode).seq (handlerBody_keeps ha hcompute hnode)

omit ha hcompute hnode in
theorem reportUnreachable_keeps {item : NodeId} (hitem : P item) (reach : Reach) :
    Keeps (Located a P start) (reportUnreachable a options reach item) := by
  rw [reportUnreachable]
  split
  · exact report_keeps hitem rfl
  · exact .pure _

omit ha hnode in
theorem typeItem_keeps {item : NodeId} (hitem : P item) :
    Keeps (Located a P start) (typeItem a compute item) := by
  rw [typeItem]
  split
  · exact (defineLocals_keeps hcompute).seq fun _ => setType_keeps.seq fun _ => .pure _
  · exact hcompute item hitem

omit ha hnode in
theorem itemsFrom_keeps {items : List NodeId} (hitems : ∀ item ∈ items, P item) (reach : Reach)
    (last : TypeId) :
    Keeps (Located a P start) (itemsFrom a options compute reach last items) := by
  induction items generalizing reach last with
  | nil => exact .pure _
  | cons item rest ih =>
    obtain ⟨hitem, hrest⟩ := List.forall_mem_cons.mp hitems
    rw [itemsFrom_cons]
    exact (reportUnreachable_keeps hitem reach).seq fun _ =>
      (typeItem_keeps hcompute hitem).seq fun type => ih hrest _ type

theorem block_keeps : Keeps (Located a P start) (block a options compute node) := by
  have hitems := ha.expression node hnode
  refine inNewScope_keeps (Keeps.seq (keeps_forIn fun item hitem => ?_) fun _ =>
    itemsFrom_keeps hcompute hitems _ _)
  split
  · exact (declareLocals_keeps ha (hitems item hitem)).seq fun _ => .pure _
  · exact .pure _

theorem locals_keeps : Keeps (Located a P start) (locals a compute node) :=
  (declareLocals_keeps ha hnode).seq fun _ => (defineLocals_keeps hcompute).seq fun _ => .pure _

/-- Every rule reports at such nodes alone. -/
theorem ofForm_keeps (form : ExprForm) :
    Keeps (Located a P start) (ofForm a options compute node form) := by
  have hparts := ha.expression node hnode
  cases form with
  | constant c => exact .pure _
  | reference name => exact reference_keeps hcompute hnode
  | array => exact array_keeps hcompute hparts
  | struct => exact struct_keeps hcompute hparts
  | structField _ | nested | localDef => exact operand_keeps hcompute hparts
  | newObject => exact newObject_keeps hcompute hparts
  | call => exact call_keeps hcompute hnode hparts
  | logic op => exact logic_keeps hcompute hparts op
  | conditional => exact conditional_keeps hcompute hparts
  | repeatLoop => exact repeatLoop_keeps hcompute hparts
  | assignment name => exact assignment_keeps hcompute hnode hparts
  | returnExit => exact returnExit_keeps hcompute hnode hparts
  | breakExit => exact breakExit_keeps hcompute hparts
  | locals => exact locals_keeps ha hcompute hnode
  | handler => exact handler_keeps ha hcompute hnode
  | block => exact block_keeps ha hcompute hnode
  | function | unary | binary | whileLoop => exact .pure _

end

/-- Typing a node reports at the nodes in it alone, however deep it goes. -/
theorem computeWithin_keeps {a : Arena} {P : NodeId → Prop} (ha : a.ClosedDown P) {start : Log}
    (options : TypingOptions) (steps : Nat) {node : NodeId} (hnode : P node) :
    Keeps (Located a P start) (computeWithin a options steps node) := by
  induction steps generalizing node with
  | zero => exact .throw _
  | succ steps ih =>
    have hnoted : ∀ type, Keeps (Located a P start) (noted node type) :=
      fun type => setType_keeps.seq fun _ => .pure _
    rw [computeWithin_succ]
    split
    · next form _ => exact (ofForm_keeps ha (fun n hn => ih hn) hnode form).seq hnoted
    · exact hnoted .anything

end Typing

open Pass Typing in
/-- What a check adds to a log is at nodes in the tree, with their spans. -/
theorem check_locates {a : Arena} {P : NodeId → Prop} (ha : a.ClosedDown P) {options : TypingOptions}
    {root : NodeId} (hroot : P root) {log log' : Log} {typed : TypedTree}
    (hcheck : check a options root log = .ok (typed, log')) : log.Locates a P log' := by
  obtain ⟨print, t, hstart, -⟩ := Pass.start_eq options log
  have hlocated : (started options log print t).Located a P log :=
    ⟨.refl log, (fun _ h => nomatch h), fun _ h => nomatch h⟩
  have htree : Keeps (Located a P log) (Typing.tree a options root) := by
    refine (computeWithin_keeps ha options _ hroot).seq fun value => keeps_get.seq fun p => ?_
    split
    · exact .pure _
    · exact tabling_keeps
  obtain ⟨result, p, hrun, rfl, rfl⟩ := check_eq_ok hstart hcheck
  exact (htree _ hlocated result p hrun).log

end MessageLang
