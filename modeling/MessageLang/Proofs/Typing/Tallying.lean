import MessageLang.Proofs.Typing.Completing
import MessageLang.Proofs.Typing.Owing
import MessageLang.Proofs.Typing.Supplying

namespace MessageLang

open MessageLang.Tree (Visible)

/-- How often something is reported stays as it is. -/
def TypeSpace.SameCount (r : Report) (space space' : TypeSpace) : Prop :=
  space'.log.toList.count r = space.log.toList.count r

theorem Log.count_report (log : Log) (a : Arena) (node : NodeId) (problem : Problem) (r : Report) :
    (log.report a node problem).toList.count r =
      log.toList.count r + if r = ⟨problem, node, a.span node⟩ then 1 else 0 := by
  rw [Log.toList_report, List.count_append, List.count_singleton]
  simp only [beq_iff_eq, eq_comm (a := r)]

theorem Reading.admits_sameCount {r : Report} (hr : r.problem.isOfType = false) (scope : ScopeId) :
    Admits scope (TypeSpace.SameCount r) where
  refl _ := rfl
  trans h h' := Eq.trans h' h
  table _ _ := rfl
  bind _ _ _ := rfl
  report space a node problem hproblem := by
    refine (space.log.count_report a node problem r).trans ?_
    rw [if_neg, Nat.add_zero]
    rintro rfl
    exact Bool.false_ne_true (hr.symm.trans hproblem)

namespace Pass

/-- How often something has been reported. -/
def heard (r : Report) (p : Pass) : Nat := p.log.toList.count r

open Classical in
/-- Whether something is owed in the value of a local that can be seen and is still to be found, as a
number. -/
noncomputable def due (a : Arena) (R : Tree) (r : Report) (p : Pass) (path : List Tree) : Nat :=
  if Owed a R r ∧ p.Touches path [] (r.origin a) then 1 else 0

/-- How often something has been reported or will be when locals that can be seen are found. -/
noncomputable def tally (a : Arena) (R : Tree) (r : Report) (p : Pass) (path : List Tree) : Nat :=
  p.heard r + p.due a R r path

/-- A change by which such a number rises. Typing comes back to the frame where it was. -/
structure Raises (a : Arena) (R : Tree) (r : Report) (path : List Tree) (p : Pass) (n : Nat)
    (p' : Pass) : Prop where
  rooted : p'.Rooted
  scope_eq : p'.scope = p.scope
  tally_eq : p'.tally a R r path = p.tally a R r path + n

variable {a : Arena} {R N : Tree} {r : Report} {path : List Tree} {p p' p'' : Pass} {n m : Nat}

theorem due_congr {path' : List Tree}
    (h : p'.Touches path' [] (r.origin a) ↔ p.Touches path [] (r.origin a)) :
    p'.due a R r path' = p.due a R r path := by rw [due, due, h]

theorem due_of_touches (hr : Owed a R r) (h : p.Touches path [] (r.origin a)) :
    p.due a R r path = 1 := if_pos ⟨hr, h⟩

theorem due_of_not_touches (h : ¬ p.Touches path [] (r.origin a)) : p.due a R r path = 0 :=
  if_neg fun h' => h h'.2

theorem due_of_not_owed (hr : ¬ Owed a R r) : p.due a R r path = 0 :=
  if_neg fun h => hr h.1

/-- An expression that is no block has no locals of its own. -/
theorem tally_cons (hblock : N.form ≠ .expr .block) :
    p.tally a R r (N :: path) = p.tally a R r path := by
  rw [tally, tally, due_congr]
  simp only [Touches, visible_cons_iff hblock, List.not_mem_nil, false_and, exists_false]

theorem Raises.refl (h : p.Rooted) : p.Raises a R r path 0 p := ⟨h, rfl, rfl⟩

theorem Raises.trans (h : p.Raises a R r path n p') (h' : p'.Raises a R r path m p'') :
    p.Raises a R r path (n + m) p'' :=
  ⟨h'.rooted, h'.scope_eq.trans h.scope_eq, by rw [h'.tally_eq, h.tally_eq, Nat.add_assoc]⟩

theorem Raises.after (h : p.Raises a R r path 0 p') (h' : p'.Raises a R r path n p'') :
    p.Raises a R r path n p'' := Nat.zero_add n ▸ h.trans h'

/-- What matters is which names and locals there are, which of these are still to be found, and
what has been reported. -/
theorem Raises.of_eq (h : p.Rooted) (hterms : p'.terms = p.terms) (hscope : p'.scope = p.scope)
    (hofLocal : p'.ofLocal = p.ofLocal) (hwaiting : ∀ id, p'.Waiting id ↔ p.Waiting id)
    (hheard : p'.heard r = p.heard r) : p.Raises a R r path 0 p' where
  rooted := by
    refine ⟨?_, ?_⟩ <;> rw [hterms]
    · exact h.lt
    · exact h.names
  scope_eq := hscope
  tally_eq := by
    rw [tally, tally, hheard, due_congr, Nat.add_zero]
    simp only [Touches, current?, hwaiting, hofLocal]

theorem Rooted.pushed (h : p.Rooted) : p.pushed.Rooted := h.grows (p.grows_pushed [] fun _ => False)

end Pass

namespace Typing

open Pass

/-- A step by which such a number rises. -/
def Raises {α : Type} (a : Arena) (R : Tree) (r : Report) (path : List Tree) (step : Typing α)
    (n : Nat) : Prop :=
  ∀ p, p.Rooted → After step p fun _ p' => p.Raises a R r path n p'

section

variable {α β : Type} {a : Arena} {R N : Tree} {r : Report} {path : List Tree} {n m : Nat}
  {node other : NodeId} {target source type : TypeId} {step : Typing α} {next : α → Typing β}

/-- A step after others. -/
theorem Raises.on {p q : Pass} (h : Raises a R r path step m) (hq : p.Raises a R r path n q) :
    After step q fun _ q' => p.Raises a R r path (n + m) q' :=
  (h q hq.rooted).mono fun _ _ => hq.trans

theorem Raises.pure (x : α) : Raises a R r path (pure x : Typing α) 0 := fun _ hp =>
  after_pure_iff.mpr (.refl hp)

theorem Raises.bind (h : Raises a R r path step n) (hnext : ∀ x, Raises a R r path (next x) m) :
    Raises a R r path (step >>= next) (n + m) := fun p hp =>
  (h p hp).bind fun x _ h₁ => (hnext x).on h₁

/-- A step that raises nothing, and then another one. -/
theorem Raises.seq (h : Raises a R r path step 0) (hnext : ∀ x, Raises a R r path (next x) n) :
    Raises a R r path (step >>= next) n := Nat.zero_add n ▸ h.bind hnext

/-- A step, and then another one that raises nothing. -/
theorem Raises.last (h : Raises a R r path step n) (hnext : ∀ x, Raises a R r path (next x) 0) :
    Raises a R r path (step >>= next) n := h.bind hnext

theorem raises_get : Raises a R r path (get : Typing Pass) 0 := fun _ hp =>
  after_get_iff.mpr (.refl hp)

theorem raises_modify {change : Pass → Pass}
    (h : ∀ p, (change p).terms = p.terms ∧ (change p).scope = p.scope ∧
      (change p).ofLocal = p.ofLocal ∧ (change p).placeholders = p.placeholders ∧
        (change p).resolving = p.resolving ∧ (change p).log = p.log) :
    Raises a R r path (modify change) 0 := fun p hp => by
  obtain ⟨hterms, hscope, hofLocal, hplaceholders, hresolving, hlog⟩ := h p
  refine after_modify_iff.mpr (.of_eq hp hterms hscope hofLocal (fun id => ?_) ?_)
  · rw [Waiting, placeholder, hplaceholders, hresolving, Waiting, placeholder]
  · rw [heard, hlog, heard]

theorem raises_mapM {f : NodeId → Typing β} {trees : List Tree}
    (h : ∀ T ∈ trees, Raises a R r path (f T.id) (debt a R r T)) :
    Raises a R r path ((trees.map Tree.id).mapM f) (trees.map (debt a R r)).sum := by
  induction trees with
  | nil => exact .pure _
  | cons T trees ih =>
    obtain ⟨hT, htrees⟩ := List.forall_mem_cons.mp h
    rw [List.map_cons, List.mapM_cons, List.map_cons, List.sum_cons]
    exact hT.bind fun _ => (ih htrees).bind fun _ => .pure _

/-- A loop that is never left early. -/
theorem raises_forIn {items : List β} {body : β → PUnit → Typing (ForInStep PUnit)}
    {weight : β → Nat} (h : ∀ x ∈ items, ∀ p, p.Rooted → After (body x ⟨⟩) p fun next p' =>
      next = .yield ⟨⟩ ∧ p.Raises a R r path (weight x) p') :
    Raises a R r path (forIn items PUnit.unit body) (items.map weight).sum := by
  induction items with
  | nil => exact .pure _
  | cons x items ih =>
    obtain ⟨hx, hitems⟩ := List.forall_mem_cons.mp h
    intro p hp
    rw [List.forIn_cons, List.map_cons, List.sum_cons]
    refine (hx p hp).bind ?_
    rintro _ p₁ ⟨rfl, h₁⟩
    exact (ih hitems p₁ h₁.rooted).mono fun _ _ => h₁.trans

/-- A loop whose rounds raise nothing. -/
theorem raises_forIn_zero {items : List β} {body : β → PUnit → Typing (ForInStep PUnit)}
    (h : ∀ x ∈ items, ∀ p, p.Rooted → After (body x ⟨⟩) p fun next p' =>
      next = .yield ⟨⟩ ∧ p.Raises a R r path 0 p') :
    Raises a R r path (forIn items PUnit.unit body) 0 := by
  have hsum : (items.map fun _ => 0).sum = 0 := List.sum_eq_zero (by simp)
  exact hsum ▸ raises_forIn h

theorem reading_raises {step : Reading α} (h : Reading.Keeps (TypeSpace.SameCount r) step) :
    Raises a R r path (reading step) 0 := by
  intro p hp x p' hrun
  cases hstep : step p.space with
  | error fault => simp [reading, hstep, bind, Except.bind] at hrun
  | ok result =>
    simp [reading, hstep, bind, Except.bind, Pure.pure, Except.pure] at hrun
    obtain ⟨rfl, rfl⟩ := hrun
    exact .of_eq hp rfl rfl rfl (fun _ => Iff.rfl) (h p.space _ _ hstep)

theorem checking_raises {step : TypeTable → Checking α} : Raises a R r path (checking step) 0 := by
  intro p hp x p' hrun
  cases hstep : step p.table p.checker with
  | error fault => simp [checking, hstep, bind, Except.bind] at hrun
  | ok result =>
    simp [checking, hstep, bind, Except.bind, Pure.pure, Except.pure] at hrun
    obtain ⟨rfl, rfl⟩ := hrun
    exact .of_eq hp rfl rfl rfl (fun _ => Iff.rfl) rfl

theorem setType_raises : Raises a R r path (setType node type) 0 :=
  raises_modify fun _ => ⟨rfl, rfl, rfl, rfl, rfl, rfl⟩

/-- Reporting something raises how often that has been reported, and nothing else. -/
theorem report_raises {problem : Problem} : Raises a R r path (report a node problem)
    (if r = ⟨problem, node, a.span node⟩ then 1 else 0) := fun p hp => by
  refine after_report_iff.mpr ⟨⟨hp.lt, hp.names⟩, rfl, ?_⟩
  have hheard := p.log.count_report a node problem r
  exact (congrArg (· + p.due a R r path) hheard).trans (Nat.add_right_comm ..)

theorem report_other_raises {problem : Problem} (hr : r.problem ≠ problem) :
    Raises a R r path (report a node problem) 0 := by
  have hraises : Raises a R r path (report a node problem)
      (if r = ⟨problem, node, a.span node⟩ then 1 else 0) := report_raises
  rwa [if_neg fun h => hr (congrArg Report.problem h)] at hraises

end

section

variable {α : Type} {a : Arena} {R N : Tree} {r : Report} {path : List Tree} {node other : NodeId}
  {target source type : TypeId} {options : TypingOptions} (hr : r.problem.isOwed options)
include hr

theorem tabling_raises {change : Tabling α} : Raises a R r path (tabling change) 0 :=
  reading_raises ((Reading.admits_sameCount (Problem.isOfType_of_isOwed hr) default).tabling change)

theorem readType_raises : Raises a R r path (readType a node) 0 :=
  raises_get.seq fun p =>
    reading_raises ((Reading.admits_sameCount (Problem.isOfType_of_isOwed hr) p.typeScope).type a node)

theorem readOption_raises {node? : Option NodeId} :
    Raises a R r path (node?.mapM (readType a)) 0 := by
  cases node? with
  | none => exact .pure _
  | some node =>
    rw [Option.mapM_some]
    exact fun p hp => after_map_iff.mpr (readType_raises hr p hp)

theorem reportConflicts_raises : Raises a R r path (reportConflicts a node) 0 := by
  refine checking_raises.seq fun conflicts => ?_
  refine (raises_forIn_zero fun conflict _ p hp => ?_).seq fun _ => .pure _
  rw [after_bind_iff, after_get_iff]
  refine (report_other_raises ?_ p hp).bind fun _ p₁ h₁ => after_pure_iff.mpr ⟨rfl, h₁⟩
  exact Problem.ne_of_isOwed hr rfl

theorem fits_raises : Raises a R r path (fits a node target source) 0 :=
  checking_raises.seq fun _ => (reportConflicts_raises hr).seq fun _ => .pure _

/-- Comparing a type with what it has to be, and reporting if it is not that. -/
theorem demand_raises {problem : Problem} {next : PUnit → Typing α} {n : Nat}
    (hproblem : r.problem ≠ problem) (hnext : Raises a R r path (next ⟨⟩) n) :
    Raises a R r path (demand a node target source problem next) n := by
  refine (fits_raises hr).seq fun verdict => ?_
  split
  · exact (report_other_raises hproblem).seq fun _ => hnext
  · exact hnext

theorem valueType_raises {compute : NodeId → Typing TypeId} {value : NodeId} {n : Nat}
    {declared : Option TypeId} (hvalue : Raises a R r path (compute value) n) :
    Raises a R r path (valueType a compute (some value) declared) n :=
  hvalue.last fun _ => match declared with
    | none => .pure _
    | some _ => demand_raises hr (Problem.ne_of_isOwed hr rfl) (.pure _)

theorem handlerResult_raises {declared : Option TypeId} {exits : List (NodeId × TypeId)} :
    Raises a R r path (handlerResult a declared exits) 0 := by
  cases declared with
  | none => exact tabling_raises hr
  | some expected =>
    refine Raises.seq (raises_forIn_zero ?_) fun _ => .pure _
    rintro ⟨node, type⟩ - p hp
    have hstart : p.Raises a R r path 0 p := .refl hp
    refine ((fits_raises hr).on hstart).bind fun verdict p₁ h₁ => ?_
    split
    · exact ((report_other_raises (Problem.ne_of_isOwed hr rfl)).on h₁).bind fun _ p₂ h₂ => after_pure_iff.mpr ⟨rfl, h₂⟩
    · exact after_pure_iff.mpr ⟨rfl, h₁⟩

theorem firstMatch?_raises {message : NodeId} {handlers : List (TypeId × TypeId)} :
    Raises a R r path (firstMatch? a message type handlers) 0 := by
  induction handlers with
  | nil => exact (reportConflicts_raises hr).seq fun _ => .pure _
  | cons handler rest ih =>
    refine raises_get.seq fun p => checking_raises.seq fun verdict => ?_
    split
    · exact checking_raises.seq fun _ => raises_get.seq fun p =>
        (tabling_raises hr).seq fun _ => .pure _
    · exact Raises.seq (raises_modify fun _ => ⟨rfl, rfl, rfl, rfl, rfl, rfl⟩) fun _ => ih

theorem answer_raises {message : NodeId} {receiver : TypeId} :
    Raises a R r path (answer a node message receiver type) 0 := by
  refine raises_get.seq fun p => ?_
  dsimp only
  split
  · exact .pure _
  · split
    · exact .pure _
    · refine (firstMatch?_raises hr).seq fun found => ?_
      split
      · exact Raises.seq (raises_modify fun _ => ⟨rfl, rfl, rfl, rfl, rfl, rfl⟩) fun _ => .pure _
      · exact (report_other_raises (Problem.ne_of_isOwed hr rfl)).seq fun _ => .pure _

section

variable {compute : NodeId → Typing TypeId}
  (hparts : a.expressions node = N.expressions.map Tree.id)
  (hcompute : ∀ C ∈ N.expressions, Raises a R r path (compute C.id) (debt a R r C))
include hparts hcompute

omit hr in
theorem operand_raises (hfew : N.expressions.length ≤ 1) :
    Raises a R r path (operand a compute node) (N.expressions.map (debt a R r)).sum := by
  rw [operand, hparts]
  rcases hlist : N.expressions with _ | ⟨V, _ | ⟨W, rest⟩⟩
  · exact .pure _
  · rw [hlist] at hcompute
    simpa using hcompute V (List.mem_singleton_self V)
  · simp [hlist] at hfew

theorem array_raises :
    Raises a R r path (array a compute node) (N.expressions.map (debt a R r)).sum := by
  rw [array, hparts]
  refine (raises_mapM hcompute).last fun items => ?_
  dsimp only
  split
  · rw [pure_bind]
    exact tabling_raises hr
  · exact (tabling_raises hr).seq fun _ => tabling_raises hr

omit hparts hr in
theorem fieldsFrom_raises {trees : List Tree} (hsub : ∀ T ∈ trees, T ∈ N.expressions)
    (position : Nat) : Raises a R r path (fieldsFrom a compute position (trees.map Tree.id))
      (trees.map (debt a R r)).sum := by
  induction trees generalizing position with
  | nil => exact .pure _
  | cons T trees ih =>
    obtain ⟨hT, htrees⟩ := List.forall_mem_cons.mp hsub
    rw [List.map_cons, fieldsFrom, List.map_cons, List.sum_cons]
    exact (hcompute T hT).bind fun _ => (ih htrees _).bind fun _ => .pure _

theorem struct_raises :
    Raises a R r path (struct a compute node) (N.expressions.map (debt a R r)).sum := by
  rw [struct, hparts]
  exact (fieldsFrom_raises hcompute (fun _ h => h) 0).last fun _ => tabling_raises hr

theorem newObject_raises (hone : N.expressions.length = 1) :
    Raises a R r path (newObject a compute node) (N.expressions.map (debt a R r)).sum := by
  obtain ⟨V, hlist⟩ := List.length_eq_one_iff.mp hone
  rw [hlist] at hparts hcompute
  rw [newObject, hparts, hlist, List.map_singleton, List.map_singleton, List.sum_singleton]
  dsimp only
  refine (hcompute V (List.mem_singleton_self V)).last fun _ => ?_
  split
  · exact .pure _
  · refine (tabling_raises hr).seq fun object => Raises.seq (raises_forIn_zero ?_) fun _ => .pure _
    intro handler _ p hp
    rw [after_bind_iff, after_get_iff]
    split
    · exact after_pure_iff.mpr ⟨rfl, .refl hp⟩
    · refine (raises_forIn_zero (fun entry _ q hq => ?_) p hp).bind fun _ p₁ h₁ =>
        after_pure_iff.mpr ⟨rfl, h₁⟩
      exact (tabling_raises hr q hq).bind fun _ q₁ h₁ => after_pure_iff.mpr ⟨rfl, h₁⟩

theorem call_raises (htwo : N.expressions.length = 2) :
    Raises a R r path (call a compute node) (N.expressions.map (debt a R r)).sum := by
  obtain ⟨receiver, message, hlist⟩ := List.length_eq_two.mp htwo
  rw [hlist] at hparts hcompute
  rw [call, hparts, hlist]
  simp only [List.map_cons, List.map_nil, List.sum_cons, List.sum_nil]
  exact (hcompute receiver (by simp)).bind fun _ => (hcompute message (by simp)).bind fun _ =>
    answer_raises hr

theorem logic_raises {op : LogicOp} :
    Raises a R r path (logic a compute node op) (N.expressions.map (debt a R r)).sum := by
  rw [logic, hparts, List.forIn_map]
  refine (raises_forIn fun C hC p hp => ?_).last fun _ => .pure _
  refine (hcompute C hC p hp).bind fun type p₁ h₁ => ?_
  refine ((fits_raises hr).on h₁).bind fun verdict p₂ h₂ => ?_
  split
  · exact ((report_other_raises (Problem.ne_of_isOwed hr rfl)).on h₂).bind fun _ p₃ h₃ => after_pure_iff.mpr ⟨rfl, h₃⟩
  · exact after_pure_iff.mpr ⟨rfl, h₂⟩

theorem conditional_raises :
    Raises a R r path (conditional a compute node) (N.expressions.map (debt a R r)).sum := by
  rw [conditional, hparts]
  cases hlist : N.expressions with
  | nil => exact .pure _
  | cons condition branches =>
    rw [hlist] at hcompute
    obtain ⟨hcondition, hbranches⟩ := List.forall_mem_cons.mp hcompute
    rw [List.map_cons, List.map_cons, List.sum_cons]
    exact hcondition.bind fun type => demand_raises hr (Problem.ne_of_isOwed hr rfl)
      ((raises_mapM hbranches).last fun _ => tabling_raises hr)

theorem repeatLoop_raises (hfew : N.expressions.length ≤ 1) :
    Raises a R r path (repeatLoop a compute node) (N.expressions.map (debt a R r)).sum := by
  refine raises_get.seq fun outer => Raises.seq ?_ fun _ =>
    (operand_raises hparts hcompute hfew).last fun _ => raises_get.seq fun inner =>
      Raises.seq ?_ fun _ => ?_
  · exact raises_modify fun _ => ⟨rfl, rfl, rfl, rfl, rfl, rfl⟩
  · exact raises_modify fun _ => ⟨rfl, rfl, rfl, rfl, rfl, rfl⟩
  split
  · exact .pure _
  · exact tabling_raises hr

omit hr in
theorem returnExit_raises (hfew : N.expressions.length ≤ 1) :
    Raises a R r path (returnExit a compute node) (N.expressions.map (debt a R r)).sum := by
  refine (operand_raises hparts hcompute hfew).last fun _ => Raises.seq ?_ fun _ => .pure _
  exact raises_modify fun _ => ⟨rfl, rfl, rfl, rfl, rfl, rfl⟩

omit hr in
theorem breakExit_raises (hfew : N.expressions.length ≤ 1) :
    Raises a R r path (breakExit a compute node) (N.expressions.map (debt a R r)).sum := by
  refine (operand_raises hparts hcompute hfew).last fun _ => Raises.seq ?_ fun _ => .pure _
  exact raises_modify fun _ => ⟨rfl, rfl, rfl, rfl, rfl, rfl⟩

omit hr in
theorem handlerExits_raises (hone : N.expressions.length = 1) :
    Raises a R r path (handlerExits a compute node) (N.expressions.map (debt a R r)).sum := by
  rw [handlerExits_eq]
  refine raises_get.seq fun outer => Raises.seq ?_ fun _ =>
    (operand_raises hparts hcompute hone.le).last fun _ => raises_get.seq fun inner =>
      Raises.seq ?_ fun _ => .pure _
  · exact raises_modify fun _ => ⟨rfl, rfl, rfl, rfl, rfl, rfl⟩
  · exact raises_modify fun _ => ⟨rfl, rfl, rfl, rfl, rfl, rfl⟩

end

end

section

variable {a : Arena} {R N : Tree} {r : Report} {path : List Tree} {p q : Pass} {name : String} {n : Nat}
  {compute : NodeId → Typing TypeId} {node : NodeId}

/-- Binding a name in another frame than the outermost one. -/
theorem addTerm_raises {meaning : Variable} (h : p.Raises a R r path n q)
    (hscope : p.scope ≠ Scopes.root) :
    After (addTerm name meaning) q fun _ q' => p.Raises a R r path n q' := by
  rw [addTerm, after_modify_iff]
  refine ⟨⟨?_, ?_⟩, h.scope_eq, h.tally_eq⟩
  · exact h.rooted.lt.trans_eq (Scopes.size_add ..).symm
  · rw [Scopes.frame_add_of_ne _ _ _ (h.scope_eq ▸ hscope.symm)]
    exact h.rooted.names

variable {options : TypingOptions} (hr : r.problem.isOwed options)
  (hparts : a.expressions node = N.expressions.map Tree.id)
  (hcompute : ∀ C ∈ N.expressions, Raises a R r path (compute C.id) (debt a R r C))
  (hone : N.expressions.length = 1)
include hr hparts hcompute hone

theorem handlerBody_raises (hq : p.Raises a R r path n q) (hscope : p.scope ≠ Scopes.root)
    (input : TypeId) : After (handlerBody a compute node input) q fun _ q' =>
      p.Raises a R r path (n + (N.expressions.map (debt a R r)).sum) q' := by
  simp only [handlerBody, after_bind_iff, after_get_iff]
  refine ((readOption_raises hr).on hq).mono fun declared q₁ h₁ => ?_
  refine After.mono (after_forIn (fun _ q' => p.Raises a R r path n q') ?_ h₁) ?_
  · intro _ f _ q' h'
    exact (addTerm_raises h' hscope).bind fun _ q'' h'' => after_pure_iff.mpr ⟨rfl, h''⟩
  · intro _ q₂ h₂
    refine ((handlerExits_raises hparts hcompute hone).on h₂).mono fun exits q₃ h₃ => ?_
    exact ((handlerResult_raises hr).on h₃).mono fun result q₄ h₄ => after_pure_iff.mpr h₄

omit hparts hcompute hone in
theorem handlerInput_raises : Raises a R r path (handlerInput a node) 0 := by
  rw [handlerInput]
  split
  · exact readType_raises hr
  · exact .pure _

theorem handler_raises :
    Raises a R r path (handler a compute node) (N.expressions.map (debt a R r)).sum := by
  intro p hp
  have hscope : p.pushed.scope ≠ Scopes.root := fun heq =>
    absurd hp.lt (Nat.not_lt.mpr (congrArg ScopeId.index heq).le)
  rw [handler_eq, after_bind_iff, after_inNewScope_iff, after_bind_iff]
  refine (handlerInput_raises hr p.pushed hp.pushed).mono fun input q hq =>
    (handlerBody_raises hr hparts hcompute hone hq hscope input).mono fun sides q' hq' => ?_
  rw [Nat.zero_add] at hq'
  have hback : p.Raises a R r path (N.expressions.map (debt a R r)).sum
      { q' with scope := p.scope, typeScope := p.typeScope } :=
    ⟨⟨hq'.rooted.lt, hq'.rooted.names⟩, rfl, hq'.tally_eq⟩
  exact (tabling_raises hr).on hback

end

end Typing

end MessageLang
