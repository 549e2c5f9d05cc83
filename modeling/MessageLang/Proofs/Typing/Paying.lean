import MessageLang.Proofs.Typing.Charging
import MessageLang.Proofs.Typing.Completing

namespace MessageLang

open Meter

/-- The body of a handler, if it is no return and so may have a value. -/
def Tree.valued (H : Tree) : List Tree :=
  H.expressions.filter fun C => !decide (C.form = .expr .returnExit)

namespace Topic

/-- How often what leaves a handler may be reported for that. -/
def pool (t : Topic) (exits : List (NodeId × TypeId)) : Nat :=
  (exits.map fun exit => t.charge exit.1 .incompatibleReturn).sum

theorem pool_append (t : Topic) (exits more : List (NodeId × TypeId)) :
    t.pool (exits ++ more) = t.pool exits + t.pool more := by
  rw [pool, List.map_append, List.sum_append, pool, pool]

theorem pool_singleton (t : Topic) (node : NodeId) (type : TypeId) :
    t.pool [(node, type)] = t.charge node .incompatibleReturn := Nat.add_zero _

end Topic

namespace Pass

/-- Typing is measured by the reports on a topic that there are, that the returns so far may lead to
and that are ahead in the values of locals, if all of these go back to a certain node. Returns that
were found stay. -/
noncomputable def meter (t : Topic) (x : NodeId) (path : List Tree) : Meter Pass where
  amount p := p.log.heard t + t.pool p.escapes + p.ahead path x
  Keeps p p' := p.escapes <+: p'.escapes
  refl _ := List.prefix_refl _
  trans h h' := h.trans h'

variable {t : Topic} {x : NodeId} {path : List Tree} {N : Tree} {p p' : Pass}

theorem meter_cons (hblock : N.form ≠ .expr .block) : meter t x (N :: path) = meter t x path := by
  unfold meter
  simp only [ahead_cons hblock]

/-- What matters is what has been reported and returned and which locals are still to be found. -/
theorem grows_of_eq (hlog : p'.log = p.log) (hescapes : p'.escapes = p.escapes)
    (hofLocal : p'.ofLocal = p.ofLocal) (hwaiting : ∀ id, p'.Waiting id ↔ p.Waiting id) :
    (meter t x path).Grows p 0 p' where
  keeps := by
    change p.escapes <+: p'.escapes
    rw [hescapes]
  amount_le := by
    have hahead : p'.ahead path x = p.ahead path x := by
      refine ahead_congr ?_
      simp only [Touches, current?, hwaiting, hofLocal]
    simp only [meter, hlog, hescapes, hahead, Nat.add_zero, Nat.le_refl]

end Pass

namespace Typing

open Pass

section

variable {α : Type} {a : Arena} {t : Topic} {x : NodeId} {path : List Tree} {n : Nat} {Y : Tree}
  {parent : Option NodeId} {node : NodeId} {type : TypeId} {name : String} {problem : Problem}

theorem modify_costs {change : Pass → Pass}
    (h : ∀ p, (change p).log = p.log ∧ (change p).escapes = p.escapes ∧
      (change p).ofLocal = p.ofLocal ∧ (change p).placeholders = p.placeholders ∧
        (change p).resolving = p.resolving) : (meter t x path).Costs (modify change) 0 :=
  costs_modify fun p => by
    obtain ⟨hlog, hescapes, hofLocal, hplaceholders, hresolving⟩ := h p
    refine grows_of_eq hlog hescapes hofLocal fun id => ?_
    rw [Waiting, placeholder, hplaceholders, hresolving, Waiting, placeholder]

theorem reading_costs {step : Reading α} (h : (TypeSpace.meter t).Costs step n) :
    (meter t x path).Costs (reading step) n := by
  intro p r p' hrun
  cases hstep : step p.space with
  | error fault => simp [reading, hstep, bind, Except.bind] at hrun
  | ok result =>
    simp [reading, hstep, bind, Except.bind, pure, Except.pure] at hrun
    obtain ⟨rfl, rfl⟩ := hrun
    have hheard : result.2.log.heard t ≤ p.log.heard t + n := (h p.space _ _ hstep).amount_le
    have hamount : result.2.log.heard t + t.pool p.escapes + p.ahead path x ≤
        p.log.heard t + t.pool p.escapes + p.ahead path x + n := by omega
    exact ⟨List.prefix_refl _, hamount⟩

theorem checking_costs {step : TypeTable → Checking α} : (meter t x path).Costs (checking step) 0 := by
  intro p r p' hrun
  cases hstep : step p.table p.checker with
  | error fault => simp [checking, hstep, bind, Except.bind] at hrun
  | ok result =>
    simp [checking, hstep, bind, Except.bind, pure, Except.pure] at hrun
    obtain ⟨rfl, rfl⟩ := hrun
    exact grows_of_eq rfl rfl rfl fun _ => Iff.rfl

theorem tabling_costs {change : Tabling α} : (meter t x path).Costs (tabling change) 0 :=
  reading_costs Reading.tabling_costs

theorem report_costs : (meter t x path).Costs (report a node problem) (t.charge node problem) :=
  reading_costs Reading.report_costs

theorem readType_costs (h : a.Holds parent Y) :
    (meter t x path).Costs (readType a Y.id) (t.reading Y) :=
  costs_get.seq fun _ => reading_costs (Reading.type_costs h)

/-- Of some types the first one is read, if there is one. -/
theorem readFirst_costs {trees : List Tree} (h : ∀ Y ∈ trees, a.Holds parent Y) :
    (meter t x path).Costs ((trees.map Tree.id).head?.mapM (readType a)) (trees.map t.reading).sum := by
  cases trees with
  | nil => exact .pure _
  | cons Y rest =>
    rw [List.map_cons, List.map_cons, List.sum_cons]
    refine (costs_option fun node hnode => ?_).mono (Nat.le_add_right _ _)
    cases hnode
    exact readType_costs (h Y List.mem_cons_self)

theorem setType_costs : (meter t x path).Costs (setType node type) 0 :=
  modify_costs fun _ => ⟨rfl, rfl, rfl, rfl, rfl⟩

theorem addTerm_costs {meaning : Variable} : (meter t x path).Costs (addTerm name meaning) 0 :=
  modify_costs fun _ => ⟨rfl, rfl, rfl, rfl, rfl⟩

theorem inNewScope_costs {step : Typing α} (h : (meter t x path).Costs step n) :
    (meter t x path).Costs (inNewScope step) n := by
  intro p
  rw [after_inNewScope_iff]
  have hpushed : (meter t x path).Grows p 0 p.pushed := grows_of_eq rfl rfl rfl fun _ => Iff.rfl
  refine (h.on hpushed).mono fun result q hq => ?_
  rw [Nat.zero_add] at hq
  have hback : (meter t x path).Grows q 0 { q with scope := p.scope, typeScope := p.typeScope } :=
    grows_of_eq rfl rfl rfl fun _ => Iff.rfl
  exact hq.trans hback

end

section

variable {α : Type} {a : Arena} {t : Topic} {x : NodeId} {path : List Tree} {n : Nat} {N : Tree}
  {node message : NodeId} {target source type : TypeId} {problem : Problem}
  (ht : t.NoConflict)
include ht

/-- Conflicts of wildcards do not count. -/
theorem reportConflicts_costs : (meter t x path).Costs (reportConflicts a node) 0 := by
  refine checking_costs.seq fun conflicts => (costs_forIn_zero fun conflict _ => ?_).seq fun _ => .pure _
  refine costs_get.seq fun p => Costs.seq (report_costs.mono ?_) fun _ => .pure _
  exact (Topic.charge_of_ne fun heq => ht (congrArg Topic.kind heq)).le

theorem fits_costs : (meter t x path).Costs (fits a node target source) 0 :=
  checking_costs.seq fun _ => (reportConflicts_costs ht).seq fun _ => .pure _

/-- Comparing a type with what it has to be, and reporting if it is not that. -/
theorem demand_costs {next : PUnit → Typing α} (hnext : (meter t x path).Costs (next ⟨⟩) n) :
    (meter t x path).Costs (demand a node target source problem next)
      (t.charge node problem + n) := by
  refine (fits_costs ht).seq fun verdict => ?_
  split
  · exact report_costs.bind fun _ => hnext
  · exact hnext.mono (Nat.le_add_left _ _)

theorem valueType_costs {compute : NodeId → Typing TypeId} {value : NodeId}
    (hvalue : (meter t x path).Costs (compute value) n) (declared : Option TypeId) :
    (meter t x path).Costs (valueType a compute (some value) declared)
      (n + t.charge value .incompatibleAssignment) := by
  refine hvalue.bind fun found => ?_
  cases declared with
  | none => exact (Costs.pure _).mono (Nat.zero_le _)
  | some expected => exact demand_costs ht (n := 0) (.pure _)

theorem handlerResult_costs {declared : Option TypeId} {exits : List (NodeId × TypeId)} :
    (meter t x path).Costs (handlerResult a declared exits) (t.pool exits) := by
  cases declared with
  | none => exact tabling_costs.mono (Nat.zero_le _)
  | some expected =>
    refine Costs.last (costs_forIn fun exit _ => ?_) fun _ => .pure _
    exact demand_costs ht (n := 0) (.pure _)

theorem firstMatch?_costs {handlers : List (TypeId × TypeId)} :
    (meter t x path).Costs (firstMatch? a message type handlers) 0 := by
  induction handlers with
  | nil => exact (reportConflicts_costs ht).seq fun _ => .pure _
  | cons handler rest ih =>
    refine costs_get.seq fun p => checking_costs.seq fun verdict => ?_
    split
    · exact checking_costs.seq fun _ => costs_get.seq fun p => tabling_costs.seq fun _ => .pure _
    · exact Costs.seq (modify_costs fun _ => ⟨rfl, rfl, rfl, rfl, rfl⟩) fun _ => ih

theorem answer_costs {receiver : TypeId} :
    (meter t x path).Costs (answer a node message receiver type) (t.charge node .noMatchingHandler) := by
  refine costs_get.seq fun p => ?_
  dsimp only
  split
  · exact (Costs.pure _).mono (Nat.zero_le _)
  · split
    · exact (Costs.pure _).mono (Nat.zero_le _)
    · refine (firstMatch?_costs ht).seq fun found => ?_
      split
      · refine Costs.mono ?_ (Nat.zero_le _)
        exact Costs.seq (modify_costs fun _ => ⟨rfl, rfl, rfl, rfl, rfl⟩) fun _ => .pure _
      · exact report_costs.last fun _ => .pure _

end

section

variable {a : Arena} {t : Topic} {x : NodeId} {path : List Tree} {N : Tree} {node : NodeId}
  {compute : NodeId → Typing TypeId} {parent : Option NodeId}

theorem mapM_costs {trees : List Tree}
    (h : ∀ C ∈ trees, (meter t x path).Costs (compute C.id) (t.weight x C)) :
    (meter t x path).Costs ((trees.map Tree.id).mapM compute) (trees.map (t.weight x)).sum := by
  rw [List.mapM_map]
  exact costs_mapM h

variable (hparts : a.expressions node = N.expressions.map Tree.id)
  (hcompute : ∀ C ∈ N.expressions, (meter t x path).Costs (compute C.id) (t.weight x C))
include hparts hcompute

theorem operand_costs (hfew : N.expressions.length ≤ 1) :
    (meter t x path).Costs (operand a compute node) (N.expressions.map (t.weight x)).sum := by
  rw [operand, hparts]
  rcases hlist : N.expressions with _ | ⟨V, _ | ⟨W, rest⟩⟩
  · exact .pure _
  · rw [hlist] at hcompute
    simpa using hcompute V (List.mem_singleton_self V)
  · simp [hlist] at hfew

theorem array_costs :
    (meter t x path).Costs (array a compute node) (N.expressions.map (t.weight x)).sum := by
  rw [array, hparts]
  refine (mapM_costs hcompute).last fun items => ?_
  dsimp only
  split
  · rw [pure_bind]
    exact tabling_costs
  · exact tabling_costs.seq fun _ => tabling_costs

omit hparts in
theorem fieldsFrom_costs {trees : List Tree} (hsub : ∀ T ∈ trees, T ∈ N.expressions)
    (position : Nat) : (meter t x path).Costs (fieldsFrom a compute position (trees.map Tree.id))
      (trees.map (t.weight x)).sum := by
  induction trees generalizing position with
  | nil => exact .pure _
  | cons T trees ih =>
    obtain ⟨hT, htrees⟩ := List.forall_mem_cons.mp hsub
    rw [List.map_cons, fieldsFrom, List.map_cons, List.sum_cons]
    exact (hcompute T hT).bind fun _ => (ih htrees _).last fun _ => .pure _

theorem struct_costs :
    (meter t x path).Costs (struct a compute node) (N.expressions.map (t.weight x)).sum := by
  rw [struct, hparts]
  exact (fieldsFrom_costs hcompute (fun _ h => h) 0).last fun _ => tabling_costs

theorem newObject_costs (hone : N.expressions.length = 1) :
    (meter t x path).Costs (newObject a compute node) (N.expressions.map (t.weight x)).sum := by
  obtain ⟨V, hlist⟩ := List.length_eq_one_iff.mp hone
  rw [hlist] at hparts hcompute
  rw [newObject, hparts, hlist, List.map_singleton, List.map_singleton, List.sum_singleton]
  dsimp only
  refine (hcompute V (List.mem_singleton_self V)).last fun _ => ?_
  split
  · exact .pure _
  · refine tabling_costs.seq fun object => (costs_forIn_zero fun handler _ => ?_).seq fun _ => .pure _
    refine costs_get.seq fun p => ?_
    split
    · exact .pure _
    · refine (costs_forIn_zero fun entry _ => ?_).seq fun _ => .pure _
      exact tabling_costs.seq fun _ => .pure _

theorem call_costs (ht : t.NoConflict)
    (htwo : N.expressions.length = 2) : (meter t x path).Costs (call a compute node)
      ((N.expressions.map (t.weight x)).sum + t.charge node .noMatchingHandler) := by
  obtain ⟨receiver, message, hlist⟩ := List.length_eq_two.mp htwo
  rw [hlist] at hparts hcompute
  rw [call, hparts, hlist]
  simp only [List.map_cons, List.map_nil, List.sum_cons, List.sum_nil, Nat.add_zero, Nat.add_assoc]
  exact (hcompute receiver (by simp)).bind fun _ => (hcompute message (by simp)).bind fun _ =>
    answer_costs ht

theorem logic_costs (ht : t.NoConflict) {op : LogicOp} :
    (meter t x path).Costs (logic a compute node op) ((N.expressions.map (t.weight x)).sum +
      (N.expressions.map fun C => t.charge C.id (.nonBooleanOperand op.text)).sum) := by
  rw [logic, hparts, List.forIn_map, ← List.sum_map_add]
  refine Costs.last (costs_forIn fun C hC => ?_) fun _ => .pure _
  exact (hcompute C hC).bind fun type => demand_costs ht (n := 0) (.pure _)

theorem conditional_costs (ht : t.NoConflict) :
    (meter t x path).Costs (conditional a compute node) ((N.expressions.map (t.weight x)).sum +
      (N.expressions.head?.toList.map fun C => t.charge C.id .nonBooleanCondition).sum) := by
  rw [conditional, hparts]
  cases hlist : N.expressions with
  | nil => exact .pure _
  | cons condition branches =>
    rw [hlist] at hcompute
    obtain ⟨hcondition, hbranches⟩ := List.forall_mem_cons.mp hcompute
    rw [List.map_cons]
    dsimp only
    have hrest := mapM_costs hbranches
    refine Costs.mono (hcondition.bind fun type => demand_costs ht (hrest.last fun _ => tabling_costs)) ?_
    simp
    omega

theorem repeatLoop_costs (hfew : N.expressions.length ≤ 1) :
    (meter t x path).Costs (repeatLoop a compute node) (N.expressions.map (t.weight x)).sum := by
  refine costs_get.seq fun outer => Costs.seq ?_ fun _ =>
    (operand_costs hparts hcompute hfew).last fun _ => costs_get.seq fun inner =>
      Costs.seq ?_ fun _ => ?_
  · exact modify_costs fun _ => ⟨rfl, rfl, rfl, rfl, rfl⟩
  · exact modify_costs fun _ => ⟨rfl, rfl, rfl, rfl, rfl⟩
  split
  · exact .pure _
  · exact tabling_costs

/-- A return is noted for the handler to answer for. -/
theorem returnExit_costs (hfew : N.expressions.length ≤ 1) :
    (meter t x path).Costs (returnExit a compute node)
      ((N.expressions.map (t.weight x)).sum + t.charge node .incompatibleReturn) := by
  refine (operand_costs hparts hcompute hfew).bind fun type => Costs.last (costs_modify fun p => ?_)
    fun _ => .pure _
  have hamount : p.log.heard t + t.pool (p.escapes ++ [(node, type)]) + p.ahead path x ≤
      p.log.heard t + t.pool p.escapes + p.ahead path x + t.charge node .incompatibleReturn := by
    rw [Topic.pool_append, Topic.pool_singleton]
    omega
  exact ⟨List.prefix_append _ _, hamount⟩

theorem breakExit_costs (hfew : N.expressions.length ≤ 1) :
    (meter t x path).Costs (breakExit a compute node) (N.expressions.map (t.weight x)).sum := by
  refine (operand_costs hparts hcompute hfew).last fun _ => Costs.seq ?_ fun _ => .pure _
  exact modify_costs fun _ => ⟨rfl, rfl, rfl, rfl, rfl⟩

variable (hone : N.expressions.length = 1)
  (hnever : ∀ V ∈ N.expressions, V.form = .expr .returnExit → ∀ p, After (compute V.id) p fun type p' =>
    p'.table.isNever type = true)
include hone hnever

/-- What leaves a handler has been counted before, but for the value of the body. A body that is a
return has none. -/
theorem handlerExits_after (p : Pass) : After (handlerExits a compute node) p fun exits p' =>
    (meter t x path).Keeps p p' ∧ (meter t x path).amount p' + t.pool exits ≤
      (meter t x path).amount p + ((N.expressions.map (t.weight x)).sum +
        (N.valued.map fun C => t.charge C.id .incompatibleReturn).sum) := by
  obtain ⟨V, hlist⟩ := List.length_eq_one_iff.mp hone
  rw [hlist] at hparts hcompute hnever
  have hreturn := hnever V (List.mem_singleton_self V)
  rw [handlerExits, hparts, Tree.valued, hlist]
  simp only [List.map_singleton, List.head?_cons, List.sum_singleton, after_bind_iff, after_get_iff,
    after_modify_iff, after_pure_iff]
  intro value q hrun
  obtain ⟨-, hamount⟩ := hcompute V (List.mem_singleton_self V) _ value q hrun
  refine ⟨List.prefix_refl _, ?_⟩
  have hown : t.pool (if q.table.isNever value then [] else [(V.id, value)]) ≤
      (([V].filter fun C => !decide (C.form = .expr .returnExit)).map fun C =>
        t.charge C.id .incompatibleReturn).sum := by
    by_cases hform : V.form = .expr .returnExit
    · rw [if_pos (hreturn hform _ value q hrun)]
      exact Nat.zero_le _
    · rw [List.filter_singleton, decide_eq_false hform]
      split
      · exact Nat.zero_le _
      · exact (Topic.pool_singleton t V.id value).le
  have hamount : q.log.heard t + t.pool q.escapes + q.ahead path x ≤
      p.log.heard t + 0 + p.ahead path x + t.weight x V := hamount
  have hpool := t.pool_append q.escapes (if q.table.isNever value then [] else [(V.id, value)])
  change q.log.heard t + t.pool p.escapes + q.ahead path x +
    t.pool (q.escapes ++ if q.table.isNever value then [] else [(V.id, value)]) ≤
      p.log.heard t + t.pool p.escapes + p.ahead path x + _
  omega

theorem handlerBody_costs (h : a.Holds parent N) (hid : N.id = node) (ht : t.NoConflict)
    (input : TypeId) :
    (meter t x path).Costs (handlerBody a compute node input) ((N.types.tail.map t.reading).sum +
      ((N.expressions.map (t.weight x)).sum +
        (N.valued.map fun C => t.charge C.id .incompatibleReturn).sum)) := by
  have hdeclared : (meter t x path).Costs ((a.types node)[1]?.mapM (readType a))
      (N.types.tail.map t.reading).sum := by
    rw [← hid, h.types_eq, ← List.head?_tail, ← List.map_tail]
    exact readFirst_costs fun Y hY =>
      h.child (Tree.mem_children_of_mem_types (List.mem_of_mem_tail hY))
  refine hdeclared.bind fun declared => costs_get.seq fun p =>
    Costs.seq (costs_forIn_zero fun f _ => ?_) fun _ p => ?_
  · exact addTerm_costs.seq fun _ => .pure _
  refine (handlerExits_after hparts hcompute hone hnever p).bind fun exits q ⟨hkeeps, hamount⟩ => ?_
  have hresult : (meter t x path).Costs (handlerResult a declared exits) (t.pool exits) :=
    handlerResult_costs ht
  refine (hresult q).bind fun result q' hq => after_pure_iff.mpr ?_
  exact ⟨(meter t x path).trans hkeeps hq.keeps, hq.amount_le.trans hamount⟩

/-- A handler reports the types that it has and what leaves it. -/
theorem handler_costs (h : a.Holds parent N) (hid : N.id = node)
    (ht : t.NoConflict) :
    (meter t x path).Costs (handler a compute node) ((N.expressions.map (t.weight x)).sum +
      ((N.types.map t.reading).sum +
        (N.valued.map fun C => t.charge C.id .incompatibleReturn).sum)) := by
  have hbody := handlerBody_costs hparts hcompute hone hnever h hid ht
  rw [handler_eq, Nat.add_left_comm]
  refine Costs.last (inNewScope_costs ?_) fun _ => tabling_costs
  rw [handlerInput, ← hid, h.types_eq, hid]
  cases htypes : N.types with
  | nil =>
    rw [htypes] at hbody
    exact Costs.seq (.pure _) hbody
  | cons Y rest =>
    have hY : Y ∈ N.types := htypes ▸ List.mem_cons_self
    rw [htypes, List.tail_cons] at hbody
    rw [List.map_cons, List.map_cons, List.sum_cons, Nat.add_assoc]
    exact (readType_costs (h.child (Tree.mem_children_of_mem_types hY))).bind hbody

end

end Typing

end MessageLang
