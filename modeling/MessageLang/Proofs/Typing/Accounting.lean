import MessageLang.Proofs.Typing.Counting
import MessageLang.Proofs.Typing.Settling

namespace MessageLang

open Meter

open MessageLang.Tree (Direct Visible)

namespace Pass

variable {a : Arena} {R N : Tree} {base : Nat} {p p' q : Pass} {path done : List Tree}
  {entered : List NodeId} {compute : NodeId → Typing TypeId} {t : Topic} {x : NodeId} {found : Variable}

/-- When all locals of a block have been declared, what is in the groups of locals may be ahead. -/
theorem Declares.ahead_le (h : p.Declares a R base path N N.locals q)
    (henter : p.Entering a R base path N entered compute) (hform : N.form = .expr .block) :
    q.ahead (N :: path) x ≤
      p.ahead path x + ((groupsOf N.expressions).map fun G => G.ids.count x).sum := by
  have hiff := h.touches_iff henter hform (x := x)
  by_cases hbefore : p.Touches path [] x
  · rw [ahead_of_touches hbefore, ahead_of_touches (hiff.mpr (.inl hbefore))]
    exact Nat.le_add_right _ _
  · by_cases hin : ∃ D ∈ N.locals, ∃ V ∈ D.expressions, x ∈ V.ids
    · rw [ahead_of_touches (hiff.mpr (.inr hin)), ahead_of_not_touches hbefore, Nat.zero_add]
      obtain ⟨D, hD, V, hV, hx⟩ := hin
      obtain ⟨-, G, hG, hgroup, hDG⟩ := Tree.mem_locals_iff.mp hD
      have hmem : x ∈ G.ids :=
        Tree.ids_subset_of_mem_expressions hDG (Tree.ids_subset_of_mem_expressions hV hx)
      have hG : G ∈ groupsOf N.expressions := List.mem_filter.mpr ⟨hG, decide_eq_true hgroup⟩
      refine le_trans (List.count_pos_iff.mpr hmem) ?_
      exact List.single_le_sum (fun _ _ => Nat.zero_le _) _ (List.mem_map_of_mem hG)
    · rw [ahead_of_not_touches fun hx => (hiff.mp hx).elim hbefore hin]
      exact Nat.zero_le _

/-- Outside of everything only what has been reported and returned matters. -/
theorem grows_of_log_eq (hlog : p'.log = p.log) (hescapes : p'.escapes = p.escapes) :
    (meter t x []).Grows p 0 p' where
  keeps := by
    change p.escapes <+: p'.escapes
    rw [hescapes]
  amount_le := by
    simp only [meter, hlog, hescapes, ahead_of_not_touches not_touches_nil, Nat.add_zero, Nat.le_refl]

/-- Asking for the type of the variable that an expression names. -/
theorem Entering.meaningType_grows (h : p.Entering a R base path N entered compute)
    (hpays : Typing.Pays R t x compute) (hx : R.Origin t x)
    (ht : t.NoConflict) {used : String} (huse : N.usedName? = some used)
    (hvisits : p.Visits a R base path (p.Touches path [N]) done p')
    (hfound : p'.terms.get? p'.scope used = some found) :
    After (Typing.meaningType a compute found.meaning) p' fun _ p'' =>
      (meter t x path).Grows p' 0 p'' := by
  have hstands := hvisits.stands
  rcases hstands.frames.get? used with ⟨E, id, mutable, hget, hbinds, hcurrent⟩ | ⟨-, hknown⟩
  · cases hfound.symm.trans hget
    refine Typing.resolve_grows h.computes hpays h.ready hx ht h.within (h.not_touches hvisits)
      hstands hbinds.visible hcurrent fun path' x _ hleads => ?_
    refine ⟨E, List.mem_cons_self, ?_, .inr (hleads.transGen h.within huse hbinds)⟩
    rw [hbinds.localName?_eq]
    rfl
  · obtain ⟨type, htype⟩ := hknown found hfound
    rw [htype]
    exact after_pure_iff.mpr (.refl _ p')

end Pass

namespace Typing

open Pass

variable {a : Arena} {options : TypingOptions} {R N G D : Tree} {base : Nat} {p q : Pass}
  {path items known rest : List Tree} {entered : List NodeId} {compute : NodeId → Typing TypeId}
  {used : String} {t : Topic} {x : NodeId} {parent : Option NodeId}

theorem declareLocal_costs (h : a.Holds parent D) :
    (meter t x []).Costs (declareLocal a D.id) (D.types.map t.reading).sum := by
  have hdeclared : (meter t x []).Costs ((a.types D.id).head?.mapM (readType a))
      (D.types.map t.reading).sum := by
    rw [h.types_eq]
    exact readFirst_costs fun Y hY => h.child (Tree.mem_children_of_mem_types hY)
  rw [declareLocal]
  split
  · refine hdeclared.last fun declared p => ?_
    rw [after_bind_iff, after_get_iff, after_bind_iff, after_set_iff]
    exact addTerm_costs.on (grows_of_log_eq rfl rfl)
  · exact (Costs.pure _).mono (Nat.zero_le _)

/-- Declaring a group of locals reads the types that they have. -/
theorem declareLocals_costs {C : Tree} (h : a.Holds parent C) :
    (meter t x []).Costs (declareLocals a C.id)
      ((C.expressions.flatMap Tree.types).map t.reading).sum := by
  rw [declareLocals, h.expressions_eq, List.map_flatMap, List.flatMap_def, List.sum_flatten,
    List.map_map]
  change (meter t x []).Costs (forM (C.expressions.map Tree.id) _) _
  rw [List.forM_map]
  exact costs_forM fun D hD =>
    declareLocal_costs (h.child (Tree.mem_children_of_mem_expressions hD))

/-- Declaring the locals of a block reads the types that they have. -/
theorem declareGroups_costs (h : a.Holds parent N) :
    (meter t x []).Costs (declareGroups a N.id)
      ((((groupsOf N.expressions).flatMap Tree.expressions).flatMap Tree.types).map t.reading).sum := by
  rw [declareGroups, h.expressions_eq]
  have hitems : ∀ C ∈ N.expressions, a.Holds (some N.id) C := fun C hC =>
    h.child (Tree.mem_children_of_mem_expressions hC)
  generalize N.expressions = trees at hitems
  induction trees with
  | nil => exact .pure _
  | cons C trees ih =>
    obtain ⟨hC, htrees⟩ := List.forall_mem_cons.mp hitems
    rw [List.map_cons, List.forIn_cons, hC.expr?_eq]
    simp only [NodeForm.expr?_eq_some_iff]
    split
    · next hgroup =>
      have hgroups : groupsOf (C :: trees) = C :: groupsOf trees :=
        List.filter_cons_of_pos (by simp [hgroup])
      rw [hgroups, List.flatMap_cons, List.flatMap_append, List.map_append, List.sum_append]
      refine ((declareLocals_costs hC).last fun _ => .pure _).bind fun next => ?_
      cases next with
      | done => exact (Costs.pure _).mono (Nat.zero_le _)
      | yield => exact ih htrees
    · next hgroup =>
      have hgroups : groupsOf (C :: trees) = groupsOf trees :=
        List.filter_cons_of_neg (by simp [hgroup])
      rw [hgroups]
      refine Costs.seq (.pure _) fun next => ?_
      cases next with
      | done => exact (Costs.pure _).mono (Nat.zero_le _)
      | yield => exact ih htrees

section

variable (h : p.Entering a R base path N entered compute) (hpays : Pays R t x compute)
  (hx : R.Origin t x) (ht : t.NoConflict)
include h hpays hx ht

theorem reference_costs (hform : N.form = .expr (.reference used)) :
    After (reference a compute N.id used) p fun _ p' => (meter t x path).Grows p (t.weight x N) p' := by
  have huse : N.usedName? = some used := by
    rw [Tree.usedName?, hform]
  have hown : t.charge N.id (.unresolvedName used) ≤ t.weight x N :=
    le_trans (Topic.charge_le_own fun heq => .self hform rfl heq) (Nat.le_add_left _ _)
  rw [reference, after_bind_iff, after_get_iff]
  split
  · next found hfound =>
    have hmeaning := h.meaningType_grows hpays hx ht huse (h.stands.visits _) hfound
    exact hmeaning.mono fun _ _ h' => h'.mono (Nat.zero_le _)
  · exact (report_costs.last fun _ => .pure _).mono hown p

theorem assignment_costs (hform : N.form = .expr (.assignment used)) {V : Tree}
    (hparts : N.expressions = [V]) :
    After (assignment a compute N.id used) p fun _ p' =>
      (meter t x path).Grows p (t.weight x N) p' := by
  have huse : N.usedName? = some used := by
    rw [Tree.usedName?, hform]
  have hblock : N.form ≠ .expr .block := by simp [hform]
  have hown : ∀ problem, (ExprForm.assignment used).blames problem = true →
      t.charge N.id problem ≤ t.own N := fun problem hblames =>
    Topic.charge_le_own fun heq => .self hform hblames heq
  have hsum := Topic.sum_weight_add_own_le hx h.within
  have hvalue : (meter t x path).Costs (operand a compute N.id) (N.expressions.map (t.weight x)).sum :=
    meter_cons (t := t) (x := x) hblock ▸ operand_costs h.expressions_eq
      (fun C hC => hpays _ C (h.within.child hC)) (by simp [hparts])
  have hends := operand_ends h hblock (by simp [hform]) hparts
  rw [assignment, after_bind_iff]
  refine (hends.and_after (hvalue p)).after.mono ?_
  rintro value p₁ ⟨⟨hvisits, -⟩, h₁⟩
  have hreport : ∀ {p₂ problem}, (meter t x path).Grows p (N.expressions.map (t.weight x)).sum p₂ →
      (ExprForm.assignment used).blames problem = true →
        After (report a N.id problem) p₂ fun _ p₃ => (meter t x path).Grows p (t.weight x N) p₃ :=
    fun h₂ hblames => (report_costs.on h₂).mono fun _ _ h₃ =>
      h₃.mono (le_trans (Nat.add_le_add_left (hown _ hblames) _) hsum)
  rw [after_bind_iff, after_get_iff]
  split
  · exact (hreport h₁ rfl).bind fun _ _ h₂ => after_pure_iff.mpr h₂
  · next found hfound =>
    refine (h.meaningType_grows hpays hx ht huse hvisits hfound).bind fun target p₂ h₂ => ?_
    have h₂ := h₁.trans h₂
    split
    · exact (hreport h₂ rfl).bind fun _ _ h₃ => after_pure_iff.mpr h₃
    · refine ((demand_costs ht (n := 0) (.pure target)).on h₂).mono fun _ _ h₃ => h₃.mono ?_
      exact le_trans (Nat.add_le_add_left (hown _ rfl) _) hsum

section

variable (hform : N.form = .expr .block)
include hform

/-- A group of locals reports what was ahead in their values. -/
theorem group_grows (hruns : p.Runs a R base path N items [] q)
    (hsplit : N.expressions = items ++ G :: rest) (hgroup : G.form = .expr .locals) :
    After (typeItem a compute G.id) q fun _ q' => (meter t x (N :: path)).Grows q 0 q' := by
  have hG : G ∈ N.expressions := by simp [hsplit]
  rw [typeItem_eq_of_group h hG hgroup]
  refine (defineLocals_ends h hform (fun q' => (meter t x (N :: path)).Grows q 0 q') hruns hsplit
    hgroup (.refl _ q) fun known D id q₁ hruns₁ h₁ hD hlookup => ?_).after.bind fun _ q₁ h₁ =>
      (setType_costs.on h₁.2).bind fun _ q₂ h₂ => after_pure_iff.mpr h₂
  have hlocal : D ∈ N.locals := Tree.mem_locals_iff.mpr ⟨hform, G, hG, hgroup, hD⟩
  rw [defineLocal, after_bind_iff, after_get_iff, hlookup]
  exact (resolve_grows h.computes hpays h.ready hx ht (h.within.child hG)
    (not_touches_of_runs h hruns₁) hruns₁.stands ⟨N, List.mem_cons_self, hlocal⟩ hlookup
    (leads_local h hG hD)).bind fun type q₂ h₂ => setType_costs.on (h₁.trans h₂)

/-- An item of a block that is no group of locals reports on its own. -/
theorem typeItem_grows {C : Tree} (hruns : p.Runs a R base path N items [] q)
    (hsplit : N.expressions = items ++ C :: rest) :
    After (typeItem a compute C.id) q fun _ q' =>
      (meter t x (N :: path)).Grows q ((othersOf [C]).map (t.weight x)).sum q' := by
  have hC : C ∈ N.expressions := by simp [hsplit]
  by_cases hgroup : C.form = .expr .locals
  · have hnone : othersOf [C] = [] := by simp [othersOf, hgroup]
    rw [hnone]
    exact group_grows h hpays hx ht hform hruns hsplit hgroup
  · have hone : othersOf [C] = [C] := by simp [othersOf, hgroup]
    rw [hone, typeItem_eq_of_ne h hC hgroup, List.map_singleton, List.sum_singleton]
    exact hpays _ C (h.within.child hC) q

omit h hpays hx ht hform in
theorem reportUnreachable_costs {C : Tree} (reach : Reach) :
    (meter t x path).Costs (reportUnreachable a options reach C.id)
      (t.charge C.id .unreachableCode) := by
  rw [reportUnreachable]
  split
  · exact report_costs
  · exact (Costs.pure _).mono (Nat.zero_le _)

/-- Of the items of a block, the ones that are no groups of locals report on their own, and any may
be reported as unreachable. -/
theorem itemsFrom_grows (reach : Reach) {last : TypeId} (hruns : p.Runs a R base path N items [] q)
    (hsplit : N.expressions = items ++ rest) :
    After (itemsFrom a options compute reach last (rest.map Tree.id)) q fun _ q' =>
      (meter t x (N :: path)).Grows q (((othersOf rest).map (t.weight x)).sum +
        (rest.map fun C => t.charge C.id .unreachableCode).sum) q' := by
  induction rest generalizing reach last items q with
  | nil => exact after_pure_iff.mpr (.refl _ q)
  | cons C rest ih =>
    have hothers : othersOf (C :: rest) = othersOf [C] ++ othersOf rest := List.filter_append [C] rest
    rw [List.map_cons, itemsFrom_cons, hothers, List.map_append, List.sum_append, List.map_cons,
      List.sum_cons]
    have hreport : (meter t x (N :: path)).Costs (reportUnreachable a options reach C.id)
        (t.charge C.id .unreachableCode) := reportUnreachable_costs reach
    refine ((reportUnreachable_ends h reach hruns hsplit).and_after (hreport q)).after.bind ?_
    rintro _ q₁ ⟨hruns₁, h₁⟩
    refine ((typeItem_ends h hform hruns₁ hsplit).and_after
      (typeItem_grows h hpays hx ht hform hruns₁ hsplit)).after.bind ?_
    rintro type q₂ ⟨⟨hruns₂, -⟩, h₂⟩
    refine (ih _ hruns₂ (by simpa using hsplit)).mono fun _ q₃ h₃ => ?_
    exact ((h₁.trans h₂).trans h₃).mono (by omega)

omit h hpays ht in
/-- What a block may report is in its groups of locals and in its other items, or is up to the rule
for the block. -/
theorem block_shares (hN : R.Within path N) (hnodup : N.ids.Nodup) :
    ((N.locals.flatMap Tree.types).map t.reading).sum +
      ((groupsOf N.expressions).map fun G => G.ids.count x).sum +
        (((othersOf N.expressions).map (t.weight x)).sum +
          (N.expressions.map fun C => t.charge C.id .unreachableCode).sum) ≤ t.weight x N := by
  have hannotations : N.annotations = N.locals.flatMap Tree.types := by
    rw [Tree.annotations, hform]
  have hown : ((N.locals.flatMap Tree.types).map t.reading).sum +
      (N.expressions.map fun C => t.charge C.id .unreachableCode).sum ≤ t.own N := by
    rw [← hannotations]
    exact Topic.sum_reading_add_charge_le hnodup hform (.refl _) fun _ _ => rfl
  have hothers : ((othersOf N.expressions).map (t.weight x)).sum ≤
      ((othersOf N.expressions).map fun C => C.ids.count x).sum := List.sum_le_sum fun C hC =>
    Topic.weight_le_count hx (hN.child (List.mem_filter.mp hC).1)
  have hparts := sum_groupsOf_add (fun C => C.ids.count x) N.expressions
  have hchildren : (N.expressions.map fun C => C.ids.count x).sum ≤
      (N.children.flatMap Tree.ids).count x := Topic.sum_count_le List.filter_sublist x
  rw [Topic.weight]
  omega

/-- A block reports what is wrong with the types of its locals, and what its items report. What its
locals may report is ahead until they are defined. -/
theorem block_grows : After (block a options compute N.id) p fun _ p' =>
    (meter t x path).Grows p (t.weight x N) p' := by
  obtain ⟨_, hheld⟩ := h.holds
  have hdeclare : (meter t x []).Costs (declareGroups a N.id)
      ((N.locals.flatMap Tree.types).map t.reading).sum := by
    rw [Tree.locals, if_pos hform]
    exact declareGroups_costs hheld
  have hshares := block_shares hx hform h.within h.nodup (t := t)
  rw [block_eq, after_inNewScope_iff]
  simp only [after_bind_iff]
  refine ((declareGroups_ends h hform).and_after (hdeclare p.pushed)).after.mono ?_
  rintro _ q ⟨hdeclares, hdeclared⟩
  have hruns := hdeclares.runs h hform
  rw [h.expressions_eq]
  have hall : N.expressions = [] ++ N.expressions := rfl
  refine ((itemsFrom_ends h hform _ hruns hall (hruns.stands.sound.lt_of_builtin (by decide))).and_after
    (itemsFrom_grows h hpays hx ht hform _ hruns hall)).after.mono ?_
  rintro _ q' ⟨⟨hruns', -⟩, h'⟩
  have hstart : q.log.heard t + t.pool q.escapes + q.ahead [] x ≤
      p.log.heard t + t.pool p.escapes + p.ahead [] x +
        ((N.locals.flatMap Tree.types).map t.reading).sum := hdeclared.amount_le
  rw [ahead_of_not_touches not_touches_nil, ahead_of_not_touches not_touches_nil] at hstart
  have hahead := hdeclares.ahead_le h hform (x := x)
  have hitems : q'.log.heard t + t.pool q'.escapes + q'.ahead (N :: path) x ≤
      q.log.heard t + t.pool q.escapes + q.ahead (N :: path) x +
        (((othersOf N.expressions).map (t.weight x)).sum +
          (N.expressions.map fun C => t.charge C.id .unreachableCode).sum) := h'.amount_le
  rw [ahead_congr (hruns'.touches_iff h)] at hitems
  have hamount : q'.log.heard t + t.pool q'.escapes + q'.ahead path x ≤
      p.log.heard t + t.pool p.escapes + p.ahead path x + t.weight x N := by
    omega
  exact ⟨hdeclared.keeps.trans h'.keeps, hamount⟩

end

/-- Every rule reports no more on a topic than the expression accounts for. -/
theorem ofForm_grows (hnever : ∀ path C p, R.Within path C → C.form = .expr .returnExit →
      After (compute C.id) p fun type p' => p'.table.isNever type = true)
    {form : ExprForm} (hform : N.form = .expr form) :
    After (ofForm a options compute N.id form) p fun _ p' =>
      (meter t x path).Grows p (t.weight x N) p' := by
  obtain ⟨other, hother, hcore⟩ := h.ready.core path N h.within
  cases hform.symm.trans hother
  have hadmits := h.admits hform
  rw [ExprForm.admits.eq_def, Tree.length_exprForms] at hadmits
  have hparts := h.expressions_eq
  have hcompute : ∀ C ∈ N.expressions, (meter t x (N :: path)).Costs (compute C.id) (t.weight x C) :=
    fun C hC => hpays _ C (h.within.child hC)
  have hsum := Topic.sum_weight_add_own_le hx h.within
  have hself : ∀ {problem : Problem}, form.blames problem = true →
      t.charge N.id problem ≤ t.own N := fun hblames =>
    Topic.charge_le_own fun heq => .self hform hblames heq
  have hpart : ∀ {problem : Problem} {trees : List Tree}, trees.Sublist N.expressions →
      (∀ C ∈ trees, form.blamesPart C.form problem = true) →
        (N.annotations.map t.reading).sum + (trees.map fun C => t.charge C.id problem).sum ≤
          t.own N := fun htrees hblames =>
    Topic.sum_reading_add_charge_le h.nodup hform htrees hblames
  -- an expression that is no block is measured from inside as from outside
  have hinner : N.form ≠ .expr .block → ∀ {step : Typing TypeId} {n : Nat},
      (meter t x (N :: path)).Costs step ((N.expressions.map (t.weight x)).sum + n) → n ≤ t.own N →
        After step p fun _ p' => (meter t x path).Grows p (t.weight x N) p' := by
    intro hblock step n hstep hle
    rw [meter_cons hblock] at hstep
    exact hstep.mono (le_trans (Nat.add_le_add_left hle _) hsum) p
  cases form <;> simp only [Bool.and_eq_true, Bool.or_eq_true, beq_iff_eq, decide_eq_true_eq] at hadmits
  case reference used => exact reference_costs h hpays hx ht hform
  case assignment used =>
    obtain ⟨V, hV⟩ := List.length_eq_one_iff.mp hadmits.1
    exact assignment_costs h hpays hx ht hform hV
  case locals => exact absurd hform h.direct.1
  case block => exact block_grows h hpays hx ht hform
  all_goals
    have hplain : N.form ≠ .expr .block := by simp [hform]
  case constant c => exact hinner hplain ((Costs.pure _).mono (Nat.zero_le _)) (Nat.zero_le _)
  case array => exact hinner hplain (n := 0) (array_costs hparts hcompute) (Nat.zero_le _)
  case struct => exact hinner hplain (n := 0) (struct_costs hparts hcompute) (Nat.zero_le _)
  case structField field =>
    exact hinner hplain (n := 0) (operand_costs hparts hcompute hadmits.1.le) (Nat.zero_le _)
  case nested =>
    exact hinner hplain (n := 0) (operand_costs hparts hcompute hadmits.1.le) (Nat.zero_le _)
  case localDef _ _ =>
    exact hinner hplain (n := 0) (operand_costs hparts hcompute hadmits.1.le) (Nat.zero_le _)
  case newObject =>
    exact hinner hplain (n := 0) (newObject_costs hparts hcompute hadmits.1) (Nat.zero_le _)
  case call => exact hinner hplain (call_costs hparts hcompute ht hadmits.1) (hself rfl)
  case logic op =>
    refine hinner hplain (logic_costs hparts hcompute ht) (le_of_add_le_right (hpart (.refl _) ?_))
    exact fun _ _ => rfl
  case conditional =>
    refine hinner hplain (conditional_costs hparts hcompute ht) (le_of_add_le_right (hpart ?_ ?_))
    · cases N.expressions <;> simp
    · exact fun _ _ => rfl
  case repeatLoop =>
    exact hinner hplain (n := 0) (repeatLoop_costs hparts hcompute hadmits.1.le) (Nat.zero_le _)
  case returnExit => exact hinner hplain (returnExit_costs hparts hcompute hadmits.1) (hself rfl)
  case breakExit =>
    exact hinner hplain (n := 0) (breakExit_costs hparts hcompute hadmits.1) (Nat.zero_le _)
  case handler =>
    obtain ⟨_, hheld⟩ := h.holds
    have hannotations : N.annotations = N.types := by
      rw [Tree.annotations, hform]
    refine hinner hplain (handler_costs hparts hcompute hadmits.1
      (fun V hV hreturn p => hnever _ V p (h.within.child hV) hreturn) hheld rfl ht) ?_
    rw [← hannotations]
    exact hpart List.filter_sublist fun C hC => (List.mem_filter.mp hC).2
  all_goals cases hcore

end

end Typing

end MessageLang
