import MessageLang.Proofs.Typing.Blocks
import MessageLang.Proofs.Typing.Dues

namespace MessageLang

open MessageLang.Tree (Direct Known Visible stranded?)

/-- The groups of locals among some items of a block. -/
def groupsOf (items : List Tree) : List Tree := items.filter fun C => C.form = .expr .locals

/-- The other ones. -/
def othersOf (items : List Tree) : List Tree := items.filter fun C => !decide (C.form = .expr .locals)

theorem sum_groupsOf_add (f : Tree → Nat) (items : List Tree) :
    ((groupsOf items).map f).sum + ((othersOf items).map f).sum = (items.map f).sum := by
  rw [← List.sum_append, ← List.map_append]
  exact ((List.filter_append_perm _ items).map f).sum_eq

section

variable {a : Arena} {C : Tree} {r : Report} {rest : List Tree}

/-- Whether a report is to come of some items of a block, given what came before them. -/
def strandedFrom (a : Arena) (r : Report) (reach : Typing.Reach) (items : List Tree) : Nat :=
  if reach.reported then 0 else strandedDebt a r (stranded? reach.returned items)

/-- It comes of the first item or of the others, as far as it is one that options ask for. -/
theorem strandedFrom_cons {options : TypingOptions} (hr : r.problem.isOwed options)
    (reach : Typing.Reach) : strandedFrom a r reach (C :: rest) =
      (if reach.returned && !reach.reported && options.reportsUnreachable then
        if r = ⟨.unreachableCode, C.id, a.span C.id⟩ then 1 else 0 else 0) +
      strandedFrom a r ⟨reach.returned || C.form == .expr .returnExit,
        reach.reported || (reach.returned && !reach.reported && options.reportsUnreachable)⟩ rest := by
  obtain ⟨returned, reported⟩ := reach
  cases reported
  case true => simp [strandedFrom]
  cases returned
  case false => simp [strandedFrom, stranded?]
  cases hoptions : options.reportsUnreachable
  case true => simp [strandedFrom, stranded?, strandedDebt]
  -- nothing is to be reported, and no such report is meant
  have hne : ∀ node span, r ≠ ⟨.unreachableCode, node, span⟩ := by
    rintro node span rfl
    exact Bool.false_ne_true (hoptions.symm.trans hr)
  have hnone : ∀ item?, strandedDebt a r item? = 0 := by
    rintro (_ | item)
    · rfl
    · exact if_neg (hne _ _)
  simp [strandedFrom, hnone]

end

namespace Pass

variable {a : Arena} {R N : Tree} {base : Nat} {p p' q : Pass} {path done : List Tree}
  {entered : List NodeId} {compute : NodeId → Typing TypeId} {options : TypingOptions} {r : Report}
  {n m : Nat} {found : Variable}

theorem Raises.add (h : p.Raises a R r path n p') (hn : n = m) : p.Raises a R r path m p' := hn ▸ h

/-- What an expression that is no block raises is the same seen from inside and from outside. -/
theorem Raises.out (hblock : N.form ≠ .expr .block) (h : p.Raises a R r (N :: path) n p') :
    p.Raises a R r path n p' where
  rooted := h.rooted
  scope_eq := h.scope_eq
  tally_eq := by
    rw [← tally_cons hblock, h.tally_eq, tally_cons hblock]

namespace Entering

variable (h : p.Entering a R base path N entered compute) (hcount : Typing.Counts a R r compute)
include h hcount

theorem counts_parts : ∀ C ∈ N.expressions,
    Typing.Raises a R r (N :: path) (compute C.id) (debt a R r C) := fun C hC =>
  hcount _ C (h.within.child hC)

/-- Asking for the type of the variable that an expression names. -/
theorem meaningType_raises (hr : r.problem.isOwed options) {used : String}
    (huse : N.usedName? = some used)
    (hvisits : p.Visits a R base path (p.Touches path [N]) done p') (hp' : p'.Rooted)
    (hfound : p'.terms.get? p'.scope used = some found) :
    After (Typing.meaningType a compute found.meaning) p' fun _ p'' =>
      p'.Raises a R r path 0 p'' := by
  have hstands := hvisits.stands
  rcases hstands.frames.get? used with ⟨E, id, mutable, hget, hbinds, hcurrent⟩ | ⟨-, hknown⟩
  · cases hfound.symm.trans hget
    refine Typing.resolve_raises h.computes hcount h.ready hr h.within (h.not_touches hvisits) hp'
      hstands hbinds.visible hcurrent fun path' x _ hleads => ?_
    refine ⟨E, List.mem_cons_self, ?_, .inr (hleads.transGen h.within huse hbinds)⟩
    rw [hbinds.localName?_eq]
    rfl
  · obtain ⟨type, htype⟩ := hknown found hfound
    rw [htype]
    exact after_pure_iff.mpr (.refl hp')

end Entering

/-- Outside of everything nothing is due. -/
theorem tally_nil : p.tally a R r [] = p.heard r := by
  rw [tally, due_of_not_touches not_touches_nil, Nat.add_zero]

section

variable (henter : p.Entering a R base path N entered compute) (hform : N.form = .expr .block)
include henter hform

/-- When all locals of a block have been declared, what is in their values is still to be found. -/
theorem Declares.touches_iff (h : p.Declares a R base path N N.locals q) {x : NodeId} :
    q.Touches (N :: path) [] x ↔
      p.Touches path [] x ∨ ∃ D ∈ N.locals, ∃ V ∈ D.expressions, x ∈ V.ids := by
  have hcurrent : ∀ E, Visible path E → q.current? E = p.current? E := fun E hE =>
    h.grows.current?_eq (henter.clear hE)
  constructor
  · rintro (⟨_, hM, -⟩ | ⟨E, id, W, ⟨B, hB, hE⟩, hid, hwaiting, hW, hx⟩)
    · cases hM
    · rcases List.mem_cons.mp hB with rfl | hB
      · exact .inr ⟨E, hE, W, hW, hx⟩
      · have hvisible : Visible path E := ⟨B, hB, hE⟩
        rw [hcurrent E hvisible] at hid
        exact .inl (.inr ⟨E, id, W, hvisible, hid, h.grows.waiting_of hwaiting, hW, hx⟩)
  · rintro ((⟨_, hM, -⟩ | ⟨E, id, W, hE, hid, hwaiting, hW, hx⟩) | ⟨D, hD, V, hV, hx⟩)
    · cases hM
    · have hlt : id.index < p.placeholders.size := by
        obtain ⟨_, _, hid', hfor⟩ := henter.stands.frames.visible hE
        cases hid.symm.trans hid'
        exact hfor.lt
      refine .inr ⟨E, id, W, hE.cons N, (hcurrent E hE).trans hid, ⟨?_, ?_⟩, hW, hx⟩
      · exact (h.result_eq id hlt).trans hwaiting.1
      · exact h.resolving_eq ▸ hwaiting.2
    · obtain ⟨id, hid, -⟩ := (h.stands henter hform).frames.exists_isFor hD
      obtain ⟨hle, hnone⟩ := h.fresh D hD id hid
      refine .inr ⟨D, id, V, ⟨N, List.mem_cons_self, hD⟩, hid, ⟨hnone, fun hmem => ?_⟩, hV, hx⟩
      rw [h.resolving_eq] at hmem
      exact absurd (henter.stands.resolving_lt id hmem) (Nat.not_lt.mpr hle)

theorem Declares.due_eq (h : p.Declares a R base path N N.locals q) :
    q.due a R r (N :: path) = p.due a R r path + ((groupsOf N.expressions).map (debt a R r)).sum := by
  have hiff := h.touches_iff henter hform (x := r.origin a)
  by_cases hr : Owed a R r
  · by_cases hin : ∃ G ∈ groupsOf N.expressions, r.origin a ∈ G.ids
    · obtain ⟨G, hG, hmem⟩ := hin
      obtain ⟨hpart, hgroup⟩ := List.mem_filter.mp hG
      have hgroup := of_decide_eq_true hgroup
      have hwithin := henter.within.child hpart
      -- what is owed is owed in the value of one of the locals
      obtain ⟨D, hD, hmemD⟩ := hr.exists_part henter.ready hwithin hmem
        (hr.origin_ne henter.ready hwithin (by rw [Tree.usedName?, hgroup]) (by simp [hgroup]))
      obtain ⟨used, mutable, hlocal⟩ :=
        Tree.exists_form_eq_of_mem_group (hwithin.laidOut henter.ready.laidOut) hgroup hD
      obtain ⟨V, hV, hmemV⟩ := hr.exists_part henter.ready (hwithin.child hD) hmemD
        (hr.origin_ne henter.ready (hwithin.child hD) (by rw [Tree.usedName?, hlocal])
          (by simp [hlocal]))
      have hbefore : ¬ p.Touches path [] (r.origin a) := henter.stands.not_touches henter.ready.nodup
        henter.within henter.direct (Tree.ids_subset_of_mem_expressions hpart hmem)
      have hapart := (Tree.pairwise_expressions henter.nodup).filter
        fun C => C.form = .expr .locals
      rw [due_of_not_touches hbefore, groupsOf, sum_debt_of_mem hr hapart hG hmem,
        due_of_touches hr (hiff.mpr (.inr ⟨D, ?_, V, hV, hmemV⟩))]
      exact Tree.mem_locals_iff.mpr ⟨hform, G, hpart, hgroup, hD⟩
    · rw [sum_debt_of_not_mem fun G hG hmem => hin ⟨G, hG, hmem⟩, Nat.add_zero]
      refine due_congr (hiff.trans (or_iff_left ?_))
      rintro ⟨D, hD, V, hV, hmem⟩
      obtain ⟨-, G, hG, hgroup, hDG⟩ := Tree.mem_locals_iff.mp hD
      refine hin ⟨G, List.mem_filter.mpr ⟨hG, decide_eq_true hgroup⟩, ?_⟩
      exact Tree.ids_subset_of_mem_expressions hDG (Tree.ids_subset_of_mem_expressions hV hmem)
  · rw [due_of_not_owed hr, due_of_not_owed hr, sum_debt_of_not_owed hr]

omit hform in
/-- When all of a block has been typed, nothing in the values of its locals is still to be found. -/
theorem Runs.touches_iff (h : p.Runs a R base path N N.expressions [] q) {x : NodeId} :
    q.Touches (N :: path) [] x ↔ q.Touches path [] x := by
  refine or_congr_right ⟨?_, fun ⟨E, id, W, hE, hrest⟩ => ⟨E, id, W, hE.cons N, hrest⟩⟩
  rintro ⟨E, id, W, ⟨B, hB, hE⟩, hid, hwaiting, hrest⟩
  rcases List.mem_cons.mp hB with rfl | hB
  · obtain ⟨-, G, hG, -, hEG⟩ := Tree.mem_locals_iff.mp hE
    have hcovered := (h.covered G (List.mem_append_left _ hG)).of_mem_expressions
      (henter.within.child hG) henter.ready.nodup hEG
    exact absurd hwaiting (hcovered.not_waiting henter.within hE hid)
  · exact ⟨E, id, W, ⟨B, hB, hE⟩, hid, hwaiting, hrest⟩

end

end Pass

namespace Typing

open Pass

variable {a : Arena} {options : TypingOptions} {R N G D : Tree} {base : Nat} {p q : Pass}
  {path items known rest : List Tree} {entered : List NodeId} {compute : NodeId → Typing TypeId}
  {used : String} {r : Report}

section

variable (h : p.Entering a R base path N entered compute) (hcount : Counts a R r compute)
  (hr : r.problem.isOwed options) (hp : p.Rooted)
include h hcount hr hp

theorem reference_raises (hform : N.form = .expr (.reference used)) (hparts : N.expressions = []) :
    After (reference a compute N.id used) p fun _ p' => p.Raises a R r path (debt a R r N) p' := by
  have huse : N.usedName? = some used := by
    rw [Tree.usedName?, hform]
  have hnone := h.stands.frames.get?_eq_none_iff hp used
  rw [debt_eq h.ready h.within, hparts, reference, after_bind_iff, after_get_iff]
  split
  · next found hfound =>
    have hknown : Known a path used := by
      by_contra hnot
      cases hfound.symm.trans (hnone.mpr hnot)
    rw [ownDebt_of_known h.ready h.within huse hknown]
    exact h.meaningType_raises hcount hr huse (h.stands.visits _) hp hfound
  · next hmissing =>
    rw [ownDebt_of_not_known h.ready h.within huse (hnone.mp hmissing)]
    exact (report_raises p hp).bind fun _ p₁ h₁ => after_pure_iff.mpr h₁

theorem assignment_raises (hform : N.form = .expr (.assignment used)) {V : Tree}
    (hparts : N.expressions = [V]) :
    After (assignment a compute N.id used) p fun _ p' =>
      p.Raises a R r path (debt a R r N) p' := by
  have huse : N.usedName? = some used := by
    rw [Tree.usedName?, hform]
  have hblock : N.form ≠ .expr .block := by simp [hform]
  have hvalue := operand_raises h.expressions_eq (h.counts_parts hcount) (by simp [hparts])
  have hends := operand_ends h hblock (by simp [hform]) hparts
  rw [debt_eq h.ready h.within, assignment, after_bind_iff]
  refine (hends.and_after (hvalue p hp)).after.mono ?_
  rintro value p₁ ⟨⟨hvisits, -⟩, h₁⟩
  have h₁ := h₁.out hblock
  have hnone := hvisits.stands.frames.get?_eq_none_iff h₁.rooted used
  rw [after_bind_iff, after_get_iff]
  split
  · next hmissing =>
    rw [ownDebt_of_not_known h.ready h.within huse (hnone.mp hmissing)]
    exact (report_raises.on h₁).bind fun _ p₂ h₂ => after_pure_iff.mpr (h₂.add (Nat.add_comm ..))
  · next found hfound =>
    have hknown : Known a path used := by
      by_contra hnot
      cases hfound.symm.trans (hnone.mpr hnot)
    rw [ownDebt_of_known h.ready h.within huse hknown, Nat.zero_add]
    refine (h.meaningType_raises hcount hr huse hvisits h₁.rooted hfound).bind fun target p₂ h₂ => ?_
    have h₂ := h₁.trans h₂
    split
    · exact ((report_other_raises (Problem.ne_of_isOwed hr rfl)).on h₂).bind fun _ p₃ h₃ => after_pure_iff.mpr h₃
    · suffices hdemand : Raises a R r path _ 0 from hdemand.on h₂
      exact demand_raises hr (Problem.ne_of_isOwed hr rfl) (.pure target)

end

section

variable (hr : r.problem.isOwed options)
include hr

/-- Declaring a local reports no name. -/
theorem declareLocal_raises {definition : NodeId} {n : Nat} (h : p.Raises a R r [] n q)
    (hscope : p.scope ≠ Scopes.root) :
    After (declareLocal a definition) q fun _ q' => p.Raises a R r [] n q' := by
  rw [declareLocal]
  split
  · refine ((readOption_raises hr).on h).bind fun declared q₁ h₁ => ?_
    rw [after_bind_iff, after_get_iff, after_bind_iff, after_set_iff]
    refine addTerm_raises ⟨⟨h₁.rooted.lt, h₁.rooted.names⟩, h₁.scope_eq, ?_⟩ hscope
    have htally := h₁.tally_eq
    rw [tally_nil] at htally ⊢
    exact htally
  · exact after_pure_iff.mpr h

theorem declareGroups_raises (R : Tree) (hp : p.Rooted) (hscope : p.scope ≠ Scopes.root)
    (node : NodeId) :
    After (declareGroups a node) p fun _ q => p.Raises a R r [] 0 q := by
  refine after_forIn (fun _ q => p.Raises a R r [] 0 q) ?_ (.refl hp)
  intro _ item _ q hq
  split
  · refine After.bind (after_forM (fun _ q => p.Raises a R r [] 0 q) ?_ hq) fun _ q₁ h₁ =>
      after_pure_iff.mpr ⟨rfl, h₁⟩
    exact fun _ definition _ q₁ h₁ => declareLocal_raises hr h₁ hscope
  · exact after_pure_iff.mpr ⟨rfl, hq⟩

end

section

variable (h : p.Entering a R base path N entered compute) (hform : N.form = .expr .block)
  (hcount : Counts a R r compute) (hr : r.problem.isOwed options)
include h hform hcount hr

/-- A group of locals reports what is due, and no more. -/
theorem group_raises (hruns : p.Runs a R base path N items [] q) (hq : q.Rooted)
    (hsplit : N.expressions = items ++ G :: rest) (hgroup : G.form = .expr .locals) :
    After (typeItem a compute G.id) q fun _ q' => q.Raises a R r (N :: path) 0 q' := by
  have hG : G ∈ N.expressions := by simp [hsplit]
  rw [typeItem_eq_of_group h hG hgroup]
  refine (defineLocals_ends h hform (fun q' => q.Raises a R r (N :: path) 0 q') hruns hsplit hgroup
    (.refl hq) fun known D id q₁ hruns₁ h₁ hD hlookup => ?_).after.bind fun _ q₁ h₁ =>
      (setType_raises.on h₁.2).bind fun _ q₂ h₂ => after_pure_iff.mpr h₂
  have hlocal : D ∈ N.locals := Tree.mem_locals_iff.mpr ⟨hform, G, hG, hgroup, hD⟩
  rw [defineLocal, after_bind_iff, after_get_iff, hlookup]
  exact (resolve_raises h.computes hcount h.ready hr (h.within.child hG)
    (not_touches_of_runs h hruns₁) h₁.rooted hruns₁.stands ⟨N, List.mem_cons_self, hlocal⟩ hlookup
    (leads_local h hG hD)).bind fun type q₂ h₂ => setType_raises.on (h₁.trans h₂)

/-- An item of a block that is no group of locals reports what is owed in it. -/
theorem typeItem_raises {C : Tree} (hruns : p.Runs a R base path N items [] q) (hq : q.Rooted)
    (hsplit : N.expressions = items ++ C :: rest) :
    After (typeItem a compute C.id) q fun _ q' =>
      q.Raises a R r (N :: path) ((othersOf [C]).map (debt a R r)).sum q' := by
  have hC : C ∈ N.expressions := by simp [hsplit]
  by_cases hgroup : C.form = .expr .locals
  · have hnone : othersOf [C] = [] := by simp [othersOf, hgroup]
    rw [hnone]
    exact group_raises h hform hcount hr hruns hq hsplit hgroup
  · have hone : othersOf [C] = [C] := by simp [othersOf, hgroup]
    rw [hone, typeItem_eq_of_ne h hC hgroup, List.map_singleton, List.sum_singleton]
    exact hcount _ C (h.within.child hC) q hq

omit h hform hcount hr in
/-- The first item that cannot be reached is reported itself. -/
theorem reportUnreachable_raises {C : Tree} (reach : Reach) :
    Raises a R r path (reportUnreachable a options reach C.id)
      (if reach.returned && !reach.reported && options.reportsUnreachable then
        if r = ⟨.unreachableCode, C.id, a.span C.id⟩ then 1 else 0 else 0) := by
  rw [reportUnreachable]
  split
  · exact report_raises
  · exact .pure _

/-- Of the items of a block, the ones that are no groups of locals report what is owed in them. The
first one that cannot be reached is reported itself. -/
theorem itemsFrom_raises (reach : Reach) {last : TypeId} (hruns : p.Runs a R base path N items [] q)
    (hq : q.Rooted) (hsplit : N.expressions = items ++ rest) :
    After (itemsFrom a options compute reach last (rest.map Tree.id)) q fun _ q' =>
      q.Raises a R r (N :: path)
        (((othersOf rest).map (debt a R r)).sum + strandedFrom a r reach rest) q' := by
  induction rest generalizing reach last items q with
  | nil =>
    refine after_pure_iff.mpr ((Pass.Raises.refl hq).add ?_)
    simp [othersOf, strandedFrom, stranded?, strandedDebt]
  | cons C rest ih =>
    have hothers : othersOf (C :: rest) = othersOf [C] ++ othersOf rest := List.filter_append [C] rest
    have hreturn : (a.expr? C.id == some .returnExit) = (C.form == .expr .returnExit) := by
      rw [Bool.eq_iff_iff, beq_iff_eq, beq_iff_eq,
        h.ready.expr?_eq_some_iff (h.within.child (by simp [hsplit]))]
    rw [List.map_cons, itemsFrom_cons, Reach.after, hreturn, strandedFrom_cons hr, hothers,
      List.map_append, List.sum_append]
    have hreport : Raises a R r (N :: path) (reportUnreachable a options reach C.id) _ :=
      reportUnreachable_raises reach
    refine ((reportUnreachable_ends h reach hruns hsplit).and_after (hreport q hq)).after.bind ?_
    rintro _ q₁ ⟨hruns₁, h₁⟩
    refine ((typeItem_ends h hform hruns₁ hsplit).and_after
      (typeItem_raises h hform hcount hr hruns₁ h₁.rooted hsplit)).after.bind ?_
    rintro type q₂ ⟨⟨hruns₂, -⟩, h₂⟩
    refine (ih _ hruns₂ h₂.rooted (by simpa using hsplit)).mono fun _ q₃ h₃ => ?_
    exact (h₁.trans (h₂.trans h₃)).add (by omega)

/-- A block reports what is owed in it. -/
theorem block_raises (hp : p.Rooted) : After (block a options compute N.id) p fun _ p' =>
    p.Raises a R r path (debt a R r N) p' := by
  have hscope : p.pushed.scope ≠ Scopes.root := fun heq =>
    absurd hp.lt (Nat.not_lt.mpr (congrArg ScopeId.index heq).le)
  rw [block_eq, after_inNewScope_iff]
  simp only [after_bind_iff]
  refine ((declareGroups_ends h hform).and_after
    (declareGroups_raises hr R hp.pushed hscope N.id)).after.mono ?_
  rintro _ q ⟨hdeclares, hdeclared⟩
  have hruns := hdeclares.runs h hform
  rw [h.expressions_eq]
  have hall : N.expressions = [] ++ N.expressions := rfl
  refine ((itemsFrom_ends h hform _ hruns hall (hruns.stands.sound.lt_of_builtin (by decide))).and_after
    (itemsFrom_raises h hform hcount hr _ hruns hdeclared.rooted hall)).after.mono ?_
  rintro _ q' ⟨⟨hruns', -⟩, h'⟩
  refine ⟨⟨h'.rooted.lt, h'.rooted.names⟩, rfl, ?_⟩
  have hstart : q.heard r = p.heard r := by
    have htally := hdeclared.tally_eq
    rwa [tally_nil, tally_nil] at htally
  calc q'.tally a R r path
      = q'.tally a R r (N :: path) := by rw [tally, tally, due_congr (hruns'.touches_iff h)]
    _ = p.tally a R r path + (((groupsOf N.expressions).map (debt a R r)).sum +
          (((othersOf N.expressions).map (debt a R r)).sum +
            strandedDebt a r (stranded? false N.expressions))) := by
        rw [h'.tally_eq, tally, tally, hstart, hdeclares.due_eq h hform, Nat.add_assoc, Nat.add_assoc,
          Nat.add_assoc]
        rfl
    _ = p.tally a R r path + debt a R r N := by
        rw [← Nat.add_assoc (List.sum _), sum_groupsOf_add, debt_eq h.ready h.within,
          ownDebt_of_block h.ready h.within hform, Nat.add_comm (strandedDebt ..)]

end

/-- Every rule reports what is owed in the expression. -/
theorem ofForm_raises (h : p.Entering a R base path N entered compute) (hcount : Counts a R r compute)
    (hr : r.problem.isOwed options) (hp : p.Rooted) {form : ExprForm}
    (hform : N.form = .expr form) :
    After (ofForm a options compute N.id form) p fun _ p' =>
      p.Raises a R r path (debt a R r N) p' := by
  obtain ⟨other, hother, hcore⟩ := h.ready.core path N h.within
  cases hform.symm.trans hother
  have hadmits := h.admits hform
  rw [ExprForm.admits.eq_def, Tree.length_exprForms] at hadmits
  have hparts := h.expressions_eq
  have hcompute := h.counts_parts hcount
  -- where an expression neither uses a name nor is a block, the names are in its parts
  have hinner : N.usedName? = none ∧ N.form ≠ .expr .block → ∀ {step : Typing TypeId},
      Raises a R r (N :: path) step (N.expressions.map (debt a R r)).sum →
        After step p fun _ p' => p.Raises a R r path (debt a R r N) p' := by
    rintro ⟨huse, hblock⟩ step hstep
    rw [debt_eq_sum h.ready h.within huse hblock]
    exact (hstep p hp).mono fun _ _ => Pass.Raises.out hblock
  cases form <;> simp only [Bool.and_eq_true, Bool.or_eq_true, beq_iff_eq, decide_eq_true_eq] at hadmits
  case reference used =>
    exact reference_raises h hcount hr hp hform (List.eq_nil_of_length_eq_zero hadmits.1)
  case assignment used =>
    obtain ⟨V, hV⟩ := List.length_eq_one_iff.mp hadmits.1
    exact assignment_raises h hcount hr hp hform hV
  case locals => exact absurd hform h.direct.1
  case block => exact block_raises h hform hcount hr hp
  all_goals
    have hplain : N.usedName? = none ∧ N.form ≠ .expr .block := by simp [Tree.usedName?, hform]
  case constant c =>
    refine hinner hplain ?_
    rw [List.eq_nil_of_length_eq_zero hadmits.1]
    exact .pure _
  case array => exact hinner hplain (array_raises hr hparts hcompute)
  case struct => exact hinner hplain (struct_raises hr hparts hcompute)
  case structField field => exact hinner hplain (operand_raises hparts hcompute hadmits.1.le)
  case nested => exact hinner hplain (operand_raises hparts hcompute hadmits.1.le)
  case localDef _ _ => exact hinner hplain (operand_raises hparts hcompute hadmits.1.le)
  case newObject => exact hinner hplain (newObject_raises hr hparts hcompute hadmits.1)
  case call => exact hinner hplain (call_raises hr hparts hcompute hadmits.1)
  case logic op => exact hinner hplain (logic_raises hr hparts hcompute)
  case conditional => exact hinner hplain (conditional_raises hr hparts hcompute)
  case repeatLoop => exact hinner hplain (repeatLoop_raises hr hparts hcompute hadmits.1.le)
  case returnExit => exact hinner hplain (returnExit_raises hparts hcompute hadmits.1)
  case breakExit => exact hinner hplain (breakExit_raises hparts hcompute hadmits.1)
  case handler => exact hinner hplain (handler_raises hr hparts hcompute hadmits.1)
  all_goals cases hcore

end Typing

end MessageLang
