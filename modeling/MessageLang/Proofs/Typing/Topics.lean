import MessageLang.Proofs.Typing.Lexical
import MessageLang.Proofs.Typing.Reporting
import Mathlib.Algebra.Order.BigOperators.Group.List
import Mathlib.Algebra.Order.Group.Nat

namespace MessageLang

/-- The kind of a problem, whatever names come with it. -/
def Problem.kind (problem : Problem) : Nat := problem.ctorIdx

/-- What a report is about: a kind of problem at a node. -/
structure Topic where
  node : NodeId
  kind : Nat
deriving DecidableEq

def Report.topic (r : Report) : Topic := ⟨r.node, r.problem.kind⟩

namespace Topic

/-- How often a problem at a node counts towards a topic. -/
def charge (t : Topic) (node : NodeId) (problem : Problem) : Nat :=
  if t = ⟨node, problem.kind⟩ then 1 else 0

/-- A topic other than the conflicts of a wildcard. One comparison may find several of those. -/
def NoConflict (t : Topic) : Prop := t.kind ≠ (Problem.wildcardConflict "" "").kind

/-- A topic that comes up when written types are read. -/
def OfType (t : Topic) : Prop := ∃ problem : Problem, problem.isOfType = true ∧ problem.kind = t.kind

end Topic

namespace ExprForm

/-- What typing an expression of a certain form may report of the expression itself. A return is
held to account by the handler that it leaves. -/
def blames : ExprForm → Problem → Bool
  | .reference _, .unresolvedName _ => true
  | .assignment _, .unresolvedName _ => true
  | .assignment _, .immutableAssignment _ => true
  | .assignment _, .incompatibleAssignment => true
  | .call, .noMatchingHandler => true
  | .returnExit, .incompatibleReturn => true
  | _, _ => false

/-- What it may report of a part of a certain form. A body that is a return gives nothing but what
is returned. -/
def blamesPart : ExprForm → NodeForm → Problem → Bool
  | .logic _, _, .nonBooleanOperand _ => true
  | .conditional, _, .nonBooleanCondition => true
  | .block, _, .unreachableCode => true
  | .handler, part, .incompatibleReturn => !decide (part = .expr .returnExit)
  | _, _, _ => false

end ExprForm

/-- The types that typing an expression reads: those of a handler, and those of the locals of a
block. -/
def Tree.annotations (N : Tree) : List Tree :=
  match N.form with
  | .expr .handler => N.types
  | .expr .block => N.locals.flatMap Tree.types
  | _ => []

/-- The rule for an expression may report something on a topic: of the expression, of one of its
parts or of one of the types that it reads. -/
inductive Tree.MayReport (N : Tree) (t : Topic) : Prop
  | self {form : ExprForm} {problem : Problem} (form_eq : N.form = .expr form)
      (blames : form.blames problem = true) (topic_eq : t = ⟨N.id, problem.kind⟩)
  | part {form : ExprForm} {problem : Problem} {C : Tree} (form_eq : N.form = .expr form)
      (mem : C ∈ N.expressions) (blames : form.blamesPart C.form problem = true)
      (topic_eq : t = ⟨C.id, problem.kind⟩)
  | type {Y : Tree} (ofType : t.OfType) (mem : Y ∈ N.annotations) (node_mem : t.node ∈ Y.ids)

section

variable {problem problem' : Problem} {form form' : ExprForm} {part : NodeForm}

theorem Problem.isOfType_congr (h : problem.kind = problem'.kind) :
    problem.isOfType = problem'.isOfType := by
  cases problem <;> cases problem' <;> cases h <;> rfl

theorem ExprForm.isOfType_of_blames (h : form.blames problem = true) : problem.isOfType = false := by
  cases problem <;> first | rfl | (cases form <;> cases h)

theorem ExprForm.isOfType_of_blamesPart (h : form.blamesPart part problem = true) :
    problem.isOfType = false := by
  cases problem <;> first | rfl | (cases form <;> cases h)

theorem ExprForm.blames_congr (h : problem.kind = problem'.kind) :
    form.blames problem = form.blames problem' := by
  cases problem <;> cases problem' <;> cases h <;> cases form <;> rfl

/-- Only what is wrong with what leaves a handler may be said of an expression by itself and by the
one around it, and a body that is a return leaves that to the return. -/
theorem ExprForm.form_ne_of_blamesPart (h : form.blames problem = true)
    (h' : form'.blamesPart part problem' = true) (hkind : problem.kind = problem'.kind) :
    part ≠ .expr form := by
  rw [blames_congr hkind] at h
  rintro rfl
  cases problem' with
  | incompatibleReturn =>
    cases form with
    | returnExit => cases form' <;> cases h'
    | _ => cases h
  | nonBooleanOperand | nonBooleanCondition | unreachableCode => cases form <;> cases h
  | _ => cases form' <;> cases h'

theorem Topic.not_ofType {t : Topic} {node : NodeId} (h : problem.isOfType = false)
    (heq : t = ⟨node, problem.kind⟩) : ¬ t.OfType := by
  rintro ⟨problem', htype, hkind⟩
  rw [heq] at hkind
  rw [Problem.isOfType_congr hkind, h] at htype
  cases htype

end

namespace Tree

/-- Assignments are items of blocks. -/
def AssignmentsInBlocks (R : Tree) : Prop :=
  ∀ path N name, R.Within path N → N.form = .expr (.assignment name) →
    ∃ B rest, path = B :: rest ∧ B.form = .expr .block

section

variable {a : Arena} {R N M D V H X Y : Tree} {path path' : List Tree} {t : Topic} {x : NodeId}

theorem mem_children_of_mem_types (h : Y ∈ N.types) : Y ∈ N.children := (List.mem_filter.mp h).1

/-- What is in a written type is in no expression that stands where the type does. -/
theorem not_mem_ids_of_mem_types (hnodup : N.ids.Nodup) (hY : Y ∈ N.types) (hx : x ∈ Y.ids)
    (hX : X ∈ N.expressions) : x ∉ X.ids := by
  intro hmem
  cases eq_of_mem_ids hnodup (mem_children_of_mem_types hY) (mem_children_of_mem_expressions hX) hx
    hmem
  have hexpr := (List.mem_filter.mp hX).2
  have htype := (List.mem_filter.mp hY).2
  rw [isExpr] at hexpr
  rw [isType] at htype
  cases hform : X.form with
  | expr => rw [hform] at htype; cases htype
  | type | token => rw [hform] at hexpr; cases hexpr

/-- A node is in a type of one expression only. -/
theorem Within.eq_of_mem_types (hN : R.Within path N) (hM : R.Within path' M) (hnodup : R.ids.Nodup)
    (hY : Y ∈ N.types) (hx : x ∈ Y.ids) (hX : X ∈ M.types) (hx' : x ∈ X.ids) :
    path = path' ∧ N = M := by
  have hnot : ∀ {path path' : List Tree} {N M Y X : Tree}, R.Within path N → R.Within path' M →
      Y ∈ N.types → x ∈ Y.ids → X ∈ M.types → x ∈ X.ids → N ∉ path' := by
    intro path path' N M Y X hN hM hY hx hX hx' hmem
    obtain ⟨C, hC, hbelow⟩ := hM.exists_child hmem
    have hxM : x ∈ M.ids := ids_subset_of_mem_children (mem_children_of_mem_types hX) hx'
    refine not_mem_ids_of_mem_types (hN.nodup hnodup) hY hx hC ?_
    rcases List.mem_cons.mp hbelow with rfl | hbelow
    · exact hxM
    · exact hM.ids_subset_of_mem hbelow hxM
  rcases hN.nested hM hnodup (ids_subset_of_mem_children (mem_children_of_mem_types hY) hx)
    (ids_subset_of_mem_children (mem_children_of_mem_types hX) hx') with hmem | hmem
  · rcases List.mem_cons.mp hmem with rfl | hmem
    · exact hN.unique hM hnodup rfl
    · exact absurd hmem (hnot hN hM hY hx hX hx')
  · rcases List.mem_cons.mp hmem with rfl | hmem
    · exact hN.unique hM hnodup rfl
    · exact absurd hmem (hnot hM hN hX hx' hY hx)

theorem mem_annotations_iff : Y ∈ N.annotations ↔ (N.form = .expr .handler ∧ Y ∈ N.types) ∨
    ∃ D ∈ N.locals, Y ∈ D.types := by
  have hlocals : N.form ≠ .expr .block → N.locals = [] := fun hform => if_neg hform
  unfold annotations
  split
  · next hform => simp [hform, hlocals (by simp [hform])]
  · next hform => simp [hform]
  · next hhandler hblock =>
    have hhandler : N.form ≠ .expr .handler := hhandler
    simp [hhandler, hlocals hblock]

/-- A topic is up to the rule for one expression. -/
theorem MayReport.unique (h : N.MayReport t) (h' : M.MayReport t) (hR : a.Lowered R)
    (hN : R.Within path N) (hM : R.Within path' M) : N = M := by
  have happart : ∀ {path path' : List Tree} {N M : Tree}, R.Within path N → R.Within path' M →
      ∀ {form form' : ExprForm} {problem problem' : Problem} {C : Tree}, N.form = .expr form →
        form.blames problem = true → t = ⟨N.id, problem.kind⟩ → C ∈ M.expressions →
          form'.blamesPart C.form problem' = true → t ≠ ⟨C.id, problem'.kind⟩ := by
    rintro path path' N M hN hM form form' problem problem' C hform hblames rfl hC hpart heq
    obtain ⟨hid, hkind⟩ := Topic.mk.inj heq
    obtain ⟨-, rfl⟩ := hN.unique (hM.child hC) hR.nodup hid
    exact ExprForm.form_ne_of_blamesPart hblames hpart hkind hform
  cases h with
  | self form_eq blames topic_eq =>
    cases h' with
    | self _ _ topic_eq' =>
      subst topic_eq
      exact (hN.unique hM hR.nodup (Topic.mk.inj topic_eq').1).2
    | part _ mem' blames' topic_eq' =>
      exact absurd topic_eq' (happart hN hM form_eq blames topic_eq mem' blames')
    | type ofType =>
      exact absurd ofType (Topic.not_ofType (ExprForm.isOfType_of_blames blames) topic_eq)
  | @part _ _ C _ mem blames topic_eq =>
    cases h' with
    | self form_eq' blames' topic_eq' =>
      exact absurd topic_eq (happart hM hN form_eq' blames' topic_eq' mem blames)
    | @part _ _ C' _ mem' _ topic_eq' =>
      subst topic_eq
      have hpath := ((hN.child mem).unique (hM.child mem') hR.nodup (Topic.mk.inj topic_eq').1).1
      exact (List.cons.inj hpath).1
    | type ofType =>
      exact absurd ofType (Topic.not_ofType (ExprForm.isOfType_of_blamesPart blames) topic_eq)
  | @type Y ofType mem node_mem =>
    cases h' with
    | self _ blames' topic_eq' =>
      exact absurd ofType (Topic.not_ofType (ExprForm.isOfType_of_blames blames') topic_eq')
    | part _ _ blames' topic_eq' =>
      exact absurd ofType (Topic.not_ofType (ExprForm.isOfType_of_blamesPart blames') topic_eq')
    | @type X _ mem' node_mem' =>
      have hlocal : ∀ {path : List Tree} {N D : Tree}, R.Within path N → D ∈ N.locals →
          ∃ G, R.Within (G :: N :: path) D ∧ D.form ≠ .expr .handler := by
        intro path N D hN hD
        obtain ⟨-, G, hG, hgroup, hmem⟩ := mem_locals_iff.mp hD
        have hwithin := hN.child hG
        obtain ⟨name, mutable, hform⟩ :=
          exists_form_eq_of_mem_group (hwithin.laidOut hR.laidOut) hgroup hmem
        exact ⟨G, hwithin.child hmem, by simp [hform]⟩
      rcases mem_annotations_iff.mp mem with ⟨hform, hY⟩ | ⟨D, hD, hY⟩ <;>
        rcases mem_annotations_iff.mp mem' with ⟨hform', hX⟩ | ⟨E, hE, hX⟩
      · exact (hN.eq_of_mem_types hM hR.nodup hY node_mem hX node_mem').2
      · obtain ⟨_, hE, hne⟩ := hlocal hM hE
        cases (hN.eq_of_mem_types hE hR.nodup hY node_mem hX node_mem').2
        exact absurd hform hne
      · obtain ⟨_, hD, hne⟩ := hlocal hN hD
        cases (hD.eq_of_mem_types hM hR.nodup hY node_mem hX node_mem').2
        exact absurd hform' hne
      · obtain ⟨_, hD, -⟩ := hlocal hN hD
        obtain ⟨_, hE, -⟩ := hlocal hM hE
        cases (hD.eq_of_mem_types hE hR.nodup hY node_mem hX node_mem').1
        rfl

/-- Finding the type of a local may report something on a topic: of the value that it does not fit,
or of the definition that it is recursive. -/
def Concerns (D V : Tree) (t : Topic) : Prop :=
  t = ⟨V.id, Problem.incompatibleAssignment.kind⟩ ∨
    ∃ name, t = ⟨D.id, (Problem.recursiveDefinition name).kind⟩

/-- What that may report no rule reports, where assignments are items of blocks. -/
theorem Concerns.not_mayReport (h : D.Concerns V t) (hD : R.Within path D)
    (hlocal : D.localName?.isSome = true) (hV : V ∈ D.expressions) (hR : a.Lowered R)
    (hplaced : R.AssignmentsInBlocks) (hN : R.Within path' N) : ¬ N.MayReport t := by
  intro hreport
  cases hreport with
  | @self form problem form_eq blames topic_eq =>
    rcases h with rfl | ⟨name, rfl⟩
    · obtain ⟨hid, hkind⟩ := Topic.mk.inj topic_eq
      obtain ⟨rfl, rfl⟩ := (hD.child hV).unique hN hR.nodup hid
      rw [ExprForm.blames_congr hkind.symm] at blames
      cases form with
      | assignment used =>
        obtain ⟨B, rest, heq, hblock⟩ := hplaced _ V used (hD.child hV) form_eq
        cases heq
        rw [localName?, hblock] at hlocal
        cases hlocal
      | _ => cases blames
    · rw [ExprForm.blames_congr (Topic.mk.inj topic_eq).2.symm] at blames
      cases form <;> cases blames
  | @part form problem C form_eq mem blames topic_eq =>
    rcases h with rfl | ⟨name, rfl⟩ <;>
      have hkind := (Topic.mk.inj topic_eq).2 <;>
        cases problem <;> first | (cases hkind; done) | (cases form <;> cases blames)
  | type ofType =>
    rcases h with heq | ⟨name, heq⟩ <;> exact Topic.not_ofType rfl heq ofType

/-- All that may be reported on a topic goes back to one node: to the expression whose rule it is up
to, or to the value of a local if it is about finding the type of that. -/
structure Origin (R : Tree) (t : Topic) (x : NodeId) : Prop where
  rule : ∀ path N, R.Within path N → N.MayReport t → N.id = x
  value : ∀ path D V, R.Within path D → D.localName?.isSome = true → V ∈ D.expressions →
    D.Concerns V t → V.id = x ∧ ¬ V.MayReport t

theorem exists_origin (hR : a.Lowered R) (hplaced : R.AssignmentsInBlocks) (t : Topic) :
    ∃ x, R.Origin t x := by
  by_cases hrule : ∃ path N, R.Within path N ∧ N.MayReport t
  · obtain ⟨path, N, hN, hreport⟩ := hrule
    refine ⟨N.id, fun path' M hM hM' => ?_, fun path' D V hD hlocal hV hconcerns => ?_⟩
    · exact congrArg Tree.id (hM'.unique hreport hR hM hN)
    · exact absurd hreport (hconcerns.not_mayReport hD hlocal hV hR hplaced hN)
  have hnone : ∀ path N, R.Within path N → ¬ N.MayReport t := fun path N hN hreport =>
    hrule ⟨path, N, hN, hreport⟩
  by_cases hvalue : ∃ path D V, R.Within path D ∧ D.localName?.isSome = true ∧ V ∈ D.expressions ∧
      D.Concerns V t
  · obtain ⟨path, D, V, hD, hlocal, hV, hconcerns⟩ := hvalue
    refine ⟨V.id, fun path' N hN hreport => absurd hreport (hnone path' N hN),
      fun path' E W hE hlocal' hW hconcerns' => ⟨?_, hnone _ W (hE.child hW)⟩⟩
    rcases hconcerns with rfl | ⟨name, rfl⟩ <;> rcases hconcerns' with heq | ⟨name', heq⟩ <;>
      obtain ⟨hid, hkind⟩ := Topic.mk.inj heq
    · exact hid.symm
    · cases hkind
    · cases hkind
    · obtain ⟨-, rfl⟩ := hD.unique hE hR.nodup hid
      obtain ⟨name, mutable, hform⟩ := exists_form_eq_of_localName? hlocal
      obtain ⟨U, hU⟩ := exists_expressions_eq_of_local (hD.laidOut hR.laidOut) hform
      rw [hU] at hV hW
      rw [List.mem_singleton.mp hV, List.mem_singleton.mp hW]
  · refine ⟨R.id, fun path' N hN hreport => absurd hreport (hnone path' N hN),
      fun path' D V hD hlocal hV hconcerns => absurd ⟨path', D, V, hD, hlocal, hV, hconcerns⟩ hvalue⟩

end

end Tree

namespace Topic

open Classical in
/-- How often the rule for an expression may report something on a topic. -/
noncomputable def own (t : Topic) (N : Tree) : Nat := if N.MayReport t then 1 else 0

open Classical in
/-- How often reading a written type may. -/
noncomputable def reading (t : Topic) (Y : Tree) : Nat := if t.OfType then Y.ids.count t.node else 0

/-- How often typing an expression may, if all of this goes back to one node. -/
noncomputable def weight (t : Topic) (x : NodeId) (N : Tree) : Nat :=
  (N.children.flatMap Tree.ids).count x + t.own N

variable {a : Arena} {R N D V Y : Tree} {path : List Tree} {t : Topic} {x node : NodeId}
  {problem : Problem} {form : ExprForm} {trees : List Tree}

theorem charge_of_ne (h : t ≠ ⟨node, problem.kind⟩) : t.charge node problem = 0 := if_neg h

theorem charge_self : charge ⟨node, problem.kind⟩ node problem = 1 := if_pos rfl

theorem charge_le_one : t.charge node problem ≤ 1 := by
  unfold charge
  split <;> omega

theorem charge_le_count {T : Tree} : t.charge T.id problem ≤ T.ids.count t.node := by
  by_cases heq : t = ⟨T.id, problem.kind⟩
  · rw [heq, charge_self]
    exact List.count_pos_iff.mpr T.id_mem_ids
  · rw [charge_of_ne heq]
    exact Nat.zero_le _

theorem own_of_mayReport (h : N.MayReport t) : t.own N = 1 := if_pos h

theorem own_of_not_mayReport (h : ¬ N.MayReport t) : t.own N = 0 := if_neg h

theorem reading_of_not_ofType (h : ¬ t.OfType) : t.reading Y = 0 := if_neg h

theorem reading_le_count : t.reading Y ≤ Y.ids.count t.node := by
  unfold reading
  split <;> omega

theorem charge_le_own (h : t = ⟨node, problem.kind⟩ → N.MayReport t) :
    t.charge node problem ≤ t.own N := by
  by_cases heq : t = ⟨node, problem.kind⟩
  · rw [own_of_mayReport (h heq)]
    exact charge_le_one
  · rw [charge_of_ne heq]
    exact Nat.zero_le _

/-- Of what is in the children, no more is in some of them. -/
theorem sum_count_le {some : List Tree} (h : some.Sublist trees) (x : NodeId) :
    (some.map fun C => C.ids.count x).sum ≤ (trees.flatMap Tree.ids).count x := by
  have hcount : (some.flatMap Tree.ids).count x = (some.map fun C => C.ids.count x).sum :=
    List.count_flatMap
  rw [← hcount]
  exact (h.flatMap Tree.ids).count_le x

theorem weight_le_count (hx : R.Origin t x) (hN : R.Within path N) :
    t.weight x N ≤ N.ids.count x := by
  rw [weight, Tree.ids_eq, List.count_cons]
  by_cases h : N.MayReport t
  · rw [own_of_mayReport h, hx.rule path N hN h, beq_self_eq_true, if_pos rfl]
  · rw [own_of_not_mayReport h]
    omega

/-- The parts of an expression and its rule report no more than the expression does. -/
theorem sum_weight_add_own_le (hx : R.Origin t x) (hN : R.Within path N) :
    (N.expressions.map (t.weight x)).sum + t.own N ≤ t.weight x N := by
  have hparts : N.expressions.Sublist N.children := List.filter_sublist
  refine Nat.add_le_add_right (le_trans ?_ (sum_count_le hparts x)) _
  exact List.sum_le_sum fun C hC => weight_le_count hx (hN.child hC)

/-- Typing the value of a local and finding the type of the local from it report no more than the
nodes of the value. -/
theorem weight_add_charge_le (hx : R.Origin t x) (hD : R.Within path D)
    (hlocal : D.localName?.isSome = true) (hV : V ∈ D.expressions)
    (h : t = ⟨node, problem.kind⟩ → D.Concerns V t) :
    t.weight x V + t.charge node problem ≤ V.ids.count x := by
  by_cases heq : t = ⟨node, problem.kind⟩
  · obtain ⟨hid, hnot⟩ := hx.value path D V hD hlocal hV (h heq)
    have hcharge : t.charge node problem ≤ 1 := charge_le_one
    rw [weight, own_of_not_mayReport hnot, Tree.ids_eq, List.count_cons, hid, beq_self_eq_true,
      if_pos rfl]
    omega
  · rw [charge_of_ne heq, Nat.add_zero]
    exact weight_le_count hx (hD.child hV)

/-- No node is in two types that a rule reads. -/
theorem nodup_annotations (hnodup : N.ids.Nodup) : (N.annotations.flatMap Tree.ids).Nodup := by
  have htypes : ∀ {T : Tree}, T.ids.Nodup → (T.types.flatMap Tree.ids).Nodup := by
    intro T hT
    rw [Tree.ids_eq, List.nodup_cons] at hT
    exact hT.2.sublist (List.filter_sublist.flatMap Tree.ids)
  unfold Tree.annotations
  split
  · exact htypes hnodup
  · rw [List.flatMap_assoc, List.nodup_flatMap]
    refine ⟨fun D hD => ?_, (Tree.pairwise_locals hnodup).imp fun hdisjoint x hx hx' => ?_⟩
    · obtain ⟨-, G, hG, -, hmem⟩ := Tree.mem_locals_iff.mp hD
      exact htypes (((Tree.Within.root.child hG).child hmem).nodup hnodup)
    · have hsub : ∀ {T : Tree}, x ∈ T.types.flatMap Tree.ids → x ∈ T.ids := by
        intro T hT
        obtain ⟨Y, hY, hmem⟩ := List.mem_flatMap.mp hT
        exact Tree.ids_subset_of_mem_children (Tree.mem_children_of_mem_types hY) hmem
      exact hdisjoint (hsub hx) (hsub hx')
  · exact List.nodup_nil

/-- The types that a rule reads and the parts that it may report come to no more than one report on
a topic. -/
theorem sum_reading_add_charge_le (hnodup : N.ids.Nodup) (hform : N.form = .expr form)
    (htrees : trees.Sublist N.expressions)
    (hblames : ∀ C ∈ trees, form.blamesPart C.form problem = true) :
    (N.annotations.map t.reading).sum + (trees.map fun C => t.charge C.id problem).sum ≤
      t.own N := by
  have hnone : ∀ (trees : List Tree) {f : Tree → Nat}, (∀ T ∈ trees, f T = 0) →
      (trees.map f).sum = 0 := fun _ _ h => List.sum_eq_zero (by simpa using h)
  have hreport : ∀ C ∈ trees, t = ⟨C.id, problem.kind⟩ → N.MayReport t ∧ ¬ t.OfType :=
    fun C hC heq => ⟨.part hform (htrees.subset hC) (hblames C hC) heq,
      not_ofType (ExprForm.isOfType_of_blamesPart (hblames C hC)) heq⟩
  by_cases h : N.MayReport t
  · rw [own_of_mayReport h]
    by_cases htype : t.OfType
    · rw [hnone trees fun C hC => charge_of_ne fun heq => (hreport C hC heq).2 htype,
        Nat.add_zero]
      refine le_trans ?_ (List.nodup_iff_count_le_one.mp (nodup_annotations hnodup) t.node)
      exact le_trans (List.sum_le_sum fun Y _ => reading_le_count) (sum_count_le (.refl _) t.node)
    · rw [hnone N.annotations fun Y _ => reading_of_not_ofType htype, Nat.zero_add]
      have hparts : trees.Sublist N.children := htrees.trans List.filter_sublist
      rw [Tree.ids_eq, List.nodup_cons] at hnodup
      refine le_trans ?_ (List.nodup_iff_count_le_one.mp hnodup.2 t.node)
      exact le_trans (List.sum_le_sum fun C _ => charge_le_count) (sum_count_le hparts t.node)
  · rw [hnone trees fun C hC => charge_of_ne fun heq => h (hreport C hC heq).1,
      hnone N.annotations fun Y hY => ?_]
    · exact Nat.zero_le _
    · by_cases htype : t.OfType
      · have hcount : t.node ∉ Y.ids := fun hmem => h (.type htype hY hmem)
        exact Nat.le_zero.mp (List.count_eq_zero_of_not_mem hcount ▸ reading_le_count)
      · exact reading_of_not_ofType htype

/-- What is reported of a written type and of the types in it is reported of the type. -/
theorem charge_add_sum_reading_le (hproblem : problem.isOfType = true) :
    t.charge Y.id problem + (Y.types.map t.reading).sum ≤ t.reading Y := by
  by_cases htype : t.OfType
  · have hparts : Y.types.Sublist Y.children := List.filter_sublist
    have hinner : (Y.types.map t.reading).sum ≤ (Y.children.flatMap Tree.ids).count t.node :=
      le_trans (List.sum_le_sum fun Z _ => reading_le_count) (sum_count_le hparts t.node)
    rw [reading, if_pos htype, Tree.ids_eq, List.count_cons]
    by_cases heq : t = ⟨Y.id, problem.kind⟩
    · have hcharge : t.charge Y.id problem ≤ 1 := charge_le_one
      have hnode : (Y.id == t.node) = true := by rw [heq, beq_self_eq_true]
      rw [if_pos hnode]
      omega
    · rw [charge_of_ne heq]
      omega
  · have hnone : (Y.types.map t.reading).sum = 0 :=
      List.sum_eq_zero (by simp [reading_of_not_ofType htype])
    rw [charge_of_ne fun heq => htype ⟨problem, hproblem, (congrArg Topic.kind heq).symm⟩, hnone]
    exact Nat.zero_le _

theorem charge_le_reading (hproblem : problem.isOfType = true) :
    t.charge Y.id problem ≤ t.reading Y :=
  le_trans (Nat.le_add_right _ _) (charge_add_sum_reading_le hproblem)

theorem sum_reading_le : (Y.types.map t.reading).sum ≤ t.reading Y := by
  have hsum : t.charge Y.id (.unresolvedType "") + (Y.types.map t.reading).sum ≤ t.reading Y :=
    charge_add_sum_reading_le rfl
  omega

end Topic

end MessageLang
