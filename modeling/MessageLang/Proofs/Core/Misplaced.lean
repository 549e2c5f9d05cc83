import MessageLang.Proofs.Core.Simulation

namespace MessageLang

namespace NodeForm

/-- The nearest expression among the nodes above a place, nearest first, is a block. -/
def InBlock (above : List NodeForm) : Prop := (above.filterMap expr?).head? = some .block

instance (above : List NodeForm) : Decidable (InBlock above) := inferInstanceAs (Decidable (_ = _))

/-- What is wrong with a node below nodes of certain forms, if none of its own form may stand there:
assignments and groups of locals belong in blocks, other locals as well, returns into handlers and
breaks into loops. -/
def misplacement? (above : List NodeForm) : NodeForm → Option Problem
  | expr (.assignment _) => if InBlock above then none else some .assignmentOutsideBlock
  | expr .locals => if InBlock above then none else some .localOutsideBlock
  | expr (.localDef ..) =>
    if above.head? = some (expr .locals) ∨ InBlock above then none else some .localOutsideBlock
  | expr .returnExit => if expr .handler ∈ above then none else some .returnOutsideHandler
  | expr .breakExit => if expr .repeatLoop ∈ above then none else some .breakOutsideRepeat
  | _ => none

end NodeForm

namespace Problem

/-- Problems of a node that is where it may not be, whatever is in it. -/
def isMisplacement : Problem → Bool
  | assignmentOutsideBlock | localOutsideBlock | returnOutsideHandler | breakOutsideRepeat => true
  | _ => false

end Problem

namespace Tree

mutual

/-- All nodes of a tree, each before those below it, with what is above them, nearest first. -/
def places (above : List NodeForm) : Tree → List (List NodeForm × Tree)
  | node id form span grouped children =>
    (above, node id form span grouped children) :: placesAll (form :: above) children

def placesAll (above : List NodeForm) : List Tree → List (List NodeForm × Tree)
  | [] => []
  | T :: rest => T.places above ++ placesAll above rest

end

/-- What is reported of a node in its place. -/
def misplacement? : List NodeForm × Tree → Option Report
  | (above, X) => (X.form.misplacement? above).map (⟨·, X.id, X.span⟩)

section

variable {T : Tree} {s s' : Lowering} {size : Nat} {made : Tree × Nat} {above : List NodeForm}

theorem places_eq (above : List NodeForm) (T : Tree) :
    T.places above = (above, T) :: placesAll (T.form :: above) T.children := by
  cases T
  rfl

theorem mem_placesAll_iff {trees : List Tree} {place : List NodeForm × Tree} :
    place ∈ placesAll above trees ↔ ∃ U ∈ trees, place ∈ U.places above := by
  induction trees with
  | nil => simp [placesAll]
  | cons U rest ih => simp [placesAll, ih]

/-- What is in a node of a tree is in the tree, below the node. -/
theorem mem_places_of_mem_children {above' : List NodeForm} {X C : Tree}
    (hX : (above', X) ∈ T.places above) (hC : C ∈ X.children) :
    (X.form :: above', C) ∈ T.places above := by
  induction T generalizing above with
  | node id form span grouped children ih =>
    rw [places_eq, List.mem_cons] at hX ⊢
    refine .inr (mem_placesAll_iff.mpr ?_)
    rcases hX with heq | hX
    · cases heq
      refine ⟨C, hC, ?_⟩
      rw [places_eq]
      exact List.mem_cons_self
    · obtain ⟨U, hU, hX⟩ := mem_placesAll_iff.mp hX
      exact ⟨U, hU, ih U hU hX⟩

private theorem inBlock_iff (above : List NodeForm) :
    (above.find? (·.expr?.isSome)).any (·.expr? == some .block) = true ↔
      NodeForm.InBlock above := by
  induction above with
  | nil => simp [NodeForm.InBlock]
  | cons form rest ih =>
    cases hexpr : form.expr? with
    | none => simpa [NodeForm.InBlock, hexpr] using ih
    | some sort => simp [NodeForm.InBlock, hexpr]

private theorem inside_iff (above : List NodeForm) (sort : ExprForm) :
    (above.find? fun form => form.expr?.any (· == sort)).isSome = true ↔ .expr sort ∈ above := by
  rw [List.find?_isSome]
  constructor
  · rintro ⟨form, hform, hsort⟩
    cases form with
    | expr other =>
      rw [NodeForm.expr?, Option.any_some, beq_iff_eq] at hsort
      exact hsort ▸ hform
    | _ => cases hsort
  · exact fun h => ⟨_, h, by simp [NodeForm.expr?]⟩

/-- Of the problems with where a tree stands, those that are not about its parts. -/
private theorem filter_problem? (T : Tree) (above : List NodeForm) :
    (T.problem? above).filter (·.isMisplacement) = T.form.misplacement? above := by
  have hgroup : above.head?.any (·.expr? == some .locals) = true ↔
      above.head? = some (.expr .locals) := by
    cases above with
    | nil => simp
    | cons form rest => cases form <;> simp [NodeForm.expr?]
  unfold problem?
  simp only [Bool.or_eq_true, hgroup, inBlock_iff, inside_iff]
  cases hform : T.form with
  | token t => simp [expr?, hform, NodeForm.expr?, NodeForm.misplacement?]
  | type sort => simp [expr?, hform, NodeForm.expr?, NodeForm.misplacement?]
  | expr sort =>
    have hexpr : T.expr? = some sort := by rw [expr?, hform]; rfl
    rw [hexpr]
    cases sort <;> simp only [NodeForm.misplacement?] <;> try rfl
    all_goals split <;> rfl

/-- Fields of a struct have problems of their own, but none with where they stand. -/
private theorem filter_nameFields (log : Log) (seen : Placement.FieldsSeen) (index : Nat)
    (trees : List Tree) : ∃ more, (nameFields log seen index trees).1.toList = log.toList ++ more ∧
      more.filter (·.problem.isMisplacement) = [] := by
  obtain ⟨more, heq, hmore⟩ := exists_reports_nameFields log seen index trees
  refine ⟨more, heq, List.filter_eq_nil_iff.mpr fun r hr => ?_⟩
  rcases (hmore r hr).1 with hproblem | ⟨name, hproblem⟩ <;> simp [hproblem, Problem.isMisplacement]

/-- When a tree settles, what is reported of places is what is wrong with its own. -/
theorem Settles.misplacement? (h : T.Settles above s size made s') :
    ∃ more, s'.log.toList = s.log.toList ++ more ∧ more.filter (·.problem.isMisplacement) =
      (Tree.misplacement? (above, made.1)).toList := by
  cases h with
  | conditional form_eq =>
    have hform : (T.completeConditional size).1.form = .expr .conditional := form_eq
    exact ⟨[], by simp, by simp [Tree.misplacement?, hform, NodeForm.misplacement?]⟩
  | struct form_eq =>
    obtain ⟨more, heq, hmore⟩ := filter_nameFields s.log ⟨[], false⟩ 0 T.children
    exact ⟨more, heq, by simp [hmore, Tree.misplacement?, form_eq, NodeForm.misplacement?]⟩
  | placed =>
    have hfilter := filter_problem? T above
    unfold checkPlacement
    cases hproblem : T.problem? above with
    | none =>
      rw [hproblem, Option.filter_none] at hfilter
      exact ⟨[], by simp, by simp [Tree.misplacement?, ← hfilter]⟩
    | some problem =>
      refine ⟨[⟨problem, T.id, T.span⟩], by simp [Log.reportAt, Log.toList], ?_⟩
      rw [Tree.misplacement?, ← hfilter, hproblem]
      cases hsort : problem.isMisplacement <;> simp [hsort, Option.filter]
  | kept kept =>
    refine ⟨[], by simp, ?_⟩
    have hnone : T.form.misplacement? above = none := by
      unfold Kept at kept
      split at kept <;> first | exact kept.elim | simp_all [NodeForm.misplacement?]
    simp [Tree.misplacement?, hnone]

end

end Tree

/-- Of places, lowering reports what is wrong with those in the trees that it makes, in their
order. -/
theorem Lowers.misplacements_eq {above : List NodeForm} {trees trees' : List Tree}
    {w w' : Lowering × Nat} (h : Lowers above trees w trees' w') :
    ∃ more, w'.1.log.toList = w.1.log.toList ++ more ∧ more.filter (·.problem.isMisplacement) =
      (Tree.placesAll above trees').filterMap Tree.misplacement? := by
  induction h with
  | nil => exact ⟨[], by simp, rfl⟩
  | @settles above T T' trees trees' children s s₁ size size₁ w₂ w₃ step below after ihbelow
      ihafter =>
    -- first the tree itself, then what is below it, then the trees after it
    obtain ⟨own, hown, hownfilter⟩ := step.misplacement?
    obtain ⟨inner, hinner, hinnerfilter⟩ := ihbelow
    obtain ⟨rest, hrest, hrestfilter⟩ := ihafter
    refine ⟨own ++ inner ++ rest, by rw [hrest, hinner, hown]; simp, ?_⟩
    have hsame : Tree.misplacement? (above, T'.withChildren children) =
        Tree.misplacement? (above, T') := rfl
    rw [List.filter_append, List.filter_append, hownfilter, hinnerfilter, hrestfilter,
      Tree.placesAll, Tree.places_eq, Tree.form_withChildren, Tree.children_withChildren,
      List.filterMap_append, List.filterMap_cons, hsame]
    cases Tree.misplacement? (above, T') <;> rfl
  | rewrites step _ ih =>
    obtain ⟨more, hmore, hfilter⟩ := ih
    exact ⟨more, by rw [hmore, step.log_eq], hfilter⟩

/-- Lowering reports an assignment, a group of locals, a local, a return or a break for standing
where it may not exactly for each such node of the tree that it makes, in preorder. -/
theorem lower_misplacements_eq {a : Arena} {T : Tree} (hheld : a.Holds none T)
    (hnodup : T.ids.Nodup) (stem : String) (log : Log) :
    ∃ R log' a' more, lower stem T.id log a = .ok ((R.id, log'), a') ∧ a'.Holds none R ∧
      R.ids.Nodup ∧ log'.toList = log.toList ++ more ∧
        more.filter (·.problem.isMisplacement) = (R.places []).filterMap Tree.misplacement? := by
  have hunder : a.Under none [] T := ⟨.root, hnodup⟩
  have hsite : a.Site none [] [] T :=
    ⟨fun _ hp => (nomatch hp), fun _ hid => (nomatch hid), fun _ hid => (nomatch hid)⟩
  obtain ⟨R, s', a', hrun, hlowers, hreplaced⟩ := lower_lowers hheld hunder hsite stem log
  obtain ⟨more, hmore, hfilter⟩ := hlowers.misplacements_eq
  rw [List.map_nil, Tree.placesAll, Tree.placesAll, List.append_nil] at hfilter
  exact ⟨R, s'.log, a', more, hrun, hreplaced.holds, hreplaced.nodup, hmore, hfilter⟩

/-- An assignment of a break, neither of which is in anything. -/
def strayTree : Tree :=
  .node ⟨1⟩ (.expr (.assignment "a")) (.point 0) false
    [.node ⟨0⟩ (.expr .breakExit) (.point 4) false []]

def strayArena : Arena where
  nodes := #[
    { form := .expr .breakExit, span := .point 4, parent := some ⟨1⟩ },
    { form := .expr (.assignment "a"), span := .point 0, children := [⟨0⟩] }]

theorem holds_strayTree : strayArena.Holds none strayTree := by
  refine .node (by decide) rfl fun child hchild => ?_
  rw [List.mem_singleton.mp hchild]
  exact .node (by decide) rfl fun _ h => (nomatch h)

theorem lower_misplacements_eq_strayTree :
    (strayArena.Holds none strayTree ∧ strayTree.ids.Nodup) ∧
      ∃ R log' a' more, lower "_" strayTree.id .empty strayArena = .ok ((R.id, log'), a') ∧
        a'.Holds none R ∧ R.ids.Nodup ∧ log'.toList = Log.empty.toList ++ more ∧
          more.filter (·.problem.isMisplacement) = (R.places []).filterMap Tree.misplacement? :=
  ⟨⟨holds_strayTree, by decide⟩,
    lower_misplacements_eq holds_strayTree (by decide) "_" .empty⟩

example : (strayTree.places []).filterMap Tree.misplacement? =
    [⟨.assignmentOutsideBlock, ⟨1⟩, .point 0⟩, ⟨.breakOutsideRepeat, ⟨0⟩, .point 4⟩] := by decide

end MessageLang
