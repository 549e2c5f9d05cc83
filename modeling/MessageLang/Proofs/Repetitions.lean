import MessageLang.Proofs.Compiling
import MessageLang.Proofs.Core.Misplaced
import MessageLang.Proofs.Typing.Accounting
import MessageLang.Proofs.Typing.Unknowns

namespace MessageLang

open Meter

open MessageLang.Tree (Direct)

namespace Typing

open Pass

variable {a : Arena} {options : TypingOptions} {R N : Tree} {base steps : Nat} {p : Pass}
  {path : List Tree} {entered : List NodeId} {compute : NodeId → Typing TypeId} {t : Topic} {x : NodeId}

/-- A return has no value. -/
theorem returnExit_never (h : p.Entering a R base path N entered compute)
    (hform : N.form = .expr .returnExit) :
    After (ofForm a options compute N.id .returnExit) p fun type p' =>
      p'.table.isNever type = true := by
  have hnever : After (ofForm a options compute N.id .returnExit) p fun type _ => type = .never := by
    rw [ofForm, returnExit, after_bind_iff]
    intro value q _
    rw [after_bind_iff, after_modify_iff, after_pure_iff]
  refine ((ofForm_ends h hform).and_after hnever).after.mono ?_
  rintro _ p' ⟨hfinds, rfl⟩
  have hget := hfinds.stands.sound.space.builtins.get_never
  change ((p'.space.table.get .never).shape == Shape.never) = true
  rw [hget]
  rfl

/-- Typing a node without coming upon it again reports no more on a topic than the node accounts
for. -/
theorem computeApart_grows (hR : a.Ready R) (hx : R.Origin t x)
    (ht : t.NoConflict) (hnodup : entered.Nodup)
    (hentered : entered ⊆ R.ids) (hsteps : R.ids.length ≤ entered.length + steps)
    (hstands : p.Stands a R base path) (hN : R.Within path N) (hdirect : Direct path N)
    (hfresh : ∀ x ∈ entered, ¬ p.Touches path [N] x) :
    After (computeApart a options steps entered N.id) p fun _ p' =>
      (meter t x path).Grows p (t.weight x N) p' := by
  -- that returns have no value is what handlers have to know of their bodies
  let post (path : List Tree) (N : Tree) (p : Pass) (type : TypeId) (p' : Pass) : Prop :=
    (meter t x path).Grows p (t.weight x N) p' ∧
      (N.form = .expr .returnExit → p'.table.isNever type = true)
  suffices hpost : After (computeApart a options steps entered N.id) p (post path N p) from
    hpost.mono fun _ _ h => h.1
  refine computeApart_after hR (fun henter hparts hform => ?_)
    (fun h => ⟨⟨h.1.keeps, h.1.amount_le⟩, h.2⟩) hnodup hentered hsteps hstands hN hdirect hfresh
  intro type p' hrun
  refine ⟨ofForm_grows henter ?_ hx ht ?_ hform type p' hrun, fun hreturn => ?_⟩
  · exact fun path C hC q => (hparts path C q hC).mono fun _ _ h => h.1
  · exact fun path C q hC hreturn => (hparts path C q hC).mono fun _ _ h => h.2 hreturn
  · cases hform.symm.trans hreturn
    exact returnExit_never henter hreturn type p' hrun

end Typing

open Pass Typing

variable {a : Arena} {R T : Tree} {t : Topic}

/-- Finding the types of a tree reports on a topic once at most. -/
theorem Arena.Ready.heard_check_le (hR : a.Ready R) (hplaced : R.AssignmentsInBlocks)
    (ht : t.NoConflict) {options : TypingOptions} {log log' : Log}
    {typed : TypedTree} (hcheck : check a options R.id log = .ok (typed, log')) :
    log'.heard t ≤ log.heard t + 1 := by
  obtain ⟨x, hx⟩ := Tree.exists_origin hR.toLowered hplaced t
  obtain ⟨print, table, type, p, hsound, hrun, rfl⟩ := hR.exists_computeApart_eq_ok hcheck
  have hgrows := computeApart_grows hR hx ht List.nodup_nil (List.nil_subset _) (Nat.le_add_left _ _)
    (started_stands a R hsound) .root hR.direct_root (fun _ h => nomatch h) _ _ hrun
  have hamount : p.log.heard t + t.pool p.escapes + p.ahead [] x ≤
      log.heard t + 0 + (started options log print table).ahead [] x + t.weight x R := hgrows.amount_le
  rw [ahead_of_not_touches not_touches_nil, ahead_of_not_touches not_touches_nil] at hamount
  have hweight : t.weight x R ≤ 1 :=
    le_trans (Topic.weight_le_count hx .root) (List.nodup_iff_count_le_one.mp hR.nodup x)
  omega

theorem Problem.eq_wildcardConflict_of_kind {problem : Problem}
    (h : problem.kind = (wildcardConflict "" "").kind) :
    ∃ name bound, problem = .wildcardConflict name bound := by
  cases problem with
  | wildcardConflict name bound => exact ⟨name, bound, rfl⟩
  | _ => cases h

namespace Tree

variable {path : List Tree} {N : Tree}

/-- What is reached in a tree is a place in it, below the forms of what it is reached through. -/
theorem Within.mem_places (h : R.Within path N) : (path.map form, N) ∈ R.places [] := by
  induction h with
  | root =>
    rw [places_eq]
    exact List.mem_cons_self
  | child _ mem ih => exact mem_places_of_mem_children ih (mem_children_of_mem_expressions mem)

/-- Where nothing is reported of the places in a tree, assignments are items of blocks. -/
theorem InCore.assignmentsInBlocks (hcore : R.InCore)
    (hnone : (R.places []).filterMap misplacement? = []) : R.AssignmentsInBlocks := by
  intro path N name hN hform
  have hplace : N.form.misplacement? (path.map form) = none := by
    have hreport := List.filterMap_eq_nil_iff.mp hnone _ hN.mem_places
    exact Option.map_eq_none_iff.mp hreport
  have hblock : NodeForm.InBlock (path.map form) := by
    by_contra hnot
    rw [hform, NodeForm.misplacement?, if_neg hnot] at hplace
    cases hplace
  cases hN with
  | root => cases hblock
  | @child path B _ above mem =>
    obtain ⟨sort, hsort, -⟩ := hcore path B above
    refine ⟨B, path, rfl, ?_⟩
    rw [NodeForm.InBlock, List.map_cons, hsort] at hblock
    rw [hsort, Option.some.inj hblock]

end Tree

namespace Program

/-- Lowering finds nothing where it may not stand. -/
def Legal (options : ProgramOptions) (a : Arena) (root : NodeId) : Prop :=
  ∀ root' log a', lower options.stem root .empty a = .ok ((root', log), a') → log.toList = []

variable {options : ProgramOptions}

theorem Legal.localsPlaced {root : NodeId} (h : Legal options a root) :
    LocalsPlaced options a root := by
  intro root' log a' hlower r hr
  rw [h root' log a' hlower] at hr
  cases hr

/-- In what a legal program is lowered to, assignments are items of blocks. -/
theorem Legal.assignmentsInBlocks (h : Legal options a T.id) (hT : a.Source T) {log : Log} {a' : Arena}
    (hlower : lower options.stem T.id .empty a = .ok ((R.id, log), a')) (hheld : a'.Holds none R)
    (hcore : R.InCore) : R.AssignmentsInBlocks := by
  have hunder : a.Under none [] T := ⟨.root, hT.nodup⟩
  have hsite : a.Site none [] [] T :=
    ⟨fun _ hp => (nomatch hp), fun _ hid => (nomatch hid), fun _ hid => (nomatch hid)⟩
  obtain ⟨R', s', a'', hrun, hlowers, hreplaced⟩ :=
    lower_lowers hT.held hunder hsite options.stem .empty
  obtain ⟨more, hmore, hfilter⟩ := hlowers.misplacements_eq
  obtain ⟨hroot, rfl⟩ := Prod.mk.inj (Except.ok.inj (hrun.symm.trans hlower))
  obtain ⟨hid, rfl⟩ := Prod.mk.inj hroot
  cases hreplaced.holds.eq_of_id_eq hheld hid
  refine hcore.assignmentsInBlocks ?_
  rw [h _ _ _ hlower] at hmore
  obtain ⟨-, rfl⟩ := List.append_eq_nil_iff.mp hmore.symm
  rw [List.map_nil, Tree.placesAll, Tree.placesAll, List.append_nil] at hfilter
  exact hfilter.symm

/-- Of a program without misplaced parts no fault is reported twice: at one node there are no two
reports of the same kind of problem. Only of the conflicts of wildcards there may be more. -/
theorem reports_once (hT : a.Source T) (hlegal : Legal options a T.id) :
    ∃ prog, compile options a T.id = .ok prog ∧ prog.log.toList.Pairwise fun r r' =>
      r.node = r'.node → r.problem.kind = r'.problem.kind →
        ∃ name bound, r.problem = .wildcardConflict name bound := by
  obtain ⟨prog, R, -, -, hcompile, hshows, -, -, -⟩ := compile_ends hT hlegal.localsPlaced
  refine ⟨prog, hcompile, List.pairwise_iff_forall_sublist.mpr fun {r r'} hsub hnode hkind => ?_⟩
  obtain ⟨log, hlower, hcheck⟩ := compile_eq_ok hcompile
  have hempty := hlegal _ _ _ hlower
  rw [← hshows.root_eq] at hlower hcheck
  have hplaced := hlegal.assignmentsInBlocks hT hlower hshows.held hshows.ready.core
  by_contra hnot
  have hle := hshows.ready.heard_check_le hplaced (t := r.topic)
    (fun hconflict => hnot (Problem.eq_wildcardConflict_of_kind hconflict)) hcheck
  have htwice : [r, r'].countP (fun s => s.topic = r.topic) = 2 := by
    simp [Report.topic, hnode, hkind]
  have hmore := hsub.countP_le (p := fun s => decide (s.topic = r.topic))
  rw [Log.heard, Log.heard, hempty] at hle
  have hnone : ([] : List Report).countP (fun s => s.topic = r.topic) = 0 := rfl
  omega

end Program

theorem source_ghostTree : ghostArena.Source ghostTree :=
  ⟨holds_ghostTree, by decide, by decide, by decide⟩

theorem Program.legal_ghostTree : Legal {} ghostArena ghostTree.id := by
  have hlower : lower "_" ghostTree.id .empty ghostArena = .ok ((ghostTree.id, .empty), ghostArena) := rfl
  intro root' log a' hother
  cases hlower.symm.trans hother
  rfl

/-- Of the local that is typed twice and of the name in its value there is one report each. -/
theorem Program.reports_once_ghostTree :
    (ghostArena.Source ghostTree ∧ Legal {} ghostArena ghostTree.id) ∧
      ∃ prog, compile {} ghostArena ghostTree.id = .ok prog ∧
        prog.log.toList.map (·.problem) = [.recursiveDefinition "x", .unresolvedName "y"] ∧
          prog.log.toList.Pairwise fun r r' => r.node = r'.node → r.problem.kind = r'.problem.kind →
            ∃ name bound, r.problem = .wildcardConflict name bound := by
  obtain ⟨prog, hcompile, honce⟩ := reports_once source_ghostTree legal_ghostTree
  refine ⟨⟨source_ghostTree, legal_ghostTree⟩, prog, hcompile, ?_, honce⟩
  have hlog : (match compile {} ghostArena ghostTree.id with
      | .ok prog => prog.log.toList.map (·.problem)
      | .error _ => []) = [.recursiveDefinition "x", .unresolvedName "y"] := by decide +kernel
  rw [hcompile] at hlog
  exact hlog

end MessageLang
