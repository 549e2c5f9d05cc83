import MessageLang.Proofs.Typing.Counting
import MessageLang.Proofs.Typing.Guarded
import MessageLang.Proofs.Typing.Whole

namespace MessageLang

open MessageLang.Tree (Direct)

def Problem.isUnresolvedName : Problem → Bool
  | .unresolvedName _ => true
  | _ => false

/-- The names that were reported as unresolved after a log had an earlier size. -/
def Log.unresolvedSince (log : Log) (base : Nat) : List Report :=
  (log.since base).filter (·.problem.isUnresolvedName)

namespace Typing

open Pass

variable {a : Arena} {options : TypingOptions} {R N : Tree} {base steps : Nat} {p : Pass}
  {path : List Tree} {entered : List NodeId} {r : Report}

/-- Typing a node without coming upon it again reports what is owed in it. -/
theorem computeApart_raises (hR : a.Ready R) (hr : r.problem.isOwed options)
    (hnodup : entered.Nodup) (hentered : entered ⊆ R.ids)
    (hsteps : R.ids.length ≤ entered.length + steps) (hp : p.Rooted)
    (hstands : p.Stands a R base path) (hN : R.Within path N) (hdirect : Direct path N)
    (hfresh : ∀ x ∈ entered, ¬ p.Touches path [N] x) :
    After (computeApart a options steps entered N.id) p fun _ p' =>
      p.Raises a R r path (debt a R r N) p' := by
  let post (path : List Tree) (N : Tree) (p : Pass) (_ : TypeId) (p' : Pass) : Prop :=
    p.Rooted → p.Raises a R r path (debt a R r N) p'
  suffices hpost : After (computeApart a options steps entered N.id) p (post path N p) from
    hpost.mono fun _ _ h => h hp
  refine computeApart_after hR (fun henter hparts hform type p' hrun hp => ?_) (fun h hp => ?_)
    hnodup hentered hsteps hstands hN hdirect hfresh
  · have hcount : Counts a R r _ := fun path C hC q hq => (hparts path C q hC).mono fun _ _ h => h hq
    exact ofForm_raises henter hcount hr hp hform type p' hrun
  · obtain ⟨hrooted, hscope, htally⟩ := h hp
    exact ⟨⟨hrooted.lt, hrooted.names⟩, hscope, htally⟩

end Typing

open Pass Typing

variable {a : Arena} {R X : Tree} {path : List Tree} {r r' : Report} {name : String}

theorem Pass.started_rooted (options : TypingOptions) (log : Log) (print : TypeId) (t : TypeTable) :
    (started options log print t).Rooted where
  lt := Nat.one_pos
  names := by rw [frame_started_root]; rfl

/-- Finding the types of a tree adds a report of all that is owed in it. -/
theorem Arena.Ready.count_check_of_isOwed (hR : a.Ready R) {options : TypingOptions}
    (hr : r.problem.isOwed options) {log log' : Log} {typed : TypedTree}
    (hcheck : check a options R.id log = .ok (typed, log')) :
    log'.toList.count r = log.toList.count r + debt a R r R := by
  obtain ⟨print, t, type, p, hsound, hrun, rfl⟩ := hR.exists_computeApart_eq_ok hcheck
  have hraises := computeApart_raises hR hr List.nodup_nil (List.nil_subset _) (Nat.le_add_left _ _)
    (started_rooted options log print t) (started_stands a R hsound) .root hR.direct_root
    (fun _ h => nomatch h) _ _ hrun
  have htally := hraises.tally_eq
  rwa [tally_nil, tally_nil] at htally

/-- Finding the types of a tree adds a report for each unresolved name. -/
theorem Arena.Ready.count_check (hR : a.Ready R) (hr : r.problem = .unresolvedName name)
    {options : TypingOptions} {log log' : Log} {typed : TypedTree}
    (hcheck : check a options R.id log = .ok (typed, log')) :
    log'.toList.count r = log.toList.count r + share a R r R := by
  rw [← debt_eq_share hr]
  exact hR.count_check_of_isOwed (by rw [hr]; rfl) hcheck

/-- There is one report at most of what is unresolved at a node. -/
theorem Unresolved.eq_of_node (h : Unresolved a R r) (h' : Unresolved a R r') (hnodup : R.ids.Nodup)
    (hnode : r.node = r'.node) : r = r' := by
  obtain ⟨path, X, name, hX, hused, -, rfl⟩ := h
  obtain ⟨path', X', name', hX', hused', -, rfl⟩ := h'
  obtain ⟨rfl, rfl⟩ := hX.unique hX' hnodup hnode
  cases hused.symm.trans hused'
  rfl

theorem Unresolved.share_root (h : Unresolved a R r) : share a R r R = 1 := by
  refine share_of_mem h ?_
  obtain ⟨path, X, name, hX, -, -, rfl⟩ := h
  exact hX.ids_subset X.id_mem_ids

/-- Finding the types of a tree reports the names that mean nothing where they stand, each once: the
ones that are neither the built-in function nor those of a local, wherever in a block around, nor of
a field in the input of a handler around. -/
theorem Arena.Ready.check_reports_unresolved (hR : a.Ready R) (options : TypingOptions) (log : Log) :
    ∃ typed log', check a options R.id log = .ok (typed, log') ∧
      ((log'.unresolvedSince log.size).map Report.node).Nodup ∧
        ∀ r, r ∈ log'.unresolvedSince log.size ↔ Unresolved a R r := by
  obtain ⟨result, p, hcheck, hfinished⟩ := hR.check_ends options log
  obtain ⟨more, hmore⟩ := hfinished.log_eq
  have hsince : p.log.since log.size = more := by
    rw [Log.since, hmore, Log.size_eq_length, List.drop_left]
  have hcount : ∀ r name, r.problem = .unresolvedName name → more.count r = share a R r R := by
    intro r name hr
    have hcount := hR.count_check hr hcheck
    rwa [hmore, List.count_append, Nat.add_left_cancel_iff] at hcount
  have hmem : ∀ r, r ∈ p.log.unresolvedSince log.size ↔ Unresolved a R r := by
    intro r
    rw [Log.unresolvedSince, hsince, List.mem_filter]
    constructor
    · rintro ⟨hr, hproblem⟩
      obtain ⟨name, hname⟩ : ∃ name, r.problem = .unresolvedName name := by
        cases hcase : r.problem with
        | unresolvedName name => exact ⟨name, rfl⟩
        | _ => rw [hcase] at hproblem; cases hproblem
      by_contra hnot
      rw [← List.count_pos_iff, hcount r name hname, share_of_not_unresolved hnot] at hr
      exact Nat.lt_irrefl 0 hr
    · intro hr
      have hroot := hr.share_root
      obtain ⟨path, X, name, hX, -, -, rfl⟩ := hr
      refine ⟨List.count_pos_iff.mp ?_, rfl⟩
      rw [hcount _ name rfl, hroot]
      exact Nat.one_pos
  refine ⟨_, _, hcheck, ?_, hmem⟩
  refine List.Nodup.map_on (fun r hr r' hr' => ?_) (List.nodup_iff_count_le_one.mpr fun r => ?_)
  · exact ((hmem r).mp hr).eq_of_node ((hmem r').mp hr') hR.nodup
  · by_cases hr : r ∈ p.log.unresolvedSince log.size
    · have hunresolved := (hmem r).mp hr
      have hroot := hunresolved.share_root
      obtain ⟨path, X, name, hX, -, -, rfl⟩ := hunresolved
      rw [Log.unresolvedSince, hsince, List.count_filter rfl, hcount _ name rfl, hroot]
    · rw [List.count_eq_zero_of_not_mem hr]
      exact Nat.zero_le 1

/-- A local whose value is an array of the local itself and of something unknown. The value is typed
twice. -/
def ghostTree : Tree :=
  .node ⟨5⟩ (.expr .block) default false
    [.node ⟨4⟩ (.expr .locals) default false
      [.node ⟨3⟩ (.expr (.localDef "x" false)) default false
        [.node ⟨2⟩ (.expr .array) default false
          [.node ⟨0⟩ (.expr (.reference "x")) default false [],
            .node ⟨1⟩ (.expr (.reference "y")) default false []]]]]

def ghostArena : Arena where
  nodes := #[
    { form := .expr (.reference "x"), span := default, parent := some ⟨2⟩ },
    { form := .expr (.reference "y"), span := default, parent := some ⟨2⟩ },
    { form := .expr .array, span := default, children := [⟨0⟩, ⟨1⟩], parent := some ⟨3⟩ },
    { form := .expr (.localDef "x" false), span := default, children := [⟨2⟩], parent := some ⟨4⟩ },
    { form := .expr .locals, span := default, children := [⟨3⟩], parent := some ⟨5⟩ },
    { form := .expr .block, span := default, children := [⟨4⟩] }]

theorem holds_ghostTree : ghostArena.Holds none ghostTree := by
  refine .node (by decide) rfl fun child hchild => ?_
  rw [List.mem_singleton.mp hchild]
  refine .node (by decide) rfl fun child hchild => ?_
  rw [List.mem_singleton.mp hchild]
  refine .node (by decide) rfl fun child hchild => ?_
  rw [List.mem_singleton.mp hchild]
  refine .node (by decide) rfl fun child hchild => ?_
  rcases List.mem_pair.mp hchild with rfl | rfl <;>
    exact .node (by decide) rfl fun _ h => (nomatch h)

theorem ready_ghostTree : ghostArena.Ready ghostTree where
  held := ⟨none, holds_ghostTree⟩
  nodup := by decide
  laidOut := by decide
  core := by decide
  locals_in_blocks := by decide

/-- Of the name in the recursive local there is one report, though the value is typed twice. -/
example : (match check ghostArena {} ghostTree.id .empty with
    | .ok (_, log) => (log.unresolvedSince 0).map Report.node
    | .error _ => []) = [⟨1⟩] := by decide +kernel

theorem check_reports_unresolved_ghostTree : ghostArena.Ready ghostTree ∧
    ∃ typed log', check ghostArena {} ghostTree.id .empty = .ok (typed, log') ∧
      ((log'.unresolvedSince Log.empty.size).map Report.node).Nodup ∧
        ∀ r, r ∈ log'.unresolvedSince Log.empty.size ↔ Unresolved ghostArena ghostTree r :=
  ⟨ready_ghostTree, ready_ghostTree.check_reports_unresolved {} .empty⟩

end MessageLang
