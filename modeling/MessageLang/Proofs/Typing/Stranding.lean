import MessageLang.Proofs.Typing.Unknowns

namespace MessageLang

/-- The code that was reported as unreachable after a log had an earlier size. -/
def Log.unreachableSince (log : Log) (base : Nat) : List Report :=
  (log.since base).filter (·.problem == .unreachableCode)

variable {a : Arena} {R : Tree} {r r' : Report}

theorem Unreached.problem_eq (h : Unreached a R r) : r.problem = .unreachableCode := by
  obtain ⟨_, _, _, -, -, rfl⟩ := h
  rfl

/-- There is one such report at most of an item. -/
theorem Unreached.eq_of_node (h : Unreached a R r) (h' : Unreached a R r') (hnode : r.node = r'.node) :
    r = r' := by
  obtain ⟨_, _, C, -, -, rfl⟩ := h
  obtain ⟨_, _, C', -, -, rfl⟩ := h'
  rw [show C.id = C'.id from hnode]

theorem Unreached.debt_root (h : Unreached a R r) (hR : a.Ready R) : debt a R r R = 1 := by
  refine debt_of_mem (.inr h) ?_
  obtain ⟨path, B, C, hB, hC, rfl⟩ := h
  rw [origin_of_strands hR hB hC]
  exact hB.ids_subset B.id_mem_ids

/-- Of unreachable code, what is not the item after the first return of a block is not owed. -/
theorem debt_of_not_unreached {T : Tree} (hr : r.problem = .unreachableCode)
    (h : ¬ Unreached a R r) : debt a R r T = 0 := by
  refine debt_of_not_owed ?_
  rintro (⟨_, _, _, -, -, -, rfl⟩ | h')
  · cases hr
  · exact h h'

/-- If unreachable code is to be reported, finding the types of a tree reports it once for each block
with an item after a return, at the item right after the first return, and nowhere else. -/
theorem Arena.Ready.check_reports_unreachable (hR : a.Ready R) {options : TypingOptions}
    (hoptions : options.reportsUnreachable = true) (log : Log) :
    ∃ typed log', check a options R.id log = .ok (typed, log') ∧
      ((log'.unreachableSince log.size).map Report.node).Nodup ∧
        ∀ r, r ∈ log'.unreachableSince log.size ↔ Unreached a R r := by
  obtain ⟨result, p, hcheck, hfinished⟩ := hR.check_ends options log
  obtain ⟨more, hmore⟩ := hfinished.log_eq
  have hsince : p.log.since log.size = more := by
    rw [Log.since, hmore, Log.size_eq_length, List.drop_left]
  have hcount : ∀ r, r.problem = .unreachableCode → more.count r = debt a R r R := by
    intro r hr
    have hcount := hR.count_check_of_isOwed (by rw [hr]; exact hoptions) hcheck
    rwa [hmore, List.count_append, Nat.add_left_cancel_iff] at hcount
  have hmem : ∀ r, r ∈ p.log.unreachableSince log.size ↔ Unreached a R r := by
    intro r
    rw [Log.unreachableSince, hsince, List.mem_filter, beq_iff_eq]
    constructor
    · rintro ⟨hr, hproblem⟩
      by_contra hnot
      rw [← List.count_pos_iff, hcount r hproblem, debt_of_not_unreached hproblem hnot] at hr
      exact Nat.lt_irrefl 0 hr
    · intro hr
      refine ⟨List.count_pos_iff.mp ?_, hr.problem_eq⟩
      rw [hcount r hr.problem_eq, hr.debt_root hR]
      exact Nat.one_pos
  refine ⟨_, _, hcheck, ?_, hmem⟩
  refine List.Nodup.map_on (fun r hr r' hr' => ?_) (List.nodup_iff_count_le_one.mpr fun r => ?_)
  · exact ((hmem r).mp hr).eq_of_node ((hmem r').mp hr')
  · by_cases hr : r ∈ p.log.unreachableSince log.size
    · have hunreached := (hmem r).mp hr
      rw [Log.unreachableSince, hsince, List.count_filter (by exact beq_iff_eq.mpr hunreached.problem_eq),
        hcount r hunreached.problem_eq, hunreached.debt_root hR]
    · rw [List.count_eq_zero_of_not_mem hr]
      exact Nat.zero_le 1

/-- A local whose value is a handler that returns the local itself and then goes on. The value is
typed twice. -/
def afterReturnTree : Tree :=
  .node ⟨8⟩ (.expr .block) default false
    [.node ⟨7⟩ (.expr .locals) default false
      [.node ⟨6⟩ (.expr (.localDef "x" false)) default false
        [.node ⟨5⟩ (.expr .handler) default false
          [.node ⟨0⟩ (.type .empty) default false [],
            .node ⟨4⟩ (.expr .block) default false
              [.node ⟨2⟩ (.expr .returnExit) default false
                  [.node ⟨1⟩ (.expr (.reference "x")) default false []],
                .node ⟨3⟩ (.expr (.constant .nothing)) default false []]]]]]

def afterReturnArena : Arena where
  nodes := #[
    { form := .type .empty, span := default, parent := some ⟨5⟩ },
    { form := .expr (.reference "x"), span := default, parent := some ⟨2⟩ },
    { form := .expr .returnExit, span := default, children := [⟨1⟩], parent := some ⟨4⟩ },
    { form := .expr (.constant .nothing), span := default, parent := some ⟨4⟩ },
    { form := .expr .block, span := default, children := [⟨2⟩, ⟨3⟩], parent := some ⟨5⟩ },
    { form := .expr .handler, span := default, children := [⟨0⟩, ⟨4⟩], parent := some ⟨6⟩ },
    { form := .expr (.localDef "x" false), span := default, children := [⟨5⟩], parent := some ⟨7⟩ },
    { form := .expr .locals, span := default, children := [⟨6⟩], parent := some ⟨8⟩ },
    { form := .expr .block, span := default, children := [⟨7⟩] }]

theorem holds_afterReturnTree : afterReturnArena.Holds none afterReturnTree := by
  refine .node (by decide) rfl fun child hchild => ?_
  rw [List.mem_singleton.mp hchild]
  refine .node (by decide) rfl fun child hchild => ?_
  rw [List.mem_singleton.mp hchild]
  refine .node (by decide) rfl fun child hchild => ?_
  rw [List.mem_singleton.mp hchild]
  refine .node (by decide) rfl fun child hchild => ?_
  rcases List.mem_pair.mp hchild with rfl | rfl
  · exact .node (by decide) rfl fun _ h => (nomatch h)
  refine .node (by decide) rfl fun child hchild => ?_
  rcases List.mem_pair.mp hchild with rfl | rfl
  · refine .node (by decide) rfl fun child hchild => ?_
    rw [List.mem_singleton.mp hchild]
    exact .node (by decide) rfl fun _ h => (nomatch h)
  · exact .node (by decide) rfl fun _ h => (nomatch h)

theorem ready_afterReturnTree : afterReturnArena.Ready afterReturnTree where
  held := ⟨none, holds_afterReturnTree⟩
  nodup := by decide
  laidOut := by decide
  core := by decide
  locals_in_blocks := by decide

/-- Of what comes after the return there is one report, though the value is typed twice. -/
example : (match check afterReturnArena {} afterReturnTree.id .empty with
    | .ok (_, log) => (log.unreachableSince 0).map Report.node
    | .error _ => []) = [⟨3⟩] := by decide +kernel

theorem check_reports_unreachable_afterReturnTree : afterReturnArena.Ready afterReturnTree ∧
    ({} : TypingOptions).reportsUnreachable = true ∧
    ∃ typed log', check afterReturnArena {} afterReturnTree.id .empty = .ok (typed, log') ∧
      ((log'.unreachableSince Log.empty.size).map Report.node).Nodup ∧
        ∀ r, r ∈ log'.unreachableSince Log.empty.size ↔
          Unreached afterReturnArena afterReturnTree r :=
  ⟨ready_afterReturnTree, rfl, ready_afterReturnTree.check_reports_unreachable rfl .empty⟩

end MessageLang
