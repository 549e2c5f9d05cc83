import MessageLang.Proofs.Compiling
import MessageLang.Proofs.Core.Reported
import MessageLang.Proofs.Tree.Forest
import MessageLang.Proofs.Typing.Locating

namespace MessageLang

section

variable {a : Arena} {parent : Option NodeId} {T X : Tree} {n c : NodeId}

/-- What is below a node of a tree is in the tree. -/
theorem Arena.Holds.mem_ids_of_mem_children (h : a.Holds parent T) (hn : n ∈ T.ids)
    (hc : c ∈ a.children n) : c ∈ T.ids := by
  induction h with
  | @node _ id _ _ _ children _ eq _ ih =>
    rw [Tree.ids_eq, List.mem_cons, List.mem_flatMap] at hn ⊢
    rcases hn with rfl | ⟨child, hchild, hn⟩
    · rw [Arena.children, eq] at hc
      obtain ⟨child, hchild, rfl⟩ := List.mem_map.mp hc
      exact .inr ⟨child, hchild, child.id_mem_ids⟩
    · exact .inr ⟨child, hchild, ih child hchild hn⟩

theorem Arena.Holds.closedDown (h : a.Holds parent T) : a.ClosedDown (· ∈ T.ids) where
  expression _ hn _ hc := h.mem_ids_of_mem_children hn (List.mem_of_mem_filter hc)
  type _ hn _ hc := h.mem_ids_of_mem_children hn (List.mem_of_mem_filter hc)

/-- A node of a tree is in the arena as it is in the tree. -/
theorem Arena.Holds.of_mem_nodes (h : a.Holds parent T) (hX : X ∈ T.nodes) :
    X.id ∈ T.ids ∧ ∃ above, a.Holds above X := by
  induction h with
  | @node parent id form span grouped children lt eq held ih =>
    rcases List.mem_cons.mp hX with rfl | hX
    · exact ⟨Tree.id_mem_ids _, parent, .node lt eq held⟩
    · obtain ⟨child, hchild, hX⟩ := Tree.mem_nodesAll_iff.mp hX
      obtain ⟨hmem, habove⟩ := ih child hchild hX
      exact ⟨Tree.ids_subset_of_mem_children hchild hmem, habove⟩

end

namespace Program

variable {options : ProgramOptions} {a : Arena} {root : NodeId} {prog : Program}

/-- Compiling leaves a tree, and reports of legality at nodes of it before those of typing. -/
theorem exists_reports (ha : a.Forest) (hroot : root.index < a.size)
    (hcompile : compile options a root = .ok prog) :
    ∃ (R : Tree) (parent : Option NodeId) (placed typed : List Report), R.id = prog.root ∧
      prog.arena.Holds parent R ∧ R.ids.Nodup ∧ prog.log.toList = placed ++ typed ∧
        (∀ r ∈ placed, r.Placed [R]) ∧ ∀ r ∈ typed, r.Located prog.arena (· ∈ R.ids) := by
  obtain ⟨T, path, before, after, rfl, hheld, hunder, hsite⟩ := ha.exists_place hroot
  obtain ⟨R, s', a', hrun, hlowers, hreplaced⟩ :=
    lower_lowers hheld hunder hsite options.stem .empty
  obtain ⟨log, hlower, hcheck⟩ := compile_eq_ok hcompile
  obtain ⟨arena, root', typedTree, log'⟩ := prog
  cases hrun.symm.trans hlower
  obtain ⟨placed, hplaced, hall⟩ := hlowers.exists_reports
  obtain ⟨typed, htyped, hlocated⟩ :=
    check_locates hreplaced.holds.closedDown R.id_mem_ids hcheck
  refine ⟨R, _, placed, typed, rfl, hreplaced.holds, hreplaced.nodup, ?_, hall, hlocated⟩
  rw [htyped, hplaced]
  rfl

/-- Whatever is reported of a program is reported at a node of the tree that compiling leaves, with
the span that the node has there. -/
theorem mem_ids_of_mem_log (ha : a.Forest) (hroot : root.index < a.size)
    (hcompile : compile options a root = .ok prog) :
    ∃ (R : Tree) (parent : Option NodeId), R.id = prog.root ∧ prog.arena.Holds parent R ∧
      R.ids.Nodup ∧ ∀ r ∈ prog.log.toList, r.node ∈ R.ids ∧ r.span = prog.arena.span r.node := by
  obtain ⟨R, parent, placed, typed, hid, hheld, hnodup, hlog, hplaced, htyped⟩ :=
    exists_reports ha hroot hcompile
  refine ⟨R, parent, hid, hheld, hnodup, fun r hr => ?_⟩
  rw [hlog] at hr
  rcases List.mem_append.mp hr with hr | hr
  · obtain ⟨X, hX, hnode, hspan⟩ := (hplaced r hr).node
    have hX : X ∈ R.nodes := by simpa [Tree.nodesAll] using hX
    obtain ⟨hmem, above, hheldX⟩ := hheld.of_mem_nodes hX
    exact ⟨hnode ▸ hmem, hspan.symm.trans (hheldX.span_eq.symm.trans (congrArg _ hnode))⟩
  · exact ⟨(htyped r hr).node, (htyped r hr).span_eq⟩

/-- Problems of legality that lowering finds are reported before all that typing finds. So none is
reported after a problem of types, but for a name given twice in a compound type, which is found while
that type is read. -/
theorem legality_before_types (ha : a.Forest) (hroot : root.index < a.size)
    (hcompile : compile options a root = .ok prog) :
    (∃ placed typed : List Report, prog.log.toList = placed ++ typed ∧
      (∀ r ∈ placed, r.problem.phase = .legality) ∧
      ∀ r ∈ typed, r.problem.phase = .type ∨ ∃ name label, r.problem = .duplicateField name ∧
        prog.arena.type? r.node = some (.typedField label)) ∧
    prog.log.toList.Pairwise fun r r' =>
      r.problem.phase = .type → r'.problem.phase = .legality →
        ∃ name label, r'.problem = .duplicateField name ∧
          prog.arena.type? r'.node = some (.typedField label) := by
  obtain ⟨R, parent, placed, typed, -, -, -, hlog, hplaced, htyped⟩ :=
    exists_reports ha hroot hcompile
  refine ⟨⟨placed, typed, hlog, fun r hr => (hplaced r hr).phase, fun r hr => (htyped r hr).phase⟩, ?_⟩
  have hfirst : ∀ r ∈ placed, r.problem.phase ≠ .type := fun r hr htype => by
    cases htype.symm.trans (hplaced r hr).phase
  have hlater : ∀ r ∈ typed, r.problem.phase = .legality →
      ∃ name label, r.problem = .duplicateField name ∧
        prog.arena.type? r.node = some (.typedField label) := by
    intro r hr hlegality
    refine (htyped r hr).phase.resolve_left fun htype => ?_
    cases htype.symm.trans hlegality
  rw [hlog, List.pairwise_append]
  refine ⟨List.pairwise_of_forall_mem_list fun r hr r' _ htype => absurd htype (hfirst r hr),
    List.pairwise_of_forall_mem_list fun r _ r' hr' _ => hlater r' hr',
    fun r hr r' _ htype => absurd htype (hfirst r hr)⟩

end Program

/-- A handler of a compound type that gives a name twice, the first time with an unknown type. Its
body is a break. -/
def twiceArena : Arena where
  nodes := #[
    { form := .type (.simple "A"), span := .point 1, parent := some ⟨1⟩ },
    { form := .type (.typedField (some "x")), span := .point 1, children := [⟨0⟩],
      parent := some ⟨4⟩ },
    { form := .type (.simple "Number"), span := .point 2, parent := some ⟨3⟩ },
    { form := .type (.typedField (some "x")), span := .point 2, children := [⟨2⟩],
      parent := some ⟨4⟩ },
    { form := .type .compound, span := .point 1, children := [⟨1⟩, ⟨3⟩], parent := some ⟨6⟩ },
    { form := .expr .breakExit, span := .point 3, parent := some ⟨6⟩ },
    { form := .expr .handler, span := .point 0, children := [⟨4⟩, ⟨5⟩] }]

theorem forest_twiceArena : twiceArena.Forest :=
  Arena.forest_of_children_first (by decide) (by decide) (by decide)

/-- The name is found to be given twice after the type is found to be unknown. -/
theorem Program.compile_twiceArena : ∃ prog, compile {} twiceArena ⟨6⟩ = .ok prog ∧
    prog.log.toList = [⟨.breakOutsideRepeat, ⟨5⟩, .point 3⟩, ⟨.unresolvedType "A", ⟨0⟩, .point 1⟩,
      ⟨.duplicateField "x", ⟨3⟩, .point 2⟩] := by
  have hlog : (match compile {} twiceArena ⟨6⟩ with
      | .ok prog => some prog.log.toList
      | .error _ => none) = some [⟨.breakOutsideRepeat, ⟨5⟩, .point 3⟩,
        ⟨.unresolvedType "A", ⟨0⟩, .point 1⟩, ⟨.duplicateField "x", ⟨3⟩, .point 2⟩] := by
    decide +kernel
  split at hlog
  · next prog hcompile => exact ⟨prog, hcompile, Option.some.inj hlog⟩
  · cases hlog

theorem Program.mem_ids_of_mem_log_twiceArena : twiceArena.Forest ∧
    ∃ prog R parent, compile {} twiceArena ⟨6⟩ = .ok prog ∧ prog.log.size = 3 ∧ R.id = prog.root ∧
      prog.arena.Holds parent R ∧
        ∀ r ∈ prog.log.toList, r.node ∈ R.ids ∧ r.span = prog.arena.span r.node := by
  obtain ⟨prog, hcompile, hlog⟩ := compile_twiceArena
  obtain ⟨R, parent, hid, hheld, -, hreports⟩ :=
    mem_ids_of_mem_log forest_twiceArena (by decide) hcompile
  exact ⟨forest_twiceArena, prog, R, parent, hcompile, by rw [Log.size_eq_length, hlog]; rfl, hid,
    hheld, hreports⟩

theorem Program.legality_before_types_twiceArena : twiceArena.Forest ∧
    ∃ prog, compile {} twiceArena ⟨6⟩ = .ok prog ∧
      prog.log.toList.map (·.problem.phase) = [.legality, .type, .legality] ∧
      ∃ placed typed : List Report, prog.log.toList = placed ++ typed ∧
        (∀ r ∈ placed, r.problem.phase = .legality) ∧
        ∀ r ∈ typed, r.problem.phase = .type ∨ ∃ name label, r.problem = .duplicateField name ∧
          prog.arena.type? r.node = some (.typedField label) := by
  obtain ⟨prog, hcompile, hlog⟩ := compile_twiceArena
  obtain ⟨hsplit, -⟩ := legality_before_types forest_twiceArena (by decide) hcompile
  exact ⟨forest_twiceArena, prog, hcompile, by rw [hlog]; rfl, hsplit⟩

end MessageLang
