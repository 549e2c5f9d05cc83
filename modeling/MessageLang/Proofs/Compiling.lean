import MessageLang.Program
import MessageLang.Proofs.Core.Legality
import MessageLang.Proofs.Typing.Recursion
import MessageLang.Proofs.Typing.Supplying

namespace MessageLang

open MessageLang.Tree (Binds DependsOn)

/-- A program as it is written: a tree in an arena of its own, laid out as its forms ask for. -/
structure Arena.Source (a : Arena) (T : Tree) : Prop where
  held : a.Holds none T
  nodup : T.ids.Nodup
  laidOut : T.laidOut = true
  expr : T.isExpr = true

/-- Locals each of which needs the next one, and the last of which needs the first. -/
def DependencyCycle (a : Arena) (R : Tree) (xs : List NodeId) : Prop :=
  xs ≠ [] ∧ xs.IsChain (DependsOn a R) ∧ ∀ x ∈ xs.getLast?, ∀ y ∈ xs.head?, DependsOn a R x y

theorem DependencyCycle.exists_dependsOn {a : Arena} {R : Tree} {xs : List NodeId}
    (h : DependencyCycle a R xs) : ∀ x ∈ xs, ∃ y ∈ xs, DependsOn a R x y := by
  obtain ⟨hne, hchain, hlast⟩ := h
  intro x hx
  obtain ⟨before, after, rfl⟩ := List.append_of_mem hx
  cases after with
  | nil =>
    obtain ⟨first, rest, heq⟩ := List.exists_cons_of_ne_nil hne
    refine ⟨first, by simp [heq], hlast x (by simp) first ?_⟩
    rw [heq]
    rfl
  | cons y after =>
    refine ⟨y, by simp, ?_⟩
    rw [List.isChain_append] at hchain
    exact (List.isChain_cons_cons.mp hchain.2.1).1

namespace Program

/-- Of all that may be found to stand where it may not, no local is reported. -/
def LocalsPlaced (options : ProgramOptions) (a : Arena) (root : NodeId) : Prop :=
  ∀ root' log a', lower options.stem root .empty a = .ok ((root', log), a') →
    ∀ r ∈ log.toList, r.problem ≠ .localOutsideBlock

/-- A tree is that of a program that has been compiled. -/
structure Shows (prog : Program) (R : Tree) : Prop where
  root_eq : R.id = prog.root
  held : prog.arena.Holds none R
  ready : prog.arena.Ready R

variable {options : ProgramOptions} {a : Arena} {T : Tree}

/-- Compiling is lowering and then checking what that comes to. -/
theorem compile_eq_ok {root : NodeId} {prog : Program} (h : compile options a root = .ok prog) :
    ∃ log, lower options.stem root .empty a = .ok ((prog.root, log), prog.arena) ∧
      check prog.arena options.typing prog.root log = .ok (prog.typed, prog.log) := by
  rw [compile] at h
  cases hlower : lower options.stem root .empty a with
  | error fault =>
    simp [hlower, bind, Except.bind] at h
  | ok lowered =>
    obtain ⟨⟨root', log⟩, a'⟩ := lowered
    cases hcheck : check a' options.typing root' log with
    | error fault => simp [hlower, hcheck, bind, Except.bind] at h
    | ok made =>
      simp [hlower, hcheck, bind, Except.bind, pure, Except.pure] at h
      subst h
      exact ⟨log, rfl, hcheck⟩

/-- Compiling a program without misplaced locals comes to an end with all types found. -/
theorem compile_ends (hT : a.Source T) (hplaced : LocalsPlaced options a T.id) :
    ∃ prog R, ∃ p : Pass, ∃ log, compile options a T.id = .ok prog ∧ prog.Shows R ∧
      prog.typed.types = p.types ∧ prog.log = p.log ∧ p.Finished prog.arena R log := by
  obtain ⟨R, log, a', hlower, hheld, -, hready⟩ :=
    lower_ends hT.held hT.nodup hT.laidOut hT.expr options.stem .empty
  have hR := hready (hplaced _ _ _ hlower)
  obtain ⟨result, p, hcheck, hfinished⟩ := hR.check_ends options.typing log
  refine ⟨⟨a', R.id, ⟨p.types, p.coercions, p.table, result⟩, p.log⟩, R, p, log, ?_,
    ⟨rfl, hheld, hR⟩, rfl, rfl, hfinished⟩
  rw [compile, hlower]
  change (check a' options.typing R.id log >>= _) = _
  rw [hcheck]
  rfl

/-- What names a local has, in all of a compiled program, the very type that the definition has. -/
theorem typeOf?_reference_eq (hT : a.Source T) (hplaced : LocalsPlaced options a T.id) :
    ∃ prog R, compile options a T.id = .ok prog ∧ prog.Shows R ∧
      ∀ path X name D, R.Within path X → X.form = .expr (.reference name) →
        Binds prog.arena name path D → ∃ type, prog.typed.typeOf? X.id = some type ∧
          prog.typed.typeOf? D.id = some type := by
  obtain ⟨prog, R, p, log, hcompile, hshows, htypes, -, hfinished⟩ := compile_ends hT hplaced
  refine ⟨prog, R, hcompile, hshows, fun path X name D hX hform hbinds => ?_⟩
  rw [TypedTree.typeOf?, TypedTree.typeOf?, htypes]
  exact hfinished.lookup_eq hX (by rw [Tree.usedName?, hform]) hbinds

/-- Every cycle of locals without declared types has one that is reported as recursive. -/
theorem exists_recursiveDefinition_of_cycle (hT : a.Source T)
    (hplaced : LocalsPlaced options a T.id) :
    ∃ prog R, compile options a T.id = .ok prog ∧ prog.Shows R ∧
      ∀ xs, DependencyCycle prog.arena R xs → (∀ x ∈ xs, prog.arena.types x = []) →
        ∃ x ∈ xs, ∃ r ∈ prog.log.toList, r.node = x ∧
          ∃ name, r.problem = .recursiveDefinition name := by
  obtain ⟨prog, R, p, log, hcompile, hshows, -, hlog, hfinished⟩ := compile_ends hT hplaced
  refine ⟨prog, R, hcompile, hshows, fun xs hcycle hundeclared => ?_⟩
  obtain ⟨x, hx, r, hr, hblames⟩ :=
    hfinished.exists_blamed hcycle.1 hcycle.exists_dependsOn hundeclared
  rw [hlog]
  exact ⟨x, hx, r, List.mem_of_mem_drop hr, hblames⟩

/-- In every program that compiling comes to, wherever its locals stand, all expressions have types.
Where no local is misplaced, compiling comes to one. -/
theorem typeOf?_isSome (hT : a.Source T) (options : ProgramOptions) :
    (∀ prog, compile options a T.id = .ok prog → ∃ R, R.id = prog.root ∧ prog.arena.Holds none R ∧
      ∀ path X, R.Within path X → (prog.typed.typeOf? X.id).isSome = true) ∧
      (LocalsPlaced options a T.id → ∃ prog, compile options a T.id = .ok prog) := by
  obtain ⟨R, log, a', hlower, hheld, hlowered, -⟩ :=
    lower_ends hT.held hT.nodup hT.laidOut hT.expr options.stem .empty
  refine ⟨fun prog hcompile => ?_, fun hplaced => ?_⟩
  · obtain ⟨log', hlower', hcheck⟩ := compile_eq_ok hcompile
    cases prog
    cases hlower.symm.trans hlower'
    exact ⟨R, rfl, hheld, check_typesAll hlowered hcheck⟩
  · obtain ⟨prog, -, -, -, hcompile, -⟩ := compile_ends hT hplaced
    exact ⟨prog, hcompile⟩

end Program

theorem source_selfTree : selfArena.Source selfTree :=
  ⟨holds_selfTree, by decide, by decide, by decide⟩

theorem lower_selfTree :
    lower "_" selfTree.id .empty selfArena = .ok ((selfTree.id, .empty), selfArena) := rfl

theorem localsPlaced_selfTree : Program.LocalsPlaced {} selfArena selfTree.id := by
  intro root' log a' hlower
  cases hlower.symm.trans lower_selfTree
  exact fun _ h => nomatch h

theorem within_selfTree : selfTree.Within [selfGroup, selfTree] selfLocal := by
  have hgroup : selfGroup ∈ selfTree.expressions := List.mem_singleton_self _
  have hlocal : selfLocal ∈ selfGroup.expressions := List.mem_singleton_self _
  exact (Tree.Within.root.child hgroup).child hlocal

/-- The value of the local is the only expression that the name is used in. -/
theorem within_selfLocal : ∃ X, selfTree.Within [selfLocal, selfGroup, selfTree] X ∧ X.id = ⟨0⟩ ∧
    X.form = .expr (.reference "x") :=
  ⟨_, within_selfTree.child (List.mem_singleton_self _), rfl, rfl⟩

theorem binds_selfTree : Binds selfArena "x" [selfLocal, selfGroup, selfTree] selfLocal := by
  have hsplit : selfTree.locals = [] ++ selfLocal :: [] := rfl
  exact .outer (fun _ h => nomatch h) (fun h => nomatch h.1)
    (.outer (fun _ h => nomatch h) (fun h => nomatch h.1) (.here hsplit rfl fun _ h => nomatch h))

/-- Lowering leaves the tree as it stands. -/
theorem Program.compile_selfTree {prog : Program}
    (hcompile : compile {} selfArena selfTree.id = .ok prog) :
    prog.arena = selfArena ∧ prog.root = selfTree.id := by
  obtain ⟨log, hlower, -⟩ := compile_eq_ok hcompile
  cases prog
  cases hlower.symm.trans lower_selfTree
  exact ⟨rfl, rfl⟩

/-- What is compiled is the tree as it stands. -/
theorem Program.Shows.eq_selfTree {prog : Program} {R : Tree} (h : prog.Shows R)
    (hcompile : compile {} selfArena selfTree.id = .ok prog) :
    prog.arena = selfArena ∧ R = selfTree := by
  obtain ⟨harena, hroot⟩ := compile_selfTree hcompile
  have hheld := h.held
  rw [harena] at hheld
  exact ⟨harena, hheld.eq_of_id_eq holds_selfTree (h.root_eq.trans hroot)⟩

theorem Program.typeOf?_reference_eq_selfTree :
    (selfArena.Source selfTree ∧ LocalsPlaced {} selfArena selfTree.id) ∧
      ∃ prog type, compile {} selfArena selfTree.id = .ok prog ∧
        prog.typed.typeOf? ⟨0⟩ = some type ∧ prog.typed.typeOf? ⟨1⟩ = some type := by
  refine ⟨⟨source_selfTree, localsPlaced_selfTree⟩, ?_⟩
  obtain ⟨prog, R, hcompile, hshows, htypes⟩ :=
    typeOf?_reference_eq source_selfTree localsPlaced_selfTree
  obtain ⟨harena, rfl⟩ := hshows.eq_selfTree hcompile
  obtain ⟨X, hX, hid, hform⟩ := within_selfLocal
  obtain ⟨type, hreference, hlocal⟩ := htypes _ X "x" selfLocal hX hform (harena ▸ binds_selfTree)
  exact ⟨prog, type, hcompile, hid ▸ hreference, hlocal⟩

theorem Program.typeOf?_isSome_selfTree :
    (selfArena.Source selfTree ∧ LocalsPlaced {} selfArena selfTree.id) ∧
      ∃ prog, compile {} selfArena selfTree.id = .ok prog ∧
        ∀ path X, selfTree.Within path X → (prog.typed.typeOf? X.id).isSome = true := by
  refine ⟨⟨source_selfTree, localsPlaced_selfTree⟩, ?_⟩
  obtain ⟨htyped, hends⟩ := typeOf?_isSome source_selfTree {}
  obtain ⟨prog, hcompile⟩ := hends localsPlaced_selfTree
  obtain ⟨R, hroot, hheld, htypes⟩ := htyped prog hcompile
  obtain ⟨harena, hself⟩ := compile_selfTree hcompile
  rw [harena] at hheld
  cases hheld.eq_of_id_eq holds_selfTree (hroot.trans hself)
  exact ⟨prog, hcompile, htypes⟩

theorem Program.exists_recursiveDefinition_of_cycle_selfTree :
    (selfArena.Source selfTree ∧ LocalsPlaced {} selfArena selfTree.id) ∧
      ∃ prog, compile {} selfArena selfTree.id = .ok prog ∧
        DependencyCycle selfArena selfTree [⟨1⟩] ∧ ∃ r ∈ prog.log.toList, r.node = ⟨1⟩ ∧
          ∃ name, r.problem = .recursiveDefinition name := by
  refine ⟨⟨source_selfTree, localsPlaced_selfTree⟩, ?_⟩
  obtain ⟨prog, R, hcompile, hshows, hcycles⟩ :=
    exists_recursiveDefinition_of_cycle source_selfTree localsPlaced_selfTree
  obtain ⟨harena, rfl⟩ := hshows.eq_selfTree hcompile
  obtain ⟨X, hX, -, hform⟩ := within_selfLocal
  have hdepends : DependsOn selfArena selfTree ⟨1⟩ ⟨1⟩ :=
    ⟨_, X, "x", selfLocal, selfLocal, hX, by rw [Tree.usedName?, hform], binds_selfTree, rfl,
      List.mem_cons_self, rfl, rfl⟩
  have hcycle : DependencyCycle selfArena selfTree [⟨1⟩] := by
    refine ⟨by simp, .singleton _, fun x hx y hy => ?_⟩
    cases hx
    cases hy
    exact hdepends
  rw [harena] at hcycles
  obtain ⟨x, hx, hreport⟩ := hcycles _ hcycle fun x hx => by
    rw [List.mem_singleton.mp hx]
    rfl
  rw [List.mem_singleton.mp hx] at hreport
  exact ⟨prog, hcompile, hcycle, hreport⟩

end MessageLang
