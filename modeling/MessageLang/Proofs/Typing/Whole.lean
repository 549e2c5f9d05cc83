import MessageLang.Proofs.Typing.Following

namespace MessageLang

open MessageLang.Tree (Visible)

namespace Pass

/-- The state that a pass starts from, once the type of the function that prints has been made. -/
def started (options : TypingOptions) (log : Log) (print : TypeId) (t : TypeTable) : Pass where
  space := { TypeSpace.initial with log, table := t }
  checker := .new options.unwrapsSingleField
  terms := Scopes.empty.add Scopes.root "print" ⟨.known print, false⟩
  scope := Scopes.root
  typeScope := Scopes.root
  types := []
  coercions := []
  escapes := []
  breaks := []
  placeholders := #[]
  ofLocal := []
  resolving := []
  resolved := []

variable {options : TypingOptions} {log : Log} {print : TypeId} {t : TypeTable}

theorem frame_started_root : (started options log print t).terms.frame Scopes.root =
    ⟨none, [("print", ⟨.known print, false⟩)]⟩ := Scopes.frame_add_self _ _ _ Nat.one_pos

theorem frame_started (id : ScopeId) : ∀ entry ∈ ((started options log print t).terms.frame id).names,
    entry = ("print", ⟨.known print, false⟩) := by
  intro entry hentry
  rw [started, Scopes.frame_add] at hentry
  split at hentry
  · rw [Scopes.frame_empty] at hentry
    exact List.mem_singleton.mp hentry
  · rw [Scopes.frame_empty] at hentry
    cases hentry

theorem placeholder_started (id : PlaceholderId) :
    (started options log print t).placeholder id = default :=
  placeholder_of_le (Nat.zero_le _)

theorem started_sound (ht : t.Sound) (hmore : TypeTable.initial.Extends t)
    (hlt : print.index < t.size) : (started options log print t).Sound where
  space := (TypeSpace.initial_sound.withLog log).extend ht hmore
  checker := by
    refine ⟨rfl, ?_, ?_, ?_, ?_⟩ <;> simp [started, Checker.new, Bindings.AllBound]
  known_lt id entry hentry type htype := by
    rw [frame_started id entry hentry] at htype
    cases htype
    exact hlt
  declared_lt id type htype := by
    rw [placeholder_started] at htype
    cases htype
  result_lt id type htype := by
    rw [placeholder_started] at htype
    cases htype
  types_lt _ h := nomatch h
  escapes_lt _ h := nomatch h
  breaks_lt _ h := nomatch h

/-- At the start nothing is known of the tree. -/
theorem started_stands (a : Arena) (R : Tree) (hsound : (started options log print t).Sound) :
    (started options log print t).Stands a R log.size [] where
  sound := hsound
  resolving_lt _ h := nomatch h
  base_le := Nat.le_refl _
  flagged id h := by
    rw [placeholder_started] at h
    cases h
  blamed x := by
    rintro ⟨r, hr, -⟩
    have hsince : log.since log.size = [] := by simp [Log.since, Log.size, Log.toList]
    exact absurd (hsince ▸ hr : r ∈ []) List.not_mem_nil
  frames := by
    refine .root Nat.one_pos ?_ fun entry hentry => ?_
    · rw [frame_started_root]
    · rw [frame_started _ entry hentry]
      exact ⟨print, rfl⟩
  around _ h := nomatch h
  found _ _ _ h := by
    obtain ⟨_, h, _⟩ := h
    cases h
  leads _ h := nomatch h

theorem start_eq (options : TypingOptions) (log : Log) : ∃ print t,
    Pass.start options log = .ok (started options log print t) ∧
      (started options log print t).Sound := by
  have hinitial := TypeSpace.initial_sound
  obtain ⟨print, t, hrun, ht, hmore, -, hlt, -⟩ := ends_iff.mp (Tabling.function_ends
    hinitial.table (hinitial.table.lt_of_index_le (by decide : TypeId.anything.index ≤ _))
    (hinitial.table.lt_of_index_le (by decide : TypeId.nothing.index ≤ _)))
  have hrun' : Tabling.function .anything .nothing TypeSpace.initial.table = .ok (print, t) := hrun
  refine ⟨print, t, ?_, started_sound ht hmore hlt⟩
  rw [Pass.start]
  dsimp only
  rw [hrun']
  rfl

end Pass

open Pass Typing

/-- What a check gives is what a pass over the tree comes to. -/
theorem check_eq_ok {a : Arena} {options : TypingOptions} {root : NodeId} {log log' : Log}
    {start : Pass} {typed : TypedTree} (hstart : Pass.start options log = .ok start)
    (hcheck : check a options root log = .ok (typed, log')) :
    ∃ result p, Typing.tree a options root start = .ok (result, p) ∧
      typed = ⟨p.types, p.coercions, p.table, result⟩ ∧ log' = p.log := by
  rw [check, hstart] at hcheck
  change (Typing.tree a options root start >>= _) = _ at hcheck
  cases hrun : Typing.tree a options root start with
  | error fault =>
    rw [hrun] at hcheck
    cases hcheck
  | ok out =>
    rw [hrun] at hcheck
    cases hcheck
    exact ⟨_, _, rfl, rfl, rfl⟩

/-- Changing the table of types reports nothing. -/
theorem Typing.tabling_log {α : Type} {change : Tabling α} (p : Pass) :
    After (tabling change) p fun _ p' => p'.log = p.log := by
  intro result p' hrun
  cases hchange : change p.space.table with
  | error fault =>
    simp [tabling, reading, Reading.tabling, hchange, bind, Except.bind] at hrun
  | ok made =>
    simp [tabling, reading, Reading.tabling, hchange, bind, Except.bind, pure, Except.pure] at hrun
    obtain ⟨-, rfl⟩ := hrun
    rfl

/-- Where a pass comes to: all expressions are settled, and no local is being found any more. -/
structure Pass.Finished (a : Arena) (R : Tree) (log : Log) (p : Pass) : Prop where
  stands : p.Stands a R log.size []
  resolving_eq : p.resolving = []
  covered : p.Covered a R log.size R
  log_eq : ∃ more, p.log.toList = log.toList ++ more

variable {a : Arena} {R : Tree}

theorem Pass.Finished.quiet {log : Log} {p p' : Pass} (h : p.Finished a R log) (hnodup : R.ids.Nodup)
    (hquiet : p.Quiet p') : p'.Finished a R log where
  stands := h.stands.quiet hnodup hquiet
  resolving_eq := by
    rw [hquiet.eq]
    exact h.resolving_eq
  covered := (hquiet.advances [] fun _ => False).covered h.stands.toFair hnodup
    (spares_empty a R p []) (fun _ _ h => h) h.covered
  log_eq := by
    obtain ⟨more, heq⟩ := h.log_eq
    obtain ⟨more', heq', -⟩ := hquiet.log
    exact ⟨more ++ more', by rw [heq', heq, List.append_assoc]⟩

theorem Pass.Finished.settled {log : Log} {p : Pass} {path : List Tree} {X : Tree}
    (h : p.Finished a R log) (hX : R.Within path X) : p.Settled a R log.size path X :=
  h.covered path X hX hX.root_mem

theorem Arena.Ready.direct_root (hR : a.Ready R) : Tree.Direct [] R := by
  refine ⟨fun hgroup => ?_, fun _ h => nomatch h⟩
  obtain ⟨_, _, heq, _⟩ := hR.locals_in_blocks [] R .root hgroup
  cases heq

/-- Finding the types of a whole tree ends without coming upon a node while its type is being
found. -/
theorem Arena.Ready.computeApart_ends (hR : a.Ready R) (options : TypingOptions) {log : Log} {p : Pass}
    (hp : p.Stands a R log.size []) (hlog : p.log = log) (hresolving : p.resolving = []) :
    Ends (computeApart a options R.ids.length [] R.id) p fun type p' =>
      p'.Finished a R log ∧ type.index < p'.table.size := by
  have hcomputes : Computes a R log.size [] (computeApart a options R.ids.length []) :=
    computeApart_computes hR List.nodup_nil (List.nil_subset _) (Nat.le_add_left _ _)
  refine (hcomputes p [] R hp .root hR.direct_root fun _ h => nomatch h).mono ?_
  rintro type p' ⟨hvisits, hlookup⟩
  refine ⟨⟨hvisits.stands, hvisits.advances.resolving_eq.trans hresolving,
    hvisits.covered R (List.mem_singleton_self R), hlog ▸ hvisits.advances.log⟩, ?_⟩
  exact hvisits.stands.sound.types_lt _ (mem_of_lookup_eq_some hlookup)

/-- A tree in an arena has no more nodes than a pass may go deep. -/
theorem Arena.Ready.length_ids_le (hR : a.Ready R) : R.ids.length ≤ depthBound a := by
  obtain ⟨_, hheld⟩ := hR.held
  have hle := hheld.length_ids_le hR.nodup
  exact (hle.trans (Nat.le_succ _)).trans (Nat.le_mul_of_pos_left _ (Nat.succ_pos _))

theorem Arena.Ready.check_ends (hR : a.Ready R) (options : TypingOptions) (log : Log) :
    ∃ result, ∃ p : Pass, check a options R.id log =
      .ok (⟨p.types, p.coercions, p.table, result⟩, p.log) ∧
      p.Finished a R log := by
  obtain ⟨print, t, hstart, hsound⟩ := Pass.start_eq options log
  obtain ⟨type, p, hrun, hfinished, hlt⟩ := ends_iff.mp
    (hR.computeApart_ends options (started_stands a R hsound) rfl rfl)
  have hrun' := computeApart_follows hR.length_ids_le _ _ hrun
  have htree : Ends (Typing.tree a options R.id) (started options log print t) fun _ p' =>
      p'.Finished a R log := by
    rw [Typing.tree, ends_bind_iff, ends_iff]
    refine ⟨type, p, hrun', ?_⟩
    rw [ends_bind_iff, ends_get_iff]
    split
    · exact hfinished
    · next escapes hescapes =>
      refine (unite_ends hfinished.stands.sound ?_).mono fun _ p' h => hfinished.quiet hR.nodup h.1
      rw [List.forall_mem_append]
      refine ⟨List.forall_mem_map.mpr hfinished.stands.sound.escapes_lt, ?_⟩
      exact List.forall_mem_singleton.mpr hlt
  obtain ⟨result, p', htree, hfinished'⟩ := ends_iff.mp htree
  refine ⟨result, p', ?_, hfinished'⟩
  rw [check, hstart]
  change (Typing.tree a options R.id _ >>= _) = _
  rw [htree]
  rfl

/-- What is reported of a tree is what finding the types of its nodes comes to, without coming upon a
node while its type is being found. -/
theorem Arena.Ready.exists_computeApart_eq_ok (hR : a.Ready R) {options : TypingOptions} {log log' : Log}
    {typed : TypedTree} (hcheck : check a options R.id log = .ok (typed, log')) :
    ∃ print t type p, (started options log print t).Sound ∧
      computeApart a options R.ids.length [] R.id (started options log print t) = .ok (type, p) ∧
        log' = p.log := by
  obtain ⟨print, t, hstart, hsound⟩ := Pass.start_eq options log
  obtain ⟨type, p, hrun, -⟩ := ends_iff.mp
    (hR.computeApart_ends options (started_stands a R hsound) rfl rfl)
  have hrun' := computeApart_follows hR.length_ids_le _ _ hrun
  have htree : After (Typing.tree a options R.id) (started options log print t) fun _ p' =>
      p'.log = p.log := by
    rw [Typing.tree, after_bind_iff]
    intro value q hother
    cases hrun'.symm.trans hother
    rw [after_bind_iff, after_get_iff]
    split
    · exact after_pure_iff.mpr rfl
    · exact tabling_log p
  obtain ⟨result, p', hmade, -, rfl⟩ := check_eq_ok hstart hcheck
  exact ⟨print, t, type, p, hsound, hrun, htree _ _ hmade⟩

/-- A local whose value is the local itself. -/
def selfLocal : Tree :=
  .node ⟨1⟩ (.expr (.localDef "x" false)) default false
    [.node ⟨0⟩ (.expr (.reference "x")) default false []]

def selfGroup : Tree := .node ⟨2⟩ (.expr .locals) default false [selfLocal]

/-- A block with only that local. -/
def selfTree : Tree := .node ⟨3⟩ (.expr .block) default false [selfGroup]

def selfArena : Arena where
  nodes := #[
    { form := .expr (.reference "x"), span := default, parent := some ⟨1⟩ },
    { form := .expr (.localDef "x" false), span := default, children := [⟨0⟩], parent := some ⟨2⟩ },
    { form := .expr .locals, span := default, children := [⟨1⟩], parent := some ⟨3⟩ },
    { form := .expr .block, span := default, children := [⟨2⟩] }]

theorem holds_selfTree : selfArena.Holds none selfTree := by
  refine .node (by decide) rfl fun child hchild => ?_
  rw [List.mem_singleton.mp hchild]
  refine .node (by decide) rfl fun child hchild => ?_
  rw [List.mem_singleton.mp hchild]
  refine .node (by decide) rfl fun child hchild => ?_
  rw [List.mem_singleton.mp hchild]
  exact .node (by decide) rfl fun _ h => (nomatch h)

theorem ready_selfTree : selfArena.Ready selfTree where
  held := ⟨none, holds_selfTree⟩
  nodup := by decide
  laidOut := by decide
  core := by decide
  locals_in_blocks := by decide

/-- Finding the types of a tree comes to an end without coming upon a node while its type is being
found, however the locals use each other. -/
theorem check_enters_no_node_again {a : Arena} {R : Tree} (hR : a.Ready R) (options : TypingOptions)
    (log : Log) : ∃ start out result, Pass.start options log = .ok start ∧
      computeApart a options R.ids.length [] R.id start = .ok out ∧
      computeWithin a options (depthBound a) R.id start = .ok out ∧
      check a options R.id log = .ok result := by
  obtain ⟨print, t, hstart, hsound⟩ := Pass.start_eq options log
  obtain ⟨type, p, hrun, -⟩ := ends_iff.mp
    (hR.computeApart_ends options (started_stands a R hsound) rfl rfl)
  obtain ⟨result, p', hcheck, -⟩ := hR.check_ends options log
  exact ⟨_, _, _, hstart, hrun, computeApart_follows hR.length_ids_le _ _ hrun, hcheck⟩

theorem check_enters_no_node_again_selfTree :
    selfArena.Ready selfTree ∧ ∃ start out result, Pass.start {} .empty = .ok start ∧
      computeApart selfArena {} selfTree.ids.length [] selfTree.id start = .ok out ∧
      computeWithin selfArena {} (depthBound selfArena) selfTree.id start = .ok out ∧
      check selfArena {} selfTree.id .empty = .ok result :=
  ⟨ready_selfTree, check_enters_no_node_again ready_selfTree {} .empty⟩

/-- Where no value of a local leaves what it stands in, handlers are made of the returns and the
value of the body that leave them and loops of the breaks that leave them, and of nothing else. A
handler with a declared output has just these checked against it. -/
theorem check_made_of_own_exits {a : Arena} {R : Tree} (hR : a.Ready R) (hfree : R.ExitFree)
    (options : TypingOptions) (log : Log) : ∃ result, ∃ p : Pass,
      check a options R.id log = .ok (⟨p.types, p.coercions, p.table, result⟩, p.log) ∧
        ∀ path X, R.Within path X → ∃ type, p.types.lookup X.id = some type ∧ p.Made a X type := by
  obtain ⟨result, p, hcheck, hfinished⟩ := hR.check_ends options log
  refine ⟨result, p, hcheck, fun path X hX => ?_⟩
  obtain ⟨type, htype, hmade, -⟩ := hfinished.settled hX
  exact ⟨type, htype, hmade hfree⟩

/-- A handler of nothing that goes through a loop, which is left with a truth value, and answers
with a text. -/
def exitTree : Tree :=
  .node ⟨7⟩ (.expr .handler) default false
    [.node ⟨0⟩ (.type .empty) default false [],
      .node ⟨6⟩ (.expr .block) default false
        [.node ⟨3⟩ (.expr .repeatLoop) default false
          [.node ⟨2⟩ (.expr .breakExit) default false
            [.node ⟨1⟩ (.expr (.constant ⟨.boolean, "true"⟩)) default false []]],
          .node ⟨5⟩ (.expr .returnExit) default false
            [.node ⟨4⟩ (.expr (.constant ⟨.string, "done"⟩)) default false []]]]

def exitArena : Arena where
  nodes := #[
    { form := .type .empty, span := default, parent := some ⟨7⟩ },
    { form := .expr (.constant ⟨.boolean, "true"⟩), span := default, parent := some ⟨2⟩ },
    { form := .expr .breakExit, span := default, children := [⟨1⟩], parent := some ⟨3⟩ },
    { form := .expr .repeatLoop, span := default, children := [⟨2⟩], parent := some ⟨6⟩ },
    { form := .expr (.constant ⟨.string, "done"⟩), span := default, parent := some ⟨5⟩ },
    { form := .expr .returnExit, span := default, children := [⟨4⟩], parent := some ⟨6⟩ },
    { form := .expr .block, span := default, children := [⟨3⟩, ⟨5⟩], parent := some ⟨7⟩ },
    { form := .expr .handler, span := default, children := [⟨0⟩, ⟨6⟩] }]

-- The break is for the loop alone, and the return for the handler.
example : exitTree.ExitFree ∧ (match check exitArena {} exitTree.id .empty with
    | .ok (typed, _) =>
      typed.display? ⟨3⟩ = some "Boolean" && typed.display? ⟨7⟩ = some "() -> String"
    | .error _ => false) = true := by decide +kernel

end MessageLang
