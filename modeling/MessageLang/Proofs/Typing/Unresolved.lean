import MessageLang.Proofs.Typing.Regions

namespace MessageLang

namespace Tree

/-- A name means something at a place, given what is around it: it is the built-in function, or some
block has a local of that name, wherever in the block, or the input of some handler a field. -/
def Known (a : Arena) (path : List Tree) (name : String) : Prop :=
  name = "print" ∨ ∃ A ∈ path, (∃ D ∈ A.locals, D.localName? = some name) ∨ A.InputNames a name

variable {a : Arena} {A : Tree} {path : List Tree} {name : String}

theorem known_nil_iff : Known a [] name ↔ name = "print" := by simp [Known]

theorem known_cons_iff : Known a (A :: path) name ↔
    ((∃ D ∈ A.locals, D.localName? = some name) ∨ A.InputNames a name) ∨ Known a path name := by
  simp only [Known, List.exists_mem_cons_iff]
  exact or_left_comm

end Tree

open MessageLang.Tree (Known)

/-- The report of an expression that uses a name which means nothing there. -/
def Unresolved (a : Arena) (R : Tree) (r : Report) : Prop :=
  ∃ path X name, R.Within path X ∧ X.usedName? = some name ∧ ¬ Known a path name ∧
    r = ⟨.unresolvedName name, X.id, a.span X.id⟩

open Classical in
/-- Whether an unresolved name is in an expression, as a number. -/
noncomputable def share (a : Arena) (R : Tree) (r : Report) (T : Tree) : Nat :=
  if Unresolved a R r ∧ r.node ∈ T.ids then 1 else 0

section

variable {a : Arena} {R T : Tree} {r : Report}

theorem share_of_mem (hr : Unresolved a R r) (h : r.node ∈ T.ids) : share a R r T = 1 :=
  if_pos ⟨hr, h⟩

theorem share_of_not_unresolved (hr : ¬ Unresolved a R r) : share a R r T = 0 :=
  if_neg fun h => hr h.1

end

namespace Pass

/-- In the outermost frame the built-in function is bound, and nothing else. -/
structure Rooted (p : Pass) : Prop where
  lt : Scopes.root.index < p.terms.size
  names : (p.terms.frame Scopes.root).names.map Prod.fst = ["print"]

variable {a : Arena} {p p' : Pass} {path : List Tree} {region : NodeId → Prop} {scope : ScopeId}
  {name : String}

theorem Rooted.grows (h : p.Rooted) (hgrows : p.Grows path region p') : p'.Rooted where
  lt := h.lt.trans_le hgrows.terms_le
  names := by
    rw [hgrows.frame_eq _ h.lt]
    exact h.names

/-- A name is looked up in a frame and then further out. -/
theorem getWithin?_succ_eq_none_iff {s : Scopes Variable} {steps : Nat} :
    s.getWithin? name (steps + 1) scope = none ↔
      name ∉ (s.frame scope).names.map Prod.fst ∧
        ∀ outer, s.parent scope = some outer → s.getWithin? name steps outer = none := by
  have hhere : s.here? scope name = none ↔ name ∉ (s.frame scope).names.map Prod.fst := by
    rw [Scopes.here?, List.lookup_eq_none_iff, List.mem_map]
    refine ⟨?_, fun h entry hentry => bne_iff_ne.mpr fun heq => h ⟨entry, hentry, heq.symm⟩⟩
    rintro h ⟨entry, hentry, rfl⟩
    exact bne_iff_ne.mp (h entry hentry) rfl
  rw [Scopes.getWithin?, ← hhere]
  cases s.here? scope name with
  | some value => simp
  | none => cases s.parent scope <;> simp

/-- The names that are bound for some locals are theirs. -/
theorem mem_names_of_bindings {entries : List (String × Variable)} {trees : List Tree}
    (h : List.Forall₂ (p.Binding scope) entries trees) :
    name ∈ entries.map Prod.fst ↔ ∃ D ∈ trees, D.localName? = some name := by
  induction h with
  | nil => simp
  | @cons entry D entries trees hbinding _ ih =>
    obtain ⟨hname, -⟩ := hbinding
    rw [List.map_cons, List.mem_cons, List.exists_mem_cons_iff, ih, hname, Option.some.injEq]
    exact or_congr_left eq_comm

/-- A name is found just where it means something. -/
theorem Scoped.get?_eq_none_iff (h : Scoped a p path scope) (hroot : p.Rooted) (name : String) :
    p.terms.get? scope name = none ↔ ¬ Known a path name := by
  suffices hsteps : ∀ steps, scope.index < steps →
      (p.terms.getWithin? name steps scope = none ↔ ¬ Known a path name) from
    hsteps _ (Nat.lt_succ_self _)
  have hlocals : ∀ {A : Tree}, A.form ≠ .expr .block → ¬ ∃ D ∈ A.locals, D.localName? = some name := by
    rintro A hform ⟨D, hD, -⟩
    exact hform (Tree.mem_locals_iff.mp hD).1
  intro steps hlt
  induction h generalizing steps with
  | root _ parent _ =>
    obtain ⟨steps, rfl⟩ := Nat.exists_eq_succ_of_ne_zero (Nat.ne_zero_of_lt hlt)
    rw [getWithin?_succ_eq_none_iff, hroot.names, Tree.known_nil_iff, Scopes.parent, parent]
    simp
  | plain not_block not_handler _ ih =>
    rw [ih steps hlt, Tree.known_cons_iff]
    simp [hlocals not_block, Tree.InputNames, not_handler]
  | block form _ older parent names _ ih =>
    obtain ⟨steps, rfl⟩ := Nat.exists_eq_succ_of_ne_zero (Nat.ne_zero_of_lt hlt)
    rw [getWithin?_succ_eq_none_iff, mem_names_of_bindings names, Scopes.parent, parent,
      Tree.known_cons_iff]
    simp [ih steps (by omega), Tree.InputNames, form]
  | @handler H _ scope _ form _ older parent _ names _ ih =>
    obtain ⟨steps, rfl⟩ := Nat.exists_eq_succ_of_ne_zero (Nat.ne_zero_of_lt hlt)
    have hhere : name ∈ (p.terms.frame scope).names.map Prod.fst ↔ H.InputNames a name := by
      rw [← names name, List.mem_map]
    rw [getWithin?_succ_eq_none_iff, hhere, Scopes.parent, parent, Tree.known_cons_iff]
    simp [ih steps (by omega), hlocals (A := H) (by simp [form])]

end Pass

end MessageLang
