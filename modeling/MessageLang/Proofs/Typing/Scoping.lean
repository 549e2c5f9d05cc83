import MessageLang.Proofs.Typing.Lexical
import MessageLang.Typing.State

namespace MessageLang

open MessageLang.Tree (Binds InputNames Visible)

section

variable {α β : Type} {R S : α → β → Prop} {xs : List α} {ys : List β}

private theorem exists_of_forall₂ (h : List.Forall₂ R xs ys) {y : β} (hy : y ∈ ys) :
    ∃ x ∈ xs, R x y := by
  induction h with
  | nil => cases hy
  | @cons x z _ _ hxz _ ih =>
    rcases List.mem_cons.mp hy with rfl | hy
    · exact ⟨x, List.mem_cons_self, hxz⟩
    · obtain ⟨w, hw, hwy⟩ := ih hy
      exact ⟨w, List.mem_cons_of_mem _ hw, hwy⟩

private theorem forall₂_imp_of_mem (h : List.Forall₂ R xs ys) (himp : ∀ x, ∀ y ∈ ys, R x y → S x y) :
    List.Forall₂ S xs ys := by
  induction h with
  | nil => exact .nil
  | cons hxy _ ih =>
    exact .cons (himp _ _ List.mem_cons_self hxy)
      (ih fun x y hy => himp x y (List.mem_cons_of_mem _ hy))

end

namespace Pass

/-- The latest placeholder of a local. -/
def current? (p : Pass) (D : Tree) : Option PlaceholderId := p.ofLocal.lookup D.id

/-- A placeholder that was made for a local in a frame. -/
structure IsFor (p : Pass) (id : PlaceholderId) (D : Tree) (scope : ScopeId) : Prop where
  lt : id.index < p.placeholders.size
  definition_eq : (p.placeholder id).definition = D.id
  value_eq : (p.placeholder id).value = D.expressions.head?.map Tree.id
  scope_eq : (p.placeholder id).scope = scope
  declared_iff : (p.placeholder id).declared = none ↔ D.types = []

/-- What a frame binds for a local: its name to its latest placeholder. -/
def Binding (p : Pass) (scope : ScopeId) (entry : String × Variable) (D : Tree) : Prop :=
  D.localName? = some entry.1 ∧
    ∃ id, entry.2.meaning = .pending id ∧ p.current? D = some id ∧ p.IsFor id D scope

/-- The frames from one outwards are those of the expressions around a place: one for each block,
with its locals, and for each handler, with the fields of its input. -/
inductive Scoped (a : Arena) (p : Pass) : List Tree → ScopeId → Prop
  | root (lt : Scopes.root.index < p.terms.size)
      (parent : (p.terms.frame Scopes.root).parent = none)
      (known : ∀ entry ∈ (p.terms.frame Scopes.root).names, ∃ type, entry.2.meaning = .known type) :
      Scoped a p [] Scopes.root
  | plain {A : Tree} {path : List Tree} {scope : ScopeId} (not_block : A.form ≠ .expr .block)
      (not_handler : A.form ≠ .expr .handler) (outer : Scoped a p path scope) :
      Scoped a p (A :: path) scope
  | block {B : Tree} {path : List Tree} {scope around : ScopeId} (form : B.form = .expr .block)
      (lt : scope.index < p.terms.size) (older : around.index < scope.index)
      (parent : (p.terms.frame scope).parent = some around)
      (names : List.Forall₂ (p.Binding scope) (p.terms.frame scope).names B.locals.reverse)
      (outer : Scoped a p path around) : Scoped a p (B :: path) scope
  | handler {H : Tree} {path : List Tree} {scope around : ScopeId} (form : H.form = .expr .handler)
      (lt : scope.index < p.terms.size) (older : around.index < scope.index)
      (parent : (p.terms.frame scope).parent = some around)
      (known : ∀ entry ∈ (p.terms.frame scope).names, ∃ type, entry.2.meaning = .known type)
      (names : ∀ name, (∃ entry ∈ (p.terms.frame scope).names, entry.1 = name) ↔
        H.InputNames a name)
      (outer : Scoped a p path around) : Scoped a p (H :: path) scope

variable {a : Arena} {p : Pass} {path inner : List Tree} {scope : ScopeId} {A D : Tree} {name : String}
  {id : PlaceholderId}

theorem IsFor.declared_iff_types {R : Tree} (h : p.IsFor id D scope) (hR : a.Ready R)
    (hD : R.Within path D) : (p.placeholder id).declared = none ↔ a.types D.id = [] := by
  rw [h.declared_iff, hR.types_eq hD, List.map_eq_nil_iff]

/-- Looking up a name among the bindings of some locals finds the first one of that name. -/
private theorem lookup_of_bindings {entries : List (String × Variable)} {trees : List Tree}
    (h : List.Forall₂ (p.Binding scope) entries trees) (name : String) :
    (∃ before E after id mutable, trees = before ++ E :: after ∧ E.localName? = some name ∧
      (∀ other ∈ before, other.localName? ≠ some name) ∧ p.current? E = some id ∧
      entries.lookup name = some ⟨.pending id, mutable⟩) ∨
    (entries.lookup name = none ∧ ∀ E ∈ trees, E.localName? ≠ some name) := by
  induction h with
  | nil => exact .inr ⟨rfl, fun _ h => nomatch h⟩
  | @cons entry E entries trees hbinding _ ih =>
    obtain ⟨hname, id, hmeaning, hcurrent, -⟩ := hbinding
    obtain ⟨key, meaning, mutable⟩ := entry
    rw [List.lookup_cons]
    by_cases heq : name = key
    · subst heq
      refine .inl ⟨[], E, trees, id, mutable, rfl, hname, fun _ h => (nomatch h), hcurrent, ?_⟩
      simp only [beq_self_eq_true]
      rw [← hmeaning]
    · rw [beq_eq_false_iff_ne.mpr heq]
      have hother : E.localName? ≠ some name := by
        rw [hname]
        exact fun h => heq (Option.some.inj h).symm
      rcases ih with ⟨before, F, after, id, mutable, rfl, hF, hbefore, hcurrent, hlookup⟩ | ⟨hnone, hall⟩
      · exact .inl ⟨E :: before, F, after, id, mutable, rfl, hF,
          List.forall_mem_cons.mpr ⟨hother, hbefore⟩, hcurrent, hlookup⟩
      · exact .inr ⟨hnone, List.forall_mem_cons.mpr ⟨hother, hall⟩⟩

/-- An expression that has no local and no input of a name leaves the meaning of the name to those
around it. -/
private theorem binds_cons_iff (hsilent : ∀ E ∈ A.locals, E.localName? ≠ some name)
    (hinput : ¬ A.InputNames a name) : Binds a name (A :: path) D ↔ Binds a name path D := by
  refine ⟨fun h => ?_, .outer hsilent hinput⟩
  cases h with
  | here split named _ => exact absurd named (hsilent D (by simp [split]))
  | outer _ _ binds => exact binds

private theorem Scoped.getWithin? (h : Scoped a p path scope) (name : String) {steps : Nat}
    (hsteps : scope.index < steps) :
    (∃ E id mutable, p.terms.getWithin? name steps scope = some ⟨.pending id, mutable⟩ ∧
      Binds a name path E ∧ p.current? E = some id) ∨
    ((∀ E, ¬ Binds a name path E) ∧ ∀ found, p.terms.getWithin? name steps scope = some found →
      ∃ type, found.meaning = .known type) := by
  induction h generalizing steps with
  | root _ hparent hknown =>
    obtain ⟨steps, rfl⟩ := Nat.exists_eq_succ_of_ne_zero (Nat.ne_zero_of_lt hsteps)
    refine .inr ⟨fun E h => (by cases h), fun found hfound => ?_⟩
    rw [Scopes.getWithin?, Scopes.here?] at hfound
    split at hfound
    · next value hvalue =>
      cases hfound
      exact hknown _ (mem_of_lookup_eq_some hvalue)
    · rw [Scopes.parent, hparent] at hfound
      cases hfound
  | @plain A path scope hblock hhandler _ ih =>
    have hlocals : A.locals = [] := if_neg hblock
    have hinput : ¬ A.InputNames a name := fun h => hhandler h.1
    simpa only [binds_cons_iff (by simp [hlocals]) hinput] using ih hsteps
  | @block B path scope around hform _ holder hparent hnames _ ih =>
    obtain ⟨steps, rfl⟩ := Nat.exists_eq_succ_of_ne_zero (Nat.ne_zero_of_lt hsteps)
    rw [Scopes.getWithin?, Scopes.here?]
    rcases lookup_of_bindings hnames name with
      ⟨before, E, after, id, mutable, heq, hname, hbefore, hcurrent, hlookup⟩ | ⟨hnone, hall⟩
    · refine .inl ⟨E, id, mutable, by rw [hlookup], ?_, hcurrent⟩
      have hsplit : B.locals = after.reverse ++ E :: before.reverse := by
        rw [← List.reverse_reverse B.locals, heq]
        simp
      exact .here hsplit hname fun other hother => hbefore other (List.mem_reverse.mp hother)
    · have hsilent : ∀ E ∈ B.locals, E.localName? ≠ some name := fun E hE =>
        hall E (List.mem_reverse.mpr hE)
      have hinput : ¬ B.InputNames a name := fun h => by cases hform.symm.trans h.1
      rw [hnone, Scopes.parent, hparent]
      simpa only [binds_cons_iff hsilent hinput] using @ih steps (by omega)
  | @handler H path scope around hform _ holder hparent hknown hnames _ ih =>
    obtain ⟨steps, rfl⟩ := Nat.exists_eq_succ_of_ne_zero (Nat.ne_zero_of_lt hsteps)
    have hlocals : H.locals = [] := if_neg (by simp [hform])
    rw [Scopes.getWithin?, Scopes.here?]
    cases hlookup : (p.terms.frame scope).names.lookup name with
    | some value =>
      have hmem := mem_of_lookup_eq_some hlookup
      refine .inr ⟨fun E h => ?_, fun found hfound => ?_⟩
      · cases h with
        | here split _ _ => simp [hlocals] at split
        | outer _ no_input _ => exact no_input ((hnames name).mp ⟨_, hmem, rfl⟩)
      · cases hfound
        exact hknown _ hmem
    | none =>
      have hinput : ¬ H.InputNames a name := fun h => by
        obtain ⟨entry, hentry, rfl⟩ := (hnames name).mpr h
        rw [List.lookup_eq_none_iff] at hlookup
        simpa using hlookup entry hentry
      rw [Scopes.parent, hparent]
      simpa only [binds_cons_iff (by simp [hlocals]) hinput] using @ih steps (by omega)

/-- A name is looked up as the latest placeholder of the local that it means in the tree. A name
that means no local is found with a type, if it is found at all. -/
theorem Scoped.get? (h : Scoped a p path scope) (name : String) :
    (∃ E id mutable, p.terms.get? scope name = some ⟨.pending id, mutable⟩ ∧
      Binds a name path E ∧ p.current? E = some id) ∨
    ((∀ E, ¬ Binds a name path E) ∧ ∀ found, p.terms.get? scope name = some found →
      ∃ type, found.meaning = .known type) :=
  h.getWithin? name (Nat.lt_succ_self _)

theorem Scoped.lt (h : Scoped a p path scope) : scope.index < p.terms.size := by
  induction h with
  | root lt _ _ => exact lt
  | plain _ _ _ ih => exact ih
  | block _ lt _ _ _ _ _ => exact lt
  | handler _ lt _ _ _ _ _ _ => exact lt

/-- The frames around an enclosing expression are further out. -/
theorem Scoped.of_append (h : Scoped a p (inner ++ path) scope) : ∃ around, Scoped a p path around := by
  induction inner generalizing scope with
  | nil => exact ⟨scope, h⟩
  | cons A inner ih =>
    cases h with
    | plain _ _ outer => exact ih outer
    | block _ _ _ _ _ outer => exact ih outer
    | handler _ _ _ _ _ _ outer => exact ih outer

/-- The locals of a block around have placeholders for its frame. -/
theorem Scoped.exists_isFor {B : Tree} (h : Scoped a p (B :: path) scope) (hD : D ∈ B.locals) :
    ∃ id, p.current? D = some id ∧ p.IsFor id D scope := by
  have hform := (Tree.mem_locals_iff.mp hD).1
  cases h with
  | plain not_block _ _ => exact absurd hform not_block
  | block _ _ _ _ names _ =>
    obtain ⟨entry, _, _, id, _, hcurrent, hfor⟩ :=
      exists_of_forall₂ names (List.mem_reverse.mpr hD)
    exact ⟨id, hcurrent, hfor⟩
  | handler form _ _ _ _ _ _ => cases hform.symm.trans form

theorem Scoped.visible (h : Scoped a p path scope) (hD : Visible path D) :
    ∃ id around, p.current? D = some id ∧ p.IsFor id D around := by
  obtain ⟨B, hB, hD⟩ := hD
  obtain ⟨inner, rest, rfl⟩ := List.append_of_mem hB
  obtain ⟨around, h⟩ := h.of_append
  obtain ⟨id, hcurrent, hfor⟩ := h.exists_isFor hD
  exact ⟨id, around, hcurrent, hfor⟩

/-- The frames stay those of the expressions around while frames and placeholders are only added. -/
theorem Scoped.keep {p' : Pass} (h : Scoped a p path scope) (hsize : p.terms.size ≤ p'.terms.size)
    (hframes : ∀ id : ScopeId, id.index < p.terms.size → p'.terms.frame id = p.terms.frame id)
    (hcurrent : ∀ D, Visible path D → p'.current? D = p.current? D)
    (hfor : ∀ id D scope, p.IsFor id D scope → p'.IsFor id D scope) : Scoped a p' path scope := by
  induction h with
  | root lt parent known =>
    refine .root (lt.trans_le hsize) ?_ ?_ <;> rw [hframes _ lt]
    · exact parent
    · exact known
  | plain not_block not_handler _ ih =>
    exact .plain not_block not_handler (ih fun D hD => hcurrent D (hD.cons _))
  | @block B path scope around form lt older parent names _ ih =>
    refine .block form (lt.trans_le hsize) older ?_ ?_ (ih fun D hD => hcurrent D (hD.cons _)) <;>
      rw [hframes _ lt]
    · exact parent
    · refine forall₂_imp_of_mem names fun entry D hD ⟨hname, id, hmeaning, hid, hisFor⟩ => ?_
      have hsame := hcurrent D ⟨B, List.mem_cons_self, List.mem_reverse.mp hD⟩
      exact ⟨hname, id, hmeaning, hsame.trans hid, hfor id D scope hisFor⟩
  | handler form lt older parent known names _ ih =>
    refine .handler form (lt.trans_le hsize) older ?_ ?_ ?_ (ih fun D hD => hcurrent D (hD.cons _)) <;>
      rw [hframes _ lt]
    · exact parent
    · exact known
    · exact names

end Pass

end MessageLang
