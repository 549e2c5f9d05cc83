import MessageLang.Proofs.Typing.Completing

namespace MessageLang

open Pass Typing

/-- A node of a tree other than a group of locals. -/
def Tree.Ungrouped (R : Tree) (n : NodeId) : Prop :=
  ∃ path N, R.Within path N ∧ N.id = n ∧ N.form ≠ .expr .locals

namespace Arena.Ready

variable {a : Arena} {R : Tree}

/-- Where locals are in blocks only, no part of another expression is a group of locals. -/
theorem orderly (hR : a.Ready R) : a.Orderly R.Ungrouped where
  part := by
    rintro _ ⟨path, N, hN, rfl, -⟩ c hc hgroup
    rw [hR.expressions_eq hN] at hc
    obtain ⟨C, hC, rfl⟩ := List.mem_map.mp hc
    rw [Ne, hR.expr?_eq_some_iff (hN.child hC)] at hgroup
    exact ⟨_, C, hN.child hC, rfl, hgroup⟩
  block := by
    rintro _ ⟨path, N, hN, rfl, -⟩ c hc hgroup
    rw [hR.expressions_eq hN] at hc
    obtain ⟨C, hC, rfl⟩ := List.mem_map.mp hc
    rw [hR.expr?_eq_some_iff (hN.child hC)] at hgroup
    obtain ⟨B, rest, heq, hblock⟩ := hR.locals_in_blocks _ C (hN.child hC) hgroup
    cases heq
    exact (hR.expr?_eq_some_iff hN).mpr hblock
  value := by
    rintro _ ⟨path, N, hN, rfl, -⟩ c hc hgroup d hd v hv
    rw [hR.expressions_eq hN] at hc
    obtain ⟨G, hG, rfl⟩ := List.mem_map.mp hc
    have hG := hN.child hG
    rw [hR.expr?_eq_some_iff hG] at hgroup
    rw [hR.expressions_eq hG] at hd
    obtain ⟨D, hD, rfl⟩ := List.mem_map.mp hd
    obtain ⟨name, mutable, hform⟩ :=
      Tree.exists_form_eq_of_mem_group (hG.laidOut hR.laidOut) hgroup hD
    have hD := hG.child hD
    rw [hR.expressions_eq hD] at hv
    obtain ⟨V, hV, rfl⟩ := List.mem_map.mp hv
    exact ⟨_, V, hD.child hV, rfl, (Tree.direct_of_mem_expressions hR.locals_in_blocks hD
      (by simp [hform]) (by simp [hform]) hV).1⟩
  not_group := by
    rintro _ ⟨path, N, hN, rfl, hform⟩
    rwa [Ne, hR.expr?_eq_some_iff hN]

/-- With as many steps as there are nodes, typing comes to an end. -/
theorem computeWithin_computes (hR : a.Ready R) (options : TypingOptions) {steps base : Nat}
    (hsteps : R.ids.length ≤ steps) : Computes a R base [] (computeWithin a options steps) := by
  intro p path N hp hN hdirect hfresh
  have hcomputes : Computes a R base [] (computeApart a options R.ids.length []) :=
    computeApart_computes hR List.nodup_nil (List.nil_subset _) (Nat.le_add_left _ _)
  obtain ⟨type, p', hrun, hvisits⟩ := ends_iff.mp (hcomputes p path N hp hN hdirect hfresh)
  exact ends_iff.mpr ⟨type, p', computeApart_follows hsteps _ _ hrun, hvisits⟩

end Arena.Ready

namespace Pass

/-- What holds between the steps of a pass over a tree: no conflict is left to be reported, and the
values of locals are no groups of locals. -/
structure Tidy (R : Tree) (p : Pass) : Prop where
  valued : p.Valued R.Ungrouped
  conflicts_eq : p.checker.conflicts = []

/-- A state like an earlier one, but for what an attempt that was taken back leaves: more types,
frames and placeholders than there were, types and placeholders of nodes that it touched, and flags
of locals on cycles. -/
structure Resumes (a : Arena) (R : Tree) (path : List Tree) (p s : Pass) : Prop where
  log_eq : s.log = p.log
  checker_eq : s.checker = p.checker
  escapes_eq : s.escapes = p.escapes
  breaks_eq : s.breaks = p.breaks
  scope_eq : s.scope = p.scope
  typeScope_eq : s.typeScope = p.typeScope
  resolving_eq : s.resolving = p.resolving
  resolved_eq : s.resolved = p.resolved
  coercions : p.coercions <:+ s.coercions
  table : p.table.Extends s.table
  scope_frame_eq : ∀ id : ScopeId, id.index < p.terms.size → s.terms.frame id = p.terms.frame id
  typeScope_frame_eq : ∀ id : ScopeId, id.index < p.space.scopes.size →
    s.space.scopes.frame id = p.space.scopes.frame id
  placeholder_eq : ∀ id : PlaceholderId, id.index < p.placeholders.size →
    s.placeholder id = { p.placeholder id with cyclic := (s.placeholder id).cyclic }
  flagged : ∀ id, (s.placeholder id).cyclic = true → Cyclic a R (s.placeholder id).definition
  types_eq : ∀ x, ¬ p.Touches path [] x → s.types.lookup x = p.types.lookup x
  ofLocal_eq : ∀ x, ¬ p.Touches path [] x → s.ofLocal.lookup x = p.ofLocal.lookup x

/-- The state that a local is asked for in once more, after an attempt has been taken back. -/
def resumed (p q : Pass) : Pass :=
  { takenBack p q with resolving := p.resolving, scope := p.scope, typeScope := p.typeScope }

section

variable {a : Arena} {R D V X : Tree} {base : Nat} {p p' q : Pass} {path around : List Tree}
  {region : NodeId → Prop} {id : PlaceholderId} {scope : ScopeId}

theorem Tidy.completes (h : p.Tidy R) (h' : p.Completes R.Ungrouped p') : p'.Tidy R :=
  ⟨h'.valued h.valued, h'.conflicts h.conflicts_eq⟩

/-- As long as the frames that there were stay, names mean there what they meant. -/
theorem Scoped.get?_eq (h : Scoped a p path scope) {terms : Scopes Variable}
    (hframes : ∀ id : ScopeId, id.index < p.terms.size → terms.frame id = p.terms.frame id)
    (name : String) : terms.get? scope name = p.terms.get? scope name := by
  suffices hsteps : ∀ steps, terms.getWithin? name steps scope = p.terms.getWithin? name steps scope
    from hsteps _
  intro steps
  induction h generalizing steps with
  | root lt parent _ =>
    cases steps with
    | zero => rfl
    | succ steps => simp only [Scopes.getWithin?, Scopes.here?, Scopes.parent, hframes _ lt, parent]
  | plain _ _ _ ih => exact ih steps
  | block _ lt _ parent _ _ ih | handler _ lt _ parent _ _ _ ih =>
    cases steps with
    | zero => rfl
    | succ steps =>
      simp only [Scopes.getWithin?, Scopes.here?, Scopes.parent, hframes _ lt, parent, ih steps]

/-- Asking for the local again leads to where its value is typed. -/
theorem Advances.opened_resumed (h : (p.opened id).Advances path region q)
    (hlt : id.index < p.placeholders.size) :
    (p.resumed q).opened id = takenBack (p.opened id) q := by
  have hplaceholder : (takenBack p q).placeholder id =
      { p.placeholder id with cyclic := (q.placeholder id).cyclic } := h.placeholder_takenBack hlt
  have hscope : q.scope = (p.placeholder id).scope := h.scope_eq
  have htypeScope : q.typeScope = (p.placeholder id).typeScope := h.typeScope_eq
  have hresolving : q.resolving = id :: p.resolving := h.resolving_eq
  change { takenBack p q with
    resolving := id :: p.resolving
    scope := ((takenBack p q).placeholder id).scope
    typeScope := ((takenBack p q).placeholder id).typeScope } = takenBack p q
  rw [hplaceholder, ← hscope, ← htypeScope, ← hresolving]
  rfl

/-- Taking an attempt at a local back undoes all that the place it is asked for at depends on. -/
theorem Enters.resumes (h : p.Enters a R base path D around id q)
    (hadv : (p.opened id).Advances (D :: around) region q) (hp : p.Tidy R)
    (hq : p.Completes R.Ungrouped q) : p.Resumes a R path (p.resumed q) := by
  obtain ⟨hlog, hescapes, hbreaks, hchecker⟩ := hq.takenBack_eq
  obtain ⟨recent, hresolved, -⟩ := hadv.resolved
  exact {
    log_eq := hlog
    checker_eq := by
      refine hchecker.trans ?_
      rw [hq.conflicts hp.conflicts_eq, ← hp.conflicts_eq]
    escapes_eq := hescapes
    breaks_eq := hbreaks
    scope_eq := rfl
    typeScope_eq := rfl
    resolving_eq := rfl
    resolved_eq := by
      have hresolved : q.resolved = recent ++ p.resolved := hresolved
      simp [resumed, takenBack, hresolved]
    coercions := hq.coercions
    table := h.grows.table
    scope_frame_eq := h.grows.frame_eq
    typeScope_frame_eq := hq.frame_eq
    placeholder_eq := fun other hother => by
      have hplaceholder : (takenBack p q).placeholder other =
          { p.placeholder other with cyclic := (q.placeholder other).cyclic } :=
        hadv.placeholder_takenBack hother
      exact hplaceholder.trans (by rw [← congrArg Placeholder.cyclic hplaceholder]; rfl)
    flagged := fun other hother => by
      have hplaceholder := q.placeholder_forget
        (q.resolved.take (q.resolved.length - p.resolved.length)) other
      refine (congrArg (Cyclic a R) (congrArg Placeholder.definition hplaceholder)).mpr ?_
      exact h.stands.flagged other ((congrArg Placeholder.cyclic hplaceholder).symm.trans hother)
    types_eq := h.grows.types_eq
    ofLocal_eq := h.grows.ofLocal_eq }

end

end Pass

namespace Typing

variable {a : Arena} {R D V X : Tree} {base : Nat} {p : Pass} {path around : List Tree}
  {id : PlaceholderId} {entered : List NodeId} {compute : NodeId → Typing TypeId}

theorem valueType_none (v : NodeId) : valueType a compute (some v) none = compute v := bind_pure _

/-- Finding the type of a local whose value asks for it. -/
theorem resolveNow_retries (h : p.Awaits a R base path D around id) (hR : a.Ready R)
    (hX : R.Within path X) (hp : p.Tidy R) (hV : V ∈ D.expressions)
    (hundeclared : a.types D.id = [])
    (hcompute : Computes a R base entered compute) (hentered : ∀ x ∈ entered, ¬ p.Touches path [] x)
    (hall : CompletesAll R.Ungrouped compute)
    (hcyclic : After (compute V.id) (p.opened id) fun _ q => (q.placeholder id).cyclic = true) :
    ∃ s found q, p.Resumes a R path s ∧
      compute V.id (marked a D.id (p.placeholder id).name (s.opened id) id) = .ok (found, q) ∧
      (marked a D.id (p.placeholder id).name (s.opened id) id).Completes R.Ungrouped q ∧
      resolveNow a compute id p = .ok (.anything, closed p q id .anything) := by
  have hfor := h.isFor hR
  obtain ⟨W, hW⟩ := h.expressions_eq hR
  obtain rfl : V = W := List.mem_singleton.mp (hW ▸ hV)
  have hvalue : (p.placeholder id).value = some V.id := by
    rw [hfor.value_eq, hW]
    rfl
  have hdeclared : (p.placeholder id).declared = none := (h.declared_iff hR).mpr hundeclared
  have hplace := h.place hR hV
  have hungrouped : R.Ungrouped V.id := ⟨_, V, hplace.1, rfl, hplace.2.1⟩
  -- the first attempt
  have hfirst : Ends (valueType a compute (some V.id) none) (p.opened id) _ :=
    (h.opened hR).valueType_ends h hR hX hcompute hentered hV nofun
  rw [valueType_none] at hfirst
  obtain ⟨found₁, q₁, hrun₁, hadv₁, henters₁, -⟩ := ends_iff.mp hfirst
  have hflagged := hcyclic _ _ hrun₁
  have hopened := completes_opened (P := R.Ungrouped) p id
  have hcompletes₁ := hopened.trans (hall _ _ (hp.completes hopened).valued hungrouped _ _ hrun₁)
  have hback : (p.resumed q₁).opened id = takenBack (p.opened id) q₁ := hadv₁.opened_resumed hfor.lt
  -- the second attempt
  have hretried := henters₁.retried h hR hX hV hadv₁ hflagged (p.placeholder id).name
  have hsecond : Ends (valueType a compute (some V.id) none) _ _ :=
    hretried.valueType_ends h hR hX hcompute hentered hV nofun
  rw [valueType_none] at hsecond
  obtain ⟨found, q, hrun, -⟩ := ends_iff.mp hsecond
  have hmarked := hcompletes₁.takenBack.trans
    (completes_marked a D.id (p.placeholder id).name (takenBack p q₁) id)
  refine ⟨p.resumed q₁, found, q, henters₁.resumes hadv₁ hp hcompletes₁, ?_, ?_, ?_⟩
  · rw [hback]
    exact hrun
  · rw [hback]
    exact hall _ _ (hmarked.valued hp.valued) hungrouped _ _ hrun
  · obtain ⟨type, p', hresolve, -⟩ := ends_iff.mp (h.resolveNow_ends hR hX hcompute hentered)
    have hshape : After (resolveNow a compute id) p fun type p' =>
        type = .anything ∧ p' = closed p q id .anything := by
      rw [after_resolveNow_iff, hvalue, hdeclared, hfor.definition_eq, valueType_none]
      intro found' q' hrun'
      cases hrun₁.symm.trans hrun'
      rw [hflagged]
      intro found' q' hrun'
      cases hrun.symm.trans hrun'
      exact ⟨rfl, rfl⟩
    obtain ⟨rfl, rfl⟩ := hshape _ _ hresolve
    exact hresolve

/-- A local without a declared type whose value asks for its own type may be anything. What is
found is what typing the value once finds, from a state where everything that the local can see is
as it was and the local has been reported: the problems of that follow the report, and its exits and
verdicts are added to those that there were. -/
theorem resolveNow_of_cyclic (hR : a.Ready R) (h : p.Awaits a R base path D around id)
    (hX : R.Within path X) (hp : p.Tidy R) (hV : V ∈ D.expressions)
    (hundeclared : a.types D.id = [])
    (options : TypingOptions) {steps : Nat} (hsteps : R.ids.length ≤ steps)
    (hcyclic : After (computeWithin a options steps V.id) (p.opened id) fun _ q =>
      (q.placeholder id).cyclic = true) :
    ∃ s found q errors, p.Resumes a R path s ∧
      (∀ name, s.terms.get? (s.opened id).scope name = p.terms.get? (p.opened id).scope name) ∧
      computeWithin a options steps V.id (marked a D.id (p.placeholder id).name (s.opened id) id) =
        .ok (found, q) ∧
      resolveNow a (computeWithin a options steps) id p =
        .ok (.anything, closed p q id .anything) ∧
      q.log.toList = p.log.toList ++
        ⟨.recursiveDefinition (p.placeholder id).name, D.id, a.span D.id⟩ :: errors ∧
      p.escapes <+: q.escapes ∧ p.breaks <+: q.breaks ∧ p.checker.Retains q.checker := by
  obtain ⟨s, found, q, hresumes, hrun, hcompletes, hresolve⟩ := resolveNow_retries h hR hX hp hV
    hundeclared (hR.computeWithin_computes options hsteps) nofun
    (computeWithin_completes hR.orderly options steps) hcyclic
  have hlt := (h.isFor hR).lt
  have hnames : ∀ name, s.terms.get? (s.opened id).scope name =
      p.terms.get? (p.opened id).scope name := by
    have hscope : (s.placeholder id).scope = (p.placeholder id).scope := by
      rw [hresumes.placeholder_eq id hlt]
    rw [opened, hscope]
    exact (h.frames hR).get?_eq hresumes.scope_frame_eq
  obtain ⟨errors, hlog⟩ := hcompletes.log
  have hmarked : (marked a D.id (p.placeholder id).name (s.opened id) id).log =
      p.log.report a D.id (.recursiveDefinition (p.placeholder id).name) :=
    congrArg (fun log : Log => log.report a D.id _) hresumes.log_eq
  refine ⟨s, found, q, errors, hresumes, hnames, hrun, hresolve, ?_, ?_, ?_, ?_⟩
  · rw [hlog, hmarked, Log.toList_report, List.append_assoc]
    rfl
  · exact hresumes.escapes_eq ▸ hcompletes.escapes
  · exact hresumes.breaks_eq ▸ hcompletes.breaks
  · exact hresumes.checker_eq ▸ hcompletes.checker

/-- A local whose value uses a name that means nothing before it uses the local itself: `let x = [y x]`
in a block. -/
def againArena : Arena where
  nodes := #[
    { form := .expr (.reference "y"), span := default, parent := some ⟨2⟩ },
    { form := .expr (.reference "x"), span := default, parent := some ⟨2⟩ },
    { form := .expr .array, span := default, children := [⟨0⟩, ⟨1⟩], parent := some ⟨3⟩ },
    { form := .expr (.localDef "x" false), span := default, children := [⟨2⟩], parent := some ⟨4⟩ },
    { form := .expr .locals, span := default, children := [⟨3⟩], parent := some ⟨5⟩ },
    { form := .expr .block, span := default, children := [⟨4⟩] }]

-- What the first attempt reports is taken back, and is reported once after all by the second one.
example : (match check againArena {} ⟨5⟩ .empty with
    | .ok (_, log) => decide (log.toList.map (·.problem) =
        [.recursiveDefinition "x", .unresolvedName "y"])
    | .error _ => false) = true := by decide +kernel

/-- A local with a local among the parts of its value, where none may be: an array of `x`, the local
itself and `let x = 1`. -/
def strayArena : Arena where
  nodes := #[
    { form := .expr (.reference "x"), span := default, parent := some ⟨5⟩ },
    { form := .expr (.reference "a"), span := default, parent := some ⟨5⟩ },
    { form := .expr (.constant ⟨.number 10, "1"⟩), span := default, parent := some ⟨3⟩ },
    { form := .expr (.localDef "x" false), span := default, children := [⟨2⟩], parent := some ⟨4⟩ },
    { form := .expr .locals, span := default, children := [⟨3⟩], parent := some ⟨5⟩ },
    { form := .expr .array, span := default, children := [⟨0⟩, ⟨1⟩, ⟨4⟩], parent := some ⟨6⟩ },
    { form := .expr (.localDef "a" false), span := default, children := [⟨5⟩], parent := some ⟨7⟩ },
    { form := .expr .locals, span := default, children := [⟨6⟩], parent := some ⟨8⟩ },
    { form := .expr .block, span := default, children := [⟨7⟩] }]

-- Names are not taken back: what the first attempt declares outside of a block is known to the
-- second one, which has nothing to report about `x`.
example : (match check strayArena {} ⟨8⟩ .empty with
    | .ok (typed, log) => log.toList.map (·.problem) = [.recursiveDefinition "a"] &&
        typed.typeOf? ⟨0⟩ = some .number
    | .error _ => false) = true := by decide +kernel

end Typing

end MessageLang
