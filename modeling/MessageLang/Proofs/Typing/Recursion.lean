import MessageLang.Proofs.Typing.Progress
import MessageLang.Proofs.Typing.Whole

namespace MessageLang

open MessageLang.Tree (Binds DependsOn)
open Pass Typing

section

variable {a : Arena} {R X D : Tree} {log : Log} {p : Pass} {path : List Tree} {name : String}
  {x y : NodeId}

namespace Pass.Finished

theorem answers_iff (h : p.Finished a R log) {id : PlaceholderId} {type : TypeId} :
    p.Answers id type ↔ (p.placeholder id).result = some type := by
  simp [Answers, h.resolving_eq]

/-- An expression that names a local has the type of the definition. -/
theorem lookup_eq (h : p.Finished a R log) (hX : R.Within path X) (huse : X.usedName? = some name)
    (hbinds : Binds a name path D) : ∃ type, p.types.lookup X.id = some type ∧
      p.types.lookup D.id = some type := by
  obtain ⟨type, htype, -, hagrees⟩ := h.settled hX
  obtain ⟨id, hid, hanswers, -⟩ := hagrees D (.inl ⟨name, huse, hbinds⟩)
  obtain ⟨inner, B, rest, G, rfl, -, hgroup, hlocal, hD⟩ := hbinds.visible.exists_within hX
  obtain ⟨type', htype', -, hagrees'⟩ := h.settled hD
  obtain ⟨id', hid', hanswers', -⟩ := hagrees' D (.inr ⟨rfl, G, B, rest, rfl, hgroup, hlocal⟩)
  cases hid.symm.trans hid'
  rw [h.answers_iff] at hanswers hanswers'
  cases hanswers.symm.trans hanswers'
  exact ⟨type, htype, htype'⟩

/-- What some local needs rests on locals that are declared or reported. -/
theorem grounded (h : p.Finished a R log) (hdepends : DependsOn a R x y) :
    Grounded a R (p.Safe a log.size) y := by
  obtain ⟨path, X, name, _, D, hX, huse, hbinds, rfl, -⟩ := hdepends
  obtain ⟨_, -, -, hagrees⟩ := h.settled hX
  obtain ⟨_, -, -, hgrounded⟩ := hagrees D (.inl ⟨name, huse, hbinds⟩)
  exact hgrounded

/-- No local is about to be reported any more. -/
theorem safe_iff (h : p.Finished a R log) :
    p.Safe a log.size x ↔ a.types x ≠ [] ∨ p.Blamed log.size x := by
  simp [Safe, h.resolving_eq]

end Pass.Finished

/-- Among locals each of which needs another one of them, what they rest on is among them. -/
theorem Grounded.exists_of_closed {safe : NodeId → Prop} {xs : List NodeId}
    (h : Grounded a R safe x) (hx : x ∈ xs) (hclosed : ∀ x ∈ xs, ∃ y ∈ xs, DependsOn a R x y) :
    ∃ y ∈ xs, safe y := by
  induction h with
  | safe h => exact ⟨_, hx, h⟩
  | uses _ ih =>
    obtain ⟨y, hy, hdepends⟩ := hclosed _ hx
    exact ih y hdepends hy

/-- Where each of some locals without a declared type needs another one of them, one is reported. -/
theorem Pass.Finished.exists_blamed (h : p.Finished a R log) {xs : List NodeId} (hne : xs ≠ [])
    (hclosed : ∀ x ∈ xs, ∃ y ∈ xs, DependsOn a R x y) (hundeclared : ∀ x ∈ xs, a.types x = []) :
    ∃ x ∈ xs, p.Blamed log.size x := by
  obtain ⟨x, hx⟩ := List.exists_mem_of_ne_nil xs hne
  obtain ⟨y, hy, hdepends⟩ := hclosed x hx
  obtain ⟨z, hz, hsafe⟩ := (h.grounded hdepends).exists_of_closed hy hclosed
  exact ⟨z, hz, (h.safe_iff.mp hsafe).resolve_left fun hdeclared => hdeclared (hundeclared z hz)⟩

end

/-- A local with a declared type cuts a cycle short where it is met while its own type is being found.
It is taken to be of the declared type there. Nothing is typed or reported for that, and no definition
turns out to be recursive. -/
theorem reference_of_declared {a : Arena} {R X D : Tree} {base : Nat} {p : Pass} {path : List Tree}
    {name : String} {id : PlaceholderId} (hR : a.Ready R) (hp : p.Stands a R base path)
    (hX : R.Within path X) (hbinds : Binds a name path D) (hdeclared : a.types D.id ≠ [])
    (hcurrent : p.current? D = some id) (hprogress : p.progress id = .inProgress)
    (compute : NodeId → Typing TypeId) : ∃ type, (p.placeholder id).declared = some type ∧
      reference a compute X.id name p = .ok (type, p) := by
  obtain ⟨_, _, hcurrent', hfor⟩ := hp.frames.visible hbinds.visible
  cases hcurrent.symm.trans hcurrent'
  obtain ⟨_, _, _, _, _, _, _, _, hD⟩ := hbinds.visible.exists_within hX
  have hsome : (p.placeholder id).declared ≠ none := fun hnone =>
    hdeclared ((hfor.declared_iff_types hR hD).mp hnone)
  obtain ⟨type, htype⟩ := Option.ne_none_iff_exists'.mp hsome
  have hget : ∀ next : Pass → Typing TypeId, (get >>= next) p = next p p := fun _ => rfl
  have hresolve : resolve a compute id p = .ok (type, p) := by
    rw [resolve_eq, hget, hprogress, htype]
    rfl
  refine ⟨type, htype, ?_⟩
  rcases hp.frames.get? name with ⟨E, other, mutable, hfound, hbinds', hother⟩ | ⟨hnot, -⟩
  · cases hbinds'.unique hbinds
    cases hcurrent.symm.trans hother
    rw [reference, hget, hfound]
    exact hresolve
  · exact absurd hbinds (hnot D)

/-- A definition is reported as recursive only if it has no declared type and needs itself. -/
theorem cyclic_of_recursiveDefinition {a : Arena} {R : Tree} (hR : a.Ready R)
    {options : TypingOptions} {log log' : Log} {typed : TypedTree}
    (hcheck : check a options R.id log = .ok (typed, log')) {r : Report}
    (hr : r ∈ log'.since log.size) {name : String} (hproblem : r.problem = .recursiveDefinition name) :
    a.types r.node = [] ∧ Relation.TransGen (DependsOn a R) r.node r.node := by
  obtain ⟨result, p, hrun, hfinished⟩ := hR.check_ends options log
  cases hcheck.symm.trans hrun
  exact hfinished.stands.blamed r.node ⟨r, hr, rfl, name, hproblem⟩

theorem cyclic_of_recursiveDefinition_selfTree : ∃ typed log' r,
    check selfArena {} selfTree.id .empty = .ok (typed, log') ∧ r ∈ log'.since Log.empty.size ∧
      r.problem = .recursiveDefinition "x" ∧ selfArena.types r.node = [] ∧
      Relation.TransGen (DependsOn selfArena selfTree) r.node r.node := by
  have hrun : (match check selfArena {} selfTree.id .empty with
      | .ok (_, log') => (log'.since Log.empty.size).any (·.problem = .recursiveDefinition "x")
      | .error _ => false) = true := by decide +kernel
  split at hrun
  · next typed log' hcheck =>
    obtain ⟨r, hr, hproblem⟩ := List.any_eq_true.mp hrun
    have hproblem := of_decide_eq_true hproblem
    exact ⟨typed, log', r, hcheck, hr, hproblem,
      cyclic_of_recursiveDefinition ready_selfTree hcheck hr hproblem⟩
  · cases hrun

end MessageLang
