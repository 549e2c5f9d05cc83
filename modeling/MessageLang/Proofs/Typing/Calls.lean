import MessageLang.Proofs.Typing.Returning

namespace MessageLang

open Pass

namespace Typing

/-- What a step comes to hangs on what is found at a node from a certain state: with another way to
find types that differs there and nowhere else, it comes to something else. -/
def Consults {α : Type} (step : (NodeId → Typing TypeId) → Except Fault α)
    (compute : NodeId → Typing TypeId) (node : NodeId) (p : Pass) : Prop :=
  ∃ compute' : NodeId → Typing TypeId,
    (∀ n q, (n, q) ≠ (node, p) → compute' n q = compute n q) ∧ step compute' ≠ step compute

/-- Typing a tree, which may go to a certain depth, comes to a node in a certain state, and may go so
many steps deeper from there. -/
inductive Called (a : Arena) (options : TypingOptions) (bound : Nat) (root : NodeId) (start : Pass) :
    Nat → NodeId → Pass → Prop
  | root : Called a options bound root start bound root start
  | part {steps : Nat} {node other : NodeId} {form : ExprForm} {p q : Pass}
      (called : Called a options bound root start (steps + 1) node p)
      (form_eq : a.expr? node = some form)
      (consults : Consults (fun compute => ofForm a options compute node form p)
        (computeWithin a options steps) other q) :
      Called a options bound root start steps other q

section

variable {α : Type} {step : (NodeId → Typing TypeId) → Except Fault α}
  {compute : NodeId → Typing TypeId} {a : Arena} {options : TypingOptions} {log : Log}
  {root node other : NodeId} {form : ExprForm} {start p q : Pass} {bound steps : Nat}

open Classical in
/-- A step that cannot get past a fault there does come there. -/
theorem Consults.of_fault
    (h : ∀ compute fault, compute node p = .error fault → step compute = .error fault) :
    Consults step compute node p := by
  -- of two faults one at least is not what the step comes to as it is
  obtain ⟨fault, hfault⟩ : ∃ fault : Fault, step compute ≠ .error fault := by
    by_cases heq : step compute = .error .unending
    · exact ⟨.attached, by rw [heq]; simp⟩
    · exact ⟨.unending, heq⟩
  refine ⟨fun n q => if (n, q) = (node, p) then .error fault else compute n q,
    fun n q hne => if_neg hne, ?_⟩
  rw [h _ fault (if_pos rfl)]
  exact hfault.symm

theorem calm_started {print : TypeId} {t : TypeTable} : (started options log print t).Calm where
  conflicts_eq := rfl
  found_iff id _ := by
    rw [placeholder_started]
    exact iff_of_false (by simp [default, instInhabitedPlaceholder.default]) List.not_mem_nil
  nodup := List.nodup_nil
  pending_lt id entry hentry other hother := by
    rw [frame_started id entry hentry] at hother
    cases hother
  local_lt _ h := nomatch h

theorem calm_start (hstart : Pass.start options log = .ok start) : start.Calm := by
  obtain ⟨print, t, hstarted, -⟩ := Pass.start_eq options log
  cases hstart.symm.trans hstarted
  exact calm_started

/-- From a calm state a rule comes to calm states only, since what is found in others has no say in
it. -/
theorem Consults.calm (hp : p.Calm) (h : Consults (fun compute => ofForm a options compute node form p)
    (computeWithin a options steps) other q) : q.Calm := by
  obtain ⟨compute', hsame, hne⟩ := h
  by_contra hq
  have hcompute : ∀ n, Restoring (computeWithin a options steps n) (compute' n) := by
    intro n r hr
    have heq : compute' n r = computeWithin a options steps n r :=
      hsame n r fun h => hq ((Prod.mk.inj h).2 ▸ hr)
    exact ⟨heq.symm, (computeWithin_restoring a options steps n r hr).2⟩
  exact hne (ofForm_restoring hcompute form p hp).1.symm

theorem Called.calm (hstart : Pass.start options log = .ok start)
    (h : Called a options bound root start steps node p) : p.Calm := by
  induction h with
  | root => exact calm_start hstart
  | part _ _ hconsults ih => exact hconsults.calm ih

/-- A rule that ends comes to no node that it does not come back from. -/
theorem Consults.exists_eq_ok {result : TypeId × Pass}
    (hrun : ofForm a options compute node form p = .ok result)
    (h : Consults (fun compute => ofForm a options compute node form p) compute other q) :
    ∃ type p', compute other q = .ok (type, p') := by
  obtain ⟨compute', hsame, hne⟩ := h
  cases hother : compute other q with
  | ok found => exact ⟨found.1, found.2, rfl⟩
  | error fault =>
    have hfollows : ∀ n, Follows (compute n) (compute' n) := by
      intro n r found hfound
      rwa [hsame n r]
      rintro ⟨⟩
      rw [hother] at hfound
      cases hfound
    exact absurd ((ofForm_follows hfollows node form p result hrun).trans hrun.symm) hne

/-- If typing a tree ends, it comes back from every node that it comes to. -/
theorem Called.exists_eq_ok {result : TypeId × Pass}
    (hrun : computeWithin a options bound root start = .ok result)
    (h : Called a options bound root start steps node p) :
    ∃ type p', computeWithin a options steps node p = .ok (type, p') := by
  induction h with
  | root => exact ⟨result.1, result.2, hrun⟩
  | @part steps node other form p q _ hform hconsults ih =>
    obtain ⟨type, p', hnode⟩ := ih
    rw [computeWithin, hform] at hnode
    dsimp only at hnode
    cases hmade : ofForm a options (computeWithin a options steps) node form p with
    | ok made => exact hconsults.exists_eq_ok hmade
    | error fault =>
      simp only [Bind.bind, StateT.bind, hmade, Except.bind] at hnode
      cases hnode

end

end Typing

open Typing

/-- Wherever typing a tree comes to, it comes back from any node to where it stood, with the frames, the
stack of what is being found and the progress of that as they were, nothing else in progress, all
conflicts reported, and problems and exits only added. Where locals stand in blocks it does come back
from all that it comes to. -/
theorem Typing.Called.compute_restores {a : Arena} {options : TypingOptions} {log : Log} {start p : Pass}
    {root node : NodeId} {bound steps : Nat} (hstart : Pass.start options log = .ok start)
    (hcalled : Called a options bound root start steps node p) :
    (∀ depth other type p', computeWithin a options depth other p = .ok (type, p') → p.Restored p') ∧
      ∀ R : Tree, a.Ready R → R.id = root → R.ids.length ≤ bound →
        ∃ type p', computeWithin a options steps node p = .ok (type, p') ∧ p.Restored p' := by
  have hrestored : ∀ depth other type p',
      computeWithin a options depth other p = .ok (type, p') → p.Restored p' := by
    intro depth other type p' hrun
    have hreturns := computeWithin_restoring a options depth other p (hcalled.calm hstart)
    exact (hreturns.2 type p' hrun).restored
  refine ⟨hrestored, ?_⟩
  rintro R hR rfl hbound
  obtain ⟨print, t, hstarted, hsound⟩ := Pass.start_eq options log
  cases hstart.symm.trans hstarted
  obtain ⟨type, p', hrun, -⟩ := ends_iff.mp
    (hR.computeApart_ends options (started_stands a R hsound) rfl rfl)
  obtain ⟨type, p', hnode⟩ := hcalled.exists_eq_ok (computeApart_follows hbound _ _ hrun)
  exact ⟨type, p', hnode, hrestored steps node type p' hnode⟩

/-- A fault in a step is one of what the step is part of. -/
theorem bind_eq_error {α β : Type} {made : Except Fault α} {fault : Fault} (h : made = .error fault)
    (next : α → Except Fault β) : Except.bind made next = .error fault := by
  rw [h]
  rfl

/-- The state in which the value of the only local is typed. -/
def selfOpened (start : Pass) : Pass :=
  (start.pushed.withLocal selfLocal "x" false none).opened ⟨0⟩

/-- A local whose value is the local itself is typed while its type is being found. -/
theorem called_selfOpened (options : TypingOptions) (log : Log) (print : TypeId) (t : TypeTable)
    (bound : Nat) : Called selfArena options (bound + 1) selfTree.id (started options log print t)
      bound ⟨0⟩ (selfOpened (started options log print t)) := by
  have hform : selfArena.expr? selfTree.id = some .block := rfl
  refine .part .root hform (.of_fault fun compute fault h => ?_)
  let declared : Pass := (started options log print t).pushed.withLocal selfLocal "x" false none
  have hvalue : valueType selfArena compute (some ⟨0⟩) none (declared.opened ⟨0⟩) = .error fault :=
    bind_eq_error h _
  have hlocal : resolveNow selfArena compute ⟨0⟩ declared = .error fault := bind_eq_error hvalue _
  have hgroup : defineLocals selfArena compute ⟨2⟩ declared = .error fault :=
    bind_eq_error (bind_eq_error hlocal _) _
  have hitems : itemsFrom selfArena options compute ⟨false, false⟩ .nothing [⟨2⟩] declared =
      .error fault := bind_eq_error hgroup _
  exact bind_eq_error hitems _

theorem compute_restores_selfOpened : ∃ start, Pass.start {} .empty = .ok start ∧
    Called selfArena {} (depthBound selfArena) selfTree.id start 24 ⟨0⟩ (selfOpened start) ∧
    (selfOpened start).resolving = [⟨0⟩] ∧ selfArena.Ready selfTree ∧
    selfTree.ids.length ≤ depthBound selfArena ∧
    (∀ depth other type p', computeWithin selfArena {} depth other (selfOpened start) = .ok (type, p') →
      (selfOpened start).Restored p') ∧
    ∃ type p', computeWithin selfArena {} 24 ⟨0⟩ (selfOpened start) = .ok (type, p') ∧
      (selfOpened start).Restored p' := by
  obtain ⟨print, t, hstart, -⟩ := Pass.start_eq {} .empty
  have hcalled := called_selfOpened {} .empty print t 24
  have hbound : selfTree.ids.length ≤ depthBound selfArena := by decide
  obtain ⟨hevery, hready⟩ := hcalled.compute_restores hstart
  exact ⟨_, hstart, hcalled, rfl, ready_selfTree, hbound, hevery,
    hready selfTree ready_selfTree rfl hbound⟩

end MessageLang
