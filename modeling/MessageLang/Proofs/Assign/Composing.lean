import MessageLang.Proofs.Assign.Verdict

namespace MessageLang

open Checking

/-- A relation between steps that holds of two answers that are the same, and of steps that all have
to be met if it holds of each. -/
structure Sequences (Q : Checking Bool → Checking Bool → Prop) : Prop where
  pure : ∀ verdict, Q (pure verdict) (pure verdict)
  and : ∀ {step step' next next'}, Q step step' → Q next next' →
    Q (do if ← step then next else return false) (do if ← step' then next' else return false)

/-- A relation that holds of steps of which the second is tried where the first is not met. -/
def Branches (Q : Checking Bool → Checking Bool → Prop) : Prop :=
  ∀ {step step' next next'}, Q step step' → Q next next' →
    Q (do if ← step then return true else next) (do if ← step' then return true else next')

/-- A relation that holds of steps of which the second is tried where the first is not met, if a
type with one compound field takes what that field takes. -/
def Unwraps (Q : Checking Bool → Checking Bool → Prop) : Prop :=
  ∀ {step step' next next'}, Q step step' → Q next next' →
    Q (do if ← step then return true
          else if (← get).unwrapsSingleField then next else return false)
      (do if ← step' then return true
          else if (← get).unwrapsSingleField then next' else return false)

/-- A type with one field, which is compound itself, with the fields of that one. -/
def TypeTable.HasInside (t : TypeTable) (target : TypeId) : Prop :=
  ∃ only inner, t.fields? target = some [only] ∧ t.fields? only.type = some inner

namespace Checking

/-- Trying nothing after a step is the step. -/
theorem step_or_false (step : Checking Bool) :
    (do if ← step then return true else return false) = step := by
  conv_rhs => rw [← bind_pure step]
  congr 1
  funext verdict
  cases verdict <;> rfl

theorem compoundMatch_of_not_inside {t : TypeTable} {check : TypeId → TypeId → Checking Bool}
    {target source : TypeId} {fields : List Field} (hfields : t.fields? target = some fields)
    (h : ¬ t.HasInside target) :
    compoundMatch t check fields source =
      fieldsMatchFrom check fields [] (offeredFields t source) := by
  have hnone : ∀ unwraps, insideMatch check t fields source unwraps = pure false := by
    intro unwraps
    cases unwraps with
    | false => rfl
    | true =>
      rcases fields with _ | ⟨only, _ | ⟨second, rest⟩⟩
      · rfl
      · cases hf : t.fields? only.type with
        | none => simp [insideMatch, hf]
        | some inner => exact absurd ⟨only, inner, hfields, hf⟩ h
      · rfl
  rw [compoundMatch_eq]
  simp only [hnone]
  exact step_or_false _

theorem compoundMatch_of_inside {t : TypeTable} {check : TypeId → TypeId → Checking Bool}
    {source : TypeId} {only : Field} {inner : List Field} (h : t.fields? only.type = some inner) :
    compoundMatch t check [only] source = (do
      if ← fieldsMatchFrom check [only] [] (offeredFields t source) then return true
      else if (← get).unwrapsSingleField then
        fieldsMatchFrom check inner [] (offeredFields t source)
      else return false) := by
  have hinside : ∀ unwraps, insideMatch check t [only] source unwraps =
      if unwraps = true then fieldsMatchFrom check inner [] (offeredFields t source)
      else pure false := by
    intro unwraps
    cases unwraps with
    | false => rfl
    | true => simp [insideMatch, h]
  rw [compoundMatch_eq]
  simp only [hinside]

end Checking

section

variable {α : Type} {t : TypeTable} {P : TypeId → Prop} {Q : Checking Bool → Checking Bool → Prop}
  {check check' : TypeId → TypeId → Checking Bool} {target source : TypeId}

theorem allM_composes (hQ : Sequences Q) {items : List α} {test test' : α → Checking Bool}
    (h : ∀ x ∈ items, Q (test x) (test' x)) : Q (items.allM test) (items.allM test') := by
  induction items with
  | nil => exact hQ.pure true
  | cons x rest ih =>
    rw [allM_cons, allM_cons]
    exact hQ.and (h x List.mem_cons_self) (ih fun y hy => h y (List.mem_cons_of_mem _ hy))

/-- A single item is all there is to try, with no second one to go on with. -/
theorem anyM_composes (hQ : Sequences Q) {items : List α} (hor : 1 < items.length → Branches Q)
    {test test' : α → Checking Bool} (h : ∀ x ∈ items, Q (test x) (test' x)) :
    Q (items.anyM test) (items.anyM test') := by
  induction items with
  | nil => exact hQ.pure false
  | cons x rest ih =>
    have hx := h x List.mem_cons_self
    rw [anyM_cons, anyM_cons]
    cases rest with
    | nil =>
      rw [List.anyM_nil, List.anyM_nil, step_or_false, step_or_false]
      exact hx
    | cons y rest =>
      have hmore : 1 < (x :: y :: rest).length := by simp
      have hbranches : Branches Q := hor hmore
      exact hbranches hx (ih (fun _ => hbranches) fun z hz => h z (List.mem_cons_of_mem _ hz))

theorem fieldsMatchFrom_composes (hQ : Sequences Q)
    (hcheck : ∀ a b, P a → P b → Q (check a b) (check' a b)) {target given : List Field}
    (htarget : ∀ f ∈ target, P f.type) (hgiven : ∀ f ∈ given, P f.type) (taken : List Nat) :
    Q (fieldsMatchFrom check target taken given) (fieldsMatchFrom check' target taken given) := by
  induction given generalizing taken with
  | nil => exact hQ.pure _
  | cons f given ih =>
    simp only [fieldsMatchFrom]
    cases fieldIndex? target f with
    | none => exact hQ.pure false
    | some place =>
      by_cases htaken : place ∈ taken
      · simp only [htaken, if_true]
        exact hQ.pure false
      simp only [htaken, if_false]
      cases hwanted : target[place]? with
      | none => exact hQ.pure false
      | some wanted =>
        exact hQ.and (hcheck _ _ (htarget wanted (List.mem_of_getElem? hwanted)) (hgiven f (by simp)))
          (ih (fun g hg => hgiven g (by simp [hg])) (place :: taken))

variable (hclosed : ∀ id, P id → ∀ part ∈ (t.get id).components, P part)
  (hcheck : ∀ a b, P a → P b → Q (check a b) (check' a b)) (htarget : P target) (hsource : P source)

include hclosed hcheck htarget hsource

theorem handlersMatch_composes (hQ : Sequences Q) (hguards : (t.get target).handlers ≠ [] →
    1 < (t.get source).handlers.length → Branches Q) :
    Q (handlersMatch check (t.get target) (t.get source))
      (handlersMatch check' (t.get target) (t.get source)) := by
  rw [handlersMatch_eq, handlersMatch_eq]
  refine hQ.and (allM_composes hQ fun wanted hw => ?_) (allM_composes hQ fun wanted hw => ?_)
  · dsimp only
    cases hlookup : (t.get source).symbols.lookup wanted.1 with
    | none => exact hQ.pure false
    | some offered =>
      exact hcheck _ _ (hclosed _ htarget _ (TypeTable.answer_mem_components hw))
        (hclosed _ hsource _ (TypeTable.answer?_mem_components hlookup))
  · have hwanted := TypeTable.handler_mem_components hw
    refine anyM_composes hQ (hguards (List.ne_nil_of_mem hw)) fun offered ho => ?_
    have hoffered := TypeTable.handler_mem_components ho
    exact hQ.and (hcheck _ _ (hclosed _ hsource _ hoffered.1) (hclosed _ htarget _ hwanted.1))
      (hcheck _ _ (hclosed _ htarget _ hwanted.2) (hclosed _ hsource _ hoffered.2))

theorem compoundMatch_composes (hQ : Sequences Q) (hinside : t.HasInside target → Unwraps Q)
    {fields : List Field} (hfields : t.fields? target = some fields) :
    Q (compoundMatch t check fields source) (compoundMatch t check' fields source) := by
  have hmatch : ∀ {id : TypeId} {fields : List Field}, P id → t.fields? id = some fields →
      Q (fieldsMatchFrom check fields [] (offeredFields t source))
        (fieldsMatchFrom check' fields [] (offeredFields t source)) := fun hid hf =>
    fieldsMatchFrom_composes hQ hcheck
      (fun _ hmem => hclosed _ hid _ (TypeTable.field_mem_components hf hmem))
      (fun _ hmem => TypeTable.offered_of_closed hclosed hsource hmem) []
  by_cases hhas : t.HasInside target
  · have hunwraps : Unwraps Q := hinside hhas
    obtain ⟨only, inner, honly, hinner⟩ := hhas
    cases hfields.symm.trans honly
    have hpart := hclosed _ htarget _
      (TypeTable.field_mem_components hfields (List.mem_singleton_self only))
    rw [compoundMatch_of_inside hinner, compoundMatch_of_inside hinner]
    exact hunwraps (hmatch htarget hfields) (hmatch hpart hinner)
  · rw [compoundMatch_of_not_inside hfields hhas, compoundMatch_of_not_inside hfields hhas]
    exact hmatch htarget hfields

variable (check check') in
/-- What holds of the comparisons of parts holds of the comparison of two types: of steps that follow
each other in any case, of steps that are tried one after the other only where there is more than
one way to meet the demand. -/
theorem compareParts_composes (hQ : Sequences Q) (hguards : (t.get target).handlers ≠ [] →
    1 < (t.get source).handlers.length → Branches Q) (hinside : t.HasInside target → Unwraps Q) :
    Q (compareParts t check ⟨target, source⟩) (compareParts t check' ⟨target, source⟩) := by
  unfold compareParts
  split
  · exact handlersMatch_composes hclosed hcheck htarget hsource hQ hguards
  · next fields hshape =>
    exact compoundMatch_composes hclosed hcheck htarget hsource hQ hinside
      (TypeTable.fields?_eq_some_iff.mpr hshape)
  · exact hQ.pure false

end

end MessageLang
