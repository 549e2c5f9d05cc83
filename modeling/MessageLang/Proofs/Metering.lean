import MessageLang.Proofs.Outcome
import Mathlib.Algebra.BigOperators.Group.List.Basic
import Mathlib.Algebra.Ring.Nat

namespace MessageLang

/-- A number that states have, and what else changes that are measured by it are to keep. -/
structure Meter (σ : Type) where
  amount : σ → Nat
  Keeps : σ → σ → Prop
  refl : ∀ s, Keeps s s
  trans : ∀ {s s' s''}, Keeps s s' → Keeps s' s'' → Keeps s s''

namespace Meter

variable {σ α β : Type} {M : Meter σ} {s s' s'' : σ} {n m : Nat}

/-- A change by which the number grows by no more than another one. -/
structure Grows (M : Meter σ) (s : σ) (n : Nat) (s' : σ) : Prop where
  keeps : M.Keeps s s'
  amount_le : M.amount s' ≤ M.amount s + n

/-- A step by which it does, wherever the step is taken. -/
def Costs (M : Meter σ) (step : StateT σ (Except Fault) α) (n : Nat) : Prop :=
  ∀ s, After step s fun _ s' => M.Grows s n s'

theorem Grows.refl (M : Meter σ) (s : σ) : M.Grows s 0 s := ⟨M.refl s, Nat.le_refl _⟩

theorem Grows.trans (h : M.Grows s n s') (h' : M.Grows s' m s'') : M.Grows s (n + m) s'' :=
  ⟨M.trans h.keeps h'.keeps, by
    have hle := h.amount_le
    have hle' := h'.amount_le
    omega⟩

theorem Grows.mono (h : M.Grows s n s') (hle : n ≤ m) : M.Grows s m s' :=
  ⟨h.keeps, Nat.le_trans h.amount_le (Nat.add_le_add_left hle _)⟩

namespace Costs

variable {step : StateT σ (Except Fault) α} {next : α → StateT σ (Except Fault) β}

theorem mono (h : M.Costs step n) (hle : n ≤ m) : M.Costs step m := fun s =>
  (h s).mono fun _ _ h' => h'.mono hle

/-- A step after others. -/
theorem on (h : M.Costs step m) (hs : M.Grows s n s') :
    After step s' fun _ s'' => M.Grows s (n + m) s'' :=
  (h s').mono fun _ _ => hs.trans

theorem pure (x : α) : M.Costs (pure x : StateT σ (Except Fault) α) 0 := fun s =>
  after_pure_iff.mpr (.refl M s)

theorem throw (fault : Fault) : M.Costs (throw fault : StateT σ (Except Fault) α) n := fun _ =>
  after_throw

theorem bind (h : M.Costs step n) (hnext : ∀ x, M.Costs (next x) m) :
    M.Costs (step >>= next) (n + m) := fun s => (h s).bind fun x _ h' => (hnext x).on h'

/-- A step that costs nothing, and then another one. -/
theorem seq (h : M.Costs step 0) (hnext : ∀ x, M.Costs (next x) n) : M.Costs (step >>= next) n :=
  Nat.zero_add n ▸ h.bind hnext

/-- A step, and then another one that costs nothing. -/
theorem last (h : M.Costs step n) (hnext : ∀ x, M.Costs (next x) 0) : M.Costs (step >>= next) n :=
  h.bind hnext

theorem map (h : M.Costs step n) (f : α → β) : M.Costs (f <$> step) n := fun s =>
  after_map_iff.mpr (h s)

end Costs

theorem costs_get : M.Costs (get : StateT σ (Except Fault) σ) 0 := fun s =>
  after_get_iff.mpr (.refl M s)

theorem costs_modify {change : σ → σ} (h : ∀ s, M.Grows s n (change s)) :
    M.Costs (modify change : StateT σ (Except Fault) PUnit) n := fun s => after_modify_iff.mpr (h s)

variable {items : List α} {cost : α → Nat}

theorem costs_mapM {step : α → StateT σ (Except Fault) β}
    (h : ∀ x ∈ items, M.Costs (step x) (cost x)) :
    M.Costs (items.mapM step) (items.map cost).sum := by
  induction items with
  | nil => exact .pure _
  | cons x items ih =>
    obtain ⟨hx, hitems⟩ := List.forall_mem_cons.mp h
    rw [List.mapM_cons, List.map_cons, List.sum_cons]
    exact hx.bind fun _ => (ih hitems).last fun _ => .pure _

theorem costs_forM {step : α → StateT σ (Except Fault) PUnit}
    (h : ∀ x ∈ items, M.Costs (step x) (cost x)) :
    M.Costs (items.forM step) (items.map cost).sum := by
  induction items with
  | nil => exact .pure _
  | cons x items ih =>
    obtain ⟨hx, hitems⟩ := List.forall_mem_cons.mp h
    rw [List.map_cons, List.sum_cons]
    exact hx.bind fun _ => ih hitems

theorem costs_forIn {step : α → PUnit → StateT σ (Except Fault) (ForInStep PUnit)}
    (h : ∀ x ∈ items, M.Costs (step x ⟨⟩) (cost x)) :
    M.Costs (forIn items PUnit.unit step) (items.map cost).sum := by
  induction items with
  | nil => exact .pure _
  | cons x items ih =>
    obtain ⟨hx, hitems⟩ := List.forall_mem_cons.mp h
    rw [List.forIn_cons, List.map_cons, List.sum_cons]
    refine hx.bind fun next => ?_
    cases next with
    | done => exact (Costs.pure _).mono (Nat.zero_le _)
    | yield => exact ih hitems

/-- A loop whose rounds cost nothing. -/
theorem costs_forIn_zero {step : α → PUnit → StateT σ (Except Fault) (ForInStep PUnit)}
    (h : ∀ x ∈ items, M.Costs (step x ⟨⟩) 0) : M.Costs (forIn items PUnit.unit step) 0 := by
  have hsum : (items.map fun _ => 0).sum = 0 := List.sum_eq_zero (by simp)
  exact hsum ▸ costs_forIn h

theorem costs_option {item? : Option α} {step : α → StateT σ (Except Fault) β}
    (h : ∀ x ∈ item?, M.Costs (step x) n) : M.Costs (item?.mapM step) n := by
  cases item? with
  | none => exact (Costs.pure _).mono (Nat.zero_le _)
  | some x =>
    rw [Option.mapM_some]
    exact (h x rfl).map some

end Meter

end MessageLang
