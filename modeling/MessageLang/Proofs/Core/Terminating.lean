import MessageLang.Proofs.Core.Intact

namespace MessageLang

namespace Edit

section

variable {σ : Type}

/-- Nodes are replaced one after the other, from each of them down, as often as steps say. Nothing
bounds how many steps that are. -/
inductive Replaces (step : NodeId → StateT σ Edit (Option NodeId)) :
    List NodeId → σ × Arena → List NodeId → σ × Arena → Prop
  | nil {w : σ × Arena} : Replaces step [] w [] w
  | stays {id : NodeId} {next : Option NodeId} {rest below rest' : List NodeId} {s s₁ : σ}
      {a a₁ : Arena} {w w' : σ × Arena} (made : step id s a = .ok ((next, s₁), a₁))
      (same : next.getD id = id) (children : Replaces step (a₁.children id) (s₁, a₁) below w)
      (others : Replaces step rest w rest' w') :
      Replaces step (id :: rest) (s, a) (id :: rest') w'
  | turns {id : NodeId} {next : Option NodeId} {rest ids' : List NodeId} {s s₁ : σ}
      {a a₁ a₂ : Arena} {w : σ × Arena} (made : step id s a = .ok ((next, s₁), a₁))
      (other : next.getD id ≠ id) (put : replace id (next.getD id) a₁ = .ok ((), a₂))
      (again : Replaces step (next.getD id :: rest) (s₁, a₂) ids' w) :
      Replaces step (id :: rest) (s, a) ids' w

variable {step : NodeId → StateT σ Edit (Option NodeId)} {id id' : NodeId}
  {ids ids' ids'' rest rest' : List NodeId} {w w' w'' : σ × Arena}

theorem Replaces.cons (head : Replaces step [id] w [id'] w') (tail : Replaces step rest w' rest' w'') :
    Replaces step (id :: rest) w (id' :: rest') w'' := by
  generalize hone : [id] = one at head
  generalize hone' : [id'] = one' at head
  induction head generalizing id id' with
  | nil => cases hone
  | stays made same children others _ _ =>
    cases hone
    cases hone'
    cases others
    exact .stays made same children tail
  | turns made other put _ ih =>
    cases hone
    exact .turns made other put (ih tail rfl hone')

/-- What replacing comes to depends on nothing but where it starts. -/
theorem Replaces.unique (h : Replaces step ids w ids' w') (h' : Replaces step ids w ids'' w'') :
    ids' = ids'' ∧ w' = w'' := by
  induction h generalizing ids'' w'' with
  | nil =>
    cases h'
    exact ⟨rfl, rfl⟩
  | stays made same _ _ ihchildren ihothers =>
    cases h' with
    | stays made' same' children' others' =>
      cases made.symm.trans made'
      obtain ⟨rfl, rfl⟩ := ihchildren children'
      obtain ⟨rfl, rfl⟩ := ihothers others'
      exact ⟨rfl, rfl⟩
    | turns made' other' _ _ =>
      cases made.symm.trans made'
      exact absurd same other'
  | turns made other put _ ih =>
    cases h' with
    | stays made' same' _ _ =>
      cases made.symm.trans made'
      exact absurd same' other
    | turns made' _ put' again' =>
      cases made.symm.trans made'
      cases put.symm.trans put'
      exact ih again'

/-- A budget that suffices has no say in what is done within it. -/
theorem replaceAllWithin_replaces (budget : Nat) (id : NodeId) (s : σ) (a : Arena) :
    After (replaceAllWithin step budget id s) a fun p a' =>
      Replaces step [id] (s, a) [p.1] (p.2, a') := by
  induction budget generalizing id s a with
  | zero => exact after_throw_apply
  | succ budget ih =>
    have hall : ∀ (ids : List NodeId) (s : σ) (a : Arena),
        After ((forIn ids PUnit.unit fun child _ => do
          let _ ← replaceAllWithin step budget child
          pure (ForInStep.yield PUnit.unit) : StateT σ Edit PUnit) s) a fun p a' =>
            ∃ ids', Replaces step ids (s, a) ids' (p.2, a') := by
      intro ids
      induction ids with
      | nil => exact fun s a => after_pure_apply_iff.mpr ⟨[], .nil⟩
      | cons child rest ihrest =>
        intro s a
        simp only [List.forIn_cons, bind_assoc, pure_bind, after_bind_apply_iff]
        refine (ih child s a).mono fun p a₁ hchild => ?_
        refine (ihrest p.2 a₁).mono ?_
        rintro q a₂ ⟨rest', hrest⟩
        exact ⟨p.1 :: rest', hchild.cons hrest⟩
    have hmade : After (step id s) a fun p a₁ => step id s a = .ok (p, a₁) := fun _ _ hrun => hrun
    simp only [replaceAllWithin, after_bind_apply_iff]
    refine hmade.mono ?_
    rintro ⟨next, s₁⟩ a₁ hmade
    split
    · next hsame =>
      simp only [after_bind_apply_iff, after_get_inner_iff, after_pure_apply_iff]
      refine (hall _ s₁ a₁).mono ?_
      rintro p a₂ ⟨below, hbelow⟩
      exact .stays hmade hsame hbelow .nil
    · next hother =>
      have hput : After (replace id (next.getD id)) a₁ fun r a₂ =>
        replace id (next.getD id) a₁ = .ok (r, a₂) := fun _ _ hrun => hrun
      simp only [after_bind_apply_iff, after_lift_apply_iff]
      refine hput.mono fun _ a₂ hput => ?_
      exact (ih _ s₁ a₂).mono fun p a₃ hagain => .turns hmade hother hput hagain

end

end Edit

open Arena Edit

/-- Lowering any tree of an arena ends although nothing bounds its steps: what a loop is turned into
holds its condition twice, and all of it is gone through again. A budget of six for each node of the
arena is never used up. -/
theorem Arena.Forest.lower_terminates {a : Arena} {root : NodeId} (h : a.Forest)
    (hroot : root.index < a.size) (stem : String) (log : Log) :
    ∃ (result : NodeId) (s' : Lowering) (a' : Arena),
      lower stem root log a = .ok ((result, s'.log), a') ∧
      Replaces Lowering.step [root] (⟨log, Temporaries.ofTree a root stem⟩, a) [result] (s', a') ∧
      ∀ budget, 6 * a.size ≤ budget →
        replaceAllWithin Lowering.step budget root ⟨log, Temporaries.ofTree a root stem⟩ a =
          .ok ((result, s'), a') := by
  obtain ⟨T, path, before, after, rfl, hheld, hunder, hsite⟩ := h.exists_place hroot
  have heffort : T.effort ≤ 6 * a.size :=
    T.effort_le_length.trans (Nat.mul_le_mul_left 6 (hheld.length_ids_le (h.nodup_ids hheld)))
  -- within any budget that large the run ends, and without a budget it is the same run
  have hruns : ∀ budget, 6 * a.size ≤ budget → ∃ result s' a',
      replaceAllWithin Lowering.step budget T.id ⟨log, Temporaries.ofTree a T.id stem⟩ a =
        .ok ((result, s'), a') ∧
      Replaces Lowering.step [T.id] (⟨log, Temporaries.ofTree a T.id stem⟩, a) [result] (s', a') := by
    intro budget hbudget
    obtain ⟨p, a', hrun, _⟩ :=
      ends_iff.mp (lowersWithin_of_effort_le (heffort.trans hbudget) hheld hunder hsite)
    exact ⟨p.1, p.2, a', hrun, replaceAllWithin_replaces budget T.id _ a p a' hrun⟩
  obtain ⟨result, s', a', hrun, hreplaces⟩ := hruns (8 * a.size + 8) (by omega)
  refine ⟨result, s', a', lower_eq_of_replaceAll hrun, hreplaces, fun budget hbudget => ?_⟩
  obtain ⟨result', s'', a'', hrun', hreplaces'⟩ := hruns budget hbudget
  obtain ⟨hresult, hstate⟩ := hreplaces.unique hreplaces'
  cases hresult
  cases hstate
  exact hrun'

/-- A loop whose condition is a loop, and whose body is one. -/
def loopsArena : Arena where
  nodes := #[{ form := .expr (.reference "more"), span := default, parent := some ⟨2⟩ },
    { form := .expr (.reference "go"), span := default, parent := some ⟨2⟩ },
    { form := .expr .whileLoop, span := default, parent := some ⟨6⟩, children := [⟨0⟩, ⟨1⟩] },
    { form := .expr (.reference "open"), span := default, parent := some ⟨5⟩ },
    { form := .expr (.reference "_0"), span := default, parent := some ⟨5⟩ },
    { form := .expr .whileLoop, span := default, parent := some ⟨6⟩, children := [⟨3⟩, ⟨4⟩] },
    { form := .expr .whileLoop, span := default, children := [⟨2⟩, ⟨5⟩] }]

/-- The inner loops are gone through as well, the one in the condition twice. -/
theorem lower_terminates_loopsArena : loopsArena.Forest ∧ (6 < loopsArena.size) ∧
    ∃ (result : NodeId) (s' : Lowering) (a' : Arena),
      lower "_" ⟨6⟩ .empty loopsArena = .ok ((result, s'.log), a') ∧
      Replaces Lowering.step [⟨6⟩] (⟨.empty, Temporaries.ofTree loopsArena ⟨6⟩ "_"⟩, loopsArena)
        [result] (s', a') ∧
      ∀ budget, 42 ≤ budget → replaceAllWithin Lowering.step budget ⟨6⟩
        ⟨.empty, Temporaries.ofTree loopsArena ⟨6⟩ "_"⟩ loopsArena = .ok ((result, s'), a') := by
  have hforest : loopsArena.Forest := forest_of_children_first (by decide) (by decide) (by decide)
  exact ⟨hforest, by decide, hforest.lower_terminates (by decide) "_" .empty⟩

end MessageLang
