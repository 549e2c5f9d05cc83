import MessageLang.Proofs.Typing.Parts

namespace MessageLang

open MessageLang.Tree (Denotes Direct Visible)

namespace Pass

variable {a : Arena} {R N V : Tree} {base : Nat} {p p' : Pass} {path done : List Tree}
  {entered : List NodeId} {compute : NodeId → Typing TypeId} {type : TypeId}
  {escapes : List (NodeId × TypeId)} {breaks : List TypeId}

/-- Other exits may be collected at any time. -/
theorem Stands.withExits (h : p.Stands a R base path) (hnodup : R.ids.Nodup)
    (hescapes : ∀ exit ∈ escapes, exit.2.index < p.table.size)
    (hbreaks : ∀ type ∈ breaks, type.index < p.table.size) :
    Stands a R base { p with escapes, breaks } path := by
  have hadv : p.Advances path (fun _ => False) { p with escapes, breaks } :=
    { Advances.refl p path fun _ => False with }
  have hsound : Sound { p with escapes, breaks } :=
    { h.sound with escapes_lt := hescapes, breaks_lt := hbreaks }
  refine h.advance hnodup hadv { h.toFair with sound := hsound } (spares_empty a R p path)
    fun D id found _ _ hwaiting hfound => ?_
  exact absurd (hwaiting.1.symm.trans hfound) nofun

end Pass

namespace Typing

open Pass

variable {a : Arena} {R N : Tree} {base : Nat} {p : Pass} {path : List Tree} {entered : List NodeId}
  {compute : NodeId → Typing TypeId}

/-- The value of an exit, which is nothing if it has none. -/
theorem exitOperand_ends (h : p.Entering a R base path N entered compute)
    (hblock : N.form ≠ .expr .block) (hhandler : N.form ≠ .expr .handler)
    (hfew : N.expressions.length ≤ 1) :
    Ends (operand a compute N.id) p fun type p' =>
      p.Visits a R base path (p.Touches path [N]) N.expressions p' ∧ type = p'.exitType N ∧
        type.index < p'.table.size := by
  cases hparts : N.expressions with
  | nil =>
    rw [operand, h.expressions_eq, hparts]
    refine ⟨h.stands.visits _, ?_, h.stands.sound.lt_of_builtin (by decide)⟩
    rw [exitType, hparts]
    rfl
  | cons V rest =>
    have hrest : rest = [] := by
      rw [hparts] at hfew
      exact List.eq_nil_of_length_eq_zero (Nat.le_zero.mp (Nat.le_of_succ_le_succ hfew))
    subst hrest
    refine (operand_ends h hblock hhandler hparts).mono ?_
    rintro type p₁ ⟨hvisits₁, hlookup⟩
    refine ⟨hvisits₁, ?_, hvisits₁.stands.sound.types_lt _ (mem_of_lookup_eq_some hlookup)⟩
    rw [exitType, hparts, List.head?_cons, Option.map_some, typeOf, hlookup]
    rfl

theorem returnExit_ends (h : p.Entering a R base path N entered compute)
    (hform : N.form = .expr .returnExit) :
    Ends (returnExit a compute N.id) p (p.Finds a R base path N) := by
  have hadmits := h.admits hform
  rw [ExprForm.admits, Tree.length_exprForms, Bool.and_eq_true, decide_eq_true_eq] at hadmits
  rw [returnExit, ends_bind_iff]
  refine (exitOperand_ends h (by simp [hform]) (by simp [hform]) hadmits.1).mono ?_
  rintro type p₁ ⟨hvisits₁, htype, hlt⟩
  have hsound := hvisits₁.stands.sound
  rw [ends_bind_iff, ends_modify_iff, ends_pure_iff]
  refine { advances := { hvisits₁.advances with }
           stands := hvisits₁.stands.withExits h.ready.nodup ?_ hsound.breaks_lt
           covered := hvisits₁.covered
           escapes_eq := fun hfree => ?_, breaks_eq := fun hfree => ?_, made := fun _ body _ => ?_
           agrees := fun E hE => absurd hE (h.not_denotes ?_)
           lt := hsound.lt_of_builtin (by decide) }
  · rw [List.forall_mem_append]
    exact ⟨hsound.escapes_lt, List.forall_mem_singleton.mpr hlt⟩
  · have hreturns : N.returns = N.expressions.flatMap Tree.returns ++ [N] := Tree.exits_eq hform
    rw [hreturns, List.map_append, ← List.append_assoc]
    exact congrArg₂ _ (hvisits₁.escapes_eq hfree) (congrArg (fun type => [(N.id, type)]) htype)
  · rw [Tree.breaks, Tree.exits_eq_flatMap hform rfl (by simp)]
    exact hvisits₁.breaks_eq hfree
  · rw [hform]
    simp
  · rw [Tree.usedName?, hform]

theorem breakExit_ends (h : p.Entering a R base path N entered compute)
    (hform : N.form = .expr .breakExit) :
    Ends (breakExit a compute N.id) p (p.Finds a R base path N) := by
  have hadmits := h.admits hform
  rw [ExprForm.admits, Tree.length_exprForms, Bool.and_eq_true, decide_eq_true_eq] at hadmits
  rw [breakExit, ends_bind_iff]
  refine (exitOperand_ends h (by simp [hform]) (by simp [hform]) hadmits.1).mono ?_
  rintro type p₁ ⟨hvisits₁, htype, hlt⟩
  have hsound := hvisits₁.stands.sound
  rw [ends_bind_iff, ends_modify_iff, ends_pure_iff]
  refine { advances := { hvisits₁.advances with }
           stands := hvisits₁.stands.withExits h.ready.nodup hsound.escapes_lt ?_
           covered := hvisits₁.covered
           escapes_eq := fun hfree => ?_, breaks_eq := fun hfree => ?_, made := fun _ body _ => ?_
           agrees := fun E hE => absurd hE (h.not_denotes ?_)
           lt := hsound.lt_of_builtin (by decide) }
  · rw [List.forall_mem_append]
    exact ⟨hsound.breaks_lt, List.forall_mem_singleton.mpr hlt⟩
  · rw [Tree.returns, Tree.exits_eq_flatMap hform rfl (by simp)]
    exact hvisits₁.escapes_eq hfree
  · have hbreaks : N.breaks = N.expressions.flatMap Tree.breaks ++ [N] := Tree.exits_eq hform
    rw [hbreaks, List.map_append, ← List.append_assoc]
    exact congrArg₂ _ (hvisits₁.breaks_eq hfree) (congrArg (fun type => [type]) htype)
  · rw [hform]
    simp
  · rw [Tree.usedName?, hform]

/-- The breaks of a loop are collected apart from those around it. -/
theorem Entering.withoutBreaks (h : p.Entering a R base path N entered compute) :
    Entering a R base { p with breaks := [] } path N entered compute where
  ready := h.ready
  stands := h.stands.withExits h.ready.nodup h.stands.sound.escapes_lt fun _ h => nomatch h
  within := h.within
  direct := h.direct
  fresh := h.fresh
  computes := h.computes

/-- A loop is left with the breaks that were there before it: its own do not leave it. -/
theorem Entering.leaveLoop {p₁ : Pass} (h : p.Entering a R base path N entered compute)
    (hform : N.form = .expr .repeatLoop)
    (hvisits : Visits a R base { p with breaks := [] } path (p.Touches path [N]) N.expressions p₁) :
    p.Gathers a R base path N { p₁ with breaks := p.breaks } where
  advances := { hvisits.advances with }
  stands := hvisits.stands.withExits h.ready.nodup hvisits.stands.sound.escapes_lt fun type htype =>
    hvisits.advances.table.lt (h.stands.sound.breaks_lt type htype)
  covered := hvisits.covered
  escapes_eq hfree := by
    rw [Tree.returns, Tree.exits_eq_flatMap hform rfl (by simp)]
    exact hvisits.escapes_eq hfree
  breaks_eq _ := by
    have hbreaks : N.breaks = [] := Tree.exits_eq hform
    rw [hbreaks]
    simp

theorem repeatLoop_ends (h : p.Entering a R base path N entered compute)
    (hform : N.form = .expr .repeatLoop) :
    Ends (repeatLoop a compute N.id) p (p.Finds a R base path N) := by
  have hadmits := h.admits hform
  rw [ExprForm.admits, Tree.length_exprForms, Bool.and_eq_true, beq_iff_eq,
    List.length_eq_one_iff] at hadmits
  obtain ⟨⟨V, hparts⟩, -⟩ := hadmits
  simp only [repeatLoop, ends_bind_iff, ends_get_iff, ends_modify_iff]
  refine (operand_ends (Entering.withoutBreaks h) (by simp [hform]) (by simp [hform]) hparts).mono ?_
  rintro _ p₁ ⟨hvisits₁, -⟩
  have hsound := hvisits₁.stands.sound
  rw [← hparts] at hvisits₁
  have hgathers := Entering.leaveLoop h hform hvisits₁
  have hcollected : R.ExitFree → p₁.breaks = V.breaks.map p₁.exitType := fun hfree => by
    simpa [hparts] using hvisits₁.breaks_eq hfree
  have hagrees : ∀ (p₂ : Pass) type, p₂.Agrees a R base path N type := fun p₂ type E hE =>
    absurd hE (h.not_denotes (by rw [Tree.usedName?, hform]))
  have hbody : ∀ body ∈ N.expressions.head?, body = V := by
    rw [hparts]
    exact fun body hbody => (Option.some.inj hbody).symm
  split
  · next hempty =>
    refine { hgathers with
      made := fun hfree body hmem => ?_
      agrees := hagrees _ _
      lt := hsound.lt_of_builtin (by decide) }
    rw [hbody body hmem]
    refine ⟨fun heq => ?_, fun _ => ?_⟩
    · cases hform.symm.trans heq
    · rw [hcollected hfree, List.isEmpty_iff, List.map_eq_nil_iff] at hempty
      rw [if_pos hempty]
  · next hsome =>
    refine (unite_ends hgathers.stands.sound hsound.breaks_lt).mono ?_
    rintro type p₂ ⟨hquiet, hlt, hunites⟩
    refine { hgathers.quiet hquiet h.ready.nodup fun _ => h.clear with
      made := fun hfree body hmem => ?_
      agrees := hagrees _ _
      lt := hlt }
    rw [hbody body hmem]
    refine ⟨fun heq => ?_, fun _ => ?_⟩
    · cases hform.symm.trans heq
    · have hsame : p₂.exitType = p₁.exitType := by
        rw [hquiet.eq]
        rfl
      rw [hcollected hfree, List.isEmpty_iff, List.map_eq_nil_iff] at hsome
      rw [if_neg hsome, hsame, ← hcollected hfree,
        hquiet.table.retains.unionParts_eq hgathers.stands.sound.space.table.closed
          hsound.breaks_lt]
      exact hunites

end Typing

end MessageLang
