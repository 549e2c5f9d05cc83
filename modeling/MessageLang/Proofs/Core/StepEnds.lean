import MessageLang.Proofs.Core.FreeNames
import MessageLang.Proofs.Core.Rewrites

namespace MessageLang

open Lowering (needsBlock)

/-- What a step leaves in an arena and beside it: the tree there, as it is after the step, or the
tree that is to stand in its place. -/
def Tree.Left (T : Tree) (parent : Option NodeId) (above : List NodeForm) (start : Arena)
    (s : Lowering) : Option NodeId × Lowering → Arena → Prop
  | (none, s'), a => ∃ T' size, T.Settles above s start.size (T', size) s' ∧
      start.Apart T.ids {.tree parent T'} size a
  | (some next, s'), a => ∃ made, T.Rewrites s start.size made s' ∧
      T.Gives parent start made (some next) a

section

variable {a : Arena} {parent : Option NodeId} {path : List (NodeId × NodeForm)} {T : Tree}
  {above : List NodeForm} {s s' : Lowering}

theorem Arena.Holds.left (h : a.Holds parent T) (hnodup : T.ids.Nodup)
    (hsettles : T.Settles above s a.size (T, a.size) s') :
    T.Left parent above a s (none, s') a :=
  ⟨T, a.size, hsettles, .of_holds h hnodup⟩

/-- A step that gives a tree leaves that one. -/
theorem Tree.Gives.left {made : Tree × Nat} {next : Option NodeId} {a' : Arena}
    (h : T.Gives parent a made next a') (hrewrites : T.Rewrites s a.size made s') :
    T.Left parent above a s (next, s') a' := by
  have hnext := h.1
  subst hnext
  exact ⟨made, hrewrites, h⟩

private theorem checkPlacement_ends (hheld : a.Holds parent T) (h : a.Under parent path T) :
    Ends (Lowering.checkPlacement T.id s) a fun p a' =>
      p.2 = T.checkPlacement (path.map (·.2)) s ∧ a' = a := by
  simp only [Lowering.checkPlacement, ends_bind_apply_iff, ends_get_inner_iff,
    ends_modify_outer_iff, Placement.check, Tree.checkPlacement, h.problem?_eq hheld]
  cases T.problem? (path.map (·.2)) with
  | none => exact ⟨rfl, trivial⟩
  | some problem =>
    have hreport : s.log.report a T.id problem = s.log.reportAt T problem := by
      rw [Log.report, Log.reportAt, hheld.span_eq]
    exact ⟨congrArg (Lowering.mk · s.temporaries) hreport, trivial⟩

private theorem freshName_ends : ∃ name temporaries,
    s.temporaries.fresh? = some (name, temporaries) ∧
      Ends (Lowering.freshName s) a fun p a' => p = (name, { s with temporaries }) ∧ a' = a := by
  obtain ⟨number, _, _, _, hfresh⟩ := s.temporaries.exists_fresh?_eq
  refine ⟨_, _, hfresh, ?_⟩
  simp only [Lowering.freshName, ends_bind_apply_iff, ends_get_outer_iff, hfresh,
    ends_modify_outer_iff, ends_pure_apply_iff, and_self]

private theorem binaryStep_ends (hheld : a.Holds parent T) (hnodup : T.ids.Nodup) {op : String}
    (hform : T.form = .expr (.binary op)) :
    Ends (Lowering.stepOf T.id (.binary op) s) a (T.Left parent above a s) := by
  simp only [Lowering.stepOf]
  cases hoperands : T.twoOperands? with
  | none =>
    have hnone := hheld.twoOperands?_eq
    rw [hoperands, Option.map_none] at hnone
    have hkept : T.Kept := by
      rw [Tree.Kept, hform]
      exact hoperands
    cases LogicOp.ofText? op <;>
      simp only [ends_lift_apply_iff, Lowering.logic, Lowering.binary, ends_bind_iff,
        ends_get_iff, hnone] <;>
      exact hheld.left hnodup (.kept hkept)
  | some operands =>
    cases hlogic : LogicOp.ofText? op with
    | some op =>
      simp only [ends_lift_apply_iff]
      refine (logic_ends hheld hnodup hoperands op).mono fun _ _ hgives => ?_
      exact hgives.left (.logic hform hlogic hoperands)
    | none =>
      simp only [ends_lift_apply_iff]
      refine (binary_ends hheld hnodup hoperands op).mono fun _ _ hgives => ?_
      exact hgives.left (.binary hform hlogic hoperands)

/-- A block is given up for its only item, unless that item needs it. -/
private theorem blockStep_ends (hheld : a.Holds parent T) (hnodup : T.ids.Nodup)
    (hform : T.form = .expr .block) :
    Ends (Lowering.stepOf T.id .block s) a (T.Left parent above a s) := by
  have hkept : T.Kept → T.Left parent above a s (none, s) a :=
    fun hkept => hheld.left hnodup (.kept hkept)
  unfold Tree.Kept at hkept
  rw [hform] at hkept
  simp only [Lowering.stepOf, ends_lift_apply_iff]
  rcases hitems : T.expressions with _ | ⟨item, _ | ⟨second, others⟩⟩
  · simp only [Lowering.collapse, ends_bind_iff, ends_get_iff, hheld.expressions_eq, hitems]
    exact hkept (by simp [hitems])
  · cases hneeds : item.expr?.any needsBlock with
    | true =>
      have hitem := hheld.child (List.mem_of_mem_filter (hitems ▸ by simp : item ∈ T.expressions))
      have hkept := hkept (by simp [hitems, hneeds])
      rw [Tree.expr?] at hneeds
      simp only [Lowering.collapse, ends_bind_iff, ends_get_iff, hheld.expressions_eq, hitems,
        List.map_cons, List.map_nil, hitem.expr?_eq]
      rw [if_pos hneeds]
      exact hkept
    | false =>
      refine (collapse_ends hheld hnodup hitems hneeds).mono fun _ _ hgives => ?_
      exact hgives.left (.block hform hitems hneeds)
  · simp only [Lowering.collapse, ends_bind_iff, ends_get_iff, hheld.expressions_eq, hitems]
    exact hkept (by simp [hitems])

theorem stepOf_ends (hheld : a.Holds parent T) (h : a.Under parent path T) (s : Lowering)
    {form : ExprForm} (hform : T.form = .expr form) :
    Ends (Lowering.stepOf T.id form s) a (T.Left parent (path.map (·.2)) a s) := by
  have hnodup := (List.nodup_append.mp h.nodup).2.1
  -- forms that stay are only checked for where they stand
  have hplaced : Tree.isPlaced form = true →
      Lowering.stepOf T.id form = (do Lowering.checkPlacement T.id; return none) →
      Ends (Lowering.stepOf T.id form s) a (T.Left parent (path.map (·.2)) a s) := by
    intro hisPlaced hedit
    rw [hedit]
    simp only [ends_bind_apply_iff, ends_pure_apply_iff]
    refine (checkPlacement_ends hheld h).mono ?_
    rintro ⟨_, _⟩ _ ⟨rfl, rfl⟩
    exact hheld.left hnodup (.placed hform hisPlaced)
  have hkept : T.Kept → T.Left parent (path.map (·.2)) a s (none, s) a :=
    fun hkept => hheld.left hnodup (.kept hkept)
  unfold Tree.Kept at hkept
  rw [hform] at hkept
  cases form with
  | unary op =>
    simp only [Lowering.stepOf, ends_lift_apply_iff]
    cases hoperands : T.expressions with
    | nil =>
      simp only [Lowering.unary, ends_bind_iff, ends_get_iff, hheld.expressions_eq, hoperands]
      exact hkept hoperands
    | cons operand others =>
      refine (unary_ends hheld hnodup hoperands op).mono fun _ _ hgives => ?_
      exact hgives.left (.unary hform hoperands)
  | binary op => exact binaryStep_ends hheld hnodup hform
  | whileLoop =>
    simp only [Lowering.stepOf, ends_bind_apply_iff, ends_get_inner_iff, hheld.twoOperands?_eq]
    cases hoperands : T.twoOperands? with
    | none => exact hkept hoperands
    | some operands =>
      obtain ⟨name, temporaries, hfresh, hends⟩ := freshName_ends (s := s) (a := a)
      simp only [Option.map_some, ends_bind_apply_iff]
      refine hends.mono ?_
      rintro _ _ ⟨rfl, rfl⟩
      simp only [ends_lift_apply_iff, ends_pure_apply_iff]
      refine (whileLoop_ends hheld hnodup hoperands name).mono fun _ _ hgives => ?_
      exact hgives.left (.whileLoop hform hoperands hfresh)
  | function input output =>
    simp only [Lowering.stepOf, ends_lift_apply_iff]
    cases hoperands : T.expressions with
    | nil =>
      simp only [Lowering.function, ends_bind_iff, ends_get_iff, hheld.expressions_eq, hoperands]
      exact hkept hoperands
    | cons body others =>
      refine (function_ends hheld hnodup hoperands input output).mono fun _ _ hgives => ?_
      exact hgives.left (.function hform hoperands)
  | block => exact blockStep_ends hheld hnodup hform
  | conditional =>
    simp only [Lowering.stepOf, ends_bind_apply_iff, ends_lift_apply_iff, ends_pure_apply_iff]
    by_cases hbranches : T.expressions.length = 2
    · refine (completeConditional_ends hheld hnodup hbranches).mono fun _ _ hapart => ?_
      exact ⟨_, _, .conditional hform hbranches, hapart⟩
    · rw [Lowering.completeConditional, ends_bind_iff, ends_get_iff, hheld.expressions_eq,
        List.length_map, if_neg hbranches]
      exact hkept hbranches
  | struct =>
    simp only [Lowering.stepOf, ends_bind_apply_iff, ends_lift_apply_iff,
      ends_get_outer_iff, ends_modify_outer_iff, ends_pure_apply_iff]
    refine (checkStruct_ends hheld hnodup s.log).mono ?_
    rintro _ _ ⟨rfl, hapart⟩
    exact ⟨_, _, .struct hform, hapart⟩
  | _ => exact hplaced rfl rfl

/-- What a whole step leaves, of which that a tree given in place of a grouped one is grouped too
is a part. -/
def Tree.LeftInherited (T : Tree) (parent : Option NodeId) (above : List NodeForm) (start : Arena)
    (s : Lowering) : Option NodeId × Lowering → Arena → Prop
  | (none, s'), a => ∃ T' size, T.Settles above s start.size (T', size) s' ∧
      start.Apart T.ids {.tree parent T'} size a
  | (some next, s'), a => ∃ T' size, T.Rewrites s start.size (T', size) s' ∧
      T.Gives parent start (T'.inherit T.grouped, size) (some next) a

/-- A step in an arena does to a tree there what a step does to the tree as such. -/
theorem step_ends (hheld : a.Holds parent T) (h : a.Under parent path T) (s : Lowering) :
    Ends (Lowering.step T.id s) a (T.LeftInherited parent (path.map (·.2)) a s) := by
  have hnodup := (List.nodup_append.mp h.nodup).2.1
  have hkept : T.Kept → T.LeftInherited parent (path.map (·.2)) a s (none, s) a :=
    fun hkept => hheld.left hnodup (.kept hkept)
  unfold Tree.Kept at hkept
  simp only [Lowering.step, ends_bind_apply_iff, ends_get_inner_iff, hheld.expr?_eq]
  cases hform : T.form with
  | token t => exact hkept (by simp [hform])
  | type form => exact hkept (by simp [hform])
  | expr form =>
    simp only [NodeForm.expr?, ends_bind_apply_iff, ends_get_inner_iff]
    refine (stepOf_ends hheld h s hform).mono ?_
    rintro ⟨next, s'⟩ a' hleft
    cases next with
    | none =>
      split <;> exact hleft
    | some next =>
      obtain ⟨⟨T', size⟩, hrewrites, hnext, n, hparent, hgrouped, h'⟩ := hleft
      cases hnext
      have htop : a'.node T.id = n := (h'.held (.top T.id n) (by simp)).2
      have hsame : a'.isGrouped T.id = T.grouped := by rw [Arena.isGrouped, htop, hgrouped]
      simp only [hsame]
      split
      · next hyes =>
        simp only [Option.forM, ends_bind_apply_iff, ends_lift_apply_iff, ends_pure_apply_iff]
        refine (h'.setGrouped true).mono fun _ _ h'' => ⟨T', size, hrewrites, ?_⟩
        rw [Tree.inherit, if_pos hyes]
        exact ⟨rfl, n, hparent, hgrouped, h''⟩
      · next hno =>
        refine ⟨T', size, hrewrites, ?_⟩
        rw [Tree.inherit, if_neg hno]
        exact ⟨rfl, n, hparent, hgrouped, h'⟩

end

end MessageLang
