import MessageLang.Proofs.Core.LaidOut
import MessageLang.Proofs.Core.Lowered
import MessageLang.Proofs.Typing.Lexical

namespace MessageLang

namespace NodeForm

/-- What the layout around a node asks of it: whether it is an expression and then the definition of
a local, and which type it is. -/
def standing (form : NodeForm) : Option Bool × Option TypeForm :=
  (form.expr?.map ExprForm.isLocalDef, form.type?)

private theorem admits_of_length_eq {expressions expressions' : List ExprForm} {types : Nat}
    (h : expressions.map ExprForm.isLocalDef = expressions'.map ExprForm.isLocalDef)
    (form : ExprForm) : form.admits expressions types = form.admits expressions' types := by
  have hlength : expressions.length = expressions'.length := by
    simpa using congrArg List.length h
  have hall : expressions.all ExprForm.isLocalDef = expressions'.all ExprForm.isLocalDef := by
    have := congrArg (List.all · id) h
    simpa [List.all_map] using this
  cases form <;> simp only [ExprForm.admits, hlength, hall]

/-- Nodes may take the place of others that stand for the same. -/
theorem admits_congr {forms forms' : List NodeForm}
    (h : forms.map standing = forms'.map standing) (form : NodeForm) :
    form.admits forms = form.admits forms' := by
  have htypes : forms.filterMap type? = forms'.filterMap type? := by
    simpa [List.filterMap_map, Function.comp_def, standing] using
      congrArg (List.filterMap Prod.snd) h
  have hexprs : (forms.filterMap expr?).map ExprForm.isLocalDef =
      (forms'.filterMap expr?).map ExprForm.isLocalDef := by
    simpa [List.filterMap_map, List.map_filterMap, Function.comp_def, standing] using
      congrArg (List.filterMap Prod.fst) h
  cases form with
  | token t =>
    simpa [admits] using congrArg List.isEmpty h
  | expr form =>
    rw [admits, admits, ← List.length_filterMap_eq_countP, ← List.length_filterMap_eq_countP, htypes]
    exact admits_of_length_eq hexprs form
  | type form =>
    have hlength : (forms.filterMap expr?).length = (forms'.filterMap expr?).length := by
      simpa using congrArg List.length hexprs
    rw [admits, admits, ← List.length_filterMap_eq_countP, ← List.length_filterMap_eq_countP, htypes,
      hlength]

end NodeForm

namespace Tree

section

variable {T : Tree} {s s' : Lowering} {size : Nat} {made : Tree × Nat} {above : List NodeForm}

/-- What a tree is rewritten to may stand where the tree stands. -/
theorem Rewrites.standing_eq (h : T.Rewrites s size made s') :
    made.1.form.standing = T.form.standing := by
  cases h with
  | @block item form_eq items free =>
    obtain ⟨form, hform⟩ := exists_form_eq_expr_of_mem_expressions (items ▸ List.mem_cons_self)
    have hset : (item.setGrouped true).form = .expr form := hform
    simp only [expr?, hform, NodeForm.expr?, Option.any_some] at free
    rw [form_eq, hset]
    cases form <;> first | rfl | cases free
  | _ form_eq => rw [form_eq]; rfl

/-- What settles is in the core language. -/
theorem Settles.isSurfaceOnly_eq (h : T.Settles above s size made s') (hlaid : T.laidOut = true)
    {form : ExprForm} (hform : T.form = .expr form) : form.isSurfaceOnly = false := by
  have hadmits := laidOut_expr hlaid hform
  rw [ExprForm.admits.eq_def, length_exprForms] at hadmits
  cases h with
  | conditional form_eq => cases hform.symm.trans form_eq; rfl
  | struct form_eq => cases hform.symm.trans form_eq; rfl
  | placed form_eq placed =>
    cases hform.symm.trans form_eq
    cases form <;> first | rfl | cases placed
  | kept kept =>
    simp only [Kept, hform] at kept
    have htwo : T.twoOperands? = none → T.expressions.length ≠ 2 := by
      intro hnone hlength
      obtain ⟨left, right, hparts⟩ := List.length_eq_two.mp hlength
      rw [twoOperands?_eq_some_iff.mpr hparts] at hnone
      cases hnone
    cases form <;> first | rfl | simp_all

theorem toList_nameFields (log : Log) (seen : Placement.FieldsSeen) (index : Nat)
    (trees : List Tree) : log.toList <+: (nameFields log seen index trees).1.toList := by
  obtain ⟨more, heq, -⟩ := exists_reports_nameFields log seen index trees
  exact ⟨more, heq.symm⟩

/-- Problems are only added. -/
theorem Settles.toList_log (h : T.Settles above s size made s') : s.log.toList <+: s'.log.toList := by
  cases h with
  | conditional => exact List.prefix_refl _
  | kept => exact List.prefix_refl _
  | struct => exact toList_nameFields ..
  | placed =>
    unfold checkPlacement
    split
    · exact ⟨_, (Array.toList_push ..).symm⟩
    · exact List.prefix_refl _

/-- A group of locals that settles is reported if it stands in no block. -/
theorem Settles.inBlock (h : T.Settles above s size made s') (hgroup : T.form = .expr .locals)
    (hnot : ∀ r ∈ s'.log.toList, r.problem ≠ .localOutsideBlock) :
    (above.find? (·.expr?.isSome)).any (·.expr? == some .block) = true := by
  cases h with
  | conditional form_eq => cases hgroup.symm.trans form_eq
  | struct form_eq => cases hgroup.symm.trans form_eq
  | kept kept =>
    rw [Kept, hgroup] at kept
    exact kept.elim
  | placed =>
    by_contra hout
    have hproblem : T.problem? above = some .localOutsideBlock := by
      have hexpr : T.expr? = some .locals := by rw [expr?, hgroup]; rfl
      simp only [problem?, hexpr, if_neg hout]
    refine hnot ⟨.localOutsideBlock, T.id, T.span⟩ ?_ rfl
    simp [checkPlacement, hproblem, Log.reportAt, Log.toList]

end

/-- Below nodes of certain forms an expression of the core language may stand, and a group of locals
if that is part of what is asked and a block is nearest. -/
def MayStand (legal : Prop) (above : List NodeForm) (form : NodeForm) : Prop :=
  ∀ sort, form = .expr sort → sort.isSurfaceOnly = false ∧ (legal → sort = .locals →
    (above.find? (·.expr?.isSome)).any (·.expr? == some .block) = true)

end Tree

theorem Lowers.toList_log {above : List NodeForm} {trees trees' : List Tree} {w w' : Lowering × Nat}
    (h : Lowers above trees w trees' w') : w.1.log.toList <+: w'.1.log.toList := by
  induction h with
  | nil => exact List.prefix_refl _
  | settles step _ _ ihbelow ihafter => exact step.toList_log.trans (ihbelow.trans ihafter)
  | rewrites step _ ih => exact (congrArg Log.toList step.log_eq).symm ▸ ih

/-- What lowering gives stands for what it was given, is laid out as its forms ask for and is in the
core language. If no local was reported to stand outside of a block, none does. -/
theorem Lowers.mayStand {legal : Prop} {above : List NodeForm} {trees trees' : List Tree}
    {w w' : Lowering × Nat} (h : Lowers above trees w trees' w')
    (hlaid : ∀ T ∈ trees, T.laidOut = true)
    (hlegal : legal → ∀ r ∈ w'.1.log.toList, r.problem ≠ .localOutsideBlock) :
    trees'.map (·.form.standing) = trees.map (·.form.standing) ∧
      ∀ T ∈ trees', T.laidOut = true ∧ ∀ path X, T.Within path X →
        Tree.MayStand legal (path.map Tree.form ++ above) X.form := by
  induction h with
  | nil => exact ⟨rfl, fun _ h => nomatch h⟩
  | @settles above T T' trees trees' children s s₁ size size₁ w₂ w₃ step below after ihbelow ihafter =>
    obtain ⟨hT, htrees⟩ := List.forall_mem_cons.mp hlaid
    have hT' := step.laidOut hT
    obtain ⟨hadmits, hparts⟩ := Tree.laidOut_iff.mp hT'
    have hmore := after.toList_log
    obtain ⟨hbelow, hchildren⟩ := ihbelow hparts fun h r hr => hlegal h r (hmore.subset hr)
    obtain ⟨hafter, hrest⟩ := ihafter htrees hlegal
    refine ⟨?_, List.forall_mem_cons.mpr ⟨⟨?_, fun path X hX => ?_⟩, hrest⟩⟩
    · rw [List.map_cons, List.map_cons, hafter, Tree.form_withChildren, step.form_eq]
    · refine Tree.laidOut_iff.mpr ⟨?_, fun C hC => (hchildren C hC).1⟩
      rw [Tree.children_withChildren, Tree.form_withChildren, ← hadmits]
      refine NodeForm.admits_congr ?_ _
      rw [List.map_map, List.map_map]
      exact hbelow
    · rcases hX.eq_or_below with ⟨rfl, rfl⟩ | ⟨C, hC, inner, hinner, rfl⟩
      · rintro sort hsort
        rw [Tree.form_withChildren] at hsort
        have hsort' := step.form_eq.symm.trans hsort
        refine ⟨step.isSurfaceOnly_eq hT hsort', fun h hgroup => ?_⟩
        subst hgroup
        exact step.inBlock hsort' fun r hr =>
          hlegal h r (hmore.subset (below.toList_log.subset hr))
      · have hmay := (hchildren C (List.mem_of_mem_filter hC)).2 inner X hinner
        rwa [List.map_append, List.append_assoc]
  | @rewrites _ T T' _ _ _ _ _ _ _ step _ ih =>
    obtain ⟨hT, htrees⟩ := List.forall_mem_cons.mp hlaid
    have hinherit : (T'.inherit T.grouped).laidOut = true :=
      (T'.laidOut_inherit T.grouped).trans (step.laidOut hT)
    obtain ⟨hmap, hrest⟩ := ih (List.forall_mem_cons.mpr ⟨hinherit, htrees⟩) hlegal
    refine ⟨hmap.trans ?_, hrest⟩
    rw [List.map_cons, List.map_cons, Tree.form_inherit, step.standing_eq]

/-- What stands for an expression is one. -/
theorem NodeForm.exists_expr_of_standing_eq {form form' : NodeForm} (h : form.standing = form'.standing)
    (hexpr : form'.expr?.isSome = true) : ∃ sort, form = .expr sort := by
  have hsome := congrArg (fun standing => standing.1.isSome) h
  simp only [standing, Option.isSome_map, hexpr] at hsome
  cases form with
  | expr sort => exact ⟨sort, rfl⟩
  | _ => cases hsome

/-- A tree whose expressions may all stand where they do is in the core language, with locals in
blocks if that was asked. -/
theorem Tree.inCore_of_mayStand {R : Tree} {legal : Prop} (hexpr : ∃ sort, R.form = .expr sort)
    (h : ∀ path X, R.Within path X → MayStand legal (path.map form ++ []) X.form) :
    R.InCore ∧ (legal → R.LocalsInBlocks) := by
  have hform : ∀ path X, R.Within path X → ∃ sort, X.form = .expr sort := by
    intro path X hX
    cases hX with
    | root => exact hexpr
    | child _ mem => exact exists_form_eq_expr_of_mem_expressions mem
  refine ⟨fun path X hX => ?_, fun hlegal path G hG hgroup => ?_⟩
  · obtain ⟨sort, hsort⟩ := hform path X hX
    exact ⟨sort, hsort, (h path X hX sort hsort).1⟩
  · have hblock := (h path G hG _ hgroup).2 hlegal rfl
    cases hG with
    | root => cases hblock
    | @child rest B _ above _ =>
      obtain ⟨sort, hsort⟩ := hform rest B above
      simp only [List.map_cons, List.cons_append, hsort, List.find?_cons, NodeForm.expr?,
        Option.isSome_some, Option.any_some, beq_iff_eq, Option.some.injEq] at hblock
      exact ⟨B, rest, rfl, hsort.trans (congrArg NodeForm.expr hblock)⟩

/-- Lowering a program ends, and gives one in the core language. Unless a local was reported to
stand outside of a block, none does. -/
theorem lower_ends {a : Arena} {T : Tree} (hheld : a.Holds none T) (hnodup : T.ids.Nodup)
    (hlaid : T.laidOut = true) (hexpr : T.isExpr = true) (stem : String) (log : Log) :
    ∃ R log' a', lower stem T.id log a = .ok ((R.id, log'), a') ∧ a'.Holds none R ∧ a'.Lowered R ∧
      ((∀ r ∈ log'.toList, r.problem ≠ .localOutsideBlock) → a'.Ready R) := by
  have hbudget : T.effort ≤ 8 * a.size + 8 := by
    have heffort := T.effort_le_length
    have hlength := hheld.length_ids_le hnodup
    omega
  have hunder : a.Under none [] T := ⟨.root, hnodup⟩
  have hsite : a.Site none [] [] T :=
    ⟨fun _ hp => (nomatch hp), fun _ hid => (nomatch hid), fun _ hid => (nomatch hid)⟩
  suffices hends : Ends (lower stem T.id log) a fun p a' => ∃ R : Tree, p.1 = R.id ∧
      a'.Holds none R ∧ a'.Lowered R ∧
        ((∀ r ∈ p.2.toList, r.problem ≠ .localOutsideBlock) → a'.Ready R) by
    obtain ⟨⟨_, log'⟩, a', hrun, R, rfl, hR⟩ := ends_iff.mp hends
    exact ⟨R, log', a', hrun, hR⟩
  simp only [lower, Edit.replaceAll, ends_bind_iff, ends_get_iff, ends_bind_apply_iff,
    ends_get_inner_iff]
  refine (lowersWithin_of_effort_le hbudget hheld hunder hsite).mono ?_
  rintro ⟨_, s'⟩ a' ⟨R, rfl, hlowers, hreplaced⟩
  let legal : Prop := ∀ r ∈ s'.log.toList, r.problem ≠ .localOutsideBlock
  have hlegal : legal → ∀ r ∈ s'.log.toList, r.problem ≠ .localOutsideBlock := id
  obtain ⟨hstanding, hall⟩ := hlowers.mayStand (fun U hU => List.mem_singleton.mp hU ▸ hlaid) hlegal
  obtain ⟨hlaid', hmay⟩ := hall R (List.mem_singleton_self R)
  obtain ⟨hcore, hplaced⟩ := Tree.inCore_of_mayStand
    (NodeForm.exists_expr_of_standing_eq (List.cons.inj hstanding).1 hexpr) hmay
  have hlowered : a'.Lowered R := ⟨⟨_, hreplaced.holds⟩, hreplaced.nodup, hlaid', hcore⟩
  exact ⟨R, rfl, hreplaced.holds, hlowered, fun hlegal => ⟨hlowered, hplaced hlegal⟩⟩

end MessageLang
