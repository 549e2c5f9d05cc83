import MessageLang.Proofs.Core.Names

namespace MessageLang

/-- A report of legality at a node of some trees, with the span of the node. -/
structure Report.Placed (trees : List Tree) (r : Report) : Prop where
  phase : r.problem.phase = .legality
  node : ∃ X ∈ Tree.nodesAll trees, X.id = r.node ∧ X.span = r.span

theorem Report.Placed.mono {trees trees' : List Tree} {r : Report} (h : r.Placed trees)
    (hmore : ∀ X ∈ Tree.nodesAll trees, X ∈ Tree.nodesAll trees') : r.Placed trees' := by
  obtain ⟨X, hX, hsame⟩ := h.node
  exact ⟨h.phase, X, hmore X hX, hsame⟩

namespace Tree

variable {T : Tree} {s s' : Lowering} {size : Nat} {made : Tree × Nat} {above : List NodeForm}

/-- Problems with where a tree stands are of legality. -/
theorem phase_of_problem? {problem : Problem} (h : T.problem? above = some problem) :
    problem.phase = .legality := by
  unfold problem? at h
  dsimp only at h
  split at h
  case h_7 => cases h
  all_goals
    split at h
    · cases h
    · cases h
      rfl

/-- A tree that settles is itself reported, or the fields that are its children are. -/
theorem Settles.exists_reports (h : T.Settles above s size made s') :
    ∃ more, s'.log.toList = s.log.toList ++ more ∧ ∀ r ∈ more, r.problem.phase = .legality ∧
      (made.1.id = r.node ∧ made.1.span = r.span ∨ ∃ V ∈ made.1.children,
        (∃ name, V.form = .expr (.structField name)) ∧ V.id = r.node ∧ V.span = r.span) := by
  cases h with
  | conditional => exact ⟨[], (List.append_nil _).symm, fun _ h => nomatch h⟩
  | kept => exact ⟨[], (List.append_nil _).symm, fun _ h => nomatch h⟩
  | struct =>
    obtain ⟨more, heq, hmore⟩ := exists_reports_nameFields s.log ⟨[], false⟩ 0 T.children
    refine ⟨more, heq, fun r hr => ⟨?_, .inr (hmore r hr).2⟩⟩
    rcases (hmore r hr).1 with hproblem | ⟨name, hproblem⟩ <;> rw [hproblem] <;> rfl
  | placed =>
    unfold checkPlacement
    split
    · next problem hproblem =>
      refine ⟨_, s.log.toList_reportAt T problem, List.forall_mem_singleton.mpr ?_⟩
      exact ⟨phase_of_problem? hproblem, .inl ⟨rfl, rfl⟩⟩
    · exact ⟨[], (List.append_nil _).symm, fun _ h => nomatch h⟩

/-- A tree that only its place is checked of stays as it is. -/
theorem Settles.fst_eq (h : T.Settles above s size made s') {form : ExprForm}
    (hform : T.form = .expr form) (hplaced : isPlaced form = true) : made.1 = T := by
  cases h with
  | placed | kept => rfl
  | conditional form_eq | struct form_eq =>
    cases hform.symm.trans form_eq
    cases hplaced

theorem Rewrites.isPlaced_eq_false (h : T.Rewrites s size made s') {form : ExprForm}
    (hform : T.form = .expr form) : isPlaced form = false := by
  cases h with
  | _ form_eq => cases hform.symm.trans form_eq; rfl

end Tree

/-- A tree that only its place is checked of stays where it is. -/
theorem Lowers.exists_mem {above : List NodeForm} {trees trees' : List Tree} {w w' : Lowering × Nat}
    (h : Lowers above trees w trees' w') {V : Tree} (hV : V ∈ trees) {form : ExprForm}
    (hform : V.form = .expr form) (hplaced : Tree.isPlaced form = true) :
    ∃ X ∈ trees', X.id = V.id ∧ X.span = V.span := by
  induction h with
  | nil => cases hV
  | settles step _ _ _ ihafter =>
    rcases List.mem_cons.mp hV with rfl | hV
    · have heq := step.fst_eq hform hplaced
      cases heq
      exact ⟨_, List.mem_cons_self, rfl, rfl⟩
    · obtain ⟨X, hX, hsame⟩ := ihafter hV
      exact ⟨X, List.mem_cons_of_mem _ hX, hsame⟩
  | rewrites step _ ih =>
    rcases List.mem_cons.mp hV with rfl | hV
    · rw [step.isPlaced_eq_false hform] at hplaced
      cases hplaced
    · exact ih (List.mem_cons_of_mem _ hV)

/-- Lowering reports nodes of the trees that it makes, with the spans that they have in the end, for
reasons of legality. -/
theorem Lowers.exists_reports {above : List NodeForm} {trees trees' : List Tree}
    {w w' : Lowering × Nat} (h : Lowers above trees w trees' w') :
    ∃ more, w'.1.log.toList = w.1.log.toList ++ more ∧ ∀ r ∈ more, r.Placed trees' := by
  induction h with
  | nil => exact ⟨[], (List.append_nil _).symm, fun _ h => nomatch h⟩
  | @settles above T T' trees trees' children s s₁ size size₁ w₂ w₃ step below _ ihbelow ihafter =>
    -- first the tree itself, then what is below it, then the trees after it
    obtain ⟨own, hown, hownplaced⟩ := step.exists_reports
    obtain ⟨inner, hinner, hinnerplaced⟩ := ihbelow
    obtain ⟨rest, hrest, hrestplaced⟩ := ihafter
    refine ⟨own ++ (inner ++ rest), by rw [hrest, hinner, hown]; simp, ?_⟩
    have hmem : ∀ X, X = T'.withChildren children ∨ X ∈ Tree.nodesAll children ∨
        X ∈ Tree.nodesAll trees' → X ∈ Tree.nodesAll (T'.withChildren children :: trees') := by
      intro X hX
      rwa [Tree.nodesAll_cons, List.mem_cons, List.mem_append, Tree.children_withChildren]
    refine List.forall_mem_append.mpr ⟨fun r hr => ?_, List.forall_mem_append.mpr
      ⟨fun r hr => (hinnerplaced r hr).mono fun X hX => hmem X (.inr (.inl hX)),
        fun r hr => (hrestplaced r hr).mono fun X hX => hmem X (.inr (.inr hX))⟩⟩
    obtain ⟨hphase, ⟨hid, hspan⟩ | ⟨V, hV, ⟨name, hform⟩, hid, hspan⟩⟩ := hownplaced r hr
    · exact ⟨hphase, _, hmem _ (.inl rfl), hid, hspan⟩
    · obtain ⟨X, hX, hid', hspan'⟩ := below.exists_mem hV hform rfl
      exact ⟨hphase, X, hmem X (.inr (.inl (Tree.mem_nodesAll hX))), hid'.trans hid,
        hspan'.trans hspan⟩
  | rewrites step _ ih =>
    obtain ⟨more, heq, hmore⟩ := ih
    exact ⟨more, by rw [heq, step.log_eq], hmore⟩

end MessageLang
