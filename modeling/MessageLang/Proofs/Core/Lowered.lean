import MessageLang.Proofs.Core.Agreement
import MessageLang.Proofs.Core.Simulation

namespace MessageLang

open Temporaries (freeName Gave)

/-- The plain tree in the core language, with temporaries that have a stem and the numbers, in
order, whose names are not in the tree. -/
noncomputable def Plain.lowered (stem : String) (P : Plain) : Plain :=
  (P.core (freeName stem P.names) 0).1

section

variable {a : Arena} {parent : Option NodeId} {T : Tree}

theorem Plain.namesAll_append (trees trees' : List Plain) :
    namesAll (trees ++ trees') = namesAll trees ++ namesAll trees' := by
  induction trees with
  | nil => rfl
  | cons P rest ih => rw [List.cons_append, namesAll, namesAll, ih, List.append_assoc]

/-- Going through a tree in an arena finds the names that are in the tree. -/
private theorem Arena.Holds.filterMap_preorderWithin (h : a.Holds parent T)
    (hlaid : T.laidOut = true) {height depth : Nat} (hheight : T.ids.length ≤ height) :
    (a.preorderWithin height depth T.id).filterMap
      (fun entry => a.expr? entry.2 >>= Temporaries.nameOf?) =
        Plain.namesAll (Tree.plainAll [T]) := by
  induction T generalizing parent height depth with
  | node id form span grouped children ih =>
    cases height with
    | zero =>
      rw [Tree.ids_eq] at hheight
      simp at hheight
    | succ height =>
      -- every child finds its own names
      have hchildren : ∀ trees : List Tree, (∀ U ∈ trees, U ∈ children) →
          ((trees.map Tree.id).flatMap (a.preorderWithin height (depth + 1))).filterMap
            (fun entry => a.expr? entry.2 >>= Temporaries.nameOf?) =
              Plain.namesAll (Tree.plainAll trees) := by
        intro trees
        induction trees with
        | nil => exact fun _ => rfl
        | cons U rest ihrest =>
          intro hmem
          have hU : U ∈ children := hmem U (by simp)
          have hlt : U.ids.length < (Tree.node id form span grouped children).ids.length :=
            Tree.length_ids_lt_of_mem_children hU
          rw [List.map_cons, List.flatMap_cons, List.filterMap_append,
            ih U hU (h.child hU) (Tree.laidOut_of_mem_children hlaid hU) (by omega),
            ihrest fun V hV => hmem V (by simp [hV]), ← Plain.namesAll_append,
            ← Tree.plainAll_append, List.singleton_append]
      have hown : a.expr? id = form.expr? := h.expr?_eq
      have hids : a.children id = children.map Tree.id := h.children_eq
      rw [Tree.id, Arena.preorderWithin, List.filterMap_cons, hids, hchildren children fun _ hU => hU]
      simp only [hown]
      cases form with
      | token t =>
        have hnone : children = [] := Tree.children_eq_nil_of_token hlaid rfl
        subst hnone
        rfl
      | type form => exact (List.append_nil _).symm
      | expr form =>
        have hone : Tree.plainAll [.node id (.expr form) span grouped children] =
          [.node (.expr form) grouped (Tree.plainAll children)] := rfl
        rw [hone, Plain.namesAll, Plain.names, Plain.namesAll, List.append_nil]
        cases hname : Temporaries.nameOf? form <;> simp [NodeForm.expr?, hname]

/-- The names that lowering avoids are those in the plain tree. -/
theorem Arena.Holds.ofTree_eq (h : a.Holds parent T) (hnodup : T.ids.Nodup)
    (hlaid : T.laidOut = true) (stem : String) : Temporaries.ofTree a T.id stem =
      ⟨stem, Plain.namesAll (Tree.plainAll [T]), 0⟩ :=
  congrArg (Temporaries.mk stem · 0)
    (h.filterMap_preorderWithin hlaid (h.length_ids_le hnodup))

/-- A token is its own core. -/
private theorem Lowers.plain_eq_of_token {above : List NodeForm} {T' : Tree} {t : Token}
    {w w' : Lowering × Nat} (h : Lowers above [T] w [T'] w') (hlaid : T.laidOut = true)
    (hform : T.form = .token t) : T'.plain = T.plain ∧ T.plain = .node (.token t) T.grouped [] := by
  have hplain : T.plain = .node (.token t) T.grouped [] := by
    rw [Tree.plain_eq, hform, Tree.children_eq_nil_of_token hlaid (by rw [hform]; rfl)]
    rfl
  refine ⟨?_, hplain⟩
  cases h with
  | @settles _ _ T₁ _ _ children _ _ _ _ _ _ step below after =>
    have hform₁ : T₁.form = .token t := step.form_eq.trans hform
    rw [Tree.children_eq_nil_of_token (step.laidOut hlaid) (by rw [hform₁]; rfl)] at below
    cases below
    rw [hplain, Tree.plain_eq, Tree.form_withChildren, Tree.children_withChildren, hform₁,
      ← (step.core_eq (fun _ => "") hlaid).1]
    rfl
  | rewrites step =>
    have hnot := step.token?_eq_none.1
    rw [hform] at hnot
    cases hnot

/-- What lowering makes of a tree whose names it avoids is the core of the plain tree. -/
theorem Lowers.plain_eq_lowered {stem : String} {log : Log} {size : Nat} {T' : Tree}
    {w' : Lowering × Nat}
    (h : Lowers [] [T] (⟨log, ⟨stem, Plain.namesAll (Tree.plainAll [T]), 0⟩⟩, size) [T'] w')
    (hlaid : T.laidOut = true) : T'.plain = T.plain.lowered stem := by
  cases hsort : T.form.token? with
  | none =>
    have hlaid' : ∀ U ∈ [T], U.laidOut = true := fun U hU => List.mem_singleton.mp hU ▸ hlaid
    have hone : Tree.plainAll [T] = [T.plain] := by
      rw [Tree.plainAll, hsort, if_neg (by simp)]
      rfl
    have hnames : Plain.namesAll (Tree.plainAll [T]) = T.plain.names := by
      rw [hone, Plain.namesAll]
      exact List.append_nil _
    rw [hnames] at h
    obtain ⟨count, hcore, _⟩ := h.core_eq hlaid' (Temporaries.gave_zero stem _)
    have hmade : Tree.plainAll [T'] = [T.plain.lowered stem] := by
      rw [hone] at hcore
      exact (congrArg Prod.fst hcore).symm
    rw [Tree.plainAll] at hmade
    split at hmade
    · cases hmade
    · exact (List.cons.inj hmade).1
  | some t =>
    have hform : T.form = .token t := by
      cases hform : T.form <;> simp_all [NodeForm.token?]
    obtain ⟨hsame, hplain⟩ := h.plain_eq_of_token hlaid hform
    rw [hsame, hplain]
    rfl

/-- Lowering a tree with the right layout ends, and what it makes of it, in place, is the core of
the plain tree. -/
theorem lower_eq_lowered (hheld : a.Holds none T) (hnodup : T.ids.Nodup)
    (hlaid : T.laidOut = true) (stem : String) (log : Log) :
    ∃ T' log' a', lower stem T.id log a = .ok ((T'.id, log'), a') ∧ a'.Holds none T' ∧
      T'.ids.Nodup ∧ T'.plain = T.plain.lowered stem := by
  suffices hends : Ends (lower stem T.id log) a fun p a' => ∃ T' : Tree, p.1 = T'.id ∧
      a'.Holds none T' ∧ T'.ids.Nodup ∧ T'.plain = T.plain.lowered stem by
    obtain ⟨⟨_, log'⟩, a', hrun, T', rfl, hholds, hnodup, hplain⟩ := ends_iff.mp hends
    exact ⟨T', log', a', hrun, hholds, hnodup, hplain⟩
  have hbudget : T.effort ≤ 8 * a.size + 8 := by
    have heffort := T.effort_le_length
    have hlength := hheld.length_ids_le hnodup
    omega
  have hunder : a.Under none [] T := ⟨.root, hnodup⟩
  have hsite : a.Site none [] [] T :=
    ⟨fun _ hp => (nomatch hp), fun _ hid => (nomatch hid), fun _ hid => (nomatch hid)⟩
  simp only [lower, Edit.replaceAll, ends_bind_iff, ends_get_iff, ends_bind_apply_iff,
    ends_get_inner_iff, hheld.ofTree_eq hnodup hlaid]
  refine (lowersWithin_of_effort_le hbudget hheld hunder hsite).mono ?_
  rintro ⟨_, s'⟩ a' ⟨T', rfl, hlowers, hreplaced⟩
  exact ⟨T', rfl, hreplaced.holds, hreplaced.nodup, hlowers.plain_eq_lowered hlaid⟩

end

/-- A loop that takes a negative for as long as its condition holds, in an arena of its own. -/
def loopTree : Tree :=
  .node ⟨3⟩ (.expr .whileLoop) default false
    [.node ⟨0⟩ (.expr (.reference "go")) default false [],
      .node ⟨2⟩ (.expr (.unary "-")) default false
        [.node ⟨1⟩ (.expr (.reference "_0")) default false []]]

def loopArena : Arena where
  nodes := #[
    { form := .expr (.reference "go"), span := default, parent := some ⟨3⟩ },
    { form := .expr (.reference "_0"), span := default, parent := some ⟨2⟩ },
    { form := .expr (.unary "-"), span := default, children := [⟨1⟩], parent := some ⟨3⟩ },
    { form := .expr .whileLoop, span := default, children := [⟨0⟩, ⟨2⟩] }]

theorem holds_loopTree : loopArena.Holds none loopTree := by
  refine .node (by decide) rfl fun child hchild => ?_
  rcases List.mem_pair.mp hchild with rfl | rfl
  · exact .node (by decide) rfl fun _ h => (nomatch h)
  · refine .node (by decide) rfl fun child hchild => ?_
    rw [List.mem_singleton.mp hchild]
    exact .node (by decide) rfl fun _ h => (nomatch h)

theorem lower_eq_lowered_loopTree :
    (loopArena.Holds none loopTree ∧ loopTree.ids.Nodup ∧ loopTree.laidOut = true) ∧
      ∃ T' log' a', lower "_" loopTree.id .empty loopArena = .ok ((T'.id, log'), a') ∧
        a'.Holds none T' ∧ T'.ids.Nodup ∧ T'.plain = loopTree.plain.lowered "_" :=
  ⟨⟨holds_loopTree, by decide, by decide⟩,
    lower_eq_lowered holds_loopTree (by decide) (by decide) "_" .empty⟩

end MessageLang
