import MessageLang.Proofs.Typing.Unresolved

namespace MessageLang

/-- The problems of names that mean nothing and, if that is to be reported, of code that cannot be
reached. -/
def Problem.isOwed (options : TypingOptions) : Problem → Bool
  | .unresolvedName _ => true
  | .unreachableCode => options.reportsUnreachable
  | _ => false

section

variable {options : TypingOptions} {problem other : Problem}

theorem Problem.ne_of_isOwed (h : problem.isOwed options) (hother : other.isOwed options = false) :
    problem ≠ other := by
  rintro rfl
  exact Bool.false_ne_true (hother.symm.trans h)

theorem Problem.isOfType_of_isOwed (h : problem.isOwed options) : problem.isOfType = false := by
  cases problem <;> first | rfl | cases h

end

namespace Tree

/-- The first of some items of a block that cannot be reached: the one after the first return. -/
def stranded? (returned : Bool) : List Tree → Option Tree
  | [] => none
  | C :: rest => if returned then some C else stranded? (C.form == .expr .returnExit) rest

/-- An item of a block comes right after the first return among the items. -/
def Strands (B C : Tree) : Prop :=
  B.form = .expr .block ∧ ∃ before X after, B.expressions = before ++ X :: C :: after ∧
    X.form = .expr .returnExit ∧ ∀ Y ∈ before, Y.form ≠ .expr .returnExit

variable {B C : Tree} {items : List Tree}

theorem stranded?_eq_some_iff : stranded? false items = some C ↔
    ∃ before X after, items = before ++ X :: C :: after ∧ X.form = .expr .returnExit ∧
      ∀ Y ∈ before, Y.form ≠ .expr .returnExit := by
  induction items with
  | nil => simp [stranded?]
  | cons Z rest ih =>
    rw [stranded?, if_neg Bool.false_ne_true]
    by_cases hreturn : Z.form = .expr .returnExit
    · rw [beq_iff_eq.mpr hreturn]
      constructor
      · intro h
        cases rest with
        | nil => cases h
        | cons U rest =>
          cases h
          exact ⟨[], Z, rest, rfl, hreturn, nofun⟩
      · rintro ⟨_ | ⟨Y, before⟩, X, after, heq, -, hbefore⟩
        · cases heq
          rfl
        · obtain ⟨rfl, -⟩ := List.cons.inj heq
          exact absurd hreturn (hbefore _ List.mem_cons_self)
    · rw [beq_eq_false_iff_ne.mpr hreturn, ih]
      constructor
      · rintro ⟨before, X, after, rfl, hX, hbefore⟩
        exact ⟨Z :: before, X, after, rfl, hX, List.forall_mem_cons.mpr ⟨hreturn, hbefore⟩⟩
      · rintro ⟨_ | ⟨Y, before⟩, X, after, heq, hX, hbefore⟩
        · obtain ⟨rfl, -⟩ := List.cons.inj heq
          exact absurd hX hreturn
        · obtain ⟨-, rfl⟩ := List.cons.inj heq
          exact ⟨before, X, after, rfl, hX, (List.forall_mem_cons.mp hbefore).2⟩

theorem Strands.mem (h : B.Strands C) : C ∈ B.expressions := by
  obtain ⟨-, before, X, after, heq, -⟩ := h
  simp [heq]

end Tree

open MessageLang.Tree (Known stranded?)

/-- The report of the item after the first return of a block. -/
def Unreached (a : Arena) (R : Tree) (r : Report) : Prop :=
  ∃ path B C, R.Within path B ∧ B.Strands C ∧ r = ⟨.unreachableCode, C.id, a.span C.id⟩

/-- What typing is to report: names that mean nothing where they stand, and the first item of a block
that cannot be reached. -/
def Owed (a : Arena) (R : Tree) (r : Report) : Prop := Unresolved a R r ∨ Unreached a R r

/-- The expression whose rule makes a report. Code that cannot be reached is reported by the block it
is in. -/
def Report.origin (a : Arena) (r : Report) : NodeId :=
  match r.problem with
  | .unreachableCode => (a.parent r.node).getD r.node
  | _ => r.node

open Classical in
/-- Whether an expression, or one in it, owes a report, as a number. -/
noncomputable def debt (a : Arena) (R : Tree) (r : Report) (T : Tree) : Nat :=
  if Owed a R r ∧ r.origin a ∈ T.ids then 1 else 0

/-- Whether a report is of a certain item that cannot be reached, as a number. -/
def strandedDebt (a : Arena) (r : Report) (item? : Option Tree) : Nat :=
  item?.elim 0 fun C => if r = ⟨.unreachableCode, C.id, a.span C.id⟩ then 1 else 0

open Classical in
/-- Whether an expression owes a report itself, as a number. -/
noncomputable def ownDebt (a : Arena) (R : Tree) (r : Report) (T : Tree) : Nat :=
  if Owed a R r ∧ r.origin a = T.id then 1 else 0

section

variable {a : Arena} {R N T B C : Tree} {path : List Tree} {r : Report} {name : String}

theorem debt_of_not_mem (h : r.origin a ∉ T.ids) : debt a R r T = 0 := if_neg fun hmem => h hmem.2

theorem debt_of_mem (hr : Owed a R r) (h : r.origin a ∈ T.ids) : debt a R r T = 1 :=
  if_pos ⟨hr, h⟩

theorem debt_of_not_owed (hr : ¬ Owed a R r) : debt a R r T = 0 :=
  if_neg fun h => hr h.1

/-- What is owed is so as often in an expression as the expression that owes it. -/
theorem debt_eq_count (hr : Owed a R r) (hnodup : T.ids.Nodup) :
    debt a R r T = T.ids.count (r.origin a) := by
  by_cases h : r.origin a ∈ T.ids
  · rw [debt_of_mem hr h, List.count_eq_one_of_mem hnodup h]
  · rw [debt_of_not_mem h, List.count_eq_zero_of_not_mem h]

theorem sum_debt_of_not_owed (hr : ¬ Owed a R r) (trees : List Tree) :
    (trees.map (debt a R r)).sum = 0 :=
  List.sum_eq_zero fun n hn => by
    obtain ⟨T, -, rfl⟩ := List.mem_map.mp hn
    exact debt_of_not_owed hr

theorem sum_debt_of_not_mem {trees : List Tree} (h : ∀ T ∈ trees, r.origin a ∉ T.ids) :
    (trees.map (debt a R r)).sum = 0 :=
  List.sum_eq_zero fun n hn => by
    obtain ⟨T, hT, rfl⟩ := List.mem_map.mp hn
    exact debt_of_not_mem (h T hT)

/-- What is owed is so in one expression at most of some that have no nodes in common. -/
theorem sum_debt_of_mem {trees : List Tree} (hr : Owed a R r)
    (hapart : trees.Pairwise fun X Y => List.Disjoint X.ids Y.ids) (hT : T ∈ trees)
    (h : r.origin a ∈ T.ids) : (trees.map (debt a R r)).sum = 1 := by
  induction trees with
  | nil => cases hT
  | cons U trees ih =>
    rw [List.pairwise_cons] at hapart
    rw [List.map_cons, List.sum_cons]
    rcases List.mem_cons.mp hT with rfl | hT
    · rw [debt_of_mem hr h, sum_debt_of_not_mem fun V hV hmem => hapart.1 V hV h hmem]
    · rw [debt_of_not_mem fun hmem => hapart.1 T hT hmem h, ih hapart.2 hT]

theorem Unresolved.origin_eq (h : Unresolved a R r) : r.origin a = r.node := by
  obtain ⟨_, _, _, -, -, -, rfl⟩ := h
  rfl

/-- Of names, what is owed is what is unresolved. -/
theorem debt_eq_share (hr : r.problem = .unresolvedName name) : debt a R r T = share a R r T := by
  by_cases h : Unresolved a R r
  · have howed : Owed a R r := .inl h
    simp only [debt, share, h, howed, h.origin_eq]
  · refine (debt_of_not_owed ?_).trans (share_of_not_unresolved h).symm
    rintro (h' | ⟨_, _, _, -, -, rfl⟩)
    · exact h h'
    · cases hr

section

variable (hR : a.Ready R)
include hR

theorem origin_of_strands (hB : R.Within path B) (hC : B.Strands C) (span : Span) :
    Report.origin a ⟨.unreachableCode, C.id, span⟩ = B.id := by
  obtain ⟨_, hheld⟩ := hR.held
  obtain ⟨_, hblock⟩ := hB.held hheld
  have hchild := hblock.child (Tree.mem_children_of_mem_expressions hC.mem)
  rw [Report.origin, hchild.parent_eq]
  rfl

/-- What is owed is owed by an expression that uses a name or is a block. -/
theorem Owed.exists_origin (h : Owed a R r) : ∃ path X, R.Within path X ∧ X.id = r.origin a ∧
    (X.usedName? ≠ none ∨ X.form = .expr .block) := by
  rcases h with h | ⟨path, B, C, hB, hC, rfl⟩
  · have horigin := h.origin_eq
    obtain ⟨path, X, name, hX, hused, -, rfl⟩ := h
    exact ⟨path, X, hX, horigin.symm, .inl (by simp [hused])⟩
  · exact ⟨path, B, hB, (origin_of_strands hR hB hC _).symm, .inr hC.1⟩

/-- What is owed in an expression is so by the expression itself or by one of its parts. -/
theorem Owed.exists_part (h : Owed a R r) (hN : R.Within path N) (hmem : r.origin a ∈ N.ids)
    (hne : r.origin a ≠ N.id) : ∃ C ∈ N.expressions, r.origin a ∈ C.ids := by
  obtain ⟨path', X, hX, hid, -⟩ := h.exists_origin hR
  rw [← hid] at hmem hne ⊢
  have habove : N ∈ X :: path' := by
    rcases hX.nested hN hR.nodup X.id_mem_ids hmem with h | h
    · rcases List.mem_cons.mp h with rfl | h
      · exact List.mem_cons_self
      · exact absurd hmem (hN.id_not_mem_of_mem hR.nodup h)
    · exact h
  rcases List.mem_cons.mp habove with rfl | habove
  · exact absurd rfl hne
  · obtain ⟨C, hC, hbelow⟩ := hX.exists_child habove
    refine ⟨C, hC, ?_⟩
    rcases List.mem_cons.mp hbelow with rfl | hbelow
    · exact C.id_mem_ids
    · exact hX.ids_subset_of_mem hbelow X.id_mem_ids

theorem debt_eq (hN : R.Within path N) :
    debt a R r N = ownDebt a R r N + (N.expressions.map (debt a R r)).sum := by
  by_cases hr : Owed a R r
  · by_cases hmem : r.origin a ∈ N.ids
    · rw [debt_of_mem hr hmem]
      by_cases hown : r.origin a = N.id
      · rw [ownDebt, if_pos ⟨hr, hown⟩, sum_debt_of_not_mem fun C hC hid => ?_]
        exact Tree.id_not_mem_of_mem_expressions (hN.nodup hR.nodup) hC (hown ▸ hid)
      · obtain ⟨C, hC, hid⟩ := hr.exists_part hR hN hmem hown
        rw [ownDebt, if_neg fun h => hown h.2, Nat.zero_add]
        exact (sum_debt_of_mem hr (Tree.pairwise_expressions (hN.nodup hR.nodup)) hC hid).symm
    · have hown : r.origin a ≠ N.id := fun hid => hmem (hid ▸ N.id_mem_ids)
      rw [debt_of_not_mem hmem, ownDebt, if_neg fun h => hown h.2,
        sum_debt_of_not_mem fun C hC hid => hmem (Tree.ids_subset_of_mem_expressions hC hid)]
  · rw [debt_of_not_owed hr, ownDebt, if_neg fun h => hr h.1, sum_debt_of_not_owed hr]

/-- Only expressions that use a name and blocks owe something themselves. -/
theorem Owed.origin_ne (h : Owed a R r) (hN : R.Within path N) (huse : N.usedName? = none)
    (hblock : N.form ≠ .expr .block) : r.origin a ≠ N.id := by
  obtain ⟨path', X, hX, hid, hsort⟩ := h.exists_origin hR
  intro heq
  obtain ⟨-, rfl⟩ := hX.unique hN hR.nodup (hid.trans heq)
  exact hsort.elim (fun hused => hused huse) hblock

theorem debt_eq_sum (hN : R.Within path N) (huse : N.usedName? = none)
    (hblock : N.form ≠ .expr .block) : debt a R r N = (N.expressions.map (debt a R r)).sum := by
  rw [debt_eq hR hN, ownDebt, if_neg fun h => h.1.origin_ne hR hN huse hblock h.2, Nat.zero_add]

/-- An expression that uses a name owes what is unresolved there. -/
theorem ownDebt_iff_of_use (hN : R.Within path N) (huse : N.usedName? = some name) :
    Owed a R r ∧ r.origin a = N.id ↔
      ¬ Known a path name ∧ r = ⟨.unresolvedName name, N.id, a.span N.id⟩ := by
  constructor
  · rintro ⟨⟨path', X, other, hX, hused, hnot, rfl⟩ | ⟨path', B, C, hB, hC, rfl⟩, hid⟩
    · obtain ⟨rfl, rfl⟩ := hX.unique hN hR.nodup hid
      cases huse.symm.trans hused
      exact ⟨hnot, rfl⟩
    · rw [origin_of_strands hR hB hC] at hid
      obtain ⟨-, rfl⟩ := hB.unique hN hR.nodup hid
      rw [Tree.usedName?, hC.1] at huse
      cases huse
  · rintro ⟨hnot, rfl⟩
    exact ⟨.inl ⟨path, N, name, hN, huse, hnot, rfl⟩, rfl⟩

theorem ownDebt_of_known (hN : R.Within path N) (huse : N.usedName? = some name)
    (hknown : Known a path name) : ownDebt a R r N = 0 :=
  if_neg fun h => ((ownDebt_iff_of_use hR hN huse).mp h).1 hknown

theorem ownDebt_of_not_known (hN : R.Within path N) (huse : N.usedName? = some name)
    (hknown : ¬ Known a path name) :
    ownDebt a R r N = if r = ⟨.unresolvedName name, N.id, a.span N.id⟩ then 1 else 0 := by
  classical
  exact if_congr ((ownDebt_iff_of_use hR hN huse).trans (and_iff_right hknown)) rfl rfl

/-- A block owes what is after its first return. -/
theorem ownDebt_of_block (hN : R.Within path N) (hform : N.form = .expr .block) :
    ownDebt a R r N = strandedDebt a r (stranded? false N.expressions) := by
  have howed : Owed a R r ∧ r.origin a = N.id ↔ ∃ C ∈ stranded? false N.expressions,
      r = ⟨.unreachableCode, C.id, a.span C.id⟩ := by
    constructor
    · rintro ⟨⟨path', X, other, hX, hused, hnot, rfl⟩ | ⟨path', B, C, hB, hC, rfl⟩, hid⟩
      · obtain ⟨rfl, rfl⟩ := hX.unique hN hR.nodup hid
        rw [Tree.usedName?, hform] at hused
        cases hused
      · rw [origin_of_strands hR hB hC] at hid
        obtain ⟨-, rfl⟩ := hB.unique hN hR.nodup hid
        exact ⟨C, Tree.stranded?_eq_some_iff.mpr hC.2, rfl⟩
    · rintro ⟨C, hC, rfl⟩
      have hstrands : N.Strands C := ⟨hform, Tree.stranded?_eq_some_iff.mp hC⟩
      exact ⟨.inr ⟨path, N, C, hN, hstrands, rfl⟩, origin_of_strands hR hN hstrands _⟩
  simp only [ownDebt, howed]
  cases stranded? false N.expressions <;> simp [strandedDebt]

end

end

end MessageLang
