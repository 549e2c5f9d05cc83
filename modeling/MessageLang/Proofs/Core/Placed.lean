import MessageLang.Proofs.Core.TreeStep
import MessageLang.Proofs.Tree.Copying

namespace MessageLang

open Placement

namespace Arena

/-- The nodes above a place in a tree, nearest first, with what they are. -/
inductive Above (a : Arena) : Option NodeId → List (NodeId × NodeForm) → Prop
  | root : Above a none []
  | under {id : NodeId} {path : List (NodeId × NodeForm)} (lt : id.index < a.size)
      (above : a.Above (a.parent id) path) : Above a (some id) ((id, a.form id) :: path)

/-- A tree stands at a place that it is not itself above of. -/
structure Under (a : Arena) (parent : Option NodeId) (path : List (NodeId × NodeForm)) (T : Tree) :
    Prop where
  above : a.Above parent path
  nodup : (path.map (·.1) ++ T.ids).Nodup

section

variable {a a' : Arena} {parent : Option NodeId} {path : List (NodeId × NodeForm)} {T : Tree}

theorem Above.lt (h : a.Above parent path) {entry : NodeId × NodeForm} (hentry : entry ∈ path) :
    entry.1.index < a.size := by
  induction h with
  | root => cases hentry
  | under lt _ ih =>
    rcases List.mem_cons.mp hentry with rfl | hentry
    · exact lt
    · exact ih hentry

theorem Above.form_eq (h : a.Above parent path) {entry : NodeId × NodeForm}
    (hentry : entry ∈ path) : a.form entry.1 = entry.2 := by
  induction h with
  | root => cases hentry
  | under _ _ ih =>
    rcases List.mem_cons.mp hentry with rfl | hentry
    · rfl
    · exact ih hentry

theorem Above.head?_eq (h : a.Above parent path) : path.head?.map (·.1) = parent := by
  cases h <;> rfl

/-- What is above a place stays so while none of those nodes is moved or changed itself. -/
theorem Above.keep (h : a.Above parent path) (hsize : a.size ≤ a'.size)
    (hsame : ∀ entry ∈ path, a'.form entry.1 = a.form entry.1 ∧
      a'.parent entry.1 = a.parent entry.1) : a'.Above parent path := by
  induction h with
  | root => exact .root
  | @under id path lt above ih =>
    obtain ⟨hform, hparent⟩ := hsame (id, a.form id) (by simp)
    have hrest := ih fun entry hentry => hsame entry (by simp [hentry])
    rw [← hparent] at hrest
    rw [← hform]
    exact .under (lt.trans_le hsize) hrest

theorem Above.ancestorsWithin_eq {id : NodeId} (h : a.Above (a.parent id) path) {steps : Nat}
    (hsteps : path.length ≤ steps) : a.ancestorsWithin steps id = path.map (·.1) := by
  generalize hparent : a.parent id = parent at h
  induction h generalizing id steps with
  | root =>
    cases steps with
    | zero => rfl
    | succ steps => simp [ancestorsWithin, hparent]
  | under lt above ih =>
    cases steps with
    | zero => simp at hsteps
    | succ steps =>
      simp only [ancestorsWithin, hparent, List.map_cons, List.cons.injEq, true_and]
      exact ih (by simpa using hsteps) rfl

theorem Above.length_le (h : a.Above parent path) (hnodup : (path.map (·.1)).Nodup) :
    path.length ≤ a.size := by
  rw [← List.length_map (·.1)]
  refine NodeId.length_le_of_nodup hnodup fun id hid => ?_
  obtain ⟨entry, hentry, rfl⟩ := List.mem_map.mp hid
  exact h.lt hentry

theorem Under.ancestors_eq (h : a.Under parent path T) (hheld : a.Holds parent T) :
    a.ancestors T.id = path.map (·.1) := by
  have habove := h.above
  rw [← hheld.parent_eq] at habove
  exact habove.ancestorsWithin_eq (h.above.length_le (List.nodup_append.mp h.nodup).1)

/-- Looking for an ancestor of a sort is looking through what the nodes above are. -/
private theorem Under.find?_ancestors (h : a.Under parent path T) (hheld : a.Holds parent T)
    (p : NodeForm → Bool) :
    ((a.ancestors T.id).find? fun id => p (a.form id)).map a.form =
      (path.map (·.2)).find? p := by
  have hforms : (path.map (·.1)).map a.form = path.map (·.2) := by
    rw [List.map_map]
    exact List.map_congr_left fun entry hentry => h.above.form_eq hentry
  rw [h.ancestors_eq hheld, ← hforms, List.find?_map (f := a.form)]
  rfl

private theorem hasHandler_eq (h : a.Holds parent T) : hasHandler a T.id = T.hasHandler := by
  have hexpr : ∀ child ∈ T.expressions, a.expr? child.id = child.expr? := fun child hchild =>
    (h.child (List.mem_of_mem_filter hchild)).expr?_eq
  unfold hasHandler Tree.hasHandler
  rw [h.expressions_eq]
  cases hexprs : T.expressions with
  | nil => rfl
  | cons code rest =>
    have hcode : code ∈ T.expressions := by simp [hexprs]
    have hheld := h.child (List.mem_of_mem_filter hcode)
    have hinner : ∀ item ∈ code.expressions, a.expr? item.id = item.expr? := fun item hitem =>
      (hheld.child (List.mem_of_mem_filter hitem)).expr?_eq
    have hany : (a.expressions code.id).any (isHandler a) =
        code.expressions.any (·.expr? == some .handler) := by
      rw [hheld.expressions_eq, List.any_map, Bool.eq_iff_iff, List.any_eq_true, List.any_eq_true]
      refine exists_congr fun item => and_congr_right fun hitem => ?_
      rw [Function.comp_apply, isHandler, hinner item hitem]
    simp only [List.map_cons, isHandler, isBlock, hexpr code hcode]
    rw [← hany]

/-- What is wrong with where a node stands can be read off what the nodes above it are. -/
theorem Under.problem?_eq (h : a.Under parent path T) (hheld : a.Holds parent T) :
    Placement.problem? a T.id = T.problem? (path.map (·.2)) := by
  have hblock : (a.enclosingExpr? T.id).any (isBlock a) =
      ((path.map (·.2)).find? (·.expr?.isSome)).any (·.expr? == some .block) := by
    rw [← h.find?_ancestors hheld fun form => form.expr?.isSome, Option.any_map]
    rfl
  have hgroup : ((a.parent T.id).any fun parent => a.expr? parent == some .locals) =
      (path.map (·.2)).head?.any (·.expr? == some .locals) := by
    rw [hheld.parent_eq, ← h.above.head?_eq]
    cases hpath : path with
    | nil => rfl
    | cons entry rest =>
      have hmem : entry ∈ path := by simp [hpath]
      have hform := h.above.form_eq hmem
      simp [expr?, hform]
  have hinside : ∀ sort : ExprForm → Bool, (a.inside? sort T.id).isSome =
      ((path.map (·.2)).find? fun form => form.expr?.any sort).isSome := by
    intro sort
    rw [← h.find?_ancestors hheld fun form => form.expr?.any sort, Option.isSome_map]
    rfl
  have hform : a.expr? T.id = T.expr? := hheld.expr?_eq
  cases hsort : T.expr? with
  | none => simp [Placement.problem?, Tree.problem?, hform, hsort]
  | some form =>
    cases form <;> simp only [Placement.problem?, Tree.problem?, hform, hsort, hblock, hgroup,
      hinside, hasHandler_eq hheld]

end

end Arena

namespace Arena.Apart

variable {start a : Arena} {owned : List NodeId} {rest : Multiset Part} {size : Nat}
  {parent : Option NodeId}

/-- Going through the items of a struct gives the names there, and notes the same problems. -/
theorem checkFields {trees : List Tree} {log : Log} {seen : FieldsSeen} {index : Nat}
    (h : start.Apart owned ((trees.map (.tree parent) : List Part) + rest) size a) :
    Ends (Placement.checkFields log seen index ((trees.filter Tree.isExpr).map Tree.id)) a
      fun log' a' => log' = (Tree.nameFields log seen index trees).1 ∧
        start.Apart owned
          (((Tree.nameFields log seen index trees).2.map (.tree parent) : List Part) + rest) size
          a' := by
  induction trees generalizing log seen index rest a with
  | nil => exact ends_pure_iff.mpr ⟨rfl, h⟩
  | cons T trees ih =>
    simp only [List.map_cons, ← Multiset.cons_coe, ← Multiset.singleton_add, add_assoc] at h
    have hheld := h.holds
    have hrest := h
    rw [add_left_comm] at hrest
    -- the items after this one, with this one left as it is
    have hskip : ∀ {log : Log} {seen : FieldsSeen} {index : Nat},
        Ends (Placement.checkFields log seen index ((trees.filter Tree.isExpr).map Tree.id)) a
          fun log' a' => log' = (Tree.nameFields log seen index trees).1 ∧
            start.Apart owned (((T :: (Tree.nameFields log seen index trees).2).map
              (.tree parent) : List Part) + rest) size a' := by
      intro log seen index
      refine (ih hrest).mono ?_
      rintro _ a' ⟨rfl, h'⟩
      refine ⟨rfl, ?_⟩
      rw [List.map_cons, ← Multiset.cons_coe, ← Multiset.singleton_add]
      exact h'.regroup (by abel)
    unfold Tree.nameFields
    cases hform : T.form with
    | token t =>
      rw [List.filter_cons_of_neg (by simp [Tree.isExpr, hform, NodeForm.expr?])]
      exact hskip
    | type form =>
      rw [List.filter_cons_of_neg (by simp [Tree.isExpr, hform, NodeForm.expr?])]
      exact hskip
    | expr form =>
      rw [List.filter_cons_of_pos (by simp [Tree.isExpr, hform, NodeForm.expr?]), List.map_cons]
      unfold Placement.checkFields
      simp only [ends_bind_iff, ends_get_iff, hheld.expr?_eq, hform, NodeForm.expr?]
      cases form with
      | structField declared =>
        simp only [ends_bind_iff, ends_get_iff]
        refine (h.setForm _).mono fun _ a₁ h₁ => ?_
        have hreport : ∀ (log : Log) (problem : Problem),
            log.report a₁ T.id problem = log.reportAt T problem := by
          intro log problem
          have hspan : a₁.span T.id = T.span := h₁.holds.span_eq
          rw [Log.report, Log.reportAt, hspan]
        simp only [hreport]
        rw [add_left_comm] at h₁
        refine (ih h₁).mono ?_
        rintro _ a₂ ⟨rfl, h₂⟩
        refine ⟨rfl, ?_⟩
        rw [List.map_cons, ← Multiset.cons_coe, ← Multiset.singleton_add]
        exact h₂.regroup (by abel)
      | _ => exact hskip

end Arena.Apart

end MessageLang
