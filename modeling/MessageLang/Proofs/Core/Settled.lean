import MessageLang.Proofs.Core.Fields
import MessageLang.Proofs.Core.Lowered

namespace MessageLang

namespace Tree

theorem withChildren_children (T : Tree) : T.withChildren T.children = T := by
  cases T
  rfl

/-- Trees that no step changes anything about: their form and their parts are those of the core
language. -/
def Still (T : Tree) : Prop :=
  T.Kept ∨ (∃ form, T.form = .expr form ∧ isPlaced form = true) ∨
    (T.form = .expr .struct ∧ ∀ child ∈ T.children, child.form ≠ .expr (.structField none))

/-- Trees that no step changes anything about, anywhere in them. -/
inductive Settled : Tree → Prop
  | node {T : Tree} (still : T.Still) (children : ∀ child ∈ T.children, Settled child) : Settled T

theorem Settled.still {T : Tree} (h : T.Settled) : T.Still := by
  cases h
  assumption

theorem Settled.child {T child : Tree} (h : T.Settled) (hchild : child ∈ T.children) :
    child.Settled := by
  cases h with
  | node _ children => exact children child hchild

/-- Fields that all have names keep them. -/
theorem nameFields_eq_of_named {trees : List Tree}
    (h : ∀ T ∈ trees, T.form ≠ .expr (.structField none)) (log : Log)
    (seen : Placement.FieldsSeen) (index : Nat) : (nameFields log seen index trees).2 = trees := by
  induction trees generalizing log seen index with
  | nil => rfl
  | cons T rest ih =>
    obtain ⟨hT, hrest⟩ := List.forall_mem_cons.mp h
    unfold nameFields
    split
    · next declared hform =>
      cases declared with
      | none => exact absurd hform hT
      | some name =>
        have hsame : T.setForm (.expr (.structField (some name))) = T := by
          cases T
          exact congrArg (node _ · ..) hform.symm
        simp only [Option.getD_some, hsame, ih hrest]
    · exact congrArg _ (ih hrest ..)
    · exact congrArg _ (ih hrest ..)

section

variable {T : Tree} {above : List NodeForm} {s s' : Lowering} {size : Nat} {made : Tree × Nat}

/-- A tree that no step changes anything about is not rewritten. -/
theorem Rewrites.not_still (h : T.Rewrites s size made s') : ¬ T.Still := by
  rintro (hkept | ⟨form, hform, hplaced⟩ | ⟨hform, -⟩)
  · unfold Kept at hkept
    cases h with
    | unary form_eq operands => rw [form_eq] at hkept; cases operands.symm.trans hkept
    | function form_eq operands => rw [form_eq] at hkept; cases operands.symm.trans hkept
    | logic form_eq _ operands => rw [form_eq] at hkept; cases operands.symm.trans hkept
    | binary form_eq _ operands => rw [form_eq] at hkept; cases operands.symm.trans hkept
    | whileLoop form_eq operands => rw [form_eq] at hkept; cases operands.symm.trans hkept
    | block form_eq items free =>
      rw [form_eq] at hkept
      cases free.symm.trans (hkept _ items)
  · obtain ⟨form', hform', hnot, -⟩ := h.exists_form_eq
    cases hform.symm.trans hform'
    cases hplaced.symm.trans hnot
  · obtain ⟨form', hform', -, hnot⟩ := h.exists_form_eq
    exact hnot (NodeForm.expr.inj (hform'.symm.trans hform))

/-- A tree that no step changes anything about stays as it is. -/
theorem Settles.eq_of_still (h : T.Settles above s size made s') (hstill : T.Still) :
    made = (T, size) := by
  cases h with
  | conditional form_eq branches =>
    rcases hstill with hkept | ⟨form, hform, hplaced⟩ | ⟨hform, -⟩
    · rw [Kept, form_eq] at hkept
      exact absurd branches hkept
    · cases form_eq.symm.trans hform
      cases hplaced
    · cases form_eq.symm.trans hform
  | struct form_eq =>
    rcases hstill with hkept | ⟨form, hform, hplaced⟩ | ⟨-, hnamed⟩
    · rw [Kept, form_eq] at hkept
      exact hkept.elim
    · cases form_eq.symm.trans hform
      cases hplaced
    · rw [nameFields_eq_of_named hnamed, withChildren_children]
  | placed => rfl
  | kept => rfl

/-- Parts that others stand for have as many expressions among them, of which each stands for its
own. -/
private theorem forall₂_filter_isExpr {trees trees' : List Tree}
    (h : List.Forall₂ (fun T T' : Tree => T.form.StandsFor T'.form) trees trees') :
    List.Forall₂ (fun T T' : Tree => T.form.StandsFor T'.form) (trees.filter isExpr)
      (trees'.filter isExpr) := by
  induction h with
  | nil => exact .nil
  | @cons T T' _ _ hhead _ ih =>
    have hsame : T'.isExpr = T.isExpr := hhead.isSome_eq
    cases hexpr : T.isExpr with
    | true =>
      rw [List.filter_cons_of_pos hexpr, List.filter_cons_of_pos (hsame.trans hexpr)]
      exact .cons hhead ih
    | false =>
      rw [List.filter_cons_of_neg (by simp [hexpr]),
        List.filter_cons_of_neg (by simp [hsame, hexpr])]
      exact ih

/-- What nothing is done about stays so when other trees stand for its parts. -/
theorem Kept.withChildren {children : List Tree} (h : T.Kept)
    (hchildren : List.Forall₂ (fun T T' : Tree => T.form.StandsFor T'.form) T.children children) :
    (T.withChildren children).Kept := by
  have hexprs : List.Forall₂ (fun T T' : Tree => T.form.StandsFor T'.form) T.expressions
      (T.withChildren children).expressions := forall₂_filter_isExpr hchildren
  have hlength := hexprs.length_eq
  have hnil : T.expressions = [] → (T.withChildren children).expressions = [] := fun hnil =>
    List.eq_nil_of_length_eq_zero (by rw [← hlength, hnil]; rfl)
  have htwo : T.twoOperands? = none → (T.withChildren children).twoOperands? = none := by
    intro hnone
    rw [Option.eq_none_iff_forall_ne_some] at hnone ⊢
    rintro ⟨left, right⟩ hsome
    rw [twoOperands?_eq_some_iff] at hsome
    obtain ⟨left', right', hparts⟩ := List.length_eq_two.mp (hlength.trans (by rw [hsome]; rfl))
    exact hnone _ (twoOperands?_eq_some_iff.mpr hparts)
  unfold Kept at h ⊢
  rw [form_withChildren]
  generalize T.form = form at h ⊢
  split at h
  · exact hnil h
  · exact hnil h
  · exact htwo h
  · exact htwo h
  · intro item' hitem'
    rw [hitem'] at hexprs
    obtain ⟨item, items, hstands, hrest, hitems⟩ := List.forall₂_cons_right_iff.mp hexprs
    rw [List.forall₂_nil_right_iff.mp hrest] at hitems
    exact hstands.needsBlock (h item hitems)
  · exact hlength ▸ h
  · exact h.elim
  · trivial

/-- What a tree that settles becomes is not changed any more, whatever stands for its parts. -/
theorem Settles.still (h : T.Settles above s size made s') {children : List Tree}
    (hchildren : List.Forall₂ (fun T T' : Tree => T.form.StandsFor T'.form) made.1.children
      children) : (made.1.withChildren children).Still := by
  cases h with
  | conditional form_eq branches =>
    -- there are three branches now
    have hexprs := (forall₂_filter_isExpr hchildren).length_eq
    have hthree : ((T.completeConditional size).1.children.filter isExpr).length = 3 := by
      obtain ⟨nothing, hexprs⟩ : ∃ nothing, (T.completeConditional size).1.children.filter isExpr =
          T.expressions ++ [nothing] := ⟨_, List.filter_append ..⟩
      rw [hexprs, List.length_append, branches]
      rfl
    have hform : ((T.completeConditional size).1.withChildren children).form = .expr .conditional :=
      form_eq
    refine .inl ?_
    rw [Kept, hform]
    have hlength : ((T.completeConditional size).1.withChildren children).expressions.length = 3 :=
      hexprs.symm.trans hthree
    omega
  | struct form_eq =>
    refine .inr (.inr ⟨form_eq, fun child' hchild' hfield => ?_⟩)
    rw [children_withChildren] at hchild'
    obtain ⟨index, hlt, rfl⟩ := List.getElem_of_mem hchild'
    have hlt' := hchildren.length_eq ▸ hlt
    have hstands : NodeForm.StandsFor _ children[index].form := hchildren.get hlt' hlt
    have hnamed : ∀ U ∈ (nameFields s.log ⟨[], false⟩ 0 T.children).2,
        U.form ≠ .expr (.structField none) := by
      refine forall_nameFields (fun _ _ _ name => by simp) (fun U _ hU heq => ?_) _ _ _
      rw [heq] at hU
      cases hU
    refine hnamed _ (List.get_mem _ ⟨index, hlt'⟩) ?_
    exact (hstands.field (by rw [hfield]; rfl)).symm.trans hfield
  | placed form_eq isPlaced => exact .inr (.inl ⟨_, form_eq, isPlaced⟩)
  | kept kept => exact .inl (kept.withChildren hchildren)

end

end Tree

/-- Lowering makes of trees with fields in structs only trees that no step changes anything about,
each of which stands for the one that it was made of. -/
theorem Lowers.settled {above : List NodeForm} {trees trees' : List Tree} {w w' : Lowering × Nat}
    (h : Lowers above trees w trees' w') (hfields : ∀ T ∈ trees, T.fieldsInStructs = true) :
    (∀ T' ∈ trees', T'.Settled) ∧
      List.Forall₂ (fun T T' : Tree => T.form.StandsFor T'.form) trees trees' := by
  induction h with
  | nil => exact ⟨fun _ h => (nomatch h), .nil⟩
  | @settles above T T' trees trees' children s s₁ size size₁ w₂ w₃ step below after ihbelow
      ihafter =>
    obtain ⟨hT, htrees⟩ := List.forall_mem_cons.mp hfields
    have hinner := step.fieldsInStructs hT
    obtain ⟨hsettled, hstand⟩ := ihbelow fun _ => Tree.fieldsInStructs_of_mem_children hinner
    obtain ⟨hrest, hstands⟩ := ihafter htrees
    refine ⟨List.forall_mem_cons.mpr ⟨.node (step.still hstand) hsettled, hrest⟩, .cons ?_ hstands⟩
    rw [Tree.form_withChildren, step.form_eq]
    exact .refl _
  | @rewrites above T T' trees trees' s s₁ size size₁ w₂ step again ih =>
    obtain ⟨hT, htrees⟩ := List.forall_mem_cons.mp hfields
    have hinherit : (T'.inherit T.grouped).fieldsInStructs = true :=
      (T'.fieldsInStructs_inherit T.grouped).trans (step.fieldsInStructs hT).1
    obtain ⟨hsettled, hstands⟩ := ih (List.forall_mem_cons.mpr ⟨hinherit, htrees⟩)
    obtain ⟨U, rest, hhead, htail, rfl⟩ := List.forall₂_cons_left_iff.mp hstands
    rw [Tree.form_inherit] at hhead
    exact ⟨hsettled, .cons ((step.standsFor hT).trans hhead) htail⟩

/-- Trees that no step changes anything about come out of lowering as they are, without any more
nodes. -/
theorem Lowers.eq_of_settled {above : List NodeForm} {trees trees' : List Tree}
    {w w' : Lowering × Nat} (h : Lowers above trees w trees' w') (hsettled : ∀ T ∈ trees, T.Settled) :
    trees' = trees ∧ w'.2 = w.2 := by
  induction h with
  | nil => exact ⟨rfl, rfl⟩
  | settles step below after ihbelow ihafter =>
    obtain ⟨hT, htrees⟩ := List.forall_mem_cons.mp hsettled
    cases step.eq_of_still hT.still
    obtain ⟨rfl, hsize⟩ := ihbelow fun _ => hT.child
    obtain ⟨rfl, hsize'⟩ := ihafter htrees
    exact ⟨by rw [Tree.withChildren_children], hsize'.trans hsize⟩
  | rewrites step =>
    exact absurd (List.forall_mem_cons.mp hsettled).1.still step.not_still

namespace Arena

theorem ext_node {a a' : Arena} (hsize : a'.size = a.size)
    (hnode : ∀ id : NodeId, id.index < a.size → a'.node id = a.node id) : a' = a := by
  obtain ⟨nodes⟩ := a
  obtain ⟨nodes'⟩ := a'
  refine congrArg Arena.mk (Array.ext hsize fun index hlt' hlt => ?_)
  have heq := hnode ⟨index⟩ hlt
  simpa [node, hlt, hlt'] using heq

section

variable {a a' : Arena} {parent : Option NodeId} {path : List (NodeId × NodeForm)}
  {before after : List NodeId} {T : Tree}

/-- Two arenas with the same tree in them agree on its nodes. -/
theorem Holds.node_eq_of_mem (h : a.Holds parent T) (h' : a'.Holds parent T) {id : NodeId}
    (hid : id ∈ T.ids) : a'.node id = a.node id := by
  induction h with
  | node _ eq children_held ih =>
    simp only [Tree.ids, Tree.idsAll_eq, List.mem_cons, List.mem_flatMap] at hid
    rcases hid with rfl | ⟨child, hchild, hid⟩
    · exact h'.node_eq.trans eq.symm
    · exact ih child hchild (h'.child hchild) hid

/-- A tree in its own place is no change, if there are no more nodes than before. -/
theorem Replaced.eq (h : a.Replaced parent before after T T a') (hheld : a.Holds parent T)
    (hsite : a.Site parent before after T) (hsize : a'.size = a.size) : a' = a := by
  refine ext_node hsize fun id hlt => ?_
  by_cases hid : id ∈ T.ids
  · exact hheld.node_eq_of_mem h.holds hid
  · by_cases hparent : parent = some id
    · rw [h.site id hparent, ← hsite.children_eq id hparent]
      rfl
    · exact h.keeps id hlt hid hparent

theorem Under.child (hunder : a.Under parent path T) (hheld : a.Holds parent T) {child : Tree}
    (hchild : child ∈ T.children) : a.Under (some T.id) ((T.id, T.form) :: path) child := by
  have hsites := hheld.sites hunder
  refine ⟨hsites.above, hsites.nodup.sublist (List.Sublist.append_left ?_ _)⟩
  rw [List.flatMap_def]
  exact List.sublist_flatten_of_mem (List.mem_map_of_mem hchild)

end

end Arena

section

variable {a : Arena} {parent : Option NodeId} {path : List (NodeId × NodeForm)}
  {before after : List NodeId} {T : Tree}

/-- A step changes nothing at a tree that no step changes anything about. -/
theorem Tree.Still.step_eq (h : T.Still) (hheld : a.Holds parent T) (hunder : a.Under parent path T)
    (s : Lowering) : ∃ s', Lowering.step T.id s a = .ok ((none, s'), a) := by
  obtain ⟨⟨next, s'⟩, a', hrun, hleft⟩ := ends_iff.mp (step_ends hheld hunder s)
  cases next with
  | some next =>
    obtain ⟨T', size, hrewrites, -⟩ := hleft
    exact absurd h hrewrites.not_still
  | none =>
    obtain ⟨T', size, hsettles, hapart⟩ := hleft
    cases hsettles.eq_of_still h
    have hheld' : a'.Holds parent T := hapart.held (.tree parent T) (by simp)
    have hsame : a' = a := by
      refine Arena.ext_node hapart.size_eq fun id hlt => ?_
      by_cases hid : id ∈ T.ids
      · exact hheld.node_eq_of_mem hheld' hid
      · exact hapart.keeps.node_eq id hlt hid
    exact ⟨s', hsame ▸ hrun⟩

/-- Nor does it at any node of a tree that no step changes anything about anywhere. -/
theorem Tree.Settled.step_eq (h : T.Settled) (hheld : a.Holds parent T)
    (hunder : a.Under parent path T) {id : NodeId} (hid : id ∈ T.ids) (s : Lowering) :
    ∃ s', Lowering.step id s a = .ok ((none, s'), a) := by
  induction T generalizing parent path with
  | node _ form span grouped children ih =>
    rw [Tree.ids_eq, List.mem_cons, List.mem_flatMap] at hid
    rcases hid with rfl | ⟨child, hchild, hid⟩
    · exact h.still.step_eq hheld hunder s
    · exact ih child hchild (h.child hchild) (hheld.child hchild) (hunder.child hheld hchild) hid

/-- Lowering a tree where no step changes anything leaves the whole arena as it is. -/
theorem Tree.Settled.lower_eq (h : T.Settled) (hheld : a.Holds parent T)
    (hunder : a.Under parent path T) (hsite : a.Site parent before after T) (stem : String)
    (log : Log) : ∃ log', lower stem T.id log a = .ok ((T.id, log'), a) := by
  obtain ⟨R, s', a', hrun, hlowers, hreplaced⟩ := lower_lowers hheld hunder hsite stem log
  obtain ⟨hsame, hsize⟩ := hlowers.eq_of_settled (List.forall_mem_singleton.mpr h)
  cases hsame
  rw [hreplaced.eq hheld hsite hsize] at hrun
  exact ⟨s'.log, hrun⟩

/-- If fields are in structs only, then lowering once more what lowering made changes nothing at
all, whatever the names of temporaries start with: no step gives another node, and the arena stays
as it is. -/
theorem lower_idempotent (hheld : a.Holds parent T) (hunder : a.Under parent path T)
    (hsite : a.Site parent before after T) (hfields : T.fieldsInStructs = true) (stem : String)
    (log : Log) :
    ∃ R log' a', lower stem T.id log a = .ok ((R.id, log'), a') ∧ a'.Holds parent R ∧
      (∀ id ∈ R.ids, ∀ s, ∃ s', Lowering.step id s a' = .ok ((none, s'), a')) ∧
      ∀ stem₁ log₁, ∃ log₂, lower stem₁ R.id log₁ a' = .ok ((R.id, log₂), a') := by
  obtain ⟨R, s', a', hrun, hlowers, hreplaced⟩ := lower_lowers hheld hunder hsite stem log
  have hsettled := (hlowers.settled (List.forall_mem_singleton.mpr hfields)).1 R (by simp)
  have hunder' := hreplaced.under hunder
  exact ⟨R, s'.log, a', hrun, hreplaced.holds,
    fun id hid s => hsettled.step_eq hreplaced.holds hunder' hid s,
    fun stem₁ log₁ => hsettled.lower_eq hreplaced.holds hunder' (hreplaced.site_of hsite) stem₁ log₁⟩

end

theorem lower_idempotent_loopTree :
    (loopArena.Holds none loopTree ∧ loopArena.Under none [] loopTree ∧
        loopArena.Site none [] [] loopTree ∧ loopTree.fieldsInStructs = true) ∧
      ∃ R log' a', lower "_" loopTree.id .empty loopArena = .ok ((R.id, log'), a') ∧
        a'.Holds none R ∧
        (∀ id ∈ R.ids, ∀ s, ∃ s', Lowering.step id s a' = .ok ((none, s'), a')) ∧
        ∀ stem₁ log₁, ∃ log₂, lower stem₁ R.id log₁ a' = .ok ((R.id, log₂), a') := by
  have hunder : loopArena.Under none [] loopTree := ⟨.root, by decide⟩
  have hsite : loopArena.Site none [] [] loopTree :=
    ⟨fun _ hp => (nomatch hp), fun _ hid => (nomatch hid), fun _ hid => (nomatch hid)⟩
  exact ⟨⟨holds_loopTree, hunder, hsite, by decide⟩,
    lower_idempotent holds_loopTree hunder hsite (by decide) "_" .empty⟩

end MessageLang
