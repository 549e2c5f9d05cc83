import MessageLang.Proofs.Core.Gathering

namespace MessageLang

namespace Span

/-- Where a span starts and where it stops. -/
def offsets (s : Span) : List Nat := [s.start, s.stop]

@[simp]
theorem offsets_point (offset : Nat) : (point offset).offsets = [offset, offset] := rfl

theorem offsets_point_subset {offset : Nat} {offsets' : List Nat} (h : offset ∈ offsets') :
    (point offset).offsets ⊆ offsets' := by
  simpa using h

theorem offsets_merge_subset (s t : Span) : (s.merge t).offsets ⊆ s.offsets ++ t.offsets := by
  intro offset hoffset
  simp only [offsets, merge, List.mem_cons, List.not_mem_nil, or_false, List.cons_append,
    List.nil_append] at hoffset ⊢
  omega

theorem merge_point_stop (s : Span) : s.merge (point s.stop) = s := by
  simp [merge, point, s.start_le_stop]

end Span

namespace NodeForm

/-- Where a node of a form starts and stops, and where the token does that it is for. -/
def bounds (form : NodeForm) (span : Span) : List Nat :=
  span.offsets ++ form.token?.toList.flatMap (·.span.offsets)

@[simp]
theorem bounds_expr (form : ExprForm) (span : Span) : (expr form).bounds span = span.offsets :=
  List.append_nil _

@[simp]
theorem bounds_type (form : TypeForm) (span : Span) : (type form).bounds span = span.offsets :=
  List.append_nil _

@[simp]
theorem bounds_minted (kind : TokenKind) (text : String) (offset : Nat) :
    (token (.minted kind text offset)).bounds (Token.minted kind text offset).span =
      [offset, offset, offset, offset] := rfl

@[simp]
theorem bounds_keyword (word : Keyword) (offset : Nat) :
    (token (.keyword word offset)).bounds (Token.keyword word offset).span =
      [offset, offset, offset, offset] := rfl

end NodeForm

namespace Tree

open Growing (Ensures ensures_pure)
open MessageLang.Span (offsets_point_subset)

/-- Where nodes and tokens of some trees start and stop. -/
abbrev offsets (trees : List Tree) : List Nat := gather NodeForm.bounds trees

/-- Starting and stopping at certain offsets only. -/
abbrev LiesOn (offsets' : List Nat) (T : Tree) : Prop := offsets [T] ⊆ offsets'

/-- Being new besides. -/
def NewOn (n : Nat) (offsets' : List Nat) (T : Tree) : Prop := T.LiesOn offsets' ∧ n ≤ T.id.index

variable {T : Tree} {trees : List Tree} {form : ExprForm} {span : Span} {n size : Nat}
  {offsets' : List Nat} {twigs : List Twig}

theorem span_offsets_subset (h : T ∈ trees) : T.span.offsets ⊆ offsets trees :=
  fun _ hoffset => subset_gather h (List.mem_append_left _ hoffset)

theorem start_mem_offsets (h : T ∈ trees) : T.span.start ∈ offsets trees :=
  span_offsets_subset h List.mem_cons_self

theorem stop_mem_offsets (h : T ∈ trees) : T.span.stop ∈ offsets trees :=
  span_offsets_subset h (List.mem_cons_of_mem _ List.mem_cons_self)

theorem ensures_leaf {sort : NodeForm} (hsort : sort.token? = none) (hspan : span.offsets ⊆ offsets') :
    Ensures n (leaf sort span) (LiesOn offsets') := by
  intro size hn
  refine ⟨?_, hn.trans (Nat.le_succ size)⟩
  rw [LiesOn, offsets, gather_leaf, NodeForm.bounds, hsort]
  simpa using hspan

theorem ensures_allocAt (hspan : span.offsets ⊆ offsets')
    (htwigs : Twig.gather NodeForm.bounds twigs ⊆ offsets') :
    Ensures n (allocAt (.expr form) span twigs) (NewOn n offsets') := by
  intro size hn
  have hle := hn.trans (le_size_leaves twigs size)
  refine ⟨⟨?_, hle⟩, hle.trans (Nat.le_succ _)⟩
  rw [LiesOn, offsets, gather_allocAt, NodeForm.bounds_expr]
  exact List.append_subset.mpr ⟨hspan, htwigs⟩

/-- A span from the first of some trees to the last starts and stops where they do. -/
theorem offsets_cover_subset (hne : trees ≠ []) : (cover trees).offsets ⊆ offsets trees := by
  rw [cover, List.head?_eq_some_head hne, List.getLast?_eq_some_getLast hne]
  refine List.Subset.trans (Span.offsets_merge_subset _ _) (List.append_subset.mpr ⟨?_, ?_⟩)
  · exact span_offsets_subset (List.head_mem hne)
  · exact span_offsets_subset (List.getLast_mem hne)

theorem ensures_alloc (offsets' : List Nat) (hne : twigs ≠ [])
    (htwigs : Twig.gather NodeForm.bounds twigs ⊆ offsets') :
    Ensures n (alloc (.expr form) twigs) (LiesOn offsets') := by
  intro size hn
  have hleaves : offsets (leaves twigs size).1 ⊆ offsets' := by rwa [offsets, gather_leaves]
  have hnotnil : (leaves twigs size).1 ≠ [] := by
    rw [← List.length_pos_iff, length_leaves]
    exact List.length_pos_iff.mpr hne
  refine ⟨?_, (hn.trans (le_size_leaves twigs size)).trans (Nat.le_succ _)⟩
  have hgather : offsets [(alloc (.expr form) twigs size).1] =
      (cover (leaves twigs size).1).offsets ++ offsets (leaves twigs size).1 := by
    rw [offsets, gather_singleton, ← NodeForm.bounds_expr form]
    rfl
  rw [LiesOn, hgather]
  exact List.append_subset.mpr ⟨List.Subset.trans (offsets_cover_subset hnotnil) hleaves, hleaves⟩

theorem ensures_copy (h : T.LiesOn offsets') : Ensures n T.copy (LiesOn offsets') := fun size hn =>
  ⟨by rwa [LiesOn, offsets, gather_copy], hn.trans (le_size_copy T size)⟩

theorem offsets_operatorSpan_subset (T : Tree) : T.operatorSpan.offsets ⊆ offsets [T] := by
  unfold operatorSpan
  split
  · next token rest htokens =>
    have htoken : token ∈ T.tokens := htokens ▸ List.mem_cons_self
    obtain ⟨child, hchild, hsort⟩ := List.mem_filterMap.mp htoken
    refine List.Subset.trans ?_ (gather_children_subset T)
    refine List.Subset.trans ?_ (subset_gather hchild)
    simp [NodeForm.bounds, hsort]
  · exact offsets_point_subset (start_mem_offsets (List.mem_singleton_self T))

theorem ensures_whileLoop (name : String) {condition body : Tree} (hspan : T.span.offsets ⊆ offsets')
    (hcondition : condition.LiesOn offsets') (hbody : body.LiesOn offsets') :
    Ensures n (T.whileLoop name condition body) (NewOn n offsets') := by
  obtain ⟨hstart, hstop⟩ : T.span.start ∈ offsets' ∧ T.span.stop ∈ offsets' := by
    simpa [Span.offsets] using hspan
  have hfrom := hcondition (start_mem_offsets (List.mem_singleton_self condition))
  have hto := hcondition (stop_mem_offsets (List.mem_singleton_self condition))
  have hbodyFrom := hbody (start_mem_offsets (List.mem_singleton_self body))
  have hbodySpan := List.Subset.trans (span_offsets_subset (List.mem_singleton_self body)) hbody
  refine (ensures_allocAt hbodySpan ?_).bind fun definition ⟨hdefinition, _⟩ => ?_
  · simpa using ⟨hbodyFrom, hbody⟩
  refine (ensures_allocAt hbodySpan ?_).bind fun binding ⟨hbinding, _⟩ => ?_
  · simpa using ⟨hbodyFrom, hdefinition⟩
  refine (ensures_copy hcondition).bind fun again hagain => ?_
  refine (ensures_leaf rfl (offsets_point_subset hto)).bind fun not hnot => ?_
  refine (ensures_alloc offsets' (by simp) ?_).bind fun negated hnegated => ?_
  · simpa using ⟨hagain, hnot⟩
  refine (ensures_leaf rfl (offsets_point_subset hstop)).bind fun result hresult => ?_
  refine (ensures_alloc offsets' (by simp) ?_).bind fun leave hleave => ?_
  · simpa using ⟨hstop, hresult⟩
  refine (ensures_alloc offsets' (by simp) ?_).bind fun check hcheck => ?_
  · simpa using ⟨hfrom, hnegated, hstop, hleave⟩
  refine (ensures_alloc offsets' (by simp) ?_).bind fun code hcode => ?_
  · simpa using ⟨hbodyFrom, hbinding, hcheck, hstop⟩
  refine (ensures_alloc offsets' (by simp) ?_).bind fun loop hloop => ?_
  · simpa using ⟨hbodyFrom, hcode⟩
  refine ensures_allocAt hspan ?_
  simpa using ⟨hstart, hcondition, hto, hloop⟩

theorem ensures_orEmpty {type? : Option Tree} (hspan : span.offsets ⊆ offsets')
    (htype : ∀ type, type? = some type → type.LiesOn offsets') :
    Ensures n (orEmpty span type?) (LiesOn offsets') := by
  cases type? with
  | none => exact ensures_leaf rfl hspan
  | some type => exact ensures_pure (htype type rfl)

theorem ensures_function {input output : Bool} {body : Tree} (hspan : T.span.offsets ⊆ offsets')
    (htypes : ∀ type ∈ T.types, type.LiesOn offsets') (hbody : body.LiesOn offsets') :
    Ensures n (T.function input output body) (NewOn n offsets') := by
  obtain ⟨hstart, hstop⟩ : T.span.start ∈ offsets' ∧ T.span.stop ∈ offsets' := by
    simpa [Span.offsets] using hspan
  have houtput : Twig.gather NodeForm.bounds ((T.outputType? input output).toList.map .tree) ⊆
      offsets' := by
    cases hout : T.outputType? input output with
    | none => exact List.nil_subset _
    | some type => simpa using htypes type (mem_types_of_outputType?_eq_some hout)
  refine (ensures_orEmpty (offsets_point_subset hstart) fun type htype =>
    htypes type (mem_types_of_inputType?_eq_some htype)).bind fun inputType hinput => ?_
  refine (ensures_allocAt hspan ?_).bind fun handler ⟨hhandler, _⟩ => ?_
  · simpa [Twig.gather_append] using ⟨hstart, hinput, houtput, hbody⟩
  refine (ensures_allocAt hspan ?_).bind fun code ⟨hcode, _⟩ => ?_
  · simpa using ⟨hstart, hhandler, hstop⟩
  refine ensures_allocAt hspan ?_
  simpa using ⟨hstart, hcode⟩

theorem span_inherit (T : Tree) (grouped : Bool) : (T.inherit grouped).span = T.span := by
  cases grouped <;> rfl

theorem id_inherit (T : Tree) (grouped : Bool) : (T.inherit grouped).id = T.id := by
  cases grouped <;> rfl

section

variable {above : List NodeForm} {s s' : Lowering} {made : Tree × Nat}

/-- What a tree is rewritten to starts and stops nowhere but where the tree and its parts do, and its
topmost node is new, unless the tree is a block that is dropped. -/
theorem Rewrites.newOn (h : T.Rewrites s size made s') : made.1.LiesOn (offsets [T]) ∧
    size ≤ made.2 ∧ (T.form ≠ .expr .block → size ≤ made.1.id.index) := by
  have hspan : T.span.offsets ⊆ offsets [T] := span_offsets_subset (List.mem_singleton_self T)
  have hchild : ∀ {part : Tree}, part ∈ T.children → part.LiesOn (offsets [T]) := fun hmem =>
    List.Subset.trans (gather_part_subset hmem) (gather_children_subset T)
  have hpart : ∀ {part : Tree}, part ∈ T.expressions → part.LiesOn (offsets [T]) := fun hmem =>
    hchild (List.mem_of_mem_filter hmem)
  have hmade : ∀ {step : Growing Tree}, Ensures size step (NewOn size (offsets [T])) →
      (step size).1.LiesOn (offsets [T]) ∧ size ≤ (step size).2 ∧
        (T.form ≠ .expr .block → size ≤ (step size).1.id.index) := fun hstep =>
    ⟨(hstep size le_rfl).1.1, (hstep size le_rfl).2, fun _ => (hstep size le_rfl).1.2⟩
  cases h with
  | unary _ operands =>
    have hoperand := hpart (operands ▸ List.mem_cons_self)
    refine hmade ((ensures_leaf rfl T.offsets_operatorSpan_subset).bind fun message hmessage => ?_)
    refine ensures_allocAt hspan ?_
    simpa using ⟨hoperand, hmessage⟩
  | logic _ _ operands =>
    refine hmade (ensures_allocAt hspan ?_)
    rw [Twig.gather_map_tree]
    exact gather_children_subset T
  | binary _ _ operands =>
    rw [twoOperands?_eq_some_iff] at operands
    have hleft := hpart (operands ▸ List.mem_cons_self)
    have hright := hpart (operands ▸ List.mem_cons_of_mem _ List.mem_cons_self)
    refine hmade ((ensures_leaf rfl T.offsets_operatorSpan_subset).bind fun message hmessage => ?_)
    refine (ensures_alloc (offsets [T]) (by simp) ?_).bind fun partially hpartially => ?_
    · simpa using ⟨hleft, hmessage⟩
    refine ensures_allocAt hspan ?_
    simpa using ⟨hpartially, hright⟩
  | whileLoop _ operands =>
    rw [twoOperands?_eq_some_iff] at operands
    exact hmade (ensures_whileLoop _ hspan (hpart (operands ▸ List.mem_cons_self))
      (hpart (operands ▸ List.mem_cons_of_mem _ List.mem_cons_self)))
  | function _ operands =>
    exact hmade (ensures_function hspan (fun type htype => hchild (List.mem_of_mem_filter htype))
      (hpart (operands ▸ List.mem_cons_self)))
  | block form_eq items =>
    refine ⟨?_, le_rfl, fun hnot => absurd form_eq hnot⟩
    rw [LiesOn, offsets, gather_setGrouped]
    exact hpart (items ▸ List.mem_cons_self)

/-- A tree that is rewritten passes its span on, unless it is a block that is dropped. -/
theorem Rewrites.span_eq (h : T.Rewrites s size made s') (hnot : T.form ≠ .expr .block) :
    made.1.span = T.span ∧ made.1.form ≠ .expr .block := by
  cases h with
  | block form_eq => exact absurd form_eq hnot
  | _ => exact ⟨rfl, nofun⟩

theorem span_completeConditional (T : Tree) (size : Nat) :
    (T.completeConditional size).1.span = T.span := by
  calc (T.completeConditional size).1.span
      = (T.span.merge (.point T.span.stop)).merge (.point T.span.stop) := rfl
    _ = T.span := by rw [Span.merge_point_stop, Span.merge_point_stop]

theorem Settles.span_eq (h : T.Settles above s size made s') : made.1.span = T.span := by
  cases h with
  | conditional => exact span_completeConditional T size
  | _ => rfl

theorem liesOn_completeConditional (T : Tree) (size : Nat) :
    (T.completeConditional size).1.LiesOn (offsets [T]) := by
  have hstop := stop_mem_offsets (List.mem_singleton_self T)
  let nothing := (leaf (.expr (.constant .nothing)) (.point T.span.stop) size).1
  let added := leaves [.token (.keyword .elseWord T.span.stop), .tree nothing] (size + 1)
  have hadded : offsets added.1 ⊆ offsets [T] := by
    rw [offsets, gather_leaves]
    simpa [nothing] using hstop
  have hparts : offsets [(T.completeConditional size).1] = offsets [T] ++ offsets added.1 := by
    rw [offsets, gather_singleton, span_completeConditional, offsets, gather_singleton,
      List.append_assoc, offsets, ← gather_append]
    rfl
  rw [LiesOn, hparts]
  exact List.append_subset.mpr ⟨List.Subset.refl _, hadded⟩

/-- A tree that stays starts and stops where it did, and so does what is added to it. -/
theorem Settles.liesOn (h : T.Settles above s size made s') :
    made.1.LiesOn (offsets [T]) ∧ size ≤ made.2 := by
  cases h with
  | conditional => exact ⟨liesOn_completeConditional T size, Nat.le_add_right size 2⟩
  | struct =>
    refine ⟨?_, le_rfl⟩
    have hfields : ∀ name name' span, NodeForm.bounds (.expr (.structField name)) span =
      NodeForm.bounds (.expr (.structField name')) span := fun _ _ _ => rfl
    rw [LiesOn, offsets, gather_singleton, offsets, gather_singleton, children_withChildren,
      gather_nameFields hfields]
    exact List.Subset.refl _
  | placed | kept => exact ⟨List.Subset.refl _, le_rfl⟩

end

end Tree

open MessageLang.Tree

namespace Lowers

variable {above : List NodeForm} {T R : Tree} {trees trees' : List Tree} {w w' : Lowering × Nat}
  {n : Nat}

/-- What lowering makes of some trees starts and stops nowhere but where they and their parts do. -/
theorem offsets_subset (h : Lowers above trees w trees' w') :
    offsets trees' ⊆ offsets trees ∧ w.2 ≤ w'.2 := by
  induction h with
  | nil => exact ⟨List.nil_subset _, le_rfl⟩
  | @settles above T T' trees trees' children s s₁ size size₁ w₂ w₃ step _ _ ihbelow ihafter =>
    obtain ⟨hstep, hle⟩ := step.liesOn
    rw [LiesOn, offsets, gather_singleton] at hstep
    obtain ⟨hown, hchildren⟩ := List.append_subset.mp hstep
    refine ⟨?_, hle.trans (ihbelow.2.trans ihafter.2)⟩
    rw [offsets, gather_cons, offsets, gather_cons_eq_append (T := T)]
    refine List.append_subset.mpr ⟨List.subset_append_of_subset_left _ hown,
      List.append_subset.mpr ⟨List.subset_append_of_subset_left _ ?_,
        List.subset_append_of_subset_right _ ihafter.1⟩⟩
    exact List.Subset.trans ihbelow.1 hchildren
  | @rewrites above T T' trees trees' s s₁ size size₁ w₂ step _ ih =>
    obtain ⟨hstep, hle, -⟩ := step.newOn
    obtain ⟨hagain, hle'⟩ := ih
    refine ⟨List.Subset.trans hagain ?_, hle.trans hle'⟩
    rw [offsets, gather_cons_eq_append, gather_inherit, offsets, gather_cons_eq_append (T := T)]
    exact List.append_subset.mpr ⟨List.subset_append_of_subset_left _ hstep,
      List.subset_append_right _ _⟩

/-- What stands in place of a tree in the end has its span, unless the tree is a block. If the tree is
new, so is that. -/
theorem span_eq (h : Lowers above [T] w [R] w') (hnot : T.form ≠ .expr .block) :
    R.span = T.span ∧ (n ≤ T.id.index → n ≤ w.2 → n ≤ R.id.index) := by
  generalize hone : [T] = one at h
  generalize hone' : [R] = one' at h
  induction h generalizing T with
  | nil => cases hone
  | @settles above T T' _ _ _ _ _ _ _ _ _ step =>
    cases hone
    cases hone'
    have hid : T'.id = T.id := by cases step <;> rfl
    exact ⟨step.span_eq, fun hT _ => hid ▸ hT⟩
  | @rewrites above T T' _ _ _ _ _ _ _ step _ ih =>
    cases hone
    obtain ⟨hspan, hnot'⟩ := step.span_eq hnot
    obtain ⟨-, hle, hnew⟩ := step.newOn
    obtain ⟨hspan', hnew'⟩ := ih (by rwa [form_inherit]) rfl hone'
    refine ⟨hspan'.trans ((span_inherit ..).trans hspan), fun _ hn => hnew' ?_ (hn.trans hle)⟩
    rw [id_inherit]
    exact hn.trans (hnew hnot)

end Lowers

end MessageLang
