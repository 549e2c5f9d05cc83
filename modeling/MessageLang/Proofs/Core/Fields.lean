import MessageLang.Proofs.Core.LaidOut

namespace MessageLang

open Lowering (needsBlock)

namespace NodeForm

def isField : NodeForm → Bool
  | expr (.structField _) => true
  | _ => false

theorem isField_eq_false {form : NodeForm} (h : ∀ name, form ≠ expr (.structField name)) :
    form.isField = false := by
  cases form with
  | expr sort => cases sort <;> first | rfl | exact absurd rfl (h _)
  | _ => rfl

/-- Fields may be children of structs only. -/
def admitsFields (form : NodeForm) (children : List NodeForm) : Bool :=
  form == expr .struct || children.all (!·.isField)

/-- What the nodes around a node look at: whether it is an expression, whether it needs a block
around it, and whether it is a field without a name. -/
structure StandsFor (form form' : NodeForm) : Prop where
  isSome_eq : form'.expr?.isSome = form.expr?.isSome
  needsBlock : form.expr?.any needsBlock = true → form'.expr?.any needsBlock = true
  field : form'.isField = true → form' = form

theorem StandsFor.refl (form : NodeForm) : form.StandsFor form := ⟨rfl, id, fun _ => rfl⟩

theorem StandsFor.trans {form form' form'' : NodeForm} (h : form.StandsFor form')
    (h' : form'.StandsFor form'') : form.StandsFor form'' where
  isSome_eq := h'.isSome_eq.trans h.isSome_eq
  needsBlock := h'.needsBlock ∘ h.needsBlock
  field hfield := (h'.field hfield).trans (h.field (h'.field hfield ▸ hfield))

end NodeForm

namespace Tree

mutual

/-- Whether fields are children of structs only, anywhere in a tree. -/
def fieldsInStructs : Tree → Bool
  | node _ form _ _ children => form.admitsFields (children.map Tree.form) && fieldsInStructsAll children

def fieldsInStructsAll : List Tree → Bool
  | [] => true
  | T :: rest => T.fieldsInStructs && fieldsInStructsAll rest

end

def Twig.fieldsInStructs : Twig → Bool
  | tree T => T.fieldsInStructs
  | token _ => true

theorem fieldsInStructsAll_eq (trees : List Tree) :
    fieldsInStructsAll trees = trees.all fieldsInStructs := by
  induction trees with
  | nil => rfl
  | cons T rest ih => rw [fieldsInStructsAll, ih, List.all_cons]

theorem fieldsInStructs_iff {T : Tree} : T.fieldsInStructs = true ↔
    (T.form = .expr .struct ∨ ∀ child ∈ T.children, child.form.isField = false) ∧
      ∀ child ∈ T.children, child.fieldsInStructs = true := by
  cases T
  simp [fieldsInStructs, fieldsInStructsAll_eq, NodeForm.admitsFields, Tree.form, children]

theorem fieldsInStructs_of_mem_children {T child : Tree} (h : T.fieldsInStructs = true)
    (hchild : child ∈ T.children) : child.fieldsInStructs = true :=
  (fieldsInStructs_iff.mp h).2 child hchild

/-- What is in a tree that is no struct is no field. -/
theorem isField_of_mem_children {T child : Tree} (h : T.fieldsInStructs = true)
    (hform : T.form ≠ .expr .struct) (hchild : child ∈ T.children) :
    child.form.isField = false :=
  (fieldsInStructs_iff.mp h).1.resolve_left hform child hchild

theorem fieldsInStructs_of_children_eq_nil {T : Tree} (h : T.children = []) :
    T.fieldsInStructs = true :=
  fieldsInStructs_iff.mpr ⟨.inr (h ▸ List.forall_mem_nil _), h ▸ List.forall_mem_nil _⟩

theorem fieldsInStructsAll_leaves (twigs : List Twig) (size : Nat) :
    fieldsInStructsAll (leaves twigs size).1 = twigs.all Twig.fieldsInStructs := by
  induction twigs generalizing size with
  | nil => rfl
  | cons twig twigs ih =>
    cases twig with
    | tree T => exact congrArg (T.fieldsInStructs && ·) (ih size)
    | token t => exact ih (size + 1)

@[simp]
theorem fieldsInStructs_leaf (form : NodeForm) (span : Span) (size : Nat) :
    (leaf form span size).1.fieldsInStructs = true :=
  fieldsInStructs_of_children_eq_nil rfl

@[simp]
theorem fieldsInStructs_allocAt (form : NodeForm) (span : Span) (twigs : List Twig) (size : Nat) :
    (allocAt form span twigs size).1.fieldsInStructs =
      (form.admitsFields (twigs.map Twig.form) && twigs.all Twig.fieldsInStructs) := by
  rw [← map_form_leaves twigs size, ← fieldsInStructsAll_leaves twigs size]
  rfl

@[simp]
theorem fieldsInStructs_alloc (form : NodeForm) (twigs : List Twig) (size : Nat) :
    (alloc form twigs size).1.fieldsInStructs =
      (form.admitsFields (twigs.map Twig.form) && twigs.all Twig.fieldsInStructs) := by
  rw [← map_form_leaves twigs size, ← fieldsInStructsAll_leaves twigs size]
  rfl

mutual

theorem fieldsInStructs_copy (T : Tree) (size : Nat) :
    (T.copy size).1.fieldsInStructs = T.fieldsInStructs := by
  match T with
  | node id form span grouped children =>
    rw [copy_eq, fieldsInStructs, fieldsInStructs, Tree.form, Tree.children,
      fieldsInStructsAll_copyAll children size, map_form_copyAll children size]

theorem fieldsInStructsAll_copyAll (trees : List Tree) (size : Nat) :
    fieldsInStructsAll (copyAll trees size).1 = fieldsInStructsAll trees := by
  match trees with
  | [] => rfl
  | T :: rest =>
    have hall : (copyAll (T :: rest) size).1 =
      (T.copy size).1 :: (copyAll rest (T.copy size).2).1 := rfl
    rw [hall, fieldsInStructsAll, fieldsInStructsAll, fieldsInStructs_copy T,
      fieldsInStructsAll_copyAll rest]

end

theorem fieldsInStructs_setGrouped (T : Tree) (grouped : Bool) :
    (T.setGrouped grouped).fieldsInStructs = T.fieldsInStructs := by
  cases T
  rfl

theorem fieldsInStructs_inherit (T : Tree) (grouped : Bool) :
    (T.inherit grouped).fieldsInStructs = T.fieldsInStructs := by
  cases grouped
  · rfl
  · exact fieldsInStructs_setGrouped T true

/-- What naming makes are the fields, with names, and everything else as it was. -/
theorem forall_nameFields {p : Tree → Prop} {trees : List Tree}
    (hfield : ∀ T ∈ trees, T.form.isField = true → ∀ name,
      p (T.setForm (.expr (.structField (some name)))))
    (hother : ∀ T ∈ trees, T.form.isField = false → p T) (log : Log)
    (seen : Placement.FieldsSeen) (index : Nat) : ∀ U ∈ (nameFields log seen index trees).2, p U := by
  induction trees generalizing log seen index with
  | nil => exact fun _ h => nomatch h
  | cons T rest ih =>
    obtain ⟨hT, hrestField⟩ := List.forall_mem_cons.mp hfield
    obtain ⟨hT', hrestOther⟩ := List.forall_mem_cons.mp hother
    have hrest := ih hrestField hrestOther
    unfold nameFields
    split
    · next declared hform =>
      exact List.forall_mem_cons.mpr ⟨hT (by rw [hform]; rfl) _, hrest _ _ _⟩
    · next form hnot hform =>
      have hT : T.form.isField = false :=
        NodeForm.isField_eq_false fun name heq => hnot name (NodeForm.expr.inj (hform.symm.trans heq))
      exact List.forall_mem_cons.mpr ⟨hT' hT, hrest _ _ _⟩
    · next hnot =>
      have hT : T.form.isField = false := NodeForm.isField_eq_false fun name => hnot _
      exact List.forall_mem_cons.mpr ⟨hT' hT, hrest _ _ _⟩

section

variable {T : Tree} {above : List NodeForm} {s s' : Lowering} {size : Nat} {made : Tree × Nat}

theorem Rewrites.exists_form_eq (h : T.Rewrites s size made s') :
    ∃ form, T.form = .expr form ∧ isPlaced form = false ∧ form ≠ .struct := by
  cases h with
  | _ form_eq => exact ⟨_, form_eq, rfl, nofun⟩

/-- A tree with fields in structs only is rewritten to one, which is no field. -/
theorem Rewrites.fieldsInStructs (h : T.Rewrites s size made s')
    (hfields : T.fieldsInStructs = true) :
    made.1.fieldsInStructs = true ∧ made.1.form.isField = false := by
  have hform : T.form ≠ .expr .struct := by
    obtain ⟨form, hform, -, hnot⟩ := h.exists_form_eq
    exact fun heq => hnot (NodeForm.expr.inj (hform.symm.trans heq))
  have hchild : ∀ {child}, child ∈ T.children →
      child.fieldsInStructs = true ∧ child.form.isField = false := fun hmem =>
    ⟨fieldsInStructs_of_mem_children hfields hmem, isField_of_mem_children hfields hform hmem⟩
  have hpart : ∀ {child}, child ∈ T.expressions →
      child.fieldsInStructs = true ∧ child.form.isField = false := fun hmem =>
    hchild (List.mem_of_mem_filter hmem)
  cases h with
  | @unary op operand others _ operands =>
    have hoperand : operand ∈ T.expressions := operands ▸ List.mem_cons_self
    refine ⟨?_, rfl⟩
    simp [Tree.unary, Growing.bind_apply, NodeForm.admitsFields, NodeForm.isField_eq_false, Twig.form,
      Twig.fieldsInStructs, hpart hoperand]
  | @logic text op left right _ _ operands =>
    refine ⟨?_, rfl⟩
    rw [Tree.logic, fieldsInStructs_allocAt, NodeForm.admitsFields, List.map_map, List.all_map,
      List.all_map, Bool.and_eq_true, Bool.or_eq_true, List.all_eq_true, List.all_eq_true]
    exact ⟨.inr fun child hmem => congrArg (!·) (hchild hmem).2, fun child hmem => (hchild hmem).1⟩
  | @binary op left right _ _ operands =>
    rw [twoOperands?_eq_some_iff] at operands
    have hleft : left ∈ T.expressions := operands ▸ List.mem_cons_self
    have hright : right ∈ T.expressions := operands ▸ List.mem_cons_of_mem _ List.mem_cons_self
    refine ⟨?_, rfl⟩
    simp [Tree.binary, Growing.bind_apply, NodeForm.admitsFields, NodeForm.isField_eq_false, Twig.form,
      Twig.fieldsInStructs, hpart hleft, hpart hright]
  | @whileLoop temporary temporaries condition body _ operands fresh =>
    rw [twoOperands?_eq_some_iff] at operands
    have hcondition : condition ∈ T.expressions := operands ▸ List.mem_cons_self
    have hbody : body ∈ T.expressions := operands ▸ List.mem_cons_of_mem _ List.mem_cons_self
    refine ⟨?_, rfl⟩
    simp [Tree.whileLoop, Growing.bind_apply, NodeForm.admitsFields, NodeForm.isField_eq_false, Twig.form,
      Twig.fieldsInStructs, fieldsInStructs_copy, hpart hcondition, hpart hbody]
  | @function input output body others _ operands =>
    have hbody : body ∈ T.expressions := operands ▸ List.mem_cons_self
    have hinput : (orEmpty T.span.startPoint (T.inputType? input) size).1.fieldsInStructs = true ∧
        (orEmpty T.span.startPoint (T.inputType? input) size).1.form.isField = false := by
      cases hin : T.inputType? input with
      | none => exact ⟨fieldsInStructs_leaf .., rfl⟩
      | some type => exact hchild (List.mem_of_mem_filter (mem_types_of_inputType?_eq_some hin))
    refine ⟨?_, rfl⟩
    simp only [Tree.function, Growing.bind_apply, fieldsInStructs_allocAt]
    cases hout : T.outputType? input output with
    | none =>
      simp [NodeForm.admitsFields, NodeForm.isField_eq_false, Twig.form, Twig.fieldsInStructs, hinput,
        hpart hbody]
    | some type =>
      have houtput := hchild (List.mem_of_mem_filter (mem_types_of_outputType?_eq_some hout))
      simp [NodeForm.admitsFields, NodeForm.isField_eq_false, Twig.form, Twig.fieldsInStructs, hinput,
        houtput, hpart hbody]
  | @block item _ items =>
    have hitem : item ∈ T.expressions := items ▸ List.mem_cons_self
    exact ⟨(fieldsInStructs_setGrouped item true).trans (hpart hitem).1, (hpart hitem).2⟩

/-- What a tree with fields in structs only is rewritten to stands for it. -/
theorem Rewrites.standsFor (h : T.Rewrites s size made s') (hfields : T.fieldsInStructs = true) :
    T.form.StandsFor made.1.form where
  isSome_eq := by
    cases h with
    | block form_eq items =>
      have hitem := List.mem_filter.mp (items ▸ List.mem_cons_self)
      rw [form_eq]
      exact hitem.2
    | _ form_eq => rw [form_eq]; rfl
  needsBlock hneeds := by
    cases h with
    | _ form_eq => rw [form_eq] at hneeds; cases hneeds
  field hfield := by cases hfield.symm.trans (h.fieldsInStructs hfields).2

/-- A tree with fields in structs only stays one. -/
theorem Settles.fieldsInStructs (h : T.Settles above s size made s')
    (hfields : T.fieldsInStructs = true) : made.1.fieldsInStructs = true := by
  cases h with
  | conditional form_eq =>
    obtain ⟨word, nothing, hchildren, hword, hnothing⟩ : ∃ word nothing : Tree,
        (T.completeConditional size).1.children = T.children ++ [word, nothing] ∧
          (word.children = [] ∧ word.form.isField = false) ∧
            nothing.children = [] ∧ nothing.form.isField = false :=
      ⟨_, _, rfl, ⟨rfl, rfl⟩, rfl, rfl⟩
    have hform : T.form ≠ .expr .struct := by rw [form_eq]; nofun
    refine fieldsInStructs_iff.mpr ⟨.inr ?_, ?_⟩
    · rw [hchildren, List.forall_mem_append]
      exact ⟨fun child => isField_of_mem_children hfields hform, by simp [hword, hnothing]⟩
    · rw [hchildren, List.forall_mem_append]
      refine ⟨fun child => fieldsInStructs_of_mem_children hfields, ?_⟩
      simp [fieldsInStructs_of_children_eq_nil hword.1, fieldsInStructs_of_children_eq_nil hnothing.1]
  | struct form_eq =>
    refine fieldsInStructs_iff.mpr ⟨.inl form_eq, ?_⟩
    refine forall_nameFields (fun U hU hfield name => ?_)
      (fun U hU _ => fieldsInStructs_of_mem_children hfields hU) _ _ _
    -- what is in a field does not depend on its name
    obtain ⟨hown, hall⟩ := fieldsInStructs_iff.mp (fieldsInStructs_of_mem_children hfields hU)
    refine fieldsInStructs_iff.mpr ⟨.inr (hown.resolve_left ?_), hall⟩
    rintro heq
    rw [heq] at hfield
    cases hfield
  | placed => exact hfields
  | kept => exact hfields

end

end Tree

end MessageLang
