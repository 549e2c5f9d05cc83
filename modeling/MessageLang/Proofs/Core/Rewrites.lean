import MessageLang.Proofs.Core.Placed

namespace MessageLang

open Lowering (unaryMessage needsBlock)
open MessageLang.Tree (Twig)

namespace Tree

/-- What a rewriting step leaves in an arena: the tree made, as a root, and the node that it is to
stand in place of, still where it was. -/
def Gives (T : Tree) (parent : Option NodeId) (start : Arena) (made : Tree × Nat)
    (next : Option NodeId) (a : Arena) : Prop :=
  next = some made.1.id ∧ ∃ n : Node, n.parent = parent ∧ n.grouped = T.grouped ∧
    start.Apart T.ids ({.tree none made.1} + {.top T.id n}) made.2 a

end Tree

section

variable {a : Arena} {parent : Option NodeId} {T : Tree}

/-- A tree taken apart at its topmost node. -/
theorem Arena.Holds.apart (h : a.Holds parent T) (hnodup : T.ids.Nodup) :
    a.Apart T.ids ({.top T.id (T.top parent)} +
      ((T.expressions.map (.tree (some T.id)) : List Part) +
        ((T.types.map (.tree (some T.id)) : List Part) +
          (T.words.map (.tree (some T.id)) : List Part)))) a.size a := by
  have hparts := Apart.of_holds h hnodup
  rw [← add_zero ({.tree parent T} : Multiset Part), Apart.open_iff, add_zero] at hparts
  refine hparts.regroup (congrArg _ ?_)
  simp only [Multiset.coe_add, ← List.map_append]
  exact Multiset.coe_eq_coe.mpr (T.children_perm.map _)

/-- A tree was made out of parts of another one. What is left of that is of no interest. -/
theorem Arena.Apart.gives {made : Tree × Nat} {n : Node} {rest : Multiset Part} {a' : Arena}
    (h : a.Apart T.ids ({.tree none made.1} + ({.top T.id n} + rest)) made.2 a')
    (hparent : n.parent = parent) (hgrouped : n.grouped = T.grouped) :
    T.Gives parent a made (some made.1.id) a' := by
  rw [← add_assoc] at h
  exact ⟨rfl, n, hparent, hgrouped, h.drop⟩

theorem Arena.Holds.operatorSpan_eq (h : a.Holds parent T) :
    Lowering.operatorSpan a T.id = T.operatorSpan := by
  cases htokens : T.tokens <;>
    simp [Lowering.operatorSpan, Tree.operatorSpan, h.tokens_eq, h.span_eq, htokens]

theorem Arena.Holds.twoOperands?_eq (h : a.Holds parent T) : Lowering.twoOperands? a T.id =
    T.twoOperands?.map fun (left, right) => (left.id, right.id) := by
  rw [Lowering.twoOperands?, Tree.twoOperands?, h.expressions_eq]
  rcases T.expressions with _ | ⟨left, _ | ⟨right, _ | ⟨third, others⟩⟩⟩ <;> rfl

theorem unary_ends (h : a.Holds parent T) (hnodup : T.ids.Nodup) {operand : Tree}
    {others : List Tree} (hoperands : T.expressions = operand :: others) (op : String) :
    Ends (Lowering.unary T.id op) a (T.Gives parent a (T.unary op operand a.size)) := by
  have h₀ := h.apart hnodup
  simp only [hoperands, List.map_cons, ← Multiset.cons_coe, ← Multiset.singleton_add,
    add_assoc] at h₀
  generalize (others.map (.tree (some T.id)) : List Part) + (_ : Multiset Part) = rest at h₀
  rw [Lowering.unary, ends_bind_iff, ends_get_iff, h.expressions_eq, hoperands]
  simp only [List.map_cons, h.operatorSpan_eq, h.span_eq]
  refine h₀.detach.bind fun _ a₁ h₁ => ?_
  refine (h₁.leaf _ _).made fun message hmessage a₂ h₂ => ?_
  have h₂' : a.Apart T.ids (Twig.used [.tree operand, .tree message.1] +
      ({.top T.id _} + rest)) message.2 a₂ := h₂.regroup (by simp only [Twig.used]; abel)
  refine (h₂'.allocAt _ _ _).made fun call hcall a₃ h₃ => ?_
  subst hmessage hcall
  exact h₃.gives rfl rfl

theorem binary_ends (h : a.Holds parent T) (hnodup : T.ids.Nodup) {left right : Tree}
    (hoperands : T.twoOperands? = some (left, right)) (op : String) :
    Ends (Lowering.binary T.id op) a (T.Gives parent a (T.binary op left right a.size)) := by
  have h₀ := h.apart hnodup
  simp only [Tree.twoOperands?_eq_some_iff.mp hoperands, List.map_cons, ← Multiset.cons_coe, ← Multiset.singleton_add,
    add_assoc] at h₀
  generalize ([].map (.tree (some T.id)) : List Part) + (_ : Multiset Part) = rest at h₀
  rw [Lowering.binary, ends_bind_iff, ends_get_iff, h.twoOperands?_eq, hoperands]
  simp only [Option.map_some, h.operatorSpan_eq, h.span_eq]
  refine h₀.detach.bind fun _ a₁ h₁ => ?_
  have h₁' : a.Apart T.ids ({.top T.id _} + ({.tree (some T.id) right} + ({.tree none left} + rest)))
      a.size a₁ := h₁.regroup (by abel)
  refine h₁'.detach.bind fun _ a₂ h₂ => ?_
  refine (h₂.leaf _ _).made fun message hmessage a₃ h₃ => ?_
  have h₃' : a.Apart T.ids (Twig.used [.tree left, .tree message.1] +
      ({.tree none right} + ({.top T.id _} + rest))) message.2 a₃ :=
    h₃.regroup (by simp only [Twig.used]; abel)
  refine (h₃'.alloc _ (by simp) _).made fun partially hpartially a₄ h₄ => ?_
  have h₄' : a.Apart T.ids (Twig.used [.tree partially.1, .tree right] + ({.top T.id _} + rest))
      partially.2 a₄ := h₄.regroup (by simp only [Twig.used]; abel)
  refine (h₄'.allocAt _ _ _).made fun call hcall a₅ h₅ => ?_
  subst hmessage hpartially hcall
  exact h₅.gives rfl rfl

theorem whileLoop_ends (h : a.Holds parent T) (hnodup : T.ids.Nodup) {condition body : Tree}
    (hoperands : T.twoOperands? = some (condition, body)) (temporary : String) :
    Ends (Lowering.whileLoop T.id temporary condition.id body.id) a fun id =>
      T.Gives parent a (T.whileLoop temporary condition body a.size) (some id) := by
  have h₀ := h.apart hnodup
  rw [Tree.twoOperands?_eq_some_iff] at hoperands
  simp only [hoperands, List.map_cons, ← Multiset.cons_coe, ← Multiset.singleton_add,
    add_assoc] at h₀
  have hcondition : a.span condition.id = condition.span :=
    (h.child (List.mem_of_mem_filter (hoperands ▸ by simp : condition ∈ T.expressions))).span_eq
  have hbody : a.span body.id = body.span :=
    (h.child (List.mem_of_mem_filter (hoperands ▸ by simp : body ∈ T.expressions))).span_eq
  generalize ([].map (.tree (some T.id)) : List Part) + (_ : Multiset Part) = rest at h₀
  rw [Lowering.whileLoop, ends_bind_iff, ends_get_iff]
  simp only [h.span_eq, hcondition, hbody]
  refine h₀.detach.bind fun _ a₁ h₁ => ?_
  have h₁' : a.Apart T.ids ({.top T.id _} + ({.tree (some T.id) body} +
      ({.tree none condition} + rest))) a.size a₁ := h₁.regroup (by abel)
  refine h₁'.detach.bind fun _ a₂ h₂ => ?_
  obtain ⟨n, hparent, hgrouped, h₂⟩ : ∃ n : Node, n.parent = parent ∧ n.grouped = T.grouped ∧
      a.Apart T.ids ({.tree none body} + ({.tree none condition} + ({.top T.id n} + rest))) a.size
        a₂ := ⟨_, rfl, rfl, h₂.regroup (by abel)⟩
  -- the body becomes a definition
  have h₂' : ∀ s, a.Apart T.ids (Twig.used [.token s, .tree body] +
      ({.tree none condition} + ({.top T.id n} + rest))) a.size a₂ :=
    fun _ => h₂.regroup (by simp only [Twig.used]; abel)
  refine ((h₂' _).allocAt _ _ _).made fun definition hdefinition a₃ h₃ => ?_
  have h₃' : ∀ s, a.Apart T.ids (Twig.used [.token s, .tree definition.1] +
      ({.tree none condition} + ({.top T.id n} + rest))) definition.2 a₃ :=
    fun _ => h₃.regroup (by simp only [Twig.used]; abel)
  refine ((h₃' _).allocAt _ _ _).made fun binding hbinding a₄ h₄ => ?_
  -- the condition is asked again
  have h₄' : a.Apart T.ids ({.tree none condition} + ({.tree none binding.1} +
      ({.top T.id n} + rest))) binding.2 a₄ := h₄.regroup (by abel)
  refine h₄'.copy.made fun again hagain a₅ h₅ => ?_
  refine (h₅.leaf _ _).made fun not hnot a₆ h₆ => ?_
  have h₆' : a.Apart T.ids (Twig.used [.tree again.1, .tree not.1] + ({.tree none condition} +
      ({.tree none binding.1} + ({.top T.id n} + rest)))) not.2 a₆ :=
    h₆.regroup (by simp only [Twig.used]; abel)
  refine (h₆'.alloc _ (by simp) _).made fun negated hnegated a₇ h₇ => ?_
  refine (h₇.leaf _ _).made fun result hresult a₈ h₈ => ?_
  have h₈' : ∀ s, a.Apart T.ids (Twig.used [.token s, .tree result.1] + ({.tree none negated.1} +
      ({.tree none condition} + ({.tree none binding.1} + ({.top T.id n} + rest))))) result.2 a₈ :=
    fun _ => h₈.regroup (by simp only [Twig.used]; abel)
  refine ((h₈' _).alloc _ (by simp) _).made fun leave hleave a₉ h₉ => ?_
  have h₉' : ∀ s t, a.Apart T.ids (Twig.used [.token s, .tree negated.1, .token t, .tree leave.1] +
      ({.tree none condition} + ({.tree none binding.1} + ({.top T.id n} + rest)))) leave.2 a₉ :=
    fun _ _ => h₉.regroup (by simp only [Twig.used]; abel)
  refine ((h₉' _ _).alloc _ (by simp) _).made fun check hcheck a₁₀ h₁₀ => ?_
  -- both go into a loop, and that into a conditional
  have h₁₀' : ∀ s t, a.Apart T.ids (Twig.used [.token s, .tree binding.1, .tree check.1, .token t] +
      ({.tree none condition} + ({.top T.id n} + rest))) check.2 a₁₀ :=
    fun _ _ => h₁₀.regroup (by simp only [Twig.used]; abel)
  refine ((h₁₀' _ _).alloc _ (by simp) _).made fun code hcode a₁₁ h₁₁ => ?_
  have h₁₁' : ∀ s, a.Apart T.ids (Twig.used [.token s, .tree code.1] +
      ({.tree none condition} + ({.top T.id n} + rest))) code.2 a₁₁ :=
    fun _ => h₁₁.regroup (by simp only [Twig.used]; abel)
  refine ((h₁₁' _).alloc _ (by simp) _).made fun loop hloop a₁₂ h₁₂ => ?_
  have h₁₂' : ∀ s t, a.Apart T.ids (Twig.used [.token s, .tree condition, .token t, .tree loop.1] +
      ({.top T.id n} + rest)) loop.2 a₁₂ := fun _ _ => h₁₂.regroup (by simp only [Twig.used]; abel)
  refine ((h₁₂' _ _).allocAt _ _ _).mono ?_
  rintro _ a₁₃ ⟨rfl, h₁₃⟩
  subst hdefinition hbinding hagain hnot hnegated hresult hleave hcheck hcode hloop
  exact h₁₃.gives hparent hgrouped

theorem logic_ends (h : a.Holds parent T) (hnodup : T.ids.Nodup) {left right : Tree}
    (hoperands : T.twoOperands? = some (left, right)) (op : LogicOp) :
    Ends (Lowering.logic T.id op) a (T.Gives parent a (T.logic op a.size)) := by
  have h₀ := Arena.Apart.of_holds h hnodup
  rw [← add_zero ({.tree parent T} : Multiset Part), Arena.Apart.open_iff, add_assoc] at h₀
  rw [Lowering.logic, ends_bind_iff, ends_get_iff, h.twoOperands?_eq, hoperands]
  simp only [Option.map_some, h.children_eq, h.span_eq]
  refine h₀.detachAll.bind fun _ a₁ ⟨n, hparent, hgrouped, h₁⟩ => ?_
  have h₁' : a.Apart T.ids (Twig.used (T.children.map .tree) + ({.top T.id n} + 0)) a.size a₁ := by
    rw [Twig.used_map_tree]
    exact h₁.regroup (by abel)
  have hpieces : (T.children.map Tree.id).map Piece.node = (T.children.map .tree).map Twig.piece := by
    rw [List.map_map, List.map_map]
    rfl
  rw [hpieces]
  refine (h₁'.allocAt _ _ _).made fun whole hwhole a₂ h₂ => ?_
  subst hwhole
  exact h₂.gives hparent hgrouped

/-- The types of a function are its input type and its output type, if it has them, and others that
are of no use. -/
private theorem types_eq (T : Tree) (input output : Bool) : ∃ others, T.types =
    (T.inputType? input).toList ++ ((T.outputType? input output).toList ++ others) := by
  unfold Tree.inputType? Tree.outputType?
  cases input <;> cases output <;> cases T.types with
  | nil => exact ⟨[], rfl⟩
  | cons first rest =>
    first
    | exact ⟨_, rfl⟩
    | cases rest with
      | nil => exact ⟨[], rfl⟩
      | cons second rest => exact ⟨rest, rfl⟩

private theorem forM_detach_eq (part : Option Tree) :
    (part.map Tree.id).forM Edit.detach = (part.toList.map Tree.id).forM Edit.detach := by
  cases part with
  | none => rfl
  | some T => exact (bind_pure_unit (x := Edit.detach T.id)).symm

private theorem orEmpty_ends {start : Arena} {owned : List NodeId} {rest : Multiset Part}
    {size : Nat} {type? : Option Tree}
    (h : start.Apart owned ((type?.toList.map (.tree none) : List Part) + rest) size a)
    (span : Span) {next : NodeId → Edit (Option NodeId)} {post : Option NodeId → Arena → Prop}
    (hnext : ∀ made, Tree.orEmpty span type? size = made → ∀ a',
      start.Apart owned ({.tree none made.1} + rest) made.2 a' → Ends (next made.1.id) a' post) :
    Ends (match type?.map Tree.id with
      | some type => pure type >>= next
      | none => Edit.leaf (.type .empty) span >>= next) a post := by
  cases type? with
  | none => exact (Arena.Apart.leaf (h.regroup (zero_add rest)) _ _).made hnext
  | some type => exact hnext (type, size) rfl a h

theorem function_ends (h : a.Holds parent T) (hnodup : T.ids.Nodup) {body : Tree}
    {others : List Tree} (hoperands : T.expressions = body :: others) (input output : Bool) :
    Ends (Lowering.function T.id input output) a
      (T.Gives parent a (T.function input output body a.size)) := by
  have h₀ := h.apart hnodup
  obtain ⟨otherTypes, htypes⟩ := types_eq T input output
  have hinput : (if input then (T.types.map Tree.id).head? else none) =
      (T.inputType? input).map Tree.id := by
    unfold Tree.inputType?
    cases input <;> simp
  have houtput : (if output then (if input then (T.types.map Tree.id).drop 1
      else T.types.map Tree.id).head? else none) =
      (T.outputType? input output).map Tree.id := by
    unfold Tree.outputType?
    cases input <;> cases output <;> simp [← List.map_drop, List.head?_map]
  simp only [hoperands, List.map_cons, ← Multiset.cons_coe, ← Multiset.singleton_add,
    add_assoc] at h₀
  rw [htypes] at h₀
  simp only [List.map_append, ← Multiset.coe_add] at h₀
  obtain ⟨rest, h₀⟩ : ∃ rest, a.Apart T.ids ({.top T.id (T.top parent)} +
      ({.tree (some T.id) body} +
        (((T.inputType? input).toList.map (.tree (some T.id)) : List Part) +
          (((T.outputType? input output).toList.map (.tree (some T.id)) : List Part) + rest))))
      a.size a :=
    ⟨(others.map (.tree (some T.id)) : List Part) +
      ((otherTypes.map (.tree (some T.id)) : List Part) +
        (T.words.map (.tree (some T.id)) : List Part)), h₀.regroup (by abel)⟩
  rw [Lowering.function, ends_bind_iff, ends_get_iff, h.expressions_eq, hoperands]
  simp only [List.map_cons, h.types_eq, h.span_eq, hinput, houtput]
  refine h₀.detach.bind fun _ a₁ h₁ => ?_
  rw [forM_detach_eq, forM_detach_eq]
  have h₁' : a.Apart T.ids ({.top T.id _} +
      (((T.inputType? input).toList.map (.tree (some T.id)) : List Part) +
        ((((T.outputType? input output).toList.map (.tree (some T.id)) : List Part)) +
          ({.tree none body} + rest)))) a.size a₁ := h₁.regroup (by abel)
  refine h₁'.detachAll.bind fun _ a₂ ⟨n₂, hparent₂, hgrouped₂, h₂⟩ => ?_
  have h₂' : a.Apart T.ids ({.top T.id n₂} +
      (((T.outputType? input output).toList.map (.tree (some T.id)) : List Part) +
        (((T.inputType? input).toList.map (.tree none) : List Part) +
          ({.tree none body} + rest)))) a.size a₂ := h₂.regroup (by abel)
  refine h₂'.detachAll.bind fun _ a₃ ⟨n₃, hparent₃, hgrouped₃, h₃⟩ => ?_
  have h₃' : a.Apart T.ids (((T.inputType? input).toList.map (.tree none) : List Part) +
      ((((T.outputType? input output).toList.map (.tree none) : List Part)) +
        ({.tree none body} + ({.top T.id n₃} + rest)))) a.size a₃ := h₃.regroup (by abel)
  refine orEmpty_ends h₃' _ fun inputType hinputType a₄ h₄ => ?_
  have houtputs : (((T.outputType? input output).map Tree.id).toList.map Piece.node) =
      ((T.outputType? input output).toList.map .tree).map Twig.piece := by
    cases T.outputType? input output <;> rfl
  rw [houtputs]
  have h₄' : ∀ t, a.Apart T.ids (Twig.used ([.token t, .tree inputType.1] ++
      (T.outputType? input output).toList.map .tree ++ [.tree body]) + ({.top T.id n₃} + rest))
      inputType.2 a₄ := by
    intro t
    rw [Twig.used_append, Twig.used_append, Twig.used_map_tree]
    exact h₄.regroup (by simp only [Twig.used]; abel)
  have hhandler := (h₄' (.keyword .onWord T.span.start)).allocAt _ (.expr .handler) T.span
  rw [List.map_append, List.map_append] at hhandler
  refine hhandler.made fun handler hhandler a₅ h₅ => ?_
  have h₅' : ∀ s t, a.Apart T.ids (Twig.used [.token s, .tree handler.1, .token t] +
      ({.top T.id n₃} + rest)) handler.2 a₅ :=
    fun _ _ => h₅.regroup (by simp only [Twig.used]; abel)
  refine ((h₅' _ _).allocAt _ _ _).made fun code hcode a₆ h₆ => ?_
  have h₆' : ∀ s, a.Apart T.ids (Twig.used [.token s, .tree code.1] + ({.top T.id n₃} + rest))
      code.2 a₆ := fun _ => h₆.regroup (by simp only [Twig.used]; abel)
  refine ((h₆' _).allocAt _ _ _).made fun whole hwhole a₇ h₇ => ?_
  subst hinputType hhandler hcode hwhole
  exact h₇.gives (hparent₃.trans hparent₂) (hgrouped₃.trans hgrouped₂)

theorem collapse_ends (h : a.Holds parent T) (hnodup : T.ids.Nodup) {item : Tree}
    (hitems : T.expressions = [item]) (hitem : item.expr?.any needsBlock = false) :
    Ends (Lowering.collapse T.id) a (T.Gives parent a (item.setGrouped true, a.size)) := by
  have h₀ := h.apart hnodup
  have hheld := h.child (List.mem_of_mem_filter (hitems ▸ by simp : item ∈ T.expressions))
  simp only [hitems, List.map_cons, ← Multiset.cons_coe, ← Multiset.singleton_add,
    add_assoc] at h₀
  generalize ([].map (.tree (some T.id)) : List Part) + (_ : Multiset Part) = rest at h₀
  rw [Lowering.collapse, ends_bind_iff, ends_get_iff, h.expressions_eq, hitems]
  simp only [List.map_cons, List.map_nil, hheld.expr?_eq]
  rw [Tree.expr?] at hitem
  rw [if_neg (by simp [hitem])]
  refine h₀.detach.bind fun _ a₁ h₁ => ?_
  rw [add_left_comm] at h₁
  refine (h₁.setGrouped true).bind fun _ a₂ h₂ => ?_
  exact ends_pure_iff.mpr (h₂.gives rfl rfl)

theorem completeConditional_ends (h : a.Holds parent T) (hnodup : T.ids.Nodup)
    (hbranches : T.expressions.length = 2) :
    Ends (Lowering.completeConditional T.id) a fun _ a' =>
      a.Apart T.ids {.tree parent (T.completeConditional a.size).1}
        (T.completeConditional a.size).2 a' := by
  have h₀ := Arena.Apart.of_holds h hnodup
  rw [Lowering.completeConditional, ends_bind_iff, ends_get_iff, h.expressions_eq,
    List.length_map, if_pos hbranches, h.span_eq]
  refine (h₀.leaf _ _).made fun nothing hnothing a₁ h₁ => ?_
  have h₁' : ∀ t, a.Apart T.ids (Twig.used [.token t, .tree nothing.1] + ({.tree parent T} + 0))
      nothing.2 a₁ := fun _ => h₁.regroup (by simp only [Twig.used]; abel)
  refine ((h₁' _).append _).mono fun _ a₂ h₂ => ?_
  subst hnothing
  exact h₂.drop

theorem checkStruct_ends (h : a.Holds parent T) (hnodup : T.ids.Nodup) (log : Log) :
    Ends (Placement.checkStruct log T.id) a fun log' a' =>
      log' = (Tree.nameFields log ⟨[], false⟩ 0 T.children).1 ∧
        a.Apart T.ids
          {.tree parent (T.withChildren (Tree.nameFields log ⟨[], false⟩ 0 T.children).2)}
          a.size a' := by
  have h₀ := Arena.Apart.of_holds h hnodup
  rw [← add_zero ({.tree parent T} : Multiset Part), Arena.Apart.open_iff, add_assoc,
    add_left_comm] at h₀
  rw [Placement.checkStruct, ends_bind_iff, ends_get_iff, h.expressions_eq]
  refine h₀.checkFields.mono ?_
  rintro _ a₁ ⟨rfl, h₁⟩
  refine ⟨rfl, ?_⟩
  rw [← add_zero ({.tree parent _} : Multiset Part), Arena.Apart.open_iff]
  have htop : (T.withChildren (Tree.nameFields log ⟨[], false⟩ 0 T.children).2).top parent =
      T.top parent := by
    simp only [Tree.top, Tree.withChildren, Tree.children, Tree.map_id_nameFields]
    rfl
  rw [htop]
  exact h₁.regroup (by simp only [Tree.withChildren, Tree.children, Tree.id]; abel)

end

end MessageLang
