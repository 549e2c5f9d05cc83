import MessageLang.Proofs.Typing.Restoring

namespace MessageLang.Typing

open Pass

section

variable {a : Arena} {options : TypingOptions} {compute compute' : NodeId → Typing TypeId}
  {node : NodeId} {name : String} {p : Pass} {id : PlaceholderId}
  (hcompute : ∀ n, Restoring (compute n) (compute' n))
include hcompute

theorem resolve_restoring (hp : p.Calm) (hlt : id.index < p.placeholders.size) :
    Agree (resolve a compute id) (resolve a compute' id) p fun _ p' => p.Returns p' := by
  rw [resolve_eq, resolve_eq]
  refine .get ?_
  split
  · exact .pure (.refl hp)
  · split
    · exact .pure (.refl hp)
    · exact .modify (.pure (.update hp id fun _ => rfl))
  · next hpending => exact resolveNow_restoring hcompute hp (progress_eq_pending_iff.mp hpending) hlt

theorem meaningType_restoring (hp : p.Calm) {meaning : Meaning}
    (hmeaning : ∀ id, meaning = .pending id → id.index < p.placeholders.size) :
    Agree (meaningType a compute meaning) (meaningType a compute' meaning) p
      fun _ p' => p.Returns p' := by
  cases meaning with
  | known type => exact .pure (.refl hp)
  | pending id => exact resolve_restoring hcompute hp (hmeaning id rfl)

theorem reference_restoring : Restoring (reference a compute node name) (reference a compute' node name) := by
  intro p hp
  refine .get ?_
  split
  · next hfound => exact meaningType_restoring hcompute hp (hp.pending_lt.get? hfound)
  · exact ((report_restoring a node _).seq fun _ => .pure _) p hp

theorem fieldsFrom_restoring (position : Nat) (nodes : List NodeId) :
    Restoring (fieldsFrom a compute position nodes) (fieldsFrom a compute' position nodes) := by
  induction nodes generalizing position with
  | nil => exact .pure _
  | cons n rest ih => exact (hcompute n).seq fun type => (ih (position + 1)).seq fun fields => .pure _

theorem defineLocals_restoring (group : NodeId) :
    Restoring (defineLocals a compute group) (defineLocals a compute' group) := by
  refine .forM fun definition p hp => .get ?_
  split
  · next id hid =>
    refine (resolve_restoring hcompute hp (hp.local_lt _ (mem_of_lookup_eq_some hid))).bind ?_
    exact fun type q hq => (setType_restoring definition type).after hq
  · exact .pure (.refl hp)

theorem operand_restoring : Restoring (operand a compute node) (operand a compute' node) := by
  rw [operand, operand]
  split
  · exact hcompute _
  · exact .pure _

theorem array_restoring : Restoring (array a compute node) (array a compute' node) := by
  refine (Restoring.mapM hcompute).seq fun items => ?_
  dsimp only
  split
  · rw [pure_bind]
    exact tabling_restoring _
  · exact (tabling_restoring _).seq fun _ => tabling_restoring _

theorem struct_restoring : Restoring (struct a compute node) (struct a compute' node) :=
  (fieldsFrom_restoring hcompute 0 _).seq fun _ => tabling_restoring _

theorem newObject_restoring : Restoring (newObject a compute node) (newObject a compute' node) := by
  rw [newObject, newObject]
  split
  · exact .pure _
  · refine (hcompute _).seq fun _ => ?_
    split
    · exact .pure _
    · refine (tabling_restoring _).seq fun object =>
        Restoring.seq (.forIn fun handler => .get fun p => ?_) fun _ => .pure _
      dsimp only
      split
      · exact .pure _
      · exact Restoring.seq (.forIn fun entry => (tabling_restoring _).seq fun _ => .pure _)
          fun _ => .pure _

theorem call_restoring : Restoring (call a compute node) (call a compute' node) := by
  rw [call, call]
  split
  · exact (hcompute _).seq fun receiverType => (hcompute _).seq fun messageType =>
      answer_restoring _ receiverType
  · exact .pure _

theorem logic_restoring (op : LogicOp) :
    Restoring (logic a compute node op) (logic a compute' node op) :=
  Restoring.seq (.forIn fun operand => (hcompute operand).seq fun _ => demand_restoring (.pure _))
    fun _ => .pure _

theorem conditional_restoring :
    Restoring (conditional a compute node) (conditional a compute' node) := by
  rw [conditional, conditional]
  split
  · exact .pure _
  · exact (hcompute _).seq fun type =>
      demand_restoring ((Restoring.mapM hcompute).seq fun types => tabling_restoring _)

/-- The breaks from outside are put back. -/
theorem repeatLoop_restoring :
    Restoring (repeatLoop a compute node) (repeatLoop a compute' node) := by
  intro p hp
  have hinner : Calm { p with escapes := p.escapes, breaks := [] } :=
    { hp with }
  refine .get (.modify ((operand_restoring hcompute _ hinner).bind fun _ q hq => .get (.modify ?_)))
  have hleft : p.Returns { q with breaks := p.breaks } :=
    { hq with
      calm := { hq.calm with }
      breaks := List.prefix_refl _ }
  split
  · exact .pure hleft
  · exact (tabling_restoring _).after hleft

theorem assignment_restoring :
    Restoring (assignment a compute node name) (assignment a compute' node name) := by
  intro p hp
  refine (operand_restoring hcompute p hp).bind fun value q hq => .get ?_
  dsimp only
  split
  · exact ((report_restoring a node _).seq fun _ => .pure _).after hq
  · next found hfound =>
    refine (meaningType_restoring hcompute hq.calm (hq.calm.pending_lt.get? hfound)).bind
      fun target r hr => Restoring.after ?_ (hq.trans hr)
    split
    · exact (report_restoring a node _).seq fun _ => .pure _
    · exact demand_restoring (.pure _)

theorem returnExit_restoring :
    Restoring (returnExit a compute node) (returnExit a compute' node) := by
  refine (operand_restoring hcompute).seq fun type =>
    Restoring.seq (.modify fun p hp => ?_) fun _ => .pure _
  exact { Returns.refl hp with
    calm := { hp with }
    escapes := List.prefix_append _ _ }

theorem breakExit_restoring : Restoring (breakExit a compute node) (breakExit a compute' node) := by
  refine (operand_restoring hcompute).seq fun type =>
    Restoring.seq (.modify fun p hp => ?_) fun _ => .pure _
  exact { Returns.refl hp with
    calm := { hp with }
    breaks := List.prefix_append _ _ }

/-- The exits from outside are put back. -/
theorem handlerExits_restoring :
    Restoring (handlerExits a compute node) (handlerExits a compute' node) := by
  intro p hp
  have hinner : Calm { p with escapes := [], breaks := [] } :=
    { hp with }
  rw [handlerExits_eq, handlerExits_eq]
  refine .get (.modify ((operand_restoring hcompute _ hinner).bind fun value q hq => ?_))
  exact .get (.modify (.pure hq.aside))

theorem handlerBody_restoring (input : TypeId) :
    Restoring (handlerBody a compute node input) (handlerBody a compute' node input) := by
  refine (Restoring.option fun type => readType_restoring a type).seq fun declared => .get fun p => ?_
  refine Restoring.seq (.forIn fun f => (addTerm_restoring _ _ _).seq fun _ => .pure _) fun _ => ?_
  exact (handlerExits_restoring hcompute).seq fun exits =>
    (handlerResult_restoring declared exits).seq fun _ => .pure _

omit hcompute in
theorem handlerInput_restoring : Restoring (handlerInput a node) (handlerInput a node) := by
  rw [handlerInput]
  split
  · exact readType_restoring a _
  · exact .pure _

theorem handler_restoring : Restoring (handler a compute node) (handler a compute' node) := by
  rw [handler_eq, handler_eq]
  refine (Restoring.inNewScope ?_).seq fun _ => tabling_restoring _
  exact handlerInput_restoring.seq (handlerBody_restoring hcompute)

omit hcompute in
theorem reportUnreachable_restoring (reach : Reach) (item : NodeId) :
    Restoring (reportUnreachable a options reach item) (reportUnreachable a options reach item) := by
  rw [reportUnreachable]
  split
  · exact report_restoring a item _
  · exact .pure _

theorem typeItem_restoring (item : NodeId) :
    Restoring (typeItem a compute item) (typeItem a compute' item) := by
  rw [typeItem, typeItem]
  split
  · exact (defineLocals_restoring hcompute item).seq fun _ =>
      (setType_restoring item _).seq fun _ => .pure _
  · exact hcompute item

theorem itemsFrom_restoring (reach : Reach) (last : TypeId) (items : List NodeId) :
    Restoring (itemsFrom a options compute reach last items)
      (itemsFrom a options compute' reach last items) := by
  induction items generalizing reach last with
  | nil => exact .pure _
  | cons item rest ih =>
    rw [itemsFrom_cons, itemsFrom_cons]
    exact (reportUnreachable_restoring reach item).seq fun _ =>
      (typeItem_restoring hcompute item).seq fun type => ih _ type

theorem block_restoring :
    Restoring (block a options compute node) (block a options compute' node) := by
  refine .inNewScope (Restoring.seq (.forIn fun item => ?_) fun _ =>
    itemsFrom_restoring hcompute _ _ _)
  split
  · exact (declareLocals_restoring item).seq fun _ => .pure _
  · exact .pure _

theorem locals_restoring : Restoring (locals a compute node) (locals a compute' node) :=
  (declareLocals_restoring node).seq fun _ => (defineLocals_restoring hcompute node).seq fun _ => .pure _

theorem ofForm_restoring (form : ExprForm) :
    Restoring (ofForm a options compute node form) (ofForm a options compute' node form) := by
  cases form with
  | constant c => exact .pure _
  | reference name => exact reference_restoring hcompute
  | array => exact array_restoring hcompute
  | struct => exact struct_restoring hcompute
  | structField _ | nested | localDef => exact operand_restoring hcompute
  | newObject => exact newObject_restoring hcompute
  | call => exact call_restoring hcompute
  | logic op => exact logic_restoring hcompute op
  | conditional => exact conditional_restoring hcompute
  | repeatLoop => exact repeatLoop_restoring hcompute
  | assignment name => exact assignment_restoring hcompute
  | returnExit => exact returnExit_restoring hcompute
  | breakExit => exact breakExit_restoring hcompute
  | locals => exact locals_restoring hcompute
  | handler => exact handler_restoring hcompute
  | block => exact block_restoring hcompute
  | function | unary | binary | whileLoop => exact .pure _

end

/-- Typing comes back from every node, wherever locals stand and however deep it may go. -/
theorem computeWithin_restoring (a : Arena) (options : TypingOptions) (steps : Nat) (node : NodeId) :
    Restoring (computeWithin a options steps node) (computeWithin a options steps node) := by
  induction steps generalizing node with
  | zero => exact .throw _
  | succ steps ih =>
    have hnoted : ∀ type, Restoring (noted node type) (noted node type) :=
      fun type => (setType_restoring node type).seq fun _ => .pure _
    rw [computeWithin_succ]
    split
    · next form _ => exact (ofForm_restoring ih form).seq hnoted
    · exact hnoted .anything

end MessageLang.Typing
