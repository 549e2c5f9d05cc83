import MessageLang.Proofs.Typing.Walk

namespace MessageLang.Typing

/-- A step that ends wherever another one does, and in the same way. -/
def Follows {α : Type} (step step' : Typing α) : Prop := ∀ p r, step p = .ok r → step' p = .ok r

section

variable {α β : Type} {step step' : Typing α}

theorem Follows.refl (step : Typing α) : Follows step step := fun _ _ h => h

theorem Follows.bind {next next' : α → Typing β} (h : Follows step step')
    (hnext : ∀ x, Follows (next x) (next' x)) : Follows (step >>= next) (step' >>= next') := by
  intro p r hrun
  simp only [Bind.bind, StateT.bind, Except.bind] at hrun ⊢
  cases hstep : step p with
  | error fault =>
    rw [hstep] at hrun
    cases hrun
  | ok made =>
    rw [hstep] at hrun
    rw [h p made hstep]
    exact hnext made.1 made.2 r hrun

theorem Follows.sequential : Sequential fun step step' => Follows step step' :=
  ⟨fun _ => .refl _, .bind⟩

theorem Follows.mapM {items : List α} {step step' : α → Typing β}
    (h : ∀ x, Follows (step x) (step' x)) : Follows (items.mapM step) (items.mapM step') :=
  Follows.sequential.mapM fun item _ => h item

theorem Follows.forM {items : List α} {step step' : α → Typing PUnit}
    (h : ∀ x, Follows (step x) (step' x)) : Follows (items.forM step) (items.forM step') :=
  Follows.sequential.forM fun item _ => h item

theorem Follows.forIn {items : List α} {start : β} {step step' : α → β → Typing (ForInStep β)}
    (h : ∀ x b, Follows (step x b) (step' x b)) :
    Follows (forIn items start step) (forIn items start step') := Follows.sequential.forIn h

theorem Follows.inNewScope (h : Follows step step') :
    Follows (Typing.inNewScope step) (Typing.inNewScope step') :=
  (Follows.refl _).bind fun _ => (Follows.refl _).bind fun _ => h.bind fun _ => .refl _

end

variable {a : Arena} {options : TypingOptions} {compute compute' : NodeId → Typing TypeId}
  {steps : Nat} {entered : List NodeId} {node : NodeId}

section

variable (h : ∀ node, Follows (compute node) (compute' node))
include h

theorem operand_follows (node : NodeId) :
    Follows (operand a compute node) (operand a compute' node) := by
  unfold operand
  split
  · exact h _
  · exact .refl _

theorem valueType_follows (value : Option NodeId) (declared : Option TypeId) :
    Follows (valueType a compute value declared) (valueType a compute' value declared) := by
  unfold valueType
  split
  · exact .refl _
  · exact (h _).bind fun found => .refl _

theorem resolve_follows (id : PlaceholderId) :
    Follows (resolve a compute id) (resolve a compute' id) := by
  unfold resolve
  refine (Follows.refl _).bind fun p => ?_
  dsimp only
  split
  · exact .refl _
  · split
    · exact .refl _
    · unfold resolveNow
      refine (Follows.refl _).bind fun before => (Follows.refl _).bind fun _ =>
        (valueType_follows h _ _).bind fun found => (Follows.refl _).bind fun p => ?_
      dsimp only
      split
      · exact (Follows.refl _).bind fun _ => (Follows.refl _).bind fun _ => (Follows.refl _).bind
          fun _ => (valueType_follows h _ _).bind fun _ => .refl _
      · exact .refl _

theorem meaningType_follows (meaning : Meaning) :
    Follows (meaningType a compute meaning) (meaningType a compute' meaning) := by
  cases meaning with
  | known type => exact .refl _
  | pending id => exact resolve_follows h id

theorem defineLocals_follows (group : NodeId) :
    Follows (defineLocals a compute group) (defineLocals a compute' group) := by
  refine Follows.forM fun definition => (Follows.refl _).bind fun p => ?_
  split
  · exact (resolve_follows h _).bind fun _ => .refl _
  · exact .refl _

theorem fieldsFrom_follows (position : Nat) (nodes : List NodeId) :
    Follows (fieldsFrom a compute position nodes) (fieldsFrom a compute' position nodes) := by
  induction nodes generalizing position with
  | nil => exact .refl _
  | cons node rest ih => exact (h node).bind fun type => (ih (position + 1)).bind fun _ => .refl _

omit h in
theorem demand_follows {α : Type} {node : NodeId} {target source : TypeId} {problem : Problem}
    {next next' : PUnit → Typing α} (hnext : Follows (next ⟨⟩) (next' ⟨⟩)) :
    Follows (demand a node target source problem next) (demand a node target source problem next') := by
  refine (Follows.refl _).bind fun verdict => ?_
  split
  · exact (Follows.refl _).bind fun _ => hnext
  · exact hnext

theorem handlerExits_follows (node : NodeId) :
    Follows (handlerExits a compute node) (handlerExits a compute' node) := by
  rw [handlerExits_eq, handlerExits_eq]
  exact (Follows.refl _).bind fun outer => (Follows.refl _).bind fun _ =>
    (operand_follows h node).bind fun value => .refl _

theorem handlerBody_follows (node : NodeId) (input : TypeId) :
    Follows (handlerBody a compute node input) (handlerBody a compute' node input) :=
  (Follows.refl _).bind fun _ => (Follows.refl _).bind fun _ => (Follows.refl _).bind fun _ =>
    (handlerExits_follows h node).bind fun _ => .refl _

theorem typeItem_follows (item : NodeId) :
    Follows (typeItem a compute item) (typeItem a compute' item) := by
  unfold typeItem
  split
  · exact (defineLocals_follows h item).bind fun _ => .refl _
  · exact h item

theorem itemsFrom_follows (reach : Reach) (last : TypeId) (items : List NodeId) :
    Follows (itemsFrom a options compute reach last items)
      (itemsFrom a options compute' reach last items) := by
  induction items generalizing reach last with
  | nil => exact .refl _
  | cons item rest ih =>
    rw [itemsFrom_cons, itemsFrom_cons]
    exact (Follows.refl _).bind fun _ => (typeItem_follows h item).bind fun type => ih _ type

theorem ofForm_follows (node : NodeId) (form : ExprForm) :
    Follows (ofForm a options compute node form) (ofForm a options compute' node form) := by
  cases form with
  | constant | function | unary | binary | whileLoop => exact .refl _
  | structField | nested | localDef => exact operand_follows h node
  | returnExit | breakExit => exact (operand_follows h node).bind fun _ => .refl _
  | array => exact (Follows.mapM h).bind fun _ => .refl _
  | struct => exact (fieldsFrom_follows h 0 _).bind fun _ => .refl _
  | reference name =>
    refine (Follows.refl _).bind fun p => ?_
    split
    · exact meaningType_follows h _
    · exact .refl _
  | newObject =>
    change Follows (newObject a compute node) (newObject a compute' node)
    unfold newObject
    split
    · exact .refl _
    · exact (h _).bind fun _ => .refl _
  | call =>
    change Follows (call a compute node) (call a compute' node)
    unfold call
    split
    · exact (h _).bind fun _ => (h _).bind fun _ => .refl _
    · exact .refl _
  | logic op =>
    refine Follows.bind (Follows.forIn fun operand _ => ?_) fun _ => .refl _
    exact (h operand).bind fun _ => .refl _
  | conditional =>
    change Follows (conditional a compute node) (conditional a compute' node)
    unfold conditional
    split
    · exact .refl _
    · refine (h _).bind fun type => demand_follows ?_
      exact (Follows.mapM h).bind fun _ => .refl _
  | repeatLoop =>
    exact (Follows.refl _).bind fun outer => (Follows.refl _).bind fun _ =>
      (operand_follows h node).bind fun _ => .refl _
  | assignment name =>
    refine (operand_follows h node).bind fun value => (Follows.refl _).bind fun p => ?_
    dsimp only
    split
    · exact .refl _
    · exact (meaningType_follows h _).bind fun _ => .refl _
  | locals =>
    exact (Follows.refl _).bind fun _ => (defineLocals_follows h node).bind fun _ => .refl _
  | handler =>
    change Follows (handler a compute node) (handler a compute' node)
    rw [handler_eq, handler_eq]
    refine Follows.bind (Follows.inNewScope ?_) fun _ => .refl _
    exact (Follows.refl _).bind (handlerBody_follows h node)
  | block =>
    refine Follows.inNewScope ?_
    exact (Follows.refl _).bind fun _ => itemsFrom_follows h _ _ _

end

/-- What is found without coming upon a node again is found with no regard to that. -/
theorem computeApart_follows {bound : Nat} (hbound : steps ≤ bound) :
    Follows (computeApart a options steps entered node) (computeWithin a options bound node) := by
  induction steps generalizing bound entered node with
  | zero => exact fun _ _ h => by cases h
  | succ steps ih =>
    obtain ⟨bound, rfl⟩ := Nat.exists_eq_add_of_lt hbound
    rw [show steps + bound + 1 = (steps + bound) + 1 from rfl, computeApart, computeWithin]
    split
    · exact fun _ _ h => by cases h
    · have hcompute : ∀ other, Follows (computeApart a options steps (node :: entered) other)
          (computeWithin a options (steps + bound) other) := fun _ => ih (Nat.le_add_right _ _)
      cases a.expr? node with
      | none => exact .refl _
      | some form => exact (ofForm_follows hcompute node form).bind fun _ => .refl _

end MessageLang.Typing
