import MessageLang.Proofs.Types.Making
import MessageLang.Proofs.Types.Substitution
import MessageLang.Proofs.Typing.Rules
import MessageLang.Proofs.Typing.Visits

namespace MessageLang

open MessageLang.Tree (Denotes Direct Visible)

/-- What leaves an expression of such a form is what leaves its parts. -/
def ExprForm.passes : ExprForm → Bool
  | .handler | .repeatLoop | .returnExit | .breakExit => false
  | _ => true

/-- Forms of expressions whose types come from those of their parts alone. They open no frame, use
no name and are no exits. -/
def ExprForm.isComposite : ExprForm → Bool
  | .constant _ | .array | .struct | .structField _ | .nested | .localDef .. | .newObject | .call
  | .logic _ | .conditional => true
  | _ => false

namespace Pass

/-- What a rule goes by: typing stands at an expression, and there is a way to find the types of
its parts. -/
structure Entering (a : Arena) (R : Tree) (base : Nat) (p : Pass) (path : List Tree) (N : Tree)
    (entered : List NodeId) (compute : NodeId → Typing TypeId) : Prop where
  ready : a.Ready R
  stands : p.Stands a R base path
  within : R.Within path N
  direct : Direct path N
  fresh : ∀ x ∈ entered, ¬ p.Touches path [N] x
  computes : Computes a R base (N.id :: entered) compute

variable {a : Arena} {R N C : Tree} {base : Nat} {p p' p'' : Pass} {path done rest : List Tree}
  {entered : List NodeId} {compute : NodeId → Typing TypeId} {form : ExprForm} {type : TypeId}

namespace Entering

variable (h : p.Entering a R base path N entered compute)
include h

theorem nodup : N.ids.Nodup := h.within.nodup h.ready.nodup

theorem holds : ∃ parent, a.Holds parent N := h.ready.holds h.within

theorem expressions_eq : a.expressions N.id = N.expressions.map Tree.id :=
  h.ready.expressions_eq h.within

theorem admits (hform : N.form = .expr form) : form.admits N.exprForms N.types.length = true :=
  Tree.laidOut_expr (h.within.laidOut h.ready.laidOut) hform

theorem clear {D : Tree} (hD : Visible path D) : ¬ p.Touches path [N] D.id := by
  have hspares := h.stands.spares h.ready h.within fun M hM => by
    rw [List.mem_singleton.mp hM]
    exact ⟨h.within, h.direct⟩
  exact hspares.visible D hD

/-- Going on with a change to types and the checker alone. -/
theorem quiet (hvisits : p.Visits a R base path (p.Touches path [N]) done p')
    (hdone : ∀ W ∈ done, W ∈ N.expressions) (hquiet : p'.Quiet p'') :
    p.Visits a R base path (p.Touches path [N]) done p'' :=
  hvisits.quiet hquiet h.ready.nodup
    (fun W hW => Tree.nodup_of_mem_children h.nodup
      (Tree.mem_children_of_mem_expressions (hdone W hW)))
    fun _ => h.clear

/-- Going on with the next part. -/
theorem child (hblock : N.form ≠ .expr .block) (hhandler : N.form ≠ .expr .handler)
    (hvisits : p.Visits a R base path (p.Touches path [N]) done p')
    (hsplit : N.expressions = done ++ C :: rest) :
    Ends (compute C.id) p' fun type p'' =>
      p.Visits a R base path (p.Touches path [N]) (done ++ [C]) p'' ∧
        p''.types.lookup C.id = some type ∧ p'.table.Extends p''.table :=
  hvisits.child h.stands h.ready h.within h.direct hblock hhandler hsplit h.fresh h.computes

/-- Going through all parts that are left. -/
theorem children (hblock : N.form ≠ .expr .block) (hhandler : N.form ≠ .expr .handler)
    (hvisits : p.Visits a R base path (p.Touches path [N]) done p')
    (hsplit : N.expressions = done ++ rest) :
    Ends ((rest.map Tree.id).mapM compute) p' fun types p'' =>
      p.Visits a R base path (p.Touches path [N]) N.expressions p'' ∧
        types.length = rest.length ∧ (∀ type ∈ types, type.index < p''.table.size) ∧
        p'.table.Extends p''.table := by
  induction rest generalizing done p' with
  | nil =>
    rw [List.append_nil] at hsplit
    rw [List.map_nil, List.mapM_nil, ends_pure_iff, hsplit]
    exact ⟨hvisits, rfl, fun _ h => (nomatch h), .refl _⟩
  | cons C rest ih =>
    rw [List.map_cons, List.mapM_cons, ends_bind_iff]
    refine (h.child hblock hhandler hvisits hsplit).mono ?_
    rintro type p₁ ⟨hvisits₁, hlookup, hmore₁⟩
    rw [ends_bind_iff]
    refine (ih hvisits₁ (by simpa using hsplit)).mono ?_
    rintro types p₂ ⟨hvisits₂, hlength, hlt, hmore₂⟩
    rw [ends_pure_iff]
    refine ⟨hvisits₂, congrArg (· + 1) hlength, List.forall_mem_cons.mpr ⟨?_, hlt⟩,
      hmore₁.trans hmore₂⟩
    exact hmore₂.lt (hvisits₁.stands.sound.types_lt _ (mem_of_lookup_eq_some hlookup))

theorem not_denotes (huse : N.usedName? = none) {E : Tree} : ¬ Denotes a path N E := by
  rintro (⟨name, hname, -⟩ | ⟨-, G, B, rest, rfl, hgroup, -⟩)
  · cases huse.symm.trans hname
  · exact h.direct.2 G rfl hgroup

omit h in
/-- All that is left to do once the parts are typed is to give a type that agrees with the local
that the expression denotes. -/
theorem finds_of_agrees (hform : N.form = .expr form) (hpasses : form.passes = true)
    (hvisits : p.Visits a R base path (p.Touches path [N]) N.expressions p')
    (hagrees : p'.Agrees a R base path N type) (hlt : type.index < p'.table.size) :
    p.Finds a R base path N type p' where
  advances := hvisits.advances
  stands := hvisits.stands
  covered := hvisits.covered
  escapes_eq hfree := by
    rw [hvisits.escapes_eq hfree, Tree.returns, Tree.exits_eq_flatMap hform]
    · rfl
    · cases form <;> first | rfl | cases hpasses
    · rintro rfl
      cases hpasses
  breaks_eq hfree := by
    rw [hvisits.breaks_eq hfree, Tree.breaks, Tree.exits_eq_flatMap hform]
    · rfl
    · cases form <;> first | rfl | cases hpasses
    · rintro rfl
      cases hpasses
  made _ body _ := by
    rw [hform]
    refine ⟨fun heq => ?_, fun heq => ?_⟩ <;> cases heq <;> cases hpasses
  agrees := hagrees
  lt := hlt

theorem finds (hform : N.form = .expr form) (hcomposite : form.isComposite = true)
    (hvisits : p.Visits a R base path (p.Touches path [N]) N.expressions p')
    (hlt : type.index < p'.table.size) : p.Finds a R base path N type p' := by
  refine finds_of_agrees hform ?_ hvisits (fun E hE => absurd hE (h.not_denotes ?_)) hlt
  · cases form <;> first | rfl | cases hcomposite
  · unfold Tree.usedName?
    rw [hform]
    cases form <;> first | rfl | cases hcomposite

omit h in
/-- An expression that comes from its parts opens no frame. -/
theorem no_frame (hform : N.form = .expr form) (hcomposite : form.isComposite = true) :
    N.form ≠ .expr .block ∧ N.form ≠ .expr .handler := by
  rw [hform]
  constructor <;> intro heq <;> cases heq <;> cases hcomposite

end Entering

end Pass

/-- A type is being made that nothing known before leads to. -/
structure Pass.Builds (p : Pass) (type : TypeId) (p' : Pass) : Prop where
  eq : p' = { p with space := { p.space with table := p'.table } }
  sound : p'.table.Sound
  grows : p.table.Extends p'.table
  new : p.table.size ≤ type.index
  lt : type.index < p'.table.size

theorem Pass.Builds.quiet {p p' : Pass} {type : TypeId} (h : p.Builds type p') (hp : p.Sound) :
    p.Quiet p' := by
  rw [h.eq]
  exact hp.withSpace (hp.space.extend h.sound h.grows) h.grows (.refl _)

namespace Typing

open Pass

variable {a : Arena} {R N : Tree} {base : Nat} {p p' : Pass} {path done rest : List Tree}
  {entered : List NodeId} {compute : NodeId → Typing TypeId}

theorem constant_lt {t : TypeTable} (ht : t.Sound) (c : Constant) :
    (constant c).index < t.size := by
  unfold constant
  split <;> exact ht.lt_of_index_le (by decide)

section

variable {object : TypeId}

theorem simple_ends (hp : p.Sound) :
    Ends (tabling Tabling.simple) p fun object p' => p.Builds object p' := by
  obtain ⟨object, t, hrun, hsound, hmore, hnew, hlt, -⟩ :=
    ends_iff.mp (Tabling.simple_ends hp.space.table)
  have hrun' : Tabling.simple p.space.table = .ok (object, t) := hrun
  refine ends_iff.mpr ⟨object, { p with space := { p.space with table := t } }, ?_, rfl, hsound, hmore,
    hnew, hlt⟩
  simp [tabling, reading, Reading.tabling, hrun', bind, Except.bind, pure, Except.pure]

/-- An object gets one more handler while it is being made. -/
theorem addHandler_ends (h : p.Builds object p') {handler : TypeId × TypeId}
    (hguard : handler.1.index < p'.table.size) (hanswer : handler.2.index < p'.table.size) :
    Ends (tabling (Tabling.addHandler object handler.1 handler.2)) p' fun _ p'' =>
      p.Builds object p'' ∧ p''.table.size = p'.table.size := by
  have hsize := TypeTable.size_update p'.table object (·.addHandler handler.1 handler.2)
  refine ⟨⟨?_, h.sound.addHandler hguard hanswer, h.grows.update h.new _, h.new, ?_⟩, hsize⟩
  · rw [h.eq]
    rfl
  · exact h.lt.trans_eq hsize.symm

theorem addHandlers_ends (h : p.Builds object p') {handlers : List (TypeId × TypeId)}
    (hhandlers : ∀ handler ∈ handlers,
      handler.1.index < p'.table.size ∧ handler.2.index < p'.table.size) :
    Ends (forIn handlers PUnit.unit fun handler _ => do
      tabling (Tabling.addHandler object handler.1 handler.2)
      pure (ForInStep.yield PUnit.unit)) p' fun _ p'' => p.Builds object p'' := by
  let inv (_ : List (TypeId × TypeId)) (p'' : Pass) : Prop :=
    p.Builds object p'' ∧ p''.table.size = p'.table.size
  have hstart : inv [] p' := ⟨h, rfl⟩
  refine Ends.mono (ends_forIn ?_ hstart) fun _ p'' h'' => h''.1
  rintro _ handler hmem p₁ ⟨h₁, hsize₁⟩
  obtain ⟨hguard, hanswer⟩ := hhandlers handler hmem
  rw [← hsize₁] at hguard hanswer
  rw [ends_bind_iff]
  exact (addHandler_ends h₁ hguard hanswer).mono fun _ p₂ h₂ => ⟨rfl, h₂.1, h₂.2.trans hsize₁⟩

end

section

variable (h : p.Entering a R base path N entered compute)
include h

theorem constant_ends {c : Constant} (hform : N.form = .expr (.constant c)) :
    p.Finds a R base path N (constant c) p := by
  have hadmits := h.admits hform
  rw [ExprForm.admits, Tree.length_exprForms, Bool.and_eq_true, beq_iff_eq,
    List.length_eq_zero_iff] at hadmits
  refine h.finds hform rfl ?_ (constant_lt h.stands.sound.space.table c)
  rw [hadmits.1]
  exact h.stands.visits _

/-- The type of an operand, for expressions that have one part. -/
theorem operand_ends (hblock : N.form ≠ .expr .block) (hhandler : N.form ≠ .expr .handler)
    {V : Tree} (hparts : N.expressions = [V]) :
    Ends (operand a compute N.id) p fun type p' =>
      p.Visits a R base path (p.Touches path [N]) [V] p' ∧ p'.types.lookup V.id = some type := by
  rw [operand, h.expressions_eq, hparts]
  refine (h.child hblock hhandler (h.stands.visits _) hparts).mono ?_
  rintro type p' ⟨hvisits, hlookup, -⟩
  exact ⟨hvisits, hlookup⟩

theorem array_ends (hform : N.form = .expr .array) :
    Ends (array a compute N.id) p (p.Finds a R base path N) := by
  obtain ⟨hblock, hhandler⟩ := Entering.no_frame hform rfl
  rw [array, h.expressions_eq, ends_bind_iff]
  refine (h.children hblock hhandler (h.stands.visits _) rfl).mono ?_
  rintro items p₁ ⟨hvisits₁, -, hlt, -⟩
  have hfinish : ∀ item p₂, p₁.Quiet p₂ → item.index < p₂.table.size →
      Ends (tabling (Tabling.instantiate .array [item])) p₂ (p.Finds a R base path N) := by
    intro item p₂ hquiet₂ hlt₂
    refine (tabling_ends hquiet₂.sound (fun type t => type.index < t.size) ?_).mono ?_
    · refine (MessageLang.instantiate_ends hquiet₂.sound.space.table
        (hquiet₂.sound.lt_of_builtin (by decide)) ?_).mono fun _ _ h => ⟨h.1, h.2.1, h.2.2.1⟩
      exact List.forall_mem_singleton.mpr hlt₂
    · rintro type p₃ ⟨hquiet₃, hlt₃⟩
      exact h.finds hform rfl (h.quiet hvisits₁ (fun _ h => h) (hquiet₂.trans hquiet₃)) hlt₃
  split
  · exact hfinish .anything p₁ (.refl hvisits₁.stands.sound)
      (hvisits₁.stands.sound.lt_of_builtin (by decide))
  · rw [ends_bind_iff]
    refine (unite_ends hvisits₁.stands.sound hlt).mono ?_
    exact fun item p₂ ⟨hquiet₂, hlt₂, _⟩ => hfinish item p₂ hquiet₂ hlt₂

theorem fieldsFrom_ends (hblock : N.form ≠ .expr .block) (hhandler : N.form ≠ .expr .handler)
    (position : Nat) (hvisits : p.Visits a R base path (p.Touches path [N]) done p')
    (hsplit : N.expressions = done ++ rest) :
    Ends (fieldsFrom a compute position (rest.map Tree.id)) p' fun fields p'' =>
      p.Visits a R base path (p.Touches path [N]) N.expressions p'' ∧
        (∀ f ∈ fields, f.type.index < p''.table.size) ∧ p'.table.Extends p''.table := by
  induction rest generalizing position done p' with
  | nil =>
    rw [List.append_nil] at hsplit
    rw [List.map_nil, fieldsFrom, ends_pure_iff, hsplit]
    exact ⟨hvisits, fun _ h => (nomatch h), .refl _⟩
  | cons C rest ih =>
    rw [List.map_cons, fieldsFrom]
    simp only [ends_bind_iff]
    refine (h.child hblock hhandler hvisits hsplit).mono ?_
    rintro type p₁ ⟨hvisits₁, hlookup, hmore₁⟩
    refine (ih (position + 1) hvisits₁ (by simpa using hsplit)).mono ?_
    rintro fields p₂ ⟨hvisits₂, hlt, hmore₂⟩
    rw [ends_pure_iff]
    refine ⟨hvisits₂, List.forall_mem_cons.mpr ⟨?_, hlt⟩, hmore₁.trans hmore₂⟩
    exact hmore₂.lt (hvisits₁.stands.sound.types_lt _ (mem_of_lookup_eq_some hlookup))

theorem struct_ends (hform : N.form = .expr .struct) :
    Ends (struct a compute N.id) p (p.Finds a R base path N) := by
  obtain ⟨hblock, hhandler⟩ := Entering.no_frame hform rfl
  rw [struct, h.expressions_eq, ends_bind_iff]
  refine (fieldsFrom_ends h hblock hhandler 0 (h.stands.visits _) rfl).mono ?_
  rintro fields p₁ ⟨hvisits₁, hlt, -⟩
  have hsound := hvisits₁.stands.sound
  refine (tabling_ends hsound (fun type t => type.index < t.size) ?_).mono ?_
  · exact (Tabling.compound_ends hsound.space.table hlt).mono fun _ _ h => ⟨h.1, h.2.1, h.2.2.2.1⟩
  · rintro type p₂ ⟨hquiet₂, hlt₂⟩
    exact h.finds hform rfl (h.quiet hvisits₁ (fun _ h => h) hquiet₂) hlt₂

/-- Expressions with one part that are of the type of that part. -/
theorem wrapper_ends {form : ExprForm} (hform : N.form = .expr form)
    (hcomposite : form.isComposite = true) (hone : N.expressions.length = 1) :
    Ends (operand a compute N.id) p (p.Finds a R base path N) := by
  obtain ⟨hblock, hhandler⟩ := Entering.no_frame hform hcomposite
  obtain ⟨V, hparts⟩ := List.length_eq_one_iff.mp hone
  refine (operand_ends h hblock hhandler hparts).mono ?_
  rintro type p₁ ⟨hvisits₁, hlookup⟩
  rw [← hparts] at hvisits₁
  exact h.finds hform hcomposite hvisits₁
    (hvisits₁.stands.sound.types_lt _ (mem_of_lookup_eq_some hlookup))

theorem call_ends (hform : N.form = .expr .call) :
    Ends (call a compute N.id) p (p.Finds a R base path N) := by
  obtain ⟨hblock, hhandler⟩ := Entering.no_frame hform rfl
  have hadmits := h.admits hform
  rw [ExprForm.admits, Tree.length_exprForms, Bool.and_eq_true, beq_iff_eq,
    List.length_eq_two] at hadmits
  obtain ⟨⟨receiver, message, hparts⟩, -⟩ := hadmits
  rw [call, h.expressions_eq, hparts]
  simp only [List.map_cons, List.map_nil, ends_bind_iff]
  refine (h.child hblock hhandler (h.stands.visits _) hparts).mono ?_
  rintro receiverType p₁ ⟨hvisits₁, hreceiver, -⟩
  refine (h.child hblock hhandler hvisits₁ hparts).mono ?_
  rintro messageType p₂ ⟨hvisits₂, hmessage, hmore₂⟩
  have hlt := hvisits₁.stands.sound.types_lt _ (mem_of_lookup_eq_some hreceiver)
  refine (answer_ends hvisits₂.stands.sound message.id (hmore₂.lt hlt)
    (hvisits₂.stands.sound.types_lt _ (mem_of_lookup_eq_some hmessage))).mono ?_
  rintro type p₃ ⟨hquiet₃, hlt₃⟩
  refine h.finds hform rfl ?_ hlt₃
  rw [hparts]
  exact h.quiet hvisits₂ (fun W hW => hparts ▸ hW) hquiet₃

/-- Comparing a type with what it has to be, and reporting if it is not that, before going on. -/
theorem demand_ends {node : NodeId} {target source : TypeId} {problem : Problem} {α : Type}
    {next : PUnit → Typing α} {post : α → Pass → Prop}
    (hvisits : p.Visits a R base path (p.Touches path [N]) done p')
    (hdone : ∀ W ∈ done, W ∈ N.expressions) (htarget : target.index < p'.table.size)
    (hsource : source.index < p'.table.size)
    (hproblem : ∀ name, problem ≠ .recursiveDefinition name)
    (hnext : ∀ p'', p.Visits a R base path (p.Touches path [N]) done p'' →
      p'.table.Extends p''.table → Ends (next ⟨⟩) p'' post) :
    Ends (demand a node target source problem next) p' post := by
  rw [demand, ends_bind_iff]
  refine (fits_ends hvisits.stands.sound htarget hsource).mono fun verdict p₁ h₁ => ?_
  split
  · rw [ends_bind_iff]
    refine (report_ends h₁.sound hproblem).mono fun _ p₂ h₂ => ?_
    exact hnext p₂ (h.quiet hvisits hdone (h₁.trans h₂)) (h₁.trans h₂).table
  · exact hnext p₁ (h.quiet hvisits hdone h₁) h₁.table

theorem logic_ends {op : LogicOp} (hform : N.form = .expr (.logic op)) :
    Ends (logic a compute N.id op) p (p.Finds a R base path N) := by
  obtain ⟨hblock, hhandler⟩ := Entering.no_frame hform rfl
  rw [logic, h.expressions_eq, List.forIn_map, ends_bind_iff]
  let inv (done : List Tree) (p' : Pass) : Prop :=
    p.Visits a R base path (p.Touches path [N]) done p'
  have hstart : inv [] p := h.stands.visits _
  refine Ends.mono (ends_forIn_of_split ?_ hstart) ?_
  · intro done C rest hsplit p₁ hvisits₁
    rw [ends_bind_iff]
    refine (h.child hblock hhandler hvisits₁ hsplit).mono ?_
    rintro type p₂ ⟨hvisits₂, hlookup, -⟩
    refine demand_ends h hvisits₂ (fun W hW => ?_) (hvisits₂.stands.sound.lt_of_builtin (by decide))
      (hvisits₂.stands.sound.types_lt _ (mem_of_lookup_eq_some hlookup)) (by simp)
      fun p₃ hvisits₃ _ => ⟨rfl, hvisits₃⟩
    rw [hsplit, List.append_cons]
    exact List.mem_append_left _ hW
  · intro _ p₁ hvisits₁
    exact h.finds hform rfl hvisits₁ (hvisits₁.stands.sound.lt_of_builtin (by decide))

theorem conditional_ends (hform : N.form = .expr .conditional) :
    Ends (conditional a compute N.id) p (p.Finds a R base path N) := by
  obtain ⟨hblock, hhandler⟩ := Entering.no_frame hform rfl
  have hadmits := h.admits hform
  rw [ExprForm.admits, Tree.length_exprForms, Bool.and_eq_true] at hadmits
  rw [conditional, h.expressions_eq]
  cases hparts : N.expressions with
  | nil =>
    rw [hparts] at hadmits
    cases hadmits.1
  | cons condition branches =>
    rw [List.map_cons]
    dsimp only
    rw [ends_bind_iff]
    refine (h.child hblock hhandler (h.stands.visits _) hparts).mono ?_
    rintro type p₁ ⟨hvisits₁, hlookup, -⟩
    refine demand_ends h hvisits₁ (fun W hW => ?_) (hvisits₁.stands.sound.lt_of_builtin (by decide))
      (hvisits₁.stands.sound.types_lt _ (mem_of_lookup_eq_some hlookup)) (by simp)
      fun p₂ hvisits₂ _ => ?_
    · rw [hparts, List.mem_singleton.mp hW]
      exact List.mem_cons_self
    · rw [ends_bind_iff]
      refine (h.children hblock hhandler hvisits₂ hparts).mono ?_
      rintro types p₃ ⟨hvisits₃, -, hlt, -⟩
      refine (unite_ends hvisits₃.stands.sound ?_).mono ?_
      · split
        · rw [List.forall_mem_append]
          exact ⟨hlt, List.forall_mem_singleton.mpr (hvisits₃.stands.sound.lt_of_builtin (by decide))⟩
        · exact hlt
      · rintro type p₄ ⟨hquiet₄, hlt₄, -⟩
        exact h.finds hform rfl (h.quiet hvisits₃ (fun _ h => h) hquiet₄) hlt₄

theorem newObject_ends (hform : N.form = .expr .newObject) :
    Ends (newObject a compute N.id) p (p.Finds a R base path N) := by
  obtain ⟨hblock, hhandler⟩ := Entering.no_frame hform rfl
  have hadmits := h.admits hform
  rw [ExprForm.admits, Tree.length_exprForms, Bool.and_eq_true, beq_iff_eq,
    List.length_eq_one_iff] at hadmits
  obtain ⟨⟨code, hparts⟩, -⟩ := hadmits
  rw [newObject, h.expressions_eq, hparts]
  simp only [List.map_cons, List.map_nil, ends_bind_iff]
  refine (h.child hblock hhandler (h.stands.visits _) hparts).mono ?_
  rintro _ p₁ ⟨hvisits₁, -, -⟩
  have hparts₁ : p.Visits a R base path (p.Touches path [N]) N.expressions p₁ := hparts ▸ hvisits₁
  split
  · exact h.finds hform rfl hparts₁ (hvisits₁.stands.sound.lt_of_builtin (by decide))
  · rw [ends_bind_iff]
    refine (simple_ends hvisits₁.stands.sound).mono fun object p₂ hbuilds₂ => ?_
    let inv (_ : List NodeId) (p' : Pass) : Prop := p₁.Builds object p'
    have hstart : inv [] p₂ := hbuilds₂
    rw [ends_bind_iff]
    refine Ends.mono (ends_forIn ?_ hstart) fun _ p₃ hbuilds₃ => ?_
    · intro _ handler _ p₃ hbuilds₃
      simp only [ends_bind_iff, ends_get_iff]
      split
      · exact ⟨rfl, hbuilds₃⟩
      · rw [ends_bind_iff]
        refine (addHandlers_ends hbuilds₃ fun handler => hbuilds₃.sound.handler_lt).mono ?_
        exact fun _ p₄ hbuilds₄ => ⟨rfl, hbuilds₄⟩
    · exact h.finds hform rfl (h.quiet hparts₁ (fun _ h => h) (hbuilds₃.quiet hvisits₁.stands.sound))
        hbuilds₃.lt

end

end Typing

end MessageLang
