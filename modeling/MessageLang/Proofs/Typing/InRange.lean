import MessageLang.Proofs.Typing.Calls
import MessageLang.Proofs.Typing.Ranging

namespace MessageLang

open Ranged Stocked

namespace Typing

section

variable {e : Extent} {a : Arena} {node : NodeId} {type : TypeId}

theorem reading_ranging {α : Type} [Ranged α] {step : Reading α}
    (h : Ranging ⟨e.types, e.typeFrames, 0, 0⟩ step step) : Ranging e (reading step) (reading step) := by
  refine .same fun p hp hle => ?_
  intro x p' hrun
  cases hstep : step p.space with
  | error fault => simp [reading, hstep, bind, Except.bind] at hrun
  | ok made =>
    simp [reading, hstep, bind, Except.bind, pure, Except.pure] at hrun
    obtain ⟨rfl, rfl⟩ := hrun
    have hmade := (h p.space ⟨hp.1.space, hp.2⟩ ⟨hle.1, hle.2.1, le_rfl, le_rfl⟩).2 _ _ hstep
    have hmore : p.extent ≤ { p with space := made.2 }.extent :=
      ⟨hmade.le.1, hmade.le.2.1, le_rfl, le_rfl⟩
    have hspace : extent made.2 ≤ extent { p with space := made.2 } :=
      ⟨le_rfl, le_rfl, Nat.zero_le _, Nat.zero_le _⟩
    exact ⟨⟨hp.1.withSpace hmade.tidy.1 hmore, hmade.tidy.2⟩, hmore, mono hspace hmade.within⟩

theorem tabling_ranging {α : Type} [Ranged α] {change : Tabling α}
    (h : Ranging (.ofTypes e.types) change change) : Ranging e (tabling change) (tabling change) :=
  reading_ranging (Reading.tabling_ranging h)

theorem report_ranging (a : Arena) (node : NodeId) (problem : Problem) :
    Ranging e (report a node problem) (report a node problem) :=
  reading_ranging (Reading.report_ranging a node problem)

theorem readType_ranging (a : Arena) (node : NodeId) :
    Ranging e (readType a node) (readType a node) :=
  .get fun _ _ _ => reading_ranging (Reading.readWithin_ranging a _ a.size node)

theorem checking_ranging {α : Type} [Ranged α] {step : TypeTable → Checking α}
    (h : ∀ (t : TypeTable) (c : Checker), t.Sound → e.types ≤ t.size → c.InRange t.size →
      After (step t) c fun x c' => c'.InRange t.size ∧ Within (extent t) x) :
    Ranging e (checking step) (checking step) := by
  refine .same fun p hp hle => ?_
  intro x p' hrun
  cases hstep : step p.table p.checker with
  | error fault => simp [checking, hstep, bind, Except.bind] at hrun
  | ok made =>
    simp [checking, hstep, bind, Except.bind, pure, Except.pure] at hrun
    obtain ⟨rfl, rfl⟩ := hrun
    obtain ⟨hchecker, hmade⟩ := h p.table p.checker hp.2 hle.1 hp.1.checker _ _ hstep
    have htable : extent p.table ≤ extent p := ⟨le_rfl, Nat.zero_le _, Nat.zero_le _, Nat.zero_le _⟩
    exact ⟨⟨{ hp.1 with checker := hchecker }, hp.2⟩, le_rfl, mono htable hmade⟩

theorem canAssign_ranging {target source : TypeId} (htarget : target.index < e.types)
    (hsource : source.index < e.types) :
    Ranging e (checking fun t => Checking.canAssign t target source)
      (checking fun t => Checking.canAssign t target source) :=
  checking_ranging fun _ _ ht hle hc =>
    (hc.canAssign ht.closed (htarget.trans_le hle) (hsource.trans_le hle)).mono
      fun _ _ hc' => ⟨hc', trivial⟩

theorem takeConflicts_ranging :
    Ranging e (checking fun _ => Checking.takeConflicts) (checking fun _ => Checking.takeConflicts) :=
  checking_ranging fun _ _ _ _ hc => hc.takeConflicts

theorem reportConflicts_ranging (a : Arena) (node : NodeId) :
    Ranging e (reportConflicts a node) (reportConflicts a node) :=
  takeConflicts_ranging.seq fun _ _ _ _ => Ranging.seq (.forIn fun _ _ => .get fun _ _ _ =>
    (report_ranging a node _).seq fun _ _ _ _ => .pure trivial) fun _ _ _ _ => .done

theorem fits_ranging (a : Arena) (node : NodeId) {target source : TypeId}
    (htarget : target.index < e.types) (hsource : source.index < e.types) :
    Ranging e (fits a node target source) (fits a node target source) :=
  (canAssign_ranging htarget hsource).seq fun _ _ _ _ =>
    (reportConflicts_ranging a node).seq fun _ _ _ _ => .pure trivial

/-- Comparing a type with what it has to be, and reporting if it is not that. -/
theorem demand_ranging {β : Type} [Ranged β] {next next' : PUnit → Typing β} {target source : TypeId}
    {problem : Problem} (htarget : target.index < e.types) (hsource : source.index < e.types)
    (hnext : Ranging e (next ⟨⟩) (next' ⟨⟩)) :
    Ranging e (demand a node target source problem next) (demand a node target source problem next') := by
  refine (fits_ranging a node htarget hsource).seq fun e₁ verdict hle _ => ?_
  split
  · exact (report_ranging a node problem).seq fun _ _ hle' _ => hnext.mono (hle.trans hle')
  · exact hnext.mono hle

theorem setType_ranging (node : NodeId) (htype : type.index < e.types) :
    Ranging e (setType node type) (setType node type) :=
  .modify fun _ hp hle => ⟨⟨{ hp.1 with
    types_lt := List.forall_mem_cons.mpr ⟨htype.trans_le hle.1, hp.1.types_lt⟩ }, hp.2⟩, le_rfl⟩

theorem addTerm_ranging (name : String) {meaning : Variable} (hmeaning : meaning.meaning.Within e) :
    Ranging e (addTerm name meaning) (addTerm name meaning) := by
  refine .modify fun p hp hle => ?_
  have hmore : p.extent ≤ { p with terms := p.terms.add p.scope name meaning }.extent :=
    ⟨le_rfl, le_rfl, (Scopes.size_add ..).ge, le_rfl⟩
  have hknown := hp.1.toWithin.mono hmore
  exact ⟨⟨{ hknown with
    terms := hknown.terms.add _ _ (hmeaning.mono (hle.trans hmore))
    space := hp.1.space
    linked := hp.1.linked.add _ _ _ }, hp.2⟩, hmore⟩

/-- The frames that are gone back to are those there were. -/
theorem inNewScope_ranging {α : Type} [Ranged α] {step step' : Typing α} (h : Ranging e step step') :
    Ranging e (inNewScope step) (inNewScope step') := by
  refine .get fun outer houter hle => ?_
  refine Ranging.seq (.modify fun p hp _ => ⟨⟨hp.1.pushed, hp.2⟩, p.extent_le_pushed⟩) fun _ _ hle₁ _ => ?_
  refine (h.mono (hle.trans hle₁)).seq fun e₂ x hle₂ hx => ?_
  refine Ranging.seq (.modify fun p hp hle₃ => ?_) fun _ _ hle₃ _ => .pure (mono hle₃ hx)
  have hback := houter.1.toWithin.mono (hle₁.trans (hle₂.trans hle₃))
  exact ⟨⟨{ hp.1 with scope_lt := hback.scope_lt, typeScope_lt := hback.typeScope_lt }, hp.2⟩, le_rfl⟩

/-- What a guard that does not fit leaves behind is taken back to what there was. -/
theorem firstMatch?_ranging (message : NodeId) (htype : type.index < e.types)
    {handlers : List (TypeId × TypeId)}
    (hhandlers : ∀ handler ∈ handlers, handler.1.index < e.types ∧ handler.2.index < e.types) :
    Ranging e (firstMatch? a message type handlers) (firstMatch? a message type handlers) := by
  induction handlers generalizing e with
  | nil => exact (reportConflicts_ranging a message).seq fun _ _ _ _ => .pure (within_none _)
  | cons handler rest ih =>
    obtain ⟨guard, answer⟩ := handler
    obtain ⟨⟨hguard, hanswer⟩, hrest⟩ := List.forall_mem_cons.mp hhandlers
    refine .get fun before hbefore hle => ?_
    refine (canAssign_ranging (hguard.trans_le hle.1) (htype.trans_le hle.1)).seq
      fun e₁ verdict hle₁ _ => ?_
    split
    · refine takeConflicts_ranging.seq fun e₂ _ hle₂ _ => .get fun p hp hle₃ => ?_
      have hle₃ := hle.trans (hle₁.trans (hle₂.trans hle₃))
      have himages : ∀ entry ∈ p.checker.bindings.resolutions p.table,
          entry.2.index < p.extent.types := fun _ => hp.1.checker.bindings.bound_lt.resolutions
      have hanswer : answer.index < p.extent.types := hanswer.trans_le hle₃.1
      refine (tabling_ranging (Tabling.substitute_ranging hanswer himages)).seq
        fun e₄ image hle₄ himage => .pure fun found hfound => ?_
      cases hfound
      exact ⟨himage, hguard.trans_le (hle₃.trans hle₄).1⟩
    · refine Ranging.seq (.modify fun p hp hle₂ => ?_) fun e₂ _ hle₂ _ => ?_
      · have hpoint := hbefore.1.checker.bindings.mono (hle₁.trans hle₂).1
        exact ⟨⟨{ hp.1 with checker := hp.1.checker.rollback hpoint }, hp.2⟩, le_rfl⟩
      · have hle₂ := (hle.trans (hle₁.trans hle₂)).1
        exact ih (htype.trans_le hle₂) fun handler hhandler =>
          (hrest handler hhandler).imp (·.trans_le hle₂) (·.trans_le hle₂)

theorem answer_ranging (message : NodeId) (receiver : TypeId) (htype : type.index < e.types) :
    Ranging e (answer a node message receiver type) (answer a node message receiver type) := by
  refine .get fun p hp hle => ?_
  dsimp only
  split
  · exact .builtin (by decide)
  · split
    · next found hfound =>
      obtain ⟨symbol, -, hsymbol⟩ := Option.bind_eq_some_iff.mp hfound
      exact .pure (hp.2.closed.answer_lt hsymbol)
    · refine (firstMatch?_ranging message (htype.trans_le hle.1) fun _ => hp.2.handler_lt).seq
        fun e₁ found _ hfound => ?_
      split
      · next answer guard =>
        obtain ⟨hanswer, hguard⟩ := hfound _ rfl
        refine Ranging.seq (.modify fun q hq hle₁ => ?_) fun _ _ hle₁ _ => .pure (mono hle₁ hanswer)
        exact ⟨⟨{ hq.1 with
          coercions_lt := List.forall_mem_cons.mpr ⟨(mono hle₁ hguard : guard.index < _),
            hq.1.coercions_lt⟩ }, hq.2⟩, le_rfl⟩
      · exact (report_ranging a node _).seq fun _ _ _ _ => .builtin (by decide)

theorem handlerResult_ranging {declared : Option TypeId} {exits : List (NodeId × TypeId)}
    (hdeclared : Within e declared) (hexits : Within e exits) :
    Ranging e (handlerResult a declared exits) (handlerResult a declared exits) := by
  cases declared with
  | none =>
    exact tabling_ranging (Tabling.union_ranging (List.forall_mem_map.mpr fun exit hexit =>
      (hexits exit hexit).2))
  | some expected =>
    have hexpected : expected.index < e.types := hdeclared expected rfl
    refine Ranging.seq (.forIn fun exit hexit => ?_) fun _ _ hle _ => .pure (mono hle hexpected)
    exact demand_ranging hexpected (hexits exit hexit).2 (.pure trivial)

theorem declareLocal_ranging (definition : NodeId) :
    Ranging e (declareLocal a definition) (declareLocal a definition) := by
  rw [declareLocal]
  split
  · next name mutable _ =>
    refine (Ranging.option fun type => readType_ranging a type).seq fun e₁ declared _ hdeclared => ?_
    refine .same fun p hp hle => ?_
    have hentry : Placeholder.Within p.extent
        { name, definition, declared, value := (a.expressions definition).head?
          scope := p.scope, typeScope := p.typeScope } :=
      ⟨hp.1.scope_lt, hp.1.typeScope_lt, mono hle hdeclared, within_none _⟩
    obtain ⟨hmore, hinRange⟩ := hp.1.declared hentry definition name mutable
    simp only [after_bind_iff, after_get_iff, after_set_iff, addTerm, after_modify_iff]
    exact ⟨⟨hinRange, hp.2⟩, hmore, trivial⟩
  · exact .done

theorem declareLocals_ranging (group : NodeId) :
    Ranging e (declareLocals a group) (declareLocals a group) :=
  .forM fun definition _ => declareLocal_ranging definition

end

section

variable {e : Extent} {a : Arena} {options : TypingOptions} {compute compute' : NodeId → Typing TypeId}
  {node : NodeId} {name : String} {id : PlaceholderId}
  (hcompute : ∀ e n, Ranging e (compute n) (compute' n))
include hcompute

theorem valueType_ranging (value : Option NodeId) {declared : Option TypeId}
    (hdeclared : Within e declared) :
    Ranging e (valueType a compute value declared) (valueType a compute' value declared) := by
  cases value with
  | none =>
    cases declared with
    | none => exact .builtin (by decide)
    | some expected => exact .pure (hdeclared expected rfl)
  | some v =>
    refine (hcompute e v).seq fun e₁ found hle hfound => ?_
    cases declared with
    | none => exact .pure hfound
    | some expected =>
      have hexpected : expected.index < e₁.types := mono hle (hdeclared expected rfl)
      exact demand_ranging hexpected hfound (.pure hexpected)

/-- Typing goes into frames that are there, and comes back to frames that are there. -/
theorem resolveNow_ranging (hid : id.index < e.placeholders) :
    Ranging e (resolveNow a compute id) (resolveNow a compute' id) := by
  refine .get fun before hbefore hle => ?_
  have hlt := hid.trans_le hle.2.2.2
  have hentry := hbefore.1.placeholders id hlt
  refine Ranging.seq (.modify fun p hp hle₁ => ?_) fun e₁ _ hle₁ _ => ?_
  · have hopened := hentry.mono hle₁
    exact ⟨⟨{ hp.1 with
      scope_lt := hopened.scope_lt
      typeScope_lt := hopened.typeScope_lt
      resolving_lt := List.forall_mem_cons.mpr ⟨hlt.trans_le hle₁.2.2.2, hp.1.resolving_lt⟩ },
      hp.2⟩, le_rfl⟩
  have hclosed : ∀ e₂, extent before ≤ e₂ → ∀ type : TypeId, type.index < e₂.types → Ranging e₂
      (do modify fun p => Pass.closed before p id type; return type : Typing TypeId)
      (do modify fun p => Pass.closed before p id type; return type : Typing TypeId) := by
    intro e₂ hle₂ type htype
    refine Ranging.seq (.modify fun p hp hle₃ => ?_) fun _ _ hle₃ _ => .pure (mono hle₃ htype)
    have hleft := hbefore.1.toWithin.mono (hle₂.trans hle₃)
    refine ⟨⟨hp.1.closed hleft ?_ (htype.trans_le hle₃.1), hp.2⟩, (p.extent_closed ..).ge⟩
    exact hlt.trans_le (hle₂.trans hle₃).2.2.2
  refine (valueType_ranging hcompute _ (mono hle₁ hentry.declared_lt)).seq fun e₂ found hle₂ hfound => ?_
  have hle₂ := hle₁.trans hle₂
  refine .get fun q _ hlast => ?_
  have hle₃ := hle₂.trans hlast
  have hanything : ∀ {e₄ : Extent}, extent before ≤ e₄ → TypeId.anything.index < e₄.types :=
    fun hle₄ => Nat.lt_of_lt_of_le ((by decide : _ ≤ _).trans_lt (builtins_lt hbefore)) hle₄.1
  dsimp only
  split
  · rw [Pass.takeBack_eq]
    refine Ranging.seq (.modify fun p hp hle₄ => ?_) fun e₄ _ hle₄ _ => ?_
    · have hback := hbefore.1.toWithin.mono (hle₃.trans hle₄)
      exact ⟨⟨hp.1.takenBack hback, hp.2⟩, (before.extent_takenBack p).ge⟩
    have hle₄ := hle₃.trans hle₄
    refine Ranging.seq (.modify fun p hp hle₅ => ?_) fun e₅ _ hle₅ _ => ?_
    · refine ⟨⟨hp.1.updatePlaceholder fun entry hentry => ?_, hp.2⟩,
        (p.extent_updatePlaceholder ..).ge⟩
      exact { hentry with
        result_lt := fun _ htype => Option.some.inj htype ▸ hanything (hle₄.trans hle₅) }
    refine (report_ranging a _ _).seq fun e₆ _ hle₆ _ => ?_
    refine (valueType_ranging hcompute _ (within_none _)).seq fun e₇ _ hle₇ _ => ?_
    have hle₇ := hle₄.trans (hle₅.trans (hle₆.trans hle₇))
    exact hclosed e₇ hle₇ _ (hanything hle₇)
  · exact hclosed _ hle₃ _ (mono hlast hfound)

theorem resolve_ranging (hid : id.index < e.placeholders) :
    Ranging e (resolve a compute id) (resolve a compute' id) := by
  refine .get fun p hp hle => ?_
  have hentry := hp.1.placeholders id (hid.trans_le hle.2.2.2)
  dsimp only
  split
  · next type hdone => exact .pure (hentry.result_lt type hdone)
  · split
    · split
      · next type hdeclared => exact .pure (hentry.declared_lt type hdeclared)
      · refine Ranging.seq (.modify fun q hq _ => ?_) fun _ _ _ _ => .builtin (by decide)
        exact ⟨⟨hq.1.updatePlaceholder fun _ hother => { hother with }, hq.2⟩,
          (q.extent_updatePlaceholder ..).ge⟩
    · exact (resolveNow_ranging hcompute hid).mono hle

theorem meaningType_ranging {meaning : Meaning} (hmeaning : meaning.Within e) :
    Ranging e (meaningType a compute meaning) (meaningType a compute' meaning) := by
  cases meaning with
  | known type => exact .pure hmeaning
  | pending id => exact resolve_ranging hcompute hmeaning

theorem reference_ranging : Ranging e (reference a compute node name) (reference a compute' node name) := by
  refine .get fun p hp _ => ?_
  split
  · next hfound => exact meaningType_ranging hcompute (hp.1.terms.get? hfound)
  · exact (report_ranging a node _).seq fun _ _ _ _ => .builtin (by decide)

theorem fieldsFrom_ranging (position : Nat) (nodes : List NodeId) :
    Ranging e (fieldsFrom a compute position nodes) (fieldsFrom a compute' position nodes) := by
  induction nodes generalizing e position with
  | nil => exact .pure (within_nil e)
  | cons n rest ih =>
    refine (hcompute e n).seq fun e₁ type _ htype => (ih (position + 1)).seq fun e₂ fields hle hfields => ?_
    exact .pure (List.forall_mem_cons.mpr ⟨mono hle htype, hfields⟩)

theorem defineLocals_ranging (group : NodeId) :
    Ranging e (defineLocals a compute group) (defineLocals a compute' group) := by
  refine .forM fun definition _ => .get fun p hp _ => ?_
  split
  · next id hid =>
    refine (resolve_ranging hcompute (hp.1.ofLocal_lt _ (mem_of_lookup_eq_some hid))).seq ?_
    exact fun _ _ _ htype => setType_ranging definition htype
  · exact .done

theorem operand_ranging : Ranging e (operand a compute node) (operand a compute' node) := by
  rw [operand, operand]
  split
  · exact hcompute e _
  · exact .builtin (by decide)

theorem array_ranging : Ranging e (array a compute node) (array a compute' node) := by
  refine (Ranging.mapM fun item _ => hcompute e item).seq fun e₁ items _ hitems => ?_
  have hinstance : ∀ e₂ : Extent, ∀ item : TypeId, item.index < e₂.types → Ranging e₂
      (tabling (Tabling.instantiate .array [item])) (tabling (Tabling.instantiate .array [item])) := by
    refine fun _ item hitem => .there le_rfl fun e₃ hle harray => tabling_ranging ?_
    exact Tabling.instantiate_ranging harray (List.forall_mem_singleton.mpr (hitem.trans_le hle.1))
  dsimp only
  split
  · exact .there (by decide) fun _ _ hanything => hinstance _ .anything hanything
  · exact (tabling_ranging (Tabling.union_ranging hitems)).seq fun _ _ _ hitem => hinstance _ _ hitem

theorem struct_ranging : Ranging e (struct a compute node) (struct a compute' node) :=
  (fieldsFrom_ranging hcompute 0 _).seq fun _ _ _ hfields =>
    tabling_ranging (Tabling.compound_ranging hfields)

theorem newObject_ranging : Ranging e (newObject a compute node) (newObject a compute' node) := by
  rw [newObject, newObject]
  split
  · exact .builtin (by decide)
  · refine (hcompute e _).seq fun e₁ _ _ _ => ?_
    split
    · exact .builtin (by decide)
    · refine (tabling_ranging Tabling.simple_ranging).seq fun e₂ object _ hobject =>
        Ranging.seq (.forIn fun handler _ => .get fun p hp _ => ?_) fun _ _ hle _ => .pure (mono hle hobject)
      dsimp only
      split
      · exact .pure trivial
      · refine Ranging.seq (.forIn fun entry hentry => ?_) fun _ _ _ _ => .pure trivial
        obtain ⟨hguard, hanswer⟩ := hp.2.handler_lt hentry
        exact (tabling_ranging (Tabling.addHandler_ranging object hguard hanswer)).seq
          fun _ _ _ _ => .pure trivial

theorem call_ranging : Ranging e (call a compute node) (call a compute' node) := by
  rw [call, call]
  split
  · exact (hcompute e _).seq fun e₁ receiver _ _ => (hcompute e₁ _).seq fun _ _ _ hmessage =>
      answer_ranging _ receiver hmessage
  · exact .builtin (by decide)

theorem logic_ranging (op : LogicOp) :
    Ranging e (logic a compute node op) (logic a compute' node op) := by
  refine Ranging.seq (.forIn fun operand _ => (hcompute e operand).seq fun e₁ type _ htype => ?_)
    fun _ _ _ _ => .builtin (by decide)
  refine .there (by decide : TypeId.boolean.index ≤ _) fun _ hle hboolean => ?_
  exact demand_ranging hboolean (mono hle htype) (.pure trivial)

theorem conditional_ranging :
    Ranging e (conditional a compute node) (conditional a compute' node) := by
  rw [conditional, conditional]
  split
  · exact .builtin (by decide)
  · refine (hcompute e _).seq fun e₁ type _ htype =>
      .there (by decide : TypeId.boolean.index ≤ _) fun e₂ hle hboolean => ?_
    refine demand_ranging hboolean (mono hle htype) ?_
    refine (Ranging.mapM fun branch _ => hcompute e₂ branch).seq fun e₃ types _ htypes =>
      .there (by decide : TypeId.nothing.index ≤ _) fun e₄ hle' hnothing => ?_
    have htypes := mono hle' htypes
    refine tabling_ranging (Tabling.union_ranging ?_)
    split
    · exact List.forall_mem_append.mpr ⟨htypes, List.forall_mem_singleton.mpr hnothing⟩
    · exact htypes

/-- The breaks from outside are put back. -/
theorem repeatLoop_ranging :
    Ranging e (repeatLoop a compute node) (repeatLoop a compute' node) := by
  refine .get fun outer houter hle => ?_
  refine Ranging.seq (.modify fun p hp _ => ?_) fun e₁ _ hle₁ _ => ?_
  · exact ⟨⟨{ hp.1 with breaks_lt := fun _ h => nomatch h }, hp.2⟩, le_rfl⟩
  refine (operand_ranging hcompute).seq fun e₂ _ hle₂ _ => .get fun p hp hle₃ => ?_
  refine Ranging.seq (.modify fun q hq hle₄ => ?_) fun e₃ _ hle₄ _ => ?_
  · have hback := houter.1.toWithin.mono (hle₁.trans (hle₂.trans (hle₃.trans hle₄)))
    exact ⟨⟨{ hq.1 with breaks_lt := hback.breaks_lt }, hq.2⟩, le_rfl⟩
  · split
    · exact .builtin (by decide)
    · refine tabling_ranging (Tabling.union_ranging fun type htype => ?_)
      exact (hp.1.breaks_lt type htype).trans_le hle₄.1

theorem assignment_ranging :
    Ranging e (assignment a compute node name) (assignment a compute' node name) := by
  refine (operand_ranging hcompute).seq fun e₁ value _ hvalue => .get fun p hp hle => ?_
  dsimp only
  split
  · exact (report_ranging a node _).seq fun _ _ hle' _ => .pure (mono (hle.trans hle') hvalue)
  · next found hfound =>
    refine (meaningType_ranging hcompute (hp.1.terms.get? hfound)).seq fun e₂ target hle' htarget => ?_
    split
    · exact (report_ranging a node _).seq fun _ _ hle'' _ => .pure (mono hle'' htarget)
    · exact demand_ranging htarget (mono (hle.trans hle') hvalue) (.pure htarget)

theorem returnExit_ranging :
    Ranging e (returnExit a compute node) (returnExit a compute' node) := by
  refine (operand_ranging hcompute).seq fun e₁ type _ htype =>
    Ranging.seq (.modify fun p hp hle => ?_) fun _ _ _ _ => .builtin (by decide)
  have htype := htype.trans_le hle.1
  exact ⟨⟨{ hp.1 with
    escapes_lt := List.forall_mem_append.mpr ⟨hp.1.escapes_lt, List.forall_mem_singleton.mpr htype⟩ },
    hp.2⟩, le_rfl⟩

theorem breakExit_ranging : Ranging e (breakExit a compute node) (breakExit a compute' node) := by
  refine (operand_ranging hcompute).seq fun e₁ type _ htype =>
    Ranging.seq (.modify fun p hp hle => ?_) fun _ _ _ _ => .builtin (by decide)
  have htype := htype.trans_le hle.1
  exact ⟨⟨{ hp.1 with
    breaks_lt := List.forall_mem_append.mpr ⟨hp.1.breaks_lt, List.forall_mem_singleton.mpr htype⟩ },
    hp.2⟩, le_rfl⟩

omit hcompute in
/-- The exits from outside are put back. -/
theorem collectExits_ranging {outer : Pass} (houter : Tidy outer) (hle : extent outer ≤ e)
    {value : TypeId} (hvalue : value.index < e.types) :
    Ranging e (collectExits a outer node value) (collectExits a outer node value) := by
  refine .get fun p hp hle₁ => Ranging.seq (.modify fun q hq hle₂ => ?_) fun e₁ _ hle₂ _ => .pure ?_
  · have hback := houter.1.toWithin.mono (hle.trans (hle₁.trans hle₂))
    exact ⟨⟨{ hq.1 with
      escapes_lt := hback.escapes_lt
      breaks_lt := hback.breaks_lt }, hq.2⟩, le_rfl⟩
  · refine List.forall_mem_append.mpr ⟨fun exit hexit => ⟨trivial, ?_⟩, ?_⟩
    · exact mono hle₂ (hp.1.escapes_lt exit hexit)
    · split
      · exact within_nil _
      · exact List.forall_mem_singleton.mpr ⟨trivial, mono (hle₁.trans hle₂) hvalue⟩

theorem handlerExits_ranging :
    Ranging e (handlerExits a compute node) (handlerExits a compute' node) := by
  rw [handlerExits_eq, handlerExits_eq]
  refine .get fun outer houter _ => Ranging.seq (.modify fun p hp _ => ?_) fun e₁ _ hle₁ _ => ?_
  · exact ⟨⟨{ hp.1 with
      escapes_lt := fun _ h => nomatch h
      breaks_lt := fun _ h => nomatch h }, hp.2⟩, le_rfl⟩
  · exact (operand_ranging hcompute).seq fun e₂ value hle₂ hvalue =>
      collectExits_ranging houter (hle₁.trans hle₂) hvalue

theorem handlerBody_ranging {input : TypeId} (hinput : input.index < e.types) :
    Ranging e (handlerBody a compute node input) (handlerBody a compute' node input) := by
  refine (Ranging.option fun type => readType_ranging a type).seq fun e₁ declared hle₁ hdeclared =>
    .get fun p hp hle₂ => ?_
  refine Ranging.seq (.forIn fun f hf => ?_) fun e₂ _ hle₃ _ => ?_
  · have hfield : (Meaning.known f.type).Within p.extent :=
      hp.2.getD_field_lt (List.mem_of_mem_filter hf)
    exact (addTerm_ranging f.name hfield).seq fun _ _ _ _ => .pure trivial
  · refine (handlerExits_ranging hcompute).seq fun e₃ exits hle₄ hexits => ?_
    have hle₄ := hle₂.trans (hle₃.trans hle₄)
    refine (handlerResult_ranging (mono hle₄ hdeclared) hexits).seq fun _ _ hle₅ hresult => .pure ?_
    exact ⟨mono (hle₁.trans (hle₄.trans hle₅)) hinput, hresult⟩

omit hcompute in
theorem handlerInput_ranging : Ranging e (handlerInput a node) (handlerInput a node) := by
  rw [handlerInput]
  split
  · exact readType_ranging a _
  · exact .builtin (by decide)

theorem handler_ranging : Ranging e (handler a compute node) (handler a compute' node) := by
  rw [handler_eq, handler_eq]
  refine Ranging.seq (inNewScope_ranging ?_) fun _ _ _ hsides =>
    tabling_ranging (Tabling.function_ranging hsides.1 hsides.2)
  exact handlerInput_ranging.seq fun _ _ _ hinput => handlerBody_ranging hcompute hinput

omit hcompute in
theorem reportUnreachable_ranging (reach : Reach) (item : NodeId) :
    Ranging e (reportUnreachable a options reach item) (reportUnreachable a options reach item) := by
  rw [reportUnreachable]
  split
  · exact report_ranging a item _
  · exact .done

theorem typeItem_ranging (item : NodeId) :
    Ranging e (typeItem a compute item) (typeItem a compute' item) := by
  rw [typeItem, typeItem]
  split
  · exact (defineLocals_ranging hcompute item).seq fun _ _ _ _ =>
      .there (by decide : TypeId.nothing.index ≤ _) fun _ _ hnothing =>
        (setType_ranging item hnothing).seq fun _ _ _ _ => .builtin (by decide)
  · exact hcompute e item

theorem itemsFrom_ranging (reach : Reach) {last : TypeId} (hlast : last.index < e.types)
    (items : List NodeId) :
    Ranging e (itemsFrom a options compute reach last items)
      (itemsFrom a options compute' reach last items) := by
  induction items generalizing e reach last with
  | nil => exact .pure hlast
  | cons item rest ih =>
    rw [itemsFrom_cons, itemsFrom_cons]
    exact (reportUnreachable_ranging reach item).seq fun _ _ _ _ =>
      (typeItem_ranging hcompute item).seq fun _ _ _ htype => ih _ htype

theorem block_ranging :
    Ranging e (block a options compute node) (block a options compute' node) := by
  refine inNewScope_ranging (Ranging.seq (.forIn fun item _ => ?_) fun _ _ _ _ => ?_)
  · split
    · exact (declareLocals_ranging item).seq fun _ _ _ _ => .pure trivial
    · exact .pure trivial
  · exact .there (by decide) fun _ _ hlt => itemsFrom_ranging hcompute _ hlt _

theorem locals_ranging : Ranging e (locals a compute node) (locals a compute' node) :=
  (declareLocals_ranging node).seq fun _ _ _ _ => (defineLocals_ranging hcompute node).seq
    fun _ _ _ _ => .builtin (by decide)

theorem ofForm_ranging (form : ExprForm) :
    Ranging e (ofForm a options compute node form) (ofForm a options compute' node form) := by
  cases form with
  | constant c =>
    refine .builtin ?_
    rw [constant]
    split <;> decide
  | reference name => exact reference_ranging hcompute
  | array => exact array_ranging hcompute
  | struct => exact struct_ranging hcompute
  | structField _ | nested | localDef => exact operand_ranging hcompute
  | newObject => exact newObject_ranging hcompute
  | call => exact call_ranging hcompute
  | logic op => exact logic_ranging hcompute op
  | conditional => exact conditional_ranging hcompute
  | repeatLoop => exact repeatLoop_ranging hcompute
  | assignment name => exact assignment_ranging hcompute
  | returnExit => exact returnExit_ranging hcompute
  | breakExit => exact breakExit_ranging hcompute
  | locals => exact locals_ranging hcompute
  | handler => exact handler_ranging hcompute
  | block => exact block_ranging hcompute
  | function | unary | binary | whileLoop => exact .builtin (by decide)

end

/-- Typing keeps to what is there, wherever locals stand and however deep it may go. -/
theorem computeWithin_ranging (e : Extent) (a : Arena) (options : TypingOptions) (steps : Nat)
    (node : NodeId) : Ranging e (computeWithin a options steps node) (computeWithin a options steps node) := by
  induction steps generalizing e node with
  | zero => exact .throw _
  | succ steps ih =>
    have hnoted : ∀ e₁ : Extent, ∀ type : TypeId, type.index < e₁.types →
        Ranging e₁ (noted node type) (noted node type) := fun e₁ type htype =>
      (setType_ranging node htype).seq fun _ _ hle _ => .pure (mono hle htype)
    rw [computeWithin_succ]
    split
    · next form _ => exact (ofForm_ranging ih form).seq fun e₁ type _ htype => hnoted e₁ type htype
    · exact .there (by decide) fun e₁ _ hanything => hnoted e₁ .anything hanything

theorem tree_ranging (e : Extent) (a : Arena) (options : TypingOptions) (root : NodeId) :
    Ranging e (tree a options root) (tree a options root) := by
  refine (computeWithin_ranging e a options _ root).seq fun e₁ value _ hvalue => .get fun p hp hle => ?_
  split
  · exact .pure (mono hle hvalue)
  · next escapes hescapes =>
    refine tabling_ranging (Tabling.union_ranging (List.forall_mem_append.mpr ⟨?_, ?_⟩))
    · exact List.forall_mem_map.mpr hp.1.escapes_lt
    · exact List.forall_mem_singleton.mpr (hvalue.trans_le hle.1)

section

variable {a : Arena} {options : TypingOptions} {log : Log} {root node other : NodeId} {form : ExprForm}
  {start p q : Pass} {bound steps : Nat}

theorem tidy_started {print : TypeId} {t : TypeTable} (hsound : (Pass.started options log print t).Sound) :
    Tidy (Pass.started options log print t) := by
  refine ⟨{ checker := Checker.new_inRange .., terms := ?terms, scope_lt := ?scope
            typeScope_lt := TypeSpace.initial_valid.lt
            placeholders := fun id hid => absurd hid (Nat.not_lt_zero _)
            types_lt := nofun, coercions_lt := nofun, escapes_lt := nofun, breaks_lt := nofun
            ofLocal_lt := nofun, resolving_lt := nofun, resolved_lt := nofun
            space := ?space, linked := Scopes.linked_empty.add _ _ _ }, hsound.space.table⟩
  case terms =>
    intro id entry hentry
    obtain rfl := Pass.frame_started id entry hentry
    exact hsound.known_lt id _ hentry print rfl
  case scope =>
    have hsize : (Pass.started options log print t).terms.size = 1 := Scopes.size_add ..
    exact Nat.one_pos.trans_eq hsize.symm
  case space => exact {
    table := hsound.space.table.inRange
    named_lt := hsound.space.named.mono fun _ h => h.1
    linked := TypeSpace.initial_valid.ordered.linked }

theorem tidy_start (hstart : Pass.start options log = .ok start) : Tidy start := by
  obtain ⟨print, t, hstarted, hsound⟩ := Pass.start_eq options log
  cases hstart.symm.trans hstarted
  exact tidy_started hsound

/-- From a state in which all is there a rule comes to such states only. -/
theorem Consults.tidy (hp : Tidy p)
    (h : Consults (fun compute => ofForm a options compute node form p)
      (computeWithin a options steps) other q) : Tidy q := by
  obtain ⟨compute', hsame, hne⟩ := h
  by_contra hq
  have hcompute : ∀ e n, Ranging e (computeWithin a options steps n) (compute' n) := by
    intro e n r hr hle
    have heq : compute' n r = computeWithin a options steps n r :=
      hsame n r fun h => hq ((Prod.mk.inj h).2 ▸ hr)
    exact ⟨heq.symm, (computeWithin_ranging e a options steps n r hr hle).2⟩
  exact hne (ofForm_ranging hcompute form p hp le_rfl).1.symm

theorem Called.tidy (hstart : Pass.start options log = .ok start)
    (h : Called a options bound root start steps node p) : Tidy p := by
  induction h with
  | root => exact tidy_start hstart
  | part _ _ hconsults ih => exact hconsults.tidy ih

end

end Typing

open Typing

/-- Whatever tree is typed, wherever typing it comes to and however deep it may go: all types, frames
and placeholders that the pass knows of are there, those that its types refer to included. If typing
comes back, the type that it found is there, and again all that the pass knows of. So what comes of
typing a tree is made of types that are in the table. -/
theorem check_inRange (a : Arena) (options : TypingOptions) (root : NodeId) (log : Log) :
    ∃ start, Pass.start options log = .ok start ∧
      (∀ bound steps node p, Called a options bound root start steps node p → p.InRange ∧
        ∀ type p', computeWithin a options steps node p = .ok (type, p') →
          type.index < p'.table.size ∧ p'.InRange) ∧
      ∀ typed log', check a options root log = .ok (typed, log') → typed.InRange := by
  obtain ⟨print, t, hstart, -⟩ := Pass.start_eq options log
  refine ⟨_, hstart, fun bound steps node p hcalled => ?_, fun typed log' hcheck => ?_⟩
  · have hp := hcalled.tidy hstart
    refine ⟨hp.1, fun type p' hrun => ?_⟩
    have hreaches := (computeWithin_ranging _ a options steps node p hp le_rfl).2 type p' hrun
    exact ⟨hreaches.within, hreaches.tidy.1⟩
  · obtain ⟨result, p, hrun, rfl, -⟩ := check_eq_ok hstart hcheck
    have hreaches := (tree_ranging _ a options root _ (tidy_start hstart) le_rfl).2 result p hrun
    have hp := hreaches.tidy.1
    exact ⟨hp.space.table, hp.types_lt, hp.coercions_lt, hreaches.within⟩

/-- So it is while the value of a local that is its own value is typed. -/
theorem check_inRange_selfOpened : ∃ start, Pass.start {} .empty = .ok start ∧
    Called selfArena {} (depthBound selfArena) selfTree.id start 24 ⟨0⟩ (selfOpened start) ∧
    (selfOpened start).resolving = [⟨0⟩] ∧ (selfOpened start).InRange := by
  obtain ⟨print, t, hstarted, -⟩ := Pass.start_eq {} .empty
  obtain ⟨start, hstart, hcalled, -⟩ := check_inRange selfArena {} selfTree.id .empty
  cases hstart.symm.trans hstarted
  have hopened := called_selfOpened {} .empty print t 24
  exact ⟨_, hstarted, hopened, rfl, (hcalled _ _ _ _ hopened).1⟩

end MessageLang
