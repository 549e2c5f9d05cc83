import MessageLang.Proofs.Typing.Ranges

namespace MessageLang

/-- Values that are made of types. -/
class Ranged (α : Type) where
  /-- All types that a value is made of are there. -/
  Within : Extent → α → Prop
  mono {e e' : Extent} {x : α} : e ≤ e' → Within e x → Within e' x

/-- States of which it can be said how much there is in them, and that all they know of is there. -/
class Stocked (σ : Type) where
  extent : σ → Extent
  Tidy : σ → Prop
  builtins_lt {s : σ} : Tidy s → TypeId.array.index < (extent s).types

open Ranged Stocked

instance : Ranged Unit := ⟨fun _ _ => True, fun _ h => h⟩

instance : Ranged Bool := ⟨fun _ _ => True, fun _ h => h⟩

instance : Ranged NodeId := ⟨fun _ _ => True, fun _ h => h⟩

instance : Ranged TypeId := ⟨fun e id => id.index < e.types, fun hle h => h.trans_le hle.1⟩

instance : Ranged Field := ⟨fun e f => f.type.index < e.types, fun hle h => h.trans_le hle.1⟩

instance : Ranged Conflict where
  Within e conflict := conflict.wildcard.index < e.types ∧ conflict.bound.index < e.types ∧
    conflict.attempted.index < e.types
  mono hle h := h.imp (·.trans_le hle.1) (And.imp (·.trans_le hle.1) (·.trans_le hle.1))

instance {α : Type} : Ranged (ForInStep α) := ⟨fun _ _ => True, fun _ h => h⟩

instance {α : Type} [Ranged α] : Ranged (List α) :=
  ⟨fun e xs => ∀ x ∈ xs, Within e x, fun hle h x hx => mono hle (h x hx)⟩

instance {α : Type} [Ranged α] : Ranged (Option α) :=
  ⟨fun e o => ∀ x ∈ o, Within e x, fun hle h x hx => mono hle (h x hx)⟩

instance {α β : Type} [Ranged α] [Ranged β] : Ranged (α × β) :=
  ⟨fun e pair => Within e pair.1 ∧ Within e pair.2, fun hle h => ⟨mono hle h.1, mono hle h.2⟩⟩

instance : Stocked TypeTable := ⟨fun t => .ofTypes t.size, TypeTable.Sound, TypeTable.Sound.builtins_lt⟩

instance : Stocked TypeSpace where
  extent space := ⟨space.table.size, space.scopes.size, 0, 0⟩
  Tidy space := space.InRange ∧ space.table.Sound
  builtins_lt h := h.2.builtins_lt

instance : Stocked Pass where
  extent := Pass.extent
  Tidy p := p.InRange ∧ p.table.Sound
  builtins_lt h := h.2.builtins_lt

theorem within_nil {α : Type} [Ranged α] (e : Extent) : Within e ([] : List α) :=
  fun _ h => nomatch h

theorem within_none {α : Type} [Ranged α] (e : Extent) : Within e (none : Option α) :=
  fun _ h => nomatch h

section

variable {σ α β : Type} [Stocked σ] [Ranged α] [Ranged β]

/-- Where a step leads to: all is there still, and all types that it gives are there. -/
structure Reaches (s : σ) (x : α) (s' : σ) : Prop where
  tidy : Tidy s'
  le : extent s ≤ extent s'
  within : Within (extent s') x

/-- Two steps that come to the same wherever all that is known is there, and at least so much of it is,
and that lead to such a state again. -/
def Ranging (e : Extent) (step step' : StateT σ (Except Fault) α) : Prop :=
  ∀ s, Tidy s → e ≤ extent s → step s = step' s ∧ After step s fun x s' => Reaches s x s'

variable {e e' : Extent} {step step' : StateT σ (Except Fault) α}
  {next next' : α → StateT σ (Except Fault) β}

theorem Ranging.mono (hle : e ≤ e') (h : Ranging e step step') : Ranging e' step step' :=
  fun s hs hle' => h s hs (hle.trans hle')

theorem Ranging.same
    (h : ∀ s, Tidy s → e ≤ extent s → After step s fun x s' => Reaches s x s') : Ranging e step step :=
  fun s hs hle => ⟨rfl, h s hs hle⟩

theorem Ranging.seq (h : Ranging e step step')
    (hnext : ∀ e' x, e ≤ e' → Within e' x → Ranging e' (next x) (next' x)) :
    Ranging e (step >>= next) (step' >>= next') := by
  intro s hs hle
  obtain ⟨hsame, hafter⟩ := h s hs hle
  refine ⟨?_, hafter.bind fun x s' hx => ?_⟩
  · simp only [Bind.bind, StateT.bind, ← hsame]
    cases hrun : step s with
    | error fault => rfl
    | ok made =>
      have hmade := hafter made.1 made.2 hrun
      exact (hnext _ made.1 (hle.trans hmade.le) hmade.within made.2 hmade.tidy le_rfl).1
  · refine (hnext _ x (hle.trans hx.le) hx.within s' hx.tidy le_rfl).2.mono fun y s'' hy => ?_
    exact ⟨hy.tidy, hx.le.trans hy.le, hy.within⟩

theorem Ranging.pure {x : α} (hx : Within e x) :
    Ranging e (pure x : StateT σ (Except Fault) α) (pure x) :=
  .same fun _ hs hle => after_pure_iff.mpr ⟨hs, le_rfl, Ranged.mono hle hx⟩

theorem Ranging.done : Ranging e (Pure.pure () : StateT σ (Except Fault) Unit) (Pure.pure ()) :=
  .pure trivial

/-- Wherever a step is taken the built-in types are there. -/
theorem Ranging.there {id : TypeId} (hid : id.index ≤ TypeId.array.index)
    (h : ∀ e', e ≤ e' → id.index < e'.types → Ranging e' step step') : Ranging e step step' :=
  fun s hs hle => h (extent s) hle (hid.trans_lt (builtins_lt hs)) s hs le_rfl

theorem Ranging.builtin {id : TypeId} (hid : id.index ≤ TypeId.array.index) :
    Ranging e (Pure.pure id : StateT σ (Except Fault) TypeId) (Pure.pure id) :=
  .there hid fun _ _ hlt => .pure hlt

theorem Ranging.throw (fault : Fault) :
    Ranging e (throw fault : StateT σ (Except Fault) α) (throw fault) :=
  .same fun _ _ _ => after_throw

/-- All that there is in a state is known to be there from when it is looked at. -/
theorem Ranging.get {next next' : σ → StateT σ (Except Fault) β}
    (h : ∀ s, Tidy s → e ≤ extent s → Ranging (extent s) (next s) (next' s)) :
    Ranging e (get >>= next) (get >>= next') := fun s hs hle => h s hs hle s hs le_rfl

theorem Ranging.modify {change : σ → σ}
    (h : ∀ s, Tidy s → e ≤ extent s → Tidy (change s) ∧ extent s ≤ extent (change s)) :
    Ranging e (modify change : StateT σ (Except Fault) Unit) (modify change) :=
  .same fun s hs hle => after_modify_iff.mpr ⟨(h s hs hle).1, (h s hs hle).2, trivial⟩

theorem Ranging.mapM {γ : Type} {items : List γ} {step step' : γ → StateT σ (Except Fault) α}
    (h : ∀ item ∈ items, Ranging e (step item) (step' item)) :
    Ranging e (items.mapM step) (items.mapM step') := by
  induction items generalizing e with
  | nil => exact .pure (within_nil e)
  | cons item rest ih =>
    obtain ⟨hitem, hrest⟩ := List.forall_mem_cons.mp h
    rw [List.mapM_cons, List.mapM_cons]
    refine hitem.seq fun e₁ x hle hx => ?_
    refine (ih fun other hother => (hrest other hother).mono hle).seq fun e₂ xs hle' hxs => ?_
    exact .pure (List.forall_mem_cons.mpr ⟨Ranged.mono hle' hx, hxs⟩)

theorem Ranging.forM {γ : Type} {items : List γ} {step step' : γ → StateT σ (Except Fault) Unit}
    (h : ∀ item ∈ items, Ranging e (step item) (step' item)) :
    Ranging e (items.forM step) (items.forM step') := by
  induction items with
  | nil => exact .done
  | cons item rest ih =>
    obtain ⟨hitem, hrest⟩ := List.forall_mem_cons.mp h
    exact hitem.seq fun _ _ hle _ => (ih hrest).mono hle

theorem Ranging.forIn {γ : Type} {items : List γ}
    {step step' : γ → Unit → StateT σ (Except Fault) (ForInStep Unit)}
    (h : ∀ item ∈ items, Ranging e (step item ()) (step' item ())) :
    Ranging e (forIn items () step) (forIn items () step') := by
  induction items with
  | nil => exact .done
  | cons item rest ih =>
    obtain ⟨hitem, hrest⟩ := List.forall_mem_cons.mp h
    rw [List.forIn_cons, List.forIn_cons]
    refine hitem.seq fun _ next hle _ => ?_
    cases next with
    | done => exact .done
    | yield => exact (ih hrest).mono hle

theorem Ranging.option {γ : Type} {item? : Option γ} {step step' : γ → StateT σ (Except Fault) α}
    (h : ∀ item, Ranging e (step item) (step' item)) :
    Ranging e (item?.mapM step) (item?.mapM step') := by
  cases item? with
  | none => exact .pure (within_none e)
  | some item =>
    rw [Option.mapM_some, Option.mapM_some, map_eq_pure_bind, map_eq_pure_bind]
    refine (h item).seq fun _ x _ hx => .pure fun y hy => ?_
    cases hy
    exact hx

end

namespace Tabling

variable {size : Nat}

/-- A change to a table that ends and only adds to it. -/
theorem ranging_of_ends {α : Type} [Ranged α] {change : Tabling α}
    (h : ∀ t : TypeTable, t.Sound → size ≤ t.size →
      Ends change t fun x t' => t'.Sound ∧ t.Extends t' ∧ Within (extent t') x) :
    Ranging (.ofTypes size) change change :=
  .same fun t ht hle => (h t ht hle.1).after.mono fun _ _ ⟨ht', hmore, hx⟩ =>
    ⟨ht', ⟨hmore.size_le, le_rfl, le_rfl, le_rfl⟩, hx⟩

theorem simple_ranging : Ranging (.ofTypes size) simple simple :=
  ranging_of_ends fun _ ht _ => (simple_ends ht).mono fun _ _ ⟨ht', hmore, _, hlt, _⟩ =>
    ⟨ht', hmore, hlt⟩

theorem wildcard_ranging (name : String) : Ranging (.ofTypes size) (wildcard name) (wildcard name) :=
  ranging_of_ends fun _ ht _ => (wildcard_ends ht name).mono fun _ _ ⟨ht', hmore, _, hlt, _⟩ =>
    ⟨ht', hmore, hlt⟩

theorem function_ranging {argument result : TypeId} (hargument : argument.index < size)
    (hresult : result.index < size) :
    Ranging (.ofTypes size) (function argument result) (function argument result) :=
  ranging_of_ends fun _ ht hle =>
    (function_ends ht (hargument.trans_le hle) (hresult.trans_le hle)).mono
      fun _ _ ⟨ht', hmore, _, hlt, _⟩ => ⟨ht', hmore, hlt⟩

theorem compound_ranging {fields : List Field} (hfields : ∀ f ∈ fields, f.type.index < size) :
    Ranging (.ofTypes size) (compound fields) (compound fields) :=
  ranging_of_ends fun _ ht hle => (compound_ends ht fun f hf => (hfields f hf).trans_le hle).mono
    fun _ _ ⟨ht', hmore, _, hlt, _⟩ => ⟨ht', hmore, hlt⟩

theorem union_ranging {ids : List TypeId} (hids : ∀ id ∈ ids, id.index < size) :
    Ranging (.ofTypes size) (union ids) (union ids) :=
  ranging_of_ends fun _ ht hle => (union_ends ht fun id hid => (hids id hid).trans_le hle).mono
    fun _ _ ⟨ht', hmore, hlt, _⟩ => ⟨ht', hmore, hlt⟩

theorem instantiate_ranging {template : TypeId} (htemplate : template.index < size)
    {arguments : List TypeId} (harguments : ∀ id ∈ arguments, id.index < size) :
    Ranging (.ofTypes size) (instantiate template arguments) (instantiate template arguments) :=
  ranging_of_ends fun _ ht hle => (instantiate_ends ht (htemplate.trans_le hle)
    fun id hid => (harguments id hid).trans_le hle).mono fun _ _ ⟨ht', hmore, hlt, _⟩ =>
      ⟨ht', hmore, hlt⟩

theorem substitute_ranging {id : TypeId} (hid : id.index < size) {map : Substitution}
    (hmap : ∀ entry ∈ map, entry.2.index < size) :
    Ranging (.ofTypes size) (substitute id map) (substitute id map) :=
  ranging_of_ends fun _ ht hle => (substitute_ends ht (hid.trans_le hle)
    fun entry hentry => (hmap entry hentry).trans_le hle).mono fun _ _ ⟨ht', hmore, hlt, _⟩ =>
      ⟨ht', hmore, hlt⟩

/-- A type may be told more about types that are there. -/
theorem update_ranging {id : TypeId} {change : Descriptor → Descriptor}
    (h : ∀ t : TypeTable, t.Sound → size ≤ t.size → (t.update id change).Sound) :
    Ranging (.ofTypes size) (update id change) (update id change) :=
  .modify fun t ht hle => ⟨h t ht hle.1, (TypeTable.size_update t id change).ge, le_rfl, le_rfl, le_rfl⟩

theorem addSymbol_ranging (id : TypeId) (symbol : String) {answer : TypeId}
    (hanswer : answer.index < size) :
    Ranging (.ofTypes size) (addSymbol id symbol answer) (addSymbol id symbol answer) :=
  update_ranging fun _ ht hle => ht.addSymbol symbol (hanswer.trans_le hle)

theorem addHandler_ranging (id : TypeId) {guard answer : TypeId} (hguard : guard.index < size)
    (hanswer : answer.index < size) :
    Ranging (.ofTypes size) (addHandler id guard answer) (addHandler id guard answer) :=
  update_ranging fun _ ht hle => ht.addHandler (hguard.trans_le hle) (hanswer.trans_le hle)

end Tabling

namespace Reading

variable {e : Extent} {a : Arena} {scope : ScopeId} {node : NodeId} {name : String}

theorem tabling_ranging {α : Type} [Ranged α] {change : Tabling α}
    (h : Ranging (.ofTypes e.types) change change) :
    Ranging e (Reading.tabling change) (Reading.tabling change) := by
  refine .same fun space hs hle => ?_
  intro x space' hrun
  cases hchange : change space.table with
  | error fault => simp [Reading.tabling, hchange, bind, Except.bind] at hrun
  | ok made =>
    simp [Reading.tabling, hchange, bind, Except.bind, pure, Except.pure] at hrun
    obtain ⟨rfl, rfl⟩ := hrun
    have hmade := (h space.table hs.2 ⟨hle.1, le_rfl, le_rfl, le_rfl⟩).2 _ _ hchange
    have hmore : space.table.size ≤ made.2.size := hmade.le.1
    have hspace : extent made.2 ≤ extent { space with table := made.2 } :=
      ⟨le_rfl, Nat.zero_le _, le_rfl, le_rfl⟩
    refine ⟨⟨⟨hmade.tidy.inRange, ?_, hs.1.linked⟩, hmade.tidy⟩, ⟨hmore, le_rfl, le_rfl, le_rfl⟩, ?_⟩
    · exact hs.1.named_lt.mono fun _ hid => hid.trans_le hmore
    · exact mono hspace hmade.within

theorem report_ranging (a : Arena) (node : NodeId) (problem : Problem) :
    Ranging e (Reading.report a node problem) (Reading.report a node problem) :=
  .modify fun _ hs _ => ⟨⟨⟨hs.1.table, hs.1.named_lt, hs.1.linked⟩, hs.2⟩, le_rfl⟩

theorem named?_ranging : Ranging e (named? a scope node name) (named? a scope node name) := by
  refine .get fun space hs _ => ?_
  split
  · next type htype =>
    refine .pure fun other hother => ?_
    cases hother
    exact hs.1.named_lt.get? htype
  · exact (report_ranging a node _).seq fun _ _ _ _ => .pure (within_none _)

theorem parameter_ranging : Ranging e (parameter scope name) (parameter scope name) := by
  refine .get fun space hs _ => ?_
  split
  · next bound hbound => exact .pure (hs.1.named_lt.get? hbound)
  · refine (tabling_ranging (Tabling.wildcard_ranging _)).seq fun e₁ wildcard _ hwildcard => ?_
    refine Ranging.seq (.modify fun space hs hle => ?_) fun _ _ hle _ => .pure (Ranged.mono hle hwildcard)
    have hnamed := hs.1.named_lt.add scope ("$" ++ name) (Nat.lt_of_lt_of_le hwildcard hle.1)
    refine ⟨⟨⟨hs.1.table, hnamed, hs.1.linked.add scope _ wildcard⟩, hs.2⟩, ?_⟩
    exact ⟨le_rfl, (Scopes.size_add ..).ge, le_rfl, le_rfl⟩

section

variable {read read' : NodeId → Reading TypeId} (hread : ∀ e child, Ranging e (read child) (read' child))
include hread

theorem fieldsFrom_ranging (index : Nat) (names : List String) (nodes : List NodeId) :
    Ranging e (fieldsFrom a read index names nodes) (fieldsFrom a read' index names nodes) := by
  induction nodes generalizing e index names with
  | nil => exact .pure (within_nil e)
  | cons child rest ih =>
    rw [fieldsFrom, fieldsFrom]
    split
    · dsimp only
      split
      · exact (report_ranging a child _).seq fun _ _ _ _ => ih _ _
      · refine (hread e child).seq fun e₁ type _ htype => (ih _ _).seq fun e₂ fields hle hfields => ?_
        exact .pure (List.forall_mem_cons.mpr ⟨Ranged.mono hle htype, hfields⟩)
    · exact ih _ _

theorem instantiate_ranging (arguments : List NodeId) :
    Ranging e (instantiate a scope read node name arguments)
      (instantiate a scope read' node name arguments) := by
  refine named?_ranging.seq fun e₁ found _ hfound => ?_
  split
  · exact .builtin (by decide)
  · next template =>
    refine (Ranging.mapM fun child _ => hread e₁ child).seq fun e₂ ids hle hids => .get fun space _ hle' => ?_
    dsimp only
    split
    · refine tabling_ranging (Tabling.instantiate_ranging ?_ fun id hid => ?_)
      · exact Ranged.mono (hle.trans hle') (hfound template rfl)
      · exact Ranged.mono hle' (hids id hid)
    · exact (report_ranging a node _).seq fun _ _ _ _ => .builtin (by decide)

theorem declare_ranging (type : TypeId) (declaration : NodeId) :
    Ranging e (declare a read type declaration) (declare a read' type declaration) := by
  rw [declare, declare]
  split
  · refine (hread e _).seq fun e₁ answer _ hanswer => ?_
    exact tabling_ranging (Tabling.addSymbol_ranging type _ hanswer)
  · refine (hread e _).seq fun e₁ guard _ hguard => (hread e₁ _).seq fun e₂ answer hle hanswer => ?_
    exact tabling_ranging (Tabling.addHandler_ranging type (Ranged.mono hle hguard) hanswer)
  · exact .done

theorem readForm_ranging (form : TypeForm) :
    Ranging e (readForm a scope read node form) (readForm a scope read' node form) := by
  cases form with
  | empty => exact .builtin (by decide)
  | simple name =>
    refine named?_ranging.seq fun e₁ found _ hfound => ?_
    cases found with
    | none => exact .builtin (by decide)
    | some id => exact .pure (hfound id rfl)
  | parameter name => exact parameter_ranging
  | typedField _ | nestedType =>
    rw [readForm, readForm]
    split
    · exact hread e _
    · exact .builtin (by decide)
  | compound =>
    refine (fieldsFrom_ranging hread 0 [] _).seq fun _ fields _ hfields => ?_
    exact tabling_ranging (Tabling.compound_ranging hfields)
  | template name => exact instantiate_ranging hread _
  | functionType =>
    rw [readForm, readForm]
    split
    · refine (hread e _).seq fun e₁ argument _ hargument => (hread e₁ _).seq fun e₂ result hle hresult => ?_
      exact tabling_ranging (Tabling.function_ranging (Ranged.mono hle hargument) hresult)
    · exact .builtin (by decide)
  | mergedType =>
    refine (Ranging.mapM fun child _ => hread e child).seq fun _ ids _ hids => ?_
    exact tabling_ranging (Tabling.union_ranging hids)
  | inlineType =>
    refine (tabling_ranging Tabling.simple_ranging).seq fun e₁ type _ htype => ?_
    refine (Ranging.forM fun declaration _ => declare_ranging hread type declaration).seq ?_
    exact fun _ _ hle _ => .pure (Ranged.mono hle htype)
  | inlineDeclaration symbol =>
    refine (tabling_ranging Tabling.simple_ranging).seq fun e₁ type _ htype => ?_
    exact (declare_ranging hread type node).seq fun _ _ hle _ => .pure (Ranged.mono hle htype)

end

/-- Reading a type comes upon types and frames only that are there, whatever it reads. -/
theorem readWithin_ranging (a : Arena) (scope : ScopeId) (height : Nat) (node : NodeId) :
    Ranging e (readWithin a scope height node) (readWithin a scope height node) := by
  induction height generalizing e node with
  | zero => exact .throw _
  | succ height ih =>
    rw [readWithin]
    split
    · exact .builtin (by decide)
    · exact readForm_ranging (fun _ child => ih child) _

end Reading

end MessageLang
