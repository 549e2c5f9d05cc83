import MessageLang.Proofs.Typing.Continuing
import MessageLang.Proofs.Typing.Reporting

namespace MessageLang

namespace TypeSpace

/-- What a parameter of some name stands for in a frame, if it was used there or further out. -/
def wildcard? (space : TypeSpace) (scope : ScopeId) (name : String) : Option TypeId :=
  space.scopes.get? scope ("$" ++ name)

/-- Parameters stand for nothing but what is given for their names. -/
def Agrees (space : TypeSpace) (scope : ScopeId) (meaning : String → Option TypeId) : Prop :=
  ∀ name id, space.wildcard? scope name = some id → meaning name = some id

/-- The names that have a meaning in a frame keep it. -/
structure KeepsNames (scope : ScopeId) (space space' : TypeSpace) : Prop where
  lt : scope.index < space'.scopes.size
  get?_eq : ∀ name id, space.scopes.get? scope name = some id → space'.scopes.get? scope name = some id

variable {scope : ScopeId} {space space' space'' : TypeSpace} {meaning : String → Option TypeId}

theorem KeepsNames.of_scopes (hlt : scope.index < space.scopes.size) (h : space'.scopes = space.scopes) :
    KeepsNames scope space space' :=
  ⟨h ▸ hlt, fun _ _ hid => h ▸ hid⟩

theorem KeepsNames.trans (h : KeepsNames scope space space') (h' : KeepsNames scope space' space'') :
    KeepsNames scope space space'' :=
  ⟨h'.lt, fun name id hid => h'.get?_eq name id (h.get?_eq name id hid)⟩

theorem Agrees.of_keepsNames (h : space'.Agrees scope meaning) (hkeeps : KeepsNames scope space space') :
    space.Agrees scope meaning := fun name id hid => h name id (hkeeps.get?_eq _ id hid)

end TypeSpace

open TypeSpace

namespace Reading

/-- Whether a node stands for what it is meant to. Only parameters are meant to stand for a certain
type, by their names. -/
def asMeant (a : Arena) (meaning : String → Option TypeId) (node : NodeId) (type : TypeId) : Bool :=
  match a.type? node with
  | some (.parameter name) => meaning name == some type
  | _ => true

/-- The type that a node describes, given how nodes below it are read. -/
def readNode (a : Arena) (scope : ScopeId) (read : NodeId → Reading TypeId) (node : NodeId) :
    Reading TypeId :=
  match a.type? node with
  | none => return .anything
  | some form => readForm a scope read node form

/-- Reading that goes on only as long as every node that is read stands for what it is meant to. -/
def watchedWithin (a : Arena) (scope : ScopeId) (meaning : String → Option TypeId) :
    Nat → NodeId → Reading TypeId
  | 0, _ => throw .unending
  | height + 1, node => do
    let type ← readNode a scope (watchedWithin a scope meaning height) node
    if asMeant a meaning node type then return type else throw .unending

/-- The type that a tree describes, if each parameter that is read on the way stands for what it is
meant to. -/
def watchedType (a : Arena) (scope : ScopeId) (meaning : String → Option TypeId) (node : NodeId) :
    Reading TypeId := watchedWithin a scope meaning a.size node

variable {α β : Type} {a : Arena} {scope : ScopeId} {node : NodeId} {name : String}
  {meaning : String → Option TypeId} {step step' : Reading α} {next next' : α → Reading β}

/-- A step that comes to what another one comes to, if parameters stand for what they are meant to
when that one has ended. Meanwhile no name changes its meaning. -/
def Follows (scope : ScopeId) (meaning : String → Option TypeId) (step step' : Reading α) : Prop :=
  ∀ space, scope.index < space.scopes.size → After step space fun x space' =>
    KeepsNames scope space space' ∧ (space'.Agrees scope meaning → step' space = .ok (x, space'))

/-- A step that leaves the names alone follows itself. -/
theorem Follows.refl (h : ∀ space, After step space fun _ space' => space'.scopes = space.scopes) :
    Follows scope meaning step step := by
  intro space hlt x space' hrun
  exact ⟨.of_scopes hlt (h space x space' hrun), fun _ => hrun⟩

theorem Follows.bind (h : Follows scope meaning step step')
    (hnext : ∀ x, Follows scope meaning (next x) (next' x)) :
    Follows scope meaning (step >>= next) (step' >>= next') := by
  intro space hlt
  refine (h space hlt).bind fun x space₁ ⟨hkeeps, hstep⟩ => ?_
  refine (hnext x space₁ hkeeps.lt).mono fun y space₂ ⟨hkeeps', hthen⟩ => ?_
  refine ⟨hkeeps.trans hkeeps', fun hagrees => ?_⟩
  have hrun := hstep (hagrees.of_keepsNames hkeeps')
  simp only [Bind.bind, StateT.bind, Except.bind, hrun]
  exact hthen hagrees

theorem follows_pure (x : α) : Follows scope meaning (pure x) (pure x) :=
  .refl fun _ => after_pure_iff.mpr rfl

theorem follows_get : Follows scope meaning (get : Reading TypeSpace) get :=
  .refl fun _ => after_get_iff.mpr rfl

theorem follows_report {problem : Problem} :
    Follows scope meaning (Reading.report a node problem) (Reading.report a node problem) :=
  .refl fun _ => after_modify_iff.mpr rfl

theorem follows_tabling (change : Tabling α) :
    Follows scope meaning (Reading.tabling change) (Reading.tabling change) :=
  .refl fun _ => after_tabling fun _ _ => rfl

theorem sequential_follows :
    Sequential fun step step' => Follows scope meaning step step' := ⟨follows_pure, .bind⟩

theorem follows_mapM {items : List α} {step step' : α → Reading β}
    (h : ∀ item ∈ items, Follows scope meaning (step item) (step' item)) :
    Follows scope meaning (items.mapM step) (items.mapM step') := sequential_follows.mapM h

theorem follows_forM {items : List α} {step step' : α → Reading PUnit}
    (h : ∀ item ∈ items, Follows scope meaning (step item) (step' item)) :
    Follows scope meaning (items.forM step) (items.forM step') := sequential_follows.forM h

theorem named?_follows :
    Follows scope meaning (named? a scope node name) (named? a scope node name) := by
  refine follows_get.bind fun space => ?_
  split
  · exact follows_pure _
  · exact follows_report.bind fun _ => follows_pure _

/-- A parameter stands for what its name means afterwards. -/
theorem parameter_means (space : TypeSpace) (hlt : scope.index < space.scopes.size) :
    After (parameter scope name) space fun id space' =>
      KeepsNames scope space space' ∧ space'.wildcard? scope name = some id := by
  rw [parameter, after_bind_iff, after_get_iff]
  split
  · next id hid =>
    rw [after_pure_iff]
    exact ⟨.of_scopes hlt rfl, hid⟩
  · next hnone =>
    rw [after_bind_iff]
    refine after_tabling fun id table => ?_
    rw [after_bind_iff, after_modify_iff, after_pure_iff, TypeSpace.wildcard?]
    refine ⟨⟨hlt.trans_eq (Scopes.size_add ..).symm, fun other found hfound => ?_⟩,
      Scopes.get?_add_self hlt⟩
    have hne : other ≠ "$" ++ name := by
      rintro rfl
      cases hnone.symm.trans hfound
    exact (Scopes.get?_add_of_ne hne scope).trans hfound

theorem parameter_follows :
    Follows scope meaning (parameter scope name) (parameter scope name) :=
  fun space hlt id space' hrun => ⟨(parameter_means space hlt id space' hrun).1, fun _ => hrun⟩

section

variable {read read' : NodeId → Reading TypeId}
  (hread : ∀ child, Follows scope meaning (read child) (read' child))
include hread

theorem fieldsFrom_follows (index : Nat) (names : List String) (nodes : List NodeId) :
    Follows scope meaning (fieldsFrom a read index names nodes)
      (fieldsFrom a read' index names nodes) := by
  induction nodes generalizing index names with
  | nil => exact follows_pure []
  | cons child rest ih =>
    rw [fieldsFrom, fieldsFrom]
    split
    · dsimp only
      split
      · exact follows_report.bind fun _ => ih _ _
      · exact (hread child).bind fun _ => (ih _ _).bind fun _ => follows_pure _
    · exact ih _ _

theorem instantiate_follows (arguments : List NodeId) :
    Follows scope meaning (instantiate a scope read node name arguments)
      (instantiate a scope read' node name arguments) := by
  refine named?_follows.bind fun found => ?_
  split
  · exact follows_pure _
  · refine (follows_mapM fun child _ => hread child).bind fun _ => follows_get.bind fun _ => ?_
    dsimp only
    split
    · exact follows_tabling _
    · exact follows_report.bind fun _ => follows_pure _

theorem declare_follows (type : TypeId) (declaration : NodeId) :
    Follows scope meaning (declare a read type declaration) (declare a read' type declaration) := by
  rw [declare, declare]
  split
  · exact (hread _).bind fun _ => follows_tabling _
  · exact (hread _).bind fun _ => (hread _).bind fun _ => follows_tabling _
  · exact follows_pure _

theorem readForm_follows (form : TypeForm) :
    Follows scope meaning (readForm a scope read node form) (readForm a scope read' node form) := by
  cases form with
  | empty => exact follows_pure _
  | simple name => exact named?_follows.bind fun _ => follows_pure _
  | parameter name => exact parameter_follows
  | typedField _ | nestedType =>
    rw [readForm, readForm]
    split
    · exact hread _
    · exact follows_pure _
  | compound => exact (fieldsFrom_follows hread 0 [] _).bind fun _ => follows_tabling _
  | template name => exact instantiate_follows hread _
  | functionType =>
    rw [readForm, readForm]
    split
    · exact (hread _).bind fun _ => (hread _).bind fun _ => follows_tabling _
    · exact follows_pure _
  | mergedType => exact (follows_mapM fun child _ => hread child).bind fun _ => follows_tabling _
  | inlineType =>
    exact (follows_tabling _).bind fun type =>
      (follows_forM fun declaration _ => declare_follows hread type declaration).bind fun _ =>
        follows_pure _
  | inlineDeclaration symbol =>
    exact (follows_tabling _).bind fun type =>
      (declare_follows hread type _).bind fun _ => follows_pure _

end

/-- Reading may be watched: parameters stand for what their names mean in the end. -/
theorem watchedWithin_follows (height : Nat) (node : NodeId) :
    Follows scope meaning (readWithin a scope height node)
      (watchedWithin a scope meaning height node) := by
  induction height generalizing node with
  | zero => exact fun _ _ => after_throw
  | succ height ih =>
    intro space hlt type space' hrun
    have hnode : Follows scope meaning (readNode a scope (readWithin a scope height) node)
        (readNode a scope (watchedWithin a scope meaning height) node) := by
      rw [readNode, readNode]
      split
      · exact follows_pure _
      · exact readForm_follows ih _
    obtain ⟨hkeeps, hthen⟩ := hnode space hlt type space' hrun
    refine ⟨hkeeps, fun hagrees => ?_⟩
    have hmeant : asMeant a meaning node type = true := by
      rw [asMeant]
      split
      · next name hform =>
        rw [readWithin, hform] at hrun
        have hmeans := (parameter_means space hlt type space' hrun).2
        rw [hagrees name type hmeans, beq_self_eq_true]
      · rfl
    have hwatched := hthen hagrees
    simp only [watchedWithin, Bind.bind, StateT.bind, Except.bind, hwatched, if_pos hmeant]
    rfl

/-- What a type is read as, it is read as under watch. -/
theorem watchedType_eq {space space' : TypeSpace} {id : TypeId} (hlt : scope.index < space.scopes.size)
    (hrun : Reading.type a scope node space = .ok (id, space')) :
    watchedType a scope (space'.wildcard? scope) node space = .ok (id, space') :=
  (watchedWithin_follows _ node space hlt id space' hrun).2 fun _ _ hmeans => hmeans

end Reading

namespace TypeSpace

/-- What becomes of the names of parameters while types are read in a frame. -/
structure Shares (space : TypeSpace) (scope : ScopeId) (space' : TypeSpace) : Prop where
  /-- What has a meaning, in whatever frame, goes on to mean it. -/
  lasts : ∀ inner name id, space.scopes.get? inner name = some id →
    space'.scopes.get? inner name = some id
  /-- A parameter that stood for nothing stands for a new wildcard, bound in the frame itself. -/
  fresh : ∀ name id, space.wildcard? scope name = none → space'.wildcard? scope name = some id →
    space'.scopes.here? scope ("$" ++ name) = some id ∧ space.table.size ≤ id.index ∧
      space'.table.isWildcard id = true
  distinct : ∀ name other id, space.wildcard? scope name = none →
    space.wildcard? scope other = none → space'.wildcard? scope name = some id →
    space'.wildcard? scope other = some id → name = other
  size_eq : space'.scopes.size = space.scopes.size
  frame_eq : ∀ id, id ≠ scope → space'.scopes.frame id = space.scopes.frame id
  /-- Nothing is bound but names that meant nothing in the frame. -/
  frame_self : ∃ added, space'.scopes.frame scope =
      { space.scopes.frame scope with names := added ++ (space.scopes.frame scope).names } ∧
    ∀ entry ∈ added, space.scopes.get? scope entry.1 = none

variable {scope : ScopeId} {space space' : TypeSpace} {added : List (String × TypeId)}

theorem Grows.shares (h : Grows scope added space space') (hordered : space.scopes.Ordered)
    (hsize : space'.scopes.size = space.scopes.size) : space.Shares scope space' where
  lasts inner _ _ hid := h.get?_lasts hordered inner hid
  fresh name id hnone hid := by
    have hmem := h.mem_added hordered hnone hid
    exact ⟨h.here?_eq_some hmem, h.fresh _ hmem⟩
  distinct name other id hname hother hid hid' := by
    have hmem := h.mem_added hordered hname hid
    have hmem' := h.mem_added hordered hother hid'
    have heq : "$" ++ name = "$" ++ other :=
      congrArg Prod.fst (List.inj_on_of_nodup_map h.nodup_wildcards hmem hmem' rfl)
    exact String.append_right_inj _ |>.mp heq
  size_eq := hsize
  frame_eq := h.frame_eq
  frame_self := ⟨added, h.frame_self, h.unbound⟩

end TypeSpace

/-- However a type is written, and whatever names are bound, all its parameters of one name that are
read stand for the same: for what the name means in the frame and, if it means nothing there, for one
new wildcard, which is bound in that frame. No other frame changes, and no name that means something.
So in whatever is read later, in the frame or in one inside it that does not bind the name itself, a
parameter of that name stands for the same again. -/
theorem Arena.Holds.parameters_shared {a : Arena} {parent : Option NodeId} {T : Tree}
    {scope : ScopeId} {space : TypeSpace} (hheld : a.Holds parent T) (hnodup : T.ids.Nodup)
    (hs : space.Valid scope) :
    ∃ id space', Reading.type a scope T.id space = .ok (id, space') ∧
      Reading.watchedType a scope (space'.wildcard? scope) T.id space = .ok (id, space') ∧
      space.Shares scope space' ∧
      ∀ name wildcard, space'.wildcard? scope name = some wildcard →
        ∀ (later : TypeSpace) (inner : ScopeId), later.Valid inner →
          later.wildcard? scope name = some wildcard →
          later.scopes.Inherits ("$" ++ name) inner scope →
          ∀ (b : Arena) (above : Option NodeId) (U : Tree), b.Holds above U → U.ids.Nodup →
            ∃ id' later', Reading.type b inner U.id later = .ok (id', later') ∧
              Reading.watchedType b inner (later'.wildcard? inner) U.id later = .ok (id', later') ∧
              later'.wildcard? inner name = some wildcard := by
  obtain ⟨id, space', hrun, ⟨-, added, hgrows⟩, -⟩ :=
    ends_iff.mp (Reading.type_makes hheld hnodup space hs)
  have hadds := Reading.type_reporting a scope T.id space id space' hrun
  refine ⟨id, space', hrun, Reading.watchedType_eq hs.lt hrun,
    hgrows.shares hs.ordered hadds.size_eq, ?_⟩
  intro name wildcard _ later inner hlater hmeans hinherits b above U hheld' hnodup'
  obtain ⟨id', later', hrun', ⟨-, added', hgrows'⟩, -⟩ :=
    ends_iff.mp (Reading.type_makes hheld' hnodup' later hlater)
  refine ⟨id', later', hrun', Reading.watchedType_eq hlater.lt hrun', ?_⟩
  have hinner : later.wildcard? inner name = some wildcard :=
    (hlater.ordered.get?_of_inherits hinherits).trans hmeans
  exact hgrows'.get?_eq_some hlater.ordered hinner

/-- A signature that takes a list of what it gives and something else: three parameters of two names. -/
def signatureTree : Tree :=
  .node ⟨7⟩ (.type .functionType) default false
    [.node ⟨5⟩ (.type .compound) default false
      [.node ⟨2⟩ (.type (.typedField (some "items"))) default false
        [.node ⟨1⟩ (.type (.template "Array")) default false
          [.node ⟨0⟩ (.type (.parameter "A")) default false []]],
        .node ⟨4⟩ (.type (.typedField (some "other"))) default false
          [.node ⟨3⟩ (.type (.parameter "B")) default false []]],
      .node ⟨6⟩ (.type (.parameter "A")) default false []]

def signatureArena : Arena where
  nodes := #[
    { form := .type (.parameter "A"), span := default, parent := some ⟨1⟩ },
    { form := .type (.template "Array"), span := default, children := [⟨0⟩], parent := some ⟨2⟩ },
    { form := .type (.typedField (some "items")), span := default, children := [⟨1⟩],
      parent := some ⟨5⟩ },
    { form := .type (.parameter "B"), span := default, parent := some ⟨4⟩ },
    { form := .type (.typedField (some "other")), span := default, children := [⟨3⟩],
      parent := some ⟨5⟩ },
    { form := .type .compound, span := default, children := [⟨2⟩, ⟨4⟩], parent := some ⟨7⟩ },
    { form := .type (.parameter "A"), span := default, parent := some ⟨7⟩ },
    { form := .type .functionType, span := default, children := [⟨5⟩, ⟨6⟩] }]

theorem holds_signatureTree : signatureArena.Holds none signatureTree := by
  refine .node (by decide) rfl fun child hchild => ?_
  rcases List.mem_pair.mp hchild with rfl | rfl
  · refine .node (by decide) rfl fun child hchild => ?_
    rcases List.mem_pair.mp hchild with rfl | rfl
    · refine .node (by decide) rfl fun child hchild => ?_
      rw [List.mem_singleton.mp hchild]
      refine .node (by decide) rfl fun child hchild => ?_
      rw [List.mem_singleton.mp hchild]
      exact .node (by decide) rfl fun _ h => (nomatch h)
    · refine .node (by decide) rfl fun child hchild => ?_
      rw [List.mem_singleton.mp hchild]
      exact .node (by decide) rfl fun _ h => (nomatch h)
  · exact .node (by decide) rfl fun _ h => (nomatch h)

/-- What is read shows both uses of the one name as the one wildcard. -/
example : (Reading.type signatureArena Scopes.root signatureTree.id .initial).map (fun read =>
    (read.2.table.display read.1, read.2.wildcard? Scopes.root "A", read.2.wildcard? Scopes.root "B")) =
      .ok ("(items: Array($A), other: $B) -> $A", some ⟨18⟩, some ⟨22⟩) := by decide +kernel

theorem parameters_shared_signatureTree :
    signatureArena.Holds none signatureTree ∧ signatureTree.ids.Nodup ∧
      TypeSpace.initial.Valid Scopes.root ∧
      ∃ id space', Reading.type signatureArena Scopes.root signatureTree.id .initial =
          .ok (id, space') ∧
        Reading.watchedType signatureArena Scopes.root (space'.wildcard? Scopes.root)
          signatureTree.id .initial = .ok (id, space') ∧
        TypeSpace.initial.Shares Scopes.root space' ∧
        ∀ name wildcard, space'.wildcard? Scopes.root name = some wildcard →
          ∀ (later : TypeSpace) (inner : ScopeId), later.Valid inner →
            later.wildcard? Scopes.root name = some wildcard →
            later.scopes.Inherits ("$" ++ name) inner Scopes.root →
            ∀ (b : Arena) (above : Option NodeId) (U : Tree), b.Holds above U → U.ids.Nodup →
              ∃ id' later', Reading.type b inner U.id later = .ok (id', later') ∧
                Reading.watchedType b inner (later'.wildcard? inner) U.id later =
                  .ok (id', later') ∧
                later'.wildcard? inner name = some wildcard :=
  have hnodup : signatureTree.ids.Nodup := by decide
  ⟨holds_signatureTree, hnodup, TypeSpace.initial_valid,
    holds_signatureTree.parameters_shared hnodup TypeSpace.initial_valid⟩

end MessageLang
