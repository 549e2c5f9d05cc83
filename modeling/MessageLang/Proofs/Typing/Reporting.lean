import MessageLang.Proofs.Outcome
import MessageLang.Proofs.Typing.Frames
import MessageLang.Typing.TypeReader

namespace MessageLang

/-- Problems that are found while written types are read. -/
def Problem.isOfType : Problem → Bool
  | .unresolvedType _ | .duplicateField _ | .templateArity .. => true
  | _ => false

/-- Problems that are found where a written type is read at a node. A name given twice is found at
the field that gives it again. -/
def Problem.ReadAt (a : Arena) (node : NodeId) : Problem → Prop
  | .unresolvedType _ | .templateArity .. => True
  | .duplicateField _ => ∃ label, a.type? node = some (.typedField label)
  | _ => False

theorem Problem.ReadAt.isOfType {a : Arena} {node : NodeId} {problem : Problem}
    (h : problem.ReadAt a node) : problem.isOfType = true := by
  cases problem <;> first | rfl | exact h.elim

/-- What has been reported stays, and no definition is reported as recursive meanwhile. -/
def Log.Adds (log log' : Log) : Prop :=
  ∃ more, log'.toList = log.toList ++ more ∧
    ∀ r ∈ more, ∀ name, r.problem ≠ .recursiveDefinition name

namespace Log

variable {log log' log'' : Log}

theorem Adds.refl (log : Log) : log.Adds log := ⟨[], by simp, fun _ h => nomatch h⟩

theorem Adds.trans (h : log.Adds log') (h' : log'.Adds log'') : log.Adds log'' := by
  obtain ⟨more, heq, hmore⟩ := h
  obtain ⟨more', heq', hmore'⟩ := h'
  exact ⟨more ++ more', by rw [heq', heq, List.append_assoc],
    List.forall_mem_append.mpr ⟨hmore, hmore'⟩⟩

theorem adds_report (log : Log) (a : Arena) (node : NodeId) {problem : Problem}
    (h : ∀ name, problem ≠ .recursiveDefinition name) : log.Adds (log.report a node problem) := by
  refine ⟨_, log.toList_report a node problem, ?_⟩
  rw [List.forall_mem_singleton]
  exact h

theorem size_eq_length (log : Log) : log.size = log.toList.length := by simp [size, toList]

theorem mem_since_report_iff {a : Arena} {node : NodeId} {problem : Problem} {base : Nat}
    (hbase : base ≤ log.size) {r : Report} : r ∈ (log.report a node problem).since base ↔
      r ∈ log.since base ∨ r = ⟨problem, node, a.span node⟩ := by
  rw [size_eq_length] at hbase
  rw [since, toList_report, List.drop_append_of_le_length hbase, List.mem_append,
    List.mem_singleton, since]

/-- Going back to where a log was before more was reported. -/
theorem restore_eq {more : List Report} (h : log'.toList = log.toList ++ more) :
    log'.restore log.size = log := by
  obtain ⟨reports⟩ := log
  obtain ⟨reports'⟩ := log'
  refine congrArg Log.mk (Array.toList_inj.mp ?_)
  simp only [toList, size] at h ⊢
  rw [Array.take_eq_extract, Array.toList_extract, h]
  simp

end Log

/-- What reading types in a frame adds to problems and names: no definition is reported as recursive,
and no other frame is changed. -/
structure TypeSpace.Adds (scope : ScopeId) (space space' : TypeSpace) : Prop where
  log : space.log.Adds space'.log
  size_eq : space'.scopes.size = space.scopes.size
  frame_eq : ∀ id, id ≠ scope → space'.scopes.frame id = space.scopes.frame id

namespace TypeSpace.Adds

variable {scope : ScopeId} {space space' space'' : TypeSpace}

theorem refl (scope : ScopeId) (space : TypeSpace) : Adds scope space space :=
  ⟨.refl _, rfl, fun _ _ => rfl⟩

theorem trans (h : Adds scope space space') (h' : Adds scope space' space'') :
    Adds scope space space'' where
  log := h.log.trans h'.log
  size_eq := h'.size_eq.trans h.size_eq
  frame_eq id hid := (h'.frame_eq id hid).trans (h.frame_eq id hid)

end TypeSpace.Adds

namespace Reading

/-- A step of reading in a frame that reports no definition as recursive, whatever it reports, and
binds no name in another frame. -/
def Reporting {α : Type} (scope : ScopeId) (step : Reading α) : Prop :=
  ∀ space, After step space fun _ space' => TypeSpace.Adds scope space space'

section

variable {α : Type} {a : Arena} {scope : ScopeId} {node : NodeId}

/-- A change to the table changes nothing else. -/
theorem after_tabling {change : Tabling α} {space : TypeSpace} {post : α → TypeSpace → Prop}
    (h : ∀ x table, post x { space with table }) : After (Reading.tabling change) space post := by
  intro x space' hrun
  simp only [Reading.tabling, bind, Except.bind] at hrun
  split at hrun
  · cases hrun
  · cases hrun
    exact h _ _

theorem reporting_tabling (change : Tabling α) : Reporting scope (Reading.tabling change) :=
  fun _ => after_tabling fun _ _ => ⟨.refl _, rfl, fun _ _ => rfl⟩

theorem reporting_report {problem : Problem} (h : ∀ name, problem ≠ .recursiveDefinition name) :
    Reporting scope (Reading.report a node problem) := fun space => by
  rw [Reading.report, after_modify_iff]
  exact ⟨space.log.adds_report a node h, rfl, fun _ _ => rfl⟩

end

/-- A relation between spaces that a step of reading stays in, whatever it reads. -/
def Keeps {α : Type} (rel : TypeSpace → TypeSpace → Prop) (step : Reading α) : Prop :=
  ∀ space, After step space fun _ space' => rel space space'

/-- A relation that all changes are in which reading types in a frame is made of: types are added,
names are bound in that frame, and problems with types are reported. -/
structure Admits (scope : ScopeId) (rel : TypeSpace → TypeSpace → Prop) : Prop where
  refl : ∀ space, rel space space
  trans : ∀ {space space' space''}, rel space space' → rel space' space'' → rel space space''
  table : ∀ space table, rel space { space with table }
  bind : ∀ space name id, rel space { space with scopes := space.scopes.add scope name id }
  report : ∀ space (a : Arena) node problem, problem.isOfType = true →
    rel space { space with log := space.log.report a node problem }

/-- A relation that all changes are in which reading types of a certain sort of nodes is made of:
problems are reported at such nodes only. What the types are made of is of that sort again. -/
structure AdmitsAt (a : Arena) (P : NodeId → Prop) (scope : ScopeId)
    (rel : TypeSpace → TypeSpace → Prop) : Prop where
  part : ∀ node, P node → ∀ child ∈ a.types node, P child
  refl : ∀ space, rel space space
  trans : ∀ {space space' space''}, rel space space' → rel space' space'' → rel space space''
  table : ∀ space table, rel space { space with table }
  bind : ∀ space name id, rel space { space with scopes := space.scopes.add scope name id }
  report : ∀ space node problem, P node → problem.ReadAt a node →
    rel space { space with log := space.log.report a node problem }

namespace AdmitsAt

variable {α β : Type} {step : Reading α} {next : α → Reading β} {a : Arena} {P : NodeId → Prop}
  {scope : ScopeId} {node : NodeId} {read : NodeId → Reading TypeId}
  {rel : TypeSpace → TypeSpace → Prop} (h : AdmitsAt a P scope rel)
include h

theorem pure (x : α) : Keeps rel (pure x : Reading α) := fun space => by
  rw [after_pure_iff]
  exact h.refl _

theorem get : Keeps rel (get : Reading TypeSpace) := fun space => by
  rw [after_get_iff]
  exact h.refl _

theorem seq (hstep : Keeps rel step) (hnext : ∀ x, Keeps rel (next x)) :
    Keeps rel (step >>= next) := fun space =>
  (hstep space).bind fun x space' hrel => (hnext x space').mono fun _ _ => h.trans hrel

theorem tabling (change : Tabling α) : Keeps rel (Reading.tabling change) :=
  fun space => after_tabling fun _ table => h.table space table

theorem reports {problem : Problem} (hnode : P node) (hproblem : problem.ReadAt a node) :
    Keeps rel (Reading.report a node problem) := fun space => by
  rw [Reading.report, after_modify_iff]
  exact h.report space node problem hnode hproblem

theorem mapM {items : List α} {step : α → Reading β} (hstep : ∀ item ∈ items, Keeps rel (step item)) :
    Keeps rel (items.mapM step) := by
  intro space
  let inv (_ : List α) (_ : List β) (space' : TypeSpace) : Prop := rel space space'
  have hstart : inv [] [] space := h.refl _
  refine after_mapM inv ?_ hstart
  intro _ item hitem _ space' hrel
  exact (hstep item hitem space').mono fun _ _ => h.trans hrel

theorem forM {items : List α} {step : α → Reading PUnit}
    (hstep : ∀ item ∈ items, Keeps rel (step item)) : Keeps rel (items.forM step) := by
  intro space
  let inv (_ : List α) (space' : TypeSpace) : Prop := rel space space'
  have hstart : inv [] space := h.refl _
  refine after_forM inv ?_ hstart
  intro _ item hitem space' hrel
  exact (hstep item hitem space').mono fun _ _ => h.trans hrel

theorem named? (hnode : P node) (name : String) : Keeps rel (named? a scope node name) := by
  refine h.seq h.get fun space => ?_
  split
  · exact h.pure _
  · exact h.seq (h.reports hnode trivial) fun _ => h.pure _

theorem parameter (name : String) : Keeps rel (parameter scope name) := by
  refine h.seq h.get fun space => ?_
  split
  · exact h.pure _
  · refine h.seq (h.tabling _) fun wildcard => h.seq (fun space => ?_) fun _ => h.pure _
    rw [after_modify_iff]
    exact h.bind _ _ _

variable (hread : ∀ child, P child → Keeps rel (read child))
include hread

theorem fieldsFrom {nodes : List NodeId} (hnodes : ∀ child ∈ nodes, P child) (index : Nat)
    (names : List String) : Keeps rel (fieldsFrom a read index names nodes) := by
  induction nodes generalizing index names with
  | nil => exact h.pure _
  | cons child rest ih =>
    obtain ⟨hchild, hrest⟩ := List.forall_mem_cons.mp hnodes
    rw [Reading.fieldsFrom]
    split
    · next label hlabel =>
      dsimp only
      split
      · exact h.seq (h.reports hchild ⟨label, hlabel⟩) fun _ => ih hrest _ _
      · exact h.seq (hread child hchild) fun type => h.seq (ih hrest _ _) fun fields => h.pure _
    · exact ih hrest _ _

theorem instantiate (hnode : P node) (name : String) {arguments : List NodeId}
    (harguments : ∀ child ∈ arguments, P child) :
    Keeps rel (instantiate a scope read node name arguments) := by
  refine h.seq (h.named? hnode name) fun found => ?_
  split
  · exact h.pure _
  · refine h.seq (h.mapM fun child hchild => hread child (harguments child hchild)) fun arguments =>
      h.seq h.get fun space => ?_
    dsimp only
    split
    · exact h.tabling _
    · exact h.seq (h.reports hnode trivial) fun _ => h.pure _

theorem declare (type : TypeId) {declaration : NodeId} (hdeclaration : P declaration) :
    Keeps rel (declare a read type declaration) := by
  have hparts : ∀ child ∈ a.types declaration, Keeps rel (read child) := fun child hchild =>
    hread child (h.part declaration hdeclaration child hchild)
  rw [Reading.declare]
  split
  · next htypes => exact h.seq (hparts _ (by simp [htypes])) fun _ => h.tabling _
  · next htypes =>
    exact h.seq (hparts _ (by simp [htypes])) fun _ =>
      h.seq (hparts _ (by simp [htypes])) fun _ => h.tabling _
  · exact h.pure _

theorem readForm (hnode : P node) (form : TypeForm) : Keeps rel (readForm a scope read node form) := by
  have hparts := h.part node hnode
  cases form with
  | empty => exact h.pure _
  | simple name => exact h.seq (h.named? hnode name) fun _ => h.pure _
  | parameter name => exact h.parameter name
  | typedField _ | nestedType =>
    rw [Reading.readForm]
    split
    · next htypes => exact hread _ (hparts _ (by simp [htypes]))
    · exact h.pure _
  | compound => exact h.seq (h.fieldsFrom hread hparts 0 []) fun _ => h.tabling _
  | template name => exact h.instantiate hread hnode name hparts
  | functionType =>
    rw [Reading.readForm]
    split
    · next htypes =>
      exact h.seq (hread _ (hparts _ (by simp [htypes]))) fun _ =>
        h.seq (hread _ (hparts _ (by simp [htypes]))) fun _ => h.tabling _
    · exact h.pure _
  | mergedType =>
    exact h.seq (h.mapM fun child hchild => hread child (hparts child hchild)) fun _ => h.tabling _
  | inlineType =>
    exact h.seq (h.tabling _) fun type =>
      h.seq (h.forM fun declaration hdeclaration =>
        h.declare hread type (hparts declaration hdeclaration)) fun _ => h.pure _
  | inlineDeclaration symbol =>
    exact h.seq (h.tabling _) fun type => h.seq (h.declare hread type hnode) fun _ => h.pure _

omit hread in
theorem readWithin (height : Nat) (hnode : P node) : Keeps rel (readWithin a scope height node) := by
  induction height generalizing node with
  | zero => exact fun _ => after_throw
  | succ height ih =>
    rw [Reading.readWithin]
    split
    · exact h.pure _
    · exact h.readForm (fun child hchild => ih hchild) hnode _

omit hread in
/-- Reading a type makes no other changes. -/
theorem type (hnode : P node) : Keeps rel (Reading.type a scope node) := h.readWithin _ hnode

end AdmitsAt

namespace Admits

variable {α : Type} {scope : ScopeId} {rel : TypeSpace → TypeSpace → Prop} (h : Admits scope rel)
include h

/-- What may be reported anywhere may be reported at any sort of nodes. -/
theorem admitsAt (a : Arena) : AdmitsAt a (fun _ => True) scope rel where
  part _ _ _ _ := trivial
  refl := h.refl
  trans := h.trans
  table := h.table
  bind := h.bind
  report space node problem _ hproblem := h.report space a node problem hproblem.isOfType

theorem tabling (change : Tabling α) : Keeps rel (Reading.tabling change) :=
  (h.admitsAt .empty).tabling change

theorem type (a : Arena) (node : NodeId) : Keeps rel (Reading.type a scope node) :=
  (h.admitsAt a).type trivial

end Admits

theorem admits_adds (scope : ScopeId) : Admits scope (TypeSpace.Adds scope) where
  refl := .refl scope
  trans := .trans
  table _ _ := ⟨.refl _, rfl, fun _ _ => rfl⟩
  bind _ _ _ := ⟨.refl _, Scopes.size_add _ _ _ _, fun _ => Scopes.frame_add_of_ne _ _ _⟩
  report space a node problem hproblem := by
    refine ⟨space.log.adds_report a node fun name => ?_, rfl, fun _ _ => rfl⟩
    rintro rfl
    cases hproblem

/-- Reading a type reports nothing about definitions and binds names in one frame alone. -/
theorem type_reporting (a : Arena) (scope : ScopeId) (node : NodeId) :
    Reporting scope (Reading.type a scope node) := (admits_adds scope).type a node

end Reading

end MessageLang
