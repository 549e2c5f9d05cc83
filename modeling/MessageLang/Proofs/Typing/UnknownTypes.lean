import MessageLang.Proofs.Core.Names
import MessageLang.Proofs.Tree.Layout
import MessageLang.Proofs.Typing.Continuing
import MessageLang.Proofs.Typing.Reporting

namespace MessageLang

def Problem.isUnresolvedType : Problem → Bool
  | .unresolvedType _ => true
  | _ => false

namespace Tree

/-- The name that a node calls a type or a template by. -/
def typeName? (T : Tree) : Option String :=
  match T.form with
  | .type (.simple name) | .type (.template name) => some name
  | _ => none

def parameterName? (T : Tree) : Option String :=
  match T.form with
  | .type (.parameter name) => some name
  | _ => none

mutual

/-- The nodes of a written type that are read where certain names mean something, each before those in
it. Of a template whose name means nothing the arguments are not read. -/
def readNodes (known : String → Bool) : Tree → List Tree
  | node id form span grouped children =>
    node id form span grouped children ::
      match form with
      | .type (.template name) => if known name then readAll known children else []
      | .type .compound => readFields known 0 [] children
      | .type _ => readAll known children
      | _ => []

def readAll (known : String → Bool) : List Tree → List Tree
  | [] => []
  | T :: rest => (if T.isType then T.readNodes known else []) ++ readAll known rest

/-- Of the fields with one name only the first one is read. -/
def readFields (known : String → Bool) (index : Nat) (names : List String) : List Tree → List Tree
  | [] => []
  | T :: rest =>
    match T.form with
    | .type (.typedField label) =>
      let name := label.getD (Field.positionalName index)
      if name ∈ names then readFields known (index + 1) names rest
      else T.readNodes known ++ readFields known (index + 1) (name :: names) rest
    | .type _ => readFields known (index + 1) names rest
    | _ => readFields known index names rest

end

/-- What is reported of a node if its name means nothing. -/
def unknownName? (known : String → Bool) (T : Tree) : Option Report :=
  match T.typeName? with
  | some name => if known name then none else some ⟨.unresolvedType name, T.id, T.span⟩
  | none => none

/-- What is reported of names that mean nothing when a written type is read. -/
def unknownNames (known : String → Bool) (T : Tree) : List Report :=
  (T.readNodes known).filterMap (unknownName? known)

variable {T U C : Tree} {trees : List Tree} {known : String → Bool}

theorem nodes_eq (T : Tree) : T.nodes = T :: nodesAll T.children := by
  cases T
  rfl

theorem nodes_subset_of_mem_children (h : C ∈ T.children) : C.nodes ⊆ T.nodes := fun X hX => by
  rw [nodes_eq T]
  exact List.mem_cons_of_mem _ (mem_nodesAll_iff.mpr ⟨C, h, hX⟩)

theorem map_id_nodes (T : Tree) : T.nodes.map id = T.ids := by
  induction T with
  | node x form span grouped children ih =>
    have hall : (nodesAll children).map id = children.flatMap ids := by
      induction children with
      | nil => rfl
      | cons C rest ihrest =>
        obtain ⟨hC, hrest⟩ := List.forall_mem_cons.mp ih
        rw [nodesAll, List.map_append, hC, ihrest hrest, List.flatMap_cons]
    rw [nodes_eq, ids_eq, List.map_cons]
    exact congrArg (x :: ·) hall

theorem readAll_eq (known : String → Bool) (trees : List Tree) :
    readAll known trees = (trees.filter isType).flatMap (readNodes known) := by
  induction trees with
  | nil => rfl
  | cons T rest ih => cases htype : T.isType <;> simp [readAll, htype, ih]

/-- What is read of a tree is among its nodes. -/
theorem readNodes_sublist (known : String → Bool) (T : Tree) : (T.readNodes known).Sublist T.nodes := by
  induction T with
  | node x form span grouped children ih =>
    have hall : (readAll known children).Sublist (nodesAll children) := by
      induction children with
      | nil => exact .slnil
      | cons C rest ihrest =>
        obtain ⟨hC, hrest⟩ := List.forall_mem_cons.mp ih
        rw [readAll, nodesAll]
        refine List.Sublist.append ?_ (ihrest hrest)
        split
        · exact hC
        · exact List.nil_sublist _
    have hfields : ∀ index names, (readFields known index names children).Sublist (nodesAll children) := by
      clear hall
      induction children with
      | nil => exact fun _ _ => .slnil
      | cons C rest ihrest =>
        obtain ⟨hC, hrest⟩ := List.forall_mem_cons.mp ih
        intro index names
        have hskip : ∀ index names, (readFields known index names rest).Sublist
            (C.nodes ++ nodesAll rest) :=
          fun index names => (ihrest hrest index names).trans (List.sublist_append_right _ _)
        rw [readFields, nodesAll]
        split
        · dsimp only
          split
          · exact hskip _ _
          · exact hC.append (ihrest hrest _ _)
        · exact hskip _ _
        · exact hskip _ _
    rw [readNodes.eq_def, nodes_eq]
    refine List.Sublist.cons_cons _ ?_
    split
    · split
      · exact hall
      · exact List.nil_sublist _
    · exact hfields _ _
    · exact hall
    · exact List.nil_sublist _

theorem id_eq_of_unknownName? {r : Report} (h : r ∈ T.unknownName? known) : r.node = T.id := by
  rw [unknownName?] at h
  split at h
  · split at h
    · cases h
    · cases h
      rfl
  · cases h

/-- No node is reported twice. -/
theorem nodup_unknownNames (hnodup : T.ids.Nodup) :
    ((T.unknownNames known).map Report.node).Nodup := by
  have hsublist : ((T.unknownNames known).map Report.node).Sublist ((T.readNodes known).map id) := by
    rw [unknownNames]
    induction T.readNodes known with
    | nil => exact .slnil
    | cons X rest ih =>
      rw [List.filterMap_cons]
      split
      · exact ih.cons _
      · next r hr =>
        rw [List.map_cons, List.map_cons, id_eq_of_unknownName? hr]
        exact ih.cons_cons _
  rw [← map_id_nodes] at hnodup
  exact (hsublist.trans ((readNodes_sublist known T).map id)).nodup hnodup

/-- What is reported of the nodes of some trees that are read. -/
theorem filterMap_readAll (known : String → Bool) (trees : List Tree) :
    (readAll known trees).filterMap (unknownName? known) =
      (trees.filter isType).flatMap (unknownNames known) := by
  rw [readAll_eq, List.filterMap_flatMap]
  rfl

/-- A node is reported before what is in it. -/
theorem unknownNames_eq {form : TypeForm} (hform : T.form = .type form) :
    T.unknownNames known = (T.unknownName? known).toList ++
      match form with
      | .template name => if known name then T.types.flatMap (unknownNames known) else []
      | .compound => (readFields known 0 [] T.children).filterMap (unknownName? known)
      | _ => T.types.flatMap (unknownNames known) := by
  have hcons : ∀ rest : List Tree, (T :: rest).filterMap (unknownName? known) =
      (T.unknownName? known).toList ++ rest.filterMap (unknownName? known) := by
    intro rest
    rw [List.filterMap_cons]
    cases T.unknownName? known <;> rfl
  obtain ⟨x, _, span, grouped, children⟩ := T
  cases hform
  rw [unknownNames, readNodes.eq_def, hcons]
  refine congrArg (_ ++ ·) ?_
  cases form with
  | template name =>
    dsimp only
    split
    · exact filterMap_readAll known children
    · rfl
  | compound => rfl
  | _ => exact filterMap_readAll known children

end Tree

/-- What a log has more than another one of names of types that mean nothing. -/
def Log.Finds (log : Log) (found : List Report) (log' : Log) : Prop :=
  ∃ more, log'.toList = log.toList ++ more ∧ more.filter (·.problem.isUnresolvedType) = found

theorem Log.Finds.refl (log : Log) : log.Finds [] log := ⟨[], (List.append_nil _).symm, rfl⟩

theorem Log.Finds.trans {log log' log'' : Log} {found found' : List Report} (h : log.Finds found log')
    (h' : log'.Finds found' log'') : log.Finds (found ++ found') log'' := by
  obtain ⟨more, heq, rfl⟩ := h
  obtain ⟨more', heq', rfl⟩ := h'
  exact ⟨more ++ more', by rw [heq', heq, List.append_assoc], List.filter_append ..⟩

theorem Log.finds_report (log : Log) (a : Arena) (node : NodeId) (problem : Problem) :
    log.Finds (if problem.isUnresolvedType then [⟨problem, node, a.span node⟩] else [])
      (log.report a node problem) :=
  ⟨_, log.toList_report a node problem, by rw [List.filter_singleton, cond_eq_ite]⟩

/-- Which names of a certain sort mean something in a frame. -/
def TypeSpace.Knows (space : TypeSpace) (scope : ScopeId) (P : String → Prop)
    (known : String → Bool) : Prop :=
  ∀ name, P name → (space.scopes.get? scope name).isSome = known name

/-- A written type that calls types by names of a certain sort. Its parameters have other names. -/
structure Tree.Calls (a : Arena) (P : String → Prop) (T : Tree) : Prop where
  held : ∃ parent, a.Holds parent T
  laidOut : T.laidOut = true
  names : ∀ X ∈ T.nodes, ∀ name, X.typeName? = some name → P name
  parameters : ∀ X ∈ T.nodes, ∀ name, X.parameterName? = some name → ¬ P ("$" ++ name)

theorem Tree.Calls.child {a : Arena} {P : String → Prop} {T C : Tree} (h : T.Calls a P)
    (hC : C ∈ T.children) : C.Calls a P := by
  obtain ⟨parent, hheld⟩ := h.held
  have hsubset := nodes_subset_of_mem_children hC
  exact ⟨⟨_, hheld.child hC⟩, laidOut_of_mem_children h.laidOut hC,
    fun X hX => h.names X (hsubset hX), fun X hX => h.parameters X (hsubset hX)⟩

namespace Reading

variable {α β : Type} {a : Arena} {scope : ScopeId} {P : String → Prop} {known : String → Bool}
  {step : Reading α} {next : α → Reading β} {found found' : List Report} {node : NodeId}
  {name : String} {read : NodeId → Reading TypeId} {T : Tree} {trees : List Tree}

/-- A step that reports names of types that mean nothing, wherever the same names mean something. It
changes nothing about which do. -/
def Finds (scope : ScopeId) (P : String → Prop) (known : String → Bool) (step : Reading α)
    (found : List Report) : Prop :=
  ∀ space, space.Knows scope P known → After step space fun _ space' =>
    space'.Knows scope P known ∧ space.log.Finds found space'.log

theorem Finds.bind (h : Finds scope P known step found)
    (hnext : ∀ x, Finds scope P known (next x) found') :
    Finds scope P known (step >>= next) (found ++ found') := fun space hs =>
  (h space hs).bind fun x space₁ ⟨hs₁, hfound⟩ =>
    (hnext x space₁ hs₁).mono fun _ _ => And.imp_right hfound.trans

theorem finds_pure (x : α) : Finds scope P known (pure x) [] := fun space hs =>
  after_pure_iff.mpr ⟨hs, .refl space.log⟩

/-- A step after which nothing more is reported. -/
theorem Finds.last (h : Finds scope P known step found)
    (hnext : ∀ x, Finds scope P known (next x) []) : Finds scope P known (step >>= next) found :=
  List.append_nil found ▸ h.bind hnext

/-- A step before which nothing is reported. -/
theorem Finds.seq (h : Finds scope P known step [])
    (hnext : ∀ x, Finds scope P known (next x) found) : Finds scope P known (step >>= next) found :=
  h.bind hnext

theorem finds_get : Finds scope P known (get : Reading TypeSpace) [] := fun space hs =>
  after_get_iff.mpr ⟨hs, .refl space.log⟩

theorem finds_report (problem : Problem) : Finds scope P known (Reading.report a node problem)
    (if problem.isUnresolvedType then [⟨problem, node, a.span node⟩] else []) := fun space hs => by
  rw [Reading.report, after_modify_iff]
  exact ⟨hs, space.log.finds_report a node problem⟩

theorem finds_tabling (change : Tabling α) : Finds scope P known (Reading.tabling change) [] :=
  fun _ hs => after_tabling fun _ _ => ⟨hs, .refl _⟩

/-- A name is found if it means something, and reported otherwise. -/
theorem named?_finds (hname : P name) (space : TypeSpace) (hs : space.Knows scope P known) :
    After (named? a scope node name) space fun type? space' => type?.isSome = known name ∧
      space'.Knows scope P known ∧
      space.log.Finds (if known name then [] else [⟨.unresolvedType name, node, a.span node⟩])
        space'.log := by
  have hknown := hs name hname
  rw [named?, after_bind_iff, after_get_iff]
  split
  · next type hsome =>
    rw [hsome] at hknown
    rw [after_pure_iff, ← hknown]
    exact ⟨rfl, hs, .refl _⟩
  · next hnone =>
    rw [hnone] at hknown
    rw [after_bind_iff]
    refine (finds_report (.unresolvedType name) space hs).mono fun _ space' h => ?_
    rw [after_pure_iff, ← hknown]
    exact ⟨rfl, h⟩

/-- A parameter is bound under a name that no type is called by. -/
theorem parameter_finds (hname : ¬ P ("$" ++ name)) :
    Finds scope P known (parameter scope name) [] := by
  refine finds_get.seq fun space => ?_
  split
  · exact finds_pure _
  · refine (finds_tabling _).seq fun wildcard => Finds.seq (fun space hs => ?_) fun _ => finds_pure _
    rw [after_modify_iff]
    refine ⟨fun other hother => ?_, .refl _⟩
    have hne : other ≠ "$" ++ name := by
      rintro rfl
      exact hname hother
    rw [← hs other hother, Scopes.get?_add_of_ne hne]

theorem forM_finds {step : Tree → Reading PUnit}
    (h : ∀ C ∈ trees, Finds scope P known (step C) (C.unknownNames known)) :
    Finds scope P known (trees.forM step) (trees.flatMap (Tree.unknownNames known)) := by
  induction trees with
  | nil => exact finds_pure PUnit.unit
  | cons C rest ih =>
    obtain ⟨hC, hrest⟩ := List.forall_mem_cons.mp h
    rw [List.flatMap_cons]
    exact hC.bind fun _ => ih hrest

section

variable (hread : ∀ C : Tree, C.Calls a P → Finds scope P known (read C.id) (C.unknownNames known))
include hread

theorem mapM_finds (htrees : ∀ C ∈ trees, C.Calls a P) :
    Finds scope P known ((trees.map Tree.id).mapM read)
      (trees.flatMap (Tree.unknownNames known)) := by
  rw [List.mapM_map]
  induction trees with
  | nil => exact finds_pure []
  | cons C rest ih =>
    obtain ⟨hC, hrest⟩ := List.forall_mem_cons.mp htrees
    rw [List.mapM_cons, List.flatMap_cons]
    exact (hread C hC).bind fun _ => (ih hrest).last fun _ => finds_pure _

theorem fieldsFrom_finds (htrees : ∀ C ∈ trees, C.Calls a P) (index : Nat) (names : List String) :
    Finds scope P known (fieldsFrom a read index names ((trees.filter Tree.isType).map Tree.id))
      ((Tree.readFields known index names trees).filterMap (Tree.unknownName? known)) := by
  induction trees generalizing index names with
  | nil => exact finds_pure []
  | cons C rest ih =>
    obtain ⟨hC, hrest⟩ := List.forall_mem_cons.mp htrees
    obtain ⟨parent, hheld⟩ := hC.held
    rw [Tree.readFields.eq_def]
    dsimp only
    split
    · next label hform =>
      have htype : C.isType = true := by rw [Tree.isType, hform]; rfl
      have hsort : a.type? C.id = some (.typedField label) := by rw [hheld.type?_eq, hform]; rfl
      rw [List.filter_cons_of_pos htype, List.map_cons, fieldsFrom, hsort]
      dsimp only
      split
      · exact (finds_report (.duplicateField _)).seq fun _ => ih hrest _ _
      · rw [List.filterMap_append]
        exact (hread C hC).bind fun _ => (ih hrest _ _).last fun _ => finds_pure _
    · next form hnot hform =>
      have htype : C.isType = true := by rw [Tree.isType, hform]; rfl
      have hsort : a.type? C.id = some form := by rw [hheld.type?_eq, hform]; rfl
      rw [List.filter_cons_of_pos htype, List.map_cons, fieldsFrom, hsort]
      split
      · next label heq =>
        cases heq
        exact (hnot label rfl).elim
      · exact ih hrest _ _
    · next hnot hnot' =>
      have htype : C.isType = false := by
        rw [Tree.isType]
        cases hform : C.form with
        | type form => exact (hnot' form hform).elim
        | _ => rfl
      rw [List.filter_cons_of_neg (by simp [htype])]
      exact ih hrest _ _

/-- What is reported of a template is its name, or what is reported of its arguments. -/
theorem instantiate_finds (hT : T.Calls a P) (hform : T.form = .type (.template name)) :
    Finds scope P known (instantiate a scope read T.id name (a.types T.id))
      (T.unknownNames known) := by
  obtain ⟨parent, hheld⟩ := hT.held
  have hname : T.typeName? = some name := by rw [Tree.typeName?, hform]
  have htypes : ∀ C ∈ T.types, C.Calls a P := fun C hC => hT.child (List.mem_filter.mp hC).1
  rw [Tree.unknownNames_eq hform, Tree.unknownName?, hname, instantiate, hheld.types_eq,
    ← hheld.span_eq]
  intro space hs
  refine (named?_finds (hT.names T T.mem_nodes_self name hname) space hs).bind ?_
  rintro found space₁ ⟨hfound, hs₁, hlog⟩
  dsimp only
  cases found with
  | none =>
    rw [Option.isSome_none] at hfound
    rw [← hfound] at hlog ⊢
    exact after_pure_iff.mpr ⟨hs₁, hlog⟩
  | some template =>
    rw [Option.isSome_some] at hfound
    rw [← hfound] at hlog ⊢
    refine After.mono (Finds.last (mapM_finds hread htypes) (fun arguments => ?_) space₁ hs₁)
      fun _ _ => And.imp_right hlog.trans
    refine finds_get.seq fun space => ?_
    split
    · exact finds_tabling _
    · exact (finds_report (.templateArity name _ _)).seq fun _ => finds_pure _

/-- A declaration that stands where it is to is read whole. -/
theorem declare_finds {symbol : Option String} {type : TypeId} (hT : T.Calls a P)
    (hform : T.form = .type (.inlineDeclaration symbol)) :
    Finds scope P known (declare a read type T.id) (T.unknownNames known) := by
  obtain ⟨parent, hheld⟩ := hT.held
  have hname : T.typeName? = none := by rw [Tree.typeName?, hform]
  have hsort : a.type? T.id = some (.inlineDeclaration symbol) := by rw [hheld.type?_eq, hform]; rfl
  have hlayout := Tree.types_of_laidOut hT.laidOut hform
  have htypes : ∀ C ∈ T.types, C.Calls a P := fun C hC => hT.child (List.mem_filter.mp hC).1
  rw [Tree.unknownNames_eq hform, Tree.unknownName?, hname, declare, hsort, hheld.types_eq]
  cases symbol with
  | some symbol =>
    obtain ⟨C, hC⟩ := hlayout
    rw [hC, List.forall_mem_singleton] at htypes
    rw [hC, List.flatMap_singleton]
    exact (hread C htypes).last fun _ => finds_tabling _
  | none =>
    obtain ⟨C, D, hCD⟩ := hlayout
    rw [hCD] at htypes
    rw [hCD, List.flatMap_cons, List.flatMap_singleton]
    exact (hread C (htypes C (by simp))).bind fun _ =>
      (hread D (htypes D (by simp))).last fun _ => finds_tabling _

theorem readForm_finds {form : TypeForm} (hT : T.Calls a P) (hform : T.form = .type form) :
    Finds scope P known (readForm a scope read T.id form) (T.unknownNames known) := by
  obtain ⟨parent, hheld⟩ := hT.held
  have hchildren : ∀ C ∈ T.children, C.Calls a P := fun _ hC => hT.child hC
  have htypes : ∀ C ∈ T.types, C.Calls a P := fun C hC => hT.child (List.mem_filter.mp hC).1
  have hlayout := Tree.types_of_laidOut hT.laidOut hform
  -- only what calls a type by a name is reported itself
  have hown : ∀ {rest : List Report}, T.typeName? = none →
      (T.unknownName? known).toList ++ rest = rest := fun hname => by
    rw [Tree.unknownName?, hname]
    rfl
  cases form with
  | simple name =>
    have hname : T.typeName? = some name := by rw [Tree.typeName?, hform]
    rw [Tree.unknownNames_eq hform, Tree.unknownName?, hname, readForm, ← hheld.span_eq]
    simp only [hlayout, List.flatMap_nil, List.append_nil]
    intro space hs
    refine (named?_finds (hT.names T T.mem_nodes_self name hname) space hs).bind ?_
    rintro found space₁ ⟨-, hs₁, hlog⟩
    refine after_pure_iff.mpr ⟨hs₁, ?_⟩
    cases hknown : known name <;> rw [hknown] at hlog <;> exact hlog
  | template name => exact instantiate_finds hread hT hform
  | inlineDeclaration symbol =>
    exact (finds_tabling _).seq fun type =>
      (declare_finds hread hT hform).last fun _ => finds_pure _
  | empty =>
    rw [Tree.unknownNames_eq hform, hown (by rw [Tree.typeName?, hform])]
    simp only [hlayout, List.flatMap_nil]
    exact finds_pure _
  | parameter name =>
    rw [Tree.unknownNames_eq hform, hown (by rw [Tree.typeName?, hform])]
    simp only [hlayout, List.flatMap_nil]
    exact parameter_finds (hT.parameters T T.mem_nodes_self name (by rw [Tree.parameterName?, hform]))
  | typedField _ | nestedType =>
    obtain ⟨C, hC⟩ := hlayout
    rw [Tree.unknownNames_eq hform, hown (by rw [Tree.typeName?, hform]), readForm, hheld.types_eq, hC]
    simp only [List.flatMap_singleton, List.map_singleton]
    exact hread C (htypes C (by simp [hC]))
  | compound =>
    rw [Tree.unknownNames_eq hform, hown (by rw [Tree.typeName?, hform]), readForm, hheld.types_eq]
    exact (fieldsFrom_finds hread hchildren 0 []).last fun _ => finds_tabling _
  | functionType =>
    obtain ⟨C, D, hCD⟩ := hlayout
    rw [Tree.unknownNames_eq hform, hown (by rw [Tree.typeName?, hform]), readForm, hheld.types_eq, hCD]
    simp only [List.flatMap_cons, List.flatMap_nil, List.append_nil, List.map_cons, List.map_nil]
    exact (hread C (htypes C (by simp [hCD]))).bind fun _ =>
      (hread D (htypes D (by simp [hCD]))).last fun _ => finds_tabling _
  | mergedType =>
    rw [Tree.unknownNames_eq hform, hown (by rw [Tree.typeName?, hform]), readForm, hheld.types_eq]
    exact (mapM_finds hread htypes).last fun _ => finds_tabling _
  | inlineType =>
    rw [Tree.unknownNames_eq hform, hown (by rw [Tree.typeName?, hform]), readForm, hheld.types_eq]
    have hforM : ∀ type, (T.types.map Tree.id).forM (declare a read type) =
        T.types.forM fun C => declare a read type C.id := fun _ => List.forM_map
    refine (finds_tabling _).seq fun type => Finds.last ?_ fun _ => finds_pure _
    rw [hforM]
    refine forM_finds fun C hC => ?_
    obtain ⟨symbol, hsymbol⟩ := hlayout C hC
    exact declare_finds hread (htypes C hC) hsymbol

end

/-- Reading a written type reports the names in it that mean nothing, in the order in which they are
read. -/
theorem readWithin_finds (height : Nat) (hT : T.Calls a P) :
    Finds scope P known (readWithin a scope height T.id) (T.unknownNames known) := by
  induction height generalizing T with
  | zero => exact fun _ _ => after_throw
  | succ height ih =>
    obtain ⟨parent, hheld⟩ := hT.held
    rw [readWithin, hheld.type?_eq]
    cases hform : T.form with
    | type form => exact readForm_finds (fun C hC => ih hC) hT hform
    | _ =>
      have hnothing : T.unknownNames known = [] := by
        obtain ⟨x, _, span, grouped, children⟩ := T
        cases hform
        rfl
      rw [hnothing]
      exact finds_pure _

end Reading

/-- The names that a written type calls types by are not those that its parameters are bound under. -/
def Tree.NamesApart (T : Tree) : Prop :=
  ∀ X ∈ T.nodes, ∀ Y ∈ T.nodes, ∀ name, X.typeName? = some ("$" ++ name) →
    Y.parameterName? ≠ some name

/-- Reading a written type reports the names in it that mean nothing in the frame where it is read, all
of them and each once, and no others: those of types and of templates, however deep, but for what
stands in the arguments of a template whose name means nothing, or in a field of a name that an earlier
field of the same compound type has. -/
theorem Arena.Holds.type_reports_unknown {a : Arena} {parent : Option NodeId} {T : Tree}
    {scope : ScopeId} {space : TypeSpace} (hheld : a.Holds parent T) (hnodup : T.ids.Nodup)
    (hlaid : T.laidOut = true) (hapart : T.NamesApart) (hs : space.Valid scope) :
    ∃ id space' more, Reading.type a scope T.id space = .ok (id, space') ∧
      space'.log.toList = space.log.toList ++ more ∧
      more.filter (·.problem.isUnresolvedType) =
        T.unknownNames (fun name => (space.scopes.get? scope name).isSome) ∧
      ((more.filter (·.problem.isUnresolvedType)).map Report.node).Nodup := by
  obtain ⟨id, space', hrun, -⟩ := ends_iff.mp (Reading.type_makes hheld hnodup space hs)
  let P (name : String) : Prop := ∃ X ∈ T.nodes, X.typeName? = some name
  have hcalls : T.Calls a P := ⟨⟨parent, hheld⟩, hlaid, fun X hX name hname => ⟨X, hX, hname⟩,
    fun Y hY name hname ⟨X, hX, hX'⟩ => hapart X hX Y hY name hX' hname⟩
  obtain ⟨-, more, hmore, hfound⟩ :=
    Reading.readWithin_finds a.size hcalls space (fun _ _ => rfl) id space' hrun
  refine ⟨id, space', more, hrun, hmore, hfound, ?_⟩
  rw [hfound]
  exact Tree.nodup_unknownNames hnodup

/-- A compound type with an unknown template, a name given twice, an array of something unknown and a
parameter. -/
def strangeTree : Tree :=
  .node ⟨10⟩ (.type .compound) default false
    [.node ⟨2⟩ (.type (.typedField (some "x"))) default false
      [.node ⟨1⟩ (.type (.template "Foo")) default false
        [.node ⟨0⟩ (.type (.simple "Bar")) default false []]],
      .node ⟨4⟩ (.type (.typedField (some "x"))) default false
        [.node ⟨3⟩ (.type (.simple "Baz")) default false []],
      .node ⟨7⟩ (.type (.typedField (some "y"))) default false
        [.node ⟨6⟩ (.type (.template "Array")) default false
          [.node ⟨5⟩ (.type (.simple "Qux")) default false []]],
      .node ⟨9⟩ (.type (.typedField (some "z"))) default false
        [.node ⟨8⟩ (.type (.parameter "A")) default false []]]

def strangeArena : Arena where
  nodes := #[
    { form := .type (.simple "Bar"), span := default, parent := some ⟨1⟩ },
    { form := .type (.template "Foo"), span := default, children := [⟨0⟩], parent := some ⟨2⟩ },
    { form := .type (.typedField (some "x")), span := default, children := [⟨1⟩],
      parent := some ⟨10⟩ },
    { form := .type (.simple "Baz"), span := default, parent := some ⟨4⟩ },
    { form := .type (.typedField (some "x")), span := default, children := [⟨3⟩],
      parent := some ⟨10⟩ },
    { form := .type (.simple "Qux"), span := default, parent := some ⟨6⟩ },
    { form := .type (.template "Array"), span := default, children := [⟨5⟩], parent := some ⟨7⟩ },
    { form := .type (.typedField (some "y")), span := default, children := [⟨6⟩],
      parent := some ⟨10⟩ },
    { form := .type (.parameter "A"), span := default, parent := some ⟨9⟩ },
    { form := .type (.typedField (some "z")), span := default, children := [⟨8⟩],
      parent := some ⟨10⟩ },
    { form := .type .compound, span := default, children := [⟨2⟩, ⟨4⟩, ⟨7⟩, ⟨9⟩] }]

theorem holds_strangeTree : strangeArena.Holds none strangeTree := by
  refine .node (by decide) rfl fun child hchild => ?_
  simp only [List.mem_cons, List.not_mem_nil, or_false] at hchild
  rcases hchild with rfl | rfl | rfl | rfl
  · refine .node (by decide) rfl fun child hchild => ?_
    rw [List.mem_singleton.mp hchild]
    refine .node (by decide) rfl fun child hchild => ?_
    rw [List.mem_singleton.mp hchild]
    exact .node (by decide) rfl fun _ h => (nomatch h)
  · refine .node (by decide) rfl fun child hchild => ?_
    rw [List.mem_singleton.mp hchild]
    exact .node (by decide) rfl fun _ h => (nomatch h)
  · refine .node (by decide) rfl fun child hchild => ?_
    rw [List.mem_singleton.mp hchild]
    refine .node (by decide) rfl fun child hchild => ?_
    rw [List.mem_singleton.mp hchild]
    exact .node (by decide) rfl fun _ h => (nomatch h)
  · refine .node (by decide) rfl fun child hchild => ?_
    rw [List.mem_singleton.mp hchild]
    exact .node (by decide) rfl fun _ h => (nomatch h)

theorem namesApart_strangeTree : strangeTree.NamesApart := by
  have hparameters : ∀ Y ∈ strangeTree.nodes, Y.parameterName? = none ∨ Y.parameterName? = some "A" := by
    decide
  have hnames : ∀ X ∈ strangeTree.nodes, X.typeName? ≠ some "$A" := by decide
  intro X hX Y hY name hname hparameter
  rcases hparameters Y hY with h | h <;> rw [h] at hparameter <;> cases hparameter
  exact hnames X hX hname

/-- What stands in the unknown template, and in the second field of its name, is not reported. -/
example : (Reading.type strangeArena Scopes.root strangeTree.id .initial).map (fun read =>
    read.2.log.toList.map fun r => (r.problem, r.node)) =
      .ok [(.unresolvedType "Foo", ⟨1⟩), (.duplicateField "x", ⟨4⟩), (.unresolvedType "Qux", ⟨5⟩)] := by
  decide +kernel

theorem type_reports_unknown_strangeTree :
    strangeArena.Holds none strangeTree ∧ strangeTree.ids.Nodup ∧ strangeTree.laidOut = true ∧
      strangeTree.NamesApart ∧ TypeSpace.initial.Valid Scopes.root ∧
      ∃ id space' more, Reading.type strangeArena Scopes.root strangeTree.id .initial =
          .ok (id, space') ∧
        space'.log.toList = TypeSpace.initial.log.toList ++ more ∧
        more.filter (·.problem.isUnresolvedType) = strangeTree.unknownNames
          (fun name => (TypeSpace.initial.scopes.get? Scopes.root name).isSome) ∧
        ((more.filter (·.problem.isUnresolvedType)).map Report.node).Nodup :=
  have hnodup : strangeTree.ids.Nodup := by decide
  have hlaid : strangeTree.laidOut = true := by decide
  ⟨holds_strangeTree, hnodup, hlaid, namesApart_strangeTree, TypeSpace.initial_valid,
    holds_strangeTree.type_reports_unknown hnodup hlaid namesApart_strangeTree
      TypeSpace.initial_valid⟩

end MessageLang
