import MessageLang.Proofs.Core.FreeNames
import MessageLang.Proofs.Core.Settled

namespace MessageLang

namespace Temporaries

/-- What a generator has given since an earlier time, last first. -/
structure Drew (t : Temporaries) (drawn : List String) (t' : Temporaries) : Prop where
  taken_eq : t'.taken = drawn ++ t.taken
  nodup : drawn.Nodup
  not_mem : ∀ name ∈ drawn, name ∉ t.taken

variable {t t' t'' : Temporaries} {drawn drawn' : List String} {name : String}

theorem Drew.refl (t : Temporaries) : t.Drew [] t := ⟨rfl, .nil, by simp⟩

theorem Drew.trans (h : t.Drew drawn t') (h' : t'.Drew drawn' t'') :
    t.Drew (drawn' ++ drawn) t'' where
  taken_eq := by rw [h'.taken_eq, h.taken_eq, List.append_assoc]
  nodup := by
    refine List.nodup_append.mpr ⟨h'.nodup, h.nodup, ?_⟩
    rintro name hname _ hmem rfl
    exact h'.not_mem name hname (h.taken_eq ▸ List.mem_append_left _ hmem)
  not_mem name hname := by
    rcases List.mem_append.mp hname with hname | hname
    · exact fun hmem => h'.not_mem name hname (h.taken_eq ▸ List.mem_append_right _ hmem)
    · exact h.not_mem name hname

/-- A generator always has a name to give. -/
theorem exists_drew (t : Temporaries) : ∃ name t', t.fresh? = some (name, t') ∧ t.Drew [name] t' := by
  obtain ⟨number, _, hfree, _, hfresh⟩ := t.exists_fresh?_eq
  exact ⟨_, _, hfresh, rfl, List.nodup_singleton _, by simpa using hfree⟩

theorem Drew.of_fresh? (h : t.fresh? = some (name, t')) : t.Drew [name] t' := by
  obtain ⟨_, _, hfresh, hdrew⟩ := t.exists_drew
  cases h.symm.trans hfresh
  exact hdrew

theorem Drew.taken_subset (h : t.Drew drawn t') : t.taken ⊆ t'.taken := by
  rw [h.taken_eq]
  exact List.subset_append_right _ _

/-- What has been drawn is what has become taken. -/
theorem Drew.mem_iff (h : t.Drew drawn t') : name ∈ drawn ↔ name ∈ t'.taken ∧ name ∉ t.taken := by
  rw [h.taken_eq, List.mem_append]
  exact ⟨fun hmem => ⟨.inl hmem, h.not_mem name hmem⟩, fun ⟨hmem, hnot⟩ => hmem.resolve_right hnot⟩

end Temporaries

namespace Tree

mutual

/-- All nodes of a tree, each with what is below it and before that. -/
def nodes : Tree → List Tree
  | node id form span grouped children => node id form span grouped children :: nodesAll children

def nodesAll : List Tree → List Tree
  | [] => []
  | T :: rest => T.nodes ++ nodesAll rest

end

/-- The name that a node binds, refers to or assigns. -/
def name? (T : Tree) : Option String := T.form.expr? >>= Temporaries.nameOf?

/-- The names that nodes of some trees bind, refer to or assign. -/
def names (trees : List Tree) : List String := (nodesAll trees).filterMap name?

/-- The nodes of some trees that bind, refer to or assign a name. -/
def carriers (name : String) (trees : List Tree) : List Tree :=
  (nodesAll trees).filter (·.name? = some name)

variable {T U : Tree} {trees trees' : List Tree} {name : String} {size : Nat}

theorem nodesAll_cons : nodesAll (T :: trees) = T :: (nodesAll T.children ++ nodesAll trees) := by
  cases T
  rfl

theorem nodesAll_append : nodesAll (trees ++ trees') = nodesAll trees ++ nodesAll trees' := by
  induction trees with
  | nil => rfl
  | cons T rest ih => simp [nodesAll_cons, ih]

theorem mem_nodesAll_iff : U ∈ nodesAll trees ↔ ∃ T ∈ trees, U ∈ T.nodes := by
  induction trees with
  | nil => simp [nodesAll]
  | cons T rest ih => simp [nodesAll, ih]

theorem mem_nodes_self (T : Tree) : T ∈ T.nodes := by
  cases T
  exact List.mem_cons_self

theorem mem_nodesAll (h : T ∈ trees) : T ∈ nodesAll trees := mem_nodesAll_iff.mpr ⟨T, h, mem_nodes_self T⟩

theorem nodesAll_subset (h : trees ⊆ trees') : nodesAll trees ⊆ nodesAll trees' := by
  intro V hV
  obtain ⟨T, hT, hmem⟩ := mem_nodesAll_iff.mp hV
  exact mem_nodesAll_iff.mpr ⟨T, h hT, hmem⟩

theorem names_subset (h : trees ⊆ trees') : names trees ⊆ names trees' := by
  intro name hname
  rw [names, List.mem_filterMap] at hname ⊢
  obtain ⟨V, hV, heq⟩ := hname
  exact ⟨V, nodesAll_subset h hV, heq⟩

@[simp]
theorem names_nil : names [] = [] := rfl

theorem names_cons : names (T :: trees) = T.name?.toList ++ (names T.children ++ names trees) := by
  rw [names, nodesAll_cons, List.filterMap_cons, List.filterMap_append]
  cases T.name? <;> rfl

theorem names_append : names (trees ++ trees') = names trees ++ names trees' := by
  rw [names, nodesAll_append, List.filterMap_append, names, names]

theorem names_singleton : names [T] = T.name?.toList ++ names T.children := by
  rw [names_cons, names_nil, List.append_nil]

/-- Names are those of the first tree and those of the others. -/
theorem names_cons_eq_append : names (T :: trees) = names [T] ++ names trees := by
  rw [names_cons, names_singleton, List.append_assoc]

@[simp]
theorem carriers_nil : carriers name [] = [] := rfl

theorem carriers_cons : carriers name (T :: trees) =
    (if T.name? = some name then [T] else []) ++ (carriers name T.children ++ carriers name trees) := by
  rw [carriers, nodesAll_cons, List.filter_cons, List.filter_append]
  split <;> simp_all [carriers]

theorem carriers_append : carriers name (trees ++ trees') =
    carriers name trees ++ carriers name trees' := by
  rw [carriers, nodesAll_append, List.filter_append, carriers, carriers]

/-- The nodes with a name are those of the first tree and those of the others. -/
theorem carriers_cons_eq_append : carriers name (T :: trees) =
    carriers name [T] ++ carriers name trees := by
  rw [← carriers_append, List.singleton_append]

theorem carriers_eq_nil (h : name ∉ names trees) : carriers name trees = [] := by
  rw [carriers, List.filter_eq_nil_iff]
  intro V hV hname
  exact h (List.mem_filterMap.mpr ⟨V, hV, of_decide_eq_true hname⟩)

/-- The names of the trees among some children in the making. -/
def Twig.names : List Twig → List String
  | [] => []
  | tree T :: rest => Tree.names [T] ++ names rest
  | token _ :: rest => names rest

@[simp]
theorem Twig.names_nil : names [] = [] := rfl

@[simp]
theorem Twig.names_tree (T : Tree) (rest : List Twig) :
    names (tree T :: rest) = Tree.names [T] ++ names rest := rfl

@[simp]
theorem Twig.names_token (t : Token) (rest : List Twig) : names (token t :: rest) = names rest := rfl

theorem Twig.names_append (twigs twigs' : List Twig) :
    names (twigs ++ twigs') = names twigs ++ names twigs' := by
  induction twigs with
  | nil => rfl
  | cons twig rest ih => cases twig <;> simp [ih]

theorem Twig.names_map_tree (trees : List Tree) : names (trees.map .tree) = Tree.names trees := by
  induction trees with
  | nil => rfl
  | cons T rest ih => rw [List.map_cons, names_tree, ih, ← names_cons_eq_append]

theorem names_leaves (twigs : List Twig) (size : Nat) :
    names (leaves twigs size).1 = Twig.names twigs := by
  induction twigs generalizing size with
  | nil => rfl
  | cons twig twigs ih =>
    cases twig with
    | tree T =>
      have hleaves : (leaves (.tree T :: twigs) size).1 = T :: (leaves twigs size).1 := rfl
      rw [hleaves, names_cons_eq_append, ih, Twig.names_tree]
    | token t => exact ih (size + 1)

@[simp]
theorem names_allocAt (form : NodeForm) (span : Span) (twigs : List Twig) (size : Nat) :
    names [(allocAt form span twigs size).1] =
      (form.expr? >>= Temporaries.nameOf?).toList ++ Twig.names twigs := by
  rw [names_singleton, ← names_leaves twigs size]
  rfl

@[simp]
theorem names_alloc (form : NodeForm) (twigs : List Twig) (size : Nat) :
    names [(alloc form twigs size).1] =
      (form.expr? >>= Temporaries.nameOf?).toList ++ Twig.names twigs := by
  rw [names_singleton, ← names_leaves twigs size]
  rfl

@[simp]
theorem names_leaf (form : NodeForm) (span : Span) (size : Nat) :
    names [(leaf form span size).1] = (form.expr? >>= Temporaries.nameOf?).toList := by
  rw [names_singleton, show (leaf form span size).1.children = [] from rfl, names_nil,
    List.append_nil]
  rfl

mutual

theorem names_copy (T : Tree) (size : Nat) : names [(T.copy size).1] = names [T] := by
  match T with
  | node id form span grouped children =>
    rw [names_singleton, names_singleton, copy_eq]
    exact congrArg (_ ++ ·) (names_copyAll children size)

theorem names_copyAll (trees : List Tree) (size : Nat) :
    names (copyAll trees size).1 = names trees := by
  match trees with
  | [] => rfl
  | T :: rest =>
    have hall : (copyAll (T :: rest) size).1 =
      (T.copy size).1 :: (copyAll rest (T.copy size).2).1 := rfl
    rw [hall, names_cons_eq_append, names_copy T, names_copyAll rest, ← names_cons_eq_append]

end

@[simp]
theorem names_setGrouped (T : Tree) (grouped : Bool) : names [T.setGrouped grouped] = names [T] := by
  rw [names_singleton, names_singleton]
  rfl

theorem names_inherit (T : Tree) (grouped : Bool) : names [T.inherit grouped] = names [T] := by
  cases grouped
  · rfl
  · exact names_setGrouped T true

/-- Naming the fields of a struct binds no names and refers to none. -/
theorem names_nameFields (log : Log) (seen : Placement.FieldsSeen) (index : Nat)
    (trees : List Tree) : names (nameFields log seen index trees).2 = names trees := by
  induction trees generalizing log seen index with
  | nil => rfl
  | cons T rest ih =>
    unfold nameFields
    split
    · next declared hform =>
      have hnone : T.name? = none := by rw [name?, hform]; rfl
      rw [names_cons, names_cons (T := T), ih, hnone]
      rfl
    · rw [names_cons, ih, ← names_cons]
    · rw [names_cons, ih, ← names_cons]

section

variable {above : List NodeForm} {s s' : Lowering} {made : Tree × Nat}

/-- A tree that stays keeps its names. -/
theorem Settles.names_eq (h : T.Settles above s size made s') :
    names [made.1] = names [T] ∧ made.1.name? = T.name? ∧ s'.temporaries = s.temporaries := by
  have hname : made.1.name? = T.name? := by rw [name?, h.form_eq, name?]
  refine ⟨?_, hname, ?_⟩
  · rw [names_singleton, hname, names_singleton]
    congr 1
    cases h with
    | conditional =>
      have hchildren : (T.completeConditional size).1.children = T.children ++
        (leaves [.token (.keyword .elseWord T.span.stop),
          .tree (leaf (.expr (.constant .nothing)) (.point T.span.stop) size).1] (size + 1)).1 := rfl
      rw [hchildren, names_append, names_leaves]
      simp [NodeForm.expr?, Temporaries.nameOf?]
    | struct => exact names_nameFields ..
    | placed => rfl
    | kept => rfl
  · cases h with
    | placed =>
      rw [checkPlacement]
      split <;> rfl
    | _ => rfl

/-- What a tree is rewritten to has its names and those drawn for it. -/
theorem Rewrites.drew (h : T.Rewrites s size made s') : ∃ drawn,
    s.temporaries.Drew drawn s'.temporaries ∧
      ∀ name ∈ names [made.1], name ∈ drawn ∨ name ∈ names [T] := by
  have hpart : ∀ {part : Tree}, part ∈ T.children → names [part] ⊆ names [T] := fun hmem => by
    rw [names_singleton (T := T)]
    exact List.subset_append_of_subset_right _ (names_subset (by simpa using hmem))
  have hexpr : ∀ {part : Tree}, part ∈ T.expressions → names [part] ⊆ names [T] := fun hmem =>
    hpart (List.mem_of_mem_filter hmem)
  cases h with
  | @unary op operand others _ operands =>
    refine ⟨[], .refl _, fun name hname => .inr (hexpr (operands ▸ List.mem_cons_self) ?_)⟩
    simpa [Tree.unary, Growing.bind_apply, NodeForm.expr?, Temporaries.nameOf?] using hname
  | @logic text op left right _ _ operands =>
    refine ⟨[], .refl _, fun name hname => .inr ?_⟩
    rw [Tree.logic, names_allocAt, Twig.names_map_tree] at hname
    rw [names_singleton]
    exact List.mem_append_right _ hname
  | @binary op left right _ _ operands =>
    rw [twoOperands?_eq_some_iff] at operands
    refine ⟨[], .refl _, fun name hname => .inr ?_⟩
    simp [Tree.binary, Growing.bind_apply, NodeForm.expr?, Temporaries.nameOf?] at hname
    rcases hname with hname | hname
    · exact hexpr (operands ▸ List.mem_cons_self) hname
    · exact hexpr (operands ▸ List.mem_cons_of_mem _ List.mem_cons_self) hname
  | @whileLoop temporary temporaries condition body _ operands fresh =>
    rw [twoOperands?_eq_some_iff] at operands
    refine ⟨[temporary], .of_fresh? fresh, fun name hname => ?_⟩
    simp [Tree.whileLoop, Growing.bind_apply, NodeForm.expr?, Temporaries.nameOf?, names_copy] at hname
    rw [List.mem_singleton]
    rcases hname with hname | hname | hname | hname | hname
    · exact .inr (hexpr (operands ▸ List.mem_cons_self) hname)
    · exact .inl hname
    · exact .inr (hexpr (operands ▸ List.mem_cons_of_mem _ List.mem_cons_self) hname)
    · exact .inr (hexpr (operands ▸ List.mem_cons_self) hname)
    · exact .inl hname
  | @function input output body others _ operands =>
    have htype : ∀ {type : Tree}, type ∈ T.types → names [type] ⊆ names [T] := fun hmem =>
      hpart (List.mem_of_mem_filter hmem)
    have hinput : names [(orEmpty T.span.startPoint (T.inputType? input) size).1] ⊆ names [T] := by
      cases hin : T.inputType? input with
      | none => simp [orEmpty, NodeForm.expr?]
      | some type => exact htype (mem_types_of_inputType?_eq_some hin)
    have houtput : Twig.names ((T.outputType? input output).toList.map .tree) ⊆ names [T] := by
      cases hout : T.outputType? input output with
      | none => simp
      | some type => simpa using htype (mem_types_of_outputType?_eq_some hout)
    refine ⟨[], .refl _, fun name hname => .inr ?_⟩
    simp only [Tree.function, Growing.bind_apply, names_allocAt, Twig.names_append, Twig.names_token,
      Twig.names_tree, Twig.names_nil, NodeForm.expr?, Option.bind_eq_bind, Option.bind_some,
      Temporaries.nameOf?, Option.toList_none, List.nil_append, List.append_nil, List.mem_append]
      at hname
    rcases hname with (hname | hname) | hname
    · exact hinput hname
    · exact houtput hname
    · exact hexpr (operands ▸ List.mem_cons_self) hname
  | @block item _ items =>
    refine ⟨[], .refl _, fun name hname => .inr (hexpr (items ▸ List.mem_cons_self) ?_)⟩
    rwa [names_setGrouped] at hname

end

end Tree

/-- What lowering draws while it goes through some trees, and that what it makes of them has no
names but theirs and these. -/
theorem Lowers.drew {above : List NodeForm} {trees trees' : List Tree} {w w' : Lowering × Nat}
    (h : Lowers above trees w trees' w') : ∃ drawn, w.1.temporaries.Drew drawn w'.1.temporaries ∧
      ∀ name ∈ Tree.names trees', name ∈ drawn ∨ name ∈ Tree.names trees := by
  induction h with
  | nil => exact ⟨[], .refl _, by simp⟩
  | @settles above T T' trees trees' children s s₁ size size₁ w₂ w₃ step _ _ ihbelow ihafter =>
    obtain ⟨drawn, hdrew, hbelow⟩ := ihbelow
    obtain ⟨drawn', hdrew', hafter⟩ := ihafter
    obtain ⟨hnames, hname, htemporaries⟩ := step.names_eq
    rw [htemporaries] at hdrew
    refine ⟨drawn' ++ drawn, hdrew.trans hdrew', fun name hmem => ?_⟩
    rw [Tree.names_singleton, Tree.names_singleton, hname, List.append_cancel_left_eq] at hnames
    rw [Tree.names_cons, List.mem_append, List.mem_append] at hmem
    rw [Tree.names_cons, ← hnames, List.mem_append, List.mem_append, List.mem_append]
    rcases hmem with hmem | hmem | hmem
    · exact .inr (.inl (hname ▸ hmem))
    · exact (hbelow name hmem).imp .inr fun hmem => .inr (.inl hmem)
    · exact (hafter name hmem).imp .inl fun hmem => .inr (.inr hmem)
  | @rewrites above T T' trees trees' s s₁ size size₁ w₂ step _ ih =>
    obtain ⟨drawn, hdrew, hstep⟩ := step.drew
    obtain ⟨drawn', hdrew', hagain⟩ := ih
    refine ⟨drawn' ++ drawn, hdrew.trans hdrew', fun name hmem => ?_⟩
    rw [Tree.names_cons_eq_append, List.mem_append, List.mem_append]
    rcases hagain name hmem with hmem | hmem
    · exact .inl (.inl hmem)
    · rw [Tree.names_cons_eq_append, Tree.names_inherit, List.mem_append] at hmem
      rcases hmem with hmem | hmem
      · exact (hstep name hmem).imp .inr .inl
      · exact .inr (.inr hmem)

end MessageLang
