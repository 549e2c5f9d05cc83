import MessageLang.Proofs.Tree.Held
import MessageLang.Proofs.Types.Substitution
import MessageLang.Proofs.Typing.Naming
import MessageLang.Typing.TypeReader

namespace MessageLang

open TypeTable

/-- What reading types can rely on and keeps to. All types with names of their own are atomic. -/
structure TypeSpace.Sound (space : TypeSpace) : Prop where
  table : space.table.Sound
  builtins : TypeTable.initial.Extends space.table
  named : space.scopes.All fun id => id.index < space.table.size ∧ space.table.Atomic id

/-- Adding to a table, in a space of types. -/
theorem TypeSpace.Sound.extend {space : TypeSpace} (h : space.Sound) {t : TypeTable} (ht : t.Sound)
    (hmore : space.table.Extends t) : { space with table := t }.Sound where
  table := ht
  builtins := h.builtins.trans hmore
  named := h.named.mono fun _ hid => ⟨hmore.lt hid.1, hid.2.extend hmore hid.1⟩

theorem TypeSpace.Sound.withLog {space : TypeSpace} (h : space.Sound) (log : Log) :
    { space with log }.Sound := ⟨h.table, h.builtins, h.named⟩

/-- The types in a tree are trees with fewer nodes. -/
theorem Arena.Holds.exists_type {a : Arena} {parent : Option NodeId} {T : Tree} {height : Nat}
    {child : NodeId} (h : a.Holds parent T) (hheight : T.ids.length ≤ height + 1)
    (hchild : child ∈ a.types T.id) :
    ∃ C : Tree, C.id = child ∧ a.Holds (some T.id) C ∧ C.ids.length ≤ height := by
  rw [h.types_eq] at hchild
  obtain ⟨C, hC, rfl⟩ := List.mem_map.mp hchild
  have hmem : C ∈ T.children := (List.mem_filter.mp hC).1
  have hless := Tree.length_ids_lt_of_mem_children hmem
  exact ⟨C, rfl, h.child hmem, by omega⟩

namespace Reading

variable {a : Arena} {scope : ScopeId} {node : NodeId} {space : TypeSpace}

@[simp]
theorem ends_tabling_iff {α : Type} {change : Tabling α} {post : α → TypeSpace → Prop} :
    Ends (Reading.tabling change) space post ↔
      Ends change space.table fun result table => post result { space with table } := by
  simp only [Ends, Reading.tabling, bind, Except.bind]
  cases change space.table <;> rfl

@[simp]
theorem ends_report_iff {problem : Problem} {post : PUnit → TypeSpace → Prop} :
    Ends (Reading.report a node problem) space post ↔
      post ⟨⟩ { space with log := space.log.report a node problem } := .rfl

/-- What a reading step leaves, with a result that is read for a node. -/
abbrev Gives (a : Arena) (space : TypeSpace) (node : NodeId) (id : TypeId) (space' : TypeSpace) : Prop :=
  space'.Sound ∧ space.table.Extends space'.table ∧ Reads a space.table space'.table node id

/-- Most forms have no fields, whatever stands in them. -/
theorem gives_of_isAtomic {form : TypeForm} (hsort : a.type? node = some form)
    (hform : form.isAtomic = true) {space' : TypeSpace} {id : TypeId} (hs' : space'.Sound)
    (hmore : space.table.Extends space'.table) (hlt : id.index < space'.table.size)
    (hid : space'.table.Atomic id) : Gives a space node id space' :=
  ⟨hs', hmore, .of_isAtomic hid hlt hsort hform⟩

/-- What cannot be read may be anything. -/
theorem gives_anything {form : TypeForm} (hsort : a.type? node = some form)
    (hform : form.isAtomic = true) {space' : TypeSpace} (hs' : space'.Sound)
    (hmore : space.table.Extends space'.table) : Gives a space node .anything space' :=
  gives_of_isAtomic hsort hform hs' hmore (hs'.table.lt_of_index_le (by decide))
    hs'.builtins.atomic_anything

theorem gives_empty (hs : space.Sound) (hsort : a.type? node = some .empty) :
    Gives a space node .empty space := by
  have hget := hs.builtins.get_empty
  have hnone : ∀ name, ¬ space.table.HasField .empty name := by
    simp [HasField, fields?, hget, Descriptor.fields?]
  refine ⟨hs, .refl _, hs.table.lt_of_index_le (by decide), ?_, fun name => ?_,
    fun name h => (hnone name h).elim, ?_⟩
  · refine iff_of_false ?_ (Arena.not_void ?_ ?_)
    · rw [isNever, hget]
      decide
    · simp [hsort]
    · simp +contextual [hsort, TypeForm.isWrapper]
  · refine iff_of_false (hnone name) (Arena.not_names ?_ ?_ ?_)
    · simp [hsort]
    · simp [hsort]
    · simp +contextual [hsort, TypeForm.isWrapper]
  · rw [hget]
    exact .inl rfl

theorem named?_ends (hs : space.Sound) (name : String) :
    Ends (named? a scope node name) space fun found space' => space'.Sound ∧
      space'.table = space.table ∧
      ∀ id ∈ found, id.index < space.table.size ∧ space.table.Atomic id := by
  rw [named?, ends_bind_iff, ends_get_iff]
  split
  · next id hid =>
    refine ⟨hs, rfl, fun other hother => ?_⟩
    cases hother
    exact hs.named.get? hid
  · exact ⟨hs.withLog _, rfl, fun _ hid => nomatch hid⟩

theorem parameter_ends (hs : space.Sound) (name : String) :
    Ends (parameter scope name) space fun id space' => space'.Sound ∧
      space.table.Extends space'.table ∧ id.index < space'.table.size ∧ space'.table.Atomic id := by
  simp only [parameter, ends_bind_iff, ends_get_iff]
  split
  · next id hid =>
    obtain ⟨hlt, hatomic⟩ := hs.named.get? hid
    exact ⟨hs, .refl _, hlt, hatomic⟩
  · simp only [ends_bind_iff, ends_tabling_iff, ends_modify_iff, ends_pure_iff]
    refine (Tabling.wildcard_ends hs.table _).mono ?_
    rintro id t ⟨ht, hmore, -, hlt, hget⟩
    have hatomic : t.Atomic id := .of_get hget rfl (by simp) rfl
    have hs' := hs.extend ht hmore
    exact ⟨⟨ht, hs'.builtins, hs'.named.add _ _ ⟨hlt, hatomic⟩⟩, hmore, hlt, hatomic⟩

section

variable {read : NodeId → Reading TypeId} {nodes : List NodeId}

/-- Reading nodes one after the other, each as what it stands for. -/
theorem mapM_ends (hs : space.Sound)
    (hread : ∀ child ∈ nodes, ∀ space, space.Sound → Ends (read child) space (Gives a space child)) :
    Ends (nodes.mapM read) space fun ids space' => space'.Sound ∧
      space.table.Extends space'.table ∧ ∃ reads : List (NodeId × TypeId),
        reads.map (·.1) = nodes ∧ reads.map (·.2) = ids ∧
        (∀ entry ∈ reads, Reads a space.table space'.table entry.1 entry.2) ∧
        reads.Pairwise fun x y => ∀ name, space'.table.HasField y.2 name → x.2.index < y.2.index := by
  let inv (done : List NodeId) (ids : List TypeId) (space' : TypeSpace) : Prop :=
    space'.Sound ∧ space.table.Extends space'.table ∧ ∃ reads : List (NodeId × TypeId),
      reads.map (·.1) = done ∧ reads.map (·.2) = ids ∧
      (∀ entry ∈ reads, Reads a space.table space'.table entry.1 entry.2) ∧
      reads.Pairwise fun x y => ∀ name, space'.table.HasField y.2 name → x.2.index < y.2.index
  have hstart : inv [] [] space :=
    ⟨hs, .refl _, [], rfl, rfl, fun _ h => (nomatch h), .nil⟩
  refine ends_mapM ?_ hstart
  rintro _ child hchild _ space₁ ⟨hs₁, hmore₁, reads, rfl, rfl, hreads, hnew⟩
  refine (hread child hchild space₁ hs₁).mono ?_
  rintro id space₂ ⟨hs₂, hmore₂, hread₂⟩
  refine ⟨hs₂, hmore₁.trans hmore₂, reads ++ [(child, id)], by simp, by simp, ?_, ?_⟩
  · rw [List.forall_mem_append, List.forall_mem_singleton]
    exact ⟨fun entry hentry => (hreads entry hentry).extend hmore₂, hread₂.of_le hmore₁.size_le⟩
  · refine List.pairwise_append.mpr ⟨hnew.imp_of_mem fun hx hy h name hfield => ?_,
      List.pairwise_singleton _ _, fun x hx y hy name hfield => ?_⟩
    · exact h name ((hmore₂.hasField_iff (hreads _ hy).lt).mp hfield)
    · rw [List.mem_singleton.mp hy] at hfield ⊢
      exact (hreads x hx).lt.trans_le (hread₂.new name hfield)

/-- The first of the fields that are written has its own name, or one that nothing else has. -/
theorem exists_typedField_cons_iff {child : NodeId} {rest : List NodeId} {label : Option String}
    (index : Nat) (hlabel : a.type? child = some (.typedField label)) {name : String}
    (hname : name.startsWith "?" = false) :
    (∃ other ∈ child :: rest, a.type? other = some (.typedField (some name))) ↔
      label.getD (Field.positionalName index) = name ∨
        ∃ other ∈ rest, a.type? other = some (.typedField (some name)) := by
  rw [List.exists_mem_cons_iff, hlabel]
  refine or_congr_left ⟨fun h => ?_, fun h => ?_⟩
  · cases h
    rfl
  · cases label with
    | some given => exact congrArg (fun given => some (TypeForm.typedField (some given))) h
    | none =>
      have hpositional : (Field.positionalName index).startsWith "?" = true := by
        rw [String.startsWith_string_iff]
        exact ⟨_, String.toList_append.symm⟩
      rw [← h] at hname
      rw [Option.getD_none, hpositional] at hname
      cases hname

/-- The fields that are read have the names in the fields that are written, but for names that
were there before. -/
theorem fieldsFrom_ends (hs : space.Sound) (index : Nat) (names : List String)
    (hread : ∀ child ∈ nodes, ∀ space, space.Sound → Ends (read child) space (Gives a space child)) :
    Ends (fieldsFrom a read index names nodes) space fun fields space' => space'.Sound ∧
      space.table.Extends space'.table ∧ (∀ f ∈ fields, f.type.index < space'.table.size) ∧
      ∀ name, name.startsWith "?" = false → ((∃ f ∈ fields, f.name = name) ↔
        name ∉ names ∧ ∃ child ∈ nodes, a.type? child = some (.typedField (some name))) := by
  induction nodes generalizing index names space with
  | nil => exact ⟨hs, .refl _, fun _ h => (nomatch h), fun name _ => by simp⟩
  | cons child rest ih =>
    have hrest : ∀ other ∈ rest, ∀ space, space.Sound →
        Ends (read other) space (Gives a space other) :=
      fun other hother => hread other (List.mem_cons_of_mem _ hother)
    rw [fieldsFrom]
    split
    · next label hlabel =>
      dsimp only
      split
      · next hmem =>
        rw [ends_bind_iff, ends_report_iff]
        refine (ih (hs.withLog _) (index + 1) names hrest).mono ?_
        rintro fields space' ⟨hs', hmore, hlt, hnames⟩
        refine ⟨hs', hmore, hlt, fun name hname => ?_⟩
        rw [hnames name hname, exists_typedField_cons_iff index hlabel hname]
        refine and_congr_right fun hnot => (or_iff_right ?_).symm
        rintro rfl
        exact hnot hmem
      · next hnew =>
        rw [ends_bind_iff]
        refine (hread child List.mem_cons_self space hs).mono ?_
        rintro type space₁ ⟨hs₁, hmore₁, hread₁⟩
        rw [ends_bind_iff]
        refine (ih hs₁ (index + 1) _ hrest).mono ?_
        rintro fields space' ⟨hs', hmore, hlt, hnames⟩
        refine ⟨hs', hmore₁.trans hmore, ?_, fun name hname => ?_⟩
        · exact List.forall_mem_cons.mpr ⟨hmore.lt hread₁.lt, hlt⟩
        · rw [List.exists_mem_cons_iff, hnames name hname, exists_typedField_cons_iff index hlabel hname, List.mem_cons]
          constructor
          · rintro (rfl | ⟨hnot, hother⟩)
            · exact ⟨hnew, .inl rfl⟩
            · exact ⟨fun h => hnot (.inr h), .inr hother⟩
          · rintro ⟨hnot, h | hother⟩
            · exact .inl h
            · by_cases heq : label.getD (Field.positionalName index) = name
              · exact .inl heq
              · exact .inr ⟨fun h => h.elim (fun h => heq h.symm) hnot, hother⟩
    · next hother =>
      refine (ih hs (index + 1) names hrest).mono ?_
      rintro fields space' ⟨hs', hmore, hlt, hnames⟩
      refine ⟨hs', hmore, hlt, fun name hname => ?_⟩
      rw [hnames name hname, List.exists_mem_cons_iff, or_iff_right]
      exact fun h => hother _ h

theorem instantiate_ends (hs : space.Sound) {name : String}
    (hsort : a.type? node = some (.template name))
    (hread : ∀ child ∈ nodes, ∀ space, space.Sound → Ends (read child) space (Gives a space child)) :
    Ends (instantiate a scope read node name nodes) space (Gives a space node) := by
  rw [instantiate, ends_bind_iff]
  refine (named?_ends hs name).mono ?_
  rintro found space₁ ⟨hs₁, htable, hfound⟩
  have hmore₁ : space.table.Extends space₁.table := htable ▸ .refl _
  split
  · exact gives_anything hsort rfl hs₁ hmore₁
  · next template =>
    obtain ⟨hlt, hatomic⟩ := hfound template rfl
    rw [← htable] at hlt hatomic
    rw [ends_bind_iff]
    refine (mapM_ends hs₁ hread).mono ?_
    rintro ids space₂ ⟨hs₂, hmore₂, reads, -, rfl, hreads, -⟩
    simp only [ends_bind_iff, ends_get_iff]
    split
    · rw [ends_tabling_iff]
      refine (MessageLang.instantiate_ends hs₂.table (hmore₂.lt hlt) ?_).mono ?_
      · rw [List.forall_mem_map]
        exact fun entry hentry => (hreads entry hentry).lt
      · rintro id t ⟨ht, hmore, hid, hsame⟩
        exact gives_of_isAtomic hsort rfl (hs₂.extend ht hmore)
          (hmore₁.trans (hmore₂.trans hmore)) hid (hsame (hatomic.extend hmore₂ hlt))
    · rw [ends_bind_iff, ends_report_iff, ends_pure_iff]
      exact gives_anything hsort rfl (hs₂.withLog _) (hmore₁.trans hmore₂)

/-- What reading declarations for a new type leaves. -/
structure Declares (before : TypeTable) (type : TypeId) (space : TypeSpace) : Prop where
  sound : space.Sound
  grows : before.Extends space.table
  builtins : TypeTable.initial.Extends before
  new : before.size ≤ type.index
  lt : type.index < space.table.size
  atomic : space.table.Atomic type

theorem Declares.extend {before : TypeTable} {type : TypeId} {space' : TypeSpace}
    (h : Declares before type space) (hs : space'.Sound) (hmore : space.table.Extends space'.table) :
    Declares before type space' :=
  ⟨hs, h.grows.trans hmore, h.builtins, h.new, hmore.lt h.lt, h.atomic.extend hmore h.lt⟩

/-- The type that is declared is told more. -/
theorem Declares.update {before : TypeTable} {type : TypeId} (h : Declares before type space)
    {change : Descriptor → Descriptor} (ht : (space.table.update type change).Sound)
    (hshape : ∀ d, (change d).shape = d.shape) (hvariants : ∀ d, (change d).variants = d.variants) :
    Declares before type { space with table := space.table.update type change } where
  sound := by
    refine ⟨ht, h.sound.builtins.update (h.builtins.size_le.trans h.new) change, ?_⟩
    refine h.sound.named.mono fun id hid => ⟨?_, hid.2.update (hshape _) (hvariants _)⟩
    exact hid.1.trans_eq (size_update ..).symm
  grows := h.grows.update h.new change
  builtins := h.builtins
  new := h.new
  lt := h.lt.trans_eq (size_update ..).symm
  atomic := h.atomic.update (hshape _) (hvariants _)

theorem declare_ends {before : TypeTable} {type : TypeId} {declaration : NodeId}
    (h : Declares before type space)
    (hread : ∀ child ∈ a.types declaration, ∀ space, space.Sound →
      Ends (read child) space (Gives a space child)) :
    Ends (declare a read type declaration) space fun _ => Declares before type := by
  rw [declare]
  split
  · next symbol answer _ htypes =>
    rw [htypes] at hread
    rw [ends_bind_iff]
    refine (hread answer (by simp) space h.sound).mono ?_
    rintro answer space₁ ⟨hs₁, hmore₁, hread₁⟩
    rw [ends_tabling_iff, Tabling.addSymbol, Tabling.update, ends_modify_iff]
    exact (h.extend hs₁ hmore₁).update (hs₁.table.addSymbol symbol hread₁.lt) (fun _ => rfl)
      fun _ => rfl
  · next guard answer _ htypes =>
    rw [htypes] at hread
    rw [ends_bind_iff]
    refine (hread guard (by simp) space h.sound).mono ?_
    rintro guard space₁ ⟨hs₁, hmore₁, hread₁⟩
    rw [ends_bind_iff]
    refine (hread answer (by simp) space₁ hs₁).mono ?_
    rintro answer space₂ ⟨hs₂, hmore₂, hread₂⟩
    rw [ends_tabling_iff, Tabling.addHandler, Tabling.update, ends_modify_iff]
    exact (h.extend hs₂ (hmore₁.trans hmore₂)).update
      (hs₂.table.addHandler (hmore₂.lt hread₁.lt) hread₂.lt) (fun _ => rfl) fun _ => rfl
  · exact h

/-- The new type that declarations are read for. -/
theorem simple_ends (hs : space.Sound) :
    Ends (Reading.tabling Tabling.simple) space fun type => Declares space.table type := by
  rw [ends_tabling_iff]
  refine (Tabling.simple_ends hs.table).mono ?_
  rintro type t ⟨ht, hmore, hnew, hlt, hget⟩
  exact ⟨hs.extend ht hmore, hmore, hs.builtins, hnew, hlt, .of_get hget rfl (by simp) rfl⟩

/-- What only wraps another type is read as that one. -/
theorem wrapper_ends (hs : space.Sound) {form : TypeForm} (hsort : a.type? node = some form)
    (hwraps : form.isWrapper = true)
    (hread : ∀ child ∈ a.types node, ∀ space, space.Sound →
      Ends (read child) space (Gives a space child)) :
    Ends (readForm a scope read node form) space (Gives a space node) := by
  cases form with
  | typedField _ | nestedType =>
    rw [readForm]
    cases htypes : a.types node with
    | nil =>
      refine ⟨hs, .refl _, .of_atomic hs.builtins.atomic_anything
        (hs.table.lt_of_index_le (by decide)) (Arena.not_void ?_ ?_) fun name =>
        Arena.not_names ?_ ?_ ?_⟩ <;> simp [hsort, htypes]
    | cons inner rest =>
      have hfirst : (a.types node).head? = some inner := by rw [htypes, List.head?_cons]
      refine (hread inner (by simp [htypes]) space hs).mono ?_
      rintro id space' ⟨hs', hmore, hreads⟩
      exact ⟨hs', hmore, hreads.congr (Arena.void_iff_of_wraps hsort rfl hfirst) fun name =>
        Arena.names_iff_of_wraps hsort rfl hfirst⟩
  | _ => cases hwraps

theorem compound_ends (hs : space.Sound) (hsort : a.type? node = some .compound)
    (hread : ∀ child ∈ a.types node, ∀ space, space.Sound →
      Ends (read child) space (Gives a space child)) :
    Ends (readForm a scope read node .compound) space (Gives a space node) := by
  rw [readForm, ends_bind_iff]
  refine (fieldsFrom_ends hs 0 [] hread).mono ?_
  rintro fields space₁ ⟨hs₁, hmore₁, hlt, hnames⟩
  rw [ends_tabling_iff]
  refine (Tabling.compound_ends hs₁.table hlt).mono ?_
  rintro id t ⟨ht, hmore, hnew, hid, hshape, hvariants⟩
  have hfields : t.fields? id = some fields := by
    rw [fields?, Descriptor.fields?, hshape]
  have hfield : ∀ name, t.HasField id name ↔ a.Names name node := by
    intro name
    rw [Arena.names_iff_of_compound hsort]
    constructor
    · rintro ⟨_, hsome, f, hf, hpositional, rfl⟩
      cases hfields.symm.trans hsome
      exact ⟨hpositional, ((hnames f.name hpositional).mp ⟨f, hf, rfl⟩).2⟩
    · rintro ⟨hpositional, hchild⟩
      obtain ⟨f, hf, rfl⟩ := (hnames name hpositional).mpr ⟨by simp, hchild⟩
      exact ⟨fields, hfields, f, hf, hpositional, rfl⟩
  refine ⟨hs₁.extend ht hmore, hmore₁.trans hmore, hid, ?_, hfield, fun name _ => ?_, .inl hvariants⟩
  · refine iff_of_false ?_ (Arena.not_void ?_ ?_)
    · rw [isNever, hshape]
      exact fun h => by cases h
    · simp [hsort]
    · simp +contextual [hsort, TypeForm.isWrapper]
  · exact hmore₁.size_le.trans hnew

theorem functionType_ends (hs : space.Sound) (hsort : a.type? node = some .functionType)
    (hread : ∀ child ∈ a.types node, ∀ space, space.Sound →
      Ends (read child) space (Gives a space child)) :
    Ends (readForm a scope read node .functionType) space (Gives a space node) := by
  rw [readForm]
  split
  · next argument result htypes =>
    rw [htypes] at hread
    rw [ends_bind_iff]
    refine (hread argument (by simp) space hs).mono ?_
    rintro argument space₁ ⟨hs₁, hmore₁, hread₁⟩
    rw [ends_bind_iff]
    refine (hread result (by simp) space₁ hs₁).mono ?_
    rintro result space₂ ⟨hs₂, hmore₂, hread₂⟩
    rw [ends_tabling_iff]
    refine (Tabling.function_ends hs₂.table (hmore₂.lt hread₁.lt) hread₂.lt).mono ?_
    rintro id t ⟨ht, hmore, -, hlt, hget⟩
    exact gives_of_isAtomic hsort rfl (hs₂.extend ht hmore) (hmore₁.trans (hmore₂.trans hmore)) hlt
      (.of_get hget rfl (by simp) rfl)
  · exact gives_anything hsort rfl hs (.refl _)

theorem mergedType_ends (hs : space.Sound) (hsort : a.type? node = some .mergedType)
    (hread : ∀ child ∈ a.types node, ∀ space, space.Sound →
      Ends (read child) space (Gives a space child)) :
    Ends (readForm a scope read node .mergedType) space (Gives a space node) := by
  rw [readForm, ends_bind_iff]
  refine (mapM_ends hs hread).mono ?_
  rintro ids space₁ ⟨hs₁, hmore₁, reads, hnodes, rfl, hreads, hnew⟩
  rw [ends_tabling_iff]
  refine (union_ends hs₁.table ?_).mono ?_
  · rw [List.forall_mem_map]
    exact fun entry hentry => (hreads entry hentry).lt
  · rintro union t ⟨ht, hmore, hlt, hunites⟩
    exact ⟨hs₁.extend ht hmore, hmore₁.trans hmore,
      .merged hsort hnodes hreads hnew hs₁.builtins hmore hlt hunites⟩

theorem readForm_ends (hs : space.Sound) {form : TypeForm} (hsort : a.type? node = some form)
    (hread : ∀ child ∈ a.types node, ∀ space, space.Sound →
      Ends (read child) space (Gives a space child))
    (hbelow : ∀ declaration ∈ a.types node, ∀ child ∈ a.types declaration, ∀ space, space.Sound →
      Ends (read child) space (Gives a space child)) :
    Ends (readForm a scope read node form) space (Gives a space node) := by
  cases form with
  | empty => exact gives_empty hs hsort
  | simple name =>
    rw [readForm, ends_bind_iff]
    refine (named?_ends hs name).mono ?_
    rintro found space' ⟨hs', htable, hfound⟩
    have hmore : space.table.Extends space'.table := htable ▸ .refl _
    cases found with
    | none => exact gives_anything hsort rfl hs' hmore
    | some id =>
      obtain ⟨hlt, hid⟩ := hfound id rfl
      exact gives_of_isAtomic hsort rfl hs' hmore (htable ▸ hlt) (htable ▸ hid)
  | parameter name =>
    rw [readForm]
    refine (parameter_ends hs name).mono ?_
    rintro id space' ⟨hs', hmore, hlt, hid⟩
    exact gives_of_isAtomic hsort rfl hs' hmore hlt hid
  | typedField _ | nestedType => exact wrapper_ends hs hsort rfl hread
  | compound => exact compound_ends hs hsort hread
  | template name =>
    rw [readForm]
    exact instantiate_ends hs hsort hread
  | functionType => exact functionType_ends hs hsort hread
  | mergedType => exact mergedType_ends hs hsort hread
  | inlineType =>
    rw [readForm, ends_bind_iff]
    refine (simple_ends hs).mono fun type space₁ hdeclares => ?_
    rw [ends_bind_iff]
    let inv (_ : List NodeId) (space' : TypeSpace) : Prop := Declares space.table type space'
    have hstart : inv [] space₁ := hdeclares
    refine Ends.mono (ends_forM ?_ hstart) fun _ space' h => ?_
    · exact fun _ declaration hdeclaration space₂ h =>
        declare_ends h (hbelow declaration hdeclaration)
    · exact gives_of_isAtomic hsort rfl h.sound h.grows h.lt h.atomic
  | inlineDeclaration symbol =>
    rw [readForm, ends_bind_iff]
    refine (simple_ends hs).mono fun type space₁ hdeclares => ?_
    rw [ends_bind_iff]
    refine (declare_ends hdeclares hread).mono ?_
    exact fun _ space' h => gives_of_isAtomic hsort rfl h.sound h.grows h.lt h.atomic

end

/-- Reading a tree ends, if it is given as many steps as the tree has nodes. -/
theorem readWithin_ends {parent : Option NodeId} {T : Tree} (hheld : a.Holds parent T) {height : Nat}
    (hheight : T.ids.length ≤ height) (hs : space.Sound) :
    Ends (readWithin a scope height T.id) space (Gives a space T.id) := by
  induction height generalizing parent T space with
  | zero =>
    rw [Tree.ids_eq] at hheight
    simp at hheight
  | succ height ih =>
    rw [readWithin]
    split
    · next hsort =>
      refine ⟨hs, .refl _, .of_atomic hs.builtins.atomic_anything
        (hs.table.lt_of_index_le (by decide)) (Arena.not_void ?_ ?_) fun name =>
        Arena.not_names ?_ ?_ ?_⟩ <;> simp [hsort]
    · next form hsort =>
      refine readForm_ends hs hsort (fun child hchild space hs => ?_)
        fun declaration hdeclaration child hchild space hs => ?_
      · obtain ⟨C, rfl, hC, hle⟩ := hheld.exists_type hheight hchild
        exact ih hC hle hs
      · obtain ⟨D, rfl, hD, hle⟩ := hheld.exists_type hheight hdeclaration
        obtain ⟨C, rfl, hC, hle⟩ := hD.exists_type (hle.trans (Nat.le_succ _)) hchild
        exact ih hC hle hs

theorem type_ends {parent : Option NodeId} {T : Tree} (hheld : a.Holds parent T)
    (hnodup : T.ids.Nodup) (hs : space.Sound) :
    Ends (Reading.type a scope T.id) space (Gives a space T.id) :=
  readWithin_ends hheld (hheld.length_ids_le hnodup) hs

end Reading

/-- The space that a pass starts from. -/
theorem TypeSpace.initial_sound : TypeSpace.initial.Sound where
  table := TypeTable.initial_sound
  builtins := .refl _
  named := by
    have hempty : (Scopes.empty : Scopes TypeId).All
        fun id => id.index < TypeTable.initial.size ∧ TypeTable.initial.Atomic id := by
      intro id entry hentry
      rw [Scopes.frame_empty] at hentry
      cases hentry
    have hall : ∀ entry ∈ builtinNames, entry.2.index < TypeTable.initial.size ∧
        TypeTable.initial.Atomic entry.2 := by
      have hdecide : ∀ entry ∈ builtinNames, entry.2.index < TypeTable.initial.size ∧
          TypeTable.initial.fields? entry.2 = none ∧ TypeTable.initial.isNever entry.2 = false ∧
          (TypeTable.initial.get entry.2).variants = [] := by decide +kernel
      exact fun entry hentry => (hdecide entry hentry).imp_right fun ⟨h, h', h''⟩ => ⟨h, h', h''⟩
    change Scopes.All _ TypeTable.initialScopes
    rw [TypeTable.initialScopes]
    generalize builtinNames = names at hall
    induction names using List.reverseRecOn with
    | nil => exact hempty
    | append_singleton rest entry ih =>
      rw [List.foldl_append]
      exact Scopes.All.add (ih fun other hother => hall other (by simp [hother])) _ _
        (hall entry (by simp))

end MessageLang
