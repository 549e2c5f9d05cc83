import MessageLang.Proofs.Typing.Spaces

namespace MessageLang

open TypeTable TypeSpace

namespace Reading

variable {α β : Type} {a : Arena} {scope : ScopeId} {node : NodeId} {space : TypeSpace}
  {read : NodeId → Reading TypeId} {nodes : List NodeId} {there : α → TypeTable → Prop}

/-- A step that ends wherever types can be read in a frame, and goes on from there. What it gives is
made of types that there are then. -/
def Carries (scope : ScopeId) (step : Reading α) (there : α → TypeTable → Prop) : Prop :=
  ∀ space, space.Valid scope →
    Ends step space fun x space' => Continues scope space space' ∧ there x space'.table

/-- A step that gives a type. -/
abbrev Makes (scope : ScopeId) (step : Reading TypeId) : Prop :=
  Carries scope step fun id t => id.index < t.size

theorem Carries.bind {step : Reading α} {next : α → Reading β} {there' : β → TypeTable → Prop}
    (h : Carries scope step there)
    (hnext : ∀ x space, space.Valid scope → there x space.table →
      Ends (next x) space fun y space' => Continues scope space space' ∧ there' y space'.table) :
    Carries scope (step >>= next) there' := fun space hs =>
  (h space hs).bind fun x _ ⟨hmore, hx⟩ =>
    (hnext x _ hmore.1 hx).mono fun _ _ => And.imp_left (hmore.trans hs)

theorem carries_pure {x : α} (hx : ∀ t : TypeTable, t.Regular → there x t) :
    Carries scope (pure x) there := fun _ hs => ⟨.refl hs, hx _ hs.table⟩

theorem makes_builtin {id : TypeId} (hid : id.index ≤ TypeId.array.index) :
    Makes scope (pure id) := carries_pure fun _ ht => ht.lt_of_index_le hid

theorem carries_report {problem : Problem} :
    Carries scope (Reading.report a node problem) fun _ _ => True := fun _ hs =>
  ⟨.of_log hs _, trivial⟩

/-- Adding a type to the table. -/
theorem tabling_makes {change : Tabling TypeId} (hs : space.Valid scope)
    (h : Ends change space.table space.table.Gives) :
    Ends (Reading.tabling change) space fun id space' =>
      Continues scope space space' ∧ id.index < space'.table.size := by
  rw [ends_tabling_iff]
  exact h.mono fun _ _ h => ⟨.of_table hs h.regular h.retains, h.lt⟩

theorem named?_carries (name : String) :
    Carries scope (named? a scope node name) fun found t => ∀ id ∈ found, id.index < t.size := by
  intro space hs
  rw [named?, ends_bind_iff, ends_get_iff]
  split
  · next id hid =>
    refine ⟨.refl hs, fun other hother => ?_⟩
    cases hother
    exact hs.named.get? hid
  · exact ⟨.of_log hs _, by simp⟩

/-- A parameter is what its name means. If it means nothing, it does from then on. -/
theorem parameter_makes (name : String) : Makes scope (parameter scope name) := by
  intro space hs
  rw [parameter, ends_bind_iff, ends_get_iff]
  split
  · next id hid => exact ⟨.refl hs, hs.named.get? hid⟩
  · next hnone =>
    simp only [ends_bind_iff, ends_tabling_iff, ends_modify_iff, ends_pure_iff]
    refine (Tabling.wildcard_gives hs.table _).mono ?_
    rintro id t ⟨hgives, hnew, hwildcard⟩
    have hs' := (hs.withTable hgives.regular hgives.retains).bind ("$" ++ name) hgives.lt
    refine ⟨⟨hs', [("$" ++ name, id)], ?_⟩, hgives.lt⟩
    exact {
      table := hgives.retains
      frame_eq := fun _ => Scopes.frame_add_of_ne _ _ _
      frame_self := Scopes.frame_add_self _ _ _ hs.lt
      unbound := List.forall_mem_singleton.mpr hnone
      fresh := List.forall_mem_singleton.mpr ⟨hnew, hwildcard⟩
      nodup_names := List.nodup_singleton _
      nodup_wildcards := List.nodup_singleton _ }

section

variable (hread : ∀ child ∈ nodes, Makes scope (read child))
include hread

theorem mapM_carries :
    Carries scope (nodes.mapM read) fun ids t => ∀ id ∈ ids, id.index < t.size := by
  intro space hs
  let inv (_ : List NodeId) (ids : List TypeId) (space' : TypeSpace) : Prop :=
    Continues scope space space' ∧ ∀ id ∈ ids, id.index < space'.table.size
  have hstart : inv [] [] space := ⟨.refl hs, fun _ h => nomatch h⟩
  refine ends_mapM ?_ hstart
  rintro _ child hchild ids space₁ ⟨hmore, hids⟩
  refine (hread child hchild space₁ hmore.1).mono ?_
  rintro id space₂ ⟨hmore', hid⟩
  refine ⟨hmore.trans hs hmore', ?_⟩
  rw [List.forall_mem_append, List.forall_mem_singleton]
  exact ⟨fun other hother => hmore'.lt (hids other hother), hid⟩

theorem fieldsFrom_carries (index : Nat) (names : List String) :
    Carries scope (fieldsFrom a read index names nodes) fun fields t =>
      ∀ f ∈ fields, f.type.index < t.size := by
  induction nodes generalizing index names with
  | nil => exact carries_pure (by simp)
  | cons child rest ih =>
    obtain ⟨hchild, hrest⟩ := List.forall_mem_cons.mp hread
    rw [fieldsFrom]
    split
    · dsimp only
      split
      · exact carries_report.bind fun _ space hs _ => ih hrest _ _ space hs
      · refine hchild.bind fun type space hs htype => ?_
        rw [ends_bind_iff]
        refine (ih hrest _ _ space hs).mono ?_
        rintro fields space' ⟨hmore, hfields⟩
        exact ⟨hmore, List.forall_mem_cons.mpr ⟨hmore.lt htype, hfields⟩⟩
    · exact ih hrest _ _

theorem instantiate_makes (name : String) :
    Makes scope (instantiate a scope read node name nodes) := by
  refine (named?_carries name).bind fun found space hs hfound => ?_
  split
  · exact makes_builtin (by decide) space hs
  · next template =>
    rw [ends_bind_iff]
    refine (mapM_carries hread space hs).mono fun arguments space₁ ⟨hmore, harguments⟩ => ?_
    rw [ends_bind_iff, ends_get_iff]
    dsimp only
    split
    · have htemplate := hmore.lt (hfound template rfl)
      refine (tabling_makes hmore.1 (Tabling.instantiate_gives hmore.1.table htemplate harguments)).mono
        fun _ _ => And.imp_left (hmore.trans hs)
    · rw [ends_bind_iff, ends_report_iff]
      exact ⟨hmore.trans hs (.of_log hmore.1 _), hmore.1.table.lt_of_index_le (by decide)⟩

end

theorem declare_carries {type : TypeId} {declaration : NodeId}
    (hread : ∀ child ∈ a.types declaration, Makes scope (read child)) :
    Carries scope (declare a read type declaration) fun _ _ => True := by
  rw [declare]
  split
  · next answer _ htypes =>
    rw [htypes] at hread
    refine (hread answer (by simp)).bind fun answer space hs hanswer => ?_
    rw [ends_tabling_iff]
    refine (Tabling.addSymbol_keeps hs.table _ hanswer).mono ?_
    rintro _ _ ⟨ht, hretains⟩
    exact ⟨.of_table hs ht hretains, trivial⟩
  · next guard answer _ htypes =>
    rw [htypes] at hread
    refine (hread guard (by simp)).bind fun guard space hs hguard => ?_
    rw [ends_bind_iff]
    refine (hread answer (by simp) space hs).mono ?_
    rintro answer space₁ ⟨hmore, hanswer⟩
    rw [ends_tabling_iff]
    refine (Tabling.addHandler_keeps hmore.1.table (hmore.lt hguard) hanswer).mono ?_
    rintro _ _ ⟨ht, hretains⟩
    exact ⟨hmore.trans hs (.of_table hmore.1 ht hretains), trivial⟩
  · exact carries_pure fun _ _ => trivial

theorem readForm_makes {form : TypeForm} (hread : ∀ child ∈ a.types node, Makes scope (read child))
    (hbelow : ∀ declaration ∈ a.types node, ∀ child ∈ a.types declaration, Makes scope (read child)) :
    Makes scope (readForm a scope read node form) := by
  have hsimple : Makes scope (Reading.tabling Tabling.simple) := fun _ hs =>
    tabling_makes hs (Tabling.simple_gives hs.table)
  cases form with
  | empty => exact makes_builtin (by decide)
  | simple name =>
    refine (named?_carries name).bind fun found space hs hfound => ?_
    cases found with
    | none => exact makes_builtin (by decide) space hs
    | some id => exact ⟨.refl hs, hfound id rfl⟩
  | parameter name => exact parameter_makes name
  | typedField _ | nestedType =>
    rw [readForm]
    split
    · next inner _ htypes => exact hread inner (by simp [htypes])
    · exact makes_builtin (by decide)
  | compound =>
    exact (fieldsFrom_carries hread 0 []).bind fun _ _ hs hfields =>
      tabling_makes hs (Tabling.compound_gives hs.table hfields)
  | template name => exact instantiate_makes hread name
  | functionType =>
    rw [readForm]
    split
    · next argument result htypes =>
      rw [htypes] at hread
      refine (hread argument (by simp)).bind fun argument space hs hargument => ?_
      rw [ends_bind_iff]
      refine (hread result (by simp) space hs).mono ?_
      rintro result space₁ ⟨hmore, hresult⟩
      refine (tabling_makes hmore.1
        (Tabling.function_gives hmore.1.table (hmore.lt hargument) hresult)).mono ?_
      exact fun _ _ => And.imp_left (hmore.trans hs)
    · exact makes_builtin (by decide)
  | mergedType =>
    exact (mapM_carries hread).bind fun _ _ hs hids =>
      tabling_makes hs (Tabling.union_gives hs.table hids)
  | inlineType =>
    refine hsimple.bind fun type space hs htype => ?_
    rw [ends_bind_iff]
    let inv (_ : List NodeId) (space' : TypeSpace) : Prop := Continues scope space space'
    have hstart : inv [] space := .refl hs
    refine Ends.mono (ends_forM ?_ hstart) fun _ space' hmore => ⟨hmore, Continues.lt hmore htype⟩
    intro _ declaration hdeclaration space₁ hmore
    exact (declare_carries (hbelow declaration hdeclaration) space₁ hmore.1).mono
      fun _ _ h => Continues.trans hmore hs h.1
  | inlineDeclaration symbol =>
    refine hsimple.bind fun type space hs htype => ?_
    rw [ends_bind_iff]
    refine (declare_carries hread space hs).mono ?_
    rintro _ _ ⟨hmore, _⟩
    exact ⟨hmore, hmore.lt htype⟩

/-- Reading a tree ends in every space, if it is given as many steps as the tree has nodes. -/
theorem readWithin_makes {parent : Option NodeId} {T : Tree} (hheld : a.Holds parent T) {height : Nat}
    (hheight : T.ids.length ≤ height) : Makes scope (readWithin a scope height T.id) := by
  induction height generalizing parent T with
  | zero =>
    rw [Tree.ids_eq] at hheight
    simp at hheight
  | succ height ih =>
    rw [readWithin]
    split
    · exact makes_builtin (by decide)
    · refine readForm_makes (fun child hchild => ?_) fun declaration hdeclaration child hchild => ?_
      · obtain ⟨C, rfl, hC, hle⟩ := hheld.exists_type hheight hchild
        exact ih hC hle
      · obtain ⟨D, rfl, hD, hle⟩ := hheld.exists_type hheight hdeclaration
        obtain ⟨C, rfl, hC, hle⟩ := hD.exists_type (hle.trans (Nat.le_succ _)) hchild
        exact ih hC hle

/-- Reading a tree ends in every space, and goes on from there. -/
theorem type_makes {parent : Option NodeId} {T : Tree} (hheld : a.Holds parent T)
    (hnodup : T.ids.Nodup) : Makes scope (Reading.type a scope T.id) :=
  readWithin_makes hheld (hheld.length_ids_le hnodup)

end Reading

end MessageLang
