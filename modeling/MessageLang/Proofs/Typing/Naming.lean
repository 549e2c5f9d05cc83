import MessageLang.Proofs.Types.Making
import MessageLang.Proofs.Types.Unions
import MessageLang.Proofs.Typing.Frames
import MessageLang.Tree.Query

namespace MessageLang

/-- Type syntax that stands for the type inside it. -/
def TypeForm.isWrapper : TypeForm → Bool
  | typedField _ | nestedType => true
  | _ => false

/-- Type syntax for types without fields that may have values. -/
def TypeForm.isAtomic : TypeForm → Bool
  | simple _ | template _ | parameter _ | functionType | inlineDeclaration _ | inlineType => true
  | _ => false

namespace Arena

/-- A written type that no value is of: a choice between no types at all. -/
inductive Void (a : Arena) : NodeId → Prop
  | inner {node inner : NodeId} {form : TypeForm} (sort : a.type? node = some form)
      (wraps : form.isWrapper = true) (first : (a.types node).head? = some inner)
      (void : a.Void inner) : a.Void node
  | merged {node : NodeId} (sort : a.type? node = some .mergedType)
      (void : ∀ alternative ∈ a.types node, a.Void alternative) : a.Void node

/-- A written type whose values have a field of a name. In a choice it counts only where there is
nothing else to choose. -/
inductive Names (a : Arena) (name : String) : NodeId → Prop
  | compound {node child : NodeId} (sort : a.type? node = some .compound)
      (mem : child ∈ a.types node) (field : a.type? child = some (.typedField (some name)))
      (named : name.startsWith "?" = false) : a.Names name node
  | inner {node inner : NodeId} {form : TypeForm} (sort : a.type? node = some form)
      (wraps : form.isWrapper = true) (first : (a.types node).head? = some inner)
      (names : a.Names name inner) : a.Names name node
  | merged {node only : NodeId} {before after : List NodeId}
      (sort : a.type? node = some .mergedType) (alternatives : a.types node = before ++ only :: after)
      (void : ∀ other ∈ before ++ after, a.Void other) (names : a.Names name only) : a.Names name node

variable {a : Arena} {node inner : NodeId} {form : TypeForm} {name : String}

theorem void_iff_of_wraps (hsort : a.type? node = some form) (hwraps : form.isWrapper = true)
    (hfirst : (a.types node).head? = some inner) : a.Void node ↔ a.Void inner := by
  constructor
  · rintro (⟨_, _, hfirst', hvoid⟩ | ⟨hsort', _⟩)
    · cases hfirst.symm.trans hfirst'
      exact hvoid
    · cases hsort.symm.trans hsort'
      cases hwraps
  · exact .inner hsort hwraps hfirst

theorem names_iff_of_wraps (hsort : a.type? node = some form) (hwraps : form.isWrapper = true)
    (hfirst : (a.types node).head? = some inner) : a.Names name node ↔ a.Names name inner := by
  constructor
  · rintro (⟨hsort', _, _, _⟩ | ⟨_, _, hfirst', hnames⟩ | ⟨hsort', _, _, _⟩)
    · cases hsort.symm.trans hsort'
      cases hwraps
    · cases hfirst.symm.trans hfirst'
      exact hnames
    · cases hsort.symm.trans hsort'
      cases hwraps
  · exact .inner hsort hwraps hfirst

theorem void_iff_of_merged (hsort : a.type? node = some .mergedType) :
    a.Void node ↔ ∀ alternative ∈ a.types node, a.Void alternative := by
  constructor
  · rintro (⟨hsort', hwraps, _, _⟩ | ⟨_, hvoid⟩)
    · cases hsort.symm.trans hsort'
      cases hwraps
    · exact hvoid
  · exact .merged hsort

theorem names_iff_of_merged (hsort : a.type? node = some .mergedType) :
    a.Names name node ↔ ∃ before only after, a.types node = before ++ only :: after ∧
      (∀ other ∈ before ++ after, a.Void other) ∧ a.Names name only := by
  constructor
  · rintro (⟨hsort', _, _, _⟩ | ⟨hsort', hwraps, _, _⟩ | ⟨_, heq, hvoid, hnames⟩)
    · cases hsort.symm.trans hsort'
    · cases hsort.symm.trans hsort'
      cases hwraps
    · exact ⟨_, _, _, heq, hvoid, hnames⟩
  · rintro ⟨before, only, after, heq, hvoid, hnames⟩
    exact .merged hsort heq hvoid hnames

theorem names_iff_of_compound (hsort : a.type? node = some .compound) :
    a.Names name node ↔ name.startsWith "?" = false ∧
      ∃ child ∈ a.types node, a.type? child = some (.typedField (some name)) := by
  constructor
  · rintro (⟨_, hmem, hfield, hnamed⟩ | ⟨hsort', hwraps, _, _⟩ | ⟨hsort', _, _, _⟩)
    · exact ⟨hnamed, _, hmem, hfield⟩
    · cases hsort.symm.trans hsort'
      cases hwraps
    · cases hsort.symm.trans hsort'
  · rintro ⟨hnamed, child, hmem, hfield⟩
    exact .compound hsort hmem hfield hnamed

/-- Only choices and what wraps them may have no values. -/
theorem not_void (hmerged : a.type? node ≠ some .mergedType)
    (hwraps : ∀ form, a.type? node = some form → form.isWrapper = true → a.types node = []) :
    ¬ a.Void node := by
  rintro (⟨hsort, hwraps', hfirst, _⟩ | ⟨hsort, _⟩)
  · rw [hwraps _ hsort hwraps'] at hfirst
    cases hfirst
  · exact hmerged hsort

theorem not_names (hcompound : a.type? node ≠ some .compound)
    (hmerged : a.type? node ≠ some .mergedType)
    (hwraps : ∀ form, a.type? node = some form → form.isWrapper = true → a.types node = []) :
    ¬ a.Names name node := by
  rintro (⟨hsort, _, _, _⟩ | ⟨hsort, hwraps', hfirst, _⟩ | ⟨hsort, _, _, _⟩)
  · exact hcompound hsort
  · rw [hwraps _ hsort hwraps'] at hfirst
    cases hfirst
  · exact hmerged hsort

end Arena

namespace TypeTable

/-- A compound type with a field that is called by a name. -/
def HasField (t : TypeTable) (id : TypeId) (name : String) : Prop :=
  ∃ fields, t.fields? id = some fields ∧ ∃ f ∈ fields, f.isPositional = false ∧ f.name = name

variable {t t' : TypeTable} {id : TypeId} {name : String} {parts : List TypeId}

theorem Extends.hasField_iff (h : t.Extends t') (hid : id.index < t.size) :
    t'.HasField id name ↔ t.HasField id name := by
  rw [HasField, HasField, fields?, fields?, h.get_eq id hid]

theorem Atomic.not_hasField (h : t.Atomic id) : ¬ t.HasField id name := by
  rintro ⟨fields, hfields, _⟩
  rw [h.fields_eq] at hfields
  cases hfields

theorem HasField.shape_eq (h : t.HasField id name) :
    ∃ fields, (t.get id).shape = .compound fields := by
  obtain ⟨fields, hfields, _⟩ := h
  rw [fields?, Descriptor.fields?] at hfields
  split at hfields
  · next hshape => exact ⟨_, hshape⟩
  · cases hfields

theorem HasField.isNever_eq (h : t.HasField id name) : t.isNever id = false := by
  obtain ⟨fields, hshape⟩ := h.shape_eq
  rw [isNever, hshape]
  rfl

theorem HasField.isAnything_eq (h : t.HasField id name) : t.isAnything id = false := by
  obtain ⟨fields, hshape⟩ := h.shape_eq
  rw [isAnything, hshape]
  rfl

theorem UnionOf.not_hasField (h : t.UnionOf parts id) : ¬ t.HasField id name := by
  rintro ⟨fields, hfields, _⟩
  rw [fields?, Descriptor.fields?, h.shape_eq] at hfields
  cases hfields

theorem UnionOf.isNever_eq (h : t.UnionOf parts id) : t.isNever id = false := by
  rw [isNever, h.shape_eq]
  rfl

end TypeTable

open TypeTable

/-- What reading a written type, in a table as it was before, comes to. -/
structure Reads (a : Arena) (before t : TypeTable) (node : NodeId) (id : TypeId) : Prop where
  lt : id.index < t.size
  never_iff : t.isNever id = true ↔ a.Void node
  hasField_iff : ∀ name, t.HasField id name ↔ a.Names name node
  new : ∀ name, t.HasField id name → before.size ≤ id.index
  variants : (t.get id).variants = [] ∨ ∃ parts, t.UnionOf parts id

variable {a : Arena} {before before' t t' : TypeTable} {node : NodeId} {id : TypeId}

theorem Reads.extend (h : Reads a before t node id) (hmore : t.Extends t') :
    Reads a before t' node id where
  lt := hmore.lt h.lt
  never_iff := by rw [hmore.isNever_eq h.lt, h.never_iff]
  hasField_iff name := by rw [hmore.hasField_iff h.lt, h.hasField_iff name]
  new name hfield := h.new name ((hmore.hasField_iff h.lt).mp hfield)
  variants := by
    rw [hmore.get_eq id h.lt]
    exact h.variants.imp_right fun ⟨parts, hunion⟩ => ⟨parts, hunion.extend hmore⟩

theorem Reads.of_le (h : Reads a before t node id) (hle : before'.size ≤ before.size) :
    Reads a before' t node id :=
  { h with new := fun name hfield => hle.trans (h.new name hfield) }

theorem Reads.of_atomic (hatomic : t.Atomic id) (hlt : id.index < t.size) (hvoid : ¬ a.Void node)
    (hnames : ∀ name, ¬ a.Names name node) : Reads a before t node id where
  lt := hlt
  never_iff := by simp [hatomic.not_never, hvoid]
  hasField_iff name := by simp [hatomic.not_hasField, hnames name]
  new name hfield := (hatomic.not_hasField hfield).elim
  variants := .inl hatomic.variants_eq

theorem Reads.of_isAtomic {form : TypeForm} (hatomic : t.Atomic id) (hlt : id.index < t.size)
    (hsort : a.type? node = some form) (hform : form.isAtomic = true) : Reads a before t node id := by
  have hwraps : ∀ other, a.type? node = some other → other.isWrapper = true → a.types node = [] := by
    intro other hother hwraps
    cases hsort.symm.trans hother
    cases form <;> simp_all [TypeForm.isAtomic, TypeForm.isWrapper]
  refine .of_atomic hatomic hlt (Arena.not_void ?_ hwraps) fun name =>
    Arena.not_names ?_ ?_ hwraps
  all_goals
    intro hother
    cases hsort.symm.trans hother
    cases hform

theorem Reads.congr {other : NodeId} (h : Reads a before t node id)
    (hvoid : a.Void other ↔ a.Void node) (hnames : ∀ name, a.Names name other ↔ a.Names name node) :
    Reads a before t other id where
  lt := h.lt
  never_iff := h.never_iff.trans hvoid.symm
  hasField_iff name := (h.hasField_iff name).trans (hnames name).symm
  new := h.new
  variants := h.variants

theorem Reads.variants_of_never (h : Reads a before t node id) (hnever : t.isNever id = true) :
    (t.get id).variants = [] := by
  rcases h.variants with hnil | ⟨parts, hunion⟩
  · exact hnil
  · rw [hunion.isNever_eq] at hnever
    cases hnever

section

variable {reads : List (NodeId × TypeId)} {union only : TypeId}

/-- Where a union has one part, that is what all alternatives are which may have values. -/
private theorem eq_of_unionParts_eq_singleton (hreads : ∀ entry ∈ reads, Reads a before t entry.1 entry.2)
    (hparts : t.unionParts (reads.map (·.2)) = [only]) {entry : NodeId × TypeId}
    (hentry : entry ∈ reads) (hnever : t.isNever entry.2 = false) :
    entry.2 = only ∧ (t.get only).variants = [] := by
  have hall : ∀ part ∈ t.alternatives entry.2, t.isNever part = false → part = only := by
    intro part hpart hpartNever
    have hmem := mem_unionParts.mpr ⟨⟨entry.2, List.mem_map_of_mem hentry, hpart⟩, hpartNever⟩
    rw [hparts] at hmem
    exact List.mem_singleton.mp hmem
  rcases (hreads entry hentry).variants with hnil | ⟨parts, hunion⟩
  · rw [alternatives_of_variants_nil hnil] at hall
    have heq := hall entry.2 (List.mem_singleton_self _) hnever
    exact ⟨heq, heq ▸ hnil⟩
  · rw [hunion.alternatives_eq] at hall
    match parts, hunion.two_le_length, hunion.nodup, hunion.not_never, hall with
    | x :: y :: _, _, hnodup, hnot, hall =>
      have hx := hall x (by simp) (hnot x (by simp))
      have hy := hall y (by simp) (hnot y (by simp))
      simp [hx, hy] at hnodup

/-- A union has no parts just if nothing that it is made of has values. -/
private theorem unionParts_eq_nil_iff (hreads : ∀ entry ∈ reads, Reads a before t entry.1 entry.2) :
    t.unionParts (reads.map (·.2)) = [] ↔ ∀ entry ∈ reads, a.Void entry.1 := by
  rw [List.eq_nil_iff_forall_not_mem]
  constructor
  · intro hnone entry hentry
    have hread := hreads entry hentry
    rw [← hread.never_iff]
    by_contra hnever
    rw [Bool.not_eq_true] at hnever
    have hmem : ∀ part ∈ t.alternatives entry.2, t.isNever part = true := fun part hpart => by
      by_contra hnot
      exact hnone part (mem_unionParts.mpr
        ⟨⟨entry.2, List.mem_map_of_mem hentry, hpart⟩, by simpa using hnot⟩)
    rcases hread.variants with hnil | ⟨parts, hunion⟩
    · rw [alternatives_of_variants_nil hnil] at hmem
      simp [hmem entry.2 (List.mem_singleton_self _)] at hnever
    · rw [hunion.alternatives_eq] at hmem
      match parts, hunion.two_le_length, hunion.not_never, hmem with
      | x :: _, _, hnot, hmem => simpa [hnot x (by simp)] using hmem x (by simp)
  · intro hvoid part hpart
    obtain ⟨⟨id, hid, hpart⟩, hnever⟩ := mem_unionParts.mp hpart
    obtain ⟨entry, hentry, rfl⟩ := List.mem_map.mp hid
    have hread := hreads entry hentry
    have htrue := hread.never_iff.mpr (hvoid entry hentry)
    rw [alternatives_of_variants_nil (hread.variants_of_never htrue)] at hpart
    rw [List.mem_singleton.mp hpart, htrue] at hnever
    cases hnever

/-- Among alternatives with values of which one has a field, it is the only one. -/
private theorem unionParts_eq_singleton (hreads : ∀ entry ∈ reads, Reads a before t entry.1 entry.2)
    {earlier later : List (NodeId × TypeId)} {entry : NodeId × TypeId}
    (heq : reads = earlier ++ entry :: later) (hvoid : ∀ other ∈ earlier ++ later, a.Void other.1)
    {name : String} (hfield : t.HasField entry.2 name) :
    t.unionParts (reads.map (·.2)) = [entry.2] := by
  have hentry : entry ∈ reads := by simp [heq]
  have hnil : (t.get entry.2).variants = [] := by
    rcases (hreads entry hentry).variants with hnil | ⟨_, hunion⟩
    · exact hnil
    · exact (hunion.not_hasField hfield).elim
  have hall : ∀ part ∈ t.unionParts (reads.map (·.2)), part = entry.2 := by
    intro part hpart
    obtain ⟨⟨id, hid, hpart⟩, hnever⟩ := mem_unionParts.mp hpart
    obtain ⟨other, hother, rfl⟩ := List.mem_map.mp hid
    by_cases hsame : other = entry
    · subst hsame
      rw [alternatives_of_variants_nil hnil] at hpart
      exact List.mem_singleton.mp hpart
    · have hread := hreads other hother
      have hmem : other ∈ earlier ++ later := by
        rw [heq] at hother
        simpa [hsame] using hother
      have htrue := hread.never_iff.mpr (hvoid other hmem)
      rw [alternatives_of_variants_nil (hread.variants_of_never htrue)] at hpart
      rw [List.mem_singleton.mp hpart, htrue] at hnever
      cases hnever
  have hmem : entry.2 ∈ t.unionParts (reads.map (·.2)) := by
    refine mem_unionParts.mpr ⟨⟨entry.2, List.mem_map_of_mem hentry, ?_⟩,
      hfield.isNever_eq⟩
    rw [alternatives_of_variants_nil hnil]
    exact List.mem_singleton_self _
  have hnodup := nodup_unionParts t (reads.map (·.2))
  refine List.perm_singleton.mp ((List.perm_ext_iff_of_nodup hnodup (List.nodup_singleton _)).mpr
    fun part => ⟨fun h => List.mem_singleton.mpr (hall part h), fun h => ?_⟩)
  rw [List.mem_singleton.mp h]
  exact hmem

/-- A choice names what its only alternative with values names. -/
private theorem unionParts_eq_of_names (hsort : a.type? node = some .mergedType)
    (hnodes : reads.map (·.1) = a.types node)
    (hreads : ∀ entry ∈ reads, Reads a before t entry.1 entry.2) {name : String}
    (hnames : a.Names name node) :
    ∃ entry ∈ reads, t.HasField entry.2 name ∧ t.unionParts (reads.map (·.2)) = [entry.2] := by
  obtain ⟨before, only, after, heq, hvoid, honly⟩ := (Arena.names_iff_of_merged hsort).mp hnames
  rw [← hnodes] at heq
  obtain ⟨earlier, rest, hreads_eq, rfl, hrest⟩ := List.map_eq_append_iff.mp heq
  obtain ⟨entry, later, rfl, rfl, rfl⟩ := List.map_eq_cons_iff.mp hrest
  have hentry : entry ∈ reads := by simp [hreads_eq]
  have hfield := ((hreads entry hentry).hasField_iff name).mpr honly
  refine ⟨entry, hentry, hfield, unionParts_eq_singleton hreads hreads_eq (fun other hother => ?_) hfield⟩
  rw [← List.map_append] at hvoid
  exact hvoid other.1 (List.mem_map_of_mem hother)

/-- An alternative with a field is the only one with values if it is what the choice comes to:
another one would be the same type, which is newer than it is. -/
private theorem names_of_hasField (hsort : a.type? node = some .mergedType)
    (hnodes : reads.map (·.1) = a.types node)
    (hreads : ∀ entry ∈ reads, Reads a before t entry.1 entry.2)
    (hnew : reads.Pairwise fun x y => ∀ name, t.HasField y.2 name → x.2.index < y.2.index)
    {entry : NodeId × TypeId} (hentry : entry ∈ reads)
    (hone : t.unionParts (reads.map (·.2)) = [entry.2]) {name : String}
    (hfield : t.HasField entry.2 name) : a.Names name node := by
  obtain ⟨earlier, later, heq⟩ := List.append_of_mem hentry
  refine (Arena.names_iff_of_merged hsort).mpr ⟨earlier.map (·.1), entry.1, later.map (·.1), ?_, ?_,
    ((hreads entry hentry).hasField_iff name).mp hfield⟩
  · rw [← hnodes, heq, List.map_append, List.map_cons]
  · rw [← List.map_append, List.forall_mem_map]
    intro other hother
    have hmem : other ∈ reads := by
      rw [heq]
      rcases List.mem_append.mp hother with h | h <;> simp [h]
    rw [← (hreads other hmem).never_iff]
    by_contra hmay
    have hsame := (eq_of_unionParts_eq_singleton hreads hone hmem (by simpa using hmay)).1
    rw [heq, List.pairwise_append, List.pairwise_cons] at hnew
    rcases List.mem_append.mp hother with hother | hother
    · have hless := hnew.2.2 other hother entry List.mem_cons_self name hfield
      rw [hsame] at hless
      exact Nat.lt_irrefl _ hless
    · have hless := hnew.2.1.1 other hother name (hsame ▸ hfield)
      rw [hsame] at hless
      exact Nat.lt_irrefl _ hless

/-- A choice of which one alternative only has values is read as that one. -/
private theorem reads_of_unionParts_eq_singleton (hsort : a.type? node = some .mergedType)
    (hnodes : reads.map (·.1) = a.types node)
    (hreads : ∀ entry ∈ reads, Reads a before t entry.1 entry.2)
    (hnew : reads.Pairwise fun x y => ∀ name, t.HasField y.2 name → x.2.index < y.2.index)
    (hmore : t.Extends t') (hlt : only.index < t'.size)
    (hone : t.unionParts (reads.map (·.2)) = [only]) (hnot : ¬ a.Void node) :
    Reads a before t' node only := by
  have hmay : ∃ entry ∈ reads, t.isNever entry.2 = false := by
    by_contra hall
    push Not at hall
    refine hnot ((Arena.void_iff_of_merged hsort).mpr ?_)
    rw [← hnodes, List.forall_mem_map]
    exact fun entry hentry => (hreads entry hentry).never_iff.mp (by simpa using hall entry hentry)
  obtain ⟨entry, hentry, hnever⟩ := hmay
  have hread := hreads entry hentry
  obtain ⟨rfl, hnil⟩ := eq_of_unionParts_eq_singleton hreads hone hentry hnever
  refine ⟨hlt, ?_, fun name => ?_, fun name h => ?_, .inl ?_⟩
  · simp [hmore.isNever_eq hread.lt, hnever, hnot]
  · rw [hmore.hasField_iff hread.lt]
    refine ⟨names_of_hasField hsort hnodes hreads hnew hentry hone, fun h => ?_⟩
    obtain ⟨other, _, hfield, hother⟩ := unionParts_eq_of_names hsort hnodes hreads h
    rw [hone] at hother
    rwa [(List.cons.inj hother).1]
  · exact hread.new name ((hmore.hasField_iff hread.lt).mp h)
  · rw [hmore.get_eq _ hread.lt]
    exact hnil

/-- A choice read from what its alternatives are read as. -/
theorem Reads.merged (hsort : a.type? node = some .mergedType)
    (hnodes : reads.map (·.1) = a.types node)
    (hreads : ∀ entry ∈ reads, Reads a before t entry.1 entry.2)
    (hnew : reads.Pairwise fun x y => ∀ name, t.HasField y.2 name → x.2.index < y.2.index)
    (hbuiltin : initial.Extends t) (hmore : t.Extends t') (hlt : union.index < t'.size)
    (hunites : t'.Unites (t.unionParts (reads.map (·.2))) union) :
    Reads a before t' node union := by
  have hvoid_iff : a.Void node ↔ t.unionParts (reads.map (·.2)) = [] := by
    rw [Arena.void_iff_of_merged hsort, ← hnodes, List.forall_mem_map, unionParts_eq_nil_iff hreads]
  have hnames : ∀ name, a.Names name node → ∃ entry ∈ reads, t.HasField entry.2 name ∧
      t.unionParts (reads.map (·.2)) = [entry.2] :=
    fun _ => unionParts_eq_of_names hsort hnodes hreads
  rcases hunites with ⟨rfl, part, hpart, hany⟩ | ⟨hnil, rfl⟩ | hone | hunion
  · refine Reads.of_atomic (hbuiltin.trans hmore).atomic_anything hlt (fun hvoid => ?_) fun name h => ?_
    · rw [hvoid_iff.mp hvoid] at hpart
      cases hpart
    · obtain ⟨entry, hentry, hfield, hone⟩ := hnames name h
      rw [hone, List.mem_singleton] at hpart
      subst hpart
      rw [((hmore.hasField_iff (hreads entry hentry).lt).mpr hfield).isAnything_eq] at hany
      cases hany
  · have hget := (hbuiltin.trans hmore).get_never
    have hnever : t'.isNever .never = true := by
      rw [isNever, hget]
      rfl
    have hfield : ∀ name, ¬ t'.HasField .never name := fun name h => by
      rw [h.isNever_eq] at hnever
      cases hnever
    refine ⟨hlt, iff_of_true hnever (hvoid_iff.mpr hnil), fun name => iff_of_false (hfield name) fun h => ?_,
      fun name h => (hfield name h).elim, .inl (by rw [hget])⟩
    obtain ⟨entry, _, _, hone⟩ := hnames name h
    rw [hnil] at hone
    cases hone
  · exact reads_of_unionParts_eq_singleton hsort hnodes hreads hnew hmore hlt hone
      (by simp [hvoid_iff, hone])
  · have htwo := hunion.two_le_length
    refine ⟨hlt, ?_, fun name => iff_of_false hunion.not_hasField fun h => ?_,
      fun name h => (hunion.not_hasField h).elim, .inr ⟨_, hunion⟩⟩
    · rw [hvoid_iff, hunion.isNever_eq]
      refine iff_of_false (by simp) fun hnil => ?_
      simp [hnil] at htwo
    · obtain ⟨entry, _, _, hone⟩ := hnames name h
      simp [hone] at htwo

end

end MessageLang
