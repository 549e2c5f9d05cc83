import MessageLang.Proofs.Types.Flattening
import MessageLang.Proofs.Types.Images

namespace MessageLang

/-- The types with variants that a table has beyond those of another one. -/
def TypeTable.unionsBeyond (t t' : TypeTable) : List TypeId :=
  ((List.range t'.size).map TypeId.mk).filter fun id => t.size ≤ id.index ∧ (t'.get id).variants ≠ []

/-- What can be done with the types of a table, short of telling them more. -/
inductive TypeStep where
  | compound (fields : List Field)
  | simple
  | wildcard (name : String)
  | function (argument result : TypeId)
  | union (ids : List TypeId)
  | substitute (id : TypeId) (map : Substitution)
  | instantiate (template : TypeId) (arguments : List TypeId)

namespace TypeStep

def run : TypeStep → Tabling TypeId
  | compound fields => Tabling.compound fields
  | simple => Tabling.simple
  | wildcard name => Tabling.wildcard name
  | function argument result => Tabling.function argument result
  | union ids => Tabling.union ids
  | substitute id map => Tabling.substitute id map
  | instantiate template arguments => Tabling.instantiate template arguments

/-- The types that a step is about, or puts in. -/
def operands : TypeStep → List TypeId
  | compound fields => fields.map (·.type)
  | simple => []
  | wildcard _ => []
  | function argument result => [argument, result]
  | union ids => ids
  | substitute id map => id :: map.map (·.2)
  | instantiate template arguments => template :: arguments

/-- The copies of unions that a step added to a table. Nothing but putting types in place of others
copies types. -/
def copies (step : TypeStep) (t t' : TypeTable) : List TypeId :=
  match step with
  | substitute .. | instantiate .. => t.unionsBeyond t'
  | _ => []

end TypeStep

namespace TypeTable

/-- The tables that one comes to from the initial one by such steps, with the copies of unions that
were made on the way. -/
inductive Built : TypeTable → List TypeId → Prop
  | initial : Built initial []
  | step {t t' : TypeTable} {copies : List TypeId} {id : TypeId} (h : Built t copies)
      (step : TypeStep) (hoperands : ∀ id ∈ step.operands, id.index < t.size)
      (hrun : step.run t = .ok (id, t')) : Built t' (copies ++ step.copies t t')

/-- A union as it is made: it is known as the union of its variants, which are distinct and neither
for no value nor for all. -/
structure Canonical (t : TypeTable) (id : TypeId) : Prop where
  lookup_eq : t.unions.lookup (t.get id).variants = some id
  nodup : (t.get id).variants.Nodup
  not_never : ∀ part ∈ (t.get id).variants, t.isNever part = false
  not_anything : ∀ part ∈ (t.get id).variants, t.isAnything part = false

/-- None of some types is a union with a union among its variants. -/
def NoneNested (t : TypeTable) (ids : List TypeId) : Prop :=
  ∀ id ∈ ids, ∀ part ∈ (t.get id).variants, (t.get part).variants = []

/-- What holds of the types with variants in every table that one comes to. Copies are never known
as the union of anything. -/
structure Normal (t : TypeTable) (copies : List TypeId) : Prop where
  sound : t.Sound
  grows : initial.Extends t
  copy_lt : ∀ copy ∈ copies, copy.index < t.size
  two_le_length : ∀ id, (t.get id).variants ≠ [] → 2 ≤ (t.get id).variants.length
  not_mem_variants : ∀ id, id ∉ (t.get id).variants
  canonical : ∀ id, (t.get id).variants ≠ [] → id ∉ copies → t.Canonical id
  not_copy : ∀ parts union, t.unions.lookup parts = some union → union ∉ copies
  variants_nil : t.NoneNested copies →
    ∀ id, ∀ part ∈ (t.get id).variants, (t.get part).variants = []

variable {t t' t'' : TypeTable} {copies : List TypeId} {id : TypeId} {ids : List TypeId}

/-- A union united alone is that union. -/
theorem Canonical.united?_eq (h : t.Canonical id) (htwo : 2 ≤ (t.get id).variants.length) :
    t.united? [id] = some id := by
  have halternatives : t.alternatives id = (t.get id).variants :=
    alternatives_of_variants_ne_nil (List.ne_nil_of_length_pos (Nat.lt_of_succ_lt htwo))
  have hparts : t.unionParts [id] = (t.get id).variants := by
    rw [unionParts_singleton, halternatives]
    · rw [halternatives]
      exact h.nodup
    · rw [halternatives]
      exact h.not_never
  rw [united?_eq_lookup, hparts, h.lookup_eq]
  · rw [hparts]
    exact h.not_anything
  · rw [hparts]
    exact htwo

theorem Canonical.extend (h : t.Canonical id) (ht : t.Closed) (hid : id.index < t.size)
    (hgrows : t.Extends t') (hkeeps : Persists t.unions t'.unions) : t'.Canonical id := by
  have hpart : ∀ part ∈ (t.get id).variants, part.index < t.size := fun part hpart =>
    ht.variant_lt hpart
  have hsame := hgrows.get_eq id hid
  constructor
  case lookup_eq =>
    rw [hsame]
    exact hkeeps _ _ h.lookup_eq
  case nodup =>
    rw [hsame]
    exact h.nodup
  case not_never =>
    intro part hmem
    rw [hsame] at hmem
    rw [hgrows.isNever_eq (hpart part hmem)]
    exact h.not_never part hmem
  case not_anything =>
    intro part hmem
    rw [hsame] at hmem
    rw [isAnything, hgrows.get_eq part (hpart part hmem)]
    exact h.not_anything part hmem

theorem lt_of_variants_ne_nil (h : (t.get id).variants ≠ []) : id.index < t.size := by
  by_contra hge
  rw [get_eq_default_of_le (Nat.le_of_not_lt hge)] at h
  exact h rfl

theorem Normal.noneNested (h : t.Normal copies) (hgrows : t.Extends t') {more : List TypeId}
    (hnone : t'.NoneNested (copies ++ more)) : t.NoneNested copies := by
  intro copy hcopy part hpart
  rw [← hgrows.get_eq part (h.sound.closed.variant_lt hpart)]
  apply hnone copy (List.mem_append_left _ hcopy) part
  rw [hgrows.get_eq copy (h.copy_lt copy hcopy)]
  exact hpart

/-- What a step may add to a table as a type with variants. -/
structure Addable (t : TypeTable) (copies more : List TypeId) (id : TypeId) : Prop where
  two_le_length : 2 ≤ (t.get id).variants.length
  not_mem_variants : id ∉ (t.get id).variants
  canonical : id ∉ more → t.Canonical id
  variants_nil : t.NoneNested (copies ++ more) →
    ∀ part ∈ (t.get id).variants, (t.get part).variants = []

/-- A step that leaves all types as they are keeps to it, if what it adds does. -/
theorem Normal.grow (h : t.Normal copies) (hsound : t'.Sound) (hgrows : t.Extends t')
    (hkeeps : Persists t.unions t'.unions) {more : List TypeId}
    (hmore : ∀ copy ∈ more, t.size ≤ copy.index ∧ copy.index < t'.size)
    (hlookup : ∀ parts union, t'.unions.lookup parts = some union →
      t.unions.lookup parts = some union ∨ t.size ≤ union.index ∧ union ∉ more)
    (hadds : ∀ id : TypeId, t.size ≤ id.index → (t'.get id).variants ≠ [] →
      t'.Addable copies more id) : t'.Normal (copies ++ more) := by
  have hclosed := h.sound.closed
  have hold : ∀ id, (t'.get id).variants ≠ [] →
      id.index < t.size ∧ t'.get id = t.get id ∨ t'.Addable copies more id := by
    intro id hvariants
    by_cases hid : id.index < t.size
    · exact .inl ⟨hid, hgrows.get_eq id hid⟩
    · exact .inr (hadds id (Nat.le_of_not_lt hid) hvariants)
  constructor
  case sound =>
    exact hsound
  case grows =>
    exact h.grows.trans hgrows
  case copy_lt =>
    intro copy hcopy
    rcases List.mem_append.mp hcopy with hcopy | hcopy
    · exact hgrows.lt (h.copy_lt copy hcopy)
    · exact (hmore copy hcopy).2
  case two_le_length =>
    intro id hvariants
    rcases hold id hvariants with ⟨-, heq⟩ | hadd
    · rw [heq] at hvariants ⊢
      exact h.two_le_length id hvariants
    · exact hadd.two_le_length
  case not_mem_variants =>
    intro id hself
    rcases hold id (List.ne_nil_of_mem hself) with ⟨-, heq⟩ | hadd
    · rw [heq] at hself
      exact h.not_mem_variants id hself
    · exact hadd.not_mem_variants hself
  case canonical =>
    intro id hvariants hfresh
    rcases hold id hvariants with ⟨hid, heq⟩ | hadd
    · rw [heq] at hvariants
      have hcopies : id ∉ copies := fun hmem => hfresh (List.mem_append_left _ hmem)
      exact (h.canonical id hvariants hcopies).extend hclosed hid hgrows hkeeps
    · exact hadd.canonical fun hmem => hfresh (List.mem_append_right _ hmem)
  case not_copy =>
    intro parts union hunion hcopy
    rcases hlookup parts union hunion with hunion | ⟨hnew, hfresh⟩
    · -- what was known before is older than what was copied now
      have hlt := (h.sound.unions_made _ (mem_of_lookup_eq_some hunion)).lt
      rcases List.mem_append.mp hcopy with hcopy | hcopy
      · exact h.not_copy parts union hunion hcopy
      · exact Nat.not_le_of_lt hlt (hmore union hcopy).1
    · rcases List.mem_append.mp hcopy with hcopy | hcopy
      · exact Nat.not_le_of_lt (h.copy_lt union hcopy) hnew
      · exact hfresh hcopy
  case variants_nil =>
    intro hnone id part hpart
    rcases hold id (List.ne_nil_of_mem hpart) with ⟨-, heq⟩ | hadd
    · rw [heq] at hpart
      rw [hgrows.get_eq part (hclosed.variant_lt hpart)]
      exact h.variants_nil (h.noneNested hgrows hnone) id part hpart
    · exact hadd.variants_nil hnone part hpart

/-- Adding a type without variants. -/
theorem Normal.push (h : t.Normal copies) {d : Descriptor} (hd : d.variants = [])
    (hsound : (t.push d).2.Sound) : (t.push d).2.Normal (copies ++ []) := by
  apply h.grow hsound ((Extends.refl t).push d) (.refl t.unions) (List.forall_mem_nil _)
    fun _ _ hunion => .inl hunion
  intro id hid hvariants
  rcases get_push t d id with heq | heq
  · rw [heq, get_eq_default_of_le hid] at hvariants
    exact absurd rfl hvariants
  · rw [heq] at hvariants
    exact absurd hd hvariants

/-- Uniting types makes unions that are canonical. -/
theorem Normal.union (h : t.Normal copies) (hids : ∀ id ∈ ids, id.index < t.size)
    (hrun : Tabling.union ids t = .ok (id, t')) : t'.Normal (copies ++ []) := by
  obtain ⟨hsound, hgrows, -, -⟩ := (union_ends h.sound hids).after _ _ hrun
  obtain ⟨-, calls, -, hcourse⟩ := (h.sound.closed.union_runs hids).after _ _ hrun
  have hclosed := h.sound.closed
  apply h.grow hsound hgrows hcourse.keeps (List.forall_mem_nil _)
  · intro parts union hunion
    rcases hcourse.exists_of_lookup parts union hunion with hunion | ⟨call, hcall, hnew, -, rfl⟩
    · exact .inl hunion
    · exact .inr ⟨(hcourse.made call hcall hnew).new, List.not_mem_nil⟩
  intro other hother hvariants
  obtain ⟨call, hcall, hnew, rfl⟩ :=
    hcourse.exists_of_new other hother (lt_of_variants_ne_nil hvariants)
  have hmade := hcourse.made call hcall hnew
  have hlt := hcourse.part_lt hclosed hcall
  obtain ⟨hany, htwo, -⟩ := of_united?_eq_none (UnionCall.isNew_iff.mp hnew)
  have hsame : ∀ part ∈ call.parts, t'.get part = t.get part := fun part hpart =>
    hgrows.get_eq part (hlt part hpart)
  constructor
  case two_le_length =>
    rw [hmade.variants_eq]
    exact htwo
  case not_mem_variants =>
    intro hself
    rw [hmade.variants_eq] at hself
    exact Nat.not_le_of_lt (hlt call.union hself) hother
  case canonical =>
    intro _
    constructor <;> rw [hmade.variants_eq]
    · exact hmade.lookup_eq
    · exact nodup_unionParts call.before call.ids
    · intro part hpart
      rw [isNever, hsame part hpart, ← (hcourse.grows call hcall).get_eq part (hlt part hpart)]
      exact (mem_unionParts.mp hpart).2
    · intro part hpart
      rw [isAnything, hsame part hpart, ← (hcourse.grows call hcall).get_eq part (hlt part hpart)]
      exact hany part hpart
  case variants_nil =>
    intro hnone part hpart
    rw [hmade.variants_eq] at hpart
    rw [hsame part hpart]
    rw [hcourse.parts_eq hclosed hcall] at hpart
    exact variants_nil_of_mem (fun id _ => h.variants_nil (h.noneNested hgrows hnone) id) hpart

theorem mem_unionsBeyond : id ∈ t.unionsBeyond t' ↔ t.size ≤ id.index ∧ (t'.get id).variants ≠ [] := by
  rw [unionsBeyond, List.mem_filter, decide_eq_true_eq, List.mem_map]
  constructor
  · intro h
    exact h.2
  · intro h
    exact ⟨⟨id.index, List.mem_range.mpr (lt_of_variants_ne_nil h.2), rfl⟩, h⟩

/-- A copy is no part of itself, unless the type was a part of itself. -/
theorem Substituted.part_eq {map : Substitution} {root part : TypeId} {image : TypeId → TypeId}
    (h : t.Substituted map root image t') (ht : t.Closed)
    (hmap : ∀ entry ∈ map, entry.2.index < t.size) (hrenews : t.Renews map root id)
    (hpart : part ∈ (t.get id).parts) (heq : image part = image id) : part = id := by
  have hnew := (h.image_new id hrenews).1
  rw [← heq] at hnew
  apply h.image_injective part id _ hrenews heq
  constructor
  case meets =>
    exact hrenews.meets.tail ⟨hrenews.stays, hpart⟩
  case stays =>
    by_contra hreplaced
    obtain ⟨replacement, hreplacement⟩ := Option.ne_none_iff_exists'.mp hreplaced
    rw [h.image_replaced part replacement hreplacement] at hnew
    exact Nat.not_le_of_lt (hmap _ (mem_of_lookup_eq_some hreplacement)) hnew
  case mentions =>
    by_contra hnot
    rw [h.image_shared part hnot] at hnew
    exact Nat.not_le_of_lt (ht id part hpart) hnew

/-- Substituting makes types with variants only by copying such types, with as many variants. -/
theorem Normal.substituted (h : t.Normal copies) {map : Substitution} {root : TypeId}
    {image : TypeId → TypeId} (hsubstituted : t.Substituted map root image t'')
    (hmap : ∀ entry ∈ map, entry.2.index < t.size) (hsound : t'.Sound) (hgrows : t.Extends t')
    (hunions : t'.unions = t''.unions)
    (hvariants : ∀ id, (t'.get id).variants = (t''.get id).variants) :
    t'.Normal (copies ++ t.unionsBeyond t') := by
  have hsame : t'.unions = t.unions := hunions.trans hsubstituted.unions_eq
  apply h.grow hsound hgrows
  · rw [hsame]
    exact .refl t.unions
  · intro copy hcopy
    obtain ⟨hnew, hne⟩ := mem_unionsBeyond.mp hcopy
    exact ⟨hnew, lt_of_variants_ne_nil hne⟩
  · intro parts union hunion
    rw [hsame] at hunion
    exact .inl hunion
  intro id hid hne
  have hcopy := mem_unionsBeyond.mpr ⟨hid, hne⟩
  rw [hvariants] at hne
  obtain ⟨old, hrenews, rfl⟩ := hsubstituted.exists_image_eq id hid (lt_of_variants_ne_nil hne)
  have heq : (t'.get (image old)).variants = (t.get old).variants.map image := by
    rw [hvariants, hsubstituted.get_image old hrenews]
    rfl
  constructor
  case two_le_length =>
    rw [heq, List.length_map]
    apply h.two_le_length old
    intro hnil
    rw [← hvariants, heq, hnil] at hne
    exact hne rfl
  case not_mem_variants =>
    intro hself
    rw [heq] at hself
    obtain ⟨part, hpart, hpartself⟩ := List.mem_map.mp hself
    have hparts : part ∈ (t.get old).parts := Descriptor.mem_parts_iff.mpr (.inr (.inr (.inr hpart)))
    rw [hsubstituted.part_eq h.sound.closed hmap hrenews hparts hpartself] at hpart
    exact h.not_mem_variants old hpart
  case canonical =>
    intro hfresh
    exact absurd hcopy hfresh
  case variants_nil =>
    intro hnone
    exact hnone (image old) (List.mem_append_right _ hcopy)

/-- An instance is what substituting gives, but for the name. -/
theorem instantiate_after (t : TypeTable) (template : TypeId) (arguments : List TypeId) :
    After (Tabling.instantiate template arguments) t fun result t' => ∃ t'',
      Tabling.substitute template (.ofPairs ((t.get template).params.zip arguments)) t =
        .ok (result, t'') ∧ t'.unions = t''.unions ∧
      ∀ id, (t'.get id).variants = (t''.get id).variants := by
  rw [Tabling.instantiate, after_bind_iff, after_get_iff, after_bind_iff]
  intro result t'' hrun
  have hsame : ∃ t₁, Tabling.substitute template
      (.ofPairs ((t.get template).params.zip arguments)) t = .ok (result, t₁) ∧
      t''.unions = t₁.unions ∧ ∀ id, (t''.get id).variants = (t₁.get id).variants :=
    ⟨t'', hrun, rfl, fun _ => rfl⟩
  split
  · rw [after_bind_iff, after_get_iff]
    split
    · rw [after_bind_iff, Tabling.update, after_modify_iff, after_pure_iff]
      exact ⟨t'', hrun, rfl, fun id => get_update_congr Descriptor.variants rfl id⟩
    · exact after_pure_iff.mpr hsame
  · exact after_pure_iff.mpr hsame

theorem Normal.initial : initial.Normal [] where
  sound := initial_sound
  grows := .refl _
  copy_lt := List.forall_mem_nil _
  two_le_length id hne := absurd (variants_initial id) hne
  not_mem_variants id := by
    rw [variants_initial id]
    exact List.not_mem_nil
  canonical id hne := absurd (variants_initial id) hne
  not_copy _ _ _ := List.not_mem_nil
  variants_nil _ _ part _ := variants_initial part

/-- Every step keeps to it. -/
theorem Normal.step (h : t.Normal copies) (step : TypeStep)
    (hoperands : ∀ id ∈ step.operands, id.index < t.size) (hrun : step.run t = .ok (id, t')) :
    t'.Normal (copies ++ step.copies t t') := by
  cases step with
  | compound fields =>
    have hfields : ∀ f ∈ fields, f.type.index < t.size := fun f hf =>
      hoperands f.type (List.mem_map_of_mem hf)
    have hsound := ((Tabling.compound_ends h.sound hfields).after _ _ hrun).1
    obtain rfl := congrArg Prod.snd (Except.ok.inj hrun)
    exact h.push rfl hsound
  | simple =>
    have hsound := ((Tabling.simple_ends h.sound).after _ _ hrun).1
    obtain rfl := congrArg Prod.snd (Except.ok.inj hrun)
    exact h.push rfl hsound
  | wildcard name =>
    have hsound := ((Tabling.wildcard_ends h.sound name).after _ _ hrun).1
    obtain rfl := congrArg Prod.snd (Except.ok.inj hrun)
    exact h.push rfl hsound
  | function argument result =>
    have hargument := hoperands argument (by simp [TypeStep.operands])
    have hresult := hoperands result (by simp [TypeStep.operands])
    have hsound := ((Tabling.function_ends h.sound hargument hresult).after _ _ hrun).1
    obtain rfl := congrArg Prod.snd (Except.ok.inj hrun)
    exact h.push rfl hsound
  | union ids => exact h.union hoperands hrun
  | substitute root map =>
    have hroot := hoperands root List.mem_cons_self
    have hmap : ∀ entry ∈ map, entry.2.index < t.size := fun entry hentry =>
      hoperands entry.2 (List.mem_cons_of_mem _ (List.mem_map_of_mem hentry))
    obtain ⟨hsound, hgrows, -⟩ := (substitute_ends h.sound hroot hmap).after _ _ hrun
    obtain ⟨image, -, hsubstituted⟩ :=
      (substitute_substituted h.sound.closed hroot map).after _ _ hrun
    exact h.substituted hsubstituted hmap hsound hgrows rfl fun _ => rfl
  | instantiate template arguments =>
    have htemplate := hoperands template List.mem_cons_self
    have harguments : ∀ argument ∈ arguments, argument.index < t.size := fun argument hargument =>
      hoperands argument (List.mem_cons_of_mem _ hargument)
    have hmap : ∀ entry ∈ Substitution.ofPairs ((t.get template).params.zip arguments),
        entry.2.index < t.size := fun entry hentry =>
      harguments _ (List.of_mem_zip (List.mem_reverse.mp hentry)).2
    obtain ⟨hsound, hgrows, -⟩ := (instantiate_ends h.sound htemplate harguments).after _ _ hrun
    obtain ⟨t'', hrun', hunions, hvariants⟩ := instantiate_after t template arguments _ _ hrun
    obtain ⟨image, -, hsubstituted⟩ :=
      (substitute_substituted h.sound.closed htemplate _).after _ _ hrun'
    exact h.substituted hsubstituted hmap hsound hgrows hunions hvariants

theorem Built.normal (h : Built t copies) : t.Normal copies := by
  induction h with
  | initial => exact .initial
  | step _ step hoperands hrun ih => exact ih.step step hoperands hrun

/-- A copy of a union is not what uniting it alone comes to: it is known as the union of nothing. -/
theorem Normal.union_copy (h : t.Normal copies) (hvariants : (t.get id).variants ≠ [])
    (hcopy : id ∈ copies) : ∃ other t', Tabling.union [id] t = .ok (other, t') ∧ other ≠ id := by
  have hid : id.index < t.size := h.copy_lt id hcopy
  have hids : ∀ other ∈ [id], other.index < t.size := List.forall_mem_singleton.mpr hid
  have hbuiltin : ∀ other : TypeId, other.index < TypeTable.initial.size → other ≠ id := by
    rintro other hother rfl
    rw [h.grows.get_eq other hother, variants_initial] at hvariants
    exact hvariants rfl
  obtain ⟨other, t', hrun, -, calls, -, hcourse⟩ := ends_iff.mp (h.sound.closed.union_runs hids)
  have hcall := List.mem_cons_self (a := (⟨[id], t, other, t'⟩ : UnionCall)) (l := calls)
  refine ⟨other, t', hrun, ?_⟩
  cases hnew : UnionCall.isNew ⟨[id], t, other, t'⟩ with
  | true =>
    rintro rfl
    exact Nat.not_le_of_lt hid (hcourse.makes _ hcall hnew).new
  | false =>
    have hunited : t.united? [id] = some other := (hcourse.found _ hcall hnew).1
    rcases united?_cases t [id] with ⟨-, heq⟩ | ⟨-, heq⟩ | ⟨only, hone, heq⟩ | ⟨-, -, heq⟩ <;>
      rw [heq] at hunited
    · obtain rfl := Option.some.inj hunited
      exact hbuiltin _ (by decide)
    · obtain rfl := Option.some.inj hunited
      exact hbuiltin _ (by decide)
    · obtain rfl := Option.some.inj hunited
      -- the one part is one of the variants, and the type is none of them itself
      have hpart : only ∈ t.unionParts [id] := by
        rw [hone]
        exact List.mem_singleton_self only
      obtain ⟨⟨whole, hwhole, halternative⟩, -⟩ := mem_unionParts.mp hpart
      rw [List.mem_singleton.mp hwhole, alternatives_of_variants_ne_nil hvariants] at halternative
      rintro rfl
      exact h.not_mem_variants only halternative
    · rintro rfl
      exact h.not_copy _ _ hunited hcopy

/-- In every table that one comes to, a union has two variants or more. Unless it came of putting
types in place of others throughout a union, its variants are distinct, none of them is for no value
or for all, and united alone it is itself. A copy has as many variants as the union had, and is left
at that: what was put in may stand there twice, be for no value or for all, or be a union, and united
alone the copy is another type. Where no copy has a union for a variant, no union has. -/
theorem Built.variants_normal (h : Built t copies) (hvariants : (t.get id).variants ≠ []) :
    2 ≤ (t.get id).variants.length ∧
      (id ∉ copies → (t.get id).variants.Nodup ∧
        (∀ part ∈ (t.get id).variants, t.isNever part = false ∧ t.isAnything part = false) ∧
        Tabling.union [id] t = .ok (id, t)) ∧
      (id ∈ copies → ∃ other t', Tabling.union [id] t = .ok (other, t') ∧ other ≠ id) ∧
      (t.NoneNested copies → ∀ part ∈ (t.get id).variants, (t.get part).variants = []) := by
  have hnormal := h.normal
  have htwo := hnormal.two_le_length id hvariants
  refine ⟨htwo, fun hfresh => ?_, hnormal.union_copy hvariants,
    fun hnone => hnormal.variants_nil hnone id⟩
  have hcanonical := hnormal.canonical id hvariants hfresh
  refine ⟨hcanonical.nodup, fun part hpart => ?_, ?_⟩
  · exact ⟨hcanonical.not_never part hpart, hcanonical.not_anything part hpart⟩
  · exact union_eq_of_united?_eq_some (hcanonical.united?_eq htwo)

/-- The table after a step. -/
def after (t : TypeTable) (step : TypeStep) : TypeTable :=
  match step.run t with
  | .ok (_, t') => t'
  | .error _ => t

theorem Built.after (h : Built t copies) (step : TypeStep) {copies' : List TypeId}
    (hoperands : ∀ id ∈ step.operands, id.index < t.size) (hends : (step.run t).isOk = true)
    (hcopies : copies ++ step.copies t (t.after step) = copies') : Built (t.after step) copies' := by
  cases hrun : step.run t with
  | error fault =>
    rw [hrun] at hends
    cases hends
  | ok made =>
    have hafter : t.after step = made.2 := by rw [TypeTable.after, hrun]
    rw [← hcopies, hafter]
    exact h.step step hoperands hrun

/-- A wildcard, the union of it and numbers, and a copy of that with numbers for the wildcard. -/
def repeatedNumbers : TypeTable :=
  ((initial.after (.wildcard "$A")).after (.union [⟨18⟩, .number])).after
    (.substitute ⟨19⟩ [(⟨18⟩, .number)])

theorem built_repeatedNumbers : Built repeatedNumbers [⟨20⟩] := by
  have hwildcard : Built (initial.after (.wildcard "$A")) [] :=
    Built.initial.after _ (by decide +kernel) (by decide +kernel) rfl
  have hunion : Built ((initial.after (.wildcard "$A")).after (.union [⟨18⟩, .number])) [] :=
    hwildcard.after _ (by decide +kernel) (by decide +kernel) rfl
  exact hunion.after (.substitute ⟨19⟩ [(⟨18⟩, .number)]) (by decide +kernel) (by decide +kernel)
    (by decide +kernel)

/-- The union is united alone to itself. The copy has numbers for a variant twice, and united alone
it comes to numbers. -/
theorem variants_normal_repeatedNumbers :
    Built repeatedNumbers [⟨20⟩] ∧ (repeatedNumbers.get ⟨19⟩).variants = [⟨18⟩, .number] ∧
      Tabling.union [⟨19⟩] repeatedNumbers = .ok (⟨19⟩, repeatedNumbers) ∧
      (repeatedNumbers.get ⟨20⟩).variants = [.number, .number] ∧
      ∃ other t', Tabling.union [⟨20⟩] repeatedNumbers = .ok (other, t') ∧ other ≠ ⟨20⟩ := by
  have hunion : (repeatedNumbers.get ⟨19⟩).variants = [⟨18⟩, .number] := by decide +kernel
  have hcopy : (repeatedNumbers.get ⟨20⟩).variants = [.number, .number] := by decide +kernel
  have hnormal := built_repeatedNumbers.variants_normal (hunion.trans_ne (List.cons_ne_nil _ _))
  have hnormal' := built_repeatedNumbers.variants_normal (hcopy.trans_ne (List.cons_ne_nil _ _))
  exact ⟨built_repeatedNumbers, hunion, (hnormal.2.1 (by decide)).2.2, hcopy,
    hnormal'.2.2.1 (by decide)⟩

end TypeTable

end MessageLang
