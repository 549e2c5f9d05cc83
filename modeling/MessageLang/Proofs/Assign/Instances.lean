import MessageLang.Proofs.Assign.Ordering
import MessageLang.Proofs.Types.Copies

namespace MessageLang

open Checking Checker

/-- No two fields have the same name, and one that is called by its position is at that position. -/
structure WellNamed (fields : List Field) : Prop where
  pairwise_ne : fields.Pairwise fun x y => x.name ≠ y.name
  name_eq : ∀ entry ∈ fields.zipIdx, entry.1.isPositional = true →
    entry.1.name = Field.positionalName entry.2

/-- A type with values, each part of which is found by a comparison at the place where it is. -/
structure Descriptor.Recognizable (d : Descriptor) : Prop where
  not_nothing : d.shape ≠ .nothing
  symbols_nodup : (d.symbols.map (·.1)).Nodup
  fields_wellNamed : ∀ fields ∈ d.fields?, WellNamed fields

instance (fields : List Field) : Decidable (WellNamed fields) :=
  decidable_of_iff ((fields.Pairwise fun x y => x.name ≠ y.name) ∧ ∀ entry ∈ fields.zipIdx,
    entry.1.isPositional = true → entry.1.name = Field.positionalName entry.2)
    ⟨fun h => ⟨h.1, h.2⟩, fun h => ⟨h.pairwise_ne, h.name_eq⟩⟩

instance (d : Descriptor) : Decidable d.Recognizable :=
  decidable_of_iff (d.shape ≠ .nothing ∧ (d.symbols.map (·.1)).Nodup ∧
    ∀ fields ∈ d.fields?, WellNamed fields)
    ⟨fun h => ⟨h.1, h.2.1, h.2.2⟩, fun h => ⟨h.not_nothing, h.symbols_nodup, h.fields_wellNamed⟩⟩

/-- A comparison reads the same of both types. -/
structure Descriptor.ComparesAs (d d' : Descriptor) : Prop where
  shape_eq : d.shape = d'.shape
  symbols_eq : d.symbols = d'.symbols
  handlers_eq : d.handlers = d'.handlers

/-- All types of a table are there in another one as well, though perhaps under other names. -/
structure TypeTable.Resembles (t t' : TypeTable) : Prop where
  size_le : t.size ≤ t'.size
  get_eq : ∀ id : TypeId, id.index < t.size → ∃ name, t'.get id = { t.get id with name }

/-- A comparison that starts from a type under a substitution may come to another one under it. It
does not go on from what is replaced. -/
def TypeTable.ComesToUnder (t : TypeTable) (map : Substitution) : TypeId → TypeId → Prop :=
  Relation.ReflTransGen fun whole part => map.lookup whole = none ∧ part ∈ (t.get whole).components

/-- A table shows a comparison a type of another table, put under a substitution, with one image for
each of the types that it may come to. -/
structure TypeTable.Mirrors (t t' : TypeTable) (map : Substitution) (root : TypeId)
    (image : TypeId → TypeId) : Prop where
  image_lt : ∀ id, t.ComesToUnder map root id → (image id).index < t'.size
  image_replaced : ∀ id replacement, map.lookup id = some replacement → image id = replacement
  image_comparesAs : ∀ id, t.ComesToUnder map root id → map.lookup id = none →
    (t'.get (image id)).ComparesAs ((t.get id).mapParts image)

section

variable {t t' t'' : TypeTable} {map : Substitution} {root id part : TypeId} {unwraps : Bool}
  {f g image : TypeId → TypeId} {R : TypeId → TypeId → Prop} {fields : List Field}

/-- The digits of a number are read as that number. -/
theorem readPosition?_toString (n : Nat) : readPosition? (toString n).toList = some n := by
  have htext : (toString n).toList = Nat.toDigits 10 n := Nat.toList_repr
  have hdigit : ∀ c ∈ Nat.toDigits 10 n, c.isDigit = true := fun c hc =>
    Nat.isDigit_of_mem_toDigits (by decide) (by decide) hc
  have hplus : (Nat.toDigits 10 n).head? ≠ some '+' := fun hhead =>
    absurd (hdigit '+' (List.mem_of_head? hhead)) (by decide)
  rw [htext, readPosition?, if_neg hplus, if_pos ⟨Nat.toDigits_ne_nil, List.all_eq_true.mpr hdigit⟩,
    Nat.ofDigitChars_ten_toDigits]

/-- A well named field is for its own place, whatever the types are. -/
theorem WellNamed.isFor (h : WellNamed fields) {place : Nat} (hplace : place < fields.length) :
    Field.IsFor { fields[place] with type := g fields[place].type }
      (fields.map fun x => { x with type := f x.type }) place := by
  unfold Field.IsFor
  split
  · next position htext =>
    have hpositional : fields[place].isPositional = true := by
      rw [Field.isPositional, String.startsWith_string_iff, htext]
      exact ⟨position, rfl⟩
    have hname := h.name_eq (fields[place], place) (by simp [List.mem_zipIdx_iff_getElem?]) hpositional
    have hdigits : position = (toString place).toList := by
      rw [hname, Field.positionalName, String.toList_append] at htext
      simpa using htext.symm
    rw [List.length_map]
    exact ⟨hdigits ▸ readPosition?_toString place, hplace⟩
  · simp only [List.length_map, List.getElem_map]
    exact ⟨hplace, trivial, fun earlier hearlier =>
      List.pairwise_iff_getElem.mp h.pairwise_ne earlier place (by omega) hplace hearlier⟩

/-- The same fields with other types fit each other where their types are related. -/
theorem WellNamed.fieldsFit (h : WellNamed fields) (hR : ∀ x ∈ fields, R (f x.type) (g x.type)) :
    FieldsFit R (fields.map fun x => { x with type := f x.type })
      (fields.map fun x => { x with type := g x.type }) := by
  refine ⟨List.range fields.length, List.nodup_range, ?_, fun place wanted hwanted => .inl ?_⟩
  · refine List.forall₂_iff_get.mpr ⟨by simp, fun place hplace _ => ?_⟩
    rw [List.length_map] at hplace
    simp only [List.get_eq_getElem, List.getElem_map, List.getElem_range]
    refine ⟨h.isFor hplace, fun wanted hwanted => ?_⟩
    rw [List.getElem?_map, List.getElem?_eq_getElem hplace] at hwanted
    obtain rfl := Option.some.inj hwanted
    exact hR _ (List.getElem_mem hplace)
  · obtain ⟨hplace, -⟩ := List.getElem?_eq_some_iff.mp hwanted
    rw [List.length_map] at hplace
    exact List.mem_range.mpr hplace

namespace Descriptor

theorem ComparesAs.symm {d d' : Descriptor} (h : d.ComparesAs d') : d'.ComparesAs d :=
  ⟨h.shape_eq.symm, h.symbols_eq.symm, h.handlers_eq.symm⟩

theorem ComparesAs.trans {d d' d'' : Descriptor} (h : d.ComparesAs d') (h' : d'.ComparesAs d'') :
    d.ComparesAs d'' :=
  ⟨h.shape_eq.trans h'.shape_eq, h.symbols_eq.trans h'.symbols_eq, h.handlers_eq.trans h'.handlers_eq⟩

theorem ComparesAs.components_eq {d d' : Descriptor} (h : d.ComparesAs d') :
    d.components = d'.components := by
  simp only [components, fieldTypes, fields?, h.shape_eq, h.symbols_eq, h.handlers_eq]

theorem components_mapParts (f : TypeId → TypeId) (d : Descriptor) :
    (d.mapParts f).components = d.components.map f := by
  rw [components, fieldTypes_mapParts]
  simp [components, mapParts, List.map_flatMap, List.flatMap_map]

theorem ComparesAs.mapParts {d d' : Descriptor} (h : d.ComparesAs d') (f : TypeId → TypeId) :
    (d.mapParts f).ComparesAs (d'.mapParts f) := by
  refine ⟨?_, ?_, ?_⟩ <;> simp only [Descriptor.mapParts, h.shape_eq, h.symbols_eq, h.handlers_eq]

/-- A type whose parts all stay is compared as before. -/
theorem mapParts_comparesAs {d : Descriptor} (h : ∀ part ∈ d.parts, f part = part) :
    (d.mapParts f).ComparesAs d := by
  have hsame : d.mapParts f = d.mapParts id := mapParts_congr h
  rw [hsame]
  refine ⟨?_, List.map_id _, List.map_id _⟩
  cases hshape : d.shape <;> simp [mapParts, Shape.mapTypes, hshape]

end Descriptor

namespace TypeTable

theorem Extends.resembles (h : t.Extends t') : t.Resembles t' :=
  ⟨h.size_le, fun id hid => ⟨(t.get id).name, h.get_eq id hid⟩⟩

theorem Resembles.refl (t : TypeTable) : t.Resembles t := (Extends.refl t).resembles

theorem Resembles.lt (h : t.Resembles t') (hid : id.index < t.size) : id.index < t'.size :=
  hid.trans_le h.size_le

theorem Resembles.trans (h : t.Resembles t') (h' : t'.Resembles t'') : t.Resembles t'' := by
  refine ⟨h.size_le.trans h'.size_le, fun id hid => ?_⟩
  obtain ⟨_, heq⟩ := h.get_eq id hid
  obtain ⟨name, heq'⟩ := h'.get_eq id (h.lt hid)
  exact ⟨name, by rw [heq', heq]⟩

/-- A type under another name. -/
theorem Resembles.rename (t : TypeTable) (id : TypeId) (name : Option String) :
    t.Resembles (t.update id fun d => { d with name }) := by
  refine ⟨(size_update t id _).ge, fun other hother => ?_⟩
  by_cases h : other = id
  · rw [h] at hother ⊢
    exact ⟨name, get_update_self t _ hother⟩
  · exact ⟨(t.get other).name, get_update_of_ne t _ h⟩

theorem Resembles.comparesAs (h : t.Resembles t') (hid : id.index < t.size) :
    (t'.get id).ComparesAs (t.get id) := by
  obtain ⟨name, heq⟩ := h.get_eq id hid
  rw [heq]
  exact ⟨rfl, rfl, rfl⟩

theorem Resembles.shape_eq (h : t.Resembles t') (hid : id.index < t.size) :
    (t'.get id).shape = (t.get id).shape := (h.comparesAs hid).shape_eq

/-- Under other names types have the same parts. -/
theorem Resembles.parts_eq (h : t.Resembles t') (hid : id.index < t.size) :
    (t'.get id).parts = (t.get id).parts := by
  obtain ⟨name, heq⟩ := h.get_eq id hid
  rw [heq]
  rfl

theorem Resembles.wildcardFree (h : t.Resembles t') (hclosed : t.Closed) (hid : id.index < t.size)
    (hfree : t.WildcardFree id) : t'.WildcardFree id := by
  apply wildcardFree_of_closed (P := fun part => part.index < t.size ∧ t.WildcardFree part)
  case hclosed =>
    rintro part ⟨hlt, hpart⟩ inner hinner
    rw [(h.comparesAs hlt).components_eq] at hinner
    exact ⟨hclosed.component_lt hinner, hpart.of_component hinner⟩
  case hknown =>
    rintro part ⟨hlt, hpart⟩
    rw [isWildcard, h.shape_eq hlt]
    exact hpart part .refl
  case hid => exact ⟨hid, hfree⟩

theorem Resembles.mentions (h : t.Resembles t') (hclosed : t.Closed) (hid : id.index < t.size)
    (hmentions : t.Mentions map id) : t'.Mentions map id := by
  obtain ⟨last, image, hleads, hreplaced⟩ := hmentions
  refine ⟨last, image, ?_, hreplaced⟩
  clear hreplaced
  induction hleads with
  | refl => exact .refl
  | tail hleads hstep ih =>
    refine ih.tail ?_
    rwa [h.parts_eq (hclosed.lt_of_leads hid hleads)]

theorem ComesToUnder.comesTo (h : t.ComesToUnder map root id) : t.ComesTo root id := by
  induction h with
  | refl => exact .refl
  | tail _ hstep ih => exact ih.tail hstep.2

theorem ComesToUnder.meets (h : t.ComesToUnder map root id) : t.Meets map root id := by
  induction h with
  | refl => exact .refl
  | tail _ hstep ih => exact ih.tail (hstep.imp_right fun hpart => Descriptor.components_subset_parts _ hpart)

theorem ComesToUnder.lt (h : t.ComesToUnder map root id) (hclosed : t.Closed)
    (hroot : root.index < t.size) : id.index < t.size :=
  hclosed.lt_of_leads hroot h.meets.leads

theorem Resembles.comesToUnder (h : t.Resembles t') (hclosed : t.Closed) (hroot : root.index < t.size)
    (hid : t.ComesToUnder map root id) : t'.ComesToUnder map root id := by
  induction hid with
  | refl => exact .refl
  | tail hid hstep ih =>
    refine ih.tail ⟨hstep.1, ?_⟩
    rw [(h.comparesAs (ComesToUnder.lt hid hclosed hroot)).components_eq]
    exact hstep.2

/-- The image of a type that is met is in the table that a substitution leaves. -/
theorem Substituted.image_lt (h : t.Substituted map root image t') (hclosed : t.Closed)
    (hroot : root.index < t.size) (hmap : ∀ entry ∈ map, entry.2.index < t.size)
    (hmeets : t.Meets map root id) : (image id).index < t'.size := by
  cases hstays : map.lookup id with
  | some replacement =>
    rw [h.image_replaced id _ hstays]
    exact h.grows.lt (hmap _ (mem_of_lookup_eq_some hstays))
  | none =>
    by_cases hmentions : t.Mentions map id
    · exact (h.image_new id ⟨hmeets, hstays, hmentions⟩).2
    · rw [h.image_shared id hmentions]
      exact h.grows.lt (hclosed.lt_of_leads hroot hmeets.leads)

theorem Substituted.closed (h : t.Substituted map root image t') (hclosed : t.Closed)
    (hroot : root.index < t.size) (hmap : ∀ entry ∈ map, entry.2.index < t.size) : t'.Closed := by
  intro id part hpart
  by_cases hold : id.index < t.size
  · rw [h.grows.get_eq id hold] at hpart
    exact h.grows.lt (hclosed id part hpart)
  by_cases hnew : id.index < t'.size
  · obtain ⟨old, hrenews, rfl⟩ := h.exists_image_eq id (Nat.le_of_not_lt hold) hnew
    rw [h.get_image old hrenews, Descriptor.parts_mapParts] at hpart
    obtain ⟨oldPart, holdPart, rfl⟩ := List.mem_map.mp hpart
    exact h.image_lt hclosed hroot hmap (hrenews.meets.tail ⟨hrenews.stays, holdPart⟩)
  · rw [get_eq_default_of_le (Nat.le_of_not_lt hnew)] at hpart
    cases hpart

/-- What a substitution leaves shows the type under it, whether its parts are copies or were there
before. -/
theorem Substituted.mirrors (h : t.Substituted map root image t') (hclosed : t.Closed)
    (hroot : root.index < t.size) (hmap : ∀ entry ∈ map, entry.2.index < t.size) :
    t.Mirrors t' map root image where
  image_lt id hid := h.image_lt hclosed hroot hmap hid.meets
  image_replaced := h.image_replaced
  image_comparesAs id hid hstays := by
    by_cases hmentions : t.Mentions map id
    · rw [h.get_image id ⟨hid.meets, hstays, hmentions⟩]
      exact ⟨rfl, rfl, rfl⟩
    · rw [h.image_shared id hmentions, h.grows.get_eq id (hid.lt hclosed hroot)]
      refine (Descriptor.mapParts_comparesAs fun part hpart => h.image_shared part ?_).symm
      exact fun hpart' => hmentions (.of_part hpart hpart')

theorem Mirrors.resembles (h : t.Mirrors t' map root image) (hlater : t'.Resembles t'') :
    t.Mirrors t'' map root image where
  image_lt id hid := hlater.lt (h.image_lt id hid)
  image_replaced := h.image_replaced
  image_comparesAs id hid hstays :=
    (hlater.comparesAs (h.image_lt id hid)).trans (h.image_comparesAs id hid hstays)

/-- What is shown of a type is shown of it under another name. -/
theorem Mirrors.of_resembles (h : t'.Mirrors t'' map root image) (hbefore : t.Resembles t')
    (hclosed : t.Closed) (hroot : root.index < t.size) : t.Mirrors t'' map root image where
  image_lt id hid := h.image_lt id (hbefore.comesToUnder hclosed hroot hid)
  image_replaced := h.image_replaced
  image_comparesAs id hid hstays :=
    (h.image_comparesAs id (hbefore.comesToUnder hclosed hroot hid) hstays).trans
      ((hbefore.comparesAs (hid.lt hclosed hroot)).mapParts image)

theorem Mirrors.components_eq (h : t.Mirrors t' map root image) (hid : t.ComesToUnder map root id)
    (hstays : map.lookup id = none) :
    (t'.get (image id)).components = (t.get id).components.map image := by
  rw [(h.image_comparesAs id hid hstays).components_eq, Descriptor.components_mapParts]

/-- A comparison comes to the image of all that the type comes to. -/
theorem Mirrors.comesTo (h : t.Mirrors t' map root image) (hid : t.ComesToUnder map root id) :
    t'.ComesTo (image root) (image id) := by
  induction hid with
  | refl => exact .refl
  | tail hid hstep ih =>
    refine ih.tail ?_
    rw [h.components_eq hid hstep.1]
    exact List.mem_map_of_mem hstep.2

theorem Mirrors.shape_eq (h : t.Mirrors t' map root image) (hid : t.ComesToUnder map root id)
    (hstays : map.lookup id = none) : (t'.get (image id)).shape = (t.get id).shape.mapTypes image :=
  (h.image_comparesAs id hid hstays).shape_eq

theorem Mirrors.isWildcard_eq (h : t.Mirrors t' map root image) (hid : t.ComesToUnder map root id)
    (hstays : map.lookup id = none) : t'.isWildcard (image id) = t.isWildcard id := by
  rw [isWildcard, isWildcard, h.shape_eq hid hstays]
  cases (t.get id).shape <;> rfl

theorem Mirrors.isNothing_eq (h : t.Mirrors t' map root image) (hid : t.ComesToUnder map root id)
    (hstays : map.lookup id = none) : t'.isNothing (image id) = t.isNothing id := by
  rw [isNothing, isNothing, h.shape_eq hid hstays]
  cases (t.get id).shape <;> rfl

/-- A type under a substitution that leads to no wildcard leads to none anywhere else it is shown. -/
theorem Mirrors.wildcardFree (hf : t.Mirrors t' map root f) (hg : t.Mirrors t' map root g)
    (hfree : t'.WildcardFree (f root)) : t'.WildcardFree (g root) := by
  have hmet : ∀ id, t.ComesToUnder map root id → t'.WildcardFree (f id) := fun id hid part hpart =>
    hfree part ((hf.comesTo hid).trans hpart)
  -- what is filled in is the same in both images, so only the rest is looked for in the other one
  let shown (x : TypeId) : Prop := t'.WildcardFree x ∨
    ∃ id, t.ComesToUnder map root id ∧ map.lookup id = none ∧ g id = x
  have himage : ∀ id, t.ComesToUnder map root id → shown (g id) := by
    intro id hid
    cases hstays : map.lookup id with
    | none => exact .inr ⟨id, hid, hstays, rfl⟩
    | some replacement =>
      rw [hg.image_replaced id _ hstays, ← hf.image_replaced id _ hstays]
      exact .inl (hmet id hid)
  apply wildcardFree_of_closed (P := shown)
  case hclosed =>
    rintro x (hx | ⟨id, hid, hstays, rfl⟩) part hpart
    · exact .inl (hx.of_component hpart)
    · rw [hg.components_eq hid hstays] at hpart
      obtain ⟨inner, hinner, rfl⟩ := List.mem_map.mp hpart
      exact himage inner (hid.tail ⟨hstays, hinner⟩)
  case hknown =>
    rintro x (hx | ⟨id, hid, hstays, rfl⟩)
    · exact hx x .refl
    · rw [hg.isWildcard_eq hid hstays, ← hf.isWildcard_eq hid hstays]
      exact hmet id hid _ .refl
  case hid => exact himage root .refl

theorem Mirrors.fields?_eq (h : t.Mirrors t' map root image) (hid : t.ComesToUnder map root id)
    (hstays : map.lookup id = none) (hfields : t.fields? id = some fields) :
    t'.fields? (image id) = some (fields.map fun x => { x with type := image x.type }) := by
  rw [fields?_eq_some_iff, h.shape_eq hid hstays, fields?_eq_some_iff.mp hfields]
  rfl

/-- One image of a type answers all that another one answers, if those of its parts are related both
ways. -/
theorem Mirrors.handlersFit (hf : t.Mirrors t' map root f) (hg : t.Mirrors t' map root g)
    (hid : t.ComesToUnder map root id) (hstays : map.lookup id = none)
    (hrecognizable : (t.get id).Recognizable) (hshape : (t.get id).shape = .simple)
    (hparts : ∀ part ∈ (t.get id).components, R (f part) (g part) ∧ R (g part) (f part)) :
    t'.HandlersFit R (f id) (g id) := by
  have htarget := hf.image_comparesAs id hid hstays
  have hsource := hg.image_comparesAs id hid hstays
  refine ⟨?_, fun wanted hwanted => ?_, fun wanted hwanted => ?_⟩
  · rw [hf.shape_eq hid hstays, hshape]
    rfl
  · rw [htarget.symbols_eq] at hwanted
    obtain ⟨⟨symbol, answer⟩, hentry, rfl⟩ := List.mem_map.mp hwanted
    refine ⟨g answer, ?_, (hparts answer (answer_mem_components hentry)).1⟩
    rw [answer?, hsource.symbols_eq]
    refine lookup_eq_some_of_mem ?_ (List.mem_map_of_mem hentry)
    rw [Descriptor.mapParts, List.map_map]
    exact hrecognizable.symbols_nodup
  · rw [htarget.handlers_eq] at hwanted
    obtain ⟨⟨guard, answer⟩, hhandler, rfl⟩ := List.mem_map.mp hwanted
    have hmem := handler_mem_components hhandler
    -- guards are compared the other way round
    refine ⟨(g guard, g answer), ?_, (hparts guard hmem.1).2, (hparts answer hmem.2).1⟩
    rw [hsource.handlers_eq]
    exact List.mem_map_of_mem hhandler

/-- The images of a type fit each other, if those of its parts are related both ways. -/
theorem Mirrors.fits (hf : t.Mirrors t' map root f) (hg : t.Mirrors t' map root g)
    (hid : t.ComesToUnder map root id) (hrecognizable : (t.get id).Recognizable)
    (hsome : ∀ replacement, map.lookup id = some replacement → t'.isNothing replacement = false)
    (hfree : t'.isWildcard (f id) = false)
    (hparts : ∀ part, t.ComesToUnder map root part → R (f part) (g part) ∧ R (g part) (f part)) :
    t'.Fits unwraps R (f id) (g id) := by
  cases hstays : map.lookup id with
  | some replacement =>
    have hthere := hsome replacement hstays
    rw [hf.image_replaced id _ hstays, hg.image_replaced id _ hstays]
    exact ⟨hthere, fun hnothing => by simp [hthere] at hnothing, .inl rfl⟩
  | none =>
    have hpart : ∀ part ∈ (t.get id).components, R (f part) (g part) ∧ R (g part) (f part) :=
      fun part hpart => hparts part (hid.tail ⟨hstays, hpart⟩)
    have hthere : t.isNothing id = false := beq_eq_false_iff_ne.mpr hrecognizable.not_nothing
    have hoffers := hg.isNothing_eq hid hstays
    rw [hf.isWildcard_eq hid hstays] at hfree
    refine ⟨(hf.isNothing_eq hid hstays).trans hthere, fun hnothing => ?_, ?_⟩
    · rw [hoffers, hthere] at hnothing
      cases hnothing
    cases hshape : (t.get id).shape with
    | simple =>
      exact .inr (.inr (.inr (.inr (.inl (hf.handlersFit hg hid hstays hrecognizable hshape hpart)))))
    | compound fields =>
      have hfields : t.fields? id = some fields := fields?_eq_some_iff.mpr hshape
      refine .inr (.inr (.inr (.inr (.inr ⟨_, hf.fields?_eq hid hstays hfields, .inl ?_⟩))))
      rw [offeredFields, hoffers, hthere, hg.fields?_eq hid hstays hfields]
      exact (hrecognizable.fields_wellNamed fields hfields).fieldsFit fun x hx =>
        (hpart x.type (field_mem_components hfields hx)).1
    | wildcard => simp [isWildcard, hshape] at hfree
    | nothing => exact absurd hshape hrecognizable.not_nothing
    | anything => exact .inr (.inl (by simp [isAnything, hf.shape_eq hid hstays, hshape, Shape.mapTypes]))
    | never =>
      exact .inr (.inr (.inr (.inl (by simp [isNever, hg.shape_eq hid hstays, hshape, Shape.mapTypes]))))

/-- Two images of one type are assignable to each other. -/
theorem Mirrors.assignable (hf : t.Mirrors t' map root f) (hg : t.Mirrors t' map root g)
    (hrecognizable : ∀ id, t.ComesTo root id → (t.get id).Recognizable)
    (hsome : ∀ id replacement, map.lookup id = some replacement → t'.isNothing replacement = false)
    (hfree : t'.WildcardFree (f root)) :
    t'.Assignable unwraps (f root) (g root) ∧ t'.Assignable unwraps (g root) (f root) := by
  -- both ways, because the two sides change places at each guard
  let twins (x y : TypeId) : Prop := ∃ id, t.ComesToUnder map root id ∧
    (f id = x ∧ g id = y ∨ g id = x ∧ f id = y)
  have htwins : ∀ id, t.ComesToUnder map root id → twins (f id) (g id) ∧ twins (g id) (f id) :=
    fun id hid => ⟨⟨id, hid, .inl ⟨rfl, rfl⟩⟩, ⟨id, hid, .inr ⟨rfl, rfl⟩⟩⟩
  have hfree' := hf.wildcardFree hg hfree
  have hfit : ∀ x y, twins x y → t'.Fits unwraps twins x y := by
    rintro x y ⟨id, hid, ⟨rfl, rfl⟩ | ⟨rfl, rfl⟩⟩
    · exact hf.fits hg hid (hrecognizable id hid.comesTo) (hsome id)
        (hfree _ (hf.comesTo hid)) htwins
    · exact hg.fits hf hid (hrecognizable id hid.comesTo) (hsome id)
        (hfree' _ (hg.comesTo hid)) fun part hpart => (htwins part hpart).symm
  exact ⟨⟨twins, hfit, (htwins root .refl).1⟩, ⟨twins, hfit, (htwins root .refl).2⟩⟩

/-- What filling in a template replaces with what. -/
def replacements (t : TypeTable) (template : TypeId) (arguments : List TypeId) : Substitution :=
  .ofPairs ((t.get template).params.zip arguments)

variable {template : TypeId} {arguments : List TypeId}

theorem mem_arguments_of_mem_replacements {entry : TypeId × TypeId}
    (h : entry ∈ t.replacements template arguments) : entry.2 ∈ arguments :=
  (List.of_mem_zip (List.mem_reverse.mp h)).2

theorem Resembles.replacements_eq (h : t.Resembles t') (htemplate : template.index < t.size) :
    t'.replacements template arguments = t.replacements template arguments := by
  obtain ⟨name, heq⟩ := h.get_eq template htemplate
  rw [replacements, replacements, heq]

/-- Filling in a template ends with the template under a substitution, perhaps under another name. -/
theorem Closed.instantiate_ends (hclosed : t.Closed) (htemplate : template.index < t.size)
    (harguments : ∀ argument ∈ arguments, argument.index < t.size) :
    Ends (Tabling.instantiate template arguments) t fun result t' => ∃ image t'', result = image template ∧
      t.Substituted (t.replacements template arguments) template image t'' ∧ t''.Resembles t' ∧
      t'.Closed := by
  have hmap : ∀ entry ∈ t.replacements template arguments, entry.2.index < t.size :=
    fun entry hentry => harguments _ (mem_arguments_of_mem_replacements hentry)
  rw [Tabling.instantiate, ends_bind_iff, ends_get_iff, ends_bind_iff]
  refine (substitute_substituted hclosed htemplate _).mono ?_
  rintro result t'' ⟨image, hresult, h⟩
  have hclosed' := h.closed hclosed htemplate hmap
  have hsame : ∃ image t₁, result = image template ∧
      t.Substituted (t.replacements template arguments) template image t₁ ∧ t₁.Resembles t'' ∧
      t''.Closed := ⟨image, t'', hresult, h, .refl t'', hclosed'⟩
  split
  · rw [ends_bind_iff, ends_get_iff]
    split
    · rw [ends_bind_iff, Tabling.update, ends_modify_iff, ends_pure_iff]
      exact ⟨image, t'', hresult, h, .rename t'' result _,
        hclosed'.update fun part hpart => hclosed' result part hpart⟩
    · exact hsame
  · exact hsame

/-- Filling in a template twice with the same arguments gives two types, unless the template leads to
nothing that is filled in. Each may be used where the other one is required, at any time, though neither
has the parts of the other. All that a comparison may come to from the template needs to have values and
to be well named, and no wildcard may be left. Between and after there may be more types, and types may
get other names. -/
theorem Closed.instances_admitted (hclosed : t.Closed) (htemplate : template.index < t.size)
    (harguments : ∀ argument ∈ arguments, argument.index < t.size)
    (hrecognizable : ∀ id, t.ComesTo template id → (t.get id).Recognizable)
    (hsome : ∀ argument ∈ arguments, t.isNothing argument = false) :
    ∃ first t₁, Tabling.instantiate template arguments t = .ok (first, t₁) ∧ t₁.Closed ∧
      (t₁.WildcardFree first → ∀ t₂, t₁.Resembles t₂ → t₂.Closed →
        ∃ second t₃, Tabling.instantiate template arguments t₂ = .ok (second, t₃) ∧ t₃.Closed ∧
          ((t.replacements template arguments).lookup template = none →
            t.Mentions (t.replacements template arguments) template → first ≠ second) ∧
          ∀ t₄ s, t₃.Resembles t₄ → Session.Reached t₄ s →
            s.checker.Admits t₄ first second ∧ s.checker.Admits t₄ second first) := by
  have hmap : ∀ entry ∈ t.replacements template arguments, entry.2.index < t.size :=
    fun entry hentry => harguments _ (mem_arguments_of_mem_replacements hentry)
  obtain ⟨_, t₁, hrun, image, t', rfl, hfirst, hname, hclosed₁⟩ :=
    ends_iff.mp (hclosed.instantiate_ends htemplate harguments)
  refine ⟨image template, t₁, hrun, hclosed₁, fun hfree t₂ hbetween hclosed₂ => ?_⟩
  have hbefore : t.Resembles t₂ := (hfirst.grows.resembles.trans hname).trans hbetween
  have hmap₂ : ∀ entry ∈ t.replacements template arguments, entry.2.index < t₂.size :=
    fun entry hentry => hbefore.lt (hmap entry hentry)
  obtain ⟨_, t₃, hrun', image', t'', rfl, hsecond, hname', hclosed₃⟩ := ends_iff.mp
    (hclosed₂.instantiate_ends (hbefore.lt htemplate) fun id hid => hbefore.lt (harguments id hid))
  rw [hbefore.replacements_eq htemplate] at hsecond
  have hlt : (image template).index < t₁.size :=
    hname.lt (hfirst.image_lt hclosed htemplate hmap .refl)
  refine ⟨image' template, t₃, hrun', hclosed₃, fun hstays hmentions heq => ?_, fun t₄ s hlater hs => ?_⟩
  · -- the second instance was not there before it was made
    have hnew := (hsecond.image_new template
      ⟨.refl, hstays, hbefore.mentions hclosed htemplate hmentions⟩).1
    have hold := hbetween.lt hlt
    rw [heq] at hold
    omega
  have hafter : t₂.Resembles t₄ := (hsecond.grows.resembles.trans hname').trans hlater
  have hf : t.Mirrors t₄ (t.replacements template arguments) template image :=
    (hfirst.mirrors hclosed htemplate hmap).resembles ((hname.trans hbetween).trans hafter)
  have hg : t.Mirrors t₄ (t.replacements template arguments) template image' :=
    ((hsecond.mirrors hclosed₂ (hbefore.lt htemplate) hmap₂).resembles
      (hname'.trans hlater)).of_resembles hbefore hclosed htemplate
  have hfree₄ := (hbetween.trans hafter).wildcardFree hclosed₁ hlt hfree
  have hthere : ∀ id replacement, (t.replacements template arguments).lookup id = some replacement →
      t₄.isNothing replacement = false := by
    intro id replacement hreplaced
    have hmem := mem_arguments_of_mem_replacements (mem_of_lookup_eq_some hreplaced)
    rw [isNothing, (hbefore.trans hafter).shape_eq (harguments _ hmem)]
    exact hsome _ hmem
  have hlt₁ := hf.image_lt template .refl
  have hlt₂ := hg.image_lt template .refl
  rw [hs.admits_iff hlt₁ hlt₂ hfree₄ (hf.wildcardFree hg hfree₄),
    hs.admits_iff hlt₂ hlt₁ (hf.wildcardFree hg hfree₄) hfree₄]
  exact hf.assignable hg hrecognizable hthere hfree₄

theorem recognizable_of_forall (h : ∀ d ∈ t.types, d.Recognizable) (id : TypeId) :
    (t.get id).Recognizable := by
  rcases t.get_mem_or_eq_default id with hmem | hdefault
  · exact h _ hmem
  · rw [hdefault]
    decide

/-- A wildcard, numbers, chains of the wildcard, and a template of what takes such a chain and then
another one. -/
def chainTakers : TypeTable where
  types := #[{ name := some "$A", shape := .wildcard },
    { name := some "Number", symbols := [("negative", ⟨1⟩)] },
    { shape := .compound [⟨"?0", ⟨0⟩, false⟩, ⟨"rest", ⟨2⟩, true⟩] },
    { name := some "Taker", symbols := [("last", ⟨2⟩)], handlers := [(⟨2⟩, ⟨3⟩)], params := [⟨0⟩] }]
  unions := []

theorem instances_admitted_chainTakers :
    ∃ first t₁ second t₂, Tabling.instantiate ⟨3⟩ [⟨1⟩] chainTakers = .ok (first, t₁) ∧
      Tabling.instantiate ⟨3⟩ [⟨1⟩] t₁ = .ok (second, t₂) ∧ first ≠ second ∧
      (Checker.new true).Admits t₂ first second ∧ (Checker.new true).Admits t₂ second first := by
  have hclosed : chainTakers.Closed := closed_iff.mpr (by decide)
  have hrecognizable : ∀ id, (chainTakers.get id).Recognizable := fun id =>
    recognizable_of_forall (by decide +kernel) id
  have htemplate : (⟨3⟩ : TypeId).index < chainTakers.size := by decide
  have harguments : ∀ argument ∈ [(⟨1⟩ : TypeId)], argument.index < chainTakers.size := by decide
  obtain ⟨first, t₁, hrun, hclosed₁, h⟩ := hclosed.instances_admitted htemplate harguments
    (fun id _ => hrecognizable id) (by decide)
  have hmade : Tabling.instantiate ⟨3⟩ [⟨1⟩] chainTakers =
      .ok (⟨4⟩, chainTakers.after (.instantiate ⟨3⟩ [⟨1⟩])) := rfl
  cases hrun.symm.trans hmade
  have hfree : (chainTakers.after (.instantiate ⟨3⟩ [⟨1⟩])).WildcardFree ⟨4⟩ :=
    wildcardFree_of_closed (P := (· ∈ [⟨1⟩, ⟨4⟩, ⟨5⟩])) (by decide +kernel) (by decide +kernel)
      (by decide)
  obtain ⟨second, t₂, hrun', hclosed₂, hne, hadmits⟩ := h hfree _ (.refl _) hclosed₁
  have hmentions : chainTakers.Mentions (chainTakers.replacements ⟨3⟩ [⟨1⟩]) ⟨3⟩ :=
    ⟨⟨0⟩, ⟨1⟩, .head (b := ⟨2⟩) (by decide) (.single (by decide)), rfl⟩
  exact ⟨_, _, second, t₂, hrun, hrun', hne rfl hmentions,
    hadmits t₂ ⟨.new true, []⟩ (.refl t₂) (.start hclosed₂ true)⟩

end TypeTable

end

end MessageLang
