import MessageLang.Proofs.Types.Leading
import MessageLang.Types.Union
import Mathlib.Data.Finset.Prod
import Mathlib.Data.List.Perm.Subperm

namespace MessageLang

theorem TypeId.length_le_of_nodup {ids : List TypeId} {bound : Nat} (hnodup : ids.Nodup)
    (hlt : ∀ id ∈ ids, id.index < bound) : ids.length ≤ bound := by
  have hinj : Function.Injective TypeId.index := fun x y hxy => by
    cases x
    cases y
    exact congrArg TypeId.mk hxy
  have hsub : ids.map TypeId.index ⊆ List.range bound := by
    intro index hindex
    obtain ⟨id, hid, rfl⟩ := List.mem_map.mp hindex
    exact List.mem_range.mpr (hlt id hid)
  simpa using (List.subperm_of_subset (hnodup.map hinj) hsub).length_le

/-- The lists of at most so many types out of the first ones. -/
def typeListsWithin (bound : Nat) : Nat → Finset (List TypeId)
  | 0 => {[]}
  | length + 1 => insert [] ((Finset.range bound ×ˢ typeListsWithin bound length).image
      fun entry => ⟨entry.1⟩ :: entry.2)

theorem mem_typeListsWithin {bound length : Nat} {ids : List TypeId}
    (hlt : ∀ id ∈ ids, id.index < bound) (hlength : ids.length ≤ length) :
    ids ∈ typeListsWithin bound length := by
  induction length generalizing ids with
  | zero =>
    rw [List.length_eq_zero_iff.mp (Nat.le_zero.mp hlength)]
    exact Finset.mem_singleton_self _
  | succ length ih =>
    rw [typeListsWithin]
    cases ids with
    | nil => exact Finset.mem_insert_self _ _
    | cons id rest =>
      refine Finset.mem_insert_of_mem (Finset.mem_image.mpr ⟨(id.index, rest), ?_, rfl⟩)
      rw [Finset.mem_product, Finset.mem_range]
      exact ⟨hlt id (by simp), ih (fun other hother => hlt other (by simp [hother]))
        (Nat.le_of_succ_le_succ hlength)⟩

theorem card_typeListsWithin_le (bound length : Nat) :
    (typeListsWithin bound length).card ≤ (bound + 1) ^ length := by
  induction length with
  | zero => simp [typeListsWithin]
  | succ length ih =>
    rw [typeListsWithin]
    refine (Finset.card_insert_le _ _).trans ?_
    have himage := Finset.card_image_le (s := Finset.range bound ×ˢ typeListsWithin bound length)
      (f := fun p => (⟨p.1⟩ :: p.2 : List TypeId))
    rw [Finset.card_product, Finset.card_range] at himage
    have hmul := Nat.mul_le_mul_left bound ih
    have hpos := Nat.one_le_pow length (bound + 1) (Nat.succ_pos bound)
    rw [Nat.pow_succ, Nat.mul_succ, Nat.mul_comm _ bound]
    omega

namespace TypeTable

/-- How many unions of the types below a bound have not been made. -/
def openUnions (t : TypeTable) (bound : Nat) : Nat :=
  ((typeListsWithin bound bound).filter fun parts => t.unions.lookup parts = none).card

variable {start t t' : TypeTable} {ids parts : List TypeId}

theorem openUnions_lt_unionBound (t : TypeTable) (hpos : 0 < t.size) :
    t.openUnions t.size < t.unionBound := by
  have hle := (Finset.card_filter_le (typeListsWithin t.size t.size)
    fun parts => t.unions.lookup parts = none).trans (card_typeListsWithin_le t.size t.size)
  refine Nat.lt_of_le_of_lt hle ?_
  exact Nat.pow_lt_pow_right (by omega) (Nat.lt_succ_self _)

/-- Making a union leaves one less to make. -/
theorem openUnions_lt {bound : Nat} (hnodup : parts.Nodup) (hlt : ∀ id ∈ parts, id.index < bound)
    (hnone : t.unions.lookup parts = none)
    (hmore : ∀ parts, t'.unions.lookup parts = none → t.unions.lookup parts = none)
    (hsome : t'.unions.lookup parts ≠ none) : t'.openUnions bound < t.openUnions bound := by
  refine Finset.card_lt_card ((Finset.ssubset_iff_of_subset fun other hother => ?_).mpr ?_)
  · rw [Finset.mem_filter] at hother ⊢
    exact ⟨hother.1, hmore other hother.2⟩
  · refine ⟨parts, ?_, ?_⟩
    · rw [Finset.mem_filter]
      exact ⟨mem_typeListsWithin hlt (TypeId.length_le_of_nodup hnodup hlt), hnone⟩
    · rw [Finset.mem_filter]
      exact fun h => hsome h.2

theorem mem_unionParts {part : TypeId} : part ∈ t.unionParts ids ↔
    (∃ id ∈ ids, part ∈ t.alternatives id) ∧ t.isNever part = false := by
  rw [unionParts, List.mem_eraseDups, List.mem_filter, List.mem_flatMap, Bool.not_eq_true']

theorem alternatives_of_variants_nil {id : TypeId} (h : (t.get id).variants = []) :
    t.alternatives id = [id] := by
  rw [alternatives, h]

theorem alternatives_of_variants_ne_nil {id : TypeId} (h : (t.get id).variants ≠ []) :
    t.alternatives id = (t.get id).variants := by
  unfold alternatives
  split
  · next hnil => exact absurd hnil h
  · rfl

theorem UnionOf.alternatives_eq {id : TypeId} (h : t.UnionOf parts id) :
    t.alternatives id = parts := by
  rw [alternatives, h.variants_eq]
  split
  · have htwo := h.two_le_length
    simp at htwo
  · rfl

theorem nodup_unionParts (t : TypeTable) (ids : List TypeId) : (t.unionParts ids).Nodup :=
  nodup_eraseDups _

theorem alternatives_lt (ht : t.Closed) {id part : TypeId} (hid : id.index < t.size)
    (hpart : part ∈ t.alternatives id) : part.index < t.size := by
  unfold alternatives at hpart
  split at hpart
  · rw [List.mem_singleton.mp hpart]
    exact hid
  · exact ht.variant_lt hpart

/-- What unions are made of goes back to the types they are made from. -/
theorem unionParts_lt (hstart : start.Closed) (hext : start.Extends t)
    (hids : ∀ id ∈ ids, id.index < start.size) :
    ∀ part ∈ t.unionParts ids, part.index < start.size := by
  intro part hpart
  obtain ⟨⟨id, hid, hpart⟩, _⟩ := mem_unionParts.mp hpart
  rw [alternatives, hext.get_eq id (hids id hid)] at hpart
  exact alternatives_lt hstart (hids id hid) hpart

/-- A table whose types keep their shapes, and what unions they are, in another one. They may answer
more there. -/
structure Retains (t t' : TypeTable) : Prop where
  size_le : t.size ≤ t'.size
  shape_eq : ∀ id : TypeId, id.index < t.size → (t'.get id).shape = (t.get id).shape
  variants_eq : ∀ id : TypeId, id.index < t.size → (t'.get id).variants = (t.get id).variants

theorem Extends.retains (h : t.Extends t') : t.Retains t' :=
  ⟨h.size_le, fun id hid => by rw [h.get_eq id hid], fun id hid => by rw [h.get_eq id hid]⟩

theorem retains_update (t : TypeTable) {id : TypeId} {change : Descriptor → Descriptor}
    (hshape : (change (t.get id)).shape = (t.get id).shape)
    (hvariants : (change (t.get id)).variants = (t.get id).variants) :
    t.Retains (t.update id change) where
  size_le := (size_update t id change).ge
  shape_eq other _ := get_update_congr Descriptor.shape hshape other
  variants_eq other _ := get_update_congr Descriptor.variants hvariants other

/-- What types are united from does not change when there are more types or they answer more. -/
theorem Retains.unionParts_eq (h : t.Retains t') (ht : t.Closed)
    (hids : ∀ id ∈ ids, id.index < t.size) : t'.unionParts ids = t.unionParts ids := by
  have halternatives : ids.flatMap t'.alternatives = ids.flatMap t.alternatives := by
    refine List.flatMap_congr fun id hid => ?_
    rw [alternatives, alternatives, h.variants_eq id (hids id hid)]
  rw [unionParts, unionParts, halternatives]
  refine congrArg List.eraseDups (List.filter_congr fun part hpart => ?_)
  obtain ⟨id, hid, hpart⟩ := List.mem_flatMap.mp hpart
  rw [isNever, isNever, h.shape_eq part (alternatives_lt ht (hids id hid) hpart)]

/-- What uniting some types comes to when nothing has to be made for it. -/
def united? (t : TypeTable) (ids : List TypeId) : Option TypeId :=
  let parts := t.unionParts ids
  if parts.any t.isAnything then some .anything
  else
    match parts with
    | [] => some .never
    | [only] => some only
    | _ => t.unions.lookup parts

theorem united?_cases (t : TypeTable) (ids : List TypeId) :
    ((∃ part ∈ t.unionParts ids, t.isAnything part) ∧ t.united? ids = some .anything) ∨
      (t.unionParts ids = [] ∧ t.united? ids = some .never) ∨
      (∃ only, t.unionParts ids = [only] ∧ t.united? ids = some only) ∨
      (∀ part ∈ t.unionParts ids, t.isAnything part = false) ∧ 2 ≤ (t.unionParts ids).length ∧
        t.united? ids = t.unions.lookup (t.unionParts ids) := by
  unfold united?
  generalize t.unionParts ids = parts
  by_cases hany : parts.any t.isAnything = true
  · exact .inl ⟨List.any_eq_true.mp hany, if_pos hany⟩
  refine .inr ?_
  rw [if_neg hany]
  rcases parts with _ | ⟨first, _ | ⟨second, rest⟩⟩
  · exact .inl ⟨rfl, rfl⟩
  · exact .inr (.inl ⟨first, rfl, rfl⟩)
  · refine .inr (.inr ⟨?_, by simp, rfl⟩)
    simpa only [List.any_eq_true, not_exists, not_and, Bool.not_eq_true] using hany

theorem united?_eq_lookup (hany : ∀ part ∈ t.unionParts ids, t.isAnything part = false)
    (htwo : 2 ≤ (t.unionParts ids).length) :
    t.united? ids = t.unions.lookup (t.unionParts ids) := by
  rcases united?_cases t ids with ⟨⟨part, hpart, hsome⟩, -⟩ | ⟨hnil, -⟩ | ⟨only, hone, -⟩ |
    ⟨-, -, h⟩
  · rw [hany part hpart] at hsome
    cases hsome
  · rw [hnil] at htwo
    cases htwo
  · rw [hone] at htwo
    cases Nat.le_of_succ_le_succ htwo
  · exact h

/-- What uniting several types comes to in a table with more types is still their union. -/
theorem Extends.united?_eq_lookup (h : t.Extends t') (ht : t.Closed)
    (hids : ∀ id ∈ ids, id.index < t.size)
    (hany : ∀ part ∈ t.unionParts ids, t.isAnything part = false)
    (htwo : 2 ≤ (t.unionParts ids).length) :
    t'.united? ids = t'.unions.lookup (t.unionParts ids) := by
  have hsame := h.retains.unionParts_eq ht hids
  rw [← hsame] at htwo ⊢
  refine TypeTable.united?_eq_lookup (fun part hpart => ?_) htwo
  rw [hsame] at hpart
  rw [isAnything, h.get_eq part (unionParts_lt ht (.refl t) hids part hpart)]
  exact hany part hpart

/-- Something has to be made only for several types of which there is no union yet. -/
theorem of_united?_eq_none (h : t.united? ids = none) :
    (∀ part ∈ t.unionParts ids, t.isAnything part = false) ∧ 2 ≤ (t.unionParts ids).length ∧
      t.unions.lookup (t.unionParts ids) = none := by
  rcases united?_cases t ids with ⟨-, heq⟩ | ⟨-, heq⟩ | ⟨_, -, heq⟩ | ⟨hany, htwo, heq⟩ <;>
    rw [h] at heq
  · cases heq
  · cases heq
  · cases heq
  · exact ⟨hany, htwo, heq.symm⟩

/-- What uniting types comes to stays the same when more unions are made. -/
theorem Retains.united?_eq_some (h : t.Retains t') (hkeeps : Persists t.unions t'.unions)
    (ht : t.Closed) (hids : ∀ id ∈ ids, id.index < t.size) {union : TypeId}
    (hunion : t.united? ids = some union) : t'.united? ids = some union := by
  have hany : (t.unionParts ids).any t'.isAnything = (t.unionParts ids).any t.isAnything := by
    rw [Bool.eq_iff_iff, List.any_eq_true, List.any_eq_true]
    refine exists_congr fun part => and_congr_right fun hpart => ?_
    rw [isAnything, isAnything, h.shape_eq part (unionParts_lt ht (.refl t) hids part hpart)]
  simp only [united?, h.unionParts_eq ht hids, hany] at hunion ⊢
  generalize t.unionParts ids = parts at hunion
  rcases parts with _ | ⟨first, _ | ⟨second, rest⟩⟩
  · exact hunion
  · exact hunion
  · split
    · next hsome => rwa [if_pos hsome] at hunion
    · next hnot =>
      rw [if_neg hnot] at hunion
      exact hkeeps _ _ hunion

end TypeTable

end MessageLang
