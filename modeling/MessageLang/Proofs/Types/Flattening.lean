import MessageLang.Proofs.Types.Lasting

namespace MessageLang

section

variable {α : Type} [DecidableEq α] {before after items items' : List α}

theorem eraseDups_eq_self (h : items.Nodup) : items.eraseDups = items := by
  induction items with
  | nil => rfl
  | cons item rest ih =>
    rw [List.nodup_cons] at h
    have hkeep : rest.filter (fun other => !other == item) = rest := by
      apply List.filter_eq_self.mpr
      intro other hother
      have hne : other ≠ item := ne_of_mem_of_not_mem hother h.1
      simp [hne]
    rw [List.eraseDups_cons, hkeep, ih h.2]

theorem eraseDups_filter (p : α → Bool) (items : List α) :
    (items.filter p).eraseDups = items.eraseDups.filter p := by
  generalize hlength : items.length = length
  induction length using Nat.strong_induction_on generalizing items with
  | _ length ih =>
    cases items with
    | nil => rfl
    | cons item rest =>
      have hshort : (rest.filter (fun other => !other == item)).length < length := by
        have := List.length_filter_le (fun other => !other == item) rest
        rw [List.length_cons] at hlength
        omega
      rw [List.eraseDups_cons, List.filter_cons, List.filter_cons, ← ih _ hshort _ rfl,
        List.filter_filter]
      by_cases hp : p item = true
      · rw [if_pos hp, if_pos hp, List.eraseDups_cons, List.filter_filter]
        simp only [Bool.and_comm]
      · rw [if_neg hp, if_neg hp]
        -- what passes is not the item that does not
        congr 1
        apply List.filter_congr
        intro other _
        by_cases heq : other = item
        · rw [heq, Bool.eq_false_of_not_eq_true hp, Bool.false_and]
        · simp [heq]

/-- Leaving repetitions out of a stretch first makes no difference. -/
theorem eraseDups_append_congr (h : items.eraseDups = items'.eraseDups) :
    (before ++ items ++ after).eraseDups = (before ++ items' ++ after).eraseDups := by
  have hmem : ∀ x, x ∈ items ↔ x ∈ items' := by
    intro x
    rw [← List.mem_eraseDups, h, List.mem_eraseDups]
  have hremove : ∀ items : List α,
      (items.removeAll before).eraseDups = items.eraseDups.removeAll before :=
    fun items => eraseDups_filter _ items
  have hafter : after.removeAll (before ++ items) = after.removeAll (before ++ items') := by
    apply List.filter_congr
    intro x _
    simp [hmem]
  rw [List.eraseDups_append, List.eraseDups_append, List.eraseDups_append, List.eraseDups_append,
    hremove, hremove, h, hafter]

end

namespace TypeTable

/-- A step that makes no unions. All types may be told more, and there may be more that have no
variants. -/
structure AddsPlain (t t' : TypeTable) : Prop extends t.Amends t' where
  variants_nil : ∀ id : TypeId, t.size ≤ id.index → (t'.get id).variants = []

/-- A table with the built-in types in which unions were made of types that are no unions. -/
structure Flat (t : TypeTable) : Prop extends t.Orderly where
  of_initial : initial.Retains t
  variants_nil : ∀ id, ∀ part ∈ (t.get id).variants, (t.get part).variants = []

variable {t t' t'' : TypeTable} {ids xs ys zs : List TypeId} {union inner : TypeId}

theorem variants_eq_nil (h : ∀ d ∈ t.types, d.variants = []) (id : TypeId) :
    (t.get id).variants = [] := by
  rcases t.get_mem_or_eq_default id with hmem | hdefault
  · exact h _ hmem
  · rw [hdefault]
    rfl

theorem variants_initial : ∀ id, (initial.get id).variants = [] :=
  variants_eq_nil (by decide +kernel)

theorem flat_initial : initial.Flat where
  builtins_lt := initial_sound.builtins_lt
  uniting := initial_sound.uniting
  of_initial := .refl initial
  variants_nil _ part _ := variants_initial part

/-- Types are united from no unions if they have none for variants. -/
theorem variants_nil_of_mem
    (h : ∀ id ∈ ids, ∀ part ∈ (t.get id).variants, (t.get part).variants = []) {part : TypeId}
    (hpart : part ∈ t.unionParts ids) : (t.get part).variants = [] := by
  obtain ⟨⟨id, hid, halternative⟩, -⟩ := mem_unionParts.mp hpart
  by_cases hnil : (t.get id).variants = []
  · rw [alternatives_of_variants_nil hnil] at halternative
    rw [List.mem_singleton.mp halternative]
    exact hnil
  · rw [alternatives_of_variants_ne_nil hnil] at halternative
    exact h id hid part halternative

theorem Flat.add (h : t.Flat) (hadds : t.AddsPlain t') : t'.Flat := by
  refine ⟨h.toOrderly.amend hadds.toAmends, h.of_initial.trans hadds.toRetains,
    fun id part hpart => ?_⟩
  by_cases hid : id.index < t.size
  · rw [hadds.variants_eq id hid] at hpart
    rw [hadds.variants_eq part (h.closed.variant_lt hpart)]
    exact h.variants_nil id part hpart
  · rw [hadds.variants_nil id (Nat.le_of_not_lt hid)] at hpart
    cases hpart

/-- Uniting types leaves it so: what is made was made of types that are no unions. -/
theorem Flat.union_ends (h : t.Flat) (hids : ∀ id ∈ ids, id.index < t.size) :
    Ends (Tabling.union ids) t fun union t' => t'.Flat ∧ t'.united? ids = some union := by
  apply ((h.toOrderly.union_ends hids).and_after (h.closed.union_runs hids).after).mono
  rintro union t' ⟨⟨horderly, -, hunited⟩, hgrows, calls, -, hcourse⟩
  refine ⟨⟨horderly, h.of_initial.trans hgrows.retains, fun id part hpart => ?_⟩, hunited⟩
  have hold : part.index < t.size ∧ (t.get part).variants = [] := by
    by_cases hid : id.index < t.size
    · rw [hgrows.get_eq id hid] at hpart
      exact ⟨h.closed.variant_lt hpart, h.variants_nil id part hpart⟩
    · by_cases hlt : id.index < t'.size
      · obtain ⟨call, hcall, hnew, rfl⟩ := hcourse.exists_of_new id (Nat.le_of_not_lt hid) hlt
        rw [(hcourse.made call hcall hnew).variants_eq, hcourse.parts_eq h.closed hcall] at hpart
        exact ⟨unionParts_lt h.closed (.refl t) (hcourse.ids_lt call hcall) part hpart,
          variants_nil_of_mem (fun id _ => h.variants_nil id) hpart⟩
      · rw [get_eq_default_of_le (Nat.le_of_not_lt hlt)] at hpart
        cases hpart
  rw [hgrows.get_eq part hold.1]
  exact hold.2

theorem Flat.goes (h : t.Flat) (hgoes : t.Goes AddsPlain t') : t'.Flat := by
  induction hgoes with
  | start => exact h
  | step _ hadds ih => exact ih.add hadds
  | unite _ hids hrun ih => exact ((ih.union_ends hids).after _ _ hrun).1

theorem unionParts_append_congr (h : t.unionParts ys = t.unionParts ids) :
    t.unionParts (xs ++ ys ++ zs) = t.unionParts (xs ++ ids ++ zs) := by
  simp only [unionParts, List.flatMap_append, List.filter_append] at h ⊢
  exact eraseDups_append_congr h

/-- One type alone is united from its alternatives as they are, if these are distinct and may have
values. -/
theorem unionParts_singleton {id : TypeId} (hnodup : (t.alternatives id).Nodup)
    (hnever : ∀ part ∈ t.alternatives id, t.isNever part = false) :
    t.unionParts [id] = t.alternatives id := by
  have hkeep : (t.alternatives id).filter (!t.isNever ·) = t.alternatives id := by
    apply List.filter_eq_self.mpr
    intro part hpart
    rw [hnever part hpart, Bool.not_false]
  rw [unionParts, List.flatMap_singleton, hkeep, eraseDups_eq_self hnodup]

/-- A union comes to the same alternatives as what it was made of, unless that is for all values. -/
theorem Flat.unionParts_singleton (h : t.Flat) (hunited : t.united? ys = some inner)
    (hany : ∀ part ∈ t.unionParts ys, t.isAnything part = false) :
    t.unionParts [inner] = t.unionParts ys := by
  have hnever : ∀ part ∈ t.unionParts ys, t.isNever part = false :=
    fun _ hpart => (mem_unionParts.mp hpart).2
  have hsame : t.alternatives inner = t.unionParts ys → t.unionParts [inner] = t.unionParts ys := by
    intro halternatives
    rw [← halternatives] at hnever ⊢
    apply TypeTable.unionParts_singleton _ hnever
    rw [halternatives]
    exact nodup_unionParts t ys
  rcases united?_cases t ys with ⟨⟨part, hpart, hsome⟩, -⟩ | ⟨hnil, heq⟩ | ⟨only, hone, heq⟩ |
    ⟨-, htwo, heq⟩
  · rw [hany part hpart] at hsome
    cases hsome
  · obtain rfl : inner = .never := Option.some.inj (hunited.symm.trans heq)
    have hisNever : t.isNever .never = true := by
      rw [isNever, h.of_initial.shape_eq .never (by decide +kernel)]
      decide +kernel
    have hvariants : (t.get .never).variants = [] := by
      rw [h.of_initial.variants_eq .never (by decide +kernel)]
      decide +kernel
    rw [unionParts, List.flatMap_singleton, alternatives_of_variants_nil hvariants, hnil]
    simp [hisNever]
  · obtain rfl : inner = only := Option.some.inj (hunited.symm.trans heq)
    have hvariants : (t.get inner).variants = [] :=
      variants_nil_of_mem (fun id _ => h.variants_nil id) (hone ▸ List.mem_singleton_self inner)
    apply hsame
    rw [alternatives_of_variants_nil hvariants, hone]
  · have hvariants := h.uniting.variants_eq _ _ (heq.symm.trans hunited)
    rw [← hvariants] at htwo
    apply hsame
    rw [alternatives_of_variants_ne_nil (List.ne_nil_of_length_pos (Nat.lt_of_succ_lt htwo)),
      hvariants]

theorem united?_eq_anything (h : ∃ part ∈ t.unionParts ids, t.isAnything part = true) :
    t.united? ids = some .anything := if_pos (List.any_eq_true.mpr h)

/-- Uniting types after some of them were united comes to the same as uniting all at once. -/
theorem Flat.united?_nested (h : t.Flat) (hunited : t.united? ys = some inner)
    (xs zs : List TypeId) : t.united? (xs ++ [inner] ++ zs) = t.united? (xs ++ ys ++ zs) := by
  by_cases hany : ∃ part ∈ t.unionParts ys, t.isAnything part = true
  · -- one type for all values is as good as any other
    obtain rfl : inner = .anything :=
      Option.some.inj (hunited.symm.trans (united?_eq_anything hany))
    have hanything : t.isAnything .anything = true := by
      rw [isAnything, h.of_initial.shape_eq .anything (by decide +kernel)]
      decide +kernel
    have hnever : t.isNever .anything = false := by
      rw [isNever, h.of_initial.shape_eq .anything (by decide +kernel)]
      decide +kernel
    have hvariants : (t.get .anything).variants = [] := by
      rw [h.of_initial.variants_eq .anything (by decide +kernel)]
      decide +kernel
    have hnested : TypeId.anything ∈ t.unionParts (xs ++ [.anything] ++ zs) := by
      rw [mem_unionParts]
      refine ⟨⟨.anything, by simp, ?_⟩, hnever⟩
      rw [alternatives_of_variants_nil hvariants]
      exact List.mem_singleton_self _
    obtain ⟨part, hpart, hsome⟩ := hany
    obtain ⟨⟨id, hid, halternative⟩, hpartnever⟩ := mem_unionParts.mp hpart
    have hflat : part ∈ t.unionParts (xs ++ ys ++ zs) :=
      mem_unionParts.mpr ⟨⟨id, by simp [hid], halternative⟩, hpartnever⟩
    rw [united?_eq_anything ⟨_, hnested, hanything⟩, united?_eq_anything ⟨part, hflat, hsome⟩]
  · have hnone : ∀ part ∈ t.unionParts ys, t.isAnything part = false := by
      intro part hpart
      exact Bool.eq_false_of_not_eq_true fun hsome => hany ⟨part, hpart, hsome⟩
    have hparts : t.unionParts (xs ++ [inner] ++ zs) = t.unionParts (xs ++ ys ++ zs) :=
      unionParts_append_congr (h.unionParts_singleton hunited hnone)
    rw [united?, united?, hparts]

/-- From a table on, uniting some types gives this one and leaves the table alone. -/
def Settles (t : TypeTable) (ids : List TypeId) (union : TypeId) : Prop :=
  ∀ t', t.Goes AddsPlain t' → Tabling.union ids t' = .ok (union, t')

theorem Flat.settles (h : t.Flat) (hids : ∀ id ∈ ids, id.index < t.size)
    (hunited : t.united? ids = some union) : t.Settles ids union := by
  intro t' hgoes
  apply union_eq_of_united?_eq_some
  exact hgoes.united?_eq_some (fun _ _ hadds => hadds.toAmends) h.toOrderly hids hunited

/-- Uniting types was a stage of a session, and what that came to lasts. -/
structure Stage (t : TypeTable) (ids : List TypeId) (union : TypeId) (t' : TypeTable) : Prop where
  run : Tabling.union ids t = .ok (union, t')
  goes : t.Goes AddsPlain t'
  flat : t'.Flat
  united : t'.united? ids = some union
  lt : union.index < t'.size

theorem Flat.exists_stage (h : t.Flat) (hids : ∀ id ∈ ids, id.index < t.size) :
    ∃ union t', t.Stage ids union t' := by
  obtain ⟨union, t', hrun, hflat, hunited⟩ := ends_iff.mp (h.union_ends hids)
  have hgoes : t.Goes AddsPlain t' := .unite .start hids hrun
  obtain ⟨-, hretains, -⟩ := hgoes.keeps (fun _ _ hadds => hadds.toAmends) h.toOrderly
  have hlt : union.index < t'.size := hflat.uniting.lt_of_united?_eq_some hflat.builtins_lt
    (fun id hid => (hids id hid).trans_le hretains.size_le) hunited
  exact ⟨union, t', hrun, hgoes, hflat, hunited, hlt⟩

theorem Flat.lt_of_goes (h : t.Flat) (hgoes : t.Goes AddsPlain t') {id : TypeId}
    (hid : id.index < t.size) : id.index < t'.size :=
  hid.trans_le (hgoes.keeps (fun _ _ hadds => hadds.toAmends) h.toOrderly).2.1.size_le

/-- What uniting types came to it comes to later on, and what is nested in it is united first. -/
theorem Flat.united?_nested_later (h : t.Flat) (hys : ∀ id ∈ ys, id.index < t.size)
    (hunited : t.united? ys = some inner) (hgoes : t.Goes AddsPlain t') (xs zs : List TypeId) :
    t'.united? (xs ++ [inner] ++ zs) = t'.united? (xs ++ ys ++ zs) := by
  apply (h.goes hgoes).united?_nested
  exact hgoes.united?_eq_some (fun _ _ hadds => hadds.toAmends) h.toOrderly hys hunited

/-- Of two lists that always come to the same, the second one settles when the first one is united. -/
theorem Flat.exists_settles (h : t.Flat) {ids' : List TypeId} (hids : ∀ id ∈ ids, id.index < t.size)
    (hids' : ∀ id ∈ ids', id.index < t.size)
    (hsame : ∀ t', t.Goes AddsPlain t' → t'.united? ids = t'.united? ids') :
    ∃ union t', Tabling.union ids t = .ok (union, t') ∧ t'.Settles ids' union := by
  obtain ⟨union, t', hstage⟩ := h.exists_stage hids
  have hlt : ∀ id ∈ ids', id.index < t'.size := fun id hid => h.lt_of_goes hstage.goes (hids' id hid)
  refine ⟨union, t', hstage.run, hstage.flat.settles hlt ?_⟩
  rw [← hsame t' hstage.goes, hstage.united]

section

variable (h : t.Flat) (hids : ∀ id ∈ xs ++ ys ++ zs, id.index < t.size)

include h hids

/-- Uniting some types first, and then the union with others or all at once. -/
theorem Flat.union_nested_first : ∃ inner t₁, Tabling.union ys t = .ok (inner, t₁) ∧
    t₁.Settles [inner] inner ∧ ∀ t₂, t₁.Goes AddsPlain t₂ →
      (∃ whole t₃, Tabling.union (xs ++ [inner] ++ zs) t₂ = .ok (whole, t₃) ∧
        t₃.Settles (xs ++ ys ++ zs) whole) ∧
      ∃ whole t₃, Tabling.union (xs ++ ys ++ zs) t₂ = .ok (whole, t₃) ∧
        t₃.Settles (xs ++ [inner] ++ zs) whole := by
  have hys : ∀ id ∈ ys, id.index < t.size := fun id hid => hids id (by simp [hid])
  obtain ⟨inner, t₁, hinner⟩ := h.exists_stage hys
  have hys₁ : ∀ id ∈ ys, id.index < t₁.size := fun id hid => h.lt_of_goes hinner.goes (hys id hid)
  refine ⟨inner, t₁, hinner.run, ?_, fun t₂ hgoes => ?_⟩
  · apply hinner.flat.settles (List.forall_mem_singleton.mpr hinner.lt)
    have hnested := hinner.flat.united?_nested hinner.united [] []
    simp only [List.nil_append, List.append_nil] at hnested
    rw [hnested, hinner.united]
  · have hflat : ∀ id ∈ xs ++ ys ++ zs, id.index < t₂.size :=
      fun id hid => h.lt_of_goes (hinner.goes.trans hgoes) (hids id hid)
    have hnested : ∀ id ∈ xs ++ [inner] ++ zs, id.index < t₂.size := by
      rw [List.forall_mem_append, List.forall_mem_append] at hflat ⊢
      exact hflat.imp_left fun hflat =>
        ⟨hflat.1, List.forall_mem_singleton.mpr (hinner.flat.lt_of_goes hgoes hinner.lt)⟩
    have hsame : ∀ t', t₂.Goes AddsPlain t' →
        t'.united? (xs ++ [inner] ++ zs) = t'.united? (xs ++ ys ++ zs) :=
      fun t' hlater =>
        hinner.flat.united?_nested_later hys₁ hinner.united (hgoes.trans hlater) xs zs
    have hflat₂ := hinner.flat.goes hgoes
    exact ⟨hflat₂.exists_settles hnested hflat hsame,
      hflat₂.exists_settles hflat hnested fun t' hlater => (hsame t' hlater).symm⟩

/-- Uniting all at once first. -/
theorem Flat.union_flat_first : ∃ whole t₁, Tabling.union (xs ++ ys ++ zs) t = .ok (whole, t₁) ∧
    ∀ t₂, t₁.Goes AddsPlain t₂ → ∃ inner t₃, Tabling.union ys t₂ = .ok (inner, t₃) ∧
      t₃.Settles (xs ++ [inner] ++ zs) whole := by
  obtain ⟨whole, t₁, hwhole⟩ := h.exists_stage hids
  refine ⟨whole, t₁, hwhole.run, fun t₂ hgoes => ?_⟩
  have hids₁ : ∀ id ∈ xs ++ ys ++ zs, id.index < t₁.size :=
    fun id hid => h.lt_of_goes hwhole.goes (hids id hid)
  have hids₂ : ∀ id ∈ xs ++ ys ++ zs, id.index < t₂.size :=
    fun id hid => hwhole.flat.lt_of_goes hgoes (hids₁ id hid)
  have hys₂ : ∀ id ∈ ys, id.index < t₂.size := fun id hid => hids₂ id (by simp [hid])
  obtain ⟨inner, t₃, hinner⟩ := (hwhole.flat.goes hgoes).exists_stage hys₂
  refine ⟨inner, t₃, hinner.run, hinner.flat.settles ?_ ?_⟩
  · have hids₃ : ∀ id ∈ xs ++ ys ++ zs, id.index < t₃.size :=
      fun id hid => (hwhole.flat.goes hgoes).lt_of_goes hinner.goes (hids₂ id hid)
    rw [List.forall_mem_append, List.forall_mem_append] at hids₃ ⊢
    exact hids₃.imp_left fun hids₃ => ⟨hids₃.1, List.forall_mem_singleton.mpr hinner.lt⟩
  · rw [hinner.flat.united?_nested hinner.united]
    exact (hgoes.trans hinner.goes).united?_eq_some (fun _ _ hadds => hadds.toAmends)
      hwhole.flat.toOrderly hids₁ hwhole.united

/-- Where the brackets are makes no difference. -/
theorem Flat.union_assoc : ∃ left t₁ right t₂ whole t₃,
    Tabling.union (xs ++ ys) t = .ok (left, t₁) ∧ Tabling.union (ys ++ zs) t₁ = .ok (right, t₂) ∧
      Tabling.union ([left] ++ zs) t₂ = .ok (whole, t₃) ∧ t₃.Settles (xs ++ [right]) whole := by
  have hleftlt : ∀ id ∈ xs ++ ys, id.index < t.size :=
    fun id hid => hids id (List.mem_append_left _ hid)
  obtain ⟨left, t₁, hleft⟩ := h.exists_stage hleftlt
  have hids₁ : ∀ id ∈ xs ++ ys ++ zs, id.index < t₁.size :=
    fun id hid => h.lt_of_goes hleft.goes (hids id hid)
  have hrightlt : ∀ id ∈ ys ++ zs, id.index < t₁.size := by
    intro id hid
    apply hids₁ id
    rw [List.append_assoc]
    exact List.mem_append_right _ hid
  obtain ⟨right, t₂, hright⟩ := hleft.flat.exists_stage hrightlt
  have hids₂ : ∀ id ∈ xs ++ ys ++ zs, id.index < t₂.size :=
    fun id hid => hleft.flat.lt_of_goes hright.goes (hids₁ id hid)
  have hone : ∀ id ∈ [left] ++ zs, id.index < t₂.size := List.forall_mem_append.mpr
    ⟨List.forall_mem_singleton.mpr (hleft.flat.lt_of_goes hright.goes hleft.lt),
      fun id hid => hids₂ id (List.mem_append_right _ hid)⟩
  have hother : ∀ id ∈ xs ++ [right], id.index < t₂.size := List.forall_mem_append.mpr
    ⟨fun id hid => hids₂ id (by simp [hid]), List.forall_mem_singleton.mpr hright.lt⟩
  have hsame : ∀ t', t₂.Goes AddsPlain t' →
      t'.united? ([left] ++ zs) = t'.united? (xs ++ [right]) := by
    intro t' hgoes
    have hleftsame := hleft.flat.united?_nested_later
      (fun id hid => hids₁ id (List.mem_append_left _ hid)) hleft.united
      (hright.goes.trans hgoes) [] zs
    have hrightsame := hright.flat.united?_nested_later
      (fun id hid => hleft.flat.lt_of_goes hright.goes (hrightlt id hid)) hright.united hgoes xs []
    simp only [List.nil_append, List.append_nil] at hleftsame hrightsame
    calc t'.united? ([left] ++ zs)
        = t'.united? (xs ++ ys ++ zs) := hleftsame
      _ = t'.united? (xs ++ (ys ++ zs)) := by rw [List.append_assoc]
      _ = t'.united? (xs ++ [right]) := hrightsame.symm
  obtain ⟨whole, t₃, hrun, hsettles⟩ := hright.flat.exists_settles hone hother hsame
  exact ⟨left, t₁, right, t₂, whole, t₃, hleft.run, hright.run, hrun, hsettles⟩

end

/-- Where all unions were made by uniting, uniting some types first and the union with others then
comes to the very type that uniting all at once comes to. It does so in whichever order these are
asked for, and whatever the session goes on with meanwhile that makes no unions in another way. So a
union united alone is that union, and it is all one where the brackets are. -/
theorem union_nested (h : initial.Goes AddsPlain t)
    (hids : ∀ id ∈ xs ++ ys ++ zs, id.index < t.size) :
    (∃ inner t₁, Tabling.union ys t = .ok (inner, t₁) ∧ t₁.Settles [inner] inner ∧
      ∀ t₂, t₁.Goes AddsPlain t₂ →
        (∃ whole t₃, Tabling.union (xs ++ [inner] ++ zs) t₂ = .ok (whole, t₃) ∧
          t₃.Settles (xs ++ ys ++ zs) whole) ∧
        ∃ whole t₃, Tabling.union (xs ++ ys ++ zs) t₂ = .ok (whole, t₃) ∧
          t₃.Settles (xs ++ [inner] ++ zs) whole) ∧
    (∃ whole t₁, Tabling.union (xs ++ ys ++ zs) t = .ok (whole, t₁) ∧
      ∀ t₂, t₁.Goes AddsPlain t₂ → ∃ inner t₃, Tabling.union ys t₂ = .ok (inner, t₃) ∧
        t₃.Settles (xs ++ [inner] ++ zs) whole) ∧
    ∃ left t₁ right t₂ whole t₃, Tabling.union (xs ++ ys) t = .ok (left, t₁) ∧
      Tabling.union (ys ++ zs) t₁ = .ok (right, t₂) ∧
      Tabling.union ([left] ++ zs) t₂ = .ok (whole, t₃) ∧ t₃.Settles (xs ++ [right]) whole := by
  have hflat := flat_initial.goes h
  exact ⟨hflat.union_nested_first hids, hflat.union_flat_first hids, hflat.union_assoc hids⟩

theorem addsPlain_alternatingLists : initial.AddsPlain alternatingLists := by
  have hkept : ∀ index, index < initial.size →
      (alternatingLists.get ⟨index⟩).shape = (initial.get ⟨index⟩).shape ∧
        (alternatingLists.get ⟨index⟩).variants = (initial.get ⟨index⟩).variants := by
    decide +kernel
  exact ⟨⟨⟨by decide +kernel, fun id hid => (hkept id.index hid).1,
    fun id hid => (hkept id.index hid).2⟩, reached_alternatingLists.uniting.2.closed,
    by decide +kernel⟩, fun id _ => variants_eq_nil (by decide +kernel) id⟩

/-- Both kinds of lists, and numbers. The union of the lists is made before or after the union of all
three. -/
theorem union_nested_alternatingLists :
    initial.Goes AddsPlain alternatingLists ∧
    (Tabling.union [⟨19⟩, .never, ⟨18⟩] alternatingLists).map (fun made =>
      (made.1, (made.2.get made.1).variants)) = .ok (⟨20⟩, [⟨19⟩, ⟨18⟩]) ∧
    (∃ inner t₁, Tabling.union [⟨19⟩, .never, ⟨18⟩] alternatingLists = .ok (inner, t₁) ∧
      t₁.Settles [inner] inner ∧ ∀ t₂, t₁.Goes AddsPlain t₂ →
        (∃ whole t₃, Tabling.union [⟨18⟩, inner, .number] t₂ = .ok (whole, t₃) ∧
          t₃.Settles [⟨18⟩, ⟨19⟩, .never, ⟨18⟩, .number] whole) ∧
        ∃ whole t₃, Tabling.union [⟨18⟩, ⟨19⟩, .never, ⟨18⟩, .number] t₂ = .ok (whole, t₃) ∧
          t₃.Settles [⟨18⟩, inner, .number] whole) ∧
    (∃ whole t₁, Tabling.union [⟨18⟩, ⟨19⟩, .never, ⟨18⟩, .number] alternatingLists =
        .ok (whole, t₁) ∧
      ∀ t₂, t₁.Goes AddsPlain t₂ → ∃ inner t₃,
        Tabling.union [⟨19⟩, .never, ⟨18⟩] t₂ = .ok (inner, t₃) ∧
          t₃.Settles [⟨18⟩, inner, .number] whole) ∧
    ∃ left t₁ right t₂ whole t₃,
      Tabling.union [⟨18⟩, ⟨19⟩, .never, ⟨18⟩] alternatingLists = .ok (left, t₁) ∧
      Tabling.union [⟨19⟩, .never, ⟨18⟩, .number] t₁ = .ok (right, t₂) ∧
      Tabling.union [left, .number] t₂ = .ok (whole, t₃) ∧ t₃.Settles [⟨18⟩, right] whole := by
  have hgoes : initial.Goes AddsPlain alternatingLists := .step .start addsPlain_alternatingLists
  exact ⟨hgoes, by decide +kernel,
    @union_nested alternatingLists [⟨18⟩] [⟨19⟩, .never, ⟨18⟩] [.number] hgoes (by decide +kernel)⟩

end TypeTable

end MessageLang
