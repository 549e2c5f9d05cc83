import MessageLang.Proofs.Types.Growth
import MessageLang.Types.Instance
import Mathlib.Data.List.Perm.Subperm
import Mathlib.Logic.Relation

namespace MessageLang

section

variable {α : Type} [DecidableEq α] {next : α → List α} {last known all : List α} {P : α → Prop}
  {x : α}

theorem nodup_eraseDups (items : List α) : items.eraseDups.Nodup := by
  generalize hlength : items.length = length
  induction length using Nat.strong_induction_on generalizing items with
  | _ length ih =>
    subst hlength
    cases items with
    | nil => exact List.nodup_nil
    | cons item rest =>
      rw [List.eraseDups_cons, List.nodup_cons, List.mem_eraseDups, List.mem_filter]
      refine ⟨by simp, ih _ ?_ _ rfl⟩
      exact Nat.lt_succ_of_le (List.length_filter_le _ _)

/-- What a round finds is next to something from the last round, and new. -/
theorem mem_fresh_iff : x ∈ (last.flatMap next).eraseDups.filter (· ∉ known) ↔
    (∃ y ∈ last, x ∈ next y) ∧ x ∉ known := by
  rw [List.mem_filter, List.mem_eraseDups, List.mem_flatMap, decide_eq_true_eq]

theorem known_subset_discoverWithin (rounds : Nat) :
    known ⊆ discoverWithin next rounds last known := by
  induction rounds generalizing last known with
  | zero => exact List.Subset.refl known
  | succ rounds ih =>
    unfold discoverWithin
    split
    · exact List.Subset.refl known
    · exact List.Subset.trans (List.subset_append_left _ _) ih

/-- What is found is of a sort that what is next to such a thing is of as well. -/
theorem forall_mem_discoverWithin (hnext : ∀ x, P x → ∀ y ∈ next x, P y) (rounds : Nat)
    (hlast : ∀ x ∈ last, P x) (hknown : ∀ x ∈ known, P x) :
    ∀ x ∈ discoverWithin next rounds last known, P x := by
  induction rounds generalizing last known with
  | zero => exact hknown
  | succ rounds ih =>
    have hfresh : ∀ x ∈ (last.flatMap next).eraseDups.filter (· ∉ known), P x := fun x hx => by
      obtain ⟨⟨y, hy, hxy⟩, -⟩ := mem_fresh_iff.mp hx
      exact hnext y (hlast y hy) x hxy
    unfold discoverWithin
    split
    · exact hknown
    · exact ih hfresh (List.forall_mem_append.mpr ⟨hknown, hfresh⟩)

/-- If there are as many rounds as there are things left to find, nothing is left next to what was
found. Every round that is not the last one finds something. -/
theorem discoverWithin_closed (hnext : ∀ x, P x → ∀ y ∈ next x, P y) (hall : ∀ x, P x → x ∈ all)
    (rounds : Nat) (hknown : ∀ x ∈ known, P x) (hlast : last ⊆ known)
    (hdone : ∀ x ∈ known, x ∉ last → next x ⊆ known) (hnodup : known.Nodup)
    (hrounds : all.length ≤ known.length + rounds) :
    ∀ x ∈ discoverWithin next rounds last known, next x ⊆ discoverWithin next rounds last known := by
  induction rounds generalizing last known with
  | zero =>
    have hsub : known ⊆ all := fun x hx => hall x (hknown x hx)
    have hperm := (List.subperm_of_subset hnodup hsub).perm_of_length_le hrounds
    exact fun x hx y hy => hperm.mem_iff.mpr (hall y (hnext x (hknown x hx) y hy))
  | succ rounds ih =>
    unfold discoverWithin
    split
    · next hnone =>
      intro x hx y hy
      by_contra hnot
      by_cases hlate : x ∈ last
      · have hfresh := mem_fresh_iff.mpr ⟨⟨x, hlate, hy⟩, hnot⟩
        rw [hnone] at hfresh
        cases hfresh
      · exact hnot (hdone x hx hlate hy)
    · next hsome =>
      have hfresh : ∀ x ∈ (last.flatMap next).eraseDups.filter (· ∉ known), P x ∧ x ∉ known :=
        fun x hx => by
          obtain ⟨⟨y, hy, hxy⟩, hnew⟩ := mem_fresh_iff.mp hx
          exact ⟨hnext y (hknown y (hlast hy)) x hxy, hnew⟩
      refine ih ?_ (List.subset_append_right _ _) ?_ ?_ ?_
      · exact List.forall_mem_append.mpr ⟨hknown, fun x hx => (hfresh x hx).1⟩
      · intro x hx hold y hy
        have hx := (List.mem_append.mp hx).resolve_right hold
        by_cases hmem : y ∈ known
        · exact List.mem_append_left _ hmem
        by_cases hlate : x ∈ last
        · exact List.mem_append_right _ (mem_fresh_iff.mpr ⟨⟨x, hlate, hy⟩, hmem⟩)
        · exact absurd (hdone x hx hlate hy) hmem
      · refine List.nodup_append.mpr ⟨hnodup, (nodup_eraseDups _).filter _, ?_⟩
        rintro x hx _ hx' rfl
        exact (hfresh x hx').2 hx
      · have hpos := List.length_pos_iff.mpr hsome
        rw [List.length_append]
        omega

end

namespace TypeTable

/-- A type leads to itself, to its parts, to their parts and so on. -/
def Leads (t : TypeTable) : TypeId → TypeId → Prop :=
  Relation.ReflTransGen fun whole part => part ∈ (t.get whole).parts

variable {t t' : TypeTable} {id part : TypeId} {map : Substitution} {P Q : TypeId → Prop}

theorem Closed.lt_of_leads (h : t.Closed) (hid : id.index < t.size) (hleads : t.Leads id part) :
    part.index < t.size := by
  cases hleads with
  | refl => exact hid
  | tail _ hstep => exact h _ _ hstep

/-- The types that are found are all that a type leads to. -/
theorem mem_reachable_iff (hlt : ∀ part, t.Leads id part → part.index < t.size) :
    part ∈ t.reachable id ↔ t.Leads id part := by
  have hnext : ∀ whole, t.Leads id whole → ∀ part ∈ (t.get whole).parts, t.Leads id part :=
    fun whole hwhole part hpart => hwhole.tail hpart
  have hself : ∀ part ∈ [id], t.Leads id part := List.forall_mem_singleton.mpr .refl
  constructor
  · exact forall_mem_discoverWithin hnext t.size hself hself part
  intro hleads
  have hall : ∀ part, t.Leads id part → part ∈ (List.range t.size).map TypeId.mk :=
    fun part hpart => List.mem_map.mpr ⟨part.index, List.mem_range.mpr (hlt part hpart), rfl⟩
  have hclosed := discoverWithin_closed hnext hall t.size hself (List.Subset.refl _)
    (fun part hpart hnot => absurd hpart hnot) (by simp) (by simp)
  induction hleads with
  | refl => exact known_subset_discoverWithin t.size (List.mem_singleton_self id)
  | tail _ hstep ih => exact hclosed _ ih hstep

/-- A type goes on to lead to the same types when there are more of them. -/
theorem Extends.leads_iff (h : t.Extends t') (hclosed : t.Closed) (hid : id.index < t.size) :
    t'.Leads id part ↔ t.Leads id part := by
  constructor
  · intro hleads
    induction hleads with
    | refl => exact .refl
    | tail _ hstep ih => exact ih.tail (h.get_eq _ (hclosed.lt_of_leads hid ih) ▸ hstep)
  · intro hleads
    induction hleads with
    | refl => exact .refl
    | tail hleads hstep ih =>
      refine ih.tail ?_
      rwa [h.get_eq _ (hclosed.lt_of_leads hid hleads)]

/-- A type leads to another one where the way goes on only from types of a sort. -/
def LeadsOver (t : TypeTable) (P : TypeId → Prop) : TypeId → TypeId → Prop :=
  Relation.ReflTransGen fun whole part => P whole ∧ part ∈ (t.get whole).parts

theorem LeadsOver.leads (h : t.LeadsOver P id part) : t.Leads id part := by
  induction h with
  | refl => exact .refl
  | tail _ hstep ih => exact ih.tail hstep.2

theorem LeadsOver.mono (h : t.LeadsOver P id part) (hsub : ∀ id, P id → Q id) :
    t.LeadsOver Q id part := by
  induction h with
  | refl => exact .refl
  | tail _ hstep ih => exact ih.tail ⟨hsub _ hstep.1, hstep.2⟩

/-- What a type leads to, it leads to over types of a sort alone, or past one that is not. -/
theorem Leads.over_or_past (h : t.Leads id part) :
    t.LeadsOver P id part ∨ ∃ other, ¬ P other ∧ t.LeadsOver P id other ∧ t.Leads other part := by
  induction h with
  | refl => exact .inl .refl
  | @tail whole part _ hstep ih =>
    rcases ih with hover | ⟨other, hnot, hover, hleads⟩
    · by_cases hwhole : P whole
      · exact .inl (hover.tail ⟨hwhole, hstep⟩)
      · exact .inr ⟨whole, hwhole, hover, .single hstep⟩
    · exact .inr ⟨other, hnot, hover, hleads.tail hstep⟩

/-- A type leads to one that a substitution replaces. -/
def Mentions (t : TypeTable) (map : Substitution) (id : TypeId) : Prop :=
  ∃ part image, t.Leads id part ∧ map.lookup part = some image

/-- A type mentions what the types mention that it leads to. -/
theorem Mentions.of_leads (hleads : t.Leads id part) (h : t.Mentions map part) :
    t.Mentions map id := by
  obtain ⟨last, image, hlast, himage⟩ := h
  exact ⟨last, image, hleads.trans hlast, himage⟩

theorem Mentions.of_part (hpart : part ∈ (t.get id).parts) (h : t.Mentions map part) :
    t.Mentions map id := h.of_leads (.single hpart)

/-- The search for what a substitution replaces finds it, also when there are more types by then. -/
theorem Extends.mentions_iff (h : t.Extends t') (hclosed : t.Closed) (hid : id.index < t.size) :
    t'.mentions map id = true ↔ t.Mentions map id := by
  have hlt : ∀ part, t'.Leads id part → part.index < t'.size := fun part hpart =>
    h.lt (hclosed.lt_of_leads hid ((h.leads_iff hclosed hid).mp hpart))
  simp only [mentions, List.any_eq_true, mem_reachable_iff hlt, h.leads_iff hclosed hid,
    Option.isSome_iff_exists, Mentions, exists_and_left]

end TypeTable

end MessageLang
