import MessageLang.Proofs.Assign.Assignable
import MessageLang.Proofs.Assign.Bound
import MessageLang.Proofs.Outcome
import MessageLang.Proofs.Types.Closed
import Mathlib.Data.Finset.Prod

namespace MessageLang

theorem Descriptor.components_subset_parts (d : Descriptor) : d.components ⊆ d.parts :=
  List.subset_append_left _ _

theorem TypeTable.Closed.component_lt {t : TypeTable} (h : t.Closed) {id part : TypeId}
    (hpart : part ∈ (t.get id).components) : part.index < t.size :=
  h id part (Descriptor.components_subset_parts _ hpart)

namespace Checker

/-- How many demands on types of a table there is no verdict on. Each examination within another
has one less to choose from. -/
def openDemands (t : TypeTable) (c : Checker) : Nat :=
  ((Finset.range t.size ×ˢ Finset.range t.size).filter fun pair =>
    c.verdict? ⟨⟨pair.1⟩, ⟨pair.2⟩⟩ = none).card

/-- A demand that is entered as met, or is met whatever the parts of the types are. -/
def Accepts (t : TypeTable) (c : Checker) (target source : TypeId) : Prop :=
  (⟨target, source⟩, true) ∈ c.verdicts ∨
    t.Fits c.unwrapsSingleField (fun _ _ => False) target source

/-- What a checker that examines something can rely on at any time, also while assumptions are
open: what wildcards stand for are types of the table and no wildcards, and demands that are
entered as not met are not. Nothing is said of demands entered as met, which may be assumed. -/
structure Consistent (t : TypeTable) (unwraps : Bool) (c : Checker) : Prop where
  unwraps_eq : c.unwrapsSingleField = unwraps
  bound_lt : c.bindings.AllBound (·.index < t.size)
  bound_known : c.bindings.AllBound (t.isWildcard · = false)
  demand_lt : ∀ entry ∈ c.verdicts,
    entry.1.target.index < t.size ∧ entry.1.source.index < t.size
  refuted : ∀ d : Demand, (d, false) ∈ c.verdicts → t.WildcardFree d.target →
    t.WildcardFree d.source → ¬ t.Assignable unwraps d.target d.source

/-- Verdicts are only added, and a new one that a demand is met rests on demands that are entered
as met by then. It is enough to say so of types without wildcards: they lead to no others. -/
structure Grows (t : TypeTable) (c c' : Checker) : Prop where
  unwraps_eq : c'.unwrapsSingleField = c.unwrapsSingleField
  verdicts_suffix : c.verdicts <:+ c'.verdicts
  justified : ∀ d : Demand, (d, true) ∈ c'.verdicts → t.WildcardFree d.target →
    t.WildcardFree d.source → (d, true) ∈ c.verdicts ∨
      t.Fits c.unwrapsSingleField (c'.Accepts t) d.target d.source

variable {t : TypeTable} {unwraps : Bool} {c c' c'' : Checker}

theorem Grows.of_eq (hunwraps : c'.unwrapsSingleField = c.unwrapsSingleField)
    (hverdicts : c'.verdicts = c.verdicts) : c.Grows t c' :=
  ⟨hunwraps, hverdicts ▸ List.suffix_refl _, fun _ h _ _ => .inl (hverdicts ▸ h)⟩

theorem Grows.refl (c : Checker) : c.Grows t c := .of_eq rfl rfl

theorem Accepts.grow (hgrows : c.Grows t c') {a b : TypeId} (h : c.Accepts t a b) :
    c'.Accepts t a b := by
  unfold Accepts at h ⊢
  rw [hgrows.unwraps_eq]
  exact h.imp_left fun h => hgrows.verdicts_suffix.subset h

theorem Grows.trans (h : c.Grows t c') (h' : c'.Grows t c'') : c.Grows t c'' := by
  refine ⟨h'.unwraps_eq.trans h.unwraps_eq, h.verdicts_suffix.trans h'.verdicts_suffix, ?_⟩
  intro d hd htarget hsource
  rcases h'.justified d hd htarget hsource with hold | hfits
  · rcases h.justified d hold htarget hsource with hold | hfits
    · exact .inl hold
    · exact .inr (hfits.mono fun _ _ hacc => hacc.grow h')
  · exact .inr (h.unwraps_eq ▸ hfits)

theorem verdict?_eq_none_of_suffix {d : Demand} (hsuffix : c.verdicts <:+ c'.verdicts)
    (h : c'.verdict? d = none) : c.verdict? d = none := by
  unfold verdict? at h ⊢
  rw [List.lookup_eq_none_iff] at h ⊢
  exact fun entry hentry => h entry (hsuffix.subset hentry)

theorem openDemands_le_of_suffix (hsuffix : c.verdicts <:+ c'.verdicts) :
    c'.openDemands t ≤ c.openDemands t := by
  apply Finset.card_le_card
  intro pair hpair
  rw [Finset.mem_filter] at hpair ⊢
  exact ⟨hpair.1, verdict?_eq_none_of_suffix hsuffix hpair.2⟩

theorem openDemands_lt_of_entry {d : Demand} {verdict : Bool} (htarget : d.target.index < t.size)
    (hsource : d.source.index < t.size) (hnone : c.verdict? d = none)
    (hsuffix : c.verdicts <:+ c'.verdicts) (hentry : (d, verdict) ∈ c'.verdicts) :
    c'.openDemands t < c.openDemands t := by
  apply Finset.card_lt_card
  refine (Finset.ssubset_iff_of_subset fun pair hpair => ?_).mpr ?_
  · rw [Finset.mem_filter] at hpair ⊢
    exact ⟨hpair.1, verdict?_eq_none_of_suffix hsuffix hpair.2⟩
  · refine ⟨(d.target.index, d.source.index), ?_, ?_⟩
    · simpa [htarget, hsource] using hnone
    · simp only [Finset.mem_filter, not_and]
      intro _ hlookup
      have h := List.lookup_eq_none_iff.mp hlookup _ hentry
      simp at h

/-- Entering a demand as met for the time of its examination. -/
def assume (c : Checker) (d : Demand) : Checker := { c with verdicts := (d, true) :: c.verdicts }

theorem Consistent.assume (hc : c.Consistent t unwraps) {d : Demand}
    (htarget : d.target.index < t.size) (hsource : d.source.index < t.size) :
    (c.assume d).Consistent t unwraps where
  unwraps_eq := hc.unwraps_eq
  bound_lt := hc.bound_lt
  bound_known := hc.bound_known
  demand_lt entry hentry := by
    rcases List.mem_cons.mp hentry with rfl | hentry
    · exact ⟨htarget, hsource⟩
    · exact hc.demand_lt entry hentry
  refuted other hother := by
    rcases List.mem_cons.mp hother with heq | hother
    · cases heq
    · exact hc.refuted other hother

theorem openDemands_assume_lt {d : Demand} (htarget : d.target.index < t.size)
    (hsource : d.source.index < t.size) (hnone : c.verdict? d = none) :
    (c.assume d).openDemands t < c.openDemands t :=
  openDemands_lt_of_entry htarget hsource hnone (List.suffix_cons _ _) List.mem_cons_self

theorem openDemands_le (t : TypeTable) (c : Checker) : c.openDemands t ≤ t.size * t.size := by
  refine (Finset.card_filter_le _ _).trans ?_
  simp

end Checker

open Checker

/-- A step that answers a question: yes only if something holds by then, and yes certainly if
something must hold. It keeps what a checker relies on and needs at most so many nested
examinations. -/
def Judges (t : TypeTable) (unwraps : Bool) (demands : Nat) (step : Checking Bool)
    (holds : Checker → Prop) (must : Prop) : Prop :=
  ∀ c : Checker, c.Consistent t unwraps → c.openDemands t ≤ demands →
    Ends step c fun verdict c' => c'.Consistent t unwraps ∧ c.Grows t c' ∧
      (verdict = true → holds c') ∧ (must → verdict = true)

/-- What holds of a checker goes on to hold while verdicts are added. -/
def Lasts (t : TypeTable) (holds : Checker → Prop) : Prop :=
  ∀ c c' : Checker, c.Grows t c' → holds c → holds c'

namespace Checking

variable {α : Type} {test : α → Checking Bool} {x : α} {rest : List α}

theorem allM_cons :
    (x :: rest).allM test = (do if ← test x then rest.allM test else return false) := by
  simp only [List.allM]
  congr 1
  funext verdict
  cases verdict <;> rfl

theorem anyM_cons :
    (x :: rest).anyM test = (do if ← test x then return true else rest.anyM test) := by
  simp only [List.anyM]
  congr 1
  funext verdict
  cases verdict <;> rfl

end Checking

section

variable {t : TypeTable} {unwraps : Bool} {demands : Nat} {step next : Checking Bool}
  {holds holds' : Checker → Prop} {must must' : Prop} {α : Type} {test : α → Checking Bool}
  {holdsOf : α → Checker → Prop} {mustOf : α → Prop}

theorem Judges.imp (h : Judges t unwraps demands step holds must)
    (hholds : ∀ c : Checker, c.unwrapsSingleField = unwraps → holds c → holds' c)
    (hmust : must' → must) : Judges t unwraps demands step holds' must' :=
  fun c hc hopen => (h c hc hopen).mono fun _ c' ⟨hc', hgrows, hyes, hno⟩ =>
    ⟨hc', hgrows, fun hv => hholds c' hc'.unwraps_eq (hyes hv), fun hm => hno (hmust hm)⟩

theorem judges_pure {verdict : Bool} (hholds : verdict = true → ∀ c, holds c)
    (hmust : must → verdict = true) : Judges t unwraps demands (pure verdict) holds must :=
  fun c hc _ => ends_pure_iff.mpr ⟨hc, .refl c, fun hv => hholds hv c, hmust⟩

theorem judges_no (h : ¬ must) : Judges t unwraps demands (pure false) holds must :=
  judges_pure (fun hv => nomatch hv) fun hm => absurd hm h

theorem judges_setting {next : Bool → Checking Bool}
    (h : Judges t unwraps demands (next unwraps) holds must) :
    Judges t unwraps demands (do next (← get).unwrapsSingleField) holds must := by
  intro c hc hopen
  simp only [ends_bind_iff, ends_get_iff, hc.unwraps_eq]
  exact h c hc hopen

theorem Judges.and (h : Judges t unwraps demands step holds must)
    (h' : Judges t unwraps demands next holds' must') (hlasts : Lasts t holds) :
    Judges t unwraps demands (do if ← step then next else return false)
      (fun c => holds c ∧ holds' c) (must ∧ must') := by
  intro c hc hopen
  refine (h c hc hopen).bind fun verdict c₁ ⟨hc₁, hgrows₁, hyes, hno⟩ => ?_
  cases verdict with
  | false =>
    rw [if_neg Bool.false_ne_true, ends_pure_iff]
    exact ⟨hc₁, hgrows₁, fun hv => (nomatch hv), fun hm => hno hm.1⟩
  | true =>
    have hopen₁ := (openDemands_le_of_suffix hgrows₁.verdicts_suffix).trans hopen
    refine (h' c₁ hc₁ hopen₁).mono fun verdict c₂ ⟨hc₂, hgrows₂, hyes', hno'⟩ => ?_
    exact ⟨hc₂, hgrows₁.trans hgrows₂, fun hv => ⟨hlasts _ _ hgrows₂ (hyes rfl), hyes' hv⟩,
      fun hm => hno' hm.2⟩

theorem Judges.or (h : Judges t unwraps demands step holds must)
    (h' : Judges t unwraps demands next holds' must') :
    Judges t unwraps demands (do if ← step then return true else next)
      (fun c => holds c ∨ holds' c) (must ∨ must') := by
  intro c hc hopen
  refine (h c hc hopen).bind fun verdict c₁ ⟨hc₁, hgrows₁, hyes, hno⟩ => ?_
  cases verdict with
  | true =>
    rw [if_pos rfl, ends_pure_iff]
    exact ⟨hc₁, hgrows₁, fun _ => .inl (hyes rfl), fun _ => rfl⟩
  | false =>
    have hopen₁ := (openDemands_le_of_suffix hgrows₁.verdicts_suffix).trans hopen
    refine (h' c₁ hc₁ hopen₁).mono fun verdict c₂ ⟨hc₂, hgrows₂, hyes', hno'⟩ => ?_
    refine ⟨hc₂, hgrows₁.trans hgrows₂, fun hv => .inr (hyes' hv), ?_⟩
    rintro (hm | hm)
    · cases hno hm
    · exact hno' hm

theorem judges_allM {items : List α}
    (h : ∀ x ∈ items, Judges t unwraps demands (test x) (holdsOf x) (mustOf x))
    (hlasts : ∀ x ∈ items, Lasts t (holdsOf x)) :
    Judges t unwraps demands (items.allM test) (fun c => ∀ x ∈ items, holdsOf x c)
      (∀ x ∈ items, mustOf x) := by
  induction items with
  | nil => exact judges_pure (fun _ _ => by simp) fun _ => rfl
  | cons x rest ih =>
    have hrest := ih (fun y hy => h y (by simp [hy])) fun y hy => hlasts y (by simp [hy])
    have hboth := (h x (by simp)).and hrest (hlasts x (by simp))
    rw [Checking.allM_cons]
    exact hboth.imp (fun c _ => by simp) (by simp)

theorem judges_anyM {items : List α}
    (h : ∀ x ∈ items, Judges t unwraps demands (test x) (holdsOf x) (mustOf x)) :
    Judges t unwraps demands (items.anyM test) (fun c => ∃ x ∈ items, holdsOf x c)
      (∃ x ∈ items, mustOf x) := by
  induction items with
  | nil => exact judges_pure (fun hv => by cases hv) (by simp)
  | cons x rest ih =>
    have hboth := (h x (by simp)).or (ih fun y hy => h y (by simp [hy]))
    rw [Checking.anyM_cons]
    exact hboth.imp (fun c _ => by simp) (by simp)

end

end MessageLang
