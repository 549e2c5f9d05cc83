import MessageLang.Proofs.Types.Images
import MessageLang.Proofs.Typing.Matching
import MessageLang.Proofs.Typing.Whole

namespace MessageLang

namespace Bindings

variable {t : TypeTable} {b : Bindings} {wildcard bound : TypeId}

/-- Only a wildcard that is known stands for a type in the end, which is no wildcard. -/
theorem resolution?_eq_some (h : b.resolution? t wildcard = some bound) :
    wildcard ∈ b.known ∧ t.isWildcard wildcard = true ∧ t.isWildcard bound = false ∧
      b.resolve t wildcard = bound := by
  simp only [resolution?, Bool.or_eq_true, decide_eq_true_eq] at h
  split at h
  · cases h
  next hnot =>
  cases h
  rw [not_or, Bool.not_eq_true] at hnot
  have hwild : t.isWildcard wildcard = true := by
    by_contra hwild
    exact hnot.1 (resolve_of_not_wildcard (Bool.eq_false_of_not_eq_true hwild))
  refine ⟨?_, hwild, hnot.2, rfl⟩
  by_contra hunknown
  have hclass : b.class? wildcard = none := List.find?_eq_none.mpr fun cls hcls hmem =>
    hunknown (List.mem_flatMap.mpr ⟨cls, hcls, by simpa using hmem⟩)
  apply hnot.1
  simp [resolve, resolveWithin, hwild, binding?, hclass]

private theorem lookup_filterMap_map (keys : List TypeId) (f : TypeId → Option TypeId)
    (key : TypeId) :
    (keys.filterMap fun key => (f key).map (key, ·)).lookup key =
      if key ∈ keys then f key else none := by
  induction keys with
  | nil => rfl
  | cons first rest ih =>
    rw [List.filterMap_cons]
    by_cases heq : key = first
    · subst heq
      cases hvalue : f key with
      | none => simp [ih, hvalue]
      | some value => simp
    · cases f first <;> simp [ih, heq, List.lookup_cons, beq_false_of_ne heq]

/-- Substituting all that wildcards stand for puts in what each of them stands for in the end. -/
theorem lookup_resolutions (b : Bindings) (t : TypeTable) (wildcard : TypeId) :
    (b.resolutions t).lookup wildcard = b.resolution? t wildcard := by
  rw [resolutions, lookup_filterMap_map]
  split
  · rfl
  · next hunknown =>
    cases hbound : b.resolution? t wildcard with
    | none => rfl
    | some bound => exact absurd (resolution?_eq_some hbound).1 hunknown

end Bindings

section

variable {t t' : TypeTable} {b : Bindings} {root : TypeId} {image : TypeId → TypeId}

/-- With what wildcards stand for put in, a wildcard that stands for something is met only within what
was put in. -/
theorem TypeTable.Substituted.not_leadsOver
    (h : t.Substituted (b.resolutions t) root image t') (hclosed : t.Closed)
    (hroot : root.index < t.size) {wildcard : TypeId} (hbound : b.resolution? t wildcard ≠ none) :
    ¬ t'.LeadsOver (fun whole => ∀ other, t.Leads root other → b.resolution? t other ≠ some whole)
      (image root) wildcard := by
  intro hleads
  have hkeys : ∀ entry ∈ b.resolutions t, entry.1.index < t.size := by
    intro entry hentry
    obtain ⟨key, -, hkey⟩ := List.mem_filterMap.mp hentry
    obtain ⟨bound, hbound, rfl⟩ := Option.map_eq_some_iff.mp hkey
    exact TypeTable.lt_of_isWildcard (Bindings.resolution?_eq_some hbound).2.1
  obtain ⟨other, -, hother⟩ := h.exists_replaced_of_leadsOver hclosed hroot hkeys
    (hleads.mono fun whole hwhole other hmeets => by
      rw [Bindings.lookup_resolutions]
      exact hwhole other hmeets.leads)
    (by rwa [Bindings.lookup_resolutions])
  rw [Bindings.lookup_resolutions] at hother
  -- what a wildcard stands for is no wildcard, but only wildcards stand for something
  obtain ⟨bound, hbound⟩ := Option.ne_none_iff_exists'.mp hbound
  have hwild := (Bindings.resolution?_eq_some hbound).2.1
  have hknown := (Bindings.resolution?_eq_some hother).2.2.1
  rw [hwild] at hknown
  cases hknown

/-- If what was put in leads to no wildcard that stands for something, neither does the result. -/
theorem TypeTable.Substituted.resolution?_eq_none
    (h : t.Substituted (b.resolutions t) root image t') (hclosed : t.Closed)
    (hroot : root.index < t.size) (hproper : b.Proper t)
    (hbound : ∀ other bound, t.Leads root other → b.resolution? t other = some bound →
      ∀ wildcard, t.Leads bound wildcard → b.resolution? t wildcard = none)
    {wildcard : TypeId} (hleads : t'.Leads (image root) wildcard) :
    b.resolution? t wildcard = none := by
  by_contra hsome
  obtain hover | ⟨whole, hput, -, hleads⟩ := hleads.over_or_past
    (P := fun whole => ∀ other, t.Leads root other → b.resolution? t other ≠ some whole)
  · exact h.not_leadsOver hclosed hroot hsome hover
  · simp only [not_forall, not_not] at hput
    obtain ⟨other, hother, hput⟩ := hput
    have hlt : whole.index < t.size := by
      obtain ⟨-, -, -, rfl⟩ := Bindings.resolution?_eq_some hput
      exact hproper.lt.resolve t (hclosed.lt_of_leads hroot hother)
    exact hsome (hbound other whole hother hput wildcard
      ((h.grows.leads_iff hclosed hlt).mp hleads))

end

namespace Typing

variable {p : Pass} {type : TypeId}

/-- A call is noted with a guard only if a handler with that guard takes the message, and then its type
is what the handler answers, with what wildcards stand for by then put in. -/
theorem answer_dispatches (hp : p.Sound) (htype : type.index < p.table.size) (a : Arena)
    (node message : NodeId) (receiver : TypeId) :
    Ends (answer a node message receiver type) p fun result p' =>
      p'.coercions = p.coercions ∨ ∃ guard declared,
        (guard, declared) ∈ (p.table.get (p.checker.bindings.resolve p.table receiver)).handlers ∧
        p'.coercions = (node, guard) :: p.coercions ∧ p'.checker.bindings.Proper p.table ∧
        Tabling.substitute declared (p'.checker.bindings.resolutions p.table) p.table =
          .ok (result, p'.table) := by
  have hproper : p.checker.bindings.Proper p.table := fun cls hcls bound hbound =>
    ⟨hp.checker.bound_lt cls hcls bound hbound, hp.checker.bound_known cls hcls bound hbound⟩
  rw [answer]
  simp only [ends_bind_iff, ends_get_iff]
  split
  · exact .inl rfl
  split
  · exact .inl rfl
  generalize p.checker.bindings.resolve p.table receiver = receiver'
  have hhandlers : ∀ handler ∈ (p.table.get receiver').handlers,
      handler.1.index < p.table.size ∧ handler.2.index < p.table.size :=
    fun _ hhandler => hp.space.table.handler_lt hhandler
  rw [ends_bind_iff]
  refine (firstMatch?_from hp.space.table hproper htype message _ hhandlers
    p.checker.conflicts).mono fun found p₁ hfound => ?_
  split at hfound
  · next guard declared hfind =>
    obtain ⟨c, result, table, hjudge, hsubstitute, rfl, rfl⟩ := hfound
    rw [ends_bind_iff, ends_modify_iff, ends_pure_iff]
    have hmem := List.mem_of_find?_eq_some hfind
    obtain ⟨_, _, hrun, hc, -⟩ := judge_ends hp.space.table.closed hproper htype (hhandlers _ hmem).1
    cases hjudge.symm.trans hrun
    exact .inr ⟨guard, declared, hmem, rfl, hc, hsubstitute⟩
  · obtain ⟨rfl, rfl⟩ := hfound
    rw [ends_bind_iff, report, ends_reading_iff, Reading.ends_report_iff]
    exact .inl rfl

/-- A call is answered at any time, and if it is noted with a guard, by a handler with that guard: every
way from its type to a wildcard that stands for something by then goes through what such a wildcard
stands for. So where a handler answers with wildcards that stand for types without such wildcards,
there is none in the type of the call. -/
theorem answer_applies_bindings (hp : p.Sound) (htype : type.index < p.table.size) (a : Arena)
    (node message : NodeId)
    (receiver : TypeId) :
    ∃ result p', answer a node message receiver type p = .ok (result, p') ∧
      (p'.coercions = p.coercions ∨ ∃ guard declared,
        p'.coercions = (node, guard) :: p.coercions ∧
        (guard, declared) ∈ (p.table.get (p.checker.bindings.resolve p.table receiver)).handlers ∧
        (∀ wildcard, p'.checker.bindings.resolution? p.table wildcard ≠ none →
          ¬ p'.table.LeadsOver (fun whole => ∀ other, p.table.Leads declared other →
            p'.checker.bindings.resolution? p.table other ≠ some whole) result wildcard) ∧
        ((∀ other bound, p.table.Leads declared other →
          p'.checker.bindings.resolution? p.table other = some bound →
            ∀ wildcard, p.table.Leads bound wildcard →
              p'.checker.bindings.resolution? p.table wildcard = none) →
          ∀ wildcard, p'.table.Leads result wildcard →
            p'.checker.bindings.resolution? p.table wildcard = none)) := by
  obtain ⟨result, p', hrun, hnoted⟩ :=
    ends_iff.mp (answer_dispatches hp htype a node message receiver)
  refine ⟨result, p', hrun, hnoted.imp_right ?_⟩
  rintro ⟨guard, declared, hhandler, hcoercions, hproper, hsubstitute⟩
  have hclosed := hp.space.table.closed
  have hdeclared := (hp.space.table.handler_lt hhandler).2
  obtain ⟨_, _, hrun', image, rfl, himages⟩ := ends_iff.mp (TypeTable.substitute_substituted hclosed
    hdeclared (p'.checker.bindings.resolutions p.table))
  cases hsubstitute.symm.trans hrun'
  exact ⟨guard, declared, hcoercions, hhandler,
    fun _ hbound => himages.not_leadsOver hclosed hdeclared hbound,
    fun hbound _ hleads => himages.resolution?_eq_none hclosed hdeclared hproper hbound hleads⟩

/-- The types at the start, a wildcard, a struct of it, and an object that answers all that the wildcard
takes with the struct. -/
def wrappingTypes : TypeTable :=
  let t := (TypeTable.initial.push { handlers := [(.anything, .nothing)] }).2
  let t := (t.push { name := some "$A", shape := .wildcard }).2
  let t := (t.push { shape := .compound [⟨"x", ⟨19⟩, false⟩], symbols := [("x", ⟨19⟩)] }).2
  (t.push { handlers := [(⟨19⟩, ⟨20⟩)] }).2

theorem sound_wrappingTypes : wrappingTypes.Sound :=
  (((TypeTable.initial_sound.push (by decide +kernel) rfl).push (by decide +kernel) rfl).push
    (by decide +kernel) rfl).push (by decide +kernel) rfl

/-- The object answers a number with a struct of a number. -/
theorem answer_applies_bindings_wrappingTypes :
    (Pass.started {} .empty ⟨18⟩ wrappingTypes).Sound ∧
      ∃ result p', answer .empty ⟨0⟩ ⟨1⟩ ⟨21⟩ .number (.started {} .empty ⟨18⟩ wrappingTypes) =
        .ok (result, p') ∧ p'.coercions = [(⟨0⟩, ⟨19⟩)] ∧
        p'.checker.bindings = [⟨[⟨19⟩], some .number⟩] ∧
        ∀ wildcard, p'.table.Leads result wildcard →
          p'.checker.bindings.resolution? wrappingTypes wildcard = none := by
  have hmore : TypeTable.initial.Extends wrappingTypes :=
    ((((TypeTable.Extends.refl _).push _).push _).push _).push _
  have hsound : (Pass.started {} .empty ⟨18⟩ wrappingTypes).Sound :=
    Pass.started_sound sound_wrappingTypes hmore (by decide +kernel)
  have hevents : (match answer .empty ⟨0⟩ ⟨1⟩ ⟨21⟩ .number (.started {} .empty ⟨18⟩ wrappingTypes) with
      | .ok (_, p) => some (p.coercions, p.checker.bindings)
      | .error _ => none) = some ([(⟨0⟩, ⟨19⟩)], [⟨[⟨19⟩], some .number⟩]) := by decide +kernel
  have hnumber : TypeId.number.index < wrappingTypes.size := by decide +kernel
  obtain ⟨result, p', hrun, hnoted⟩ := answer_applies_bindings hsound hnumber .empty ⟨0⟩ ⟨1⟩ ⟨21⟩
  rw [hrun] at hevents
  obtain ⟨hcoercions, hbindings⟩ := Prod.mk.inj (Option.some.inj hevents)
  refine ⟨hsound, result, p', hrun, hcoercions, hbindings, ?_⟩
  rcases hnoted with hsame | ⟨_, _, -, -, -, happlied⟩
  · rw [hcoercions] at hsame
    cases hsame
  refine happlied fun other bound _ hbound wildcard hleads => ?_
  rw [hbindings] at hbound ⊢
  -- only the one wildcard stands for something, and numbers do not lead to it
  have hother : other = ⟨19⟩ := by simpa [Bindings.known] using (Bindings.resolution?_eq_some hbound).1
  subst hother
  have hfound : Bindings.resolution? [⟨[⟨19⟩], some .number⟩] wrappingTypes ⟨19⟩ = some .number := by
    decide +kernel
  obtain rfl : TypeId.number = bound := Option.some.inj (hfound.symm.trans hbound)
  have hlt : ∀ part, wrappingTypes.Leads .number part → part.index < wrappingTypes.size :=
    fun _ hpart => sound_wrappingTypes.closed.lt_of_leads hnumber hpart
  have hnone : ∀ part ∈ wrappingTypes.reachable .number,
      Bindings.resolution? [⟨[⟨19⟩], some .number⟩] wrappingTypes part = none := by decide +kernel
  exact hnone wildcard ((TypeTable.mem_reachable_iff hlt).mpr hleads)

end Typing

end MessageLang
