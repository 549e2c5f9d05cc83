import MessageLang.Proofs.Assign.Session

namespace MessageLang

open Checking Checker

/-- A checker answers that a type takes another one. -/
def Checker.Admits (c : Checker) (t : TypeTable) (target source : TypeId) : Prop :=
  ∃ c', canAssign t target source c = .ok (true, c')

namespace TypeTable

/-- A comparison that starts from a type may come to another one. -/
def ComesTo (t : TypeTable) : TypeId → TypeId → Prop :=
  Relation.ReflTransGen fun whole part => part ∈ (t.get whole).components

/-- A type is known by what it answers, and so are all that a comparison comes to from it, but for
those that have no values. -/
def KnownByAnswers (t : TypeTable) (id : TypeId) : Prop :=
  ∀ part, t.ComesTo id part →
    (t.get part).shape = .simple ∨ (t.get part).shape = .nothing ∨ (t.get part).shape = .never

end TypeTable

section

variable {t : TypeTable} {unwraps unwraps' : Bool} {R : TypeId → TypeId → Prop}
  {target middle source : TypeId} {s s' s'' : Session}

/-- At any time between calls a comparison ends, and its answer is whether the one type takes the
other. -/
theorem Session.Reached.decides (h : Session.Reached t s) (htarget_lt : target.index < t.size)
    (hsource_lt : source.index < t.size) : ∃ verdict c,
      canAssign t target source s.checker = .ok (verdict, c) ∧
        (verdict = true ↔ s.checker.Admits t target source) := by
  obtain ⟨verdict, c, hrun, -⟩ := ends_iff.mp
    (canAssign_ends h.sound.closed htarget_lt hsource_lt h.sound.consistent)
  refine ⟨verdict, c, hrun, fun htrue => ⟨c, htrue ▸ hrun⟩, ?_⟩
  rintro ⟨c', hrun'⟩
  cases hrun.symm.trans hrun'
  rfl

/-- At any time between calls a checker answers that types without wildcards take each other where
they are assignable. -/
theorem Session.Reached.admits_iff (h : Session.Reached t s) (htarget_lt : target.index < t.size)
    (hsource_lt : source.index < t.size) (htarget : t.WildcardFree target)
    (hsource : t.WildcardFree source) : s.checker.Admits t target source ↔
      t.Assignable s.checker.unwrapsSingleField target source := by
  obtain ⟨hclosed, hc, hverdicts, -⟩ := h.sound
  obtain ⟨verdict, c', hrun, hc', hgrows, hyes, hno⟩ :=
    ends_iff.mp (canAssign_ends hclosed htarget_lt hsource_lt hc)
  constructor
  · rintro ⟨c'', hrun'⟩
    cases hrun.symm.trans hrun'
    exact (hyes rfl htarget hsource).assignable hc' (hverdicts.grow hc hgrows) htarget hsource
  · intro hassignable
    obtain rfl := hno htarget hsource hassignable
    exact ⟨c', hrun⟩

namespace TypeTable

/-- A type takes itself, unless it takes nothing at all. -/
theorem Assignable.refl (h : t.isNothing target = false) : t.Assignable unwraps target target :=
  .of_fits ⟨h, fun hnothing => by simp [h] at hnothing, .inl rfl⟩

/-- What fits without a look inside an only field fits with one. -/
theorem Fits.mono_unwraps (hmore : unwraps = true → unwraps' = true)
    (h : t.Fits unwraps R target source) : t.Fits unwraps' R target source := by
  obtain ⟨hnothing, hempty, hrest⟩ := h
  refine ⟨hnothing, hempty, ?_⟩
  rcases hrest with h | h | h | h | h | ⟨fields, hfields, hfit | ⟨hunwraps, hinside⟩⟩
  · exact .inl h
  · exact .inr (.inl h)
  · exact .inr (.inr (.inl h))
  · exact .inr (.inr (.inr (.inl h)))
  · exact .inr (.inr (.inr (.inr (.inl h))))
  · exact .inr (.inr (.inr (.inr (.inr ⟨fields, hfields, .inl hfit⟩))))
  · exact .inr (.inr (.inr (.inr (.inr ⟨fields, hfields, .inr ⟨hmore hunwraps, hinside⟩⟩))))

theorem Assignable.mono_unwraps (hmore : unwraps = true → unwraps' = true)
    (h : t.Assignable unwraps target source) : t.Assignable unwraps' target source := by
  obtain ⟨R, hclosed, hr⟩ := h
  exact ⟨R, fun a b hab => (hclosed a b hab).mono_unwraps hmore, hr⟩

theorem KnownByAnswers.of_component {part : TypeId} (h : t.KnownByAnswers target)
    (hpart : part ∈ (t.get target).components) : t.KnownByAnswers part :=
  fun inner hinner => h inner (.head hpart hinner)

theorem KnownByAnswers.wildcardFree (h : t.KnownByAnswers target) : t.WildcardFree target := by
  intro part hpart
  rcases h part hpart with hshape | hshape | hshape <;> simp [isWildcard, hshape]

/-- Types of this kind are compared only by parts of this kind, so a relation matters only for these. -/
theorem KnownByAnswers.fits_mono {S : TypeId → TypeId → Prop} (htarget : t.KnownByAnswers target)
    (hsource : t.KnownByAnswers source)
    (himp : ∀ a b, t.KnownByAnswers a → t.KnownByAnswers b → R a b → S a b)
    (h : t.Fits unwraps R target source) : t.Fits unwraps S target source :=
  Fits.transfer (fun _ h _ hpart => h.of_component hpart) (fun _ _ => rfl) himp htarget hsource h

/-- In a table of such types alone, each of them is one. -/
theorem knownByAnswers (h : ∀ d ∈ t.types,
    d.shape = .simple ∨ d.shape = .nothing ∨ d.shape = .never) (id : TypeId) :
    t.KnownByAnswers id := by
  intro part _
  rcases t.get_mem_or_eq_default part with hmem | hdefault
  · exact h _ hmem
  · rw [hdefault]
    exact .inl rfl

/-- Among types that are known by their answers, one fits another if it is the same, has no values,
or answers all that is asked. -/
theorem KnownByAnswers.fits_iff (htarget : t.KnownByAnswers target)
    (hsource : t.KnownByAnswers source) : t.Fits unwraps R target source ↔
      t.isNothing target = false ∧ t.isNothing source = false ∧
        (target = source ∨ t.isNever source = true ∨ t.HandlersFit R target source) := by
  have hfields : t.fields? target = none := by
    rcases htarget target .refl with hshape | hshape | hshape <;>
      simp [fields?, Descriptor.fields?, hshape]
  have hanything : ∀ {id}, t.KnownByAnswers id → t.isAnything id = false := by
    intro id h
    rcases h id .refl with hshape | hshape | hshape <;> simp [isAnything, hshape]
  simp [Fits, CompoundFits, hfields, hanything htarget, hanything hsource]

/-- Types that are known by their answers are not compared by fields, so it makes no difference
whether a single field is unwrapped. -/
theorem KnownByAnswers.assignable_of (htarget : t.KnownByAnswers target)
    (hsource : t.KnownByAnswers source) (h : t.Assignable unwraps target source) :
    t.Assignable unwraps' target source := by
  let known (a b : TypeId) : Prop :=
    t.KnownByAnswers a ∧ t.KnownByAnswers b ∧ t.Assignable unwraps a b
  refine ⟨known, ?_, htarget, hsource, h⟩
  rintro a b ⟨ha, hb, hab⟩
  have hfits : t.Fits unwraps known a b :=
    ha.fits_mono hb (fun x y hx hy hxy => ⟨hx, hy, hxy⟩) hab.fits
  exact (ha.fits_iff hb).mpr ((ha.fits_iff hb).mp hfits)

/-- Answers that fit one after the other. Guards are compared the other way round, which swaps the
two steps. -/
theorem HandlersFit.trans {S : TypeId → TypeId → Prop} (h : t.HandlersFit R target middle)
    (h' : t.HandlersFit R middle source) (hcompose : ∀ a ∈ (t.get target).components,
      ∀ b ∈ (t.get middle).components, ∀ c ∈ (t.get source).components,
        (R a b → R b c → S a c) ∧ (R c b → R b a → S c a)) :
    t.HandlersFit S target source := by
  refine ⟨h.1, fun wanted hw => ?_, fun wanted hw => ?_⟩
  · obtain ⟨between, hbetween, hr⟩ := h.2.1 wanted hw
    obtain ⟨offered, hoffered, hr'⟩ := h'.2.1 _ (mem_of_lookup_eq_some hbetween)
    exact ⟨offered, hoffered, (hcompose _ (answer_mem_components hw) _
      (answer?_mem_components hbetween) _ (answer?_mem_components hoffered)).1 hr hr'⟩
  · obtain ⟨between, hbetween, hguard, hanswer⟩ := h.2.2 wanted hw
    obtain ⟨offered, hoffered, hguard', hanswer'⟩ := h'.2.2 between hbetween
    have hwanted := handler_mem_components hw
    have hmiddle := handler_mem_components hbetween
    have hgiven := handler_mem_components hoffered
    exact ⟨offered, hoffered,
      (hcompose _ hwanted.1 _ hmiddle.1 _ hgiven.1).2 hguard' hguard,
      (hcompose _ hwanted.2 _ hmiddle.2 _ hgiven.2).1 hanswer hanswer'⟩

theorem KnownByAnswers.assignable_trans (htarget : t.KnownByAnswers target)
    (hmiddle : t.KnownByAnswers middle) (hsource : t.KnownByAnswers source)
    (h : t.Assignable unwraps target middle) (h' : t.Assignable unwraps middle source) :
    t.Assignable unwraps target source := by
  let composed (a c : TypeId) : Prop := t.KnownByAnswers a ∧ t.KnownByAnswers c ∧
    ∃ b, t.KnownByAnswers b ∧ t.Assignable unwraps a b ∧ t.Assignable unwraps b c
  refine ⟨composed, ?_, htarget, hsource, middle, hmiddle, h, h'⟩
  rintro a c ⟨ha, hc, b, hb, hab, hbc⟩
  -- a single step is one step followed by none
  have hsingle : t.Assignable unwraps a c → t.Fits unwraps composed a c := fun hac =>
    ha.fits_mono hc (fun x y hx hy hxy => ⟨hx, hy, x, hx, .refl hxy.fits.1, hxy⟩) hac.fits
  obtain ⟨hfirst, -, hcases⟩ := (ha.fits_iff hb).mp hab.fits
  obtain ⟨-, hlast, hcases'⟩ := (hb.fits_iff hc).mp hbc.fits
  rcases hcases' with rfl | hnever | hfit'
  · exact hsingle hab
  · exact (ha.fits_iff hc).mpr ⟨hfirst, hlast, .inr (.inl hnever)⟩
  rcases hcases with rfl | hnever | hfit
  · exact hsingle hbc
  · -- what is never there takes only what is the same or never there either
    rw [isNever, hfit'.1] at hnever
    cases hnever
  · refine (ha.fits_iff hc).mpr ⟨hfirst, hlast, .inr (.inr (hfit.trans hfit' ?_))⟩
    intro x hx y hy z hz
    have hx := ha.of_component hx
    have hy := hb.of_component hy
    have hz := hc.of_component hz
    exact ⟨fun hxy hyz => ⟨hx, hz, y, hy, hxy, hyz⟩, fun hzy hyx => ⟨hz, hx, y, hy, hzy, hyx⟩⟩

end TypeTable

/-- Of types that are known by what they answer, one that takes a second one takes all that the second
one takes, also where they lead back to themselves. The three questions may be put to fresh checkers
or to one that has been in use. -/
theorem Session.Reached.admits_trans (h : Session.Reached t s) (h' : Session.Reached t s')
    (h'' : Session.Reached t s'') (htarget_lt : target.index < t.size)
    (hmiddle_lt : middle.index < t.size) (hsource_lt : source.index < t.size)
    (htarget : t.KnownByAnswers target) (hmiddle : t.KnownByAnswers middle)
    (hsource : t.KnownByAnswers source) (hfirst : s.checker.Admits t target middle)
    (hsecond : s'.checker.Admits t middle source) : s''.checker.Admits t target source := by
  rw [h.admits_iff htarget_lt hmiddle_lt htarget.wildcardFree hmiddle.wildcardFree] at hfirst
  rw [h'.admits_iff hmiddle_lt hsource_lt hmiddle.wildcardFree hsource.wildcardFree] at hsecond
  rw [h''.admits_iff htarget_lt hsource_lt htarget.wildcardFree hsource.wildcardFree]
  exact htarget.assignable_trans hmiddle hsource (htarget.assignable_of hmiddle hfirst)
    (hmiddle.assignable_of hsource hsecond)

/-- Chains of which each answers more than the one before and asks for less. The guards of the
outer ones are each other, so that comparing these two leads back to itself. -/
def nestedChains : TypeTable where
  types := #[{ symbols := [("next", ⟨0⟩)], handlers := [(⟨2⟩, ⟨0⟩)] },
    { symbols := [("back", ⟨1⟩), ("next", ⟨1⟩)], handlers := [(⟨1⟩, ⟨1⟩)] },
    { symbols := [("back", ⟨2⟩), ("end", ⟨2⟩), ("next", ⟨2⟩)], handlers := [(⟨0⟩, ⟨2⟩)] }]
  unions := []

theorem admits_trans_nestedChains :
    (∀ id, nestedChains.KnownByAnswers id) ∧
      (Checker.new true).Admits nestedChains ⟨0⟩ ⟨1⟩ ∧
      (Checker.new true).Admits nestedChains ⟨1⟩ ⟨2⟩ ∧
      (Checker.new true).Admits nestedChains ⟨0⟩ ⟨2⟩ := by
  have hclosed : nestedChains.Closed := TypeTable.closed_iff.mpr (by decide)
  have hknown : ∀ id, nestedChains.KnownByAnswers id := TypeTable.knownByAnswers (by decide)
  have hfresh : Session.Reached nestedChains ⟨.new true, []⟩ := .start hclosed true
  have hfirst : (Checker.new true).Admits nestedChains ⟨0⟩ ⟨1⟩ := ⟨_, rfl⟩
  have hsecond : (Checker.new true).Admits nestedChains ⟨1⟩ ⟨2⟩ := ⟨_, rfl⟩
  exact ⟨hknown, hfirst, hsecond, Session.Reached.admits_trans hfresh hfresh hfresh (by decide)
    (by decide) (by decide) (hknown _) (hknown _) (hknown _) hfirst hsecond⟩

/-- A checker that also looks inside an only field takes all that one takes which does not, whether
the field is met at once, further inside or as a guard. -/
theorem Session.Reached.admits_of_unwraps (h : Session.Reached t s) (h' : Session.Reached t s')
    (hoff : s.checker.unwrapsSingleField = false) (hon : s'.checker.unwrapsSingleField = true)
    (htarget_lt : target.index < t.size) (hsource_lt : source.index < t.size)
    (htarget : t.WildcardFree target) (hsource : t.WildcardFree source)
    (hadmits : s.checker.Admits t target source) : s'.checker.Admits t target source := by
  rw [h.admits_iff htarget_lt hsource_lt htarget hsource, hoff] at hadmits
  rw [h'.admits_iff htarget_lt hsource_lt htarget hsource, hon]
  exact hadmits.mono_unwraps fun _ => rfl

/-- Two types that call themselves again, with guards that have a single field each. Inside one of
these fields there is another such type. -/
def boxedGuards : TypeTable where
  types := #[{ handlers := [(⟨2⟩, ⟨0⟩)] }, { handlers := [(⟨3⟩, ⟨1⟩)] },
    { shape := .compound [⟨"?0", ⟨0⟩, false⟩] }, { shape := .compound [⟨"?0", ⟨4⟩, false⟩] },
    { shape := .compound [⟨"?0", ⟨0⟩, false⟩] }]
  unions := []

theorem admits_of_unwraps_boxedGuards :
    boxedGuards.WildcardFree ⟨0⟩ ∧ boxedGuards.WildcardFree ⟨1⟩ ∧
      (Checker.new false).Admits boxedGuards ⟨0⟩ ⟨1⟩ ∧
      (Checker.new true).Admits boxedGuards ⟨0⟩ ⟨1⟩ := by
  have hclosed : boxedGuards.Closed := TypeTable.closed_iff.mpr (by decide)
  have hfree : ∀ id, boxedGuards.WildcardFree id :=
    fun _ part _ => TypeTable.isWildcard_eq_false (by decide) part
  have hoff : (Checker.new false).Admits boxedGuards ⟨0⟩ ⟨1⟩ := ⟨_, rfl⟩
  exact ⟨hfree _, hfree _, hoff, Session.Reached.admits_of_unwraps (.start hclosed false)
    (.start hclosed true) rfl rfl (by decide) (by decide) (hfree _) (hfree _) hoff⟩

end

end MessageLang
