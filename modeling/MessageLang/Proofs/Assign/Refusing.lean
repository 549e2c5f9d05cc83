import MessageLang.Proofs.Assign.Ending
import MessageLang.Proofs.Assign.Forgetting
import MessageLang.Proofs.Assign.Undoing

namespace MessageLang

open Checking Checker

namespace Bindings

/-- Since some time only wildcards that are exposed came to stand for something. A class that stands
for nothing yet is exposed as a whole if one of its members is of a sort. -/
structure Confined (sort exposed : TypeId → Prop) (before b : Bindings) : Prop where
  nodup : b.known.Nodup
  later : before.Later b
  only : ∀ id bound, b.binding? id = some bound → before.binding? id = some bound ∨ exposed id
  whole : ∀ cls ∈ b, cls.binding = none → ∀ wildcard ∈ cls.members, sort wildcard →
    ∀ member ∈ cls.members, exposed member

section

variable {sort exposed : TypeId → Prop} {before b b' : Bindings} {wildcard left right type : TypeId}
  {t : TypeTable}

theorem Confined.introduce (h : Confined sort exposed before b)
    (hexposed : ∀ wildcard, sort wildcard → before.binding? wildcard = none → exposed wildcard)
    (hsort : sort wildcard) : Confined sort exposed before (b.introduce wildcard) where
  nodup := nodup_introduce h.nodup wildcard
  later := h.later.trans (later_introduce h.nodup wildcard)
  only id bound hbound := h.only id bound (binding?_introduce b wildcard id ▸ hbound)
  whole cls hcls hnone other hother hsort' member hmember := by
    unfold Bindings.introduce at hcls
    split at hcls
    · exact h.whole cls hcls hnone other hother hsort' member hmember
    · next hnew =>
      rcases List.mem_cons.mp hcls with rfl | hcls
      · -- what is not known yet was not known before
        rw [List.mem_singleton.mp hmember]
        refine hexposed wildcard hsort (Option.eq_none_iff_forall_ne_some.mpr fun bound hbound => ?_)
        obtain ⟨cls, hcls, hmem, -⟩ :=
          (binding?_eq_some_iff h.nodup).mp (h.later.binding?_eq wildcard bound hbound)
        exact hnew (mem_known.mpr ⟨cls, hcls, hmem⟩)
      · exact h.whole cls hcls hnone other hother hsort' member hmember

theorem Confined.bind (h : Confined sort exposed before b) (hsort : sort wildcard)
    (hfree : b.binding? wildcard = none) (type : TypeId) :
    Confined sort exposed before (b.bind wildcard type) where
  nodup := known_bind b wildcard type ▸ h.nodup
  later := h.later.trans (later_bind h.nodup hfree type)
  only id bound hbound := by
    have hnodup : (b.bind wildcard type).known.Nodup := known_bind b wildcard type ▸ h.nodup
    obtain ⟨cls, hcls, hid, hbound⟩ := (binding?_eq_some_iff hnodup).mp hbound
    obtain ⟨old, hold, rfl⟩ := List.mem_map.mp hcls
    by_cases hmem : wildcard ∈ old.members
    · rw [if_pos hmem] at hid
      have hnone : old.binding = none := Option.eq_none_iff_forall_ne_some.mpr fun x hx => by
        rw [(binding?_eq_some_iff h.nodup).mpr ⟨old, hold, hmem, hx⟩] at hfree
        cases hfree
      exact .inr (h.whole old hold hnone wildcard hmem hsort id hid)
    · rw [if_neg hmem] at hid hbound
      exact h.only id bound ((binding?_eq_some_iff h.nodup).mpr ⟨old, hold, hid, hbound⟩)
  whole cls hcls hnone := by
    obtain ⟨old, hold, rfl⟩ := List.mem_map.mp hcls
    by_cases hmem : wildcard ∈ old.members
    · rw [if_pos hmem] at hnone
      cases hnone
    · rw [if_neg hmem] at hnone ⊢
      exact h.whole old hold hnone

theorem Confined.join (h : Confined sort exposed before b) (hleft : sort left) (hright : sort right)
    (hjoin : b.join left right = .ok b') : Confined sort exposed before b' := by
  have hnodup := nodup_join h.nodup hjoin
  have hlater := h.later.trans (later_join h.nodup hjoin)
  rcases join_eq_ok hjoin with rfl | ⟨cls, hcls, other, hother, _, hleft', hright', hsame, rfl⟩
  · exact h
  have hrest : ∀ rest ∈ b.filter fun rest => rest ≠ cls ∧ rest ≠ other, rest ∈ b :=
    fun _ => List.mem_of_mem_filter
  refine ⟨hnodup, hlater, fun id bound hbound => ?_, fun joined hjoined hnone => ?_⟩
  · obtain ⟨joined, hjoined, hid, hbound⟩ := (binding?_eq_some_iff hnodup).mp hbound
    have hold : ∀ old ∈ b, id ∈ old.members → old.binding = some bound →
        before.binding? id = some bound ∨ exposed id := fun old hold hid hbound =>
      h.only id bound ((binding?_eq_some_iff h.nodup).mpr ⟨old, hold, hid, hbound⟩)
    rcases List.mem_cons.mp hjoined with rfl | hjoined
    · rcases List.mem_append.mp hid with hid | hid
      · cases hfirst : cls.binding with
        | none => exact .inr (h.whole cls hcls hfirst left hleft' hleft id hid)
        | some x =>
          simp only [hfirst, merged?] at hbound
          exact hold cls hcls hid (hfirst.trans hbound)
      · cases hsecond : other.binding with
        | none => exact .inr (h.whole other hother hsecond right hright' hright id hid)
        | some y =>
          refine hold other hother hid (hsecond.trans ?_)
          cases hfirst : cls.binding with
          | none => simpa only [hfirst, hsecond, merged?] using hbound
          | some x =>
            simp only [hfirst, merged?] at hbound
            rw [← hsame x y hfirst hsecond, hbound]
    · exact hold joined (hrest joined hjoined) hid hbound
  · rcases List.mem_cons.mp hjoined with rfl | hjoined
    · -- neither of the two classes stands for anything
      have hfirst : cls.binding = none := by
        cases hfirst : cls.binding with
        | none => rfl
        | some x => simp [hfirst, merged?] at hnone
      have hsecond : other.binding = none := by simpa [hfirst, merged?] using hnone
      intro _ _ _ member hmember
      rcases List.mem_append.mp hmember with hmember | hmember
      · exact h.whole cls hcls hfirst left hleft' hleft member hmember
      · exact h.whole other hother hsecond right hright' hright member hmember
    · exact h.whole joined (hrest joined hjoined) hnone

theorem Confined.taking (h : Confined sort exposed before b)
    (hexposed : ∀ wildcard, sort wildcard → before.binding? wildcard = none → exposed wildcard)
    (hsort : sort wildcard) {source : TypeId} (hsource : t.isWildcard source = true → sort source) :
    (taking t b wildcard source).All (Confined sort exposed before) fun _ => True := by
  have hintroduced := h.introduce hexposed hsort
  unfold Checking.taking
  split
  · next hwild =>
    have hboth := hintroduced.introduce hexposed (hsource hwild)
    split
    · next joined hjoin => exact hboth.join hsort (hsource hwild) hjoin
    · exact hboth
  · split
    · next hfree => exact hintroduced.bind hsort hfree source
    · trivial

end

end Bindings

/-- A wildcard that stands for nothing yet and that a comparison may come to, or one that was matched
with it. -/
def Checker.Exposes (c : Checker) (t : TypeTable) (target source id : TypeId) : Prop :=
  ∃ wildcard, c.Involves t target source wildcard ∧ t.isWildcard wildcard = true ∧
    c.bindings.binding? wildcard = none ∧ (wildcard = id ∨ c.bindings.Joined wildcard id)

section

variable {t : TypeTable} {c : Checker} {s : Session} {target source : TypeId}

/-- A comparison makes only wildcards stand for something that are exposed to it, and only for what
it may come to. -/
theorem canAssign_confined (hnodup : c.bindings.known.Nodup) (target source : TypeId) :
    After (canAssign t target source) c fun _ c' =>
      c'.bindings.AllBound (c.Involves t target source) ∧
      Bindings.Confined (fun id => c.Involves t target source id ∧ t.isWildcard id = true)
        (c.Exposes t target source) c.bindings c'.bindings := by
  have hexposed : ∀ id, c.Involves t target source id ∧ t.isWildcard id = true →
      c.bindings.binding? id = none → c.Exposes t target source id :=
    fun id hid hnone => ⟨id, hid.1, hid.2, hnone, .inl rfl⟩
  have hstart : c.bindings.Confined (fun id => c.Involves t target source id ∧ t.isWildcard id = true)
      (c.Exposes t target source) c.bindings := by
    refine ⟨hnodup, .refl _, fun _ _ hbound => .inl hbound, ?_⟩
    intro cls hcls hnone wildcard hmem hsort member hmember
    refine ⟨wildcard, hsort.1, hsort.2, ?_, .inr ⟨cls, hcls, hmem, hmember⟩⟩
    simp [Bindings.binding?, (Bindings.class?_eq_some_iff hnodup).mpr ⟨hcls, hmem⟩, hnone]
  refine canAssignWithin_keepsAmong (P := c.Involves t target source)
    (K := fun _ c' => c'.bindings.AllBound (c.Involves t target source) ∧ Bindings.Confined
      (fun id => c.Involves t target source id ∧ t.isWildcard id = true)
      (c.Exposes t target source) c.bindings c'.bindings)
    (fun _ hid _ hpart => hid.component hpart) (fun _ _ h => h.1) ?_ (fun _ _ _ h _ _ _ => ⟨h, h⟩)
    (fun _ _ _ _ _ _ _ _ h _ => h) _ c target source ⟨target, .inl rfl, .refl⟩
    ⟨source, .inr (.inl rfl), .refl⟩ ⟨?_, hstart⟩
  · intro start wildcard given check d hwild hwildcard hgiven _ hcheck h
    refine bind_keepsBindings ((taking_allBound h.1 wildcard fun _ => hgiven).and
      (h.2.taking hexposed ⟨hwildcard, hwild⟩ fun hwild' => ⟨hgiven, hwild'⟩))
      ⟨h.1.introduce wildcard, h.2.introduce hexposed ⟨hwildcard, hwild⟩⟩
      fun bound d hbound hd => hcheck bound d hbound.1 hd
  · exact fun cls hcls bound hbound => ⟨bound, .inr (.inr ⟨cls, hcls, hbound⟩), .refl⟩

/-- Nothing at all changes if a match with a wildcard that stands for nothing is refused. -/
theorem canAssign_refused_unbound (hproper : c.bindings.Proper t)
    (hunbound : t.isWildcard (c.bindings.resolve t target) = true ∨
      t.isWildcard (c.bindings.resolve t source) = true) :
    After (canAssign t target source) c fun verdict c' => verdict = false → c' = c := by
  change After (canAssignWithin t (2 * (t.size * t.size) + 1 + 1) target source) c _
  rw [after_canAssignWithin_iff]
  cases hcourse : course t target (c.bindings.resolve t source)
    (c.verdict? ⟨target, c.bindings.resolve t source⟩) with
  | settled verdict => exact fun _ => rfl
  | binding =>
    have hwild := (course_eq_binding hcourse).1
    -- a wildcard that stands for something is not the one that stands for nothing
    have hsource : ∀ bound, c.bindings.binding? target = some bound →
        t.isWildcard (c.bindings.resolve t source) = true := by
      intro bound hbound
      refine hunbound.resolve_left ?_
      rw [Bindings.resolve_eq hproper.known, if_pos hwild, hbound, Option.getD_some,
        hproper.known.binding? hbound]
      exact Bool.false_ne_true
    simp only [After, bind_apply]
    cases htaking : taking t c.bindings target (c.bindings.resolve t source) with
    | done bindings => rintro _ _ ⟨⟩ ⟨⟩
    | clash bindings bound attempted =>
      obtain ⟨hbound, hattempted⟩ := taking_eq_clash htaking
      rw [Bindings.binding?_resolve hproper.known (hsource bound hbound)] at hattempted
      cases hattempted
    | asks bound =>
      obtain ⟨hbound, hknown⟩ := taking_eq_asks htaking
      rw [hsource bound hbound] at hknown
      cases hknown
  | examination =>
    obtain ⟨-, hwild, hwild'⟩ := course_eq_examination hcourse
    rw [Bindings.resolve_of_not_wildcard hwild, hwild, hwild'] at hunbound
    simp at hunbound

/-- At any time between calls a comparison ends. If it is refused, nothing at all has changed where
one of the types is a wildcard that stands for nothing. Elsewhere a wildcard leads to what it led to,
unless it stood for nothing and is exposed: it may stand for something then that the comparison came
to before it was refused. -/
theorem Session.Reached.refused_resolve_eq (h : Session.Reached t s) (htarget : target.index < t.size)
    (hsource : source.index < t.size) :
    ∃ verdict c, canAssign t target source s.checker = .ok (verdict, c) ∧ (verdict = false →
      ((t.isWildcard (s.checker.bindings.resolve t target) = true ∨
        t.isWildcard (s.checker.bindings.resolve t source) = true) → c = s.checker) ∧
      ∀ id, c.bindings.resolve t id = s.checker.bindings.resolve t id ∨
        s.checker.bindings.resolve t id = id ∧ s.checker.Exposes t target source id ∧
          s.checker.Involves t target source (c.bindings.resolve t id)) := by
  have hproper := h.proper
  obtain ⟨verdict, c, hrun, hproper'⟩ :=
    ends_iff.mp (canAssign_proper h.sound.closed hproper htarget hsource)
  refine ⟨verdict, c, hrun, fun hrefused => ⟨fun hunbound =>
    canAssign_refused_unbound hproper hunbound verdict c hrun hrefused, fun id => ?_⟩⟩
  obtain ⟨hbound, hconfined⟩ := canAssign_confined h.kept.1.nodup target source verdict c hrun
  rw [Bindings.resolve_eq hproper'.known, Bindings.resolve_eq hproper.known]
  by_cases hid : t.isWildcard id = true
  · rw [if_pos hid, if_pos hid]
    cases hbefore : s.checker.bindings.binding? id with
    | some bound => exact .inl (by rw [hconfined.later.binding?_eq id bound hbefore])
    | none =>
      cases hafter : c.bindings.binding? id with
      | none => exact .inl rfl
      | some bound =>
        have hexposed := (hconfined.only id bound hafter).resolve_left (by simp [hbefore])
        exact .inr ⟨rfl, hexposed, hbound.binding? hafter⟩
  · exact .inl (by rw [if_neg hid, if_neg hid])

/-- Two wildcards, two types, and pairs of a wildcard with one of the types and of the other type with
itself. -/
def wildcardPairs : TypeTable where
  types := #[{ shape := .wildcard }, { shape := .wildcard }, { symbols := [("negative", ⟨2⟩)] },
    { symbols := [("length", ⟨3⟩)] },
    { shape := .compound [⟨"x", ⟨0⟩, false⟩, ⟨"y", ⟨2⟩, false⟩] },
    { shape := .compound [⟨"x", ⟨3⟩, false⟩, ⟨"y", ⟨3⟩, false⟩] }]
  unions := []

/-- What the comparison of the two pairs leaves behind, which is refused for their second fields. -/
def wildcardPairsRefused : Checker :=
  ⟨[(⟨⟨4⟩, ⟨5⟩⟩, false)], [⟨[⟨0⟩], some ⟨3⟩⟩], [], true⟩

/-- The wildcard in the one pair has come to stand for the type in the other. The wildcard that is in
neither stands for nothing, as before. -/
theorem refused_resolve_eq_wildcardPairs :
    Session.Reached wildcardPairs ⟨.new true, []⟩ ∧
      canAssign wildcardPairs ⟨4⟩ ⟨5⟩ (.new true) = .ok (false, wildcardPairsRefused) ∧
      wildcardPairsRefused.bindings.resolve wildcardPairs ⟨0⟩ = ⟨3⟩ ∧
      (Checker.new true).Exposes wildcardPairs ⟨4⟩ ⟨5⟩ ⟨0⟩ ∧
      ¬ (Checker.new true).Exposes wildcardPairs ⟨4⟩ ⟨5⟩ ⟨1⟩ ∧
      wildcardPairsRefused.bindings.resolve wildcardPairs ⟨1⟩ = ⟨1⟩ := by
  have hclosed : wildcardPairs.Closed := TypeTable.closed_iff.mpr (by decide)
  have hreached : Session.Reached wildcardPairs ⟨.new true, []⟩ := .start hclosed true
  have hrun : canAssign wildcardPairs ⟨4⟩ ⟨5⟩ (.new true) = .ok (false, wildcardPairsRefused) := rfl
  have hinside : ∀ id, (Checker.new true).Involves wildcardPairs ⟨4⟩ ⟨5⟩ id →
      id ∈ [(⟨0⟩ : TypeId), ⟨2⟩, ⟨3⟩, ⟨4⟩, ⟨5⟩] := fun id hid =>
    hid.of_closed (P := (· ∈ [(⟨0⟩ : TypeId), ⟨2⟩, ⟨3⟩, ⟨4⟩, ⟨5⟩])) (by decide) (by decide)
      (by decide) (fun _ hcls => nomatch hcls)
  have hnot : ¬ (Checker.new true).Exposes wildcardPairs ⟨4⟩ ⟨5⟩ ⟨1⟩ := by
    rintro ⟨wildcard, hwildcard, -, -, rfl | ⟨_, hcls, -⟩⟩
    · exact absurd (hinside _ hwildcard) (by decide)
    · cases hcls
  have htarget : (⟨4⟩ : TypeId).index < wildcardPairs.size := by decide
  have hsource : (⟨5⟩ : TypeId).index < wildcardPairs.size := by decide
  obtain ⟨_, _, hrun', hrefused⟩ := hreached.refused_resolve_eq htarget hsource
  cases hrun.symm.trans hrun'
  obtain ⟨-, hresolve⟩ := hrefused rfl
  exact ⟨hreached, hrun, rfl, ((hresolve ⟨0⟩).resolve_left (by decide)).2.1, hnot,
    (hresolve ⟨1⟩).resolve_right fun h => hnot h.2.1⟩

end

end MessageLang
