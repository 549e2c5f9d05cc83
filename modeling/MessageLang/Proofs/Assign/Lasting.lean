import MessageLang.Proofs.Assign.Alike
import MessageLang.Proofs.Assign.Session

namespace MessageLang

namespace Bindings

/-- Two wildcards that are in one class, and so stand for the same. -/
def Joined (b : Bindings) (left right : TypeId) : Prop :=
  ∃ cls ∈ b, left ∈ cls.members ∧ right ∈ cls.members

/-- What is known of wildcards is still known later, and perhaps more. -/
structure Later (b b' : Bindings) : Prop where
  joined : ∀ left right, b.Joined left right → b'.Joined left right
  binding?_eq : ∀ wildcard bound, b.binding? wildcard = some bound →
    b'.binding? wildcard = some bound

/-- No wildcard is in two classes, and none stands for a type without values. -/
structure Kept (t : TypeTable) (b : Bindings) : Prop where
  nodup : b.known.Nodup
  valued : b.AllBound (t.isNothing · = false)

variable {t t' : TypeTable} {b b' b'' : Bindings} {left right wildcard bound type : TypeId}
  {cls : WildcardClass}

theorem Later.refl (b : Bindings) : b.Later b := ⟨fun _ _ h => h, fun _ _ h => h⟩

theorem Later.trans (h : b.Later b') (h' : b'.Later b'') : b.Later b'' :=
  ⟨fun left right hjoined => h'.joined left right (h.joined left right hjoined),
    fun wildcard bound hbound => h'.binding?_eq wildcard bound (h.binding?_eq wildcard bound hbound)⟩

theorem mem_known : wildcard ∈ b.known ↔ ∃ cls ∈ b, wildcard ∈ cls.members := List.mem_flatMap

theorem known_cons (cls : WildcardClass) (b : Bindings) :
    known (cls :: b) = cls.members ++ known b := List.flatMap_cons

theorem nodup_known_iff : b.known.Nodup ↔ (∀ cls ∈ b, cls.members.Nodup) ∧
    b.Pairwise fun cls other => cls.members.Disjoint other.members := List.nodup_flatMap

/-- A wildcard has one class only. -/
theorem eq_of_mem_members (h : b.known.Nodup) {other : WildcardClass} (hcls : cls ∈ b)
    (hother : other ∈ b) (hmem : wildcard ∈ cls.members) (hmem' : wildcard ∈ other.members) :
    cls = other := by
  by_contra hne
  have hsymm : Std.Symm fun cls other : WildcardClass => cls.members.Disjoint other.members :=
    ⟨fun _ _ hdisjoint => hdisjoint.symm⟩
  exact (nodup_known_iff.mp h).2.forall hcls hother hne hmem hmem'

theorem class?_eq_some_iff (h : b.known.Nodup) :
    b.class? wildcard = some cls ↔ cls ∈ b ∧ wildcard ∈ cls.members := by
  constructor
  · intro hclass
    exact ⟨List.mem_of_find?_eq_some hclass, by simpa using List.find?_some hclass⟩
  · rintro ⟨hcls, hmem⟩
    cases hclass : b.class? wildcard with
    | none => simpa [hmem] using List.find?_eq_none.mp hclass cls hcls
    | some other =>
      have hmem' : wildcard ∈ other.members := by simpa using List.find?_some hclass
      rw [eq_of_mem_members h (List.mem_of_find?_eq_some hclass) hcls hmem' hmem]

theorem binding?_eq_some_iff (h : b.known.Nodup) : b.binding? wildcard = some bound ↔
    ∃ cls ∈ b, wildcard ∈ cls.members ∧ cls.binding = some bound := by
  simp only [binding?, Option.bind_eq_bind, Option.bind_eq_some_iff, class?_eq_some_iff h, and_assoc]

/-- Wildcards in one class stand for the same. -/
theorem Joined.binding?_eq (h : b.Joined left right) (hnodup : b.known.Nodup) :
    b.binding? left = b.binding? right := by
  obtain ⟨cls, hcls, hleft, hright⟩ := h
  rw [binding?, binding?, (class?_eq_some_iff hnodup).mpr ⟨hcls, hleft⟩,
    (class?_eq_some_iff hnodup).mpr ⟨hcls, hright⟩]

/-- It is enough to find every class, with what it stands for, in another one later. -/
theorem later_of_forall_class (h : b.known.Nodup) (h' : b'.known.Nodup)
    (hclass : ∀ cls ∈ b, ∃ cls' ∈ b', cls.members ⊆ cls'.members ∧
      ∀ bound, cls.binding = some bound → cls'.binding = some bound) : b.Later b' := by
  constructor
  · rintro left right ⟨cls, hcls, hleft, hright⟩
    obtain ⟨cls', hcls', hmembers, _⟩ := hclass cls hcls
    exact ⟨cls', hcls', hmembers hleft, hmembers hright⟩
  · intro wildcard bound hbound
    obtain ⟨cls, hcls, hmem, hbound⟩ := (binding?_eq_some_iff h).mp hbound
    obtain ⟨cls', hcls', hmembers, hsame⟩ := hclass cls hcls
    exact (binding?_eq_some_iff h').mpr ⟨cls', hcls', hmembers hmem, hsame bound hbound⟩

theorem nodup_introduce (h : b.known.Nodup) (wildcard : TypeId) :
    (b.introduce wildcard).known.Nodup := by
  unfold introduce
  split
  · exact h
  · next hnot =>
    rw [known_cons]
    exact List.nodup_cons.mpr ⟨hnot, h⟩

theorem later_introduce (h : b.known.Nodup) (wildcard : TypeId) : b.Later (b.introduce wildcard) := by
  refine later_of_forall_class h (nodup_introduce h wildcard) fun cls hcls => ?_
  refine ⟨cls, ?_, fun _ hmem => hmem, fun _ hbound => hbound⟩
  unfold introduce
  split
  · exact hcls
  · exact List.mem_cons_of_mem _ hcls

theorem known_bind (b : Bindings) (wildcard type : TypeId) :
    (b.bind wildcard type).known = b.known := by
  rw [known, known, bind, List.flatMap_map]
  congr 1
  funext cls
  split <;> rfl

/-- Letting a wildcard stand for a type that stood for none changes no other class. -/
theorem later_bind (h : b.known.Nodup) (hfree : b.binding? wildcard = none) (type : TypeId) :
    b.Later (b.bind wildcard type) := by
  refine later_of_forall_class h (known_bind b wildcard type ▸ h) fun cls hcls => ?_
  refine ⟨_, List.mem_map_of_mem hcls, ?_, fun bound hbound => ?_⟩
  · split <;> exact fun _ hmem => hmem
  · split
    · next hmem =>
      have hsome := (binding?_eq_some_iff h).mpr ⟨cls, hcls, hmem, hbound⟩
      rw [hfree] at hsome
      cases hsome
    · exact hbound

/-- What two classes stand for, if they do not stand for different types. -/
def merged? : Option TypeId → Option TypeId → Option TypeId
  | some x, _ => some x
  | none, binding => binding

/-- Joining two classes puts one with the members of both in their place. -/
theorem join_eq_ok (h : b.join left right = .ok b') : b' = b ∨
    ∃ cls ∈ b, ∃ other ∈ b, cls ≠ other ∧ left ∈ cls.members ∧ right ∈ other.members ∧
      (∀ x y, cls.binding = some x → other.binding = some y → x = y) ∧
      b' = ⟨cls.members ++ other.members, merged? cls.binding other.binding⟩ ::
        b.filter fun rest => rest ≠ cls ∧ rest ≠ other := by
  unfold join at h
  split at h
  · next cls other hcls hother =>
    have hmem : ∀ {wildcard cls}, b.class? wildcard = some cls → cls ∈ b ∧ wildcard ∈ cls.members :=
      fun hclass => ⟨List.mem_of_find?_eq_some hclass, by simpa using List.find?_some hclass⟩
    split at h
    · cases h
      exact .inl rfl
    · next hne =>
      refine .inr ⟨cls, (hmem hcls).1, other, (hmem hother).1, hne, (hmem hcls).2,
        (hmem hother).2, ?_⟩
      cases hbound : cls.binding <;> cases hbound' : other.binding <;>
        simp only [hbound, hbound'] at h
      · cases h
        exact ⟨nofun, rfl⟩
      · cases h
        exact ⟨nofun, rfl⟩
      · cases h
        exact ⟨nofun, rfl⟩
      · split at h
        · next hsame =>
          cases h
          subst hsame
          exact ⟨fun x y hx hy => Option.some.inj (hx.symm.trans hy), rfl⟩
        · cases h
  · cases h
    exact .inl rfl

theorem nodup_join (h : b.known.Nodup) (hjoin : b.join left right = .ok b') : b'.known.Nodup := by
  rcases join_eq_ok hjoin with rfl | ⟨cls, hcls, other, hother, hne, hleft, hright, _, rfl⟩
  · exact h
  obtain ⟨hmembers, hdisjoint⟩ := nodup_known_iff.mp h
  rw [known_cons, List.nodup_append]
  have hboth : ∀ x ∈ cls.members, x ∉ other.members := fun x hx hx' =>
    hne (eq_of_mem_members h hcls hother hx hx')
  refine ⟨List.nodup_append.mpr ⟨hmembers cls hcls, hmembers other hother, ?_⟩, ?_, ?_⟩
  · rintro x hx _ hx' rfl
    exact hboth x hx hx'
  · exact nodup_known_iff.mpr ⟨fun rest hrest => hmembers rest (List.mem_of_mem_filter hrest),
      hdisjoint.filter _⟩
  · rintro x hx _ hx' rfl
    obtain ⟨rest, hrest, hmem⟩ := mem_known.mp hx'
    obtain ⟨hrest, hnot⟩ := List.mem_filter.mp hrest
    simp only [decide_eq_true_eq] at hnot
    rcases List.mem_append.mp hx with hx | hx
    · exact hnot.1 (eq_of_mem_members h hrest hcls hmem hx)
    · exact hnot.2 (eq_of_mem_members h hrest hother hmem hx)

theorem later_join (h : b.known.Nodup) (hjoin : b.join left right = .ok b') : b.Later b' := by
  have hnodup := nodup_join h hjoin
  rcases join_eq_ok hjoin with rfl | ⟨cls, hcls, other, hother, _, _, _, hsame, rfl⟩
  · exact .refl _
  refine later_of_forall_class h hnodup fun rest hrest => ?_
  by_cases hone : rest = cls
  · subst hone
    refine ⟨_, List.mem_cons_self, List.subset_append_left _ _, fun bound hbound => ?_⟩
    rw [hbound, merged?]
  by_cases htwo : rest = other
  · subst htwo
    refine ⟨_, List.mem_cons_self, List.subset_append_right _ _, fun bound hbound => ?_⟩
    cases hfirst : cls.binding with
    | none => exact hbound
    | some x => exact congrArg some (hsame x bound hfirst hbound)
  · exact ⟨rest, List.mem_cons_of_mem _ (List.mem_filter.mpr ⟨hrest, by simp [hone, htwo]⟩),
      fun _ hmem => hmem, fun _ hbound => hbound⟩

theorem Kept.introduce (h : b.Kept t) (wildcard : TypeId) : (b.introduce wildcard).Kept t :=
  ⟨nodup_introduce h.nodup wildcard, h.valued.introduce wildcard⟩

/-- What wildcards stand for are no wildcards, so one step leads to the end. -/
theorem resolveWithin_succ (h : b.AllBound (t.isWildcard · = false)) (steps : Nat) (id : TypeId) :
    b.resolveWithin t (steps + 1) id =
      if t.isWildcard id then (b.binding? id).getD id else id := by
  unfold resolveWithin
  split
  · cases hbound : b.binding? id with
    | none => rfl
    | some bound =>
      cases steps with
      | zero => rfl
      | succ steps => simp [resolveWithin, h.binding? hbound]
  · rfl

theorem resolve_eq (h : b.AllBound (t.isWildcard · = false)) (id : TypeId) :
    b.resolve t id = if t.isWildcard id then (b.binding? id).getD id else id :=
  resolveWithin_succ h _ id

/-- Where following bindings ends at a wildcard, that one stands for nothing. -/
theorem binding?_resolve (h : b.AllBound (t.isWildcard · = false)) {id : TypeId}
    (hwild : t.isWildcard (b.resolve t id) = true) : b.binding? (b.resolve t id) = none := by
  rw [resolve_eq h] at hwild ⊢
  split at hwild
  · next hid =>
    rw [if_pos hid]
    cases hbound : b.binding? id with
    | none => exact hbound
    | some bound =>
      rw [hbound, Option.getD_some, h.binding? hbound] at hwild
      cases hwild
  · next hid => exact absurd hwild hid

end Bindings

open Checking

section

variable {t t' : TypeTable} {c c' : Checker} {s : Session} {target source given : TypeId}

/-- What a checker knows of wildcards, after it knew something before. -/
structure Checker.Lasting (t : TypeTable) (start : Bindings) (c : Checker) : Prop where
  kept : c.bindings.Kept t
  later : start.Later c.bindings

theorem bind_lasting {before : Bindings} {check : TypeId → TypeId → Checking Bool}
    {wildcard : TypeId}
    (hcheck : ∀ bound c, c.Lasting t before →
      After (check bound source) c fun _ c' => c'.Lasting t before)
    (hsource : t.isNothing source = false) (h : c.Lasting t before) :
    After (Checking.bind t check wildcard source) c fun _ c' => c'.Lasting t before := by
  have hone : ∀ {b : Bindings}, b.Kept t ∧ before.Later b → ∀ wildcard,
      (b.introduce wildcard).Kept t ∧ before.Later (b.introduce wildcard) :=
    fun ⟨hkept, hlater⟩ wildcard =>
      ⟨hkept.introduce wildcard, hlater.trans (Bindings.later_introduce hkept.nodup wildcard)⟩
  have hintroduced := hone ⟨h.kept, h.later⟩ wildcard
  have htaken : (taking t c.bindings wildcard source).All (fun b => b.Kept t ∧ before.Later b)
      fun _ => True := by
    unfold taking
    split
    · obtain ⟨hkept, hlater⟩ := hone hintroduced source
      split
      · next joined hjoin =>
        exact ⟨⟨Bindings.nodup_join hkept.nodup hjoin, hkept.valued.join hjoin⟩,
          hlater.trans (Bindings.later_join hkept.nodup hjoin)⟩
      · exact ⟨hkept, hlater⟩
    · obtain ⟨hkept, hlater⟩ := hintroduced
      split
      · next hfree =>
        refine ⟨⟨?_, hkept.valued.bind wildcard hsource⟩,
          hlater.trans (Bindings.later_bind hkept.nodup hfree source)⟩
        rw [Bindings.known_bind]
        exact hkept.nodup
      · trivial
  refine (bind_keepsBindings htaken hintroduced fun bound c' _ hc' => ?_).mono
    fun _ _ hc' => ⟨hc'.1, hc'.2⟩
  exact (hcheck bound c' ⟨hc'.1, hc'.2⟩).mono fun _ _ hc' => ⟨hc'.kept, hc'.later⟩

theorem canAssignWithin_lasting {before : Bindings} (levels : Nat) (target given : TypeId)
    (h : c.Lasting t before) :
    After (canAssignWithin t levels target given) c fun _ c' => c'.Lasting t before :=
  -- entering and forgetting verdicts leaves the bindings alone
  canAssignWithin_keeps (K := fun _ c => c.Lasting t before)
    (fun _ _ _ _ _ hvalued hcheck h => bind_lasting hcheck hvalued h)
    (fun _ _ _ h _ _ => ⟨⟨h.kept, h.later⟩, h.kept, h.later⟩)
    (fun _ _ _ _ _ _ _ h _ => ⟨h.kept, h.later⟩) levels c target given h

/-- One comparison keeps what is known of wildcards. -/
theorem canAssign_lasting (target given : TypeId) (h : c.bindings.Kept t) :
    After (canAssign t target given) c fun _ c' => c'.Lasting t c.bindings :=
  canAssignWithin_lasting _ target given ⟨h, .refl _⟩

theorem Bindings.Kept.extend {b : Bindings} (h : b.Kept t) (hmore : t.Extends t')
    (hlt : b.AllBound (·.index < t.size)) : b.Kept t' := by
  refine ⟨h.nodup, fun cls hcls bound hbound => ?_⟩
  have hsame : t'.isNothing bound = t.isNothing bound := by
    rw [TypeTable.isNothing, hmore.get_eq bound (hlt cls hcls bound hbound), TypeTable.isNothing]
  exact hsame.trans (h.valued cls hcls bound hbound)

theorem Session.Reached.kept (h : Session.Reached t s) : s.checker.bindings.Kept t ∧
    ∀ point ∈ s.points, point.bindings.Kept t := by
  induction h with
  | start closed unwraps =>
    refine ⟨⟨List.nodup_nil, ?_⟩, ?_⟩ <;> simp [Checker.new, Bindings.AllBound]
  | extend before _ more ih =>
    have hsound := before.sound
    exact ⟨ih.1.extend more hsound.consistent.bound_lt,
      fun point hpoint => (ih.2 point hpoint).extend more (hsound.points_bound point hpoint).1⟩
  | assign _ _ _ run ih => exact ⟨(canAssign_lasting _ _ ih.1 _ _ run).kept, ih.2⟩
  | checkpoint _ ih => exact ⟨ih.1, List.forall_mem_cons.mpr ⟨ih.1, ih.2⟩⟩
  | commit _ ih =>
    refine ⟨ih.1, fun point hpoint => ih.2 point ?_⟩
    simp only [List.mem_append, List.mem_cons] at hpoint ⊢
    tauto
  | rollback _ ih => exact ⟨ih.2 _ (by simp), fun point hpoint => ih.2 point (by simp [hpoint])⟩

/-- What a checker comes to when types are compared further, while there may be more of them every
time, and nothing is undone. -/
inductive Checker.Goes (t : TypeTable) (c : Checker) : TypeTable → Checker → Prop
  | refl : Goes t c t c
  | extend {t' t'' : TypeTable} {c' : Checker} (before : Goes t c t' c') (closed : t''.Closed)
      (more : t'.Extends t'') : Goes t c t'' c'
  | assign {t' : TypeTable} {c' c'' : Checker} {target source : TypeId} {verdict : Bool}
      (before : Goes t c t' c') (target_lt : target.index < t'.size)
      (source_lt : source.index < t'.size)
      (run : canAssign t' target source c' = .ok (verdict, c'')) : Goes t c t' c''

/-- Comparing further is a session that goes on. -/
theorem Checker.Goes.reached (h : c.Goes t t' c') {points : List Checkpoint}
    (hreached : Session.Reached t ⟨c, points⟩) : Session.Reached t' ⟨c', points⟩ := by
  induction h with
  | refl => exact hreached
  | extend _ closed more ih => exact ih.extend closed more
  | assign _ target_lt source_lt run ih => exact .assign ih target_lt source_lt run

theorem Checker.Goes.extends (h : c.Goes t t' c') : t.Extends t' := by
  induction h with
  | refl => exact .refl t
  | extend _ _ more ih => exact ih.trans more
  | assign _ _ _ _ ih => exact ih

theorem Checker.Goes.later (h : c.Goes t t' c') {points : List Checkpoint}
    (hreached : Session.Reached t ⟨c, points⟩) : c.bindings.Later c'.bindings := by
  induction h with
  | refl => exact .refl _
  | extend _ _ _ ih => exact ih
  | assign before _ _ run ih =>
    exact ih.trans (canAssign_lasting _ _ (before.reached hreached).kept.1 _ _ run).later

/-- A wildcard that a checker knows stands for no wildcard and for no type without values, and its
end is found in no more steps than there are; no later comparison makes it stand for another type,
or parts wildcards that were joined. -/
theorem Session.Reached.resolve_lasts (h : Session.Reached t s) :
    (∀ cls ∈ s.checker.bindings, ∀ bound, cls.binding = some bound →
      t.isWildcard bound = false ∧ t.isNothing bound = false) ∧
    (∀ id, (t.isWildcard (s.checker.bindings.resolve t id) = true →
        s.checker.bindings.binding? (s.checker.bindings.resolve t id) = none) ∧
      s.checker.bindings.resolve t (s.checker.bindings.resolve t id) =
        s.checker.bindings.resolve t id ∧
      ∀ steps, s.checker.bindings.known.length < steps →
        s.checker.bindings.resolveWithin t steps id = s.checker.bindings.resolve t id) ∧
    (∀ left right, s.checker.bindings.Joined left right →
      s.checker.bindings.binding? left = s.checker.bindings.binding? right) ∧
    ∀ t' c', s.checker.Goes t t' c' →
      (∀ wildcard, t.isWildcard wildcard = true →
        t.isWildcard (s.checker.bindings.resolve t wildcard) = false →
          c'.bindings.resolve t' wildcard = s.checker.bindings.resolve t wildcard) ∧
      ∀ left right, s.checker.bindings.Joined left right → c'.bindings.Joined left right := by
  have hc := h.sound.consistent
  have hkept := h.kept.1
  have hend : ∀ id, t.isWildcard (s.checker.bindings.resolve t id) = true →
      s.checker.bindings.binding? (s.checker.bindings.resolve t id) = none :=
    fun _ => Bindings.binding?_resolve hc.bound_known
  refine ⟨fun cls hcls bound hbound => ⟨hc.bound_known cls hcls bound hbound,
    hkept.valued cls hcls bound hbound⟩, fun id => ⟨hend id, ?_, fun steps hsteps => ?_⟩,
    fun left right hjoined => hjoined.binding?_eq hkept.nodup, fun t' c' hgoes => ⟨?_, ?_⟩⟩
  · rw [Bindings.resolve_eq hc.bound_known (s.checker.bindings.resolve t id)]
    split
    · next hwild => rw [hend id hwild, Option.getD_none]
    · rfl
  · obtain ⟨more, rfl⟩ := Nat.exists_eq_add_of_lt hsteps
    rw [Bindings.resolveWithin_succ hc.bound_known, Bindings.resolve_eq hc.bound_known]
  · intro wildcard hwild hresolved
    have hlater := hgoes.later h
    have hknown := (hgoes.reached h).sound.consistent.bound_known
    have hlt : wildcard.index < t.size := by
      by_contra hge
      have hdefault : t.get wildcard = default := by simp_all [TypeTable.get, TypeTable.size]
      rw [TypeTable.isWildcard, hdefault] at hwild
      cases hwild
    have hwild' : t'.isWildcard wildcard = true := by
      rw [hgoes.extends.isWildcard_eq hlt, hwild]
    rw [Bindings.resolve_eq hc.bound_known, if_pos hwild] at hresolved ⊢
    cases hbound : s.checker.bindings.binding? wildcard with
    | none =>
      rw [hbound, Option.getD_none, hwild] at hresolved
      cases hresolved
    | some bound =>
      rw [Bindings.resolve_eq hknown, if_pos hwild', hlater.binding?_eq wildcard bound hbound]
  · exact (hgoes.later h).joined

/-- Two wildcards and a type that they can stand for. -/
def twoWildcards : TypeTable where
  types := #[{ shape := .wildcard }, { shape := .wildcard }, {}]
  unions := []

/-- A session that has compared the wildcards with each other, and then one of them with the type. -/
def twoWildcardsBound : Session := ⟨⟨[], [⟨[⟨0⟩, ⟨1⟩], some ⟨2⟩⟩], [], true⟩, []⟩

theorem resolve_lasts_twoWildcards :
    Session.Reached twoWildcards twoWildcardsBound ∧
      twoWildcardsBound.checker.bindings.Joined ⟨0⟩ ⟨1⟩ ∧
      twoWildcardsBound.checker.bindings.resolve twoWildcards ⟨1⟩ = ⟨2⟩ ∧
      ∀ t' c', twoWildcardsBound.checker.Goes twoWildcards t' c' →
        c'.bindings.resolve t' ⟨1⟩ = ⟨2⟩ ∧ c'.bindings.Joined ⟨0⟩ ⟨1⟩ := by
  have hclosed : twoWildcards.Closed := TypeTable.closed_iff.mpr (by decide)
  have hjoin : canAssign twoWildcards ⟨0⟩ ⟨1⟩ (.new true) =
      .ok (true, ⟨[], [⟨[⟨0⟩, ⟨1⟩], none⟩], [], true⟩) := rfl
  have hbind : canAssign twoWildcards ⟨0⟩ ⟨2⟩ ⟨[], [⟨[⟨0⟩, ⟨1⟩], none⟩], [], true⟩ =
      .ok (true, twoWildcardsBound.checker) := rfl
  have hreached : Session.Reached twoWildcards twoWildcardsBound :=
    .assign (.assign (.start hclosed true) (by decide) (by decide) hjoin) (by decide) (by decide) hbind
  have hjoined : twoWildcardsBound.checker.bindings.Joined ⟨0⟩ ⟨1⟩ :=
    ⟨_, List.mem_cons_self, by decide⟩
  refine ⟨hreached, hjoined, rfl, fun t' c' hgoes => ?_⟩
  obtain ⟨_, _, _, hlasts⟩ := hreached.resolve_lasts
  obtain ⟨hresolve, hjoin⟩ := hlasts t' c' hgoes
  exact ⟨hresolve ⟨1⟩ rfl rfl, hjoin ⟨0⟩ ⟨1⟩ hjoined⟩

end

end MessageLang
