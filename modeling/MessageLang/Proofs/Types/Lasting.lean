import MessageLang.Proofs.Types.Descent

namespace MessageLang

namespace TypeTable

/-- How a session goes on from a table: by steps of some kind, and by uniting types that there are. -/
inductive Goes (step : TypeTable → TypeTable → Prop) (t : TypeTable) : TypeTable → Prop
  | start : Goes step t t
  | step {t' t'' : TypeTable} (h : Goes step t t') (hstep : step t' t'') : Goes step t t''
  | unite {t' t'' : TypeTable} {ids : List TypeId} {union : TypeId} (h : Goes step t t')
      (hids : ∀ id ∈ ids, id.index < t'.size) (hrun : Tabling.union ids t' = .ok (union, t'')) :
      Goes step t t''

/-- A step that leaves all as it is on which it depends what uniting types comes to. There may be
more types, and those there are may be told more. -/
structure Amends (t t' : TypeTable) : Prop extends t.Retains t' where
  closed : t'.Closed
  unions_eq : t'.unions = t.unions

/-- A table whose unions are there and were made of types that are there. It is not known what they
answer. -/
structure Orderly (t : TypeTable) : Prop where
  builtins_lt : TypeId.array.index < t.size
  uniting : t.Uniting t (t.unions.map Prod.fst)

variable {step : TypeTable → TypeTable → Prop} {start t t' t'' : TypeTable} {ids : List TypeId}
  {union : TypeId} {unfinished : List (List TypeId)}

theorem Goes.trans (h : t.Goes step t') (h' : t'.Goes step t'') : t.Goes step t'' := by
  induction h' with
  | start => exact h
  | step _ hstep ih => exact ih.step hstep
  | unite _ hids hrun ih => exact ih.unite hids hrun

theorem Orderly.closed (h : t.Orderly) : t.Closed := h.uniting.closed

/-- Wherever uniting has come, it leaves an orderly table. -/
theorem Uniting.orderly (h : start.Uniting t unfinished)
    (hbuiltins : TypeId.array.index < t.size) : t.Orderly where
  builtins_lt := hbuiltins
  uniting :=
    { grows := .refl t
      closed := h.closed
      union_lt := h.union_lt
      variants_eq := h.variants_eq
      part_lt := fun parts union hunion part hpart =>
        h.grows.lt (h.part_lt parts union hunion part hpart)
      speaks := fun parts union hunion hdone => by
        have hmem := mem_of_lookup_eq_some hunion
        exact absurd (List.mem_map_of_mem hmem) hdone }

theorem Orderly.amend (h : t.Orderly) (hamends : t.Amends t') : t'.Orderly := by
  have hlookup : ∀ parts union, t'.unions.lookup parts = some union →
      t.unions.lookup parts = some union := by
    intro parts union hunion
    rwa [hamends.unions_eq] at hunion
  refine ⟨h.builtins_lt.trans_le hamends.size_le, .refl t', hamends.closed,
    fun parts union hunion => ?_, fun parts union hunion => ?_,
    fun parts union hunion part hpart => ?_, fun parts union hunion hdone => ?_⟩
  · exact (h.uniting.union_lt parts union (hlookup parts union hunion)).trans_le hamends.size_le
  · have hlt := h.uniting.union_lt parts union (hlookup parts union hunion)
    rw [hamends.variants_eq union hlt]
    exact h.uniting.variants_eq parts union (hlookup parts union hunion)
  · exact (h.uniting.part_lt parts union (hlookup parts union hunion) part hpart).trans_le
      hamends.size_le
  · have hmem := mem_of_lookup_eq_some hunion
    exact absurd (List.mem_map_of_mem hmem) hdone

/-- Uniting types of an orderly table ends in one, and what is given is what uniting these types
comes to there. -/
theorem Orderly.union_ends (h : t.Orderly) (hids : ∀ id ∈ ids, id.index < t.size) :
    Ends (Tabling.union ids) t fun union t' =>
      t'.Orderly ∧ t.AddsUnions t' ∧ t'.united? ids = some union := by
  have hpos : 0 < t.size := Nat.zero_lt_of_lt h.builtins_lt
  simp only [Tabling.union, ends_bind_iff, ends_get_iff]
  apply (Tabling.unionWithin_ends h.closed h.builtins_lt hids h.uniting
    (openUnions_lt_unionBound t hpos)).mono
  intro union t' hunites
  obtain ⟨huniting, hadds, hunited⟩ := hunites
  exact ⟨huniting.orderly (hadds.grows.lt h.builtins_lt), hadds, hunited⟩

/-- However a session goes on, it comes to orderly tables in which unions stay what they are. -/
theorem Goes.keeps (hstep : ∀ t t', step t t' → t.Amends t') (h : t.Goes step t') (ht : t.Orderly) :
    t'.Orderly ∧ t.Retains t' ∧ Persists t.unions t'.unions := by
  induction h with
  | start => exact ⟨ht, .refl t, .refl t.unions⟩
  | step _ hsteps ih =>
    obtain ⟨horderly, hretains, hpersists⟩ := ih
    have hamends := hstep _ _ hsteps
    exact ⟨horderly.amend hamends, hretains.trans hamends.toRetains, hamends.unions_eq ▸ hpersists⟩
  | unite _ hids hrun ih =>
    obtain ⟨horderly, hretains, hpersists⟩ := ih
    obtain ⟨horderly', hadds, -⟩ := (horderly.union_ends hids).after _ _ hrun
    exact ⟨horderly', hretains.trans hadds.grows.retains, hpersists.trans hadds.keeps⟩

/-- What uniting types came to, it comes to from then on. -/
theorem Goes.united?_eq_some (hstep : ∀ t t', step t t' → t.Amends t') (h : t.Goes step t')
    (ht : t.Orderly) (hids : ∀ id ∈ ids, id.index < t.size) (hunited : t.united? ids = some union) :
    t'.united? ids = some union := by
  obtain ⟨-, hretains, hpersists⟩ := h.keeps hstep ht
  exact hretains.united?_eq_some hpersists ht.closed hids hunited

end TypeTable

end MessageLang
