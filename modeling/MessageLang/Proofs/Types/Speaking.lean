import MessageLang.Proofs.Types.Making
import MessageLang.Proofs.Types.Unions

namespace MessageLang

namespace TypeTable

/-- A type takes part in a union: it is the union, or one of the types it was made of. -/
def TakesPart (t : TypeTable) (id : TypeId) : Prop :=
  ∃ parts union, t.unions.lookup parts = some union ∧ (id = union ∨ id ∈ parts)

/-- How a table goes on between unions. There may be more types, and those that take part in no
union yet may be told more. -/
structure Develops (t t' : TypeTable) : Prop extends t.Retains t' where
  closed : t'.Closed
  unions_eq : t'.unions = t.unions
  symbols_eq : ∀ id, t.TakesPart id → (t'.get id).symbols = (t.get id).symbols
  handlers_eq : ∀ id, t.TakesPart id → (t'.get id).handlers = (t.get id).handlers

/-- The tables that one comes to from one without unions. -/
inductive Reached : TypeTable → Prop
  | start {t : TypeTable} (hclosed : t.Closed) (hbuiltins : TypeId.array.index < t.size)
      (hnone : t.unions = []) : Reached t
  | develop {t t' : TypeTable} (h : Reached t) (hdevelops : t.Develops t') : Reached t'
  | unite {t t' : TypeTable} {ids : List TypeId} {union : TypeId} (h : Reached t)
      (hids : ∀ id ∈ ids, id.index < t.size)
      (hrun : Tabling.union ids t = .ok (union, t')) : Reached t'

variable {start t t' : TypeTable} {ids parts : List TypeId} {union : TypeId}

/-- Uniting types for which nothing has to be made leaves the table alone. -/
theorem union_eq_of_united?_eq_some (h : t.united? ids = some union) :
    Tabling.union ids t = .ok (union, t) := by
  obtain ⟨levels, hlevels⟩ : ∃ levels, t.unionBound = levels + 1 :=
    ⟨_, (Nat.sub_add_cancel (Nat.pow_pos (Nat.succ_pos t.size))).symm⟩
  have hends : Ends (Tabling.union ids) t fun made t' => made = union ∧ t' = t := by
    rw [Tabling.union, ends_bind_iff, ends_get_iff, hlevels, Tabling.unionWithin_succ,
      ends_bind_iff, ends_get_iff, h]
    exact ⟨rfl, rfl⟩
  obtain ⟨_, _, hrun, rfl, rfl⟩ := ends_iff.mp hends
  exact hrun

/-- When no union is unfinished, one can go on from there. -/
theorem Uniting.restart (h : start.Uniting t []) : t.Uniting t [] where
  grows := .refl t
  closed := h.closed
  union_lt := h.union_lt
  variants_eq := h.variants_eq
  part_lt parts union hunion part hpart := h.grows.lt (h.part_lt parts union hunion part hpart)
  speaks := h.speaks

theorem Uniting.develop (h : t.Uniting t []) (hdevelops : t.Develops t') : t'.Uniting t' [] := by
  have hlookup : ∀ parts union, t'.unions.lookup parts = some union →
      t.unions.lookup parts = some union :=
    fun parts union hunion => hdevelops.unions_eq ▸ hunion
  refine ⟨.refl t', hdevelops.closed, fun parts union hunion => ?_, fun parts union hunion => ?_,
    fun parts union hunion part hpart => ?_, fun parts union hunion hdone => ?_⟩ <;>
    replace hunion := hlookup parts union hunion
  · exact (h.union_lt parts union hunion).trans_le hdevelops.size_le
  · rw [hdevelops.variants_eq union (h.union_lt parts union hunion)]
    exact h.variants_eq parts union hunion
  · exact (h.part_lt parts union hunion part hpart).trans_le hdevelops.size_le
  · have htakes : ∀ id, id = union ∨ id ∈ parts → t.TakesPart id :=
      fun id hid => ⟨parts, union, hunion, hid⟩
    exact (h.speaks parts union hunion hdone).retain h.closed hdevelops.toRetains
      (hdevelops.unions_eq ▸ .refl _) (fun id hid => hdevelops.symbols_eq id (htakes id hid))
      fun id hid => hdevelops.handlers_eq id (htakes id hid)

/-- Uniting types of a table whose unions say all that they have to leads to another such table. -/
theorem Uniting.union_ends (h : t.Uniting t []) (hbuiltins : TypeId.array.index < t.size)
    (hids : ∀ id ∈ ids, id.index < t.size) :
    Ends (Tabling.union ids) t fun union t' =>
      t'.Uniting t' [] ∧ t.AddsUnions t' ∧ t'.united? ids = some union := by
  have hpos : 0 < t.size := Nat.zero_lt_of_lt hbuiltins
  simp only [Tabling.union, ends_bind_iff, ends_get_iff]
  refine (Tabling.unionWithin_ends h.closed hbuiltins hids h
    (openUnions_lt_unionBound t hpos)).mono ?_
  exact fun _ _ hunited => hunited.imp_left Uniting.restart

theorem Uniting.lt_of_takesPart (h : t.Uniting t []) {id : TypeId} (hid : t.TakesPart id) :
    id.index < t.size := by
  obtain ⟨parts, union, hlookup, rfl | hpart⟩ := hid
  · exact h.union_lt parts id hlookup
  · exact h.part_lt parts union hlookup id hpart

/-- In every table that one comes to, all unions say what their parts say. -/
theorem Reached.uniting (h : t.Reached) : TypeId.array.index < t.size ∧ t.Uniting t [] := by
  induction h with
  | @start t hclosed hbuiltins hnone =>
    have hlookup : ∀ parts union, t.unions.lookup parts ≠ some union := by simp [hnone]
    exact ⟨hbuiltins, .refl t, hclosed, fun parts union h => absurd h (hlookup parts union),
      fun parts union h => absurd h (hlookup parts union),
      fun parts union h => absurd h (hlookup parts union),
      fun parts union h => absurd h (hlookup parts union)⟩
  | develop _ hdevelops ih => exact ⟨ih.1.trans_le hdevelops.size_le, ih.2.develop hdevelops⟩
  | unite _ hids hrun ih =>
    obtain ⟨huniting, hadds, -⟩ := (ih.2.union_ends ih.1 hids).after _ _ hrun
    exact ⟨hadds.grows.lt ih.1, huniting⟩

/-- One comes to a table with more types. -/
theorem Reached.extend (h : t.Reached) (hgrows : t.Extends t') (hclosed : t'.Closed)
    (hunions : t'.unions = t.unions) : t'.Reached := by
  have hget : ∀ id, t.TakesPart id → t'.get id = t.get id := fun id hid =>
    hgrows.get_eq id (h.uniting.2.lt_of_takesPart hid)
  exact h.develop ⟨hgrows.retains, hclosed, hunions, fun id hid => by rw [hget id hid],
    fun id hid => by rw [hget id hid]⟩

/-- One comes to a table in which a type is told more, if it takes part in no union. -/
theorem Reached.tell (h : t.Reached) {id : TypeId} (hnot : ¬ t.TakesPart id)
    {change : Descriptor → Descriptor} (hclosed : (t.update id change).Closed)
    (hshape : (change (t.get id)).shape = (t.get id).shape)
    (hvariants : (change (t.get id)).variants = (t.get id).variants) :
    (t.update id change).Reached := by
  have hget : ∀ other, t.TakesPart other → (t.update id change).get other = t.get other := by
    intro other hother
    refine get_update_of_ne t change ?_
    rintro rfl
    exact hnot hother
  exact h.develop ⟨retains_update t hshape hvariants, hclosed, rfl,
    fun other hother => by rw [hget other hother], fun other hother => by rw [hget other hother]⟩

/-- The union of several types, none of which is for all values, is made without a change to any
type that there was. It was made of these types in order, and answers the symbols that one of them
answers, each with the union of their answers, which is there already. It handles what they handle,
in order and once each. The answers may lead back to the types, and so the union to itself. -/
theorem Reached.union_speaks (h : t.Reached) (hids : ∀ id ∈ ids, id.index < t.size)
    (hany : ∀ part ∈ t.unionParts ids, t.isAnything part = false)
    (htwo : 2 ≤ (t.unionParts ids).length) :
    ∃ union t', Tabling.union ids t = .ok (union, t') ∧ t.Extends t' ∧
      (t'.get union).variants = t.unionParts ids ∧
      (∀ symbol, (t'.answer? union symbol).isSome ↔
        ∃ part ∈ t.unionParts ids, (t.answer? part symbol).isSome) ∧
      (∀ symbol answer, t'.answer? union symbol = some answer →
        Tabling.union ((t.unionParts ids).filterMap (t.answer? · symbol)) t' = .ok (answer, t')) ∧
      (t'.get union).handlers =
        ((t.unionParts ids).flatMap fun part => (t.get part).handlers).eraseDups := by
  obtain ⟨hbuiltins, huniting⟩ := h.uniting
  obtain ⟨union, t', hrun, huniting', hadds, hunited⟩ :=
    ends_iff.mp (huniting.union_ends hbuiltins hids)
  have hparts := unionParts_lt huniting.closed (.refl t) hids
  have hget : ∀ part ∈ t.unionParts ids, t'.get part = t.get part :=
    fun part hpart => hadds.grows.get_eq part (hparts part hpart)
  have hlookup : t'.unions.lookup (t.unionParts ids) = some union :=
    (hadds.grows.united?_eq_lookup huniting.closed hids hany htwo).symm.trans hunited
  have hspeaks := huniting'.speaks _ union hlookup List.not_mem_nil
  refine ⟨union, t', hrun, hadds.grows, huniting'.variants_eq _ union hlookup, fun symbol => ?_,
    fun symbol answer hanswer => ?_, ?_⟩
  · rw [hspeaks.isSome_answer?_iff]
    exact exists_congr fun part => and_congr_right fun hpart => by
      rw [answer?, hget part hpart, answer?]
  · rw [← union_eq_of_united?_eq_some (hspeaks.united?_eq symbol answer hanswer)]
    congr 1
    exact List.filterMap_congr fun part hpart => by rw [answer?, answer?, hget part hpart]
  · rw [hspeaks.handlers_eq]
    exact congrArg List.eraseDups (List.flatMap_congr fun part hpart => by rw [hget part hpart])

/-- Two kinds of lists, of numbers and of strings, each of which goes on with the other kind. -/
def alternatingLists : TypeTable :=
  let t := ((initial.push {}).2.push {}).2
  let t := t.update ⟨18⟩ fun d => { d with
    symbols := [("item", .number), ("next", ⟨19⟩)]
    handlers := [(.number, ⟨18⟩)] }
  t.update ⟨19⟩ fun d => { d with
    symbols := [("item", .string), ("next", ⟨18⟩)]
    handlers := [(.number, ⟨18⟩), (.string, ⟨19⟩)] }

theorem reached_alternatingLists : alternatingLists.Reached := by
  have hstart : initial.Reached :=
    .start initial_sound.closed initial_sound.builtins_lt (by decide +kernel)
  have hpush : ∀ t : TypeTable, t.Reached → (t.push {}).2.Reached := fun t ht =>
    ht.extend ((Extends.refl t).push {}) (ht.uniting.2.closed.push fun _ hpart => nomatch hpart) rfl
  have hfree : ∀ t : TypeTable, t.unions = [] → ∀ id, ¬ t.TakesPart id := by
    rintro t hnone id ⟨parts, union, hlookup, -⟩
    simp [hnone] at hlookup
  refine Reached.tell (Reached.tell (hpush _ (hpush _ hstart)) (hfree _ ?_ _) ?_ rfl rfl)
    (hfree _ ?_ _) ?_ rfl rfl
  · decide +kernel
  · exact closed_iff.mpr (by decide +kernel)
  · decide +kernel
  · exact closed_iff.mpr (by decide +kernel)

/-- The union of both kinds goes on with the union of both in the other order, and that one with the
first one again. -/
theorem union_speaks_alternatingLists :
    alternatingLists.Reached ∧ alternatingLists.unionParts [⟨18⟩, ⟨19⟩] = [⟨18⟩, ⟨19⟩] ∧
      (Tabling.union [⟨18⟩, ⟨19⟩] alternatingLists).map (fun made =>
        (made.1, made.2.answer? ⟨20⟩ "next", made.2.answer? ⟨24⟩ "next")) =
        .ok (⟨20⟩, some ⟨24⟩, some ⟨20⟩) ∧
      ∃ union t', Tabling.union [⟨18⟩, ⟨19⟩] alternatingLists = .ok (union, t') ∧
        alternatingLists.Extends t' ∧
        (t'.get union).variants = alternatingLists.unionParts [⟨18⟩, ⟨19⟩] ∧
        (∀ symbol, (t'.answer? union symbol).isSome ↔
          ∃ part ∈ alternatingLists.unionParts [⟨18⟩, ⟨19⟩],
            (alternatingLists.answer? part symbol).isSome) ∧
        (∀ symbol answer, t'.answer? union symbol = some answer →
          Tabling.union ((alternatingLists.unionParts [⟨18⟩, ⟨19⟩]).filterMap
            (alternatingLists.answer? · symbol)) t' = .ok (answer, t')) ∧
        (t'.get union).handlers = ((alternatingLists.unionParts [⟨18⟩, ⟨19⟩]).flatMap
          fun part => (alternatingLists.get part).handlers).eraseDups := by
  refine ⟨reached_alternatingLists, by decide +kernel, by decide +kernel,
    reached_alternatingLists.union_speaks ?_ ?_ ?_⟩ <;> decide +kernel

end TypeTable

end MessageLang
