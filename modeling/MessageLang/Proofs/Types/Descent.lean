import MessageLang.Proofs.Types.Speaking

namespace MessageLang

open TypeTable

namespace TypeTable

variable {start t t' t'' : TypeTable}

theorem Retains.refl (t : TypeTable) : t.Retains t := (Extends.refl t).retains

theorem Retains.trans (h : t.Retains t') (h' : t'.Retains t'') : t.Retains t'' := by
  have hlt : ∀ id : TypeId, id.index < t.size → id.index < t'.size :=
    fun id hid => hid.trans_le h.size_le
  refine ⟨h.size_le.trans h'.size_le, fun id hid => ?_, fun id hid => ?_⟩
  · rw [h'.shape_eq id (hlt id hid), h.shape_eq id hid]
  · rw [h'.variants_eq id (hlt id hid), h.variants_eq id hid]

end TypeTable

/-- A call for the union of some types: the table that it meets, the type that it gives, and the
table that it leaves behind. -/
structure UnionCall where
  ids : List TypeId
  before : TypeTable
  union : TypeId
  after : TypeTable

namespace UnionCall

/-- What the types come to that are to be united. -/
def parts (call : UnionCall) : List TypeId := call.before.unionParts call.ids

/-- Whether the union has to be made. -/
def isNew (call : UnionCall) : Bool := (call.before.united? call.ids).isNone

mutual

/-- How a call goes, however deep unions are nested, with the calls that are made on the way. -/
inductive Runs : UnionCall → List UnionCall → Prop
  | united {ids : List TypeId} {t : TypeTable} {union : TypeId} (h : t.united? ids = some union) :
      Runs ⟨ids, t, union, t⟩ []
  | made {ids : List TypeId} {t told : TypeTable} {calls : List UnionCall}
      (hnone : t.united? ids = none)
      (htells : Tells t (t.unionParts ids) (t.answers (t.unionParts ids)) told calls) :
      Runs ⟨ids, t, ⟨t.size⟩, told.update ⟨t.size⟩ fun d => { d with
        handlers := ((t.unionParts ids).flatMap fun id => (t.get id).handlers).eraseDups }⟩ calls

/-- How a union that was entered is told what it answers to some symbols, each after a call for
the union of the answers to it. -/
inductive Tells : TypeTable → List TypeId → List (String × List TypeId) → TypeTable →
    List UnionCall → Prop
  | entered (t : TypeTable) (parts : List TypeId) : Tells t parts [] (t.enterUnion parts) []
  | answer {t told : TypeTable} {parts : List TypeId} {entries : List (String × List TypeId)}
      {calls nested : List UnionCall} {call : UnionCall} {symbol : String}
      (h : Tells t parts entries told calls) (hbefore : call.before = told)
      (hruns : Runs call nested) :
      Tells t parts (entries ++ [(symbol, call.ids)])
        (call.after.update ⟨t.size⟩ (·.addSymbol symbol call.union)) (calls ++ call :: nested)

end

/-- Between two tables the union that a call is for was made. -/
structure Made (call : UnionCall) (t t' : TypeTable) : Prop where
  lookup_eq_none : t.unions.lookup call.parts = none
  lookup_eq : t'.unions.lookup call.parts = some call.union
  new : t.size ≤ call.union.index
  lt : call.union.index < t'.size
  variants_eq : (t'.get call.union).variants = call.parts

variable {start t t' t'' : TypeTable} {call : UnionCall} {calls calls' : List UnionCall}
  {ids : List TypeId} {union : TypeId}

theorem Made.before (h : call.Made t' t'') (hsize : t.size ≤ t'.size)
    (hkeeps : Persists t.unions t'.unions) : call.Made t t'' :=
  ⟨hkeeps.lookup_eq_none h.lookup_eq_none, h.lookup_eq, hsize.trans h.new, h.lt, h.variants_eq⟩

theorem Made.after (h : call.Made t t') (hretains : t'.Retains t'')
    (hkeeps : Persists t'.unions t''.unions) : call.Made t t'' := by
  refine ⟨h.lookup_eq_none, hkeeps _ _ h.lookup_eq, h.new, h.lt.trans_le hretains.size_le, ?_⟩
  rw [hretains.variants_eq call.union h.lt]
  exact h.variants_eq

/-- What is so of all calls that lead from one table to another when they began with types of the
table `start`: they are for types of that one, each of them finds a union or makes one that there was
not before, and there are no other unions or types than before but those. -/
structure Course (start t t' : TypeTable) (calls : List UnionCall) : Prop where
  retains : t.Retains t'
  keeps : Persists t.unions t'.unions
  ids_lt : ∀ call ∈ calls, ∀ id ∈ call.ids, id.index < start.size
  grows : ∀ call ∈ calls, start.Extends call.before
  found : ∀ call ∈ calls, call.isNew = false →
    call.before.united? call.ids = some call.union ∧ call.after = call.before
  makes : ∀ call ∈ calls, call.isNew = true → call.Made call.before call.after
  made : ∀ call ∈ calls, call.isNew = true → call.Made t t'
  nodup : ((calls.filter (·.isNew)).map (·.parts)).Nodup
  exists_of_lookup : ∀ parts union, t'.unions.lookup parts = some union →
    t.unions.lookup parts = some union ∨
      ∃ call ∈ calls, call.isNew = true ∧ call.parts = parts ∧ call.union = union
  exists_of_new : ∀ id : TypeId, t.size ≤ id.index → id.index < t'.size →
    ∃ call ∈ calls, call.isNew = true ∧ call.union = id

theorem Course.nil (start t : TypeTable) : Course start t t [] where
  retains := .refl t
  keeps := .refl t.unions
  ids_lt := List.forall_mem_nil _
  grows := List.forall_mem_nil _
  found := List.forall_mem_nil _
  makes := List.forall_mem_nil _
  made := List.forall_mem_nil _
  nodup := List.nodup_nil
  exists_of_lookup _ _ h := .inl h
  exists_of_new id hnew hlt := by omega

theorem Course.append (h : Course start t t' calls) (h' : Course start t' t'' calls') :
    Course start t t'' (calls ++ calls') where
  retains := h.retains.trans h'.retains
  keeps := h.keeps.trans h'.keeps
  ids_lt := List.forall_mem_append.mpr ⟨h.ids_lt, h'.ids_lt⟩
  grows := List.forall_mem_append.mpr ⟨h.grows, h'.grows⟩
  found := List.forall_mem_append.mpr ⟨h.found, h'.found⟩
  makes := List.forall_mem_append.mpr ⟨h.makes, h'.makes⟩
  made := List.forall_mem_append.mpr
    ⟨fun call hcall hnew => (h.made call hcall hnew).after h'.retains h'.keeps,
      fun call hcall hnew => (h'.made call hcall hnew).before h.retains.size_le h.keeps⟩
  nodup := by
    rw [List.filter_append, List.map_append, List.nodup_append]
    refine ⟨h.nodup, h'.nodup, fun parts hparts parts' hparts' => ?_⟩
    obtain ⟨call, hcall, rfl⟩ := List.mem_map.mp hparts
    obtain ⟨call', hcall', rfl⟩ := List.mem_map.mp hparts'
    rw [List.mem_filter] at hcall hcall'
    -- what the first calls made is found by the later ones
    have hmade := (h.made call hcall.1 hcall.2).lookup_eq
    have hmade' := (h'.made call' hcall'.1 hcall'.2).lookup_eq_none
    intro heq
    rw [heq, hmade'] at hmade
    cases hmade
  exists_of_lookup parts union hunion := by
    rcases h'.exists_of_lookup parts union hunion with hunion | ⟨call, hcall, hnew⟩
    · rcases h.exists_of_lookup parts union hunion with hunion | ⟨call, hcall, hnew⟩
      · exact .inl hunion
      · exact .inr ⟨call, List.mem_append_left _ hcall, hnew⟩
    · exact .inr ⟨call, List.mem_append_right _ hcall, hnew⟩
  exists_of_new id hnew hlt := by
    by_cases hid : id.index < t'.size
    · obtain ⟨call, hcall, hmade⟩ := h.exists_of_new id hnew hid
      exact ⟨call, List.mem_append_left _ hcall, hmade⟩
    · obtain ⟨call, hcall, hmade⟩ := h'.exists_of_new id (Nat.le_of_not_lt hid) hlt
      exact ⟨call, List.mem_append_right _ hcall, hmade⟩

/-- A type may be told more in the end. -/
theorem Course.update (h : Course start t t' calls) {id : TypeId}
    {change : Descriptor → Descriptor} (hshape : (change (t'.get id)).shape = (t'.get id).shape)
    (hvariants : (change (t'.get id)).variants = (t'.get id).variants) :
    Course start t (t'.update id change) calls := by
  have hretains := retains_update t' hshape hvariants
  refine ⟨h.retains.trans hretains, h.keeps, h.ids_lt, h.grows, h.found, h.makes,
    fun call hcall hnew => (h.made call hcall hnew).after hretains (.refl _), h.nodup,
    h.exists_of_lookup, fun other hnew hlt => ?_⟩
  rw [size_update] at hlt
  exact h.exists_of_new other hnew hlt

/-- A call that finds a union. -/
theorem Course.find (hids : ∀ id ∈ ids, id.index < start.size) (hgrows : start.Extends t)
    (h : t.united? ids = some union) : Course start t t [⟨ids, t, union, t⟩] := by
  have hold : isNew ⟨ids, t, union, t⟩ = false := by simp [isNew, h]
  refine ⟨.refl t, .refl t.unions, List.forall_mem_singleton.mpr hids,
    List.forall_mem_singleton.mpr hgrows, List.forall_mem_singleton.mpr fun _ => ⟨h, rfl⟩,
    List.forall_mem_singleton.mpr fun hnew => ?_, List.forall_mem_singleton.mpr fun hnew => ?_,
    ?_, fun _ _ hunion => .inl hunion, fun id hnew hlt => ?_⟩
  · cases hold.symm.trans hnew
  · cases hold.symm.trans hnew
  · simp [hold]
  · omega

/-- A call that makes a union, by the calls that follow on the union being entered. -/
theorem Course.make (hids : ∀ id ∈ ids, id.index < start.size) (hgrows : start.Extends t)
    (hnone : t.united? ids = none)
    (h : Course start (t.enterUnion (t.unionParts ids)) t' calls) :
    Course start t t' (⟨ids, t, ⟨t.size⟩, t'⟩ :: calls) := by
  have hnew : isNew ⟨ids, t, ⟨t.size⟩, t'⟩ = true := by simp [isNew, hnone]
  have hopen := (of_united?_eq_none hnone).2.2
  have hentered := extends_enterUnion t (t.unionParts ids)
  have hkeeps : Persists t.unions (t.enterUnion (t.unionParts ids)).unions := .cons hopen _
  have hlookup := lookup_enterUnion t (t.unionParts ids)
  have hsize := size_enterUnion t (t.unionParts ids)
  have hlt : t.size < (t.enterUnion (t.unionParts ids)).size := by omega
  have hmade : Made ⟨ids, t, ⟨t.size⟩, t'⟩ t t' := by
    refine ⟨hopen, h.keeps _ _ hlookup, Nat.le_refl _, hlt.trans_le h.retains.size_le, ?_⟩
    rw [h.retains.variants_eq ⟨t.size⟩ hlt, get_enterUnion]
    rfl
  refine ⟨hentered.retains.trans h.retains, hkeeps.trans h.keeps,
    List.forall_mem_cons.mpr ⟨hids, h.ids_lt⟩, List.forall_mem_cons.mpr ⟨hgrows, h.grows⟩,
    List.forall_mem_cons.mpr ⟨fun hold => ?_, h.found⟩,
    List.forall_mem_cons.mpr ⟨fun _ => hmade, h.makes⟩,
    List.forall_mem_cons.mpr ⟨fun _ => hmade, fun call hcall hcallnew =>
      (h.made call hcall hcallnew).before hentered.size_le hkeeps⟩,
    ?_, fun parts union hunion => ?_, fun id hid hidlt => ?_⟩
  · cases hold.symm.trans hnew
  · rw [List.filter_cons_of_pos hnew, List.map_cons, List.nodup_cons]
    refine ⟨fun hparts => ?_, h.nodup⟩
    obtain ⟨call, hcall, heq⟩ := List.mem_map.mp hparts
    rw [List.mem_filter] at hcall
    -- the calls on the way find the union that was entered
    have hnone' := (h.made call hcall.1 hcall.2).lookup_eq_none
    rw [heq] at hnone'
    cases hnone'.symm.trans hlookup
  · rcases h.exists_of_lookup parts union hunion with hunion | ⟨call, hcall, hmade'⟩
    · rcases lookup_cons_eq_some_iff.mp hunion with ⟨rfl, rfl⟩ | ⟨-, hunion⟩
      · exact .inr ⟨_, List.mem_cons_self, hnew, rfl, rfl⟩
      · exact .inl hunion
    · exact .inr ⟨call, List.mem_cons_of_mem _ hcall, hmade'⟩
  · by_cases heq : id.index = t.size
    · refine ⟨_, List.mem_cons_self, hnew, ?_⟩
      cases id
      exact congrArg TypeId.mk heq.symm
    · obtain ⟨call, hcall, hmade'⟩ := h.exists_of_new id (by omega) hidlt
      exact ⟨call, List.mem_cons_of_mem _ hcall, hmade'⟩

theorem isNew_iff : call.isNew = true ↔ call.before.united? call.ids = none := by
  rw [isNew, Option.isNone_iff_eq_none]

/-- What is united comes to types that were there at the start. -/
theorem Course.part_lt (h : Course start t t' calls) (hstart : start.Closed)
    (hcall : call ∈ calls) : ∀ part ∈ call.parts, part.index < start.size :=
  unionParts_lt hstart (h.grows call hcall) (h.ids_lt call hcall)

/-- What types come to that are to be united does not change on the way. -/
theorem Course.parts_eq (h : Course start t t' calls) (hstart : start.Closed)
    (hcall : call ∈ calls) : call.parts = start.unionParts call.ids :=
  (h.grows call hcall).retains.unionParts_eq hstart (h.ids_lt call hcall)

/-- There are not more new unions than lists of that many types. -/
theorem Course.length_le (h : Course start t t' calls) (hstart : start.Closed) :
    (calls.filter (·.isNew)).length ≤ (start.size + 1) ^ start.size := by
  have hmem : ∀ parts ∈ ((calls.filter (·.isNew)).map (·.parts)),
      parts ∈ typeListsWithin start.size start.size := by
    intro parts hparts
    obtain ⟨call, hcall, rfl⟩ := List.mem_map.mp hparts
    have hlt := h.part_lt hstart (List.mem_filter.mp hcall).1
    exact mem_typeListsWithin hlt (TypeId.length_le_of_nodup (nodup_unionParts _ _) hlt)
  calc (calls.filter (·.isNew)).length
      = ((calls.filter (·.isNew)).map (·.parts)).toFinset.card := by
        rw [List.toFinset_card_of_nodup h.nodup, List.length_map]
    _ ≤ (typeListsWithin start.size start.size).card := by
        apply Finset.card_le_card
        intro parts hparts
        exact hmem parts (List.mem_toFinset.mp hparts)
    _ ≤ (start.size + 1) ^ start.size := card_typeListsWithin_le start.size start.size

end UnionCall

namespace Tabling

open UnionCall

variable {start t : TypeTable} {ids : List TypeId} {levels : Nat}

/-- Making a union, given how unions of what its parts answer are made. -/
theorem makeUnion_runs (hids : ∀ id ∈ ids, id.index < start.size) (hgrows : start.Extends t)
    (hnone : t.united? ids = none)
    (hnested : ∀ entry ∈ t.answers (t.unionParts ids), ∀ s, t.Extends s →
      Persists t.unions s.unions → s.unions.lookup (t.unionParts ids) ≠ none →
      Ends (unionWithin levels entry.2) s fun union s' => s.Extends s' ∧ ∃ nested,
        Runs ⟨entry.2, s, union, s'⟩ nested ∧
          UnionCall.Course start s s' (⟨entry.2, s, union, s'⟩ :: nested)) :
    Ends (makeUnion levels t (t.unionParts ids)) t fun union t' => t.Extends t' ∧ ∃ calls,
      Runs ⟨ids, t, union, t'⟩ calls ∧
        UnionCall.Course start t t' (⟨ids, t, union, t'⟩ :: calls) := by
  have hopen := (of_united?_eq_none hnone).2.2
  generalize hparts : t.unionParts ids = parts at hnested hopen
  have hkeeps : Persists t.unions (t.enterUnion parts).unions := .cons hopen _
  simp only [makeUnion, Tabling.push, Tabling.update, Tabling.addSymbol, ends_bind_iff,
    ends_modifyGet_iff, ends_modify_iff, ends_pure_iff]
  let inv (told : List (String × List TypeId)) (s : TypeTable) : Prop :=
    t.Extends s ∧ ∃ calls, Tells t parts told s calls ∧
      UnionCall.Course start (t.enterUnion parts) s calls
  have hinv : inv [] (t.enterUnion parts) :=
    ⟨extends_enterUnion t parts, [], .entered t parts, .nil start _⟩
  refine (ends_forIn ?_ hinv).mono ?_
  · rintro told ⟨symbol, answers⟩ hentry s ⟨hs, calls, htells, hcourse⟩
    simp only [ends_bind_iff, ends_modify_iff, ends_pure_iff]
    have hlookup : s.unions.lookup parts ≠ none := by
      rw [hcourse.keeps _ _ (lookup_enterUnion t parts)]
      exact Option.some_ne_none _
    refine (hnested _ hentry s hs (hkeeps.trans hcourse.keeps) hlookup).mono ?_
    rintro union s' ⟨hs', nested, hruns, hmore⟩
    exact ⟨trivial, (hs.trans hs').update (Nat.le_refl _) _, _, .answer htells rfl hruns,
      (hcourse.append hmore).update rfl rfl⟩
  · rintro - s ⟨hs, calls, htells, hcourse⟩
    subst hparts
    exact ⟨hs.update (Nat.le_refl _) _, calls, .made hnone htells,
      .make hids hgrows hnone (hcourse.update rfl rfl)⟩

/-- Uniting types of a table, in it or in one that came of it, runs to its end. The induction is on
the levels: while the answers of a union are united it is known, so there is one union less to make. -/
theorem unionWithin_runs (hstart : start.Closed) (hids : ∀ id ∈ ids, id.index < start.size)
    (hgrows : start.Extends t) (hlevels : t.openUnions start.size < levels) :
    Ends (unionWithin levels ids) t fun union t' => t.Extends t' ∧ ∃ calls,
      Runs ⟨ids, t, union, t'⟩ calls ∧
        UnionCall.Course start t t' (⟨ids, t, union, t'⟩ :: calls) := by
  induction levels generalizing ids t with
  | zero => omega
  | succ levels ih =>
    rw [unionWithin_succ, ends_bind_iff, ends_get_iff]
    cases hunited : t.united? ids with
    | some union => exact ⟨.refl t, [], .united hunited, .find hids hgrows hunited⟩
    | none =>
      apply makeUnion_runs hids hgrows hunited
      intro entry hentry s hs hkeeps hlookup
      have hparts := unionParts_lt hstart hgrows hids
      have hfewer : s.openUnions start.size < t.openUnions start.size :=
        openUnions_lt (nodup_unionParts t ids) hparts (of_united?_eq_none hunited).2.2
          (fun _ => hkeeps.lookup_eq_none) hlookup
      refine ih (fun id hid => ?_) (hgrows.trans hs) (by omega)
      -- what the parts answer are types from the start, since the parts are
      rw [eq_of_mem_answers hentry] at hid
      obtain ⟨part, hpart, hanswer⟩ := List.mem_filterMap.mp hid
      rw [answer?, hgrows.get_eq part (hparts part hpart)] at hanswer
      exact hstart.answer_lt hanswer

end Tabling

namespace TypeTable

open UnionCall

variable {t : TypeTable} {ids : List TypeId}

/-- Uniting types runs to its end, whatever types there are. -/
theorem Closed.union_runs (ht : t.Closed) (hids : ∀ id ∈ ids, id.index < t.size) :
    Ends (Tabling.union ids) t fun union t' => t.Extends t' ∧ ∃ calls,
      Runs ⟨ids, t, union, t'⟩ calls ∧ UnionCall.Course t t t' (⟨ids, t, union, t'⟩ :: calls) := by
  by_cases hpos : 0 < t.size
  · rw [Tabling.union, ends_bind_iff, ends_get_iff]
    exact Tabling.unionWithin_runs ht hids (.refl t) (openUnions_lt_unionBound t hpos)
  · -- without types there is nothing to unite
    obtain rfl : ids = [] := List.eq_nil_iff_forall_not_mem.mpr fun id hid =>
      hpos (Nat.zero_lt_of_lt (hids id hid))
    have hunited : t.united? [] = some .never := rfl
    apply ends_iff.mpr
    exact ⟨.never, t, union_eq_of_united?_eq_some hunited, .refl t, [], .united hunited,
      .find hids (.refl t) hunited⟩

/-- Uniting types of a table ends, however the types lead back to each other and whatever they have
for variants. All that is ever united was there before. Each call on the way, the first one
included, has less than two types to unite or one for all values, and nothing to do, or finds the
union, or makes one that there was not. So no list of types is united anew twice, and there are not
more such calls than lists of that many types. -/
theorem Closed.union_terminates (ht : t.Closed) (hids : ∀ id ∈ ids, id.index < t.size) :
    ∃ union t' calls, Tabling.union ids t = .ok (union, t') ∧ Runs ⟨ids, t, union, t'⟩ calls ∧
      (∀ call ∈ ⟨ids, t, union, t'⟩ :: calls,
        (∀ part ∈ call.parts, part.index < t.size) ∧
          ((call.parts.length < 2 ∨ ∃ part ∈ call.parts, call.before.isAnything part = true) ∧
              call.after = call.before ∨
            call.before.unions.lookup call.parts = some call.union ∧ call.after = call.before ∨
            call.before.unions.lookup call.parts = none ∧
              call.after.unions.lookup call.parts = some call.union)) ∧
      (((⟨ids, t, union, t'⟩ :: calls).filter (·.isNew)).map (·.parts)).Nodup ∧
      ((⟨ids, t, union, t'⟩ :: calls).filter (·.isNew)).length ≤ (t.size + 1) ^ t.size := by
  obtain ⟨union, t', hrun, -, calls, hruns, hcourse⟩ := ends_iff.mp (ht.union_runs hids)
  refine ⟨union, t', calls, hrun, hruns, fun call hcall => ⟨hcourse.part_lt ht hcall, ?_⟩,
    hcourse.nodup, hcourse.length_le ht⟩
  cases hnew : call.isNew with
  | true =>
    have hmade := hcourse.makes call hcall hnew
    exact .inr (.inr ⟨hmade.lookup_eq_none, hmade.lookup_eq⟩)
  | false =>
    obtain ⟨hunited, hafter⟩ := hcourse.found call hcall hnew
    rcases united?_cases call.before call.ids with ⟨hany, -⟩ | ⟨hnil, -⟩ | ⟨only, hone, -⟩ |
      ⟨-, -, hlookup⟩
    · exact .inl ⟨.inr hany, hafter⟩
    · exact .inl ⟨.inl (by simp [parts, hnil]), hafter⟩
    · exact .inl ⟨.inl (by simp [parts, hone]), hafter⟩
    · exact .inr (.inl ⟨hlookup.symm.trans hunited, hafter⟩)

/-- Lists that go on with each other, the union of some of them, and a union of that one. -/
def tangledLists : TypeTable where
  types := #[{ shape := .nothing }, { shape := .anything }, { shape := .never },
    { symbols := [("item", ⟨4⟩), ("next", ⟨4⟩)] }, { symbols := [("item", ⟨5⟩), ("next", ⟨3⟩)] },
    { symbols := [("next", ⟨6⟩)], variants := [⟨3⟩, ⟨2⟩] }, { variants := [⟨5⟩, ⟨4⟩] }]
  unions := []

/-- The union of the union and a list goes on with itself, and two more unions are made on the way. -/
theorem union_terminates_tangledLists :
    tangledLists.Closed ∧ tangledLists.unionParts [⟨6⟩, ⟨3⟩] = [⟨5⟩, ⟨4⟩, ⟨3⟩] ∧
      (Tabling.union [⟨6⟩, ⟨3⟩] tangledLists).map (fun made =>
        (made.1, made.2.answer? ⟨7⟩ "next", made.2.unions)) =
        .ok (⟨7⟩, some ⟨7⟩, [([⟨4⟩, ⟨3⟩], ⟨9⟩), ([⟨3⟩, ⟨4⟩], ⟨8⟩), ([⟨5⟩, ⟨4⟩, ⟨3⟩], ⟨7⟩)]) ∧
      ∃ union t' calls, Tabling.union [⟨6⟩, ⟨3⟩] tangledLists = .ok (union, t') ∧
        Runs ⟨[⟨6⟩, ⟨3⟩], tangledLists, union, t'⟩ calls ∧
        (∀ call ∈ ⟨[⟨6⟩, ⟨3⟩], tangledLists, union, t'⟩ :: calls,
          (∀ part ∈ call.parts, part.index < tangledLists.size) ∧
            ((call.parts.length < 2 ∨ ∃ part ∈ call.parts, call.before.isAnything part = true) ∧
                call.after = call.before ∨
              call.before.unions.lookup call.parts = some call.union ∧ call.after = call.before ∨
              call.before.unions.lookup call.parts = none ∧
                call.after.unions.lookup call.parts = some call.union)) ∧
        (((⟨[⟨6⟩, ⟨3⟩], tangledLists, union, t'⟩ :: calls).filter (·.isNew)).map (·.parts)).Nodup ∧
        ((⟨[⟨6⟩, ⟨3⟩], tangledLists, union, t'⟩ :: calls).filter (·.isNew)).length ≤
          (tangledLists.size + 1) ^ tangledLists.size := by
  have hclosed : tangledLists.Closed := closed_iff.mpr (by decide)
  exact ⟨hclosed, by decide +kernel, by decide +kernel, hclosed.union_terminates (by decide)⟩

end TypeTable

end MessageLang
