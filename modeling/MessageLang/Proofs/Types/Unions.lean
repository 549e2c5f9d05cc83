import MessageLang.Proofs.Types.Alternatives

namespace MessageLang

namespace TypeTable

variable {start before t t' t'' : TypeTable} {ids parts : List TypeId}

/-- What becomes of some distinct types that are united. -/
def Unites (t : TypeTable) (parts : List TypeId) (id : TypeId) : Prop :=
  id = .anything ∧ (∃ part ∈ parts, t.isAnything part) ∨ parts = [] ∧ id = .never ∨ parts = [id] ∨
    t.UnionOf parts id

theorem Unites.extend {id : TypeId} (h : t.Unites parts id) (hmore : t.Extends t')
    (hparts : ∀ part ∈ parts, part.index < t.size) : t'.Unites parts id := by
  rcases h with ⟨rfl, part, hpart, hany⟩ | h | h | h
  · refine .inl ⟨rfl, part, hpart, ?_⟩
    rw [isAnything, hmore.get_eq part (hparts part hpart)]
    exact hany
  · exact .inr (.inl h)
  · exact .inr (.inr (.inl h))
  · exact .inr (.inr (.inr (h.extend hmore)))

/-- A table in which nothing but unions were added to another one. -/
structure AddsUnions (t t' : TypeTable) : Prop where
  grows : t.Extends t'
  keeps : Persists t.unions t'.unions
  unionOf : ∀ entry ∈ t'.unions, entry ∈ t.unions ∨ t'.UnionOf entry.1 entry.2
  params_eq : ∀ id : TypeId, t.size ≤ id.index → (t'.get id).params = []

theorem AddsUnions.refl (t : TypeTable) : t.AddsUnions t where
  grows := .refl t
  keeps := .refl t.unions
  unionOf _ hentry := .inl hentry
  params_eq id hid := by
    rw [get_eq_default_of_le hid]
    rfl

theorem AddsUnions.trans (h : t.AddsUnions t') (h' : t'.AddsUnions t'') : t.AddsUnions t'' where
  grows := h.grows.trans h'.grows
  keeps := h.keeps.trans h'.keeps
  unionOf entry hentry := by
    rcases h'.unionOf entry hentry with hentry | hunion
    · exact (h.unionOf entry hentry).imp_right fun hunion => hunion.extend h'.grows
    · exact .inr hunion
  params_eq id hid := by
    by_cases hlt : id.index < t'.size
    · rw [h'.grows.get_eq id hlt]
      exact h.params_eq id hid
    · exact h'.params_eq id (Nat.le_of_not_lt hlt)

/-- A union that was added may still be told more. -/
theorem AddsUnions.update (h : start.AddsUnions t) {id : TypeId} (hnew : start.size ≤ id.index)
    {change : Descriptor → Descriptor} (hshape : (change (t.get id)).shape = (t.get id).shape)
    (hvariants : (change (t.get id)).variants = (t.get id).variants)
    (hparams : (change (t.get id)).params = (t.get id).params) :
    start.AddsUnions (t.update id change) where
  grows := h.grows.update hnew change
  keeps := h.keeps
  unionOf entry hentry := (h.unionOf entry hentry).imp_right (·.update hshape hvariants)
  params_eq other hother := by
    rw [get_update_congr Descriptor.params hparams]
    exact h.params_eq other hother

theorem Sound.addUnions (ht : t.Sound) (h : t.AddsUnions t') (hclosed : t'.Closed) : t'.Sound where
  closed := hclosed
  builtins_lt := h.grows.lt ht.builtins_lt
  unions_made entry hentry := (h.unionOf entry hentry).elim
    (fun hentry => (ht.unions_made entry hentry).extend h.grows) id
  params_eq id := by
    by_cases hlt : id.index < t.size
    · rw [h.grows.get_eq id hlt]
      exact ht.params_eq id
    · exact .inl (h.params_eq id (Nat.le_of_not_lt hlt))

theorem Sound.unites (ht : t.Sound) {union : TypeId} (h : t.united? ids = some union) :
    t.Unites (t.unionParts ids) union := by
  rcases united?_cases t ids with ⟨hany, heq⟩ | ⟨hnil, heq⟩ | ⟨only, hone, heq⟩ | ⟨-, -, heq⟩ <;>
    rw [h] at heq
  · exact .inl ⟨Option.some.inj heq, hany⟩
  · exact .inr (.inl ⟨hnil, Option.some.inj heq⟩)
  · exact .inr (.inr (.inl (Option.some.inj heq ▸ hone)))
  · exact .inr (.inr (.inr (ht.unions_made _ (mem_of_lookup_eq_some heq.symm))))

/-- A union says all that its parts say. It answers what one of them answers, with what uniting
their answers comes to. -/
structure Speaks (t : TypeTable) (parts : List TypeId) (union : TypeId) : Prop where
  isSome_answer?_iff : ∀ symbol,
    (t.answer? union symbol).isSome ↔ ∃ part ∈ parts, (t.answer? part symbol).isSome
  united?_eq : ∀ symbol answer, t.answer? union symbol = some answer →
    t.united? (parts.filterMap (t.answer? · symbol)) = some answer
  handlers_eq : (t.get union).handlers = (parts.flatMap fun part => (t.get part).handlers).eraseDups

theorem answers_lt (ht : t.Closed) (symbol : String) :
    ∀ id ∈ parts.filterMap (t.answer? · symbol), id.index < t.size := by
  intro id hid
  obtain ⟨part, -, hanswer⟩ := List.mem_filterMap.mp hid
  exact ht.answer_lt hanswer

/-- A union goes on to say all that its parts say if neither it nor they are told more. -/
theorem Speaks.retain {union : TypeId} (h : t.Speaks parts union) (ht : t.Closed)
    (hretains : t.Retains t') (hkeeps : Persists t.unions t'.unions)
    (hsymbols : ∀ id, id = union ∨ id ∈ parts → (t'.get id).symbols = (t.get id).symbols)
    (hhandlers : ∀ id, id = union ∨ id ∈ parts → (t'.get id).handlers = (t.get id).handlers) :
    t'.Speaks parts union := by
  have hanswer : ∀ id, id = union ∨ id ∈ parts →
      ∀ symbol, t'.answer? id symbol = t.answer? id symbol :=
    fun id hid symbol => by rw [answer?, answer?, hsymbols id hid]
  refine ⟨fun symbol => ?_, fun symbol answer hsome => ?_, ?_⟩
  · rw [hanswer union (.inl rfl), h.isSome_answer?_iff]
    exact exists_congr fun part => and_congr_right fun hpart => by rw [hanswer part (.inr hpart)]
  · rw [hanswer union (.inl rfl)] at hsome
    rw [List.filterMap_congr fun part hpart => hanswer part (.inr hpart) symbol]
    exact hretains.united?_eq_some hkeeps ht (answers_lt ht symbol)
      (h.united?_eq symbol answer hsome)
  · rw [hhandlers union (.inl rfl), h.handlers_eq]
    exact congrArg List.eraseDups
      (List.flatMap_congr fun part hpart => (hhandlers part (.inr hpart)).symm)

/-- How far uniting has come. All unions are of types from the start, and all but those that are
still being made say what their parts say. -/
structure Uniting (start t : TypeTable) (unfinished : List (List TypeId)) : Prop where
  grows : start.Extends t
  closed : t.Closed
  union_lt : ∀ parts union, t.unions.lookup parts = some union → union.index < t.size
  variants_eq : ∀ parts union, t.unions.lookup parts = some union → (t.get union).variants = parts
  part_lt : ∀ parts union, t.unions.lookup parts = some union →
    ∀ part ∈ parts, part.index < start.size
  speaks : ∀ parts union, t.unions.lookup parts = some union → parts ∉ unfinished →
    t.Speaks parts union

/-- A table of which it is not known what its unions say can be added unions to: all that there were
may be unfinished. -/
theorem Sound.uniting (ht : t.Sound) : t.Uniting t (t.unions.map Prod.fst) := by
  have hunion : ∀ parts union, t.unions.lookup parts = some union → t.UnionOf parts union :=
    fun parts union hlookup => ht.unions_made _ (mem_of_lookup_eq_some hlookup)
  refine ⟨.refl t, ht.closed, fun parts union hlookup => (hunion parts union hlookup).lt,
    fun parts union hlookup => (hunion parts union hlookup).variants_eq,
    fun parts union hlookup => (hunion parts union hlookup).part_lt,
    fun parts union hlookup hdone => absurd ?_ hdone⟩
  exact List.mem_map.mpr ⟨_, mem_of_lookup_eq_some hlookup, rfl⟩

/-- A table in which a new type was entered as the union of some types. -/
def enterUnion (t : TypeTable) (parts : List TypeId) : TypeTable :=
  { (t.push { variants := parts }).2 with unions := (parts, ⟨t.size⟩) :: t.unions }

section

variable {unfinished : List (List TypeId)} {union : TypeId} {symbol : String}
  {told : List (String × List TypeId)}

theorem size_enterUnion (t : TypeTable) (parts : List TypeId) :
    (t.enterUnion parts).size = t.size + 1 := size_push t _

theorem get_enterUnion (t : TypeTable) (parts : List TypeId) :
    (t.enterUnion parts).get ⟨t.size⟩ = { variants := parts } := get_push_new t _

theorem extends_enterUnion (t : TypeTable) (parts : List TypeId) : t.Extends (t.enterUnion parts) :=
  ((Extends.refl t).push _).withUnions _

theorem lookup_enterUnion (t : TypeTable) (parts : List TypeId) :
    (t.enterUnion parts).unions.lookup parts = some ⟨t.size⟩ :=
  lookup_cons_eq_some_iff.mpr (.inl ⟨rfl, rfl⟩)

theorem addsUnions_enterUnion (hparts : ∀ part ∈ parts, part.index < t.size) (hnodup : parts.Nodup)
    (htwo : 2 ≤ parts.length) (hnever : ∀ part ∈ parts, t.isNever part = false)
    (hnone : t.unions.lookup parts = none) : t.AddsUnions (t.enterUnion parts) where
  grows := extends_enterUnion t parts
  keeps := .cons hnone _
  unionOf entry hentry := by
    rcases List.mem_cons.mp hentry with rfl | hentry
    · refine .inr ⟨?_, by rw [get_enterUnion], by rw [get_enterUnion], hnodup, htwo,
        fun part hpart => (extends_enterUnion t parts).lt (hparts part hpart), fun part hpart => ?_⟩
      · rw [size_enterUnion]
        exact Nat.lt_succ_self _
      · rw [(extends_enterUnion t parts).isNever_eq (hparts part hpart)]
        exact hnever part hpart
    · exact .inl hentry
  params_eq id hid := by
    rcases get_push t { variants := parts } id with heq | heq
    · exact (congrArg Descriptor.params heq).trans ((AddsUnions.refl t).params_eq id hid)
    · exact congrArg Descriptor.params heq

theorem Uniting.enter (h : start.Uniting t unfinished)
    (hparts : ∀ part ∈ parts, part.index < start.size) (hnone : t.unions.lookup parts = none) :
    start.Uniting (t.enterUnion parts) (parts :: unfinished) := by
  have hgrows := extends_enterUnion t parts
  have hkeeps : Persists t.unions (t.enterUnion parts).unions := .cons hnone _
  have hclosed : (t.enterUnion parts).Closed :=
    h.closed.push fun part hpart => h.grows.lt (hparts part hpart)
  refine ⟨h.grows.trans hgrows, hclosed, fun other union hunion => ?_, fun other union hunion => ?_,
    fun other union hunion => ?_, fun other union hunion hopen => ?_⟩ <;>
    rcases lookup_cons_eq_some_iff.mp hunion with ⟨rfl, rfl⟩ | ⟨hne, hunion⟩
  · rw [size_enterUnion]
    exact Nat.lt_succ_self _
  · exact hgrows.lt (h.union_lt other union hunion)
  · rw [get_enterUnion]
  · rw [hgrows.get_eq union (h.union_lt other union hunion)]
    exact h.variants_eq other union hunion
  · exact hparts
  · exact h.part_lt other union hunion
  · exact absurd List.mem_cons_self hopen
  · have hlt : ∀ id, id = union ∨ id ∈ other → id.index < t.size := by
      rintro id (rfl | hid)
      · exact h.union_lt other id hunion
      · exact h.grows.lt (h.part_lt other union hunion id hid)
    exact (h.speaks other union hunion (List.not_mem_of_not_mem_cons hopen)).retain h.closed
      hgrows.retains hkeeps (fun id hid => by rw [hgrows.get_eq id (hlt id hid)])
      fun id hid => by rw [hgrows.get_eq id (hlt id hid)]

/-- A union that is still being made may be told more. -/
theorem Uniting.update (h : start.Uniting t unfinished) (hopen : parts ∈ unfinished)
    (hunion : t.unions.lookup parts = some union) (hnew : start.size ≤ union.index)
    {change : Descriptor → Descriptor} (hclosed : (t.update union change).Closed)
    (hshape : (change (t.get union)).shape = (t.get union).shape)
    (hvariants : (change (t.get union)).variants = (t.get union).variants) :
    start.Uniting (t.update union change) unfinished := by
  refine ⟨h.grows.update hnew change, hclosed, fun other id hid => ?_, fun other id hid => ?_,
    h.part_lt, fun other id hid hdone => ?_⟩
  · rw [size_update]
    exact h.union_lt other id hid
  · rw [get_update_congr Descriptor.variants hvariants]
    exact h.variants_eq other id hid
  · -- neither another union nor one of its parts is the one that is changed
    have hne : ∀ x, x = id ∨ x ∈ other → x ≠ union := by
      rintro x (rfl | hx) rfl
      · rw [← h.variants_eq other x hid, h.variants_eq parts x hunion] at hdone
        exact hdone hopen
      · exact Nat.not_lt.mpr hnew (h.part_lt other id hid x hx)
    exact (h.speaks other id hid hdone).retain h.closed (retains_update t hshape hvariants)
      (.refl _) (fun x hx => by rw [get_update_of_ne t change (hne x hx)])
      fun x hx => by rw [get_update_of_ne t change (hne x hx)]

theorem Uniting.finish (h : start.Uniting t (parts :: unfinished))
    (hunion : t.unions.lookup parts = some union) (hspeaks : t.Speaks parts union) :
    start.Uniting t unfinished where
  grows := h.grows
  closed := h.closed
  union_lt := h.union_lt
  variants_eq := h.variants_eq
  part_lt := h.part_lt
  speaks other id hid hdone := by
    by_cases heq : other = parts
    · subst heq
      cases hunion.symm.trans hid
      exact hspeaks
    · exact h.speaks other id hid (List.not_mem_cons_of_ne_of_not_mem heq hdone)

/-- Whatever uniting types comes to is there. -/
theorem Uniting.lt_of_united?_eq_some (h : start.Uniting t unfinished)
    (hbuiltins : TypeId.array.index < start.size) (hids : ∀ id ∈ ids, id.index < t.size)
    (hunion : t.united? ids = some union) : union.index < t.size := by
  have hbuiltin : ∀ id : TypeId, id.index ≤ TypeId.array.index → id.index < t.size :=
    fun id hid => h.grows.lt (hid.trans_lt hbuiltins)
  rcases united?_cases t ids with ⟨-, heq⟩ | ⟨-, heq⟩ | ⟨only, hone, heq⟩ | ⟨-, -, heq⟩ <;>
    rw [hunion] at heq
  · cases heq
    exact hbuiltin _ (by decide)
  · cases heq
    exact hbuiltin _ (by decide)
  · cases heq
    exact unionParts_lt h.closed (.refl t) hids union (hone ▸ List.mem_singleton_self union)
  · exact h.union_lt _ union heq.symm

theorem eq_of_mem_answers {entry : String × List TypeId} (h : entry ∈ t.answers parts) :
    entry.2 = parts.filterMap (t.answer? · entry.1) := by
  obtain ⟨_, -, rfl⟩ := List.mem_map.mp h
  rfl

/-- Anything that one of some types answers is among all that they answer. -/
theorem mem_answers_iff {symbol : String} :
    symbol ∈ (t.answers parts).map Prod.fst ↔ ∃ part ∈ parts, (t.answer? part symbol).isSome := by
  rw [answers, List.map_map]
  refine Iff.trans Descriptor.mem_map_fst_foldl_insertSymbol ?_
  simp only [List.map_nil, List.not_mem_nil, false_or, List.map_flatMap, List.mem_flatMap, answer?,
    isSome_lookup_iff]

/-- How far making a union has come. It answers what it was told to answer. -/
structure Telling (start before t : TypeTable) (unfinished : List (List TypeId))
    (parts : List TypeId) (union : TypeId) (told : List (String × List TypeId)) : Prop where
  uniting : start.Uniting t (parts :: unfinished)
  adds : before.AddsUnions t
  new : before.size ≤ union.index
  lookup_eq : t.unions.lookup parts = some union
  isSome_answer?_iff : ∀ symbol, (t.answer? union symbol).isSome ↔ symbol ∈ told.map Prod.fst
  united?_eq : ∀ symbol answer, t.answer? union symbol = some answer →
    t.united? (parts.filterMap (before.answer? · symbol)) = some answer

/-- Telling a union what it answers to one more symbol, after the answer was made. -/
theorem Telling.answer (h : Telling start before t unfinished parts union told)
    (hbefore : start.Uniting before unfinished) (hadds : t.AddsUnions t')
    (huniting : start.Uniting t' (parts :: unfinished)) {entry : String × List TypeId}
    {answer : TypeId} (hanswer : answer.index < t'.size)
    (hunited : t'.united? (parts.filterMap (before.answer? · entry.1)) = some answer) :
    Telling start before (t'.update union (·.addSymbol entry.1 answer)) unfinished parts union
      (told ++ [entry]) := by
  have hlookup := hadds.keeps parts union h.lookup_eq
  have hlt := huniting.union_lt parts union hlookup
  have hretains : t'.Retains (t'.update union (·.addSymbol entry.1 answer)) :=
    retains_update t' rfl rfl
  have hrange : ∀ other, ∀ id ∈ parts.filterMap (before.answer? · other), id.index < before.size :=
    fun other => answers_lt hbefore.closed other
  have hget : ∀ other, (t'.update union (·.addSymbol entry.1 answer)).answer? union other =
      if other = entry.1 then some answer else t.answer? union other := by
    intro other
    rw [answer?, get_update_self t' _ hlt, Descriptor.addSymbol, Descriptor.lookup_insertSymbol,
      hadds.grows.get_eq union (h.uniting.union_lt parts union h.lookup_eq), answer?]
  refine ⟨huniting.update List.mem_cons_self hlookup (hbefore.grows.size_le.trans h.new)
    (huniting.closed.addSymbol entry.1 hanswer) rfl rfl,
    (h.adds.trans hadds).update h.new rfl rfl rfl, h.new, hlookup, fun other => ?_,
    fun other found hfound => ?_⟩
  · rw [hget, List.map_append, List.map_singleton, List.mem_append, List.mem_singleton,
      ← h.isSome_answer?_iff]
    split
    · next heq => simp [heq]
    · next hne => simp [hne]
  · have hbelow : ∀ id ∈ parts.filterMap (before.answer? · other), id.index < t'.size :=
      fun id hid => (h.adds.trans hadds).grows.lt (hrange other id hid)
    refine hretains.united?_eq_some (.refl _) huniting.closed hbelow ?_
    rw [hget] at hfound
    split at hfound
    · next heq =>
      cases hfound
      exact heq ▸ hunited
    · exact hadds.grows.retains.united?_eq_some hadds.keeps h.uniting.closed
        (fun id hid => h.adds.grows.lt (hrange other id hid)) (h.united?_eq other found hfound)

/-- Finishing a union that was told all that it answers. -/
theorem Telling.finish (h : Telling start before t unfinished parts union (before.answers parts))
    (hbefore : start.Uniting before unfinished) (hparts : ∀ part ∈ parts, part.index < start.size)
    {change : Descriptor → Descriptor} (hchange : ∀ d, change d = { d with
      handlers := (parts.flatMap fun part => (before.get part).handlers).eraseDups }) :
    start.Uniting (t.update union change) unfinished ∧ before.AddsUnions (t.update union change) ∧
      (t.update union change).unions.lookup parts = some union := by
  have hlt := h.uniting.union_lt parts union h.lookup_eq
  have hnew := hbefore.grows.size_le.trans h.new
  have hshape : (change (t.get union)).shape = (t.get union).shape := by rw [hchange]
  have hvariants : (change (t.get union)).variants = (t.get union).variants := by rw [hchange]
  have hclosed : (t.update union change).Closed := by
    rw [funext hchange]
    refine h.uniting.closed.withHandlers (f := fun _ => _) fun handler hhandler => ?_
    rw [List.mem_eraseDups, List.mem_flatMap] at hhandler
    obtain ⟨part, -, hhandler⟩ := hhandler
    exact (hbefore.closed.handler_lt hhandler).imp h.adds.grows.lt h.adds.grows.lt
  have hretains := retains_update t hshape hvariants
  have hget : ∀ part ∈ parts, (t.update union change).get part = before.get part := by
    intro part hpart
    have hpart := hparts part hpart
    rw [get_update_of_ne, h.adds.grows.get_eq part (hbefore.grows.lt hpart)]
    rintro rfl
    exact Nat.not_lt.mpr hnew hpart
  have hanswer : ∀ part ∈ parts, ∀ symbol,
      (t.update union change).answer? part symbol = before.answer? part symbol :=
    fun part hpart symbol => by rw [answer?, hget part hpart, answer?]
  have hunion : ∀ symbol, (t.update union change).answer? union symbol = t.answer? union symbol :=
    fun symbol => by rw [answer?, get_update_self t change hlt, hchange, answer?]
  refine ⟨(h.uniting.update List.mem_cons_self h.lookup_eq hnew hclosed hshape hvariants).finish
    h.lookup_eq ⟨fun symbol => ?_, fun symbol answer hsome => ?_, ?_⟩,
    h.adds.update h.new hshape hvariants (by rw [hchange]), h.lookup_eq⟩
  · rw [hunion, h.isSome_answer?_iff, mem_answers_iff]
    exact exists_congr fun part => and_congr_right fun hpart => by rw [hanswer part hpart]
  · rw [hunion] at hsome
    rw [List.filterMap_congr fun part hpart => hanswer part hpart symbol]
    exact hretains.united?_eq_some (.refl _) h.uniting.closed
      (fun id hid => h.adds.grows.lt (answers_lt hbefore.closed symbol id hid))
      (h.united?_eq symbol answer hsome)
  · rw [get_update_self t change hlt, hchange]
    exact congrArg List.eraseDups (List.flatMap_congr fun part hpart => by rw [hget part hpart])

end

end TypeTable

open TypeTable

namespace Tabling

/-- Making the union of some types, with unions nested to at most so many levels. -/
def makeUnion (levels : Nat) (t : TypeTable) (parts : List TypeId) : Tabling TypeId := do
  let union ← Tabling.push { variants := parts }
  modify fun t => { t with unions := (parts, union) :: t.unions }
  for (symbol, answers) in t.answers parts do
    Tabling.addSymbol union symbol (← Tabling.unionWithin levels answers)
  let handlers := (parts.flatMap fun id => (t.get id).handlers).eraseDups
  Tabling.update union fun d => { d with handlers }
  return union

theorem unionWithin_succ (levels : Nat) (ids : List TypeId) :
    unionWithin (levels + 1) ids = (do
      let t ← get
      match t.united? ids with
      | some union => return union
      | none => makeUnion levels t (t.unionParts ids)) := by
  rw [unionWithin]
  refine congrArg (get >>= ·) (funext fun t => ?_)
  dsimp only [TypeTable.united?]
  generalize t.unionParts ids = parts
  by_cases hany : parts.any t.isAnything = true
  · simp only [if_pos hany]
  · simp only [if_neg hany]
    rcases parts with _ | ⟨first, _ | ⟨second, rest⟩⟩
    · rfl
    · rfl
    · dsimp only
      cases t.unions.lookup (first :: second :: rest) <;> rfl

section

variable {start t : TypeTable} {unfinished : List (List TypeId)} {ids parts : List TypeId}
  {levels : Nat}

/-- Making a union that was not made before, given how unions of what its parts answer are made.
These may come back to the union itself, which is entered before it answers anything. -/
theorem makeUnion_ends (hbuiltins : TypeId.array.index < start.size)
    (ht : start.Uniting t unfinished) (hparts : ∀ part ∈ parts, part.index < start.size)
    (hnodup : parts.Nodup) (htwo : 2 ≤ parts.length)
    (hnever : ∀ part ∈ parts, t.isNever part = false) (hnone : t.unions.lookup parts = none)
    (hnested : ∀ symbol s, start.Uniting s (parts :: unfinished) → t.AddsUnions s →
      s.unions.lookup parts ≠ none →
      Ends (unionWithin levels (parts.filterMap (t.answer? · symbol))) s fun union s' =>
        start.Uniting s' (parts :: unfinished) ∧ s.AddsUnions s' ∧
          s'.united? (parts.filterMap (t.answer? · symbol)) = some union) :
    Ends (makeUnion levels t parts) t fun union t' =>
      start.Uniting t' unfinished ∧ t.AddsUnions t' ∧ t'.unions.lookup parts = some union := by
  have hbelow : ∀ part ∈ parts, part.index < t.size :=
    fun part hpart => ht.grows.lt (hparts part hpart)
  have hadds := addsUnions_enterUnion hbelow hnodup htwo hnever hnone
  have hentered : Telling start t (t.enterUnion parts) unfinished parts ⟨t.size⟩ [] := by
    have hsilent : ∀ symbol, (t.enterUnion parts).answer? ⟨t.size⟩ symbol = none := fun symbol => by
      rw [answer?, get_enterUnion]
      rfl
    refine ⟨ht.enter hparts hnone, hadds, Nat.le_refl _, lookup_enterUnion t parts,
      fun symbol => ?_, fun symbol answer hanswer => ?_⟩
    · simp [hsilent]
    · rw [hsilent] at hanswer
      cases hanswer
  simp only [makeUnion, Tabling.push, Tabling.update, Tabling.addSymbol, ends_bind_iff,
    ends_modifyGet_iff, ends_modify_iff, ends_pure_iff]
  let inv (told : List (String × List TypeId)) (s : TypeTable) : Prop :=
    Telling start t s unfinished parts ⟨t.size⟩ told
  have hinv : inv [] _ := hentered
  refine (ends_forIn ?_ hinv).mono ?_
  · rintro told entry hentry s (hs : Telling start t s unfinished parts ⟨t.size⟩ told)
    simp only [ends_bind_iff, ends_modify_iff, ends_pure_iff, eq_of_mem_answers hentry]
    refine (hnested entry.1 s hs.uniting hs.adds (by simp [hs.lookup_eq])).mono ?_
    rintro answer s' ⟨huniting, hmore, hunited⟩
    refine ⟨trivial, hs.answer ht hmore huniting ?_ hunited⟩
    refine huniting.lt_of_united?_eq_some hbuiltins (fun id hid => ?_) hunited
    exact (hs.adds.trans hmore).grows.lt (answers_lt ht.closed entry.1 id hid)
  · exact fun _ _ hs => Telling.finish hs ht hparts fun _ => rfl

/-- Uniting types of a table, in it or after other unions of its types were made, ends. Nothing but
unions are added, and what is given is what uniting the types comes to from then on. -/
theorem unionWithin_ends (hstart : start.Closed) (hbuiltins : TypeId.array.index < start.size)
    (hids : ∀ id ∈ ids, id.index < start.size) (ht : start.Uniting t unfinished)
    (hlevels : t.openUnions start.size < levels) :
    Ends (unionWithin levels ids) t fun union t' =>
      start.Uniting t' unfinished ∧ t.AddsUnions t' ∧ t'.united? ids = some union := by
  induction levels generalizing ids t unfinished with
  | zero => omega
  | succ levels ih =>
    rw [unionWithin_succ, ends_bind_iff, ends_get_iff]
    cases hunited : t.united? ids with
    | some union => exact ⟨ht, .refl t, hunited⟩
    | none =>
      obtain ⟨hany, htwo, hnone⟩ := of_united?_eq_none hunited
      have hparts := unionParts_lt hstart ht.grows hids
      have hnodup := nodup_unionParts t ids
      have hnever : ∀ part ∈ t.unionParts ids, t.isNever part = false :=
        fun _ hpart => (mem_unionParts.mp hpart).2
      have hbelow : ∀ id ∈ ids, id.index < t.size := fun id hid => ht.grows.lt (hids id hid)
      refine (makeUnion_ends hbuiltins ht hparts hnodup htwo hnever hnone
        fun symbol s hs hadds hentered => ?_).mono ?_
      · have hopen : s.openUnions start.size < t.openUnions start.size :=
          openUnions_lt hnodup hparts hnone (fun _ => hadds.keeps.lookup_eq_none) hentered
        refine ih (fun id hid => ?_) hs (by omega)
        -- what the parts answer are types from the start, since the parts are
        obtain ⟨part, hpart, hanswer⟩ := List.mem_filterMap.mp hid
        rw [answer?, ht.grows.get_eq part (hparts part hpart)] at hanswer
        exact hstart.answer_lt hanswer
      · rintro union t' ⟨ht', hadds, hlookup⟩
        exact ⟨ht', hadds,
          (hadds.grows.united?_eq_lookup ht.closed hbelow hany htwo).trans hlookup⟩

end

end Tabling

/-- Uniting types ends. It adds to the table, and what it gives is there. -/
theorem union_ends {t : TypeTable} (ht : t.Sound) {ids : List TypeId}
    (hids : ∀ id ∈ ids, id.index < t.size) :
    Ends (Tabling.union ids) t fun union t' =>
      t'.Sound ∧ t.Extends t' ∧ union.index < t'.size ∧ t'.Unites (t.unionParts ids) union := by
  have hpos : 0 < t.size := Nat.zero_lt_of_lt ht.builtins_lt
  simp only [Tabling.union, ends_bind_iff, ends_get_iff]
  refine (Tabling.unionWithin_ends ht.closed ht.builtins_lt hids ht.uniting
    (openUnions_lt_unionBound t hpos)).mono ?_
  rintro union t' ⟨huniting, hadds, hunited⟩
  have ht' := ht.addUnions hadds huniting.closed
  refine ⟨ht', hadds.grows, ?_, ?_⟩
  · exact huniting.lt_of_united?_eq_some ht.builtins_lt (fun id hid => hadds.grows.lt (hids id hid))
      hunited
  · rw [← hadds.grows.retains.unionParts_eq ht.closed hids]
    exact ht'.unites hunited

end MessageLang
