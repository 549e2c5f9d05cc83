import MessageLang.Proofs.Outcome
import MessageLang.Proofs.Types.Closed
import MessageLang.Types.Builtin
import Mathlib.Order.Lattice

namespace MessageLang

/-- A table that describes all the types of another one as that one does, and perhaps more. -/
structure TypeTable.Extends (t t' : TypeTable) : Prop where
  size_le : t.size ≤ t'.size
  get_eq : ∀ id : TypeId, id.index < t.size → t'.get id = t.get id

section

variable {α β : Type} [BEq α] [LawfulBEq α] {entries entries' entries'' : List (α × β)} {key : α}
  {value : β}

theorem mem_of_lookup_eq_some (h : entries.lookup key = some value) : (key, value) ∈ entries := by
  obtain ⟨before, after, rfl, _⟩ := List.lookup_eq_some_iff.mp h
  simp

theorem lookup_eq_some_of_mem (hnodup : (entries.map Prod.fst).Nodup)
    (hmem : (key, value) ∈ entries) : entries.lookup key = some value := by
  induction entries with
  | nil => cases hmem
  | cons entry rest ih =>
    rw [List.map_cons, List.nodup_cons] at hnodup
    rcases List.mem_cons.mp hmem with rfl | hmem
    · exact List.lookup_cons_self
    · have hne : key ≠ entry.1 := fun heq => hnodup.1 (heq ▸ List.mem_map_of_mem (f := Prod.fst) hmem)
      rw [List.lookup_cons, beq_false_of_ne hne]
      exact ih hnodup.2 hmem

theorem isSome_lookup_iff : (entries.lookup key).isSome ↔ key ∈ entries.map Prod.fst := by
  rw [List.lookup_isSome_iff, List.mem_map]
  exact exists_congr fun entry => and_congr_right fun _ => beq_iff_eq.trans eq_comm

theorem lookup_cons_eq_ite [DecidableEq α] (key : α) (value : β) (entries : List (α × β))
    (other : α) : ((key, value) :: entries).lookup other =
      if other = key then some value else entries.lookup other := by
  split
  · next heq => rw [heq, List.lookup_cons_self]
  · next hne => rw [List.lookup_cons, beq_eq_false_iff_ne.mpr hne]

theorem lookup_cons_of_ne {other : α} (h : other ≠ key) :
    ((key, value) :: entries).lookup other = entries.lookup other := by
  rw [List.lookup_cons, beq_eq_false_iff_ne.mpr h]

theorem lookup_cons_eq_some_iff {other : α} {otherValue : β} :
    ((key, value) :: entries).lookup other = some otherValue ↔
      (other = key ∧ otherValue = value) ∨ (other ≠ key ∧ entries.lookup other = some otherValue) := by
  classical
  rw [lookup_cons_eq_ite]
  split
  · next heq => simp [heq, eq_comm]
  · next hne => simp [hne]

/-- What was found among some entries is found among others as well. -/
def Persists (entries entries' : List (α × β)) : Prop :=
  ∀ key value, entries.lookup key = some value → entries'.lookup key = some value

omit [LawfulBEq α] in
theorem Persists.refl (entries : List (α × β)) : Persists entries entries := fun _ _ h => h

omit [LawfulBEq α] in
theorem Persists.trans (h : Persists entries entries') (h' : Persists entries' entries'') :
    Persists entries entries'' := fun key value hvalue => h' key value (h key value hvalue)

omit [LawfulBEq α] in
theorem Persists.lookup_eq_none (h : Persists entries entries') (hnone : entries'.lookup key = none) :
    entries.lookup key = none :=
  Option.eq_none_iff_forall_ne_some.mpr fun value hvalue => by
    rw [h key value hvalue] at hnone
    cases hnone

theorem Persists.cons (hnone : entries.lookup key = none) (value : β) :
    Persists entries ((key, value) :: entries) := by
  intro other otherValue hother
  refine lookup_cons_eq_some_iff.mpr (.inr ⟨?_, hother⟩)
  rintro rfl
  rw [hnone] at hother
  cases hother

end

namespace Descriptor

theorem mem_parts_iff {d : Descriptor} {part : TypeId} : part ∈ d.parts ↔
    (∃ fields, d.shape = .compound fields ∧ ∃ f ∈ fields, f.type = part) ∨
      (∃ entry ∈ d.symbols, entry.2 = part) ∨
      (∃ handler ∈ d.handlers, handler.1 = part ∨ handler.2 = part) ∨ part ∈ d.variants := by
  have hfields : part ∈ d.fieldTypes ↔
      ∃ fields, d.shape = .compound fields ∧ ∃ f ∈ fields, f.type = part := by
    unfold fieldTypes fields?
    cases d.shape <;> simp
  simp only [Descriptor.parts, List.mem_append, hfields, List.mem_map, List.mem_flatMap,
    List.mem_cons, List.not_mem_nil, or_false, or_assoc, eq_comm]

theorem mem_insertSymbol {symbol : String} {answer : TypeId} {symbols : List (String × TypeId)}
    {entry : String × TypeId} (h : entry ∈ insertSymbol symbol answer symbols) :
    entry = (symbol, answer) ∨ entry ∈ symbols := by
  induction symbols with
  | nil => exact .inl (List.mem_singleton.mp h)
  | cons other rest ih =>
    unfold insertSymbol at h
    split at h
    · exact (List.mem_cons.mp h)
    · split at h
      · exact (List.mem_cons.mp h).imp_right fun h => List.mem_cons_of_mem _ h
      · rcases List.mem_cons.mp h with rfl | h
        · exact .inr List.mem_cons_self
        · exact (ih h).imp_right fun h => List.mem_cons_of_mem _ h

theorem lookup_insertSymbol (symbol : String) (answer : TypeId) (symbols : List (String × TypeId))
    (other : String) : (insertSymbol symbol answer symbols).lookup other =
      if other = symbol then some answer else symbols.lookup other := by
  induction symbols with
  | nil => exact lookup_cons_eq_ite symbol answer [] other
  | cons entry rest ih =>
    unfold insertSymbol
    split
    · exact lookup_cons_eq_ite symbol answer _ other
    · rw [lookup_cons_eq_ite entry.1 entry.2 rest other]
      split
      · next hsame =>
        subst hsame
        rw [lookup_cons_eq_ite]
        split <;> rfl
      · next hne =>
        rw [lookup_cons_eq_ite, ih]
        by_cases heq : other = entry.1
        · rw [if_pos heq, if_neg fun h => hne (h.symm.trans heq), if_pos heq]
        · rw [if_neg heq, if_neg heq]

theorem mem_map_fst_insertSymbol {symbol : String} {answer : TypeId} {symbols : List (String × TypeId)}
    {other : String} : other ∈ (insertSymbol symbol answer symbols).map Prod.fst ↔
      other = symbol ∨ other ∈ symbols.map Prod.fst := by
  rw [← isSome_lookup_iff, lookup_insertSymbol, ← isSome_lookup_iff]
  split <;> simp [*]

theorem mem_map_fst_foldl_insertSymbol {entries symbols : List (String × TypeId)} {symbol : String} :
    symbol ∈ (entries.foldl (fun all entry => insertSymbol entry.1 entry.2 all) symbols).map Prod.fst ↔
      symbol ∈ symbols.map Prod.fst ∨ symbol ∈ entries.map Prod.fst := by
  induction entries generalizing symbols with
  | nil => simp
  | cons entry rest ih =>
    rw [List.foldl_cons, ih, mem_map_fst_insertSymbol, List.map_cons, List.mem_cons, or_assoc,
      or_left_comm]

end Descriptor

namespace TypeTable

/-- A type that stands for several others, none of which is without values. -/
structure UnionOf (t : TypeTable) (parts : List TypeId) (id : TypeId) : Prop where
  lt : id.index < t.size
  shape_eq : (t.get id).shape = .simple
  variants_eq : (t.get id).variants = parts
  nodup : parts.Nodup
  two_le_length : 2 ≤ parts.length
  part_lt : ∀ part ∈ parts, part.index < t.size
  not_never : ∀ part ∈ parts, t.isNever part = false

/-- A type that has no fields, is no union and may have values. -/
structure Atomic (t : TypeTable) (id : TypeId) : Prop where
  fields_eq : t.fields? id = none
  not_never : t.isNever id = false
  variants_eq : (t.get id).variants = []

/-- What every change to a table can rely on and keeps to. -/
structure Sound (t : TypeTable) : Prop where
  closed : t.Closed
  builtins_lt : TypeId.array.index < t.size
  unions_made : ∀ entry ∈ t.unions, t.UnionOf entry.1 entry.2
  /-- Arrays are the only template. -/
  params_eq : ∀ id, (t.get id).params = [] ∨ id = .array ∧ (t.get id).params = [.arrayItem]

variable {start t t' t'' : TypeTable} {id : TypeId} {parts : List TypeId}

theorem Extends.refl (t : TypeTable) : t.Extends t := ⟨Nat.le_refl _, fun _ _ => rfl⟩

theorem Extends.trans (h : t.Extends t') (h' : t'.Extends t'') : t.Extends t'' :=
  ⟨h.size_le.trans h'.size_le, fun id hid => by
    rw [h'.get_eq id (hid.trans_le h.size_le), h.get_eq id hid]⟩

theorem Extends.lt (h : t.Extends t') (hid : id.index < t.size) : id.index < t'.size :=
  hid.trans_le h.size_le

theorem Extends.push (h : start.Extends t) (d : Descriptor) : start.Extends (t.push d).2 := by
  refine h.trans ⟨?_, fun id hid => get_push_of_lt t d hid⟩
  rw [size_push]
  exact Nat.le_succ _

/-- A type that was added later may be changed. -/
theorem Extends.update (h : start.Extends t) (hnew : start.size ≤ id.index)
    (change : Descriptor → Descriptor) : start.Extends (t.update id change) := by
  refine ⟨h.size_le.trans_eq (size_update ..).symm, fun other hother => ?_⟩
  rw [get_update_of_ne, h.get_eq other hother]
  rintro rfl
  omega

theorem Extends.withUnions (h : start.Extends t) (unions : List (List TypeId × TypeId)) :
    start.Extends { t with unions } := ⟨h.size_le, h.get_eq⟩

theorem Extends.isNever_eq (h : t.Extends t') (hid : id.index < t.size) :
    t'.isNever id = t.isNever id := by
  rw [isNever, isNever, h.get_eq id hid]

theorem UnionOf.extend (hunion : t.UnionOf parts id) (h : t.Extends t') : t'.UnionOf parts id where
  lt := h.lt hunion.lt
  shape_eq := h.get_eq id hunion.lt ▸ hunion.shape_eq
  variants_eq := h.get_eq id hunion.lt ▸ hunion.variants_eq
  nodup := hunion.nodup
  two_le_length := hunion.two_le_length
  part_lt part hpart := h.lt (hunion.part_lt part hpart)
  not_never part hpart := (h.isNever_eq (hunion.part_lt part hpart)).trans (hunion.not_never part hpart)

theorem Atomic.extend (hatomic : t.Atomic id) (h : t.Extends t') (hid : id.index < t.size) :
    t'.Atomic id where
  fields_eq := by
    rw [fields?, h.get_eq id hid]
    exact hatomic.fields_eq
  not_never := (h.isNever_eq hid).trans hatomic.not_never
  variants_eq := h.get_eq id hid ▸ hatomic.variants_eq

theorem Atomic.of_get {d : Descriptor} (hget : t.get id = d) (hfields : d.fields? = none)
    (hnever : d.shape ≠ .never) (hvariants : d.variants = []) : t.Atomic id where
  fields_eq := by rw [fields?, hget, hfields]
  not_never := by
    rw [isNever, hget]
    exact beq_false_of_ne hnever
  variants_eq := by rw [hget, hvariants]

/-- A type is atomic for its shape and its variants alone. -/
theorem Atomic.of_eq (hatomic : t.Atomic id) {other : TypeId}
    (hshape : (t'.get other).shape = (t.get id).shape) (hvariants : (t'.get other).variants = []) :
    t'.Atomic other where
  fields_eq := by
    rw [fields?, Descriptor.fields?, hshape]
    exact hatomic.fields_eq
  not_never := by
    rw [isNever, hshape]
    exact hatomic.not_never
  variants_eq := hvariants

theorem Sound.lt_of_index_le (h : t.Sound) (hid : id.index ≤ TypeId.array.index) :
    id.index < t.size := hid.trans_lt h.builtins_lt

theorem get_eq_default_of_le (h : t.size ≤ id.index) : t.get id = default := by
  have h' : t.types.size ≤ id.index := h
  simp [get, Array.getD_eq_getD_getElem?, h']

theorem lt_of_isWildcard (h : t.isWildcard id = true) : id.index < t.size := by
  by_contra hge
  rw [isWildcard, get_eq_default_of_le (Nat.le_of_not_lt hge)] at h
  cases h

/-- Looking up a type that was changed, or another one. -/
private theorem get_update (t : TypeTable) (change : Descriptor → Descriptor) (id other : TypeId) :
    (t.update id change).get other = t.get other ∨
      other = id ∧ (t.update id change).get other = change (t.get id) := by
  by_cases heq : other = id
  · subst heq
    by_cases hlt : other.index < t.size
    · exact .inr ⟨rfl, get_update_self t change hlt⟩
    · refine .inl ?_
      rw [get_eq_default_of_le (Nat.le_of_not_lt hlt), get_eq_default_of_le]
      rw [size_update]
      exact Nat.le_of_not_lt hlt
  · exact .inl (get_update_of_ne t change heq)

/-- A change to one type that leaves something as it was leaves it so for all types. -/
theorem get_update_congr {α : Type} (f : Descriptor → α) {other : TypeId}
    {change : Descriptor → Descriptor} (h : f (change (t.get other)) = f (t.get other))
    (id : TypeId) : f ((t.update other change).get id) = f (t.get id) := by
  rcases get_update t change other id with heq | ⟨rfl, heq⟩ <;> rw [heq]
  exact h

/-- Looking up a type that was added, or another one. -/
theorem get_push (t : TypeTable) (d : Descriptor) (id : TypeId) :
    (t.push d).2.get id = t.get id ∨ (t.push d).2.get id = d := by
  by_cases hlt : id.index < t.size
  · exact .inl (get_push_of_lt t d hlt)
  · by_cases heq : id.index = t.size
    · refine .inr ?_
      have hid : id = (t.push d).1 := by
        cases id
        exact congrArg TypeId.mk heq
      rw [hid]
      exact get_push_new t d
    · refine .inl ?_
      rw [get_eq_default_of_le, get_eq_default_of_le]
      · omega
      · rw [size_push]
        omega

theorem Closed.push (h : t.Closed) {d : Descriptor} (hparts : ∀ part ∈ d.parts, part.index < t.size) :
    (t.push d).2.Closed := by
  intro id part hpart
  rw [size_push]
  rcases get_push t d id with heq | heq <;> rw [heq] at hpart
  · exact (h id part hpart).trans (Nat.lt_succ_self _)
  · exact (hparts part hpart).trans (Nat.lt_succ_self _)

theorem Closed.update (h : t.Closed) {change : Descriptor → Descriptor}
    (hparts : ∀ part ∈ (change (t.get id)).parts, part.index < t.size) :
    (t.update id change).Closed := by
  intro other part hpart
  rw [size_update]
  rcases get_update t change id other with heq | ⟨rfl, heq⟩ <;> rw [heq] at hpart
  · exact h other part hpart
  · exact hparts part hpart

theorem Closed.symbol_lt (h : t.Closed) {entry : String × TypeId}
    (hentry : entry ∈ (t.get id).symbols) : entry.2.index < t.size :=
  h id _ (Descriptor.mem_parts_iff.mpr (.inr (.inl ⟨entry, hentry, rfl⟩)))

theorem Closed.answer_lt (h : t.Closed) {symbol : String} {answer : TypeId}
    (hanswer : t.answer? id symbol = some answer) : answer.index < t.size :=
  h.symbol_lt (mem_of_lookup_eq_some hanswer)

theorem Closed.variant_lt (h : t.Closed) (hpart : part ∈ (t.get id).variants) :
    part.index < t.size :=
  h id _ (Descriptor.mem_parts_iff.mpr (.inr (.inr (.inr hpart))))

theorem Closed.handler_lt (h : t.Closed) {handler : TypeId × TypeId}
    (hhandler : handler ∈ (t.get id).handlers) :
    handler.1.index < t.size ∧ handler.2.index < t.size :=
  ⟨h id _ (Descriptor.mem_parts_iff.mpr (.inr (.inr (.inl ⟨handler, hhandler, .inl rfl⟩)))),
    h id _ (Descriptor.mem_parts_iff.mpr (.inr (.inr (.inl ⟨handler, hhandler, .inr rfl⟩))))⟩

theorem Closed.addSymbol (h : t.Closed) (symbol : String) {answer : TypeId}
    (hanswer : answer.index < t.size) : (t.update id (·.addSymbol symbol answer)).Closed := by
  refine h.update fun part hpart => ?_
  rw [Descriptor.mem_parts_iff] at hpart
  rcases hpart with hpart | ⟨entry, hentry, rfl⟩ | hpart
  · exact h id part (Descriptor.mem_parts_iff.mpr (.inl hpart))
  · rcases Descriptor.mem_insertSymbol hentry with rfl | hentry
    · exact hanswer
    · exact h.symbol_lt hentry
  · exact h id part (Descriptor.mem_parts_iff.mpr (.inr (.inr hpart)))

theorem Closed.withHandlers (h : t.Closed) {f : List (TypeId × TypeId) → List (TypeId × TypeId)}
    (hhandlers : ∀ handler ∈ f (t.get id).handlers,
      handler.1.index < t.size ∧ handler.2.index < t.size) :
    (t.update id fun d => { d with handlers := f d.handlers }).Closed := by
  refine h.update fun part hpart => ?_
  rw [Descriptor.mem_parts_iff] at hpart
  rcases hpart with hpart | hpart | ⟨handler, hhandler, hpart⟩ | hpart
  · exact h id part (Descriptor.mem_parts_iff.mpr (.inl hpart))
  · exact h id part (Descriptor.mem_parts_iff.mpr (.inr (.inl hpart)))
  · rcases hpart with rfl | rfl
    · exact (hhandlers handler hhandler).1
    · exact (hhandlers handler hhandler).2
  · exact h id part (Descriptor.mem_parts_iff.mpr (.inr (.inr (.inr hpart))))

theorem Sound.push (h : t.Sound) {d : Descriptor} (hparts : ∀ part ∈ d.parts, part.index < t.size)
    (hparams : d.params = []) : (t.push d).2.Sound := by
  refine ⟨h.closed.push hparts, ?_, fun entry hentry => ?_, fun id => ?_⟩
  · rw [size_push]
    exact h.builtins_lt.trans (Nat.lt_succ_self _)
  · exact (h.unions_made entry hentry).extend ((Extends.refl t).push d)
  · rcases get_push t d id with heq | heq <;> rw [heq]
    · exact h.params_eq id
    · exact .inl hparams

/-- A type stays atomic when it, or another type, is told more. -/
theorem Atomic.update (hatomic : t.Atomic id) {other : TypeId} {change : Descriptor → Descriptor}
    (hshape : (change (t.get other)).shape = (t.get other).shape)
    (hvariants : (change (t.get other)).variants = (t.get other).variants) :
    (t.update other change).Atomic id := by
  rcases get_update t change other id with heq | ⟨rfl, heq⟩
  · exact hatomic.of_eq (by rw [heq]) (by rw [heq, hatomic.variants_eq])
  · exact hatomic.of_eq (by rw [heq, hshape]) (by rw [heq, hvariants, hatomic.variants_eq])

/-- A type that goes on to be a union, or not to be one, may be told more. -/
theorem UnionOf.update (hunion : t.UnionOf parts id) {other : TypeId}
    {change : Descriptor → Descriptor}
    (hshape : (change (t.get other)).shape = (t.get other).shape)
    (hvariants : (change (t.get other)).variants = (t.get other).variants) :
    (t.update other change).UnionOf parts id := by
  have hshapes := get_update_congr Descriptor.shape hshape
  refine ⟨?_, (hshapes id).trans hunion.shape_eq,
    (get_update_congr Descriptor.variants hvariants id).trans hunion.variants_eq,
    hunion.nodup, hunion.two_le_length, fun part hpart => ?_, fun part hpart => ?_⟩
  · rw [size_update]
    exact hunion.lt
  · rw [size_update]
    exact hunion.part_lt part hpart
  · rw [isNever, hshapes part]
    exact hunion.not_never part hpart

theorem Sound.update (h : t.Sound) {change : Descriptor → Descriptor}
    (hclosed : (t.update id change).Closed)
    (hparams : (change (t.get id)).params = (t.get id).params)
    (hunions : ∀ entry ∈ t.unions, (t.update id change).UnionOf entry.1 entry.2) :
    (t.update id change).Sound := by
  refine ⟨hclosed, ?_, hunions, fun other => ?_⟩
  · rw [size_update]
    exact h.builtins_lt
  · rw [get_update_congr Descriptor.params hparams]
    exact h.params_eq other

/-- Naming a type changes nothing that a table has to keep to. -/
theorem Sound.rename (h : t.Sound) (name : Option String) :
    (t.update id fun d => { d with name }).Sound :=
  h.update (h.closed.update (h.closed id)) rfl fun entry hentry => (h.unions_made entry hentry).update rfl rfl

theorem Sound.symbol_lt (h : t.Sound) {entry : String × TypeId}
    (hentry : entry ∈ (t.get id).symbols) : entry.2.index < t.size := h.closed.symbol_lt hentry

theorem Sound.handler_lt (h : t.Sound) {handler : TypeId × TypeId}
    (hhandler : handler ∈ (t.get id).handlers) :
    handler.1.index < t.size ∧ handler.2.index < t.size := h.closed.handler_lt hhandler

theorem Sound.field_lt (h : t.Sound) {fields : List Field} (hfields : t.fields? id = some fields)
    {f : Field} (hf : f ∈ fields) : f.type.index < t.size := by
  refine h.closed id _ (Descriptor.mem_parts_iff.mpr (.inl ⟨fields, ?_, f, hf, rfl⟩))
  unfold fields? Descriptor.fields? at hfields
  split at hfields
  · next hshape =>
    cases hfields
    exact hshape
  · cases hfields

theorem Sound.getD_field_lt (h : t.Sound) {f : Field} (hf : f ∈ (t.fields? id).getD []) :
    f.type.index < t.size := by
  cases hfields : t.fields? id with
  | none => simp [hfields] at hf
  | some fields =>
    rw [hfields] at hf
    exact h.field_lt hfields hf

theorem Sound.addSymbol (h : t.Sound) (symbol : String) {answer : TypeId}
    (hanswer : answer.index < t.size) : (t.update id (·.addSymbol symbol answer)).Sound :=
  h.update (h.closed.addSymbol symbol hanswer) rfl fun entry hentry =>
    (h.unions_made entry hentry).update rfl rfl

theorem Sound.withHandlers (h : t.Sound) {f : List (TypeId × TypeId) → List (TypeId × TypeId)}
    (hhandlers : ∀ handler ∈ f (t.get id).handlers,
      handler.1.index < t.size ∧ handler.2.index < t.size) :
    (t.update id fun d => { d with handlers := f d.handlers }).Sound :=
  h.update (h.closed.withHandlers hhandlers) rfl fun entry hentry =>
    (h.unions_made entry hentry).update rfl rfl

theorem Sound.addHandler (h : t.Sound) {guard answer : TypeId} (hguard : guard.index < t.size)
    (hanswer : answer.index < t.size) : (t.update id (·.addHandler guard answer)).Sound := by
  refine h.withHandlers (f := (· ++ [(guard, answer)])) fun handler hhandler => ?_
  rcases List.mem_append.mp hhandler with hhandler | hhandler
  · exact h.handler_lt hhandler
  · rw [List.mem_singleton.mp hhandler]
    exact ⟨hguard, hanswer⟩

end TypeTable

end MessageLang
