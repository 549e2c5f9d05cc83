import MessageLang.Proofs.Types.Descent
import MessageLang.Proofs.Types.Exchange
import MessageLang.Proofs.Types.Making

namespace MessageLang

namespace TypeTable

/-- What every table keeps to, whatever templates it has and whatever its types are called. All
handles are of types that there are, the built-in types are among them, and a union is remembered for
what it was made of. -/
structure Regular (t : TypeTable) : Prop where
  closed : t.Closed
  builtins_lt : TypeId.array.index < t.size
  union_lt : ∀ parts union, t.unions.lookup parts = some union → union.index < t.size
  variants_eq : ∀ parts union, t.unions.lookup parts = some union → (t.get union).variants = parts

/-- What a step gives and leaves that starts from a table: a type that is there, and types that go on
to be what they are, though they may be told more or get other names. -/
structure Gives (t : TypeTable) (id : TypeId) (t' : TypeTable) : Prop where
  regular : t'.Regular
  retains : t.Retains t'
  lt : id.index < t'.size

variable {t t' : TypeTable} {id : TypeId}

theorem Sound.regular (h : t.Sound) : t.Regular where
  closed := h.closed
  builtins_lt := h.builtins_lt
  union_lt _ _ hunion := (h.unions_made _ (mem_of_lookup_eq_some hunion)).lt
  variants_eq _ _ hunion := (h.unions_made _ (mem_of_lookup_eq_some hunion)).variants_eq

theorem Regular.lt_of_index_le (h : t.Regular) (hid : id.index ≤ TypeId.array.index) :
    id.index < t.size := hid.trans_lt h.builtins_lt

/-- A table with as many unions as there were, in which the types go on to be what they are. -/
theorem Regular.retain (h : t.Regular) (hretains : t.Retains t') (hclosed : t'.Closed)
    (hunions : t'.unions = t.unions) : t'.Regular where
  closed := hclosed
  builtins_lt := h.builtins_lt.trans_le hretains.size_le
  union_lt parts union hunion :=
    (h.union_lt parts union (hunions ▸ hunion)).trans_le hretains.size_le
  variants_eq parts union hunion := by
    rw [hunions] at hunion
    rw [hretains.variants_eq union (h.union_lt parts union hunion), h.variants_eq parts union hunion]

theorem Regular.push (h : t.Regular) {d : Descriptor} (hparts : ∀ part ∈ d.parts, part.index < t.size) :
    t.Gives (t.push d).1 (t.push d).2 where
  regular := h.retain ((Extends.refl t).push d).retains (h.closed.push hparts) rfl
  retains := ((Extends.refl t).push d).retains
  lt := by
    rw [size_push]
    exact Nat.lt_succ_self _

/-- A type may be told more. -/
theorem Regular.update (h : t.Regular) {change : Descriptor → Descriptor}
    (hclosed : (t.update id change).Closed)
    (hshape : (change (t.get id)).shape = (t.get id).shape)
    (hvariants : (change (t.get id)).variants = (t.get id).variants) :
    (t.update id change).Regular ∧ t.Retains (t.update id change) :=
  have hretains := retains_update t hshape hvariants
  ⟨h.retain hretains hclosed rfl, hretains⟩

/-- All unions that are remembered may be unfinished. -/
theorem Regular.uniting (h : t.Regular) : t.Uniting t (t.unions.map Prod.fst) where
  grows := .refl t
  closed := h.closed
  union_lt := h.union_lt
  variants_eq := h.variants_eq
  part_lt parts union hunion part hpart := by
    rw [← h.variants_eq parts union hunion] at hpart
    exact h.closed.variant_lt hpart
  speaks parts union hunion hdone :=
    absurd (List.mem_map_of_mem (mem_of_lookup_eq_some hunion)) hdone

theorem Uniting.regular {unfinished : List (List TypeId)} (h : t.Uniting t' unfinished)
    (hbuiltins : TypeId.array.index < t.size) : t'.Regular :=
  ⟨h.closed, h.grows.lt hbuiltins, h.union_lt, h.variants_eq⟩

end TypeTable

open TypeTable

namespace Tabling

variable {t : TypeTable} {type answer guard argument result template : TypeId}
  {ids arguments : List TypeId} {fields : List Field}

theorem simple_gives (ht : t.Regular) : Ends Tabling.simple t t.Gives :=
  ht.push fun _ hpart => nomatch hpart

/-- A new wildcard, which is none of the types that there were. -/
theorem wildcard_gives (ht : t.Regular) (name : String) :
    Ends (Tabling.wildcard name) t fun id t' =>
      t.Gives id t' ∧ t.size ≤ id.index ∧ t'.isWildcard id = true := by
  refine ⟨ht.push fun _ hpart => (nomatch hpart), Nat.le_refl _, ?_⟩
  exact congrArg (fun d : Descriptor => d.shape == .wildcard) (get_push_new t _)

theorem function_gives (ht : t.Regular) (hargument : argument.index < t.size)
    (hresult : result.index < t.size) : Ends (Tabling.function argument result) t t.Gives :=
  ht.push (lt_of_mem_function_parts hargument hresult)

theorem compound_gives (ht : t.Regular) (hfields : ∀ f ∈ fields, f.type.index < t.size) :
    Ends (Tabling.compound fields) t t.Gives := ht.push (lt_of_mem_compound_parts hfields)

theorem addSymbol_keeps (ht : t.Regular) (symbol : String) (hanswer : answer.index < t.size) :
    Ends (Tabling.addSymbol type symbol answer) t fun _ t' => t'.Regular ∧ t.Retains t' :=
  ht.update (ht.closed.addSymbol symbol hanswer) rfl rfl

theorem addHandler_keeps (ht : t.Regular) (hguard : guard.index < t.size)
    (hanswer : answer.index < t.size) :
    Ends (Tabling.addHandler type guard answer) t fun _ t' => t'.Regular ∧ t.Retains t' := by
  refine ht.update (ht.closed.withHandlers (f := (· ++ [(guard, answer)])) fun handler hhandler => ?_)
    rfl rfl
  rcases List.mem_append.mp hhandler with hhandler | hhandler
  · exact ht.closed.handler_lt hhandler
  · rw [List.mem_singleton.mp hhandler]
    exact ⟨hguard, hanswer⟩

theorem union_gives (ht : t.Regular) (hids : ∀ id ∈ ids, id.index < t.size) :
    Ends (Tabling.union ids) t t.Gives := by
  have hpos : 0 < t.size := Nat.zero_lt_of_lt ht.builtins_lt
  rw [Tabling.union, ends_bind_iff, ends_get_iff]
  refine (unionWithin_ends ht.closed ht.builtins_lt hids ht.uniting
    (openUnions_lt_unionBound t hpos)).mono ?_
  rintro union t' ⟨huniting, hadds, hunited⟩
  refine ⟨huniting.regular ht.builtins_lt, hadds.grows.retains, ?_⟩
  exact huniting.lt_of_united?_eq_some ht.builtins_lt (fun id hid => hadds.grows.lt (hids id hid))
    hunited

/-- Filling in a template. Its parts are copied, and the instance gets a name. -/
theorem instantiate_gives (ht : t.Regular) (htemplate : template.index < t.size)
    (harguments : ∀ argument ∈ arguments, argument.index < t.size) :
    Ends (Tabling.instantiate template arguments) t t.Gives := by
  have hmap : ∀ entry ∈ t.replacements template arguments, entry.2.index < t.size :=
    fun entry hentry => harguments _ (mem_arguments_of_mem_replacements hentry)
  refine (instantiate_named ht.closed htemplate harguments).mono ?_
  rintro _ t' ⟨image, t'', rfl, h, hnamed⟩
  have hclosed := h.closed ht.closed htemplate hmap
  have ht'' : t''.Regular := ht.retain h.grows.retains hclosed h.unions_eq
  have hlt : (image template).index < t''.size := h.image_lt ht.closed htemplate hmap .refl
  rcases hnamed with ⟨-, rfl⟩ | ⟨-, -, rfl⟩
  · exact ⟨ht'', h.grows.retains, hlt⟩
  · have hnamed : (t''.update (image template) fun d =>
        { d with name := t.instanceName template (arguments.map t.display) }).Closed :=
      hclosed.update (hclosed _)
    obtain ⟨hregular, hretains⟩ := ht''.update hnamed rfl rfl
    exact ⟨hregular, h.grows.retains.trans hretains, hlt.trans_le hretains.size_le⟩

end Tabling

end MessageLang
