import MessageLang.Proofs.Types.Growth

namespace MessageLang

open TypeTable

namespace Tabling

variable {t : TypeTable}

/-- Adding a type whose parts are there. -/
theorem push_ends (ht : t.Sound) {d : Descriptor} (hparts : ∀ part ∈ d.parts, part.index < t.size)
    (hparams : d.params = []) :
    Ends (Tabling.push d) t fun id t' => t'.Sound ∧ t.Extends t' ∧ t.size ≤ id.index ∧
      id.index < t'.size ∧ t'.get id = d := by
  refine ⟨ht.push hparts hparams, (Extends.refl t).push d, Nat.le_refl _, ?_, get_push_new t d⟩
  change _ < (t.push d).2.size
  rw [size_push]
  exact Nat.lt_succ_self _

theorem simple_ends (ht : t.Sound) :
    Ends Tabling.simple t fun id t' => t'.Sound ∧ t.Extends t' ∧ t.size ≤ id.index ∧
      id.index < t'.size ∧ t'.get id = {} :=
  push_ends ht (fun _ hpart => nomatch hpart) rfl

theorem wildcard_ends (ht : t.Sound) (name : String) :
    Ends (Tabling.wildcard name) t fun id t' => t'.Sound ∧ t.Extends t' ∧ t.size ≤ id.index ∧
      id.index < t'.size ∧ t'.get id = { name := some name, shape := .wildcard } :=
  push_ends ht (fun _ hpart => nomatch hpart) rfl

/-- The parts of a function type are what it takes and what it gives. -/
theorem lt_of_mem_function_parts {bound : Nat} {argument result : TypeId}
    (hargument : argument.index < bound) (hresult : result.index < bound) :
    ∀ part ∈ ({ handlers := [(argument, result)] } : Descriptor).parts, part.index < bound := by
  intro part hpart
  rcases Descriptor.mem_parts_iff.mp hpart with ⟨_, hfields, _⟩ | ⟨_, hentry, _⟩ |
    ⟨handler, hhandler, hpart⟩ | hpart
  · cases hfields
  · cases hentry
  · rw [List.mem_singleton.mp hhandler] at hpart
    rcases hpart with rfl | rfl
    · exact hargument
    · exact hresult
  · cases hpart

theorem function_ends (ht : t.Sound) {argument result : TypeId} (hargument : argument.index < t.size)
    (hresult : result.index < t.size) :
    Ends (Tabling.function argument result) t fun id t' => t'.Sound ∧ t.Extends t' ∧
      t.size ≤ id.index ∧ id.index < t'.size ∧ t'.get id = { handlers := [(argument, result)] } :=
  push_ends ht (lt_of_mem_function_parts hargument hresult) rfl

/-- What a compound type answers are the types of its fields. -/
private theorem mem_fieldSymbols {fields : List Field} {symbols : List (String × TypeId)}
    {entry : String × TypeId} (h : entry ∈ fields.foldl
      (fun symbols f => Descriptor.insertSymbol f.name f.type symbols) symbols) :
    entry ∈ symbols ∨ ∃ f ∈ fields, f.type = entry.2 := by
  induction fields generalizing symbols with
  | nil => exact .inl h
  | cons f rest ih =>
    rcases ih h with hentry | ⟨g, hg, heq⟩
    · rcases Descriptor.mem_insertSymbol hentry with rfl | hentry
      · exact .inr ⟨f, List.mem_cons_self, rfl⟩
      · exact .inl hentry
    · exact .inr ⟨g, List.mem_cons_of_mem _ hg, heq⟩

/-- The parts of a compound type are the types of its fields. -/
theorem lt_of_mem_compound_parts {bound : Nat} {fields : List Field}
    (hfields : ∀ f ∈ fields, f.type.index < bound) :
    let symbols := (fields.filter (!·.isPositional)).foldl
      (fun symbols f => Descriptor.insertSymbol f.name f.type symbols) []
    ∀ part ∈ ({ shape := .compound fields, symbols } : Descriptor).parts, part.index < bound := by
  intro _ part hpart
  rcases Descriptor.mem_parts_iff.mp hpart with ⟨_, heq, f, hf, rfl⟩ | ⟨entry, hentry, rfl⟩ |
    ⟨_, hhandler, _⟩ | hpart
  · cases heq
    exact hfields f hf
  · rcases mem_fieldSymbols hentry with hentry | ⟨f, hf, heq⟩
    · cases hentry
    · exact heq ▸ hfields f (List.mem_filter.mp hf).1
  · cases hhandler
  · cases hpart

theorem compound_ends (ht : t.Sound) {fields : List Field}
    (hfields : ∀ f ∈ fields, f.type.index < t.size) :
    Ends (Tabling.compound fields) t fun id t' => t'.Sound ∧ t.Extends t' ∧ t.size ≤ id.index ∧
      id.index < t'.size ∧ (t'.get id).shape = .compound fields ∧ (t'.get id).variants = [] := by
  refine (push_ends ht (lt_of_mem_compound_parts hfields) rfl).mono ?_
  rintro id t' ⟨hsound, hgrows, hnew, hlt, hget⟩
  exact ⟨hsound, hgrows, hnew, hlt, by rw [hget], by rw [hget]⟩

end Tabling

theorem TypeTable.initial_sound : initial.Sound where
  closed := closed_iff.mpr (by decide +kernel)
  builtins_lt := by decide +kernel
  unions_made := by
    have hnone : initial.unions = [] := by decide +kernel
    rw [hnone]
    exact fun _ hentry => nomatch hentry
  params_eq id := by
    have hall : ∀ index, index < initial.size → (initial.get ⟨index⟩).params = [] ∨
        (⟨index⟩ : TypeId) = .array ∧ (initial.get ⟨index⟩).params = [.arrayItem] := by
      decide +kernel
    by_cases hlt : id.index < initial.size
    · exact hall id.index hlt
    · rw [get_eq_default_of_le (Nat.le_of_not_lt hlt)]
      exact .inl rfl

namespace TypeTable

variable {t : TypeTable}

/-- The built-in types stay what they are. -/
theorem Extends.atomic_of_initial (h : initial.Extends t) {id : TypeId} (hid : id.index < initial.size)
    (hfields : initial.fields? id = none) (hnever : initial.isNever id = false)
    (hvariants : (initial.get id).variants = []) : t.Atomic id :=
  Atomic.extend ⟨hfields, hnever, hvariants⟩ h hid

theorem Extends.atomic_anything (h : initial.Extends t) : t.Atomic .anything :=
  h.atomic_of_initial (by decide +kernel) (by decide +kernel) (by decide +kernel) (by decide +kernel)

theorem Extends.get_never (h : initial.Extends t) :
    t.get .never = { name := some "Never", shape := .never } := by
  rw [h.get_eq .never (by decide +kernel)]
  rfl

theorem Extends.get_empty (h : initial.Extends t) : t.get .empty = { shape := .compound [] } := by
  rw [h.get_eq .empty (by decide +kernel)]
  rfl

end TypeTable

end MessageLang
