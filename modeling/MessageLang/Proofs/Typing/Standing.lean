import MessageLang.Proofs.Typing.Exits
import MessageLang.Proofs.Typing.Scoping
import MessageLang.Proofs.Typing.Steps

namespace MessageLang

open MessageLang.Tree (Binds Denotes DependsOn Direct Visible)

/-- A local that need not be found to be recursive: one that is safe, or one that uses only such
locals. On a cycle of locals that are grounded, some local is safe. -/
inductive Grounded (a : Arena) (R : Tree) (safe : NodeId → Prop) : NodeId → Prop
  | safe {x : NodeId} (h : safe x) : Grounded a R safe x
  | uses {x : NodeId} (h : ∀ y, DependsOn a R x y → Grounded a R safe y) : Grounded a R safe x

theorem Grounded.mono {a : Arena} {R : Tree} {safe safe' : NodeId → Prop} {x : NodeId}
    (h : Grounded a R safe x) (himp : ∀ y, safe y → safe' y) : Grounded a R safe' x := by
  induction h with
  | safe h => exact .safe (himp _ h)
  | uses _ ih => exact .uses ih

/-- A local without a declared type whose value needs the type of the local itself. -/
def Cyclic (a : Arena) (R : Tree) (x : NodeId) : Prop :=
  a.types x = [] ∧ Relation.TransGen (DependsOn a R) x x

namespace Pass

/-- A placeholder whose type is still to be found. -/
def Waiting (p : Pass) (id : PlaceholderId) : Prop :=
  (p.placeholder id).result = none ∧ id ∉ p.resolving

/-- A placeholder gives a type without a look at the value: it is found, or it is being found and
the local was declared or may be anything. -/
def Answers (p : Pass) (id : PlaceholderId) (type : TypeId) : Prop :=
  (p.placeholder id).result = some type ∨ (p.placeholder id).result = none ∧ id ∈ p.resolving ∧
    ((p.placeholder id).declared = some type ∨ (p.placeholder id).declared = none ∧
      (p.placeholder id).cyclic = true ∧ type = .anything)

/-- A report that a definition is recursive, among those since a log had an earlier size. -/
def Blamed (p : Pass) (base : Nat) (x : NodeId) : Prop :=
  ∃ r ∈ p.log.since base, r.node = x ∧ ∃ name, r.problem = .recursiveDefinition name

/-- A local that is declared or reported, or will be as soon as it is found. -/
def Safe (a : Arena) (base : Nat) (p : Pass) (x : NodeId) : Prop :=
  a.types x ≠ [] ∨ p.Blamed base x ∨
    ∃ id ∈ p.resolving, (p.placeholder id).definition = x ∧ (p.placeholder id).cyclic = true

/-- A type is that of the local that an expression denotes, if it denotes one. -/
def Agrees (a : Arena) (R : Tree) (base : Nat) (p : Pass) (path : List Tree) (X : Tree)
    (type : TypeId) : Prop :=
  ∀ E, Denotes a path X E →
    ∃ id, p.current? E = some id ∧ p.Answers id type ∧ Grounded a R (p.Safe a base) E.id

/-- An expression has a type. It is that of the local it denotes, or what leaves the handler or
loop makes it. -/
def Settled (a : Arena) (R : Tree) (base : Nat) (p : Pass) (path : List Tree) (X : Tree) : Prop :=
  ∃ type, p.types.lookup X.id = some type ∧ (R.ExitFree → p.Made a X type) ∧
    p.Agrees a R base path X type

/-- All expressions in one are settled. -/
def Covered (a : Arena) (R : Tree) (base : Nat) (p : Pass) (N : Tree) : Prop :=
  ∀ path X, R.Within path X → N ∈ X :: path → p.Settled a R base path X

/-- A change to what is known of nodes and locals. Types of nodes and placeholders of locals change
within a region only. The types that are found for placeholders that were there are those of
locals that can be seen, none of which was being found. -/
structure Grows (p : Pass) (path : List Tree) (region : NodeId → Prop) (p' : Pass) : Prop where
  resolving_sub : p.resolving ⊆ p'.resolving
  table : p.table.Extends p'.table
  log : ∃ more, p'.log.toList = p.log.toList ++ more
  terms_le : p.terms.size ≤ p'.terms.size
  frame_eq : ∀ id : ScopeId, id.index < p.terms.size → p'.terms.frame id = p.terms.frame id
  placeholders_le : p.placeholders.size ≤ p'.placeholders.size
  placeholder_eq : ∀ id : PlaceholderId, id.index < p.placeholders.size →
    p'.placeholder id = { p.placeholder id with
      result := (p'.placeholder id).result
      cyclic := (p'.placeholder id).cyclic }
  cyclic : ∀ id, (p.placeholder id).cyclic = true → (p'.placeholder id).cyclic = true
  waiting : ∀ id : PlaceholderId, id.index < p.placeholders.size →
    (p'.placeholder id).result ≠ (p.placeholder id).result →
      p.Waiting id ∧ ∃ D, Visible path D ∧ p.current? D = some id
  resolved : ∃ recent, p'.resolved = recent ++ p.resolved ∧
    (∀ id ∈ recent, (p.placeholder id).result = none) ∧
    ∀ id : PlaceholderId, id.index < p.placeholders.size → id ∉ recent → id ∉ p'.resolving →
      (p'.placeholder id).result = (p.placeholder id).result
  types_eq : ∀ x, ¬ region x → p'.types.lookup x = p.types.lookup x
  ofLocal_eq : ∀ x, ¬ region x → p'.ofLocal.lookup x = p.ofLocal.lookup x

/-- Such a change that comes back to where it started. -/
structure Advances (p : Pass) (path : List Tree) (region : NodeId → Prop) (p' : Pass) : Prop
    extends p.Grows path region p' where
  scope_eq : p'.scope = p.scope
  typeScope_eq : p'.typeScope = p.typeScope
  resolving_eq : p'.resolving = p.resolving

section

variable {a : Arena} {R N X D E : Tree} {base : Nat} {p p' p'' : Pass} {path path' : List Tree}
  {region region' : NodeId → Prop} {id : PlaceholderId} {type : TypeId} {x : NodeId} {scope : ScopeId}

theorem Advances.refl (p : Pass) (path : List Tree) (region : NodeId → Prop) :
    p.Advances path region p where
  scope_eq := rfl
  typeScope_eq := rfl
  resolving_eq := rfl
  resolving_sub _ h := h
  table := .refl _
  log := ⟨[], by simp⟩
  terms_le := Nat.le_refl _
  frame_eq _ _ := rfl
  placeholders_le := Nat.le_refl _
  placeholder_eq _ _ := rfl
  cyclic _ h := h
  waiting _ _ h := absurd rfl h
  resolved := ⟨[], rfl, fun _ h => (nomatch h), fun _ _ _ _ => rfl⟩
  types_eq _ _ := rfl
  ofLocal_eq _ _ := rfl

theorem Quiet.advances (h : p.Quiet p') (path : List Tree) (region : NodeId → Prop) :
    p.Advances path region p' := by
  obtain ⟨heq, htable, ⟨more, hlog, -⟩, -⟩ := h
  have hrefl := Advances.refl p path region
  rw [heq]
  exact { hrefl with table := htable, log := ⟨more, hlog⟩ }

theorem Quiet.precedes (h : p.Quiet p') : p.Precedes p' := by
  obtain ⟨more, hlog, -⟩ := h.log
  exact ⟨h.table, more, hlog⟩

theorem Quiet.outcomes_eq (h : p.Quiet p') (hp : p.Sound) (hnodup : N.ids.Nodup) :
    p'.outcomes N = p.outcomes N :=
  Pass.outcomes_eq hp.space.table h.table hnodup hp.types_lt fun x _ => by rw [h.eq]

theorem placeholder_of_le (h : p.placeholders.size ≤ id.index) : p.placeholder id = default := by
  simp [placeholder, Array.getD_eq_getD_getElem?, h]

theorem lt_of_result_eq_some (h : (p.placeholder id).result = some type) :
    id.index < p.placeholders.size := by
  by_contra hle
  rw [placeholder_of_le (Nat.le_of_not_lt hle)] at h
  cases h

theorem Agrees.transfer (h : p.Agrees a R base path X type)
    (hcurrent : ∀ E, Denotes a path X E → p'.current? E = p.current? E)
    (hanswers : ∀ id type, p.Answers id type → p'.Answers id type)
    (hsafe : ∀ x, p.Safe a base x → p'.Safe a base x) : p'.Agrees a R base path X type := by
  intro E hE
  obtain ⟨id, hid, hanswer, hgrounded⟩ := h E hE
  exact ⟨id, (hcurrent E hE).trans hid, hanswers id type hanswer, hgrounded.mono hsafe⟩

/-- What is settled stays so while answers stay as they are and what is safe stays safe. -/
theorem Settled.transfer (h : p.Settled a R base path X)
    (hlookup : p'.types.lookup X.id = p.types.lookup X.id)
    (hmade : ∀ type, p.types.lookup X.id = some type → p.Made a X type → p'.Made a X type)
    (hcurrent : ∀ E, Denotes a path X E → p'.current? E = p.current? E)
    (hanswers : ∀ id type, p.Answers id type → p'.Answers id type)
    (hsafe : ∀ x, p.Safe a base x → p'.Safe a base x) : p'.Settled a R base path X := by
  obtain ⟨type, htype, hfree, hagrees⟩ := h
  exact ⟨type, hlookup.trans htype, fun h => hmade type htype (hfree h),
    hagrees.transfer hcurrent hanswers hsafe⟩

namespace Grows

theorem precedes (h : p.Grows path region p') : p.Precedes p' := ⟨h.table, h.log⟩

/-- What was found stays. -/
theorem result_eq (h : p.Grows path region p')
    (hfound : (p.placeholder id).result = some type) : (p'.placeholder id).result = some type := by
  by_contra hne
  rw [← hfound] at hne
  have hnone := (h.waiting id (lt_of_result_eq_some hfound) hne).1.1
  rw [hfound] at hnone
  cases hnone

theorem result_eq_none (h : p.Grows path region p')
    (hnone : (p'.placeholder id).result = none) : (p.placeholder id).result = none := by
  cases hfound : (p.placeholder id).result with
  | none => rfl
  | some type =>
    rw [h.result_eq hfound] at hnone
    cases hnone

theorem waiting_of (h : p.Grows path region p') (hwaiting : p'.Waiting id) : p.Waiting id :=
  ⟨h.result_eq_none hwaiting.1, fun hmem => hwaiting.2 (h.resolving_sub hmem)⟩

theorem current?_eq (h : p.Grows path region p') (hD : ¬ region D.id) :
    p'.current? D = p.current? D := h.ofLocal_eq D.id hD

/-- Going on at a place further in, where the locals that are not seen from outside are new. -/
theorem trans_inner (h : p.Grows path region p') (h' : p'.Grows path' region p'')
    (hclear : ∀ D, Visible path D → ¬ region D.id)
    (hnew : ∀ (id : PlaceholderId) D, id.index < p.placeholders.size → Visible path' D →
      p'.current? D = some id → Visible path D) : p.Grows path region p'' where
  resolving_sub := fun _ hid => h'.resolving_sub (h.resolving_sub hid)
  table := h.table.trans h'.table
  log := by
    obtain ⟨more, heq⟩ := h.log
    obtain ⟨more', heq'⟩ := h'.log
    exact ⟨more ++ more', by rw [heq', heq, List.append_assoc]⟩
  terms_le := h.terms_le.trans h'.terms_le
  frame_eq id hid := by rw [h'.frame_eq id (hid.trans_le h.terms_le), h.frame_eq id hid]
  placeholders_le := h.placeholders_le.trans h'.placeholders_le
  placeholder_eq id hid := by
    rw [h'.placeholder_eq id (hid.trans_le h.placeholders_le), h.placeholder_eq id hid]
  cyclic id hcyclic := h'.cyclic id (h.cyclic id hcyclic)
  waiting id hid hne := by
    by_cases hsame : (p'.placeholder id).result = (p.placeholder id).result
    · obtain ⟨hwaiting, D, hD, hcurrent⟩ :=
        h'.waiting id (hid.trans_le h.placeholders_le) (hsame ▸ hne)
      have hvisible := hnew id D hid hD hcurrent
      exact ⟨h.waiting_of hwaiting, D, hvisible,
        (h.current?_eq (hclear D hvisible)).symm.trans hcurrent⟩
    · exact h.waiting id hid hsame
  resolved := by
    obtain ⟨recent, heq, hnone, hsame⟩ := h.resolved
    obtain ⟨recent', heq', hnone', hsame'⟩ := h'.resolved
    refine ⟨recent' ++ recent, by rw [heq', heq, List.append_assoc], ?_, fun id hid hnot hdone => ?_⟩
    · exact List.forall_mem_append.mpr ⟨fun id hid => h.result_eq_none (hnone' id hid), hnone⟩
    · rw [List.mem_append, not_or] at hnot
      rw [hsame' id (hid.trans_le h.placeholders_le) hnot.1 hdone,
        hsame id hid hnot.2 fun hmem => hdone (h'.resolving_sub hmem)]
  types_eq x hx := (h'.types_eq x hx).trans (h.types_eq x hx)
  ofLocal_eq x hx := (h'.ofLocal_eq x hx).trans (h.ofLocal_eq x hx)

theorem trans (h : p.Grows path region p') (h' : p'.Grows path region p'')
    (hclear : ∀ D, Visible path D → ¬ region D.id) : p.Grows path region p'' :=
  h.trans_inner h' hclear fun _ _ _ hD _ => hD

theorem mono (h : p.Grows path region p') (hpath : ∀ D, Visible path D → Visible path' D)
    (hregion : ∀ x, region x → region' x) : p.Grows path' region' p' where
  __ := h
  waiting id hid hne := by
    obtain ⟨hwaiting, D, hD, hcurrent⟩ := h.waiting id hid hne
    exact ⟨hwaiting, D, hpath D hD, hcurrent⟩
  types_eq x hx := h.types_eq x fun hr => hx (hregion x hr)
  ofLocal_eq x hx := h.ofLocal_eq x fun hr => hx (hregion x hr)

theorem declared_eq (h : p.Grows path region p') (hid : id.index < p.placeholders.size) :
    (p'.placeholder id).declared = (p.placeholder id).declared := by
  rw [h.placeholder_eq id hid]

theorem definition_eq (h : p.Grows path region p') (hid : id.index < p.placeholders.size) :
    (p'.placeholder id).definition = (p.placeholder id).definition := by
  rw [h.placeholder_eq id hid]

theorem isFor (h : p.Grows path region p') (hfor : p.IsFor id D scope) : p'.IsFor id D scope where
  lt := hfor.lt.trans_le h.placeholders_le
  definition_eq := (h.definition_eq hfor.lt).trans hfor.definition_eq
  value_eq := by
    rw [h.placeholder_eq id hfor.lt]
    exact hfor.value_eq
  scope_eq := by
    rw [h.placeholder_eq id hfor.lt]
    exact hfor.scope_eq
  declared_iff := by rw [h.declared_eq hfor.lt, hfor.declared_iff]

theorem frames (h : p.Grows path region p') (hframes : Scoped a p path' scope)
    (hclear : ∀ D, Visible path' D → ¬ region D.id) : Scoped a p' path' scope :=
  hframes.keep h.terms_le h.frame_eq (fun D hD => h.current?_eq (hclear D hD)) fun _ _ _ => h.isFor

theorem blamed (h : p.Grows path region p') (hblamed : p.Blamed base x) : p'.Blamed base x := by
  obtain ⟨r, hr, hblame⟩ := hblamed
  obtain ⟨more, heq⟩ := h.log
  refine ⟨r, ?_, hblame⟩
  rw [Log.since, heq, List.drop_append]
  exact List.mem_append_left _ hr

theorem safe (h : p.Grows path region p')
    (hresolving : ∀ id ∈ p.resolving, id.index < p.placeholders.size) (hsafe : p.Safe a base x) :
    p'.Safe a base x := by
  rcases hsafe with hdeclared | hblamed | ⟨id, hid, hdefinition, hcyclic⟩
  · exact .inl hdeclared
  · exact .inr (.inl (h.blamed hblamed))
  · refine .inr (.inr ⟨id, h.resolving_sub hid, ?_, h.cyclic id hcyclic⟩)
    rw [h.definition_eq (hresolving id hid), hdefinition]

/-- An answer that is given while a type is being found is the one that it will be found to be. -/
theorem answers (h : p.Grows path region p')
    (hresolving : ∀ id ∈ p.resolving, id.index < p.placeholders.size) (hanswers : p.Answers id type) :
    p'.Answers id type := by
  rcases hanswers with hfound | ⟨hnone, hmem, hgiven⟩
  · exact .inl (h.result_eq hfound)
  · have hlt := hresolving id hmem
    refine .inr ⟨?_, h.resolving_sub hmem, ?_⟩
    · by_contra hne
      exact (h.waiting id hlt (hnone ▸ hne)).1.2 hmem
    · rw [h.declared_eq hlt]
      exact hgiven.imp_right fun ⟨hundeclared, hcyclic, hany⟩ =>
        ⟨hundeclared, h.cyclic id hcyclic, hany⟩

theorem agrees (h : p.Grows path region p')
    (hresolving : ∀ id ∈ p.resolving, id.index < p.placeholders.size)
    (hdenoted : ∀ E, Denotes a path' X E → ¬ region E.id) (hagrees : p.Agrees a R base path' X type) :
    p'.Agrees a R base path' X type :=
  hagrees.transfer (fun E hE => h.current?_eq (hdenoted E hE)) (fun _ _ => h.answers hresolving)
    fun _ => h.safe hresolving

/-- What lies outside of the region stays settled. -/
theorem settled (h : p.Grows path region p') (hp : p.Sound)
    (hresolving : ∀ id ∈ p.resolving, id.index < p.placeholders.size) (hnodup : X.ids.Nodup)
    (hX : ∀ x ∈ X.ids, ¬ region x) (hdenoted : ∀ E, Denotes a path' X E → ¬ region E.id)
    (hsettled : p.Settled a R base path' X) : p'.Settled a R base path' X :=
  hsettled.transfer (h.types_eq _ (hX _ X.id_mem_ids))
    (fun _ htype hmade => hmade.keep hp.space.table h.precedes hnodup hp.types_lt
      (hp.types_lt _ (mem_of_lookup_eq_some htype)) fun x hx _ => h.types_eq x (hX x hx))
    (fun E hE => h.current?_eq (hdenoted E hE)) (fun _ _ => h.answers hresolving)
    fun _ => h.safe hresolving

end Grows

namespace Advances

theorem trans (h : p.Advances path region p') (h' : p'.Advances path region p'')
    (hclear : ∀ D, Visible path D → ¬ region D.id) : p.Advances path region p'' where
  __ := h.toGrows.trans h'.toGrows hclear
  scope_eq := h'.scope_eq.trans h.scope_eq
  typeScope_eq := h'.typeScope_eq.trans h.typeScope_eq
  resolving_eq := h'.resolving_eq.trans h.resolving_eq

theorem mono (h : p.Advances path region p') (hpath : ∀ D, Visible path D → Visible path' D)
    (hregion : ∀ x, region x → region' x) : p.Advances path' region' p' where
  __ := h.toGrows.mono hpath hregion
  scope_eq := h.scope_eq
  typeScope_eq := h.typeScope_eq
  resolving_eq := h.resolving_eq

end Advances

end

end Pass

end MessageLang
