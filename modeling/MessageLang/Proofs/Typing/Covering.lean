import MessageLang.Proofs.Typing.Declaring
import MessageLang.Proofs.Typing.Resolving

namespace MessageLang

namespace Pass

/-- All expressions in one have types. -/
def TypesAll (p : Pass) (N : Tree) : Prop :=
  ∀ path X, N.Within path X → (p.types.lookup X.id).isSome = true

/-- All expressions in the value of a local have types. -/
def TypesValue (R : Tree) (p : Pass) (id : PlaceholderId) : Prop :=
  ∀ path V, R.Within path V → (p.placeholder id).value = some V.id → p.TypesAll V

/-- A change after which the types of nodes and what is known of locals are as before. -/
def Idle (p p' : Pass) : Prop :=
  p' = { p with
    space := p'.space, checker := p'.checker, scope := p'.scope, typeScope := p'.typeScope
    coercions := p'.coercions, escapes := p'.escapes, breaks := p'.breaks, resolved := p'.resolved }

/-- A change that comes back to where it started with more types and locals. That a local has
another placeholder than before means that it has a new one. -/
structure Onward (p p' : Pass) : Prop where
  types : ∀ x, (p.types.lookup x).isSome = true → (p'.types.lookup x).isSome = true
  resolving_eq : p'.resolving = p.resolving
  size_le : p.placeholders.size ≤ p'.placeholders.size
  value_eq : ∀ id : PlaceholderId, id.index < p.placeholders.size →
    (p'.placeholder id).value = (p.placeholder id).value
  current : ∀ D, p'.current? D = p.current? D ∨
    ∃ id, p'.current? D = some id ∧ p.placeholders.size ≤ id.index

/-- What was found for locals rests on values all of whose expressions have types. -/
structure Rested (R : Tree) (p : Pass) : Prop where
  resolving_lt : ∀ id ∈ p.resolving, id.index < p.placeholders.size
  pending_lt : p.terms.All fun v => ∀ id, v.meaning = .pending id → id.index < p.placeholders.size
  value : ∀ id v, (p.placeholder id).value = some v → ∃ path V, R.Within path V ∧ V.id = v
  current : ∀ path D id, R.Within path D → p.current? D = some id →
    id.index < p.placeholders.size ∧ (p.placeholder id).value = D.expressions.head?.map Tree.id
  found : ∀ id, (p.placeholder id).result.isSome = true → p.TypesValue R id

/-- Some expressions have got types with all that is in them. -/
structure Supplies (R : Tree) (p : Pass) (done : List Tree) (p' : Pass) : Prop where
  onward : p.Onward p'
  rested : p'.Rested R
  typed : ∀ N ∈ done, p'.TypesAll N

section

variable {R N D : Tree} {p p' p'' : Pass} {done more : List Tree} {id : PlaceholderId}

theorem TypesAll.mono (h : p.TypesAll N)
    (htypes : ∀ x, (p.types.lookup x).isSome = true → (p'.types.lookup x).isSome = true) :
    p'.TypesAll N := fun path X hX => htypes _ (h path X hX)

/-- An expression has types all over if it has one itself and all its parts have. -/
theorem TypesAll.of_parts (hown : (p.types.lookup N.id).isSome = true)
    (hparts : ∀ C ∈ N.expressions, p.TypesAll C) : p.TypesAll N := by
  intro path X hX
  rcases hX.eq_or_below with ⟨-, rfl⟩ | ⟨C, hC, inner, hinner, -⟩
  · exact hown
  · exact hparts C hC inner X hinner

theorem Idle.refl (p : Pass) : p.Idle p := rfl

theorem Idle.trans (h : p.Idle p') (h' : p'.Idle p'') : p.Idle p'' := by
  unfold Idle at h h' ⊢
  rw [h', h]

theorem Onward.refl (p : Pass) : p.Onward p :=
  ⟨fun _ h => h, rfl, Nat.le_refl _, fun _ _ => rfl, fun _ => .inl rfl⟩

theorem Onward.trans (h : p.Onward p') (h' : p'.Onward p'') : p.Onward p'' where
  types x hx := h'.types x (h.types x hx)
  resolving_eq := h'.resolving_eq.trans h.resolving_eq
  size_le := h.size_le.trans h'.size_le
  value_eq id hid := (h'.value_eq id (hid.trans_le h.size_le)).trans (h.value_eq id hid)
  current D := by
    rcases h'.current D with heq | ⟨id, hid, hle⟩
    · rw [heq]
      exact h.current D
    · exact .inr ⟨id, hid, h.size_le.trans hle⟩

theorem Idle.onward (h : p.Idle p') : p.Onward p' := by
  rw [h]
  exact ⟨fun _ h => h, rfl, Nat.le_refl _, fun _ _ => rfl, fun _ => .inl rfl⟩

theorem Rested.idle (h : p.Rested R) (hidle : p.Idle p') : p'.Rested R := by
  rw [hidle]
  exact ⟨h.resolving_lt, h.pending_lt, h.value, h.current, h.found⟩

theorem Rested.supplies (h : p.Rested R) : p.Supplies R [] p :=
  ⟨.refl p, h, fun _ h => nomatch h⟩

theorem Supplies.append (h : p.Supplies R done p') (h' : p'.Supplies R more p'') :
    p.Supplies R (done ++ more) p'' where
  onward := h.onward.trans h'.onward
  rested := h'.rested
  typed := List.forall_mem_append.mpr ⟨fun N hN => (h.typed N hN).mono h'.onward.types, h'.typed⟩

theorem Supplies.idle (h : p.Supplies R done p') (hidle : p'.Idle p'') : p.Supplies R done p'' where
  onward := h.onward.trans hidle.onward
  rested := h.rested.idle hidle
  typed N hN := (h.typed N hN).mono hidle.onward.types

/-- Changes that are of no interest, before an expression is typed. -/
theorem Idle.supplies (h : p.Idle p') (h' : p'.Supplies R done p'') : p.Supplies R done p'' where
  onward := h.onward.trans h'.onward
  rested := h'.rested
  typed := h'.typed

/-- Values have types once their locals are found, and keep them. -/
theorem TypesValue.onward (h : p.TypesValue R id) (hlt : id.index < p.placeholders.size)
    (h' : p.Onward p') : p'.TypesValue R id := fun path V hV hvalue =>
  (h path V hV ((h'.value_eq id hlt).symm.trans hvalue)).mono h'.types

/-- Noting the type of a node. -/
theorem Rested.noted (h : p.Rested R) (x : NodeId) (type : TypeId) :
    p.Onward { p with types := (x, type) :: p.types } ∧
      Rested R { p with types := (x, type) :: p.types } := by
  have htypes : ∀ y, (p.types.lookup y).isSome = true →
      (((x, type) :: p.types).lookup y).isSome = true := by
    intro y hy
    rw [List.lookup_cons]
    split
    · rfl
    · exact hy
  exact ⟨⟨htypes, rfl, Nat.le_refl _, fun _ _ => rfl, fun _ => .inl rfl⟩, h.resolving_lt, h.pending_lt,
    h.value, h.current, fun id hid path V hV hvalue => (h.found id hid path V hV hvalue).mono htypes⟩

theorem Supplies.noted (h : p.Supplies R N.expressions p') (type : TypeId) :
    p.Supplies R [N] { p' with types := (N.id, type) :: p'.types } := by
  obtain ⟨honward, hrested⟩ := h.rested.noted N.id type
  refine ⟨h.onward.trans honward, hrested, List.forall_mem_singleton.mpr ?_⟩
  refine .of_parts ?_ fun C hC => (h.typed C hC).mono honward.types
  rw [List.lookup_cons_self]
  rfl

theorem Rested.opened (h : p.Rested R) (hlt : id.index < p.placeholders.size) :
    (p.opened id).Rested R :=
  ⟨List.forall_mem_cons.mpr ⟨hlt, h.resolving_lt⟩, h.pending_lt, h.value, h.current, h.found⟩

theorem Rested.takenBack (h : p'.Rested R) (p : Pass) :
    p'.Onward (takenBack p p') ∧ (takenBack p p').Rested R := by
  have hplaceholder := p'.placeholder_forget (p'.resolved.take (p'.resolved.length - p.resolved.length))
  have hsize := size_placeholders_takenBack p p'
  have hvalue : ∀ other, ((Pass.takenBack p p').placeholder other).value =
      (p'.placeholder other).value := fun other =>
    (congrArg Placeholder.value (hplaceholder other)).trans rfl
  refine ⟨⟨fun _ h => h, rfl, hsize.ge, fun other _ => hvalue other, fun _ => .inl rfl⟩, ?_, ?_,
    fun other v => ?_, fun path D other hD hcurrent => ?_, fun other hfound => ?_⟩
  · exact fun other hother => (h.resolving_lt other hother).trans_eq hsize.symm
  · exact h.pending_lt.mono fun _ hv other hother => (hv other hother).trans_eq hsize.symm
  · rw [hvalue]
    exact h.value other v
  · rw [hvalue, hsize]
    exact h.current path D other hD hcurrent
  · intro path V hV hV'
    rw [hvalue] at hV'
    refine h.found other ?_ path V hV hV'
    have hresult : ((Pass.takenBack p p').placeholder other).result = _ :=
      congrArg Placeholder.result (hplaceholder other)
    rw [hresult] at hfound
    dsimp only at hfound
    split at hfound
    · cases hfound
    · exact hfound

/-- A placeholder may change as long as its value stays, and if it comes to be found then that has
types. -/
theorem Rested.update (h : p.Rested R) (id : PlaceholderId) (change : Placeholder → Placeholder)
    (hsame : ∀ e, (change e).value = e.value)
    (hchange : (change (p.placeholder id)).result.isSome = true → p.TypesValue R id) :
    p.Onward (p.updatePlaceholder id change) ∧ (p.updatePlaceholder id change).Rested R := by
  have hplaceholder := fun other => p.placeholder_updatePlaceholder_eq_or id other change
  have hsize : (p.updatePlaceholder id change).placeholders.size = p.placeholders.size :=
    Array.size_modify
  have hvalue : ∀ other, ((p.updatePlaceholder id change).placeholder other).value =
      (p.placeholder other).value := fun other => by
    rcases hplaceholder other with heq | ⟨rfl, heq⟩ <;> rw [heq]
    exact hsame _
  refine ⟨⟨fun _ h => h, rfl, hsize.ge, fun other _ => hvalue other, fun _ => .inl rfl⟩, ?_, ?_,
    fun other v => ?_, fun path D other hD hcurrent => ?_, fun other hfound path V hV hV' => ?_⟩
  · exact fun other hother => (h.resolving_lt other hother).trans_eq hsize.symm
  · exact h.pending_lt.mono fun _ hv other hother => (hv other hother).trans_eq hsize.symm
  · rw [hvalue]
    exact h.value other v
  · rw [hvalue, hsize]
    exact h.current path D other hD hcurrent
  · rw [hvalue] at hV'
    rcases hplaceholder other with heq | ⟨rfl, heq⟩
    · rw [heq] at hfound
      exact h.found other hfound path V hV hV'
    · rw [heq] at hfound
      exact hchange hfound path V hV hV'

/-- Coming back from the value of a local. -/
theorem Rested.closed (h : p'.Rested R) (hp : p.Rested R) (honward : (p.opened id).Onward p')
    (htyped : p'.TypesValue R id) (type : TypeId) :
    p.Supplies R [] (closed p p' id type) ∧ (Pass.closed p p' id type).TypesValue R id := by
  obtain ⟨hset, hrested⟩ := h.update id ({ · with result := some type })
    (fun _ => rfl) fun _ => htyped
  have hresolving : (Pass.closed p p' id type).resolving = p.resolving := by
    change p'.resolving.drop 1 = _
    rw [honward.resolving_eq]
    rfl
  refine ⟨⟨⟨honward.types, hresolving, honward.size_le.trans hset.size_le, fun other hother => ?_,
    honward.current⟩, ⟨?_, hrested.pending_lt, hrested.value, hrested.current, hrested.found⟩,
    fun _ h => nomatch h⟩, fun path V hV hV' => ?_⟩
  · exact (hset.value_eq other (hother.trans_le honward.size_le)).trans (honward.value_eq other hother)
  · rw [hresolving]
    exact fun other hother => (hp.resolving_lt other hother).trans_le
      (honward.size_le.trans hset.size_le)
  · refine htyped path V hV ?_
    rcases placeholder_closed p p' id id type with heq | ⟨-, heq⟩ <;> rw [heq] at hV' <;> exact hV'

/-- Terms that mean no locals are of no interest. -/
theorem Rested.withTerms (h : p.Rested R) {terms : Scopes Variable}
    (hterms : terms.All fun v => ∀ id, v.meaning = .pending id → id.index < p.placeholders.size) :
    p.Supplies R [] { p with terms } where
  onward := ⟨fun _ h => h, rfl, Nat.le_refl _, fun _ _ => rfl, fun _ => .inl rfl⟩
  rested := ⟨h.resolving_lt, hterms, h.value, h.current, h.found⟩
  typed _ h := nomatch h

theorem Rested.pushed (h : p.Rested R) : p.Supplies R [] p.pushed :=
  (h.withTerms (h.pending_lt.push p.scope)).idle rfl

end

end Pass

namespace Typing

open Pass

variable {α : Type} {p : Pass} {a : Arena} {node other : NodeId} {target source type : TypeId}
  {problem : Problem}

theorem reading_idle {step : Reading α} : After (reading step) p fun _ p' => p.Idle p' := by
  intro r p' hrun
  cases hstep : step p.space with
  | error fault =>
    simp [reading, hstep, bind, Except.bind] at hrun
  | ok result =>
    simp [reading, hstep, bind, Except.bind, pure, Except.pure] at hrun
    obtain ⟨-, rfl⟩ := hrun
    rfl

theorem checking_idle {step : TypeTable → Checking α} :
    After (checking step) p fun _ p' => p.Idle p' := by
  intro r p' hrun
  cases hstep : step p.table p.checker with
  | error fault =>
    simp [checking, hstep, bind, Except.bind] at hrun
  | ok result =>
    simp [checking, hstep, bind, Except.bind, pure, Except.pure] at hrun
    obtain ⟨-, rfl⟩ := hrun
    rfl

theorem tabling_idle {change : Tabling α} : After (tabling change) p fun _ p' => p.Idle p' :=
  reading_idle

theorem report_idle : After (report a node problem) p fun _ p' => p.Idle p' := reading_idle

theorem readType_idle : After (readType a node) p fun _ p' => p.Idle p' := by
  rw [readType, after_bind_iff, after_get_iff]
  exact reading_idle

theorem reportConflicts_idle : After (reportConflicts a node) p fun _ p' => p.Idle p' := by
  rw [reportConflicts]
  refine checking_idle.bind fun conflicts p₁ h₁ => ?_
  rw [after_bind_iff]
  refine After.mono (after_forIn (fun _ q => p.Idle q) ?_ h₁)
    fun _ p₂ h₂ => after_pure_iff.mpr h₂
  intro _ conflict _ p₂ h₂
  simp only [after_bind_iff, after_get_iff]
  exact report_idle.mono fun _ p₃ h₃ => after_pure_iff.mpr ⟨rfl, h₂.trans h₃⟩

theorem fits_idle : After (fits a node target source) p fun _ p' => p.Idle p' := by
  rw [fits]
  refine checking_idle.bind fun verdict p₁ h₁ => ?_
  refine reportConflicts_idle.bind fun _ p₂ h₂ => ?_
  exact after_pure_iff.mpr (h₁.trans h₂)

/-- Comparing a type with what it has to be, and reporting if it is not that, before going on. -/
theorem demand_idle {problem : Problem} {next : PUnit → Typing α} {post : α → Pass → Prop}
    (hnext : ∀ q, p.Idle q → After (next ⟨⟩) q post) :
    After (demand a node target source problem next) p post := by
  refine fits_idle.bind fun verdict p₁ h₁ => ?_
  split
  · exact report_idle.bind fun _ p₂ h₂ => hnext p₂ (h₁.trans h₂)
  · exact hnext p₁ h₁

theorem handlerResult_idle {declared : Option TypeId} {exits : List (NodeId × TypeId)} :
    After (handlerResult a declared exits) p fun _ p' => p.Idle p' := by
  cases declared with
  | none => exact tabling_idle
  | some expected =>
    rw [handlerResult, after_bind_iff]
    refine After.mono (after_forIn (fun _ q => p.Idle q) ?_ (.refl p))
      fun _ p₁ h₁ => after_pure_iff.mpr h₁
    rintro _ ⟨node, type⟩ - p₁ h₁
    exact demand_idle fun p₂ h₂ => after_pure_iff.mpr ⟨rfl, h₁.trans h₂⟩

theorem firstMatch?_idle {message : NodeId} {handlers : List (TypeId × TypeId)} :
    After (firstMatch? a message type handlers) p fun _ p' => p.Idle p' := by
  induction handlers generalizing p with
  | nil =>
    rw [firstMatch?]
    exact reportConflicts_idle.bind fun _ p₁ h₁ => after_pure_iff.mpr h₁
  | cons handler rest ih =>
    rw [firstMatch?, after_bind_iff, after_get_iff]
    refine checking_idle.bind fun verdict p₁ h₁ => ?_
    split
    · refine checking_idle.bind fun _ p₂ h₂ => ?_
      rw [after_bind_iff, after_get_iff]
      exact tabling_idle.bind fun _ p₃ h₃ => after_pure_iff.mpr (h₁.trans (h₂.trans h₃))
    · rw [after_bind_iff, after_modify_iff]
      have hback : p₁.Idle { p₁ with checker := p₁.checker.rollback p.checker.checkpoint } := rfl
      exact ih.mono fun _ p₂ h₂ => (h₁.trans hback).trans h₂

theorem answer_idle {message : NodeId} {receiver : TypeId} :
    After (answer a node message receiver type) p fun _ p' => p.Idle p' := by
  simp only [answer, after_bind_iff, after_get_iff]
  split
  · exact after_pure_iff.mpr (.refl p)
  · split
    · exact after_pure_iff.mpr (.refl p)
    · rw [after_bind_iff]
      refine firstMatch?_idle.mono fun found p₁ h₁ => ?_
      split
      · rw [after_bind_iff, after_modify_iff, after_pure_iff]
        exact h₁.trans rfl
      · exact report_idle.bind fun _ p₂ h₂ => after_pure_iff.mpr (h₁.trans h₂)

/-- A way to find the types of expressions that gives all that is in them types. -/
def SuppliesAll (R : Tree) (compute : NodeId → Typing TypeId) : Prop :=
  ∀ p path N, p.Rested R → R.Within path N →
    After (compute N.id) p fun _ p' => p.Supplies R [N] p'

section

variable {R N D V : Tree} {p₀ q : Pass} {path : List Tree} {id : PlaceholderId}
  {compute : NodeId → Typing TypeId} {declared : Option TypeId}

theorem valueType_supplies (hcompute : SuppliesAll R compute) (hp : p.Rested R) {value : Option NodeId}
    (hvalue : ∀ v, value = some v → ∃ path V, R.Within path V ∧ V.id = v) (hnodup : R.ids.Nodup) :
    After (valueType a compute value declared) p fun _ p' => p.Supplies R [] p' ∧
      ∀ path V, R.Within path V → value = some V.id → p'.TypesAll V := by
  cases value with
  | none => exact after_pure_iff.mpr ⟨hp.supplies, fun _ _ _ h => nomatch h⟩
  | some v =>
    obtain ⟨path, V, hV, rfl⟩ := hvalue v rfl
    have hdone : ∀ {p'}, p.Supplies R [V] p' → p.Supplies R [] p' ∧
        ∀ path V', R.Within path V' → some V.id = some V'.id → p'.TypesAll V' := by
      intro p' h
      refine ⟨⟨h.onward, h.rested, fun _ h => nomatch h⟩, fun path' V' hV' heq => ?_⟩
      rw [← (hV.unique hV' hnodup (Option.some.inj heq)).2]
      exact h.typed V (List.mem_singleton_self V)
    rw [valueType, after_bind_iff]
    refine (hcompute p path V hp hV).mono fun found p₁ h₁ => ?_
    cases declared with
    | none => exact after_pure_iff.mpr (hdone h₁)
    | some expected =>
      exact demand_idle fun p₂ h₂ => after_pure_iff.mpr (hdone (h₁.idle h₂))

theorem resolveNow_supplies (hcompute : SuppliesAll R compute) (hnodup : R.ids.Nodup) (hp : p.Rested R)
    (hlt : id.index < p.placeholders.size) :
    After (resolveNow a compute id) p fun _ p' => p.Supplies R [] p' ∧ p'.TypesValue R id := by
  have hopened := hp.opened hlt
  -- what typing the value gives has types in all of it
  have htyped : ∀ {q}, (p.opened id).Onward q →
      (∀ path V, R.Within path V → (p.placeholder id).value = some V.id → q.TypesAll V) →
        q.TypesValue R id := fun honward htyped path V hV hvalue =>
    htyped path V hV ((honward.value_eq id hlt).symm.trans hvalue)
  rw [resolveNow]
  simp only [after_bind_iff, after_get_iff, after_modify_iff]
  refine After.mono (valueType_supplies hcompute hopened
    (hp.value id) hnodup) ?_
  rintro found q ⟨hsupplies, hvalue⟩
  split
  · simp only [after_bind_iff, takeBack_eq, after_modify_iff, after_pure_iff]
    obtain ⟨honward₁, hrested₁⟩ := hsupplies.rested.takenBack p
    have htyped₁ := (htyped hsupplies.onward hvalue).onward (hlt.trans_le hsupplies.onward.size_le) honward₁
    obtain ⟨honward₂, hrested₂⟩ := hrested₁.update id
      ({ · with result := some .anything }) (fun _ => rfl) fun _ => htyped₁
    have honward := hsupplies.onward.trans (honward₁.trans honward₂)
    refine report_idle.mono fun _ q₁ h₁ => ?_
    refine After.mono (valueType_supplies hcompute (hrested₂.idle h₁) (hp.value id)
      hnodup) ?_
    rintro _ q₂ ⟨hsupplies₂, hvalue₂⟩
    have honward' := (honward.trans h₁.onward).trans hsupplies₂.onward
    exact hsupplies₂.rested.closed hp honward' (htyped honward' hvalue₂) .anything
  · simp only [after_bind_iff, after_modify_iff, after_pure_iff]
    exact hsupplies.rested.closed hp hsupplies.onward (htyped hsupplies.onward hvalue) found

theorem resolve_supplies (hcompute : SuppliesAll R compute) (hnodup : R.ids.Nodup) (hp : p.Rested R)
    (hlt : id.index < p.placeholders.size) :
    After (resolve a compute id) p fun _ p' => p.Supplies R [] p' ∧
      (id ∉ p.resolving → p'.TypesValue R id) := by
  simp only [resolve, after_bind_iff, after_get_iff]
  split
  · next type hfound =>
    exact after_pure_iff.mpr ⟨hp.supplies, fun _ => hp.found id (by rw [hfound]; rfl)⟩
  · next hnone =>
    split
    · next hmem =>
      split
      · exact after_pure_iff.mpr ⟨hp.supplies, fun hnot => absurd hmem hnot⟩
      · rw [after_bind_iff, after_modify_iff, after_pure_iff]
        obtain ⟨honward, hrested⟩ := hp.update id ({ · with cyclic := true })
          (fun _ => rfl) fun hfound => by
            dsimp only at hfound
            rw [hnone] at hfound
            cases hfound
        exact ⟨⟨honward, hrested, fun _ h => by cases h⟩, fun hnot => absurd hmem hnot⟩
    · exact (resolveNow_supplies hcompute hnodup hp hlt).mono fun _ _ h => ⟨h.1, fun _ => h.2⟩

end

end Typing

end MessageLang
