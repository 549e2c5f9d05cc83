import MessageLang.Proofs.Assign.Judgement

namespace MessageLang

open Checking Checker

theorem fieldIndex?_eq_some_iff {target : List Field} {f : Field} {place : Nat} :
    fieldIndex? target f = some place ↔ f.IsFor target place := by
  delta Field.IsFor
  rcases hname : f.name.toList with _ | ⟨first, position⟩
  · simp [fieldIndex?, hname, List.findIdx?_eq_some_iff_getElem]
  · by_cases hfirst : first = '?'
    · subst hfirst
      simp [fieldIndex?, hname, Option.filter_eq_some_iff]
    · simp [fieldIndex?, hname, hfirst, List.findIdx?_eq_some_iff_getElem]

theorem Field.IsFor.lt {target : List Field} {f : Field} {place : Nat} (h : f.IsFor target place) :
    place < target.length := by
  delta Field.IsFor at h
  split at h
  · exact h.2
  · exact h.1

/-- The fields still to come fit places that are not taken yet, and then all places are taken but
those with defaults. -/
private def FieldsFitFrom (R : TypeId → TypeId → Prop) (target : List Field) (taken : List Nat)
    (given : List Field) : Prop :=
  ∃ places : List Nat, places.Nodup ∧ (∀ place ∈ places, place ∉ taken) ∧
    List.Forall₂ (fun f place => f.IsFor target place ∧
      ∀ wanted, target[place]? = some wanted → R wanted.type f.type) given places ∧
    ∀ place wanted, target[place]? = some wanted →
      place ∈ taken ∨ place ∈ places ∨ wanted.hasDefault = true

private theorem fieldsFitFrom_nil_iff {R : TypeId → TypeId → Prop} {target : List Field}
    {taken : List Nat} : FieldsFitFrom R target taken [] ↔
      ∀ place wanted, target[place]? = some wanted → place ∈ taken ∨ wanted.hasDefault = true := by
  constructor
  · rintro ⟨places, _, _, hfit, hrest⟩
    cases hfit
    simpa using hrest
  · intro h
    exact ⟨[], .nil, by simp, .nil, by simpa using h⟩

private theorem fieldsFitFrom_cons_iff {R : TypeId → TypeId → Prop} {target : List Field}
    {taken : List Nat} {f : Field} {given : List Field} :
    FieldsFitFrom R target taken (f :: given) ↔
      ∃ place wanted, f.IsFor target place ∧ target[place]? = some wanted ∧ place ∉ taken ∧
        R wanted.type f.type ∧ FieldsFitFrom R target (place :: taken) given := by
  constructor
  · rintro ⟨_, hnodup, hfree, hfit, hrest⟩
    cases hfit with
    | @cons _ place _ places hf hfit =>
      rw [List.nodup_cons] at hnodup
      have hwanted := List.getElem?_eq_getElem hf.1.lt
      refine ⟨place, _, hf.1, hwanted, hfree place (by simp), hf.2 _ hwanted, places, hnodup.2, ?_,
        hfit, ?_⟩
      · intro other hother
        rw [List.mem_cons, not_or]
        exact ⟨fun heq => hnodup.1 (heq ▸ hother), hfree other (by simp [hother])⟩
      · intro other wanted hother
        have h := hrest other wanted hother
        simp only [List.mem_cons] at h ⊢
        tauto
  · rintro ⟨place, wanted, hfor, hwanted, hfree, hr, places, hnodup, hfrees, hfit, hrest⟩
    refine ⟨place :: places, ?_, ?_, .cons ⟨hfor, ?_⟩ hfit, ?_⟩
    · exact List.nodup_cons.mpr ⟨fun hmem => hfrees place hmem (by simp), hnodup⟩
    · intro other hother
      rcases List.mem_cons.mp hother with rfl | hother
      · exact hfree
      · exact fun hmem => hfrees other hother (by simp [hmem])
    · intro other hother
      rw [hwanted] at hother
      cases hother
      exact hr
    · intro other wanted hother
      have h := hrest other wanted hother
      simp only [List.mem_cons] at h ⊢
      tauto

theorem fieldsFit_iff {R : TypeId → TypeId → Prop} {target given : List Field} :
    FieldsFit R target given ↔ FieldsFitFrom R target [] given := by
  simp [FieldsFit, FieldsFitFrom]

section

variable {t : TypeTable} {unwraps : Bool} {demands : Nat}
  {check : TypeId → TypeId → Checking Bool} {holds : TypeId → TypeId → Checker → Prop}
  {must : TypeId → TypeId → Prop}

/-- Checking pairs of types answers whether they are as related, for all types of the table. -/
def JudgesPairs (t : TypeTable) (unwraps : Bool) (demands : Nat)
    (check : TypeId → TypeId → Checking Bool) (holds : TypeId → TypeId → Checker → Prop)
    (must : TypeId → TypeId → Prop) : Prop :=
  ∀ a b, Lasts t (holds a b) ∧ (a.index < t.size → b.index < t.size →
    Judges t unwraps demands (check a b) (holds a b) (must a b))

private theorem fieldsMatchFrom_judges (hcheck : JudgesPairs t unwraps demands check holds must)
    {target given : List Field} (htarget : ∀ f ∈ target, f.type.index < t.size)
    (hgiven : ∀ f ∈ given, f.type.index < t.size) (taken : List Nat) :
    Judges t unwraps demands (fieldsMatchFrom check target taken given)
      (fun c => FieldsFitFrom (fun a b => holds a b c) target taken given)
      (FieldsFitFrom must target taken given) := by
  induction given generalizing taken with
  | nil =>
    have hall : (target.zipIdx.all fun entry => entry.2 ∈ taken || entry.1.hasDefault) = true ↔
        ∀ place wanted, target[place]? = some wanted →
          place ∈ taken ∨ wanted.hasDefault = true := by
      simp only [List.all_eq_true, List.mem_zipIdx_iff_getElem?, Prod.forall, Bool.or_eq_true,
        decide_eq_true_eq]
      exact forall_comm
    simp only [fieldsMatchFrom]
    exact judges_pure (fun hv c => fieldsFitFrom_nil_iff.mpr (hall.mp hv))
      fun hm => hall.mpr (fieldsFitFrom_nil_iff.mp hm)
  | cons f given ih =>
    simp only [fieldsMatchFrom]
    cases hindex : fieldIndex? target f with
    | none =>
      refine judges_pure (fun hv => by cases hv) fun hm => ?_
      obtain ⟨place, _, hfor, _⟩ := fieldsFitFrom_cons_iff.mp hm
      rw [fieldIndex?_eq_some_iff.mpr hfor] at hindex
      cases hindex
    | some place =>
      have hfor := fieldIndex?_eq_some_iff.mp hindex
      have hlt := hfor.lt
      have hunique : ∀ {other}, f.IsFor target other → other = place := by
        intro other hother
        rw [fieldIndex?_eq_some_iff.mpr hother] at hindex
        exact Option.some_inj.mp hindex
      simp only [List.getElem?_eq_getElem hlt]
      by_cases htaken : place ∈ taken
      · simp only [htaken, if_true]
        refine judges_pure (fun hv => by cases hv) fun hm => ?_
        obtain ⟨other, _, hother, _, hfree, _⟩ := fieldsFitFrom_cons_iff.mp hm
        exact absurd htaken (hunique hother ▸ hfree)
      · simp only [htaken, if_false]
        have hmem : target[place] ∈ target := List.getElem_mem hlt
        have hpair := hcheck target[place].type f.type
        have hrest := ih (fun g hg => hgiven g (by simp [hg])) (place :: taken)
        refine ((hpair.2 (htarget _ hmem) (hgiven f (by simp))).and hrest hpair.1).imp ?_ ?_
        · intro c _ h
          exact fieldsFitFrom_cons_iff.mpr
            ⟨place, _, hfor, List.getElem?_eq_getElem hlt, htaken, h⟩
        · intro hm
          obtain ⟨other, wanted, hother, hwanted, _, h⟩ := fieldsFitFrom_cons_iff.mp hm
          obtain rfl := hunique hother
          rw [List.getElem?_eq_getElem hlt] at hwanted
          cases hwanted
          exact h

namespace Checking

variable (check : TypeId → TypeId → Checking Bool)

/-- Whether the symbols that one type answers are answered by another as well. -/
def symbolsMatch (target source : Descriptor) : Checking Bool :=
  target.symbols.allM fun (symbol, answer) =>
    match source.symbols.lookup symbol with
    | some offered => check answer offered
    | none => return false

/-- Whether what the handlers of one type take is answered by those of another as well. -/
def guardsMatch (target source : Descriptor) : Checking Bool :=
  target.handlers.allM fun (guard, answer) =>
    source.handlers.anyM fun (otherGuard, otherAnswer) => do
      if ← check otherGuard guard then check answer otherAnswer else return false

/-- Whether a type fits the fields of the only field, where these may be given for it. -/
def insideMatch (t : TypeTable) (fields : List Field) (source : TypeId) (unwraps : Bool) :
    Checking Bool := do
  if unwraps then
    if let [only] := fields then
      if let some inner := t.fields? only.type then
        return ← fieldsMatchFrom check inner [] (offeredFields t source)
  return false

theorem handlersMatch_eq (target source : Descriptor) : handlersMatch check target source = (do
    if ← symbolsMatch check target source then guardsMatch check target source
    else return false) := by
  simp only [handlersMatch]
  congr 1
  funext verdict
  cases verdict <;> rfl

theorem compoundMatch_eq (t : TypeTable) (fields : List Field) (source : TypeId) :
    compoundMatch t check fields source = (do
      if ← fieldsMatchFrom check fields [] (offeredFields t source) then return true
      else insideMatch check t fields source (← get).unwrapsSingleField) :=
  rfl

end Checking

private theorem symbolsMatch_judges (hclosed : t.Closed)
    (hcheck : JudgesPairs t unwraps demands check holds must) {target source : TypeId} :
    Judges t unwraps demands (symbolsMatch check (t.get target) (t.get source))
      (fun c => ∀ wanted ∈ (t.get target).symbols, ∃ offered,
        t.answer? source wanted.1 = some offered ∧ holds wanted.2 offered c)
      (∀ wanted ∈ (t.get target).symbols, ∃ offered,
        t.answer? source wanted.1 = some offered ∧ must wanted.2 offered) := by
  refine judges_allM (fun wanted hw => ?_) fun wanted _ c c' hgrows => ?_
  · simp only [TypeTable.answer?]
    cases hlookup : (t.get source).symbols.lookup wanted.1 with
    | none => exact judges_pure (fun hv => by cases hv) (by simp)
    | some offered =>
      refine ((hcheck wanted.2 offered).2 ?_ ?_).imp (by simp) (by simp)
      · exact hclosed.component_lt (TypeTable.answer_mem_components hw)
      · exact hclosed.component_lt (TypeTable.answer?_mem_components hlookup)
  · rintro ⟨offered, hanswer, h⟩
    exact ⟨offered, hanswer, (hcheck _ _).1 c c' hgrows h⟩

private theorem guardsMatch_judges (hclosed : t.Closed)
    (hcheck : JudgesPairs t unwraps demands check holds must) {target source : TypeId} :
    Judges t unwraps demands (guardsMatch check (t.get target) (t.get source))
      (fun c => ∀ wanted ∈ (t.get target).handlers, ∃ offered ∈ (t.get source).handlers,
        holds offered.1 wanted.1 c ∧ holds wanted.2 offered.2 c)
      (∀ wanted ∈ (t.get target).handlers, ∃ offered ∈ (t.get source).handlers,
        must offered.1 wanted.1 ∧ must wanted.2 offered.2) := by
  refine judges_allM (fun wanted hw => judges_anyM fun offered ho => ?_)
    fun wanted _ c c' hgrows => ?_
  · have hwanted := TypeTable.handler_mem_components hw
    have hoffered := TypeTable.handler_mem_components ho
    exact ((hcheck offered.1 wanted.1).2 (hclosed.component_lt hoffered.1)
      (hclosed.component_lt hwanted.1)).and
      ((hcheck wanted.2 offered.2).2 (hclosed.component_lt hwanted.2)
        (hclosed.component_lt hoffered.2)) (hcheck _ _).1
  · rintro ⟨offered, ho, hguard, hanswer⟩
    exact ⟨offered, ho, (hcheck _ _).1 c c' hgrows hguard, (hcheck _ _).1 c c' hgrows hanswer⟩

theorem handlersMatch_judges (hclosed : t.Closed)
    (hcheck : JudgesPairs t unwraps demands check holds must) {target source : TypeId}
    (hshape : (t.get target).shape = .simple) :
    Judges t unwraps demands (handlersMatch check (t.get target) (t.get source))
      (fun c => t.HandlersFit (fun a b => holds a b c) target source)
      (t.HandlersFit must target source) := by
  have hlasts : Lasts t fun c => ∀ wanted ∈ (t.get target).symbols, ∃ offered,
      t.answer? source wanted.1 = some offered ∧ holds wanted.2 offered c := by
    intro c c' hgrows h wanted hw
    obtain ⟨offered, hanswer, h⟩ := h wanted hw
    exact ⟨offered, hanswer, (hcheck _ _).1 c c' hgrows h⟩
  rw [handlersMatch_eq]
  exact ((symbolsMatch_judges hclosed hcheck).and (guardsMatch_judges hclosed hcheck) hlasts).imp
    (fun c _ h => ⟨hshape, h⟩) fun hm => hm.2

theorem offeredFields_lt (hclosed : t.Closed) {source : TypeId} (hsource : source.index < t.size)
    {f : Field} (hf : f ∈ offeredFields t source) : f.type.index < t.size :=
  TypeTable.offered_of_closed (P := fun id => id.index < t.size)
    (fun _ _ _ => hclosed.component_lt) hsource hf

theorem compoundMatch_judges (hclosed : t.Closed)
    (hcheck : JudgesPairs t unwraps demands check holds must) {target source : TypeId}
    {fields : List Field} (hfields : t.fields? target = some fields)
    (hsource : source.index < t.size) :
    Judges t unwraps demands (compoundMatch t check fields source)
      (fun c => t.CompoundFits unwraps (fun a b => holds a b c) target source)
      (t.CompoundFits unwraps must target source) := by
  have hoffered : ∀ f ∈ offeredFields t source, f.type.index < t.size :=
    fun f => offeredFields_lt hclosed hsource
  have hmatch : ∀ {id : TypeId} {fields : List Field}, t.fields? id = some fields →
      Judges t unwraps demands (fieldsMatchFrom check fields [] (offeredFields t source))
        (fun c => FieldsFit (fun a b => holds a b c) fields (offeredFields t source))
        (FieldsFit must fields (offeredFields t source)) := by
    intro id fields hf
    simp only [fieldsFit_iff]
    exact fieldsMatchFrom_judges hcheck
      (fun f hmem => hclosed.component_lt (TypeTable.field_mem_components hf hmem)) hoffered []
  have hinside : Judges t unwraps demands (insideMatch check t fields source unwraps)
      (fun c => unwraps = true ∧ ∃ only inner, fields = [only] ∧ t.fields? only.type = some inner ∧
        FieldsFit (fun a b => holds a b c) inner (offeredFields t source))
      (unwraps = true ∧ ∃ only inner, fields = [only] ∧ t.fields? only.type = some inner ∧
        FieldsFit must inner (offeredFields t source)) := by
    cases unwraps with
    | false => exact judges_no (by simp)
    | true =>
      rcases fields with _ | ⟨only, _ | ⟨second, rest⟩⟩
      · exact judges_no (by simp)
      · cases hf : t.fields? only.type with
        | none =>
          simp only [insideMatch, if_true, hf]
          exact judges_no (by simp [hf])
        | some inside =>
          simp only [insideMatch, if_true, hf]
          exact (hmatch hf).imp (fun c _ h => ⟨trivial, only, inside, rfl, hf, h⟩) (by simp [hf])
      · exact judges_no (by simp)
  rw [compoundMatch_eq]
  refine ((hmatch hfields).or (judges_setting hinside)).imp (fun c _ h => ⟨fields, hfields, h⟩) ?_
  rintro ⟨_, hf, h⟩
  rw [hfields] at hf
  cases hf
  exact h

end

end MessageLang
