import MessageLang.Proofs.Typing.Collecting

namespace MessageLang.Typing

open Pass

/-- A way to find the types of nodes of a certain sort that only adds to what is collected. -/
def CompletesAll (P : NodeId → Prop) (compute : NodeId → Typing TypeId) : Prop :=
  ∀ p node, p.Valued P → P node → After (compute node) p fun _ p' => p.Completes P p'

section

variable {P : NodeId → Prop} {a : Arena} {options : TypingOptions}
  {compute : NodeId → Typing TypeId} {p q : Pass} {node : NodeId} {id : PlaceholderId}
  {name : String}

/-- Going on to find the type of another node. -/
theorem CompletesAll.after (h : CompletesAll P compute) (hp : p.Valued P) (hq : p.Completes P q)
    (hnode : P node) : After (compute node) q fun _ q' => p.Completes P q' :=
  (h q node (hq.valued hp) hnode).mono fun _ _ => hq.trans

theorem valueType_completes (hcompute : CompletesAll P compute) (hp : p.Valued P)
    {value : Option NodeId} (hvalue : ∀ v, value = some v → P v) {declared : Option TypeId} :
    After (valueType a compute value declared) p fun _ p' => p.Completes P p' := by
  cases value with
  | none => exact after_pure_iff.mpr (.refl p)
  | some v =>
    rw [valueType]
    refine (hcompute p v hp (hvalue v rfl)).bind fun found p₁ h₁ => ?_
    cases declared with
    | none => exact after_pure_iff.mpr h₁
    | some expected =>
      exact demand_completes P (by simp) fun p₂ h₂ => after_pure_iff.mpr (h₁.trans h₂)

theorem completes_opened (p : Pass) (id : PlaceholderId) : p.Completes P (p.opened id) :=
  .of_eq rfl rfl rfl rfl rfl (List.suffix_refl _) fun _ => rfl

theorem completes_marked (a : Arena) (node : NodeId) (name : String) (p : Pass)
    (id : PlaceholderId) : p.Completes P (marked a node name p id) := by
  have hmarked : p.Completes P (p.updatePlaceholder id ({ · with result := some .anything })) :=
    .update fun _ => rfl
  exact { hmarked with log := ⟨_, p.log.toList_report a node _⟩ }

theorem completes_closed (p q : Pass) (id : PlaceholderId) (type : TypeId) :
    q.Completes P (closed p q id type) := by
  have hfound : q.Completes P (q.updatePlaceholder id ({ · with result := some type })) :=
    .update fun _ => rfl
  exact hfound.trans (.of_eq rfl rfl rfl rfl rfl (List.suffix_refl _) fun _ => rfl)

theorem after_report_iff {problem : Problem} {post : Unit → Pass → Prop} :
    After (report a node problem) p post ↔
      post () { p with space := { p.space with log := p.log.report a node problem } } := by
  refine ⟨fun h => h _ _ rfl, fun h _ _ hrun => ?_⟩
  cases hrun
  exact h

/-- Finding the type of a local takes one attempt, or a second one in place of the first. -/
theorem after_resolveNow_iff {post : TypeId → Pass → Prop} :
    After (resolveNow a compute id) p post ↔
      After (valueType a compute (p.placeholder id).value (p.placeholder id).declared)
        (p.opened id) fun found q =>
          if ((q.placeholder id).cyclic && (p.placeholder id).declared.isNone) = true then
            After (valueType a compute (p.placeholder id).value none)
              (marked a (p.placeholder id).definition (p.placeholder id).name (takenBack p q) id)
              fun _ q' => post .anything (closed p q' id .anything)
          else post found (closed p q id found) := by
  rw [resolveNow]
  simp only [after_bind_iff, after_get_iff, after_modify_iff]
  refine forall₃_congr fun found q _ => ?_
  cases hcyclic : (q.placeholder id).cyclic && (p.placeholder id).declared.isNone with
  | true =>
    simp only [hcyclic, if_true, after_bind_iff, takeBack_eq, after_modify_iff, after_report_iff,
      after_pure_iff]
    rfl
  | false =>
    simp only [hcyclic, Bool.false_eq_true, if_false, after_bind_iff, after_modify_iff,
      after_pure_iff]
    rfl

/-- A first attempt that is taken back adds nothing, and the second one only adds. -/
theorem resolveNow_completes (hcompute : CompletesAll P compute) (hp : p.Valued P) :
    After (resolveNow a compute id) p fun _ p' => p.Completes P p' := by
  have hopened := completes_opened (P := P) p id
  rw [after_resolveNow_iff]
  refine (valueType_completes hcompute (hopened.valued hp) (hp id)).mono fun found q hq => ?_
  have hq := hopened.trans hq
  split
  · have hmarked := hq.takenBack.trans (completes_marked a
      (p.placeholder id).definition (p.placeholder id).name (takenBack p q) id)
    refine (valueType_completes hcompute (hmarked.valued hp) (hp id)).mono fun _ q' h' => ?_
    exact (hmarked.trans h').trans (completes_closed p q' id .anything)
  · exact hq.trans (completes_closed p q id found)

theorem resolve_completes (hcompute : CompletesAll P compute) (hp : p.Valued P) :
    After (resolve a compute id) p fun _ p' => p.Completes P p' := by
  simp only [resolve, after_bind_iff, after_get_iff]
  split
  · exact after_pure_iff.mpr (.refl p)
  · split
    · split
      · exact after_pure_iff.mpr (.refl p)
      · rw [after_bind_iff, after_modify_iff, after_pure_iff]
        exact .update fun _ => rfl
    · exact resolveNow_completes hcompute hp

theorem meaningType_completes (hcompute : CompletesAll P compute) (hp : p.Valued P)
    {meaning : Meaning} : After (meaningType a compute meaning) p fun _ p' => p.Completes P p' := by
  cases meaning with
  | known type => exact after_pure_iff.mpr (.refl p)
  | pending id => exact resolve_completes hcompute hp

end

section

variable {P : NodeId → Prop} {a : Arena} {options : TypingOptions}
  {compute : NodeId → Typing TypeId} {p q : Pass} {node : NodeId} {name : String}
  (hcompute : CompletesAll P compute) (hp : p.Valued P)

include hcompute hp

theorem reference_completes : After (reference a compute node name) p fun _ p' =>
    p.Completes P p' := by
  rw [reference, after_bind_iff, after_get_iff]
  split
  · exact meaningType_completes hcompute hp
  · exact (report_completes P (by simp)).bind fun _ p₁ h₁ => after_pure_iff.mpr h₁

/-- Going through nodes of that sort one after the other. -/
theorem mapM_completes {nodes : List NodeId} (hnodes : ∀ n ∈ nodes, P n) (hq : p.Completes P q) :
    After (nodes.mapM compute) q fun _ q' => p.Completes P q' :=
  after_mapM (fun _ _ q => p.Completes P q)
    (fun _ n hn _ _ h => hcompute.after hp h (hnodes n hn)) hq

variable (hparts : ∀ c ∈ a.expressions node, P c)

include hparts

theorem operand_completes : After (operand a compute node) p fun _ p' => p.Completes P p' := by
  rw [operand]
  split
  · next first rest hfirst => exact hcompute p first hp (hparts first (by simp [hfirst]))
  · exact after_pure_iff.mpr (.refl p)

theorem assignment_completes : After (assignment a compute node name) p fun _ p' =>
    p.Completes P p' := by
  rw [assignment, after_bind_iff]
  refine (operand_completes hcompute hp hparts).mono fun value p₁ h₁ => ?_
  rw [after_bind_iff, after_get_iff]
  split
  · exact (report_completes P (by simp)).bind fun _ p₂ h₂ => after_pure_iff.mpr (h₁.trans h₂)
  · next found _ =>
    rw [after_bind_iff]
    refine (meaningType_completes hcompute (h₁.valued hp)).mono fun target p₂ h₂ => ?_
    have h₂ := h₁.trans h₂
    split
    · exact (report_completes P (by simp)).bind fun _ p₃ h₃ => after_pure_iff.mpr (h₂.trans h₃)
    · exact demand_completes P (by simp) fun p₃ h₃ => after_pure_iff.mpr (h₂.trans h₃)

theorem array_completes : After (array a compute node) p fun _ p' => p.Completes P p' := by
  rw [array, after_bind_iff]
  refine (mapM_completes hcompute hp hparts (.refl p)).mono fun items p₁ h₁ => ?_
  dsimp only
  split
  · rw [pure_bind]
    exact (tabling_completes P).mono fun _ p₂ h₂ => h₁.trans h₂
  · refine (tabling_completes P).bind fun item p₂ h₂ => ?_
    exact (tabling_completes P).mono fun _ p₃ h₃ => h₁.trans (h₂.trans h₃)

omit hparts in
theorem fieldsFrom_completes {nodes : List NodeId} (hnodes : ∀ n ∈ nodes, P n)
    (hq : p.Completes P q) (position : Nat) :
    After (fieldsFrom a compute position nodes) q fun _ q' => p.Completes P q' := by
  induction nodes generalizing q position with
  | nil => exact after_pure_iff.mpr hq
  | cons n rest ih =>
    obtain ⟨hn, hrest⟩ := List.forall_mem_cons.mp hnodes
    simp only [fieldsFrom, after_bind_iff]
    refine (hcompute.after hp hq hn).mono fun type q₁ h₁ => ?_
    exact (ih hrest h₁ (position + 1)).mono fun fields q₂ h₂ => after_pure_iff.mpr h₂

theorem struct_completes : After (struct a compute node) p fun _ p' => p.Completes P p' := by
  rw [struct, after_bind_iff]
  refine (fieldsFrom_completes hcompute hp hparts (.refl p) 0).mono fun fields p₁ h₁ => ?_
  exact (tabling_completes P).mono fun _ p₂ h₂ => h₁.trans h₂

theorem newObject_completes : After (newObject a compute node) p fun _ p' => p.Completes P p' := by
  rw [newObject]
  split
  · exact after_pure_iff.mpr (.refl p)
  · next code rest hcode =>
    rw [after_bind_iff]
    refine (hcompute p code hp (hparts code (by simp [hcode]))).mono fun _ p₁ h₁ => ?_
    split
    · exact after_pure_iff.mpr h₁
    · refine (tabling_completes P).bind fun object p₂ h₂ => ?_
      rw [after_bind_iff]
      refine After.mono (after_forIn (fun _ q => p.Completes P q) ?_ (h₁.trans h₂))
        fun _ p₃ h₃ => after_pure_iff.mpr h₃
      intro _ handler _ p₃ h₃
      simp only [after_bind_iff, after_get_iff]
      split
      · exact after_pure_iff.mpr ⟨rfl, h₃⟩
      · rw [after_bind_iff]
        refine After.mono (after_forIn (fun _ q => p.Completes P q) ?_ h₃)
          fun _ p₄ h₄ => after_pure_iff.mpr ⟨rfl, h₄⟩
        intro _ entry _ p₄ h₄
        rw [after_bind_iff]
        exact (tabling_completes P).mono fun _ p₅ h₅ => after_pure_iff.mpr ⟨rfl, h₄.trans h₅⟩

theorem call_completes : After (call a compute node) p fun _ p' => p.Completes P p' := by
  rw [call]
  split
  · next receiver message hcall =>
    rw [after_bind_iff]
    refine (hcompute p receiver hp (hparts receiver (by simp [hcall]))).mono fun _ p₁ h₁ => ?_
    rw [after_bind_iff]
    refine (hcompute.after hp h₁ (hparts message (by simp [hcall]))).mono fun _ p₂ h₂ => ?_
    exact (answer_completes P).mono fun _ p₃ h₃ => h₂.trans h₃
  · exact after_pure_iff.mpr (.refl p)

theorem logic_completes (op : LogicOp) : After (logic a compute node op) p fun _ p' =>
    p.Completes P p' := by
  rw [logic, after_bind_iff]
  refine After.mono (after_forIn (fun _ q => p.Completes P q) ?_ (.refl p))
    fun _ p₁ h₁ => after_pure_iff.mpr h₁
  intro _ n hn q hq
  rw [after_bind_iff]
  refine (hcompute.after hp hq (hparts n hn)).mono fun type q₁ h₁ => ?_
  exact demand_completes P (by simp) fun q₂ h₂ => after_pure_iff.mpr ⟨rfl, h₁.trans h₂⟩

theorem conditional_completes : After (conditional a compute node) p fun _ p' =>
    p.Completes P p' := by
  rw [conditional]
  split
  · exact after_pure_iff.mpr (.refl p)
  · next condition branches hall =>
    rw [hall] at hparts
    obtain ⟨hcondition, hbranches⟩ := List.forall_mem_cons.mp hparts
    rw [after_bind_iff]
    refine (hcompute p condition hp hcondition).mono fun type p₁ h₁ => ?_
    refine demand_completes P (by simp) fun p₂ h₂ => ?_
    rw [after_bind_iff]
    refine (mapM_completes hcompute hp hbranches (h₁.trans h₂)).mono fun types p₃ h₃ => ?_
    exact (tabling_completes P).mono fun _ p₄ h₄ => h₃.trans h₄

/-- The breaks of a loop are its own. -/
theorem repeatLoop_completes : After (repeatLoop a compute node) p fun _ p' =>
    p.Completes P p' := by
  simp only [repeatLoop, after_bind_iff, after_get_iff, after_modify_iff]
  have hinner : Pass.Valued P { p with escapes := p.escapes, breaks := [] } := hp
  refine (operand_completes hcompute hinner hparts).mono fun _ p₁ h₁ => ?_
  have hleft : p.Completes P { p₁ with breaks := p.breaks } :=
    { h₁ with breaks := List.prefix_refl _ }
  split
  · exact after_pure_iff.mpr hleft
  · exact (tabling_completes P).mono fun _ p₂ h₂ => hleft.trans h₂

theorem returnExit_completes : After (returnExit a compute node) p fun _ p' =>
    p.Completes P p' := by
  rw [returnExit, after_bind_iff]
  refine (operand_completes hcompute hp hparts).mono fun type p₁ h₁ => ?_
  rw [after_bind_iff, after_modify_iff, after_pure_iff]
  exact { h₁ with escapes := h₁.escapes.trans (List.prefix_append _ _) }

theorem breakExit_completes : After (breakExit a compute node) p fun _ p' =>
    p.Completes P p' := by
  rw [breakExit, after_bind_iff]
  refine (operand_completes hcompute hp hparts).mono fun type p₁ h₁ => ?_
  rw [after_bind_iff, after_modify_iff, after_pure_iff]
  exact { h₁ with breaks := h₁.breaks.trans (List.prefix_append _ _) }

/-- The exits of a handler are its own. -/
theorem handlerExits_completes : After (handlerExits a compute node) p fun _ p' =>
    p.Completes P p' := by
  simp only [handlerExits_eq, after_bind_iff, after_get_iff, after_modify_iff]
  have hinner : Pass.Valued P { p with escapes := [], breaks := [] } := hp
  refine (operand_completes hcompute hinner hparts).mono fun value p₁ h₁ => ?_
  simp only [collectExits, after_bind_iff, after_get_iff, after_modify_iff, after_pure_iff]
  exact h₁.aside

theorem handlerBody_completes (hq : p.Completes P q)
    (hscope : p.space.scopes.size ≤ q.typeScope.index) (input : TypeId) :
    After (handlerBody a compute node input) q fun _ q' => p.Completes P q' := by
  simp only [handlerBody, after_bind_iff, after_get_iff]
  refine (readOption_completes hq hscope).mono ?_
  rintro declared q₁ ⟨h₁, -⟩
  refine After.mono (after_forIn (fun _ q' => p.Completes P q') ?_ h₁) fun _ q₂ h₂ => ?_
  · intro _ f _ q' hq'
    rw [addTerm, after_bind_iff, after_modify_iff, after_pure_iff]
    exact ⟨rfl, hq'.trans (.of_eq rfl rfl rfl rfl rfl (List.suffix_refl _) fun _ => rfl)⟩
  · refine (handlerExits_completes hcompute (h₂.valued hp) hparts).mono fun exits q₃ h₃ => ?_
    exact (handlerResult_completes P).mono fun result q₄ h₄ =>
      after_pure_iff.mpr (h₂.trans (h₃.trans h₄))

theorem handler_completes : After (handler a compute node) p fun _ p' => p.Completes P p' := by
  have hpushed := Completes.pushed (P := P) p
  have hscope : p.space.scopes.size ≤ p.pushed.typeScope.index := le_rfl
  have hinput : After (handlerInput a node) p.pushed fun _ q =>
      p.Completes P q ∧ q.typeScope = p.pushed.typeScope := by
    rw [handlerInput]
    split
    · exact readType_completes hpushed hscope
    · exact after_pure_iff.mpr ⟨hpushed, rfl⟩
  rw [handler_eq, after_bind_iff, after_inNewScope_iff, after_bind_iff]
  refine hinput.mono ?_
  rintro input q ⟨hq, htypeScope⟩
  refine (handlerBody_completes hcompute hp hparts hq (htypeScope ▸ hscope) input).mono
    fun sides q₁ h₁ => ?_
  have hback : p.Completes P { q₁ with scope := p.scope, typeScope := p.typeScope } :=
    h₁.trans (.of_eq rfl rfl rfl rfl rfl (List.suffix_refl _) fun _ => rfl)
  exact (tabling_completes P).mono fun _ q₂ h₂ => hback.trans h₂

end

section

variable {P : NodeId → Prop} {a : Arena} {options : TypingOptions}
  {compute : NodeId → Typing TypeId} {p q : Pass} {node group definition : NodeId}

/-- A new local is known from then on, with its value. -/
theorem completes_withPlaceholder (h : p.Completes P q) {e : Placeholder}
    (he : ∀ v, e.value = some v → P v) {ofLocal : List (NodeId × PlaceholderId)}
    {terms : Scopes Variable} :
    p.Completes P { q with placeholders := q.placeholders.push e, ofLocal, terms } where
  valued hp id v hv := by
    rcases Nat.lt_trichotomy id.index q.placeholders.size with hlt | heq | hgt
    · refine h.valued hp id v ?_
      simpa [Pass.placeholder, Array.getD_eq_getD_getElem?, Array.getElem?_push,
        Nat.ne_of_lt hlt] using hv
    · refine he v ?_
      simpa [Pass.placeholder, Array.getD_eq_getD_getElem?, heq] using hv
    · rw [placeholder_of_le ((Array.size_push _).trans_le hgt)] at hv
      cases hv
  log := h.log
  escapes := h.escapes
  breaks := h.breaks
  coercions := h.coercions
  checker := h.checker
  scopes_le := h.scopes_le
  frame_eq := h.frame_eq
  conflicts := h.conflicts

theorem declareLocal_completes (hvalue : ∀ v ∈ a.expressions definition, P v)
    (hq : p.Completes P q) (hscope : p.space.scopes.size ≤ q.typeScope.index) :
    After (declareLocal a definition) q fun _ q' =>
      p.Completes P q' ∧ q'.typeScope = q.typeScope := by
  rw [declareLocal]
  split
  · next name mutable _ =>
    have hdeclared : After ((a.types definition).head?.mapM (readType a)) q fun _ q' =>
        p.Completes P q' ∧ q'.typeScope = q.typeScope := readOption_completes hq hscope
    refine hdeclared.bind ?_
    rintro declared q₁ ⟨h₁, htypeScope⟩
    simp only [after_bind_iff, after_get_iff, after_set_iff, addTerm, after_modify_iff]
    exact ⟨completes_withPlaceholder h₁ fun v hv => hvalue v (List.mem_of_mem_head? hv), htypeScope⟩
  · exact after_pure_iff.mpr ⟨hq, rfl⟩

theorem declareLocals_completes
    (hvalue : ∀ d ∈ a.expressions group, ∀ v ∈ a.expressions d, P v) (hq : p.Completes P q)
    (hscope : p.space.scopes.size ≤ q.typeScope.index) :
    After (declareLocals a group) q fun _ q' =>
      p.Completes P q' ∧ q'.typeScope = q.typeScope := by
  refine after_forM (fun _ q' => p.Completes P q' ∧ q'.typeScope = q.typeScope) ?_ ⟨hq, rfl⟩
  rintro _ d hd q₁ ⟨h₁, htypeScope⟩
  refine (declareLocal_completes (hvalue d hd) h₁ (htypeScope ▸ hscope)).mono ?_
  exact fun _ q₂ h₂ => ⟨h₂.1, h₂.2.trans htypeScope⟩

variable (ha : a.Orderly P) (hcompute : CompletesAll P compute) (hp : p.Valued P)

include hcompute hp

theorem defineLocals_completes (hq : p.Completes P q) :
    After (defineLocals a compute group) q fun _ q' => p.Completes P q' := by
  refine after_forM (fun _ q' => p.Completes P q') ?_ hq
  intro _ d _ q₁ h₁
  rw [after_bind_iff, after_get_iff]
  split
  · rw [after_bind_iff]
    refine (resolve_completes hcompute (h₁.valued hp)).mono fun type q₂ h₂ => ?_
    rw [setType, after_modify_iff]
    exact (h₁.trans h₂).trans (.noted d type)
  · exact after_pure_iff.mpr h₁

include ha

omit ha hcompute hp in
theorem reportUnreachable_completes (hq : p.Completes P q) (reach : Reach) (item : NodeId) :
    After (reportUnreachable a options reach item) q fun _ q' => p.Completes P q' := by
  rw [reportUnreachable]
  split
  · exact (report_completes P (by simp)).mono fun _ q₁ h₁ => hq.trans h₁
  · exact after_pure_iff.mpr hq

theorem typeItem_completes (hnode : P node) {item : NodeId} (hitem : item ∈ a.expressions node)
    (hq : p.Completes P q) :
    After (typeItem a compute item) q fun _ q' => p.Completes P q' := by
  rw [typeItem]
  split
  · simp only [after_bind_iff, setType, after_modify_iff, after_pure_iff]
    exact (defineLocals_completes hcompute hp hq).mono fun _ q₁ h₁ => h₁.trans (.noted item .nothing)
  · next hgroup => exact hcompute.after hp hq (ha.part node hnode item hitem hgroup)

theorem itemsFrom_completes (hnode : P node) {items : List NodeId}
    (hitems : ∀ n ∈ items, n ∈ a.expressions node) (hq : p.Completes P q) (reach : Reach)
    (last : TypeId) :
    After (itemsFrom a options compute reach last items) q fun _ q' => p.Completes P q' := by
  induction items generalizing q reach last with
  | nil => exact after_pure_iff.mpr hq
  | cons item rest ih =>
    obtain ⟨hitem, hrest⟩ := List.forall_mem_cons.mp hitems
    simp only [itemsFrom_cons, after_bind_iff]
    refine (reportUnreachable_completes hq reach item).mono fun _ q₁ h₁ => ?_
    exact (typeItem_completes ha hcompute hp hnode hitem h₁).mono fun type q₂ h₂ => ih hrest h₂ _ type

/-- The locals of a block are declared in a frame of their own. -/
theorem block_completes (hnode : P node) :
    After (block a options compute node) p fun _ p' => p.Completes P p' := by
  rw [block, after_inNewScope_iff]
  simp only [after_bind_iff]
  have hscope : p.space.scopes.size ≤ p.pushed.typeScope.index := le_rfl
  refine After.mono (after_forIn (fun _ q => p.Completes P q ∧
    q.typeScope = p.pushed.typeScope) ?_ ⟨.pushed p, rfl⟩) ?_
  · rintro _ item hitem q ⟨hq, htypeScope⟩
    split
    · next hgroup =>
      rw [after_bind_iff]
      refine (declareLocals_completes (ha.value node hnode item hitem hgroup) hq
        (htypeScope ▸ hscope)).mono fun _ q₁ h₁ => ?_
      exact after_pure_iff.mpr ⟨rfl, h₁.1, h₁.2.trans htypeScope⟩
    · exact after_pure_iff.mpr ⟨rfl, hq, htypeScope⟩
  · rintro _ q ⟨hq, -⟩
    refine (itemsFrom_completes ha hcompute hp hnode (fun _ h => h) hq _ _).mono fun _ q₁ h₁ => ?_
    exact h₁.trans (.of_eq rfl rfl rfl rfl rfl (List.suffix_refl _) fun _ => rfl)

/-- Every rule only adds to what is collected. -/
theorem ofForm_completes (hnode : P node) {form : ExprForm} (hform : a.expr? node = some form) :
    After (ofForm a options compute node form) p fun _ p' => p.Completes P p' := by
  have hparts : form ≠ .block → ∀ c ∈ a.expressions node, P c := fun hne c hc =>
    ha.part node hnode c hc fun hgroup =>
      hne (Option.some.inj (hform.symm.trans (ha.block node hnode c hc hgroup)))
  cases form with
  | constant c => exact after_pure_iff.mpr (.refl p)
  | reference name => exact reference_completes hcompute hp
  | array => exact array_completes hcompute hp (hparts nofun)
  | struct => exact struct_completes hcompute hp (hparts nofun)
  | structField _ | nested | localDef => exact operand_completes hcompute hp (hparts nofun)
  | newObject => exact newObject_completes hcompute hp (hparts nofun)
  | call => exact call_completes hcompute hp (hparts nofun)
  | logic op => exact logic_completes hcompute hp (hparts nofun) op
  | conditional => exact conditional_completes hcompute hp (hparts nofun)
  | repeatLoop => exact repeatLoop_completes hcompute hp (hparts nofun)
  | assignment name => exact assignment_completes hcompute hp (hparts nofun)
  | returnExit => exact returnExit_completes hcompute hp (hparts nofun)
  | breakExit => exact breakExit_completes hcompute hp (hparts nofun)
  | locals => exact absurd hform (ha.not_group node hnode)
  | handler => exact handler_completes hcompute hp (hparts nofun)
  | block => exact block_completes ha hcompute hp hnode
  | function | unary | binary | whileLoop => exact after_pure_iff.mpr (.refl p)

end

/-- Typing a node only adds to what is collected, as long as groups of locals stand in blocks. -/
theorem computeWithin_completes {P : NodeId → Prop} {a : Arena} (ha : a.Orderly P)
    (options : TypingOptions) (steps : Nat) : CompletesAll P (computeWithin a options steps) := by
  induction steps with
  | zero => exact fun _ _ _ _ => after_throw
  | succ steps ih =>
    intro p node hp hnode
    have hnoted : ∀ (type : TypeId) p₁, p.Completes P p₁ →
        After (noted node type) p₁ fun _ p' => p.Completes P p' := by
      intro type p₁ h₁
      rw [noted, after_bind_iff, setType, after_modify_iff, after_pure_iff]
      exact h₁.trans (.noted node type)
    rw [computeWithin_succ]
    split
    · next form hform => exact (ofForm_completes ha ih hp hnode hform).bind hnoted
    · exact hnoted .anything p (.refl p)

end MessageLang.Typing
