import MessageLang.Proofs.Typing.Covering
import MessageLang.Proofs.Typing.Whole

namespace MessageLang

namespace Pass

/-- A local has a placeholder that is newer than those of all locals that are being found. -/
def Ahead (p : Pass) (D : Tree) : Prop :=
  ∃ id, p.current? D = some id ∧ ∀ other ∈ p.resolving, other.index < id.index

section

variable {R D E : Tree} {p p' : Pass} {path : List Tree} {name : String} {mutable : Bool}
  {declared : Option TypeId}

theorem Ahead.onward (h : p.Ahead D) (hp : p.Rested R) (h' : p.Onward p') : p'.Ahead D := by
  rw [Ahead, h'.resolving_eq]
  rcases h'.current D with heq | ⟨id, hid, hle⟩
  · rw [heq]
    exact h
  · exact ⟨id, hid, fun other hother => (hp.resolving_lt other hother).trans_le hle⟩

theorem Rested.withLocal (h : p.Rested R) (hD : R.Within path D) (hnodup : R.ids.Nodup)
    (hvalue : ∀ V ∈ D.expressions.head?, ∃ path, R.Within path V) (name : String) (mutable : Bool)
    (declared : Option TypeId) : p.Supplies R [] (p.withLocal D name mutable declared) ∧
      (p.withLocal D name mutable declared).Ahead D := by
  have hself : (p.withLocal D name mutable declared).placeholder ⟨p.placeholders.size⟩ = _ :=
    placeholder_withLocal_self
  have hsize : (p.withLocal D name mutable declared).placeholders.size = p.placeholders.size + 1 :=
    size_placeholders_withLocal
  -- every placeholder is as it was or the new one
  have hcases : ∀ id, (p.withLocal D name mutable declared).placeholder id = p.placeholder id ∨
      id = ⟨p.placeholders.size⟩ := by
    intro id
    rcases Nat.lt_trichotomy id.index p.placeholders.size with hlt | heq | hgt
    · exact .inl (placeholder_withLocal_of_lt hlt)
    · exact .inr (congrArg PlaceholderId.mk heq)
    · refine .inl ?_
      rw [placeholder_of_le hgt.le, placeholder_of_le (hsize.trans_le hgt)]
  have hcurrent : (p.withLocal D name mutable declared).current? D = some ⟨p.placeholders.size⟩ :=
    current?_withLocal_self
  refine ⟨⟨⟨fun _ h => h, rfl, hsize ▸ Nat.le_succ _, fun id hid => ?_, fun E => ?_⟩,
    ⟨fun id hid => ?_, ?_, fun id v => ?_, fun path' E id hE hid => ?_, fun id hfound => ?_⟩,
    fun _ h => nomatch h⟩, _, hcurrent, h.resolving_lt⟩
  · rw [placeholder_withLocal_of_lt hid]
  · by_cases hne : E.id = D.id
    · refine .inr ⟨_, ?_, Nat.le_refl _⟩
      rw [current?, hne]
      exact hcurrent
    · exact .inl (current?_withLocal_of_ne hne)
  · rw [hsize]
    exact Nat.lt_succ_of_lt (h.resolving_lt id hid)
  · refine Scopes.All.add (h.pending_lt.mono fun _ hv id hid => ?_) _ _ fun id hid => ?_
    · rw [hsize]
      exact Nat.lt_succ_of_lt (hv id hid)
    · cases hid
      rw [hsize]
      exact Nat.lt_succ_self _
  · rcases hcases id with heq | rfl
    · rw [heq]
      exact h.value id v
    · rw [hself]
      intro hv
      obtain ⟨V, hV, rfl⟩ := Option.map_eq_some_iff.mp hv
      obtain ⟨path', hwithin⟩ := hvalue V hV
      exact ⟨path', V, hwithin, rfl⟩
  · by_cases hne : E.id = D.id
    · obtain rfl := (hE.unique hD hnodup hne).2
      cases hcurrent.symm.trans hid
      rw [hself, hsize]
      exact ⟨Nat.lt_succ_self _, rfl⟩
    · rw [current?_withLocal_of_ne hne] at hid
      obtain ⟨hlt, hvalue⟩ := h.current path' E id hE hid
      rw [placeholder_withLocal_of_lt hlt, hsize]
      exact ⟨Nat.lt_succ_of_lt hlt, hvalue⟩
  · rcases hcases id with heq | rfl
    · rw [heq] at hfound
      intro path' V hV hV'
      rw [heq] at hV'
      exact h.found id hfound path' V hV hV'
    · rw [hself] at hfound
      cases hfound

end

end Pass

namespace Typing

open Pass

variable {a : Arena} {options : TypingOptions} {R N D G V : Tree} {p q : Pass} {path : List Tree}
  {compute : NodeId → Typing TypeId}

theorem after_inNewScope_iff {α : Type} {step : Typing α} {post : α → Pass → Prop} :
    After (inNewScope step) p post ↔ After step p.pushed fun result p' =>
      post result { p' with scope := p.scope, typeScope := p.typeScope } := by
  simp only [inNewScope, after_bind_iff, after_get_iff, after_modify_iff, after_pure_iff]
  rfl

theorem readOption_idle {node? : Option NodeId} :
    After (node?.mapM (readType a)) p fun _ p' => p.Idle p' := by
  cases node? with
  | none => exact after_pure_iff.mpr (.refl p)
  | some node =>
    rw [Option.mapM_some, after_map_iff]
    exact readType_idle

/-- What the rules go by: a tree in the core language, and a way to find the types of what is in an
expression of it. -/
structure Supplying (a : Arena) (R : Tree) (compute : NodeId → Typing TypeId) (path : List Tree)
    (N : Tree) (p : Pass) : Prop where
  lowered : a.Lowered R
  computes : SuppliesAll R compute
  within : R.Within path N
  rested : p.Rested R

namespace Supplying

variable (h : Supplying a R compute path N p)
include h

theorem expressions_eq : a.expressions N.id = N.expressions.map Tree.id :=
  h.lowered.expressions_eq h.within

theorem admits {form : ExprForm} (hform : N.form = .expr form) :
    form.admits N.exprForms N.types.length = true :=
  Tree.laidOut_expr (h.within.laidOut h.lowered.laidOut) hform

/-- Going on where some parts have been typed. -/
theorem compute_part {done : List Tree} (hq : p.Supplies R done q) (hV : V ∈ N.expressions) :
    After (compute V.id) q fun _ q' => p.Supplies R (done ++ [V]) q' :=
  (h.computes q (N :: path) V hq.rested (h.within.child hV)).mono fun _ _ h' => hq.append h'

end Supplying

section

variable {path : List Tree}

/-- A new local is in its group. -/
theorem declareLocal_supplies (hR : a.Lowered R) (hG : R.Within path G) (hgroup : G.form = .expr .locals)
    (hD : D ∈ G.expressions) (hq : q.Rested R) :
    After (declareLocal a D.id) q fun _ q' => q.Supplies R [] q' ∧ q'.Ahead D := by
  have hwithin := hG.child hD
  obtain ⟨name, mutable, hform⟩ :=
    Tree.exists_form_eq_of_mem_group (hG.laidOut hR.laidOut) hgroup hD
  rw [declareLocal, (hR.expr?_eq_some_iff hwithin).mpr hform]
  dsimp only
  refine readOption_idle.bind fun declared q₁ h₁ => ?_
  rw [hR.expressions_eq hwithin, List.head?_map]
  simp only [after_bind_iff, after_get_iff, after_set_iff, addTerm, after_modify_iff]
  have hvalue : ∀ V ∈ D.expressions.head?, ∃ path, R.Within path V :=
    fun V hV => ⟨_, hwithin.child (List.mem_of_mem_head? hV)⟩
  obtain ⟨hsupplies, hahead⟩ :=
    (hq.idle h₁).withLocal hwithin hR.nodup hvalue name mutable declared
  exact ⟨h₁.supplies hsupplies, hahead⟩

theorem declareLocals_supplies (hR : a.Lowered R) (hG : R.Within path G)
    (hgroup : G.form = .expr .locals) (hq : q.Rested R) :
    After (declareLocals a G.id) q fun _ q' => q.Supplies R [] q' ∧ ∀ D ∈ G.expressions, q'.Ahead D := by
  have hforM : (a.expressions G.id).forM (declareLocal a) =
      G.expressions.forM fun D => declareLocal a D.id := by
    rw [hR.expressions_eq hG]
    exact List.forM_map
  rw [declareLocals, hforM]
  refine after_forM (fun done q' => q.Supplies R [] q' ∧ ∀ D ∈ done, q'.Ahead D) ?_
    ⟨hq.supplies, List.forall_mem_nil _⟩
  rintro done D hD q₁ ⟨h₁, hahead⟩
  refine (declareLocal_supplies hR hG hgroup hD h₁.rested).mono ?_
  rintro _ q₂ ⟨h₂, hnew⟩
  refine ⟨h₁.append h₂, List.forall_mem_append.mpr ⟨fun E hE => ?_, List.forall_mem_singleton.mpr hnew⟩⟩
  exact (hahead E hE).onward h₁.rested h₂.onward

/-- A local that is newer than those that are being found gets a type, and so does its value. -/
theorem defineLocal_supplies (hR : a.Lowered R) (hcompute : SuppliesAll R compute) (hG : R.Within path G)
    (hgroup : G.form = .expr .locals) (hD : D ∈ G.expressions) (hq : q.Rested R) (hahead : q.Ahead D) :
    After (defineLocal a compute D.id) q fun _ q' => q.Supplies R [D] q' := by
  have hwithin := hG.child hD
  obtain ⟨name, mutable, hform⟩ :=
    Tree.exists_form_eq_of_mem_group (hG.laidOut hR.laidOut) hgroup hD
  obtain ⟨V, hV⟩ := Tree.exists_expressions_eq_of_local (hwithin.laidOut hR.laidOut) hform
  obtain ⟨id, hid, hnewer⟩ := hahead
  obtain ⟨hlt, hvalue⟩ := hq.current _ D id hwithin hid
  have hnot : id ∉ q.resolving := fun hmem => Nat.lt_irrefl _ (hnewer id hmem)
  rw [current?] at hid
  simp only [defineLocal, after_bind_iff, after_get_iff, hid, setType, after_modify_iff]
  refine (resolve_supplies hcompute hR.nodup hq hlt).mono ?_
  rintro type q₁ ⟨hsupplies, htyped⟩
  have hparts : q.Supplies R D.expressions q₁ := by
    refine ⟨hsupplies.onward, hsupplies.rested, fun W hW => ?_⟩
    rw [hV, List.mem_singleton] at hW
    subst hW
    refine htyped hnot _ W (hwithin.child (hV ▸ List.mem_singleton_self W)) ?_
    rw [hsupplies.onward.value_eq id hlt, hvalue, hV]
    rfl
  exact hparts.noted type

theorem defineLocals_supplies (hR : a.Lowered R) (hcompute : SuppliesAll R compute) (hG : R.Within path G)
    (hgroup : G.form = .expr .locals) (hq : q.Rested R) (hahead : ∀ D ∈ G.expressions, q.Ahead D) :
    After (defineLocals a compute G.id) q fun _ q' => q.Supplies R G.expressions q' := by
  rw [defineLocals_eq, hR.expressions_eq hG, List.forM_eq_forM, List.forM_map]
  refine after_forM (fun done q' => q.Supplies R done q') ?_ hq.supplies
  intro done D hD q₁ h₁
  refine (defineLocal_supplies hR hcompute hG hgroup hD h₁.rested
    ((hahead D hD).onward hq h₁.onward)).mono fun _ q₂ h₂ => h₁.append h₂

end

section

variable {path : List Tree} (h : Supplying a R compute path N p)
include h

/-- Typing some parts of an expression one after the other. -/
theorem mapM_supplies {done trees : List Tree} (hsub : ∀ T ∈ trees, T ∈ N.expressions)
    (hq : p.Supplies R done q) :
    After ((trees.map Tree.id).mapM compute) q fun _ q' => p.Supplies R (done ++ trees) q' := by
  rw [List.mapM_map]
  refine after_mapM (fun more _ q => p.Supplies R (done ++ more) q) ?_ (by simpa using hq)
  intro more T hT _ q₁ h₁
  rw [← List.append_assoc]
  exact h.compute_part h₁ (hsub T hT)

theorem operand_supplies (hfew : N.expressions.length ≤ 1) :
    After (operand a compute N.id) p fun _ p' => p.Supplies R N.expressions p' := by
  rw [operand, h.expressions_eq]
  rcases hparts : N.expressions with _ | ⟨V, rest⟩
  · exact after_pure_iff.mpr h.rested.supplies
  · obtain rfl : rest = [] := by simpa [hparts] using hfew
    exact h.compute_part h.rested.supplies (by simp [hparts])

theorem meaning_supplies {meaning : Meaning} (hq : q.Rested R)
    (hlt : ∀ id, meaning = .pending id → id.index < q.placeholders.size) :
    After (meaningType a compute meaning) q fun _ q' => q.Supplies R [] q' := by
  cases meaning with
  | known type => exact after_pure_iff.mpr hq.supplies
  | pending id => exact (resolve_supplies h.computes h.lowered.nodup hq (hlt id rfl)).mono fun _ _ h => h.1

theorem reference_supplies (hnone : N.expressions = []) {name : String} :
    After (reference a compute N.id name) p fun _ p' => p.Supplies R N.expressions p' := by
  rw [hnone, reference, after_bind_iff, after_get_iff]
  split
  · next found hfound => exact meaning_supplies h h.rested (h.rested.pending_lt.get? hfound)
  · exact report_idle.bind fun _ p₁ h₁ => after_pure_iff.mpr (h.rested.supplies.idle h₁)

theorem assignment_supplies (hfew : N.expressions.length ≤ 1) {name : String} :
    After (assignment a compute N.id name) p fun _ p' => p.Supplies R N.expressions p' := by
  rw [assignment, after_bind_iff]
  refine (operand_supplies h hfew).mono fun value p₁ h₁ => ?_
  rw [after_bind_iff, after_get_iff]
  split
  · exact report_idle.bind fun _ p₂ h₂ => after_pure_iff.mpr (h₁.idle h₂)
  · next found hfound =>
    rw [after_bind_iff]
    refine (meaning_supplies h h₁.rested (h₁.rested.pending_lt.get? hfound)).mono fun target p₂ h₂ => ?_
    have h₁₂ := h₁.append h₂
    rw [List.append_nil] at h₁₂
    split
    · exact report_idle.bind fun _ p₃ h₃ => after_pure_iff.mpr (h₁₂.idle h₃)
    · exact demand_idle fun p₃ h₃ => after_pure_iff.mpr (h₁₂.idle h₃)

theorem array_supplies : After (array a compute N.id) p fun _ p' => p.Supplies R N.expressions p' := by
  rw [array, h.expressions_eq, after_bind_iff]
  refine (mapM_supplies h (fun _ hT => hT) h.rested.supplies).mono fun items p₁ h₁ => ?_
  dsimp only
  split
  · rw [pure_bind]
    exact tabling_idle.mono fun _ p₂ h₂ => h₁.idle h₂
  · refine tabling_idle.bind fun item p₂ h₂ => ?_
    exact tabling_idle.mono fun _ p₃ h₃ => (h₁.idle h₂).idle h₃

theorem fieldsFrom_supplies {done trees : List Tree} (hsub : ∀ T ∈ trees, T ∈ N.expressions)
    (hq : p.Supplies R done q) (position : Nat) :
    After (fieldsFrom a compute position (trees.map Tree.id)) q
      fun _ q' => p.Supplies R (done ++ trees) q' := by
  induction trees generalizing q done position with
  | nil => simpa [fieldsFrom] using hq
  | cons T rest ih =>
    obtain ⟨hT, hrest⟩ := List.forall_mem_cons.mp hsub
    rw [List.map_cons, fieldsFrom]
    simp only [after_bind_iff]
    refine (h.compute_part hq hT).mono fun type q₁ h₁ => ?_
    refine (ih hrest h₁ (position + 1)).mono fun fields q₂ h₂ => ?_
    rw [List.append_assoc] at h₂
    exact after_pure_iff.mpr h₂

theorem struct_supplies : After (struct a compute N.id) p fun _ p' => p.Supplies R N.expressions p' := by
  rw [struct, h.expressions_eq, after_bind_iff]
  refine (fieldsFrom_supplies h (fun _ hT => hT) h.rested.supplies 0).mono fun fields p₁ h₁ => ?_
  exact tabling_idle.mono fun _ p₂ h₂ => h₁.idle h₂

theorem newObject_supplies (hone : N.expressions.length = 1) :
    After (newObject a compute N.id) p fun _ p' => p.Supplies R N.expressions p' := by
  obtain ⟨V, hparts⟩ := List.length_eq_one_iff.mp hone
  rw [newObject, h.expressions_eq, hparts]
  simp only [List.map_cons, after_bind_iff]
  refine (h.compute_part h.rested.supplies (by simp [hparts])).mono fun type p₁ h₁ => ?_
  split
  · exact after_pure_iff.mpr h₁
  · rw [after_bind_iff]
    refine tabling_idle.mono fun object p₂ h₂ => ?_
    rw [after_bind_iff]
    refine After.mono (after_forIn (fun _ q => p₂.Idle q) ?_ (.refl p₂))
      fun _ p₃ h₃ => after_pure_iff.mpr ((h₁.idle h₂).idle h₃)
    intro _ handler _ p₃ h₃
    simp only [after_bind_iff, after_get_iff]
    split
    · exact after_pure_iff.mpr ⟨rfl, h₃⟩
    · rw [after_bind_iff]
      refine After.mono (after_forIn (fun _ q => p₂.Idle q) ?_ h₃)
        fun _ p₄ h₄ => after_pure_iff.mpr ⟨rfl, h₄⟩
      intro _ entry _ p₄ h₄
      exact tabling_idle.bind fun _ p₅ h₅ => after_pure_iff.mpr ⟨rfl, h₄.trans h₅⟩

theorem call_supplies (htwo : N.expressions.length = 2) :
    After (call a compute N.id) p fun _ p' => p.Supplies R N.expressions p' := by
  obtain ⟨V, W, hparts⟩ := List.length_eq_two.mp htwo
  rw [call, h.expressions_eq, hparts]
  simp only [List.map_cons, List.map_nil, after_bind_iff]
  refine (h.compute_part h.rested.supplies (by simp [hparts])).mono fun receiver p₁ h₁ => ?_
  refine (h.compute_part h₁ (by simp [hparts])).mono fun message p₂ h₂ => ?_
  exact answer_idle.mono fun _ p₃ h₃ => h₂.idle h₃

theorem logic_supplies {op : LogicOp} :
    After (logic a compute N.id op) p fun _ p' => p.Supplies R N.expressions p' := by
  rw [logic, h.expressions_eq, List.forIn_map, after_bind_iff]
  refine After.mono (after_forIn (fun done q => p.Supplies R done q) ?_ h.rested.supplies)
    fun _ p₁ h₁ => after_pure_iff.mpr h₁
  intro done T hT q hq
  rw [after_bind_iff]
  refine (h.compute_part hq hT).mono fun type q₁ h₁ => ?_
  exact demand_idle fun q₂ h₂ => after_pure_iff.mpr ⟨rfl, h₁.idle h₂⟩

theorem conditional_supplies : After (conditional a compute N.id) p fun _ p' =>
    p.Supplies R N.expressions p' := by
  rw [conditional, h.expressions_eq]
  rcases hparts : N.expressions with _ | ⟨V, rest⟩
  · exact after_pure_iff.mpr h.rested.supplies
  · have hmem : ∀ T ∈ V :: rest, T ∈ N.expressions := fun T hT => hparts ▸ hT
    obtain ⟨hV, hrest⟩ := List.forall_mem_cons.mp hmem
    rw [List.map_cons, after_bind_iff]
    refine (h.compute_part h.rested.supplies hV).mono fun type p₁ h₁ => ?_
    refine demand_idle fun p₂ h₂ => ?_
    rw [after_bind_iff]
    refine (mapM_supplies h hrest (h₁.idle h₂)).mono fun types p₃ h₃ => ?_
    exact tabling_idle.mono fun _ p₄ h₄ => h₃.idle h₄

theorem repeatLoop_supplies (hfew : N.expressions.length ≤ 1) :
    After (repeatLoop a compute N.id) p fun _ p' => p.Supplies R N.expressions p' := by
  have hentered : p.Idle { p with breaks := [] } := rfl
  simp only [repeatLoop, after_bind_iff, after_get_iff, after_modify_iff]
  refine (operand_supplies { h with rested := h.rested.idle hentered } hfew).mono fun _ p₁ h₁ => ?_
  have hleft : p.Supplies R N.expressions { p₁ with breaks := p.breaks } :=
    (hentered.supplies h₁).idle rfl
  split
  · exact after_pure_iff.mpr hleft
  · exact tabling_idle.mono fun _ p₂ h₂ => hleft.idle h₂

theorem returnExit_supplies (hfew : N.expressions.length ≤ 1) :
    After (returnExit a compute N.id) p fun _ p' => p.Supplies R N.expressions p' := by
  rw [returnExit, after_bind_iff]
  refine (operand_supplies h hfew).mono fun type p₁ h₁ => ?_
  rw [after_bind_iff, after_modify_iff, after_pure_iff]
  exact h₁.idle rfl

theorem breakExit_supplies (hfew : N.expressions.length ≤ 1) :
    After (breakExit a compute N.id) p fun _ p' => p.Supplies R N.expressions p' := by
  rw [breakExit, after_bind_iff]
  refine (operand_supplies h hfew).mono fun type p₁ h₁ => ?_
  rw [after_bind_iff, after_modify_iff, after_pure_iff]
  exact h₁.idle rfl

theorem locals_supplies (hform : N.form = .expr .locals) :
    After (locals a compute N.id) p fun _ p' => p.Supplies R N.expressions p' := by
  rw [locals, after_bind_iff]
  refine (declareLocals_supplies h.lowered h.within hform h.rested).mono ?_
  rintro _ p₁ ⟨h₁, hahead⟩
  rw [after_bind_iff]
  refine (defineLocals_supplies h.lowered h.computes h.within hform h₁.rested hahead).mono
    fun _ p₂ h₂ => ?_
  exact after_pure_iff.mpr (h₁.append h₂)

theorem handlerExits_supplies (hone : N.expressions.length = 1) :
    After (handlerExits a compute N.id) p fun _ p' => p.Supplies R N.expressions p' := by
  have hentered : p.Idle { p with escapes := [], breaks := [] } := rfl
  simp only [handlerExits_eq, after_bind_iff, after_get_iff, after_modify_iff]
  refine (operand_supplies { h with rested := h.rested.idle hentered } hone.le).mono
    fun value p₁ h₁ => ?_
  simp only [collectExits, after_bind_iff, after_get_iff, after_modify_iff, after_pure_iff]
  exact (hentered.supplies h₁).idle rfl

theorem handlerBody_supplies (hone : N.expressions.length = 1) (hq : p.Supplies R [] q)
    (input : TypeId) :
    After (handlerBody a compute N.id input) q fun _ q' => p.Supplies R N.expressions q' := by
  simp only [handlerBody, after_bind_iff, after_get_iff]
  refine readOption_idle.mono fun declared q₁ h₁ => ?_
  refine After.mono (after_forIn (fun _ q' => p.Supplies R [] q') ?_ (hq.idle h₁)) ?_
  · intro _ f _ q' hq'
    rw [addTerm, after_bind_iff, after_modify_iff, after_pure_iff]
    refine ⟨rfl, hq'.append (hq'.rested.withTerms (hq'.rested.pending_lt.add q'.scope f.name ?_))⟩
    exact fun _ h => by cases h
  · intro _ q₂ h₂
    refine (handlerExits_supplies { h with rested := h₂.rested } hone).mono fun exits q₃ h₃ => ?_
    exact handlerResult_idle.mono fun result q₄ h₄ => after_pure_iff.mpr ((h₂.append h₃).idle h₄)

theorem handler_supplies (hone : N.expressions.length = 1) :
    After (handler a compute N.id) p fun _ p' => p.Supplies R N.expressions p' := by
  have hinput : After (handlerInput a N.id) p.pushed fun _ q => p.Supplies R [] q := by
    rw [handlerInput]
    split
    · exact readType_idle.mono fun input q hq => h.rested.pushed.idle hq
    · exact after_pure_iff.mpr h.rested.pushed
  rw [handler_eq, after_bind_iff, after_inNewScope_iff, after_bind_iff]
  refine hinput.mono fun input q hq =>
    (handlerBody_supplies h hone hq input).mono fun sides q₁ h₁ => ?_
  have hback : p.Supplies R N.expressions { q₁ with scope := p.scope, typeScope := p.typeScope } :=
    h₁.idle rfl
  exact tabling_idle.mono fun _ q₂ h₂ => hback.idle h₂

/-- The locals of a block are newer than those that are being found. -/
theorem declareGroups_supplies :
    After (declareGroups a N.id) p fun _ q => p.Supplies R [] q ∧
        ∀ G ∈ N.expressions, G.form = .expr .locals → ∀ D ∈ G.expressions, q.Ahead D := by
  rw [declareGroups, h.expressions_eq, List.forIn_map]
  refine after_forIn (fun (done : List Tree) q => p.Supplies R [] q ∧
    ∀ G ∈ done, G.form = .expr .locals → ∀ D ∈ G.expressions, q.Ahead D) ?_
    ⟨h.rested.supplies, by simp⟩
  rintro done G hG q ⟨hq, hahead⟩
  simp only [h.lowered.expr?_eq_some_iff (h.within.child hG)]
  split
  · next hgroup =>
    rw [after_bind_iff]
    refine (declareLocals_supplies h.lowered (h.within.child hG) hgroup hq.rested).mono ?_
    rintro _ q₁ ⟨h₁, hnew⟩
    refine after_pure_iff.mpr ⟨rfl, hq.append h₁, List.forall_mem_append.mpr ⟨fun E hE hform D hD => ?_,
      List.forall_mem_singleton.mpr fun _ => hnew⟩⟩
    exact (hahead E hE hform D hD).onward hq.rested h₁.onward
  · next hother =>
    exact after_pure_iff.mpr ⟨rfl, hq, List.forall_mem_append.mpr ⟨hahead,
      List.forall_mem_singleton.mpr fun hgroup => absurd hgroup hother⟩⟩

omit h in
theorem reportUnreachable_idle (reach : Reach) (item : NodeId) :
    After (reportUnreachable a options reach item) p fun _ p' => p.Idle p' := by
  rw [reportUnreachable]
  split
  · exact report_idle
  · exact after_pure_iff.mpr (.refl p)

theorem typeItem_supplies {done : List Tree} {G : Tree} (hG : G ∈ N.expressions)
    (hq : p.Supplies R done q) (hahead : G.form = .expr .locals → ∀ D ∈ G.expressions, q.Ahead D) :
    After (typeItem a compute G.id) q fun _ q' =>
      q.Onward q' ∧ p.Supplies R (done ++ [G]) q' := by
  rw [typeItem]
  simp only [h.lowered.expr?_eq_some_iff (h.within.child hG)]
  split
  · next hgroup =>
    simp only [after_bind_iff, setType, after_modify_iff, after_pure_iff]
    refine (defineLocals_supplies h.lowered h.computes (h.within.child hG) hgroup hq.rested
      (hahead hgroup)).mono fun _ q₁ h₁ => ?_
    exact ⟨(h₁.noted .nothing).onward, hq.append (h₁.noted .nothing)⟩
  · exact (h.computes q _ G hq.rested (h.within.child hG)).mono fun _ q₁ h₁ =>
      ⟨h₁.onward, hq.append h₁⟩

theorem itemsFrom_supplies {done items : List Tree} (hsub : ∀ T ∈ items, T ∈ N.expressions)
    (hq : p.Supplies R done q)
    (hahead : ∀ G ∈ items, G.form = .expr .locals → ∀ D ∈ G.expressions, q.Ahead D) (reach : Reach)
    (last : TypeId) : After (itemsFrom a options compute reach last (items.map Tree.id)) q
      fun _ q' => p.Supplies R (done ++ items) q' := by
  induction items generalizing q done reach last with
  | nil => simpa [itemsFrom] using hq
  | cons G rest ih =>
    obtain ⟨hG, hrest⟩ := List.forall_mem_cons.mp hsub
    obtain ⟨hGahead, hrestAhead⟩ := List.forall_mem_cons.mp hahead
    simp only [List.map_cons, itemsFrom_cons, after_bind_iff]
    refine (reportUnreachable_idle reach G.id).mono fun _ q₁ h₁ => ?_
    refine (typeItem_supplies h hG (hq.idle h₁) fun hgroup D hD =>
      (hGahead hgroup D hD).onward hq.rested h₁.onward).mono ?_
    rintro type q₂ ⟨honward, h₂⟩
    -- after the item the locals of the others are still newer
    have hmore := ih hrest h₂ (fun E hE hform D hD =>
      (hrestAhead E hE hform D hD).onward hq.rested (h₁.onward.trans honward)) (reach.after a options G.id) type
    rwa [List.append_assoc] at hmore

theorem block_supplies :
    After (block a options compute N.id) p fun _ p' => p.Supplies R N.expressions p' := by
  have hpushed := h.rested.pushed
  have hinner : Supplying a R compute path N p.pushed := { h with rested := hpushed.rested }
  rw [block_eq, after_inNewScope_iff]
  simp only [after_bind_iff]
  refine (declareGroups_supplies hinner).mono ?_
  rintro _ q ⟨hq, hahead⟩
  rw [h.expressions_eq]
  refine (itemsFrom_supplies hinner (fun _ hT => hT) hq hahead _ _).mono fun _ q₁ h₁ => ?_
  exact (hpushed.append h₁).idle rfl

end

/-- Every rule gives all parts of the expression types. -/
theorem ofForm_supplies (h : Supplying a R compute path N p) {form : ExprForm}
    (hform : N.form = .expr form) :
    After (ofForm a options compute N.id form) p fun _ p' => p.Supplies R N.expressions p' := by
  obtain ⟨other, hother, hcore⟩ := h.lowered.core path N h.within
  cases hform.symm.trans hother
  have hadmits := h.admits hform
  rw [ExprForm.admits.eq_def, Tree.length_exprForms] at hadmits
  -- how many parts there are
  cases form <;> simp only [Bool.and_eq_true, Bool.or_eq_true, beq_iff_eq, decide_eq_true_eq] at hadmits
  case constant c =>
    refine after_pure_iff.mpr ?_
    rw [List.eq_nil_of_length_eq_zero hadmits.1]
    exact h.rested.supplies
  case reference name => exact reference_supplies h (List.eq_nil_of_length_eq_zero hadmits.1)
  case array => exact array_supplies h
  case struct => exact struct_supplies h
  case structField name => exact operand_supplies h hadmits.1.le
  case nested => exact operand_supplies h hadmits.1.le
  case localDef name mutable => exact operand_supplies h hadmits.1.le
  case newObject => exact newObject_supplies h hadmits.1
  case call => exact call_supplies h hadmits.1
  case logic op => exact logic_supplies h
  case conditional => exact conditional_supplies h
  case repeatLoop => exact repeatLoop_supplies h hadmits.1.le
  case assignment name => exact assignment_supplies h hadmits.1.le
  case returnExit => exact returnExit_supplies h hadmits.1
  case breakExit => exact breakExit_supplies h hadmits.1
  case locals => exact locals_supplies h hform
  case handler => exact handler_supplies h hadmits.1
  case block => exact block_supplies h
  all_goals cases hcore

/-- Typing an expression of a tree in the core language, if it comes to an end, gives all
expressions in it types. -/
theorem computeWithin_supplies (hR : a.Lowered R) (steps : Nat) :
    SuppliesAll R (computeWithin a options steps) := by
  induction steps with
  | zero => exact fun p path N _ _ => after_throw
  | succ steps ih =>
    intro p path N hp hN
    obtain ⟨form, hform, -⟩ := hR.core path N hN
    rw [computeWithin_succ, (hR.expr?_eq_some_iff hN).mpr hform, after_bind_iff]
    refine (ofForm_supplies ⟨hR, ih, hN, hp⟩ hform).mono fun type q hq => ?_
    simp only [noted, setType, after_bind_iff, after_modify_iff, after_pure_iff]
    exact hq.noted type

end Typing

open Pass Typing

variable {a : Arena} {R : Tree} {options : TypingOptions} {log log' : Log} {print : TypeId}
  {t : TypeTable}

theorem Pass.started_rested (R : Tree) : (started options log print t).Rested R where
  resolving_lt _ h := nomatch h
  pending_lt id entry hentry other hother := by
    rw [frame_started id entry hentry] at hother
    cases hother
  value id v hv := by
    rw [placeholder_started] at hv
    cases hv
  current _ _ _ _ h := nomatch h
  found id h := by
    rw [placeholder_started] at h
    cases h

/-- Typing a whole tree, if it comes to an end, gives all expressions in it types. -/
theorem check_typesAll (hR : a.Lowered R) {typed : TypedTree}
    (hcheck : check a options R.id log = .ok (typed, log')) :
    ∀ path X, R.Within path X → (typed.typeOf? X.id).isSome = true := by
  obtain ⟨print, t, hstart, -⟩ := Pass.start_eq options log
  have htree : After (Typing.tree a options R.id) (started options log print t)
      fun _ p => p.TypesAll R := by
    rw [Typing.tree, after_bind_iff]
    refine (computeWithin_supplies hR _ _ [] R (started_rested R) .root).mono fun type p hp => ?_
    have htyped := hp.typed R (List.mem_singleton_self R)
    rw [after_bind_iff, after_get_iff]
    split
    · exact after_pure_iff.mpr htyped
    · exact tabling_idle.mono fun _ p' hp' => htyped.mono hp'.onward.types
  obtain ⟨result, p, hrun, rfl, rfl⟩ := check_eq_ok hstart hcheck
  exact htree result p hrun

end MessageLang
