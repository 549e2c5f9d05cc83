import MessageLang.Proofs.Core.FreeNames
import MessageLang.Proofs.Core.LaidOut
import MessageLang.Proofs.Core.Lowers

namespace MessageLang

open Plain (core prospect assemble)
open Temporaries (freeName Gave)
open Lowering (unaryMessage needsBlock)

namespace Plain

variable (name : Nat → String)

/-- Forms that lowering does nothing about keep their node. -/
theorem core_of_isPlaced {form : ExprForm} (h : Tree.isPlaced form = true) (grouped : Bool)
    (children : List Plain) : core name (node (.expr form) grouped children) =
      (do return node (.expr form) grouped (← children.mapM (core name))) := by
  rw [core_eq]
  have hchildren : (children.map (prospect name)).mapM Prospect.become = children.mapM (core name) :=
    List.mapM_map
  rw [← hchildren]
  cases form <;> first | rfl | cases h

theorem core_call (grouped : Bool) (receiver message : Plain) :
    core name (call grouped receiver message) =
      (do return call grouped (← core name receiver) (← core name message)) := by
  rw [call, core_of_isPlaced name rfl]
  simp only [List.mapM_cons, List.mapM_nil, bind_assoc, pure_bind]
  rfl

theorem core_leaf {form : ExprForm} (h : Tree.isPlaced form = true) :
    core name (leaf (.expr form)) = pure (leaf (.expr form)) :=
  core_of_isPlaced name h false []

theorem core_symbol (text : String) : core name (symbol text) = pure (symbol text) :=
  core_leaf name rfl

theorem core_function (grouped : Bool) (types : List Plain) (body : Plain) :
    core name (function grouped types body) =
      (do return function grouped (← types.mapM (core name)) (← core name body)) := by
  have hblock : ∀ children : List Plain,
      core name (block [node (.expr .handler) false children]) =
        (do return block [← core name (node (.expr .handler) false children)]) := by
    intro children
    rw [block, core_eq]
    simp [assemble, prospect, isExpr, form, NodeForm.expr?, needsBlock]
    rfl
  rw [function, core_of_isPlaced name rfl]
  simp only [List.mapM_cons, List.mapM_nil, hblock,
    core_of_isPlaced name (Eq.refl (Tree.isPlaced .handler)), List.mapM_append, bind_assoc,
    pure_bind]
  rfl

/-- A conditional with one branch is completed. -/
theorem core_conditional {condition yes : Plain} (hcondition : condition.isExpr = true)
    (hyes : yes.isExpr = true) (grouped : Bool) :
    core name (node (.expr .conditional) grouped [condition, yes]) =
      (do return conditional grouped (← core name condition) (← core name yes) nothing) := by
  rw [core_eq]
  simp [assemble, prospect, hcondition, hyes]

theorem core_block {first second : Plain} (hfirst : first.isExpr = true)
    (hsecond : second.isExpr = true) : core name (block [first, second]) =
      (do return block [← core name first, ← core name second]) := by
  rw [block, core_eq]
  simp [assemble, prospect, hfirst, hsecond]
  rfl

/-- Lowering what a loop with its condition in front is rewritten to gives all of it. -/
theorem core_whileLoop {condition : Plain} (hcondition : condition.isExpr = true) (grouped : Bool)
    (temporary : String) (body : Plain) :
    core name (node (.expr .conditional) grouped [condition, node (.expr .repeatLoop) false [block [
        node (.expr .locals) false [node (.expr (.localDef temporary false)) false [body]],
        node (.expr .conditional) false [call false condition (symbol "not"),
          node (.expr .breakExit) false [leaf (.expr (.reference temporary))]]]]]) =
      (do
        let first ← core name condition
        let body ← core name body
        return whileLoop grouped temporary first body (← core name condition)) := by
  have hplaced : ∀ {form : ExprForm}, Tree.isPlaced form = true → ∀ child : Plain,
      core name (node (.expr form) false [child]) =
        (do return node (.expr form) false [← core name child]) := by
    intro form hform child
    rw [core_of_isPlaced name hform]
    simp only [List.mapM_cons, List.mapM_nil, bind_assoc, pure_bind]
  rw [core_conditional name hcondition rfl, hplaced rfl, core_block name rfl rfl, hplaced rfl,
    hplaced rfl, core_conditional name rfl rfl, core_call, core_symbol, hplaced rfl,
    core_leaf name rfl]
  simp only [bind_assoc, pure_bind]
  rfl

theorem setGrouped_setGrouped (P : Plain) : P.setGrouped.setGrouped = P.setGrouped := by
  cases P
  rfl

/-- Marking a tree as grouped before or after is the same. -/
theorem core_setGrouped (P : Plain) :
    core name P.setGrouped = (do return (← core name P).setGrouped) := by
  obtain ⟨form, grouped, children⟩ := P
  rw [setGrouped, core_eq, core_eq]
  generalize children.map (prospect name) = parts
  unfold assemble
  split <;> simp only [bind_assoc, pure_bind]
  case h_2 op _ _ _ =>
    cases LogicOp.ofText? op <;> rfl
  case h_6 item _ =>
    cases item.was.form.expr?.any needsBlock with
    | true => rfl
    | false => simp [setGrouped_setGrouped]
  all_goals rfl

end Plain

namespace Tree

variable {T T' : Tree} {s s' : Lowering} {size size' : Nat}

theorem core_plain (name : Nat → String) (T : Tree) : core name T.plain =
    assemble name T.form T.grouped ((plainAll T.children).map (prospect name)) := by
  rw [plain_eq, Plain.core_eq]

/-- The expressions among the parts of a tree. -/
theorem filter_isExpr_prospects (name : Nat → String) (T : Tree) :
    ((plainAll T.children).map (prospect name)).filter (·.was.isExpr) =
      T.expressions.map fun child => prospect name child.plain := by
  rw [Plain.filter_prospects, filter_isExpr_plainAll, List.map_map]
  rfl

theorem filter_isType_prospects (name : Nat → String) (T : Tree) :
    ((plainAll T.children).map (prospect name)).filter (·.was.isType) =
      T.types.map fun child => prospect name child.plain := by
  rw [Plain.filter_prospects, filter_isType_plainAll, List.map_map]
  rfl

theorem core_inherit (name : Nat → String) (T : Tree) (grouped : Bool) :
    core name (T.inherit grouped).plain =
      (do
        let P ← core name T.plain
        return if grouped then P.setGrouped else P) := by
  rw [plain_inherit]
  cases grouped with
  | false => simp
  | true => exact Plain.core_setGrouped name T.plain

theorem isExpr_plain_of_mem_expressions {child : Tree} (h : child ∈ T.expressions) :
    child.plain.isExpr = true := by
  rw [Plain.isExpr, form_plain]
  exact (List.mem_filter.mp h).2

/-- Where a form has one operand, there is no other. -/
private theorem expressions_eq_singleton {operand : Tree} {others : List Tree}
    (hoperands : T.expressions = operand :: others) (hlength : T.exprForms.length = 1) :
    T.expressions = [operand] := by
  rw [length_exprForms, hoperands, List.length_cons, Nat.add_eq_right,
    List.length_eq_zero_iff] at hlength
  rw [hoperands, hlength]

private theorem handlerTypes_eq {input output : Bool}
    (hlength : T.types.length = input.toNat + output.toNat) : T.handlerTypes input output =
      if input then T.types.map plain else .leaf (.type .empty) :: T.types.map plain := by
  unfold handlerTypes inputType? outputType?
  rcases htypes : T.types with _ | ⟨first, _ | ⟨second, _ | ⟨third, others⟩⟩⟩ <;>
    cases input <;> cases output <;> simp [htypes] at hlength ⊢

/-- A tree and what it is rewritten to become the same. -/
theorem Rewrites.core_eq {stem : String} {names : List String} {count : Nat} {made : Tree × Nat}
    (h : T.Rewrites s size made s') (hlaid : T.laidOut = true)
    (hgave : Gave stem names count s.temporaries) :
    ∃ count', core (freeName stem names) T.plain count =
        core (freeName stem names) (made.1.inherit T.grouped).plain count' ∧
      Gave stem names count' s'.temporaries := by
  -- all but one of the rewritings need no name
  have hsame : core (freeName stem names) T.plain =
      core (freeName stem names) (made.1.inherit T.grouped).plain →
      s'.temporaries = s.temporaries → ∃ count', core (freeName stem names) T.plain count =
        core (freeName stem names) (made.1.inherit T.grouped).plain count' ∧
      Gave stem names count' s'.temporaries :=
    fun heq htemporaries => ⟨count, congrFun heq count, htemporaries ▸ hgave⟩
  cases h with
  | @unary op operand others hform hoperands =>
    have hadmits := laidOut_expr hlaid hform
    simp only [ExprForm.admits, Bool.and_eq_true, beq_iff_eq] at hadmits
    have hoperand := expressions_eq_singleton hoperands hadmits.1
    have hsort := token?_of_mem_expressions (hoperand ▸ List.mem_singleton_self operand)
    refine hsame ?_ rfl
    rw [core_inherit, plain_unary _ _ hsort, Plain.core_call, Plain.core_symbol, core_plain]
    simp only [assemble, hform, filter_isExpr_prospects, hoperand, List.map_cons, List.map_nil,
      bind_assoc, pure_bind]
    cases T.grouped <;> rfl
  | @logic text op left right hform hlogic hoperands =>
    have hadmits := laidOut_expr hlaid hform
    simp only [ExprForm.admits, Bool.and_eq_true, beq_iff_eq, List.length_eq_zero_iff] at hadmits
    rw [twoOperands?_eq_some_iff] at hoperands
    refine hsame ?_ rfl
    rw [core_inherit, plain_logic, plainAll_of_types_eq_nil hadmits.2,
      Plain.core_of_isPlaced _ rfl, core_plain]
    simp only [assemble, hform, filter_isExpr_prospects, hoperands, List.map_cons, List.map_nil,
      List.mapM_cons, List.mapM_nil, hlogic, bind_assoc, pure_bind]
    cases T.grouped <;> rfl
  | @binary op left right hform hlogic hoperands =>
    rw [twoOperands?_eq_some_iff] at hoperands
    have hleft : left ∈ T.expressions := hoperands ▸ List.mem_cons_self
    have hright : right ∈ T.expressions := hoperands ▸ List.mem_cons_of_mem _ List.mem_cons_self
    refine hsame ?_ rfl
    rw [core_inherit, plain_binary _ _ (token?_of_mem_expressions hleft)
      (token?_of_mem_expressions hright), Plain.core_call, Plain.core_call, Plain.core_symbol,
      core_plain]
    simp only [assemble, hform, filter_isExpr_prospects, hoperands, List.map_cons, List.map_nil,
      hlogic, bind_assoc, pure_bind]
    cases T.grouped <;> rfl
  | @whileLoop temporary temporaries condition body hform hoperands hfresh =>
    rw [twoOperands?_eq_some_iff] at hoperands
    have hcondition : condition ∈ T.expressions := hoperands ▸ List.mem_cons_self
    have hbody : body ∈ T.expressions := hoperands ▸ List.mem_cons_of_mem _ List.mem_cons_self
    obtain ⟨temporaries', hfresh', hgave'⟩ := hgave.fresh?
    rw [hfresh', Option.some.injEq, Prod.mk.injEq] at hfresh
    obtain ⟨rfl, rfl⟩ := hfresh
    refine ⟨count + 1, ?_, hgave'⟩
    rw [core_inherit, plain_whileLoop _ _ (token?_of_mem_expressions hcondition)
      (token?_of_mem_expressions hbody),
      Plain.core_whileLoop _ (isExpr_plain_of_mem_expressions hcondition), core_plain]
    simp only [assemble, hform, filter_isExpr_prospects, hoperands, List.map_cons, List.map_nil,
      bind_assoc, pure_bind]
    cases T.grouped <;> rfl
  | @function input output body others hform hoperands =>
    have hadmits := laidOut_expr hlaid hform
    simp only [ExprForm.admits, Bool.and_eq_true, beq_iff_eq] at hadmits
    have hbody := expressions_eq_singleton hoperands hadmits.1
    have hsort := token?_of_mem_expressions (hbody ▸ List.mem_singleton_self body)
    refine hsame ?_ rfl
    rw [core_inherit, plain_function _ _ hsort, Plain.core_function, core_plain]
    simp only [assemble, hform, filter_isExpr_prospects, filter_isType_prospects, hbody, List.map_cons,
      List.map_nil, handlerTypes_eq hadmits.2, bind_assoc, pure_bind, List.mapM_map]
    have hempty : core (freeName stem names) (.leaf (.type .empty)) =
        pure (.leaf (.type .empty)) := rfl
    cases input with
    | true =>
      simp only [if_true, List.mapM_map]
      cases T.grouped <;> rfl
    | false =>
      simp only [Bool.false_eq_true, if_false, List.mapM_cons, List.mapM_map, hempty, bind_assoc,
        pure_bind]
      cases T.grouped <;> rfl
  | @block item hform hitems hfree =>
    refine hsame ?_ rfl
    have hgrouped : ((item.setGrouped true).inherit T.grouped).plain = item.plain.setGrouped := by
      rw [plain_inherit, plain_setGrouped, Plain.setGrouped_setGrouped, ite_self]
    have hfree' : (item.plain.form.expr?.any needsBlock) = false := by rw [form_plain]; exact hfree
    rw [hgrouped, Plain.core_setGrouped, core_plain]
    simp only [assemble, hform, filter_isExpr_prospects, hitems, List.map_cons, List.map_nil, prospect,
      hfree', Bool.false_eq_true, if_false]

/-- Naming the fields of a struct before or after what they are made of becomes core is the
same. -/
private theorem mapM_core_nameFields (name : Nat → String) (log : Log)
    (seen : Placement.FieldsSeen) (index : Nat) (trees : List Tree) :
    (plainAll (nameFields log seen index trees).2).mapM (core name) =
      Plain.nameFields index ((plainAll trees).map (prospect name)) := by
  induction trees generalizing log seen index with
  | nil => rfl
  | cons T rest ih =>
    -- trees that are not fields without a name stay as they are
    have hstay : ∀ {log : Log} {seen : Placement.FieldsSeen} {next : Nat},
        T.form.token? = none → T.form ≠ .expr (.structField none) →
        (if T.plain.isExpr then index + 1 else index) = next →
        (plainAll (T :: (nameFields log seen next rest).2)).mapM (core name) =
          Plain.nameFields index ((plainAll (T :: rest)).map (prospect name)) := by
      rintro log seen _ hsort hform rfl
      simp only [plainAll, hsort, Option.isSome_none, Bool.false_eq_true, if_false,
        List.mapM_cons, List.map_cons, Plain.nameFields, prospect, form_plain, if_neg hform, ih]
    have hexpr : ∀ {form}, T.form = .expr form →
        (if T.plain.isExpr then index + 1 else index) = index + 1 := fun hform => by
      rw [Plain.isExpr, form_plain, hform]
      rfl
    unfold nameFields
    split
    · next declared hform =>
      cases declared with
      | some name =>
        have hsame : T.setForm (.expr (.structField (some name))) = T := by
          rw [← hform]
          cases T
          rfl
        simp only [Option.getD_some, hsame]
        exact hstay (by simp [hform]) (by simp [hform]) (hexpr hform)
      | none =>
        have hplain : T.plain = .node (.expr (.structField none)) T.grouped (plainAll T.children) :=
          hform ▸ plain_eq T
        have hset : (T.setForm (.expr (.structField (some (Placement.positional index))))).plain =
            .node (.expr (.structField (some (Placement.positional index)))) T.grouped
              (plainAll T.children) := plain_eq _
        have hsort : (T.setForm (.expr (.structField (some (Placement.positional index))))).form =
            .expr (.structField (some (Placement.positional index))) := rfl
        simp only [plainAll, hform, hsort, Option.getD_none, token?_expr, Option.isSome_none,
          Bool.false_eq_true, if_false, List.mapM_cons, List.map_cons, Plain.nameFields, prospect,
          ih, hset, hplain, Plain.core_of_isPlaced name (Eq.refl (isPlaced (.structField _))),
          bind_assoc, pure_bind]
        rfl
    · next form hfield hform =>
      exact hstay (by simp [hform]) (by simpa [hform] using hfield none) (hexpr hform)
    · next _ hother =>
      cases hform : T.form with
      | expr form => exact absurd hform (hother form)
      | type form =>
        refine hstay (by simp [hform]) (by simp [hform]) ?_
        rw [Plain.isExpr, form_plain, hform]
        rfl
      | token t =>
        simp only [plainAll, hform, NodeForm.token?, Option.isSome_some, if_true]
        exact ih _ _ _

/-- A tree that stays becomes what its parts become, and nothing else of it. -/
theorem Settles.core_eq (name : Nat → String) {above : List NodeForm} {made : Tree × Nat}
    (h : T.Settles above s size made s') (hlaid : T.laidOut = true) :
    made.1.grouped = T.grouped ∧ s'.temporaries = s.temporaries ∧ core name T.plain =
      (do return .node made.1.form T.grouped (← (plainAll made.1.children).mapM (core name))) := by
  cases h with
  | conditional hform hbranches =>
    refine ⟨rfl, rfl, ?_⟩
    have hadmits := laidOut_expr hlaid hform
    simp only [ExprForm.admits, Bool.and_eq_true, beq_iff_eq, List.length_eq_zero_iff] at hadmits
    obtain ⟨condition, yes, hbranches⟩ := List.length_eq_two.mp hbranches
    have hnothing : core name .nothing = pure .nothing := Plain.core_leaf name rfl
    have hsame : (T.completeConditional size).1.form = .expr .conditional := hform
    rw [plainAll_completeConditional, plainAll_of_types_eq_nil hadmits.2, core_plain]
    simp only [assemble, hform, filter_isExpr_prospects, hbranches, List.map_cons, List.map_nil,
      List.cons_append, List.nil_append, List.mapM_cons, List.mapM_nil, hnothing, hsame,
      bind_assoc, pure_bind]
    rfl
  | struct hform =>
    refine ⟨rfl, rfl, ?_⟩
    have hfields := mapM_core_nameFields name s.log ⟨[], false⟩ 0 T.children
    rw [core_plain, hform]
    simp only [assemble, form_withChildren, children_withChildren, hform, hfields]
  | placed hform hplaced =>
    refine ⟨rfl, ?_, ?_⟩
    · unfold checkPlacement
      split <;> rfl
    · rw [plain_eq, hform, Plain.core_of_isPlaced name hplaced]
  | kept hkept =>
    refine ⟨rfl, rfl, ?_⟩
    have hparts : ((plainAll T.children).map (prospect name)).mapM Plain.Prospect.become =
      (plainAll T.children).mapM (core name) := List.mapM_map
    rw [core_plain, ← hparts]
    have hexprs := filter_isExpr_prospects name T
    unfold Kept at hkept
    cases hform : T.form with
    | token t => rfl
    | type form => rfl
    | expr form =>
      have hadmits := laidOut_expr hlaid hform
      rw [hform] at hkept
      simp only [assemble, hexprs]
      cases form with
      | unary op => simp [ExprForm.admits, length_exprForms, hkept] at hadmits
      | function input output => simp [ExprForm.admits, length_exprForms, hkept] at hadmits
      | binary op =>
        simp only [ExprForm.admits, length_exprForms, Bool.and_eq_true, beq_iff_eq] at hadmits
        obtain ⟨left, right, hoperands⟩ := List.length_eq_two.mp hadmits.1
        rw [twoOperands?_eq_some_iff.mpr hoperands] at hkept
        cases hkept
      | whileLoop =>
        simp only [ExprForm.admits, length_exprForms, Bool.and_eq_true, beq_iff_eq] at hadmits
        obtain ⟨condition, body, hoperands⟩ := List.length_eq_two.mp hadmits.1
        rw [twoOperands?_eq_some_iff.mpr hoperands] at hkept
        cases hkept
      | conditional =>
        rcases hbranches : T.expressions with _ | ⟨condition, _ | ⟨yes, _ | ⟨no, others⟩⟩⟩ <;>
          first | rfl | simp [hbranches] at hkept
      | block =>
        rcases hitems : T.expressions with _ | ⟨item, _ | ⟨second, others⟩⟩
        · rfl
        · simp only [ExprForm.admits, beq_iff_eq, List.length_eq_zero_iff] at hadmits
          have hneeds : (item.plain.form.expr?.any needsBlock) = true := by
            rw [form_plain]
            exact hkept item hitems
          rw [plainAll_of_types_eq_nil hadmits, hitems]
          simp only [List.map_cons, List.map_nil, List.mapM_cons, List.mapM_nil, prospect, hneeds,
            if_true, bind_assoc, pure_bind]
        · rfl
      | _ => exact hkept.elim

theorem Rewrites.token?_eq_none {made : Tree × Nat} (h : T.Rewrites s size made s') :
    T.form.token? = none ∧ made.1.form.token? = none := by
  cases h with
  | block form_eq items =>
    have hitem := token?_of_mem_expressions (items ▸ List.mem_cons_self)
    exact ⟨by rw [form_eq]; rfl, hitem⟩
  | _ form_eq => exact ⟨by rw [form_eq]; rfl, rfl⟩

/-- The core of a list of trees, one of which is not a token. -/
private theorem mapM_core_cons (name : Nat → String) (hsort : T.form.token? = none)
    (trees : List Tree) (count : Nat) :
    (plainAll (T :: trees)).mapM (core name) count =
      ((core name T.plain count).1 ::
          ((plainAll trees).mapM (core name) (core name T.plain count).2).1,
        ((plainAll trees).mapM (core name) (core name T.plain count).2).2) := by
  rw [plainAll, hsort, if_neg (by simp), List.mapM_cons]
  rfl

end Tree

open MessageLang.Tree in
/-- What lowering makes of trees is their core. -/
theorem Lowers.core_eq {stem : String} {names : List String} {above : List NodeForm}
    {trees trees' : List Tree} {w w' : Lowering × Nat} (h : Lowers above trees w trees' w')
    (hlaid : ∀ T ∈ trees, T.laidOut = true) {count : Nat}
    (hgave : Gave stem names count w.1.temporaries) :
    ∃ count', (plainAll trees).mapM (core (freeName stem names)) count =
        (plainAll trees', count') ∧ Gave stem names count' w'.1.temporaries := by
  induction h generalizing count with
  | nil => exact ⟨count, rfl, hgave⟩
  | @settles above T T' trees trees' children s s₁ size size₁ w₂ w₃ step below after ihbelow
      ihafter =>
    have hT := hlaid T (by simp)
    have hlaid' := step.laidOut hT
    obtain ⟨hgrouped, htemporaries, hcore⟩ := step.core_eq (freeName stem names) hT
    obtain ⟨count₁, hbelow, hgave₁⟩ := ihbelow (fun child => laidOut_of_mem_children hlaid')
      (htemporaries ▸ hgave)
    obtain ⟨count₂, hafter, hgave₂⟩ := ihafter (fun U hU => hlaid U (by simp [hU])) hgave₁
    refine ⟨count₂, ?_, hgave₂⟩
    have hform : T'.form = T.form := step.form_eq
    cases hsort : T.form.token? with
    | none =>
      have hplain : (T'.withChildren children).plain =
          .node T'.form T'.grouped (plainAll children) := rfl
      have hhead : core (freeName stem names) T.plain count =
          (.node T'.form T.grouped (plainAll children), count₁) := by
        rw [hcore, Growing.bind_apply, hbelow]
        rfl
      rw [mapM_core_cons _ hsort, hhead, hafter, plainAll, form_withChildren, hform, hsort,
        if_neg (by simp), hplain, hgrouped, hform]
    | some t =>
      have hnone : T'.children = [] :=
        children_eq_nil_of_token hlaid' (by rw [hform, hsort]; rfl)
      rw [hnone] at hbelow
      obtain ⟨_, rfl⟩ := Prod.mk.inj hbelow
      rw [plainAll, plainAll, form_withChildren, hform, hsort, if_pos (by simp), if_pos (by simp),
        hafter]
  | @rewrites above T T' trees trees' s s₁ size size₁ w₂ step again ih =>
    have hT := hlaid T (by simp)
    obtain ⟨hsort, hsort'⟩ := step.token?_eq_none
    obtain ⟨count₁, hcore, hgave₁⟩ := step.core_eq hT hgave
    have hnext : ∀ U ∈ T'.inherit T.grouped :: trees, U.laidOut = true := by
      refine List.forall_mem_cons.mpr ⟨?_, fun U hU => hlaid U (by simp [hU])⟩
      rw [laidOut_inherit]
      exact step.laidOut hT
    obtain ⟨count₂, hagain, hgave₂⟩ := ih hnext hgave₁
    refine ⟨count₂, ?_, hgave₂⟩
    rw [← hagain, mapM_core_cons _ hsort, mapM_core_cons _ (by rw [form_inherit]; exact hsort'),
      hcore]

end MessageLang
