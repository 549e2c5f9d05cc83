import MessageLang.Proofs.Core.Names

namespace MessageLang

open MessageLang.Tree

namespace Tree

variable {T : Tree} {s s' : Lowering} {size : Nat} {made : Tree × Nat}

/-- A leaf for a token. -/
structure IsWord (T : Tree) : Prop where
  form : ∃ t, T.form = .token t
  children : T.children = []

theorem isWord_leaf (t : Token) (size : Nat) : (leaf (.token t) t.span size).1.IsWord :=
  ⟨⟨t, rfl⟩, rfl⟩

theorem IsWord.still (h : T.IsWord) : T.Still := by
  obtain ⟨t, hform⟩ := h.form
  exact .inl (by rw [Kept, hform]; trivial)

theorem IsWord.isExpr_eq (h : T.IsWord) : T.isExpr = false := by
  obtain ⟨t, hform⟩ := h.form
  rw [isExpr, hform]
  rfl

theorem IsWord.names_eq (h : T.IsWord) : names [T] = [] := by
  obtain ⟨t, hform⟩ := h.form
  rw [names_singleton, name?, hform, h.children]
  rfl

theorem still_of_isPlaced {form : ExprForm} (hform : T.form = .expr form)
    (hplaced : isPlaced form = true) : T.Still := .inr (.inl ⟨form, hform, hplaced⟩)

/-- Only expressions are rewritten, and only to expressions. -/
theorem Rewrites.isExpr (h : T.Rewrites s size made s') : T.isExpr = true ∧ made.1.isExpr = true := by
  cases h with
  | block form_eq items =>
    have hitem := List.mem_filter.mp (items ▸ List.mem_cons_self)
    exact ⟨by rw [Tree.isExpr, form_eq]; rfl, hitem.2⟩
  | _ form_eq => exact ⟨by rw [Tree.isExpr, form_eq]; rfl, rfl⟩

theorem children_inherit (T : Tree) (grouped : Bool) : (T.inherit grouped).children = T.children := by
  cases grouped <;> rfl

theorem isExpr_inherit (T : Tree) (grouped : Bool) : (T.inherit grouped).isExpr = T.isExpr := by
  rw [Tree.isExpr, form_inherit, Tree.isExpr]

/-- A loop with its condition in front, said with a temporary, before its parts are lowered. -/
inductive SaidWith (name : String) (condition body : Tree) : Tree → Prop
  | intro {whole loop code binding definition check negated leave result w₁ w₂ w₃ w₄ w₅ w₆ w₇ w₈ w₉ w₁₀ :
        Tree} (words : ∀ word ∈ [w₁, w₂, w₃, w₄, w₅, w₆, w₇, w₈, w₉, w₁₀], word.IsWord)
      (whole_form : whole.form = .expr .conditional)
      (branches : whole.children = [w₁, condition, w₂, loop])
      (loop_form : loop.form = .expr .repeatLoop) (loop_body : loop.children = [w₃, code])
      (code_form : code.form = .expr .block) (items : code.children = [w₄, binding, check, w₅])
      (binding_form : binding.form = .expr .locals) (group : binding.children = [w₆, definition])
      (definition_form : definition.form = .expr (.localDef name false))
      (value : definition.children = [w₇, body])
      (check_form : check.form = .expr .conditional)
      (check_branches : check.children = [w₈, negated, w₉, leave])
      (negated_isExpr : negated.isExpr = true) (negated_names : names [negated] = names [condition])
      (leave_form : leave.form = .expr .breakExit) (operand : leave.children = [w₁₀, result])
      (result_form : result.form = .expr (.reference name)) (result_leaf : result.children = []) :
      SaidWith name condition body whole

theorem whileLoop_saidWith (T : Tree) (name : String) (condition body : Tree) (size : Nat)
    (grouped : Bool) :
    SaidWith name condition body ((T.whileLoop name condition body size).1.inherit grouped) := by
  refine .intro ?_ (form_inherit ..) (children_inherit ..) rfl rfl rfl rfl rfl rfl rfl rfl rfl rfl rfl ?_
    rfl rfl rfl rfl
  · intro word hword
    simp only [List.mem_cons, List.not_mem_nil, or_false] at hword
    rcases hword with rfl | rfl | rfl | rfl | rfl | rfl | rfl | rfl | rfl | rfl <;>
      exact ⟨⟨_, rfl⟩, rfl⟩
  · refine (names_alloc (.expr .call) [.tree _, .tree _] _).trans ?_
    rw [Twig.names_tree, names_copy]
    exact List.append_nil _

/-- A conditional around a loop that keeps a value in a temporary and leaves with it: `definition`
is the local that binds the temporary and `result` the reference that the loop is left with. -/
inductive LeavesWith (name : String) : (whole definition result : Tree) → Prop
  | intro {whole condition loop nothing code binding check definition body negated leave nothing'
      result : Tree} (whole_form : whole.form = .expr .conditional)
      (branches : whole.expressions = [condition, loop, nothing])
      (loop_form : loop.form = .expr .repeatLoop) (loop_body : loop.expressions = [code])
      (code_form : code.form = .expr .block) (items : code.expressions = [binding, check])
      (binding_form : binding.form = .expr .locals) (group : binding.expressions = [definition])
      (definition_form : definition.form = .expr (.localDef name false))
      (value : definition.expressions = [body])
      (check_form : check.form = .expr .conditional)
      (check_branches : check.expressions = [negated, leave, nothing'])
      (leave_form : leave.form = .expr .breakExit) (operand : leave.expressions = [result])
      (result_form : result.form = .expr (.reference name)) :
      LeavesWith name whole definition result

end Tree

namespace Lowers

variable {above : List NodeForm} {T R : Tree} {trees trees' : List Tree} {w w' : Lowering × Nat}

/-- Lowering makes expressions of expressions, and of nothing else. -/
theorem map_isExpr (h : Lowers above trees w trees' w') :
    trees'.map Tree.isExpr = trees.map Tree.isExpr := by
  induction h with
  | nil => rfl
  | settles step _ _ _ ihafter =>
    rw [List.map_cons, List.map_cons, ihafter, Tree.isExpr, Tree.form_withChildren, step.form_eq]
    rfl
  | rewrites step _ ih =>
    rw [ih, List.map_cons, List.map_cons, Tree.isExpr_inherit, step.isExpr.1, step.isExpr.2]

/-- What a list of trees becomes is what its first tree becomes and what the others do. -/
theorem cons_inv (h : Lowers above (T :: trees) w trees' w') : ∃ R rest w₁, trees' = R :: rest ∧
    Lowers above [T] w [R] w₁ ∧ Lowers above trees w₁ rest w' := by
  generalize hall : T :: trees = all at h
  induction h generalizing T with
  | nil => cases hall
  | settles step below after =>
    cases hall
    exact ⟨_, _, _, rfl, .settles step below .nil, after⟩
  | rewrites step _ ih =>
    cases hall
    obtain ⟨R, rest, w₁, rfl, hhead, htail⟩ := ih rfl
    exact ⟨R, rest, w₁, rfl, .rewrites step hhead, htail⟩

theorem nil_inv (h : Lowers above [] w trees' w') : trees' = [] ∧ w' = w := by
  cases h
  exact ⟨rfl, rfl⟩

/-- What no step changes anything about keeps its form and loses no part. -/
theorem still_inv (h : Lowers above [T] w [R] w') (hstill : T.Still) : ∃ w₁,
    w₁.1.temporaries = w.1.temporaries ∧ R.form = T.form ∧
      Lowers (T.form :: above) T.children w₁ R.children w' := by
  cases h with
  | settles step below after =>
    obtain ⟨-, rfl⟩ := after.nil_inv
    have htemporaries := step.names_eq.2.2
    cases step.eq_of_still hstill
    exact ⟨(_, _), htemporaries, rfl, below⟩
  | rewrites step => exact absurd hstill step.not_still

theorem leaf_inv (h : Lowers above [T] w [R] w') (hstill : T.Still) (hnil : T.children = []) :
    w'.1.temporaries = w.1.temporaries ∧ R.form = T.form ∧ R.children = [] := by
  obtain ⟨w₁, htemporaries, hform, hchildren⟩ := h.still_inv hstill
  rw [hnil] at hchildren
  obtain ⟨hnone, rfl⟩ := hchildren.nil_inv
  exact ⟨htemporaries, hform, hnone⟩

/-- A conditional with two branches gets a third one that gives nothing. -/
theorem conditional_inv (h : Lowers above [T] w [R] w') (hform : T.form = .expr .conditional)
    (hbranches : T.expressions.length = 2) : ∃ word nothing w₁, word.IsWord ∧
      nothing.form = .expr (.constant .nothing) ∧ nothing.children = [] ∧
      w₁.1.temporaries = w.1.temporaries ∧ R.form = .expr .conditional ∧
      Lowers (T.form :: above) (T.children ++ [word, nothing]) w₁ R.children w' := by
  cases h with
  | settles step below after =>
    obtain ⟨-, rfl⟩ := after.nil_inv
    have htemporaries := step.names_eq.2.2
    cases step with
    | conditional =>
      exact ⟨_, _, (_, _), isWord_leaf (.keyword .elseWord T.span.stop) _, rfl, rfl, htemporaries,
        hform, below⟩
    | struct form_eq => cases form_eq.symm.trans hform
    | placed form_eq isPlaced =>
      cases form_eq.symm.trans hform
      cases isPlaced
    | kept kept =>
      rw [Kept, hform] at kept
      exact absurd hbranches kept
  | rewrites step => cases step with
    | _ form_eq => cases form_eq.symm.trans hform

theorem taken_subset (h : Lowers above trees w trees' w') :
    w.1.temporaries.taken ⊆ w'.1.temporaries.taken := by
  obtain ⟨drawn, hdrew, -⟩ := h.drew
  exact hdrew.taken_subset

/-- A name that is taken already does not get to where it is not. -/
theorem avoids {name : String} (h : Lowers above trees w trees' w')
    (htaken : name ∈ w.1.temporaries.taken) (hnot : name ∉ names trees) :
    name ∈ w'.1.temporaries.taken ∧ name ∉ names trees' := by
  obtain ⟨drawn, hdrew, hnames⟩ := h.drew
  refine ⟨hdrew.taken_subset htaken, fun hmem => ?_⟩
  rcases hnames name hmem with hmem | hmem
  · exact hdrew.not_mem name hmem htaken
  · exact hnot hmem

theorem isExpr_eq (h : Lowers above [T] w [R] w') : R.isExpr = T.isExpr := by
  simpa using h.map_isExpr

/-- A word among some trees stays one, and has no part in what the expressions among them are. -/
theorem skip (h : Lowers above (T :: trees) w trees' w') (hword : T.IsWord) : ∃ rest w₁,
    w₁.1.temporaries = w.1.temporaries ∧ Lowers above trees w₁ rest w' ∧
      trees'.filter Tree.isExpr = rest.filter Tree.isExpr ∧
        ∀ name, carriers name trees' = carriers name rest := by
  obtain ⟨word, rest, w₁, rfl, hfirst, hrest⟩ := h.cons_inv
  obtain ⟨htemporaries, hform, hchildren⟩ := hfirst.leaf_inv hword.still hword.children
  have hword' : word.IsWord := ⟨hform ▸ hword.form, hchildren⟩
  refine ⟨rest, w₁, htemporaries, hrest, List.filter_cons_of_neg (by simp [hword'.isExpr_eq]), ?_⟩
  intro name
  rw [carriers_cons_eq_append, carriers_eq_nil (by simp [hword'.names_eq]), List.nil_append]

theorem take (h : Lowers above (T :: trees) w trees' w') (hexpr : T.isExpr = true) : ∃ R rest w₁,
    Lowers above [T] w [R] w₁ ∧ Lowers above trees w₁ rest w' ∧
      trees'.filter Tree.isExpr = R :: rest.filter Tree.isExpr ∧
        ∀ name, carriers name trees' = carriers name [R] ++ carriers name rest := by
  obtain ⟨R, rest, w₁, rfl, hfirst, hrest⟩ := h.cons_inv
  exact ⟨R, rest, w₁, hfirst, hrest, List.filter_cons_of_pos (hfirst.isExpr_eq.trans hexpr),
    fun _ => carriers_cons_eq_append⟩

/-- The nodes with a name are below the topmost node or are that one. -/
theorem carriers_eq (h : R.form = T.form) (name : String) : carriers name [R] =
    (if T.name? = some name then [R] else []) ++ carriers name R.children := by
  have hname : R.name? = T.name? := by rw [name?, h, name?]
  rw [carriers_cons, hname, carriers_nil, List.append_nil]

section

variable {word word' part condition branch binding check : Tree}

/-- What becomes of a word and one expression after it. -/
theorem wrapped_inv (h : Lowers above [T] w [R] w') (hstill : T.Still)
    (hchildren : T.children = [word, part]) (hword : word.IsWord) (hpart : part.isExpr = true) :
    ∃ part' w₁, w₁.1.temporaries = w.1.temporaries ∧
      Lowers (T.form :: above) [part] w₁ [part'] w' ∧ R.form = T.form ∧ R.expressions = [part'] ∧
      ∀ name, carriers name [R] = (if T.name? = some name then [R] else []) ++ carriers name [part'] := by
  obtain ⟨w₁, htemporaries, hform, hlowers⟩ := h.still_inv hstill
  rw [hchildren] at hlowers
  obtain ⟨rest, w₂, htemporaries₁, hlowers, hexprs₁, hcarriers₁⟩ := hlowers.skip hword
  obtain ⟨part', rest, w₃, hpart', hlowers, hexprs₂, hcarriers₂⟩ := hlowers.take hpart
  obtain ⟨rfl, rfl⟩ := hlowers.nil_inv
  refine ⟨part', w₂, htemporaries₁.trans htemporaries, hpart', hform, ?_, fun name => ?_⟩
  · rw [expressions, hexprs₁, hexprs₂, List.filter_nil]
  · rw [carriers_eq hform, hcarriers₁, hcarriers₂, carriers_nil, List.append_nil]

/-- What becomes of a conditional without a second branch. -/
theorem branches_inv (h : Lowers above [T] w [R] w') (hform : T.form = .expr .conditional)
    (hchildren : T.children = [word, condition, word', branch]) (hword : word.IsWord)
    (hword' : word'.IsWord) (hcondition : condition.isExpr = true) (hbranch : branch.isExpr = true) :
    ∃ condition' branch' nothing w₁ w₂ w₃ w₄, w₁.1.temporaries = w.1.temporaries ∧
      Lowers (T.form :: above) [condition] w₁ [condition'] w₂ ∧
      w₃.1.temporaries = w₂.1.temporaries ∧ Lowers (T.form :: above) [branch] w₃ [branch'] w₄ ∧
      w'.1.temporaries = w₄.1.temporaries ∧
      R.form = T.form ∧ R.expressions = [condition', branch', nothing] ∧
      ∀ name, carriers name [R] = carriers name [condition'] ++ carriers name [branch'] := by
  have hlength : T.expressions.length = 2 := by
    simp [expressions, hchildren, hword.isExpr_eq, hword'.isExpr_eq, hcondition, hbranch]
  obtain ⟨otherwise, nothing, w₁, hotherwise, hnothing, hleaf, htemporaries, hform', hlowers⟩ :=
    h.conditional_inv hform hlength
  rw [hchildren] at hlowers
  obtain ⟨rest, w₂, htemporaries₁, hlowers, hexprs₁, hcarriers₁⟩ := hlowers.skip hword
  obtain ⟨condition', rest, w₃, hcondition', hlowers, hexprs₂, hcarriers₂⟩ := hlowers.take hcondition
  obtain ⟨rest, w₄, htemporaries₂, hlowers, hexprs₃, hcarriers₃⟩ := hlowers.skip hword'
  obtain ⟨branch', rest, w₅, hbranch', hlowers, hexprs₄, hcarriers₄⟩ := hlowers.take hbranch
  obtain ⟨rest, w₆, htemporaries₃, hlowers, hexprs₅, hcarriers₅⟩ := hlowers.skip hotherwise
  have hnothing' : nothing.isExpr = true := by rw [isExpr, hnothing]; rfl
  obtain ⟨nothing', rest, w₇, hnothing'', hlowers, hexprs₆, hcarriers₆⟩ := hlowers.take hnothing'
  obtain ⟨rfl, rfl⟩ := hlowers.nil_inv
  obtain ⟨htemporaries₄, hsame, hnil⟩ := hnothing''.leaf_inv (still_of_isPlaced hnothing rfl) hleaf
  have hnone : ∀ name, carriers name [nothing'] = [] := fun name => by
    rw [carriers_eq hsame, hnil, name?, hnothing]
    rfl
  refine ⟨condition', branch', nothing', w₂, w₃, w₄, w₅, htemporaries₁.trans htemporaries, hcondition',
    htemporaries₂, hbranch', htemporaries₄.trans htemporaries₃, hform'.trans hform.symm, ?_,
    fun name => ?_⟩
  · rw [expressions, hexprs₁, hexprs₂, hexprs₃, hexprs₄, hexprs₅, hexprs₆, List.filter_nil]
  · have hname : T.name? = none := by rw [name?, hform]; rfl
    rw [carriers_eq (hform'.trans hform.symm), hname, hcarriers₁, hcarriers₂, hcarriers₃, hcarriers₄,
      hcarriers₅, hcarriers₆, hnone, carriers_nil]
    simp

/-- What becomes of a block of two items. -/
theorem items_inv (h : Lowers above [T] w [R] w') (hform : T.form = .expr .block)
    (hchildren : T.children = [word, binding, check, word']) (hword : word.IsWord)
    (hword' : word'.IsWord) (hbinding : binding.isExpr = true) (hcheck : check.isExpr = true) :
    ∃ binding' check' w₁ w₂ w₃, w₁.1.temporaries = w.1.temporaries ∧
      Lowers (T.form :: above) [binding] w₁ [binding'] w₂ ∧
      Lowers (T.form :: above) [check] w₂ [check'] w₃ ∧ w'.1.temporaries = w₃.1.temporaries ∧
      R.form = T.form ∧ R.expressions = [binding', check'] ∧
      ∀ name, carriers name [R] = carriers name [binding'] ++ carriers name [check'] := by
  have hstill : T.Still := by
    refine .inl ?_
    rw [Kept, hform]
    intro item hitem
    simp [expressions, hchildren, hword.isExpr_eq, hword'.isExpr_eq, hbinding, hcheck] at hitem
  obtain ⟨w₁, htemporaries, hform', hlowers⟩ := h.still_inv hstill
  rw [hchildren] at hlowers
  obtain ⟨rest, w₂, htemporaries₁, hlowers, hexprs₁, hcarriers₁⟩ := hlowers.skip hword
  obtain ⟨binding', rest, w₃, hbinding', hlowers, hexprs₂, hcarriers₂⟩ := hlowers.take hbinding
  obtain ⟨check', rest, w₄, hcheck', hlowers, hexprs₃, hcarriers₃⟩ := hlowers.take hcheck
  obtain ⟨rest, w₅, htemporaries₂, hlowers, hexprs₄, hcarriers₄⟩ := hlowers.skip hword'
  obtain ⟨rfl, rfl⟩ := hlowers.nil_inv
  refine ⟨binding', check', w₂, w₃, w₄, htemporaries₁.trans htemporaries, hbinding', hcheck',
    htemporaries₂, hform', ?_, fun name => ?_⟩
  · rw [expressions, hexprs₁, hexprs₂, hexprs₃, hexprs₄, List.filter_nil]
  · have hname : T.name? = none := by rw [name?, hform]; rfl
    rw [carriers_eq hform', hname, hcarriers₁, hcarriers₂, hcarriers₃, hcarriers₄, carriers_nil]
    simp

end

/-- What lowering makes of such a loop binds its temporary once and refers to it once. -/
theorem saidWith_inv {name : String} {condition body : Tree} (h : Lowers above [T] w [R] w')
    (hsaid : SaidWith name condition body T) (hcondition : condition.isExpr = true)
    (hbody : body.isExpr = true) (htaken : name ∈ w.1.temporaries.taken)
    (hnotCondition : name ∉ names [condition]) (hnotBody : name ∉ names [body]) :
    ∃ definition result, LeavesWith name R definition result ∧
      carriers name [R] = [definition, result] := by
  obtain ⟨words, whole_form, branches, loop_form, loop_body, code_form, items, binding_form, group,
    definition_form, value, check_form, check_branches, negated_isExpr, negated_names, leave_form,
    operand, result_form, result_leaf⟩ := hsaid
  have hexpr : ∀ {U : Tree} {form : ExprForm}, U.form = .expr form → U.isExpr = true := fun hform => by
    rw [isExpr, hform]
    rfl
  have hnone : ∀ {U : Tree} {form : ExprForm}, U.form = .expr form →
      Temporaries.nameOf? form = none → U.name? = none := fun hform hnone => by
    rw [name?, hform]
    exact hnone
  -- the outer conditional, its condition and the loop
  obtain ⟨condition', loop', nothing, w₁, w₂, w₃, w₄, ht₁, hlowers₁, ht₂, hlowers₂, -, hform, hexprs,
    hcarriers⟩ := h.branches_inv whole_form branches (words _ (by simp)) (words _ (by simp)) hcondition (hexpr loop_form)
  obtain ⟨htaken₁, hnot₁⟩ := hlowers₁.avoids (ht₁ ▸ htaken) hnotCondition
  obtain ⟨code', w₅, ht₃, hlowers₃, hform₁, hexprs₁, hcarriers₁⟩ :=
    hlowers₂.wrapped_inv (still_of_isPlaced loop_form rfl) loop_body (words _ (by simp)) (hexpr code_form)
  obtain ⟨binding', check', w₆, w₇, w₈, ht₄, hlowers₄, hlowers₅, -, hform₂, hexprs₂, hcarriers₂⟩ :=
    hlowers₃.items_inv code_form items (words _ (by simp)) (words _ (by simp)) (hexpr binding_form) (hexpr check_form)
  -- the definition
  obtain ⟨definition', w₉, ht₅, hlowers₆, hform₃, hexprs₃, hcarriers₃⟩ :=
    hlowers₄.wrapped_inv (still_of_isPlaced binding_form rfl) group (words _ (by simp)) (hexpr definition_form)
  obtain ⟨body', w₁₀, ht₆, hlowers₇, hform₄, hexprs₄, hcarriers₄⟩ :=
    hlowers₆.wrapped_inv (still_of_isPlaced definition_form rfl) value (words _ (by simp)) hbody
  have htaken₂ : name ∈ w₆.1.temporaries.taken := by
    rw [ht₄, ht₃, ht₂]
    exact htaken₁
  obtain ⟨_, hnot₂⟩ := hlowers₇.avoids (by rwa [ht₆, ht₅]) hnotBody
  -- the check and the exit
  obtain ⟨negated', leave', nothing', w₁₁, w₁₂, w₁₃, w₁₄, ht₇, hlowers₈, ht₈, hlowers₉, -, hform₅,
    hexprs₅, hcarriers₅⟩ := hlowers₅.branches_inv check_form check_branches (words _ (by simp)) (words _ (by simp))
      negated_isExpr (hexpr leave_form)
  obtain ⟨_, hnot₃⟩ := hlowers₈.avoids (by rw [ht₇]; exact hlowers₄.taken_subset htaken₂)
    (negated_names ▸ hnotCondition)
  obtain ⟨result', w₁₅, ht₉, hlowers₁₀, hform₆, hexprs₆, hcarriers₆⟩ :=
    hlowers₉.wrapped_inv (still_of_isPlaced leave_form rfl) operand (words _ (by simp))
      (hexpr result_form)
  obtain ⟨-, hform₇, hleaf⟩ := hlowers₁₀.leaf_inv (still_of_isPlaced result_form rfl) result_leaf
  refine ⟨definition', result', ⟨hform.trans whole_form, hexprs, hform₁.trans loop_form, hexprs₁,
    hform₂.trans code_form, hexprs₂, hform₃.trans binding_form, hexprs₃, hform₄.trans definition_form,
    hexprs₄, hform₅.trans check_form, hexprs₅, hform₆.trans leave_form, hexprs₆,
    hform₇.trans result_form⟩, ?_⟩
  have hresult : carriers name [result'] = [result'] := by
    rw [carriers_eq hform₇, hleaf, name?, result_form]
    simp [NodeForm.expr?, Temporaries.nameOf?]
  have hbinds : ∀ {U : Tree}, U.form = .expr (.localDef name false) → U.name? = some name :=
    fun hform => by rw [name?, hform]; rfl
  rw [hcarriers, hcarriers₁, hcarriers₂, hcarriers₃, hcarriers₄, hcarriers₅, hcarriers₆, hresult,
    carriers_eq_nil hnot₁, carriers_eq_nil hnot₂, carriers_eq_nil hnot₃, hnone loop_form rfl,
    hnone binding_form rfl, hnone leave_form rfl, hbinds definition_form]
  simp

/-- Each name that is drawn for a loop is bound and referred to once in what lowering makes, both
in that loop. -/
theorem carriers_of_drawn {name : String} (h : Lowers above trees w trees' w')
    (hnames : names trees ⊆ w.1.temporaries.taken) (hmem : name ∈ w'.1.temporaries.taken)
    (hnot : name ∉ w.1.temporaries.taken) : ∃ whole ∈ nodesAll trees', ∃ definition result,
      LeavesWith name whole definition result ∧ carriers name trees' = [definition, result] := by
  induction h with
  | nil => exact absurd hmem hnot
  | @settles above T T' trees trees' children s s₁ size size₁ w₂ w₃ step below after ihbelow ihafter =>
    obtain ⟨hsame, hname, htemporaries⟩ := step.names_eq
    rw [names_cons, List.append_subset, List.append_subset] at hnames
    obtain ⟨hown, hparts, hothers⟩ := hnames
    have hparts' : names T'.children ⊆ s₁.temporaries.taken := by
      rw [names_singleton, names_singleton, hname, List.append_cancel_left_eq] at hsame
      rw [hsame, htemporaries]
      exact hparts
    have hroot : (T'.withChildren children).name? ≠ some name := by
      change T'.name? ≠ some name
      rw [hname]
      exact fun heq => hnot (hown (by simp [heq]))
    rw [nodesAll_cons, carriers_cons, if_neg hroot, children_withChildren, List.nil_append]
    by_cases hbelow : name ∈ w₂.1.temporaries.taken
    · obtain ⟨whole, hwhole, definition, result, hleaves, hcarriers⟩ :=
        ihbelow hparts' hbelow (by rwa [htemporaries])
      have hclean := (after.avoids hbelow fun hmem => hnot (hothers hmem)).2
      refine ⟨whole, List.mem_cons_of_mem _ (List.mem_append_left _ hwhole), definition, result,
        hleaves, ?_⟩
      rw [hcarriers, carriers_eq_nil hclean, List.append_nil]
    · have htaken : s.temporaries.taken ⊆ w₂.1.temporaries.taken := by
        rw [← htemporaries]
        exact below.taken_subset
      obtain ⟨whole, hwhole, definition, result, hleaves, hcarriers⟩ :=
        ihafter (List.Subset.trans hothers htaken) hmem hbelow
      have hclean : name ∉ names children := by
        intro hmem
        obtain ⟨drawn, hdrew, hnames⟩ := below.drew
        rcases hnames name hmem with hmem | hmem
        · exact hbelow (hdrew.mem_iff.mp hmem).1
        · exact hbelow (below.taken_subset (hparts' hmem))
      refine ⟨whole, List.mem_cons_of_mem _ (List.mem_append_right _ hwhole), definition, result,
        hleaves, ?_⟩
      rw [hcarriers, carriers_eq_nil hclean, List.nil_append]
  | @rewrites above T T' trees trees' s s₁ size size₁ w₂ step again ih =>
    obtain ⟨drawn, hdrew, hstep⟩ := step.drew
    rw [names_cons_eq_append, List.append_subset] at hnames
    obtain ⟨hown, hothers⟩ := hnames
    by_cases hdrawn : name ∈ s₁.temporaries.taken
    · cases step with
      | @whileLoop temporary temporaries condition body _ operands fresh =>
        have htemporary : name = temporary := by
          rw [(Temporaries.Drew.of_fresh? fresh).taken_eq] at hdrawn
          exact List.mem_singleton.mp ((List.mem_append.mp hdrawn).resolve_right hnot)
        subst htemporary
        rw [twoOperands?_eq_some_iff] at operands
        have hpart : ∀ part ∈ [condition, body], part.isExpr = true ∧ name ∉ names [part] := by
          intro part hmem
          obtain ⟨hchild, hexpr⟩ := List.mem_filter.mp (operands ▸ hmem : part ∈ T.expressions)
          refine ⟨hexpr, fun hname => hnot (hown ?_)⟩
          rw [names_singleton]
          exact List.mem_append_right _ (names_subset (by simpa using hchild) hname)
        obtain ⟨R, rest, w₁, rfl, hwhole, hrest⟩ := again.cons_inv
        obtain ⟨definition, result, hleaves, hcarriers⟩ := saidWith_inv hwhole
          (whileLoop_saidWith T name condition body size T.grouped) (hpart _ (by simp)).1
          (hpart _ (by simp)).1 hdrawn (hpart _ (by simp)).2 (hpart _ (by simp)).2
        have hclean := (hrest.avoids (hwhole.taken_subset hdrawn) fun hmem => hnot (hothers hmem)).2
        refine ⟨R, by rw [nodesAll_cons]; exact List.mem_cons_self, definition, result, hleaves, ?_⟩
        rw [carriers_cons_eq_append, hcarriers, carriers_eq_nil hclean, List.append_nil]
      | _ => exact absurd hdrawn hnot
    · refine ih ?_ hmem hdrawn
      rw [names_cons_eq_append, names_inherit, List.append_subset]
      refine ⟨fun other hother => ?_, List.Subset.trans hothers hdrew.taken_subset⟩
      rcases hstep other hother with hmem | hmem
      · exact (hdrew.mem_iff.mp hmem).1
      · exact hdrew.taken_subset (hown hmem)

end Lowers

namespace Tree

/-- What lowering makes of a tree with names that it draws. All of them are new, each is bound by
one local and referred to once, where its loop is left, and all other names are the tree's own. -/
structure Hygienic (T R : Tree) (drawn : List String) : Prop where
  nodup : drawn.Nodup
  not_mem : ∀ name ∈ drawn, name ∉ names [T]
  names_subset : names [R] ⊆ drawn ++ names [T]
  loops : ∀ name ∈ drawn, ∃ whole ∈ R.nodes, ∃ definition result,
    LeavesWith name whole definition result ∧ carriers name [R] = [definition, result]

end Tree

/-- The names that lowering avoids are all those in the tree. -/
theorem Arena.Holds.taken_eq {a : Arena} {parent : Option NodeId} {T : Tree}
    (h : a.Holds parent T) (hnodup : T.ids.Nodup) (stem : String) :
    (Temporaries.ofTree a T.id stem).taken = names [T] := by
  suffices hall : ∀ {height depth : Nat}, T.ids.length ≤ height →
      (a.preorderWithin height depth T.id).filterMap
        (fun entry => a.expr? entry.2 >>= Temporaries.nameOf?) = names [T] from
    hall (h.length_ids_le hnodup)
  clear hnodup
  induction h with
  | @node parent id form span grouped children lt eq children_held ih =>
    intro height depth hheight
    cases height with
    | zero =>
      rw [Tree.ids_eq] at hheight
      simp at hheight
    | succ height =>
      -- every child finds its own names
      have hchildren : ∀ trees : List Tree, (∀ U ∈ trees, U ∈ children) →
          ((trees.map Tree.id).flatMap (a.preorderWithin height (depth + 1))).filterMap
            (fun entry => a.expr? entry.2 >>= Temporaries.nameOf?) = names trees := by
        intro trees
        induction trees with
        | nil => exact fun _ => rfl
        | cons U rest ihrest =>
          intro hmem
          have hU : U ∈ children := hmem U List.mem_cons_self
          have hlt : U.ids.length < (Tree.node id form span grouped children).ids.length :=
            Tree.length_ids_lt_of_mem_children hU
          rw [List.map_cons, List.flatMap_cons, List.filterMap_append, ih U hU (by omega),
            ihrest fun V hV => hmem V (List.mem_cons_of_mem _ hV), ← names_cons_eq_append]
      have hheld : a.Holds parent (.node id form span grouped children) := .node lt eq children_held
      have hown : a.expr? id = form.expr? := hheld.expr?_eq
      have hids : a.children id = children.map Tree.id := hheld.children_eq
      rw [Tree.id, Arena.preorderWithin, List.filterMap_cons, hids, hchildren children fun _ hU => hU,
        names_singleton, Tree.name?]
      simp only [hown, Tree.form, Tree.children]
      cases form.expr? >>= Temporaries.nameOf? <;> rfl

/-- Lowering ends, and what it makes of a tree is hygienic, with the names that it has given out.
There always is one to give. -/
theorem lower_hygienic {a : Arena} {parent : Option NodeId} {path : List (NodeId × NodeForm)}
    {before after : List NodeId} {T : Tree} (hheld : a.Holds parent T)
    (hunder : a.Under parent path T) (hsite : a.Site parent before after T) (stem : String)
    (log : Log) : (∀ t : Temporaries, ∃ name t', t.fresh? = some (name, t') ∧ name ∉ t.taken) ∧
      ∃ R s' a' drawn,
        Edit.replaceAll Lowering.step T.id ⟨log, .ofTree a T.id stem⟩ a = .ok ((R.id, s'), a') ∧
        lower stem T.id log a = .ok ((R.id, s'.log), a') ∧ a'.Holds parent R ∧
        s'.temporaries.taken = drawn ++ names [T] ∧ T.Hygienic R drawn := by
  refine ⟨fun t => ?_, ?_⟩
  · obtain ⟨name, t', hfresh, hdrew⟩ := t.exists_drew
    exact ⟨name, t', hfresh, hdrew.not_mem name (List.mem_singleton_self name)⟩
  obtain ⟨R, s', a', hrun, hlowers, hreplaced⟩ :=
    replaceAll_lowers hheld hunder hsite ⟨log, .ofTree a T.id stem⟩
  have htaken := hheld.taken_eq (List.nodup_append.mp hunder.nodup).2.1 stem
  obtain ⟨drawn, hdrew, hnames⟩ := hlowers.drew
  have hgiven := hdrew.taken_eq
  rw [htaken] at hgiven
  refine ⟨R, s', a', drawn, hrun, lower_eq_of_replaceAll hrun, hreplaced.holds, hgiven,
    hdrew.nodup, fun name hname => ?_, fun name hname => ?_, fun name hname => ?_⟩
  · rw [← htaken]
    exact hdrew.not_mem name hname
  · exact List.mem_append.mpr (hnames name hname)
  · obtain ⟨hmem, hnot⟩ := hdrew.mem_iff.mp hname
    obtain ⟨whole, hwhole, hloop⟩ :=
      hlowers.carriers_of_drawn (fun _ htaken' => htaken ▸ htaken') hmem hnot
    exact ⟨whole, by simpa [Tree.nodesAll] using hwhole, hloop⟩

theorem lower_hygienic_loopTree :
    (loopArena.Holds none loopTree ∧ loopArena.Under none [] loopTree ∧
        loopArena.Site none [] [] loopTree) ∧
      ∃ R s' a' drawn, lower "_" loopTree.id .empty loopArena = .ok ((R.id, s'), a') ∧
        a'.Holds none R ∧ loopTree.Hygienic R drawn := by
  have hunder : loopArena.Under none [] loopTree := ⟨.root, by decide⟩
  have hsite : loopArena.Site none [] [] loopTree := ⟨nofun, nofun, nofun⟩
  obtain ⟨-, R, s', a', drawn, -, hrun, hholds, -, hhygienic⟩ :=
    lower_hygienic holds_loopTree hunder hsite "_" .empty
  exact ⟨⟨holds_loopTree, hunder, hsite⟩, R, s'.log, a', drawn, hrun, hholds, hhygienic⟩

end MessageLang
