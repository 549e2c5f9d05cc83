import MessageLang.Proofs.Core.Lowered
import MessageLang.Proofs.Core.Names

namespace MessageLang

open Lowering (needsBlock)

/-- The form that an item of a struct has in the end, given how many items there are before it. What
is no item of a struct keeps its form. -/
def NodeForm.asItem : Option Nat → NodeForm → NodeForm
  | some index, .expr (.structField declared) =>
    .expr (.structField (some (declared.getD (Placement.positional index))))
  | _, form => form

theorem NodeForm.asItem_eq_or (item? : Option Nat) (form : NodeForm) : form.asItem item? = form ∨
    form = .expr (.structField none) ∧
      ∃ index, form.asItem item? = .expr (.structField (some (Placement.positional index))) := by
  unfold NodeForm.asItem
  split
  · next index declared =>
    cases declared with
    | none => exact .inr ⟨rfl, index, rfl⟩
    | some name => exact .inl rfl
  · exact .inl rfl

/-- How many items there are before the children of a node, if these are the items of a struct. -/
def NodeForm.items? : NodeForm → Option Nat
  | .expr .struct => some 0
  | _ => none

namespace Tree

/-- What stands at a place of a tree: a node that there was before, or a new one. -/
abbrev Stand := Option (NodeId × NodeForm)

/-- What the node of a tree stands as, if there were so many nodes before. -/
def stand (n : Nat) (item? : Option Nat) (T : Tree) : Stand :=
  if T.id.index < n then some (T.id, T.form.asItem item?) else none

/-- What stands in some trees, in order, tokens aside. -/
def standing (n : Nat) (trees : List Tree) : List Stand :=
  ((nodesAll trees).filter (·.form.token?.isNone)).map (stand n none)

/-- What stands as the types of a handler that was a function, of which the types are given. -/
def typesInPlace (input output : Bool) (types : List (List Stand)) : List Stand :=
  (if input then types.headD [none] else [none]) ++
    (if output then (types.drop input.toNat).headD [] else [])

/-- What stands in place of a node in the end, given what does in place of its children. -/
def inPlace (own : Stand) (form : NodeForm) (parts : List (NodeForm × List Stand)) : List Stand :=
  let types := (parts.filter (·.1.type?.isSome)).map (·.2)
  match form, parts.filter (·.1.expr?.isSome) with
  | .token _, _ => []
  | .expr (.unary _), (_, operand) :: _ => none :: (operand ++ [none])
  | .expr (.binary op), [(_, left), (_, right)] =>
    if (LogicOp.ofText? op).isSome then none :: parts.flatMap (·.2)
    else none :: none :: (left ++ none :: right)
  | .expr .whileLoop, [(_, condition), (_, body)] =>
    -- in the loop the body is bound, and then the condition comes a second time, as a copy
    none :: (condition ++ (.replicate 4 none ++ (body ++ (.replicate 2 none ++
      (.replicate condition.length none ++ .replicate 5 none)))))
  | .expr (.function input output), (_, body) :: _ =>
    -- an object, its code and the handler in it
    .replicate 3 none ++ (typesInPlace input output types ++ body)
  | .expr .block, [(item, stands)] =>
    if item.expr?.any needsBlock then own :: parts.flatMap (·.2) else stands
  | .expr .conditional, [_, _] => own :: (parts.flatMap (·.2) ++ [none])
  | _, _ => own :: parts.flatMap (·.2)

mutual

/-- What stands in place of a tree once it is lowered. -/
def becomes (n : Nat) (item? : Option Nat) : Tree → List Stand
  | node id form span grouped children =>
    inPlace (stand n item? (node id form span grouped children)) form
      (partsOf n form.items? children)

/-- What stands in place of each of some trees, with what these are. -/
def partsOf (n : Nat) (item? : Option Nat) : List Tree → List (NodeForm × List Stand)
  | [] => []
  | T :: rest => (T.form, T.becomes n item?) ::
      partsOf n (if T.isExpr then item?.map (· + 1) else item?) rest

end

variable {T : Tree} {trees : List Tree} {n size : Nat} {item? : Option Nat} {form : NodeForm}
  {span : Span} {twigs : List Twig} {parts : List (NodeForm × List Stand)}

theorem becomes_eq (n : Nat) (item? : Option Nat) (T : Tree) : T.becomes n item? =
    inPlace (T.stand n item?) T.form (partsOf n T.form.items? T.children) := by
  cases T
  rfl

/-- A tree with what stands in its place. -/
def part (n : Nat) (T : Tree) : NodeForm × List Stand := (T.form, T.becomes n none)

theorem partsOf_none (n : Nat) (trees : List Tree) : partsOf n none trees = trees.map (part n) := by
  induction trees with
  | nil => rfl
  | cons T rest ih =>
    rw [partsOf, Option.map_none, ite_self, ih]
    rfl

theorem standing_cons : standing n (T :: trees) =
    (if T.form.token?.isNone then [T.stand n none] else []) ++
      (standing n T.children ++ standing n trees) := by
  rw [standing, nodesAll_cons, List.filter_cons, List.filter_append, standing, standing]
  split <;> simp

theorem filter_isExpr_map_part (n : Nat) (T : Tree) :
    (T.children.map (part n)).filter (·.1.expr?.isSome) = T.expressions.map (part n) := by
  rw [List.filter_map]
  rfl

theorem filter_isType_map_part (n : Nat) (T : Tree) :
    (T.children.map (part n)).filter (·.1.type?.isSome) = T.types.map (part n) := by
  rw [List.filter_map]
  rfl

/-- A node that is added is new. -/
theorem stand_of_le (h : n ≤ T.id.index) (item? : Option Nat) : T.stand n item? = none :=
  if_neg (Nat.not_lt.mpr h)

/-- Making a tree in place of which certain things stand, out of new nodes and trees there are. -/
def Makes (n : Nat) (step : Growing Tree) (made : NodeForm × List Stand) : Prop :=
  ∀ size, n ≤ size → (step size).1.part n = made ∧ n ≤ (step size).2

section

variable {step : Growing Tree} {next : Tree → Growing Tree} {made made' : NodeForm × List Stand}

theorem Makes.bind (h : Makes n step made) (hnext : ∀ U : Tree, U.part n = made →
    Makes n (next U) made') : Makes n (step >>= next) made' := fun size hn =>
  hnext _ (h size hn).1 _ (h size hn).2

theorem makes_pure (T : Tree) : Makes n (pure T) (T.part n) := fun _ hn => ⟨rfl, hn⟩

theorem makes_leaf : Makes n (leaf form span) (form, inPlace none form []) := fun size hn => by
  refine ⟨?_, Nat.le_succ_of_le hn⟩
  rw [part, becomes_eq, stand_of_le hn]
  rfl

/-- A child in the making with what stands in its place. -/
def Twig.part (n : Nat) : Twig → NodeForm × List Stand
  | tree T => T.part n
  | token t => (.token t, [])

theorem map_part_leaves (twigs : List Twig) (hn : n ≤ size) :
    (leaves twigs size).1.map (Tree.part n) = twigs.map (Twig.part n) ∧
      n ≤ (leaves twigs size).2 := by
  induction twigs generalizing size with
  | nil => exact ⟨rfl, hn⟩
  | cons twig twigs ih =>
    cases twig with
    | tree T =>
      obtain ⟨hparts, hle⟩ := ih hn
      exact ⟨congrArg (T.part n :: ·) hparts, hle⟩
    | token t =>
      obtain ⟨hparts, hle⟩ := ih (Nat.le_succ_of_le hn)
      exact ⟨congrArg ((NodeForm.token t, []) :: ·) hparts, hle⟩

/-- Children in the making have such things standing in their places. -/
abbrev Twig.Parts (n : Nat) : List Twig → List (NodeForm × List Stand) → Prop :=
  List.Forall₂ fun twig part => twig.part n = part

theorem Twig.Parts.append {twigs' : List Twig} {parts' : List (NodeForm × List Stand)}
    (h : Parts n twigs parts) (h' : Parts n twigs' parts') :
    Parts n (twigs ++ twigs') (parts ++ parts') := List.rel_append h h'

theorem Twig.parts_map_tree (n : Nat) (trees : List Tree) :
    Parts n (trees.map .tree) (trees.map (Tree.part n)) :=
  List.forall₂_map_left_iff.mpr
    (List.forall₂_map_right_iff.mpr (List.forall₂_same.mpr fun _ _ => rfl))

theorem makes_allocAt (hitems : form.items? = none) (hparts : Twig.Parts n twigs parts) :
    Makes n (allocAt form span twigs) (form, inPlace none form parts) := fun size hn => by
  obtain ⟨hsame, hle⟩ := map_part_leaves twigs hn
  refine ⟨?_, Nat.le_succ_of_le hle⟩
  have hchildren : (allocAt form span twigs size).1.children = (leaves twigs size).1 := rfl
  have htwigs : twigs.map (Twig.part n) = parts := by
    have hmap := (List.forall₂_map_left_iff (f := Twig.part n)).mpr hparts
    exact List.forall₂_eq_eq_eq ▸ hmap
  rw [part, becomes_eq, stand_of_le hle, form_allocAt, hitems, partsOf_none, hchildren, hsame,
    htwigs]

theorem makes_alloc (hitems : form.items? = none) (hparts : Twig.Parts n twigs parts) :
    Makes n (alloc form twigs) (form, inPlace none form parts) := fun size hn =>
  makes_allocAt hitems hparts size hn

theorem typesInPlace_map {f : Stand → Stand} (hf : f none = none) (input output : Bool)
    (types : List (List Stand)) :
    typesInPlace input output (types.map (List.map f)) =
      (typesInPlace input output types).map f := by
  unfold typesInPlace
  cases input <;> cases output <;> rcases types with _ | ⟨first, _ | ⟨second, rest⟩⟩ <;> simp [hf]

/-- Other nodes standing in place of the children stand there in place of the node as well. -/
theorem inPlace_map {f : Stand → Stand} (hf : f none = none) (own : Stand) (form : NodeForm)
    (parts : List (NodeForm × List Stand)) :
    inPlace (f own) form (parts.map fun part => (part.1, part.2.map f)) =
      (inPlace own form parts).map f := by
  have hflat : (parts.map fun part => (part.1, part.2.map f)).flatMap (·.2) =
      (parts.flatMap (·.2)).map f := by
    rw [List.flatMap_map, List.map_flatMap]
  have htypes :
      ((parts.map fun part => (part.1, part.2.map f)).filter (·.1.type?.isSome)).map (·.2) =
        ((parts.filter (·.1.type?.isSome)).map (·.2)).map (List.map f) := by
    rw [List.filter_map, List.map_map, List.map_map]
    rfl
  unfold inPlace
  simp only [htypes, hflat, typesInPlace_map hf]
  rw [List.filter_map, Function.comp_def]
  generalize parts.filter (·.1.expr?.isSome) = expressions
  cases form with
  | expr form =>
    rcases expressions with _ | ⟨first, _ | ⟨second, _ | _⟩⟩ <;> cases form <;>
      simp [hf, apply_ite (List.map f)]
  | _ => rfl

/-- In place of a copy stand new nodes, in place of each of its parts too. -/
theorem becomes_copy (T : Tree) : ∀ {size : Nat} (item? : Option Nat), n ≤ size →
    (T.copy size).1.becomes n item? = (T.becomes n item?).map (fun _ => none) ∧
      n ≤ (T.copy size).2 := by
  induction T with
  | node id form span grouped children ih =>
    have hall : ∀ trees ⊆ children, ∀ {size : Nat} (item? : Option Nat), n ≤ size →
        partsOf n item? (copyAll trees size).1 =
          (partsOf n item? trees).map (fun part => (part.1, part.2.map fun _ => none)) ∧
        n ≤ (copyAll trees size).2 := by
      intro trees
      induction trees with
      | nil => exact fun _ _ _ hn => ⟨rfl, hn⟩
      | cons U rest ihrest =>
        intro hsub size item? hn
        obtain ⟨hmem, hmore⟩ := List.cons_subset.mp hsub
        obtain ⟨hU, hle⟩ := ih U hmem item? hn
        obtain ⟨hrest, hle'⟩ := ihrest hmore (if U.isExpr then item?.map (· + 1) else item?) hle
        have hcopies : (copyAll (U :: rest) size).1 =
          (U.copy size).1 :: (copyAll rest (U.copy size).2).1 := rfl
        refine ⟨?_, hle'⟩
        rw [hcopies, partsOf, partsOf, List.map_cons, isExpr, form_copy, hU, ← hrest, isExpr]
    intro size item? hn
    obtain ⟨hparts, hle⟩ := hall children (List.Subset.refl _) form.items? hn
    refine ⟨?_, Nat.le_succ_of_le hle⟩
    rw [copy_eq, becomes, becomes, ← inPlace_map rfl, ← hparts, stand_of_le hle]
    rfl

theorem makes_copy (T : Tree) :
    Makes n T.copy (T.form, List.replicate (T.becomes n none).length none) := fun size hn => by
  obtain ⟨hcopy, hle⟩ := becomes_copy T none hn
  rw [part, hcopy, form_copy, List.map_const']
  exact ⟨rfl, hle⟩

end

theorem makes_unary (operand : Tree) (op : String) :
    Makes n (T.unary op operand) (.expr .call, none :: (operand.becomes n none ++ [none])) := by
  have h : Makes n (T.unary op operand) _ := makes_leaf.bind fun message hmessage =>
    makes_allocAt rfl (.cons rfl (.cons hmessage .nil))
  unfold inPlace at h
  simpa [Twig.part, part] using h

theorem makes_binary (left right : Tree) (op : String) :
    Makes n (T.binary op left right) (.expr .call,
      none :: none :: (left.becomes n none ++ none :: right.becomes n none)) := by
  have h : Makes n (T.binary op left right) _ := .bind makes_leaf fun message hmessage =>
    .bind (makes_alloc rfl (.cons rfl (.cons hmessage .nil))) fun part hpart =>
      makes_allocAt rfl (.cons hpart (.cons rfl .nil))
  unfold inPlace at h
  simpa [Twig.part, part] using h

theorem makes_logic (op : LogicOp) : Makes n (T.logic op) (.expr (.logic op),
    none :: (T.children.map (part n)).flatMap (·.2)) :=
  makes_allocAt rfl (Twig.parts_map_tree n T.children)

theorem makes_orEmpty (span : Span) (type? : Option Tree) : Makes n (orEmpty span type?)
    ((type?.map Tree.form).getD (.type .empty), (type?.map (becomes n none)).getD [none]) := by
  cases type? with
  | none => exact makes_leaf
  | some type => exact makes_pure type

theorem typesInPlace_map_becomes (n : Nat) (T : Tree) (input output : Bool) :
    typesInPlace input output (T.types.map (becomes n none)) =
      ((T.inputType? input).map (becomes n none)).getD [none] ++
        ((T.outputType? input output).toList.map (part n)).flatMap (·.2) := by
  unfold typesInPlace inputType? outputType?
  cases input <;> cases output <;> rcases T.types with _ | ⟨first, _ | ⟨second, rest⟩⟩ <;>
    simp [part]

/-- A function becomes an object with a handler for its input. -/
theorem makes_function (body : Tree) (input output : Bool) :
    Makes n (T.function input output body) (.expr .newObject, .replicate 3 none ++
      (typesInPlace input output (T.types.map (becomes n none)) ++ body.becomes n none)) := by
  have h : Makes n (T.function input output body) _ :=
    .bind (makes_orEmpty _ _) fun inputType hinput =>
    .bind (makes_allocAt rfl (.append (.append (.cons rfl (.cons hinput .nil))
      (Twig.parts_map_tree n _)) (.cons rfl .nil))) fun handler hhandler =>
    .bind (makes_allocAt rfl (.cons rfl (.cons hhandler (.cons rfl .nil)))) fun code hcode =>
    makes_allocAt rfl (.cons rfl (.cons hcode .nil))
  unfold inPlace at h
  rw [typesInPlace_map_becomes]
  simpa [Twig.part, part, NodeForm.expr?, needsBlock] using h

/-- Of a loop with its condition in front the condition is copied, and nothing else is. -/
theorem makes_whileLoop {condition : Tree} {form : ExprForm} (hsort : condition.form = .expr form)
    (body : Tree) (temporary : String) : Makes n (T.whileLoop temporary condition body)
      (.expr .conditional, none :: (condition.becomes n none ++ (.replicate 4 none ++
        (body.becomes n none ++ (.replicate 2 none ++
          (.replicate (condition.becomes n none).length none ++ .replicate 5 none)))))) := by
  have h : Makes n (T.whileLoop temporary condition body) _ :=
    .bind (makes_allocAt rfl (.cons rfl (.cons rfl .nil))) fun definition hdefinition =>
    .bind (makes_allocAt rfl (.cons rfl (.cons hdefinition .nil))) fun binding hbinding =>
    .bind (makes_copy condition) fun again hagain =>
    .bind makes_leaf fun not hnot =>
    .bind (makes_alloc rfl (.cons hagain (.cons hnot .nil))) fun negated hnegated =>
    .bind makes_leaf fun result hresult =>
    .bind (makes_alloc rfl (.cons rfl (.cons hresult .nil))) fun leave hleave =>
    .bind (makes_alloc rfl (.cons rfl (.cons hnegated (.cons rfl (.cons hleave .nil)))))
      fun check hcheck =>
    .bind (makes_alloc rfl (.cons rfl (.cons hbinding (.cons hcheck (.cons rfl .nil)))))
      fun code hcode =>
    .bind (makes_alloc rfl (.cons rfl (.cons hcode .nil))) fun loop hloop =>
    makes_allocAt rfl (.cons rfl (.cons rfl (.cons rfl (.cons hloop .nil))))
  unfold inPlace at h
  simpa [Twig.part, part, hsort, NodeForm.expr?] using h

section

variable {left right item : Tree} {others : List Tree} {op : String}

/-- What stands in place of a node other than a struct. -/
theorem becomes_eq_inPlace (hform : T.form = form) (hitems : form.items? = none) :
    T.becomes n item? = inPlace (T.stand n item?) form (T.children.map (part n)) := by
  rw [becomes_eq, hform, hitems, partsOf_none]

theorem becomes_unary (hform : T.form = .expr (.unary op))
    (operands : T.expressions = left :: others) :
    T.becomes n item? = none :: (left.becomes n none ++ [none]) := by
  rw [becomes_eq_inPlace hform rfl]
  unfold inPlace
  rw [filter_isExpr_map_part, operands]
  rfl

theorem becomes_logic {logic : LogicOp} (hform : T.form = .expr (.binary op))
    (hlogic : LogicOp.ofText? op = some logic) (operands : T.expressions = [left, right]) :
    T.becomes n item? = none :: (T.children.map (part n)).flatMap (·.2) := by
  rw [becomes_eq_inPlace hform rfl]
  unfold inPlace
  rw [filter_isExpr_map_part, operands]
  exact if_pos (Option.isSome_of_eq_some hlogic)

theorem becomes_binary (hform : T.form = .expr (.binary op)) (hlogic : LogicOp.ofText? op = none)
    (operands : T.expressions = [left, right]) : T.becomes n item? =
      none :: none :: (left.becomes n none ++ none :: right.becomes n none) := by
  rw [becomes_eq_inPlace hform rfl]
  unfold inPlace
  rw [filter_isExpr_map_part, operands]
  exact if_neg (by simp [hlogic])

theorem becomes_whileLoop (hform : T.form = .expr .whileLoop)
    (operands : T.expressions = [left, right]) : T.becomes n item? =
      none :: (left.becomes n none ++ (.replicate 4 none ++ (right.becomes n none ++
        (.replicate 2 none ++ (.replicate (left.becomes n none).length none ++
          .replicate 5 none))))) := by
  rw [becomes_eq_inPlace hform rfl]
  unfold inPlace
  rw [filter_isExpr_map_part, operands]
  rfl

theorem becomes_function {input output : Bool} (hform : T.form = .expr (.function input output))
    (operands : T.expressions = left :: others) : T.becomes n item? = .replicate 3 none ++
      (typesInPlace input output (T.types.map (becomes n none)) ++ left.becomes n none) := by
  rw [becomes_eq_inPlace hform rfl]
  unfold inPlace
  rw [filter_isExpr_map_part, filter_isType_map_part, operands, List.map_map]
  rfl

theorem becomes_block (hform : T.form = .expr .block) (items : T.expressions = [item])
    (free : item.expr?.any needsBlock = false) : T.becomes n item? = item.becomes n none := by
  rw [becomes_eq_inPlace hform rfl]
  unfold inPlace
  rw [filter_isExpr_map_part, items]
  exact if_neg (Bool.eq_false_iff.mp free)

end

section

variable {s s' : Lowering} {made : Tree × Nat} {above : List NodeForm}

/-- What stands in place of a tree does so in place of what it is rewritten to. -/
theorem Rewrites.becomes_eq (h : T.Rewrites s size made s') (hn : n ≤ size) :
    made.1.becomes n none = T.becomes n none ∧ n ≤ made.2 := by
  have hmade : ∀ {step : Growing Tree} {form : NodeForm} {stands : List Stand},
      Makes n step (form, stands) → T.becomes n none = stands →
        (step size).1.becomes n none = T.becomes n none ∧ n ≤ (step size).2 := by
    rintro step form _ hstep rfl
    exact ⟨congrArg Prod.snd (hstep size hn).1, (hstep size hn).2⟩
  cases h with
  | @unary op operand others hform operands =>
    exact hmade (makes_unary operand op) (becomes_unary hform operands)
  | @logic text op left right hform hlogic operands =>
    exact hmade (makes_logic op)
      (becomes_logic hform hlogic (twoOperands?_eq_some_iff.mp operands))
  | @binary op left right hform hlogic operands =>
    exact hmade (makes_binary left right op)
      (becomes_binary hform hlogic (twoOperands?_eq_some_iff.mp operands))
  | @whileLoop temporary temporaries condition body hform operands fresh =>
    rw [twoOperands?_eq_some_iff] at operands
    have hcondition : condition ∈ T.expressions := operands ▸ List.mem_cons_self
    obtain ⟨form, hsort⟩ := exists_form_eq_expr_of_mem_expressions hcondition
    exact hmade (makes_whileLoop hsort body temporary) (becomes_whileLoop hform operands)
  | @function input output body others hform operands =>
    exact hmade (makes_function body input output) (becomes_function hform operands)
  | @block item hform items free =>
    refine ⟨?_, hn⟩
    rw [becomes_block hform items free]
    cases item
    rfl

/-- What is no field of a struct keeps its form as an item of one. -/
theorem becomes_item {index : Nat} (h : ∀ declared, T.form ≠ .expr (.structField declared)) :
    T.becomes n (some index) = T.becomes n none := by
  have hstand : T.stand n (some index) = T.stand n none := by
    unfold stand
    congr 3
    unfold NodeForm.asItem
    split
    · next declared _ hform => exact absurd hform (h declared)
    · rfl
  rw [becomes_eq, hstand, ← becomes_eq]

theorem becomes_field {index : Nat} {declared : Option String} {name : String}
    (hform : T.form = .expr (.structField declared))
    (hname : declared.getD (Placement.positional index) = name) :
    T.becomes n (some index) = (T.setForm (.expr (.structField name))).becomes n none := by
  have hstand : T.stand n (some index) = (T.setForm (.expr (.structField name))).stand n none := by
    rw [stand, hform, ← hname]
    rfl
  rw [becomes_eq, hstand, hform, becomes_eq, form_setForm, children_setForm]
  rfl

/-- What stands in place of the items of a struct, which have been given their names. -/
theorem flatMap_partsOf_items (n : Nat) (log : Log) (seen : Placement.FieldsSeen) (index : Nat)
    (trees : List Tree) : (partsOf n (some index) trees).flatMap (·.2) =
      ((nameFields log seen index trees).2.map (part n)).flatMap (·.2) := by
  induction trees generalizing log seen index with
  | nil => rfl
  | cons T rest ih =>
    unfold nameFields
    split
    · next declared hform =>
      have hexpr : T.isExpr = true := by rw [isExpr, hform]; rfl
      rw [partsOf, List.flatMap_cons, if_pos hexpr, becomes_field hform rfl]
      exact congrArg _ (ih ..)
    · next form hnot hform =>
      have hexpr : T.isExpr = true := by rw [isExpr, hform]; rfl
      rw [partsOf, List.flatMap_cons, if_pos hexpr, becomes_item fun declared heq =>
        hnot declared (NodeForm.expr.inj (hform.symm.trans heq))]
      exact congrArg _ (ih ..)
    · next hfield hexpr =>
      have hexpr' : T.isExpr = false := by
        rw [isExpr]
        cases hform : T.form with
        | expr form => exact absurd hform (hexpr form)
        | _ => rfl
      rw [partsOf, List.flatMap_cons, hexpr', if_neg (by simp), becomes_item hfield]
      exact congrArg _ (ih ..)

/-- In place of a tree that nothing is done about it stands itself. -/
theorem Kept.becomes_eq (h : T.Kept) (hlaid : T.laidOut = true) :
    T.becomes n none = (if T.form.token?.isNone then [T.stand n none] else []) ++
      (T.children.map (part n)).flatMap (·.2) := by
  unfold Kept at h
  rw [Tree.becomes_eq]
  cases hform : T.form with
  | token t =>
    rw [children_eq_nil_of_token hlaid (by rw [hform]; rfl)]
    rfl
  | type form =>
    have hitems : (NodeForm.type form).items? = none := rfl
    rw [hitems, partsOf_none]
    rfl
  | expr form =>
    rw [hform] at h
    unfold inPlace
    rcases hexprs : T.expressions with _ | ⟨first, _ | ⟨second, _ | _⟩⟩ <;> cases form <;>
      simp_all [NodeForm.items?, partsOf_none, filter_isExpr_map_part, twoOperands?, part, expr?]

/-- In place of a tree that settles it stands itself, and what does in place of its parts. -/
theorem Settles.becomes_eq (h : T.Settles above s size made s') (hlaid : T.laidOut = true)
    (hn : n ≤ size) :
    T.becomes n none = (if made.1.form.token?.isNone then [made.1.stand n none] else []) ++
      (made.1.children.map (part n)).flatMap (·.2) ∧ n ≤ made.2 := by
  cases h with
  | conditional form_eq branches =>
    obtain ⟨first, second, htwo⟩ := List.length_eq_two.mp branches
    let nothing := (leaf (.expr (.constant .nothing)) (.point T.span.stop) size).1
    obtain ⟨hnothing, hn₁⟩ : nothing.part n = (.expr (.constant .nothing), [none]) ∧ n ≤ size + 1 :=
      makes_leaf size hn
    obtain ⟨hparts, hn₂⟩ :=
      map_part_leaves [.token (.keyword .elseWord T.span.stop), .tree nothing] hn₁
    have hchildren : (T.completeConditional size).1.children = T.children ++
      (leaves [.token (.keyword .elseWord T.span.stop), .tree nothing] (size + 1)).1 := rfl
    have hform : (T.completeConditional size).1.form = T.form := rfl
    have hstand : (T.completeConditional size).1.stand n none = T.stand n none := rfl
    refine ⟨?_, hn₂⟩
    rw [becomes_eq_inPlace form_eq rfl, hchildren, hform, form_eq, List.map_append, hparts, hstand]
    unfold inPlace
    simp [filter_isExpr_map_part, htwo, Twig.part, hnothing]
  | struct form_eq =>
    refine ⟨?_, hn⟩
    rw [Tree.becomes_eq, form_eq, children_withChildren, ← flatMap_partsOf_items,
      form_withChildren, form_eq]
    rfl
  | @placed form form_eq hplaced =>
    refine ⟨?_, hn⟩
    rw [Tree.becomes_eq, form_eq]
    unfold inPlace
    cases form <;> simp [isPlaced] at hplaced <;> simp [NodeForm.items?, partsOf_none]
  | kept kept => exact ⟨kept.becomes_eq hlaid, hn⟩

end

end Tree

/-- What stands in some trees that have been lowered. -/
theorem Lowers.standing_eq {above : List NodeForm} {trees trees' : List Tree}
    {w w' : Lowering × Nat} {n : Nat} (h : Lowers above trees w trees' w')
    (hlaid : ∀ T ∈ trees, T.laidOut = true) (hn : n ≤ w.2) :
    Tree.standing n trees' = (trees.map (Tree.part n)).flatMap (·.2) ∧ n ≤ w'.2 := by
  induction h with
  | nil => exact ⟨rfl, hn⟩
  | @settles above T T' trees trees' children s s₁ size size₁ w₂ w₃ step _ _ ihbelow ihafter =>
    obtain ⟨hT, hrest⟩ := List.forall_mem_cons.mp hlaid
    obtain ⟨hbecomes, hn₁⟩ := step.becomes_eq hT hn
    obtain ⟨hbelow, hn₂⟩ :=
      ihbelow (fun child hchild => Tree.laidOut_of_mem_children (step.laidOut hT) hchild) hn₁
    obtain ⟨hafter, hn₃⟩ := ihafter hrest hn₂
    refine ⟨?_, hn₃⟩
    rw [Tree.standing_cons, Tree.children_withChildren, Tree.form_withChildren, hbelow, hafter,
      List.map_cons, List.flatMap_cons, ← List.append_assoc]
    exact congrArg (· ++ _) hbecomes.symm
  | @rewrites above T T' trees trees' s s₁ size size₁ w₂ step _ ih =>
    obtain ⟨hT, hrest⟩ := List.forall_mem_cons.mp hlaid
    obtain ⟨hbecomes, hn₁⟩ := step.becomes_eq hn
    have hT' : (T'.inherit T.grouped).laidOut = true := by
      rw [Tree.laidOut_inherit]
      exact step.laidOut hT
    obtain ⟨hagain, hn₂⟩ := ih (List.forall_mem_cons.mpr ⟨hT', hrest⟩) hn₁
    refine ⟨?_, hn₂⟩
    have hinherit : (T'.inherit T.grouped).becomes n none = T'.becomes n none := by
      cases T.grouped <;> cases T' <;> rfl
    rw [hagain, List.map_cons, List.map_cons, List.flatMap_cons, List.flatMap_cons]
    exact congrArg (· ++ _) (hinherit.trans hbecomes)

end MessageLang
