import MessageLang.Proofs.Core.Standing
import Mathlib.Data.List.ReduceOption

namespace MessageLang

open Lowering (needsBlock)

namespace Tree

/-- Whether a tree is a block that its only item can stand for. -/
def collapses (T : Tree) : Bool :=
  match T.form, T.expressions with
  | .expr .block, [item] => !item.expr?.any needsBlock
  | _, _ => false

/-- Whether the node of a tree is one of the core language already. -/
def remains (T : Tree) : Bool :=
  match T.form with
  | .token _ => false
  | .type _ => true
  | .expr form => !form.isSurfaceOnly && !T.collapses

mutual

/-- The nodes of a tree, before those below them, that are of the core language already. Fields of a
struct are given their names. -/
def lasting (item? : Option Nat) : Tree → List (NodeId × NodeForm)
  | node id form span grouped children =>
    (if (node id form span grouped children).remains then [(id, form.asItem item?)] else []) ++
      lastingAll form.items? children

def lastingAll (item? : Option Nat) : List Tree → List (NodeId × NodeForm)
  | [] => []
  | T :: rest => T.lasting item? ++ lastingAll (if T.isExpr then item?.map (· + 1) else item?) rest

end

/-- Whether the types among the children of a tree are before the expressions. -/
def TypesLead (T : Tree) : Prop :=
  T.children.Pairwise fun U V => U.isExpr = true → V.isType = false

instance (T : Tree) : Decidable T.TypesLead := inferInstanceAs (Decidable (List.Pairwise ..))

/-- Whether the types of every function in a tree are before its body. -/
def TypesFirst (T : Tree) : Prop :=
  ∀ X ∈ T.nodes, ∀ input output, X.form = .expr (.function input output) → X.TypesLead

instance (T : Tree) : Decidable T.TypesFirst :=
  inferInstanceAs (Decidable (∀ X ∈ T.nodes, _))

variable {T : Tree} {n : Nat} {item? : Option Nat}

/-- Being the node of a tree, with a name now if that is a field without one. -/
structure IsNode (entry : NodeId × NodeForm) (X : Tree) : Prop where
  id_eq : entry.1 = X.id
  form : entry.2 = X.form ∨ X.form = .expr (.structField none) ∧
    ∃ index, entry.2 = .expr (.structField (some (Placement.positional index)))

/-- The nodes that last are those that remain, in order. -/
theorem forall₂_lasting (T : Tree) (item? : Option Nat) :
    List.Forall₂ IsNode (T.lasting item?) (T.nodes.filter remains) := by
  induction T generalizing item? with
  | node id form span grouped children ih =>
    have hall : ∀ trees ⊆ children, ∀ item? : Option Nat,
        List.Forall₂ IsNode (lastingAll item? trees) ((nodesAll trees).filter remains) := by
      intro trees
      induction trees with
      | nil => exact fun _ _ => .nil
      | cons U rest ihrest =>
        intro hsub item?
        obtain ⟨hU, hrest⟩ := List.cons_subset.mp hsub
        rw [lastingAll, nodesAll, List.filter_append]
        exact List.rel_append (ih U hU item?) (ihrest hrest _)
    have hbelow := hall children (List.Subset.refl _) form.items?
    rw [lasting, nodes, List.filter_cons]
    split
    · exact .cons ⟨rfl, form.asItem_eq_or item?⟩ hbelow
    · exact hbelow

theorem becomes_of_token (h : T.form.token?.isSome) (n : Nat) (item? : Option Nat) :
    T.becomes n item? = [] := by
  rw [becomes_eq]
  cases hform : T.form with
  | token => rfl
  | _ => rw [hform] at h; cases h

theorem flatMap_map_part (n : Nat) (trees : List Tree) :
    (trees.map (part n)).flatMap (·.2) = trees.flatMap (becomes n none) := List.flatMap_map ..

/-- In place of the children of a tree stands what does in place of its types and expressions. -/
theorem flatMap_children_perm (n : Nat) (T : Tree) : (T.children.flatMap (becomes n none)).Perm
    (T.types.flatMap (becomes n none) ++ T.expressions.flatMap (becomes n none)) := by
  have hwords : T.words.flatMap (becomes n none) = [] := by
    rw [List.flatMap_eq_nil_iff]
    exact fun child hchild => becomes_of_token (List.mem_filter.mp hchild).2 n none
  refine (T.children_perm.flatMap_right _).trans ?_
  rw [List.flatMap_append, List.flatMap_append, hwords, List.append_nil]
  exact List.perm_append_comm

/-- With the types first, what stands in place of the children is in that order too. -/
theorem TypesLead.flatMap_children (h : T.TypesLead) (n : Nat) :
    T.children.flatMap (becomes n none) =
      T.types.flatMap (becomes n none) ++ T.expressions.flatMap (becomes n none) := by
  unfold TypesLead at h
  unfold types expressions
  generalize T.children = trees at h
  induction trees with
  | nil => rfl
  | cons child rest ih =>
    obtain ⟨hchild, hrest⟩ := List.pairwise_cons.mp h
    rw [List.flatMap_cons, ih hrest]
    cases hform : child.form with
    | token t =>
      rw [List.filter_cons_of_neg (by simp [isType, hform, NodeForm.type?]),
        List.filter_cons_of_neg (by simp [isExpr, hform, NodeForm.expr?]),
        becomes_of_token (by rw [hform]; rfl), List.nil_append]
    | type form =>
      rw [List.filter_cons_of_pos (by simp [isType, hform, NodeForm.type?]),
        List.filter_cons_of_neg (by simp [isExpr, hform, NodeForm.expr?]), List.flatMap_cons,
        List.append_assoc]
    | expr form =>
      have hexpr : child.isExpr = true := by rw [isExpr, hform]; rfl
      have hnil : rest.filter isType = [] :=
        List.filter_eq_nil_iff.mpr fun V hV => by simp [hchild V hV hexpr]
      rw [List.filter_cons_of_neg (by simp [isType, hform, NodeForm.type?]),
        List.filter_cons_of_pos hexpr, hnil, List.flatMap_cons]
      rfl

theorem typesLead_of_types_eq_nil (h : T.types = []) : T.TypesLead := by
  refine List.pairwise_of_forall_mem_list fun U hU V hV hexpr => ?_
  simpa using List.filter_eq_nil_iff.mp h V hV

theorem reduceOption_cons (stand : Stand) (stands : List Stand) :
    (stand :: stands).reduceOption = stand.toList ++ stands.reduceOption := by
  cases stand <;> rfl

/-- A node of the core language stands for itself. What lowering adds to it is new. -/
theorem reduceOption_becomes_of_remains (h : T.remains = true) (n : Nat) (item? : Option Nat) :
    (T.becomes n item?).reduceOption = (T.stand n item?).toList ++
      ((partsOf n T.form.items? T.children).flatMap (·.2)).reduceOption := by
  rw [becomes_eq, ← reduceOption_cons]
  unfold remains at h
  cases hform : T.form with
  | token t => rw [hform] at h; cases h
  | type form => rfl
  | expr form =>
    rw [hform] at h
    unfold inPlace
    rcases hexprs : T.expressions with _ | ⟨first, _ | ⟨second, _ | _⟩⟩ <;> cases form <;>
      simp_all [NodeForm.items?, partsOf_none, filter_isExpr_map_part, part, expr?,
        ExprForm.isSurfaceOnly, collapses, reduceOption_cons, List.reduceOption_append]

theorem reduceOption_typesInPlace {input output : Bool} {types : List (List Stand)}
    (h : types.length = input.toNat + output.toNat) :
    (typesInPlace input output types).reduceOption = types.flatten.reduceOption := by
  unfold typesInPlace
  cases input <;> cases output <;> rcases types with _ | ⟨first, _ | ⟨second, _ | _⟩⟩ <;>
    simp [List.reduceOption_append] at h ⊢

/-- A block that collapses has only the item that stands for it. -/
theorem exists_expressions_of_collapses (h : T.collapses = true) : T.form = .expr .block ∧
    ∃ item, T.expressions = [item] ∧ item.expr?.any needsBlock = false := by
  unfold collapses at h
  split at h
  · next item hform hexprs => exact ⟨hform, item, hexprs, by simpa using h⟩
  · cases h

/-- Of a node that is not of the core language the parts stand. -/
theorem reduceOption_becomes_of_not_remains (h : T.remains = false) (hlaid : T.laidOut = true)
    (hsort : T.form.token?.isNone) (n : Nat) (item? : Option Nat) :
    (T.becomes n item?).reduceOption = (T.types.flatMap (becomes n none) ++
      T.expressions.flatMap (becomes n none)).reduceOption := by
  unfold remains at h
  cases hform : T.form with
  | token t => rw [hform] at hsort; cases hsort
  | type form => rw [hform] at h; cases h
  | expr form =>
    have hadmits := laidOut_expr hlaid hform
    rw [hform] at h
    cases form with
    | unary op =>
      simp only [ExprForm.admits, length_exprForms, Bool.and_eq_true, beq_iff_eq,
        List.length_eq_one_iff, List.length_eq_zero_iff] at hadmits
      obtain ⟨⟨operand, hexprs⟩, htypes⟩ := hadmits
      rw [becomes_unary hform hexprs, hexprs, htypes]
      simp [List.reduceOption_append]
    | binary op =>
      simp only [ExprForm.admits, length_exprForms, Bool.and_eq_true, beq_iff_eq,
        List.length_eq_two, List.length_eq_zero_iff] at hadmits
      obtain ⟨⟨left, right, hexprs⟩, htypes⟩ := hadmits
      cases hlogic : LogicOp.ofText? op with
      | some logic =>
        rw [becomes_logic hform hlogic hexprs, flatMap_map_part,
          (typesLead_of_types_eq_nil htypes).flatMap_children]
        rfl
      | none =>
        rw [becomes_binary hform hlogic hexprs, hexprs, htypes]
        simp [List.reduceOption_append]
    | whileLoop =>
      simp only [ExprForm.admits, length_exprForms, Bool.and_eq_true, beq_iff_eq,
        List.length_eq_two, List.length_eq_zero_iff] at hadmits
      obtain ⟨⟨condition, body, hexprs⟩, htypes⟩ := hadmits
      rw [becomes_whileLoop hform hexprs, hexprs, htypes]
      simp [List.reduceOption_append]
    | function input output =>
      simp only [ExprForm.admits, length_exprForms, Bool.and_eq_true, beq_iff_eq,
        List.length_eq_one_iff] at hadmits
      obtain ⟨⟨body, hexprs⟩, htypes⟩ := hadmits
      have hlength : (T.types.map (becomes n none)).length = input.toNat + output.toNat := by
        rw [List.length_map, htypes]
      rw [becomes_function hform hexprs, hexprs]
      simp [List.reduceOption_append, reduceOption_typesInPlace hlength, List.flatMap_def]
    | block =>
      simp only [ExprForm.admits, beq_iff_eq, List.length_eq_zero_iff] at hadmits
      have hcollapses : T.collapses = true := by simpa [ExprForm.isSurfaceOnly] using h
      obtain ⟨-, item, hexprs, hfree⟩ := exists_expressions_of_collapses hcollapses
      rw [becomes_block hform hexprs hfree, hexprs, hadmits]
      simp
    | _ => simp [ExprForm.isSurfaceOnly, collapses, hform] at h

theorem items?_of_not_remains (h : T.remains = false) : T.form.items? = none := by
  unfold NodeForm.items?
  split
  · next hform =>
    rw [remains, hform] at h
    simp [ExprForm.isSurfaceOnly, collapses, hform] at h
  · rfl

/-- Of the nodes that do not stay, functions alone have types. -/
theorem typesLead_of_not_remains (h : T.remains = false) (hlaid : T.laidOut = true)
    (hfirst : T.TypesFirst) : T.TypesLead := by
  unfold remains at h
  cases hform : T.form with
  | token t =>
    rw [TypesLead, children_eq_nil_of_token hlaid (by rw [hform]; rfl)]
    exact .nil
  | type form => rw [hform] at h; cases h
  | expr form =>
    have hadmits := laidOut_expr hlaid hform
    rw [hform] at h
    cases form with
    | function input output => exact hfirst T (mem_nodes_self T) input output hform
    | unary | binary | whileLoop | block =>
      simp [ExprForm.admits] at hadmits
      exact typesLead_of_types_eq_nil (by simp [hadmits])
    | _ => simp [ExprForm.isSurfaceOnly, collapses, hform] at h

theorem TypesFirst.child (h : T.TypesFirst) {child : Tree} (hchild : child ∈ T.children) :
    child.TypesFirst := by
  intro X hX
  refine h X ?_
  cases T
  exact List.mem_cons_of_mem _ (mem_nodesAll_iff.mpr ⟨child, hchild, hX⟩)

/-- The step of the induction: of a tree stand its own node, if that remains, and what does of its
children. -/
private theorem reduceOption_becomes_step (hlaid : T.laidOut = true) (hlt : T.id.index < n)
    (item? : Option Nat) {below : List (NodeId × NodeForm)}
    (hperm : ((partsOf n T.form.items? T.children).flatMap (·.2)).reduceOption.Perm below)
    (heq : T.TypesFirst →
      ((partsOf n T.form.items? T.children).flatMap (·.2)).reduceOption = below) :
    (T.becomes n item?).reduceOption.Perm
        ((if T.remains then [(T.id, T.form.asItem item?)] else []) ++ below) ∧
      (T.TypesFirst → (T.becomes n item?).reduceOption =
        (if T.remains then [(T.id, T.form.asItem item?)] else []) ++ below) := by
  cases hremains : T.remains with
  | true =>
    have hstand : T.stand n item? = some (T.id, T.form.asItem item?) := if_pos hlt
    rw [reduceOption_becomes_of_remains hremains, hstand]
    exact ⟨hperm.cons _, fun hfirst => congrArg _ (heq hfirst)⟩
  | false =>
    rw [items?_of_not_remains hremains, partsOf_none, flatMap_map_part] at hperm heq
    cases hsort : T.form.token?.isSome with
    | true =>
      rw [children_eq_nil_of_token hlaid hsort] at hperm heq
      rw [becomes_of_token hsort]
      exact ⟨hperm, heq⟩
    | false =>
      rw [reduceOption_becomes_of_not_remains hremains hlaid (by simpa using hsort)]
      refine ⟨((flatMap_children_perm n T).symm.filterMap _).trans hperm, fun hfirst => ?_⟩
      rw [← (typesLead_of_not_remains hremains hlaid hfirst).flatMap_children, heq hfirst]
      rfl

/-- Of the nodes that there were, those of the core language stand in place of a tree. -/
theorem reduceOption_becomes_lasting (hlaid : T.laidOut = true) (hlt : ∀ id ∈ T.ids, id.index < n)
    (item? : Option Nat) : (T.becomes n item?).reduceOption.Perm (T.lasting item?) ∧
      (T.TypesFirst → (T.becomes n item?).reduceOption = T.lasting item?) := by
  induction T generalizing item? with
  | node id form span grouped children ih =>
    have hall : ∀ (trees : List Tree), trees ⊆ children → ∀ (item? : Option Nat),
        ((partsOf n item? trees).flatMap (·.2)).reduceOption.Perm (lastingAll item? trees) ∧
          ((∀ U ∈ trees, U.TypesFirst) →
            ((partsOf n item? trees).flatMap (·.2)).reduceOption = lastingAll item? trees) := by
      intro trees
      induction trees with
      | nil => exact fun _ _ => ⟨.nil, fun _ => rfl⟩
      | cons U rest ihrest =>
        intro hsub item?
        obtain ⟨hU, hrest⟩ := List.cons_subset.mp hsub
        obtain ⟨hperm, heq⟩ := ih U hU (laidOut_of_mem_children hlaid hU)
          (fun id hid => hlt id (ids_subset_of_mem_children hU hid)) item?
        obtain ⟨hperms, heqs⟩ := ihrest hrest (if U.isExpr then item?.map (· + 1) else item?)
        rw [partsOf, List.flatMap_cons, List.reduceOption_append, lastingAll]
        refine ⟨hperm.append hperms, fun hfirst => ?_⟩
        obtain ⟨hU, hrest⟩ := List.forall_mem_cons.mp hfirst
        rw [heq hU, heqs hrest]
    obtain ⟨hperm, heq⟩ := hall children (List.Subset.refl _) form.items?
    exact reduceOption_becomes_step hlaid (hlt id (id_mem_ids _)) item? hperm fun hfirst =>
      heq fun _ hU => hfirst.child hU

end Tree

section

variable {a : Arena} {parent : Option NodeId} {path : List (NodeId × NodeForm)}
  {before after : List NodeId} {T : Tree}

/-- Lowering a tree with the right layout ends, and what stands in the tree that it leaves is known
from the tree as it was. -/
theorem lower_standing (hheld : a.Holds parent T) (hunder : a.Under parent path T)
    (hsite : a.Site parent before after T) (hlaid : T.laidOut = true) (stem : String) (log : Log) :
    ∃ R log' a', lower stem T.id log a = .ok ((R.id, log'), a') ∧ a'.Holds parent R ∧ R.ids.Nodup ∧
      Tree.standing a.size [R] = T.becomes a.size none := by
  obtain ⟨R, s', a', hrun, hlowers, hreplaced⟩ := lower_lowers hheld hunder hsite stem log
  obtain ⟨hstanding, -⟩ := hlowers.standing_eq (List.forall_mem_singleton.mpr hlaid) le_rfl
  refine ⟨R, s'.log, a', hrun, hreplaced.holds, hreplaced.nodup, hstanding.trans ?_⟩
  exact List.append_nil _

/-- Lowering a tree with the right layout ends. Of the tree that it leaves the nodes that there were
before are those that are of the core language already, each once, and with their forms but for the
names that fields are given. All others are new, and where they stand is known. The nodes stay in
order if the types of each function are before its body. -/
theorem lower_keeps_nodes (hheld : a.Holds parent T) (hunder : a.Under parent path T)
    (hsite : a.Site parent before after T) (hlaid : T.laidOut = true) (stem : String) (log : Log) :
    ∃ R log' a', lower stem T.id log a = .ok ((R.id, log'), a') ∧ a'.Holds parent R ∧ R.ids.Nodup ∧
      Tree.standing a.size [R] = T.becomes a.size none ∧
      List.Forall₂ Tree.IsNode (T.lasting none) (T.nodes.filter Tree.remains) ∧
      (Tree.standing a.size [R]).reduceOption.Perm (T.lasting none) ∧
      (T.TypesFirst → (Tree.standing a.size [R]).reduceOption = T.lasting none) := by
  obtain ⟨R, log', a', hrun, hholds, hnodup, hstanding⟩ :=
    lower_standing hheld hunder hsite hlaid stem log
  refine ⟨R, log', a', hrun, hholds, hnodup, hstanding, T.forall₂_lasting none, ?_⟩
  rw [hstanding]
  exact Tree.reduceOption_becomes_lasting hlaid (fun id hid => hheld.lt hid) none

end

theorem lower_keeps_nodes_loopTree :
    (loopArena.Holds none loopTree ∧ loopArena.Under none [] loopTree ∧
        loopArena.Site none [] [] loopTree ∧ loopTree.laidOut = true) ∧
      ∃ R log' a', lower "_" loopTree.id .empty loopArena = .ok ((R.id, log'), a') ∧
        a'.Holds none R ∧ (Tree.standing 4 [R]).length = 17 ∧
        (Tree.standing 4 [R]).reduceOption =
          [(⟨0⟩, .expr (.reference "go")), (⟨1⟩, .expr (.reference "_0"))] := by
  have hunder : loopArena.Under none [] loopTree := ⟨.root, by decide⟩
  have hsite : loopArena.Site none [] [] loopTree := ⟨nofun, nofun, nofun⟩
  obtain ⟨R, log', a', hrun, hholds, -, hstanding, -, -, horder⟩ :=
    lower_keeps_nodes holds_loopTree hunder hsite (by decide) "_" .empty
  have hsize : loopArena.size = 4 := rfl
  rw [hsize] at hstanding horder
  refine ⟨⟨holds_loopTree, hunder, hsite, by decide⟩, R, log', a', hrun, hholds, ?_, ?_⟩
  · rw [hstanding]
    decide
  · rw [horder (by decide)]
    decide

/-- A function whose body is before the type of its input, in an arena of its own. -/
def backwardTree : Tree :=
  .node ⟨2⟩ (.expr (.function true false)) default false
    [.node ⟨0⟩ (.expr (.reference "x")) default false [],
      .node ⟨1⟩ (.type (.simple "A")) default false []]

def backwardArena : Arena where
  nodes := #[
    { form := .expr (.reference "x"), span := default, parent := some ⟨2⟩ },
    { form := .type (.simple "A"), span := default, parent := some ⟨2⟩ },
    { form := .expr (.function true false), span := default, children := [⟨0⟩, ⟨1⟩] }]

theorem holds_backwardTree : backwardArena.Holds none backwardTree := by
  refine .node (by decide) rfl fun child hchild => ?_
  rcases List.mem_pair.mp hchild with rfl | rfl <;>
  exact .node (by decide) rfl fun _ h => (nomatch h)

/-- The type is before the body in the handler that stands for the function. -/
theorem lower_reorders_backwardTree :
    (backwardArena.Holds none backwardTree ∧ backwardTree.laidOut = true) ∧
      backwardTree.lasting none = [(⟨0⟩, .expr (.reference "x")), (⟨1⟩, .type (.simple "A"))] ∧
      ∃ R log' a', lower "_" backwardTree.id .empty backwardArena = .ok ((R.id, log'), a') ∧
        a'.Holds none R ∧ (Tree.standing 3 [R]).reduceOption =
          [(⟨1⟩, .type (.simple "A")), (⟨0⟩, .expr (.reference "x"))] := by
  have hunder : backwardArena.Under none [] backwardTree := ⟨.root, by decide⟩
  have hsite : backwardArena.Site none [] [] backwardTree := ⟨nofun, nofun, nofun⟩
  obtain ⟨R, log', a', hrun, hholds, -, hstanding⟩ :=
    lower_standing holds_backwardTree hunder hsite (by decide) "_" .empty
  have hsize : backwardArena.size = 3 := rfl
  rw [hsize] at hstanding
  refine ⟨⟨holds_backwardTree, by decide⟩, by decide, R, log', a', hrun, hholds, ?_⟩
  rw [hstanding]
  decide

end MessageLang
