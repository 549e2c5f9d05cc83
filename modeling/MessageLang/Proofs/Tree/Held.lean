import MessageLang.Tree.Query
import Mathlib.Data.List.Nodup
import Mathlib.Data.List.Perm.Subperm

namespace MessageLang

/-- There are no more handles below a bound than the bound says. -/
theorem NodeId.length_le_of_nodup {ids : List NodeId} {bound : Nat} (hnodup : ids.Nodup)
    (hlt : ∀ id ∈ ids, id.index < bound) : ids.length ≤ bound := by
  have hinj : Function.Injective NodeId.index := fun x y hxy => by
    cases x
    cases y
    exact congrArg NodeId.mk hxy
  have hsub : ids.map NodeId.index ⊆ List.range bound := by
    intro index hindex
    obtain ⟨id, hid, rfl⟩ := List.mem_map.mp hindex
    exact List.mem_range.mpr (hlt id hid)
  simpa using (List.subperm_of_subset (hnodup.map hinj) hsub).length_le

/-- A tree apart from any arena, with the handles that its nodes have in one. -/
inductive Tree where
  | node (id : NodeId) (form : NodeForm) (span : Span) (grouped : Bool) (children : List Tree)

namespace Tree

def id : Tree → NodeId
  | node id .. => id

def form : Tree → NodeForm
  | node _ form .. => form

def span : Tree → Span
  | node _ _ span .. => span

def grouped : Tree → Bool
  | node _ _ _ grouped _ => grouped

def children : Tree → List Tree
  | node _ _ _ _ children => children

def isExpr (T : Tree) : Bool := T.form.expr?.isSome

def isType (T : Tree) : Bool := T.form.type?.isSome

def expressions (T : Tree) : List Tree := T.children.filter isExpr

def types (T : Tree) : List Tree := T.children.filter isType

/-- The children that are leaves for tokens. -/
def words (T : Tree) : List Tree := T.children.filter (·.form.token?.isSome)

def tokens (T : Tree) : List Token := T.children.filterMap (·.form.token?)

mutual

/-- The handles of all nodes of a tree, each before those of its children. -/
def ids : Tree → List NodeId
  | node id _ _ _ children => id :: idsAll children

def idsAll : List Tree → List NodeId
  | [] => []
  | T :: rest => T.ids ++ idsAll rest

end

@[elab_as_elim, induction_eliminator]
theorem induct {motive : Tree → Prop}
    (node : ∀ id form span grouped children, (∀ T ∈ children, motive T) →
      motive (.node id form span grouped children)) (T : Tree) : motive T :=
  T.rec (motive_2 := fun trees => ∀ T ∈ trees, motive T) node (fun _ h => nomatch h)
    fun _ _ hT hrest U hU => by
      rcases List.mem_cons.mp hU with rfl | hU
      · exact hT
      · exact hrest U hU

@[simp]
theorem idsAll_eq (trees : List Tree) : idsAll trees = trees.flatMap ids := by
  induction trees with
  | nil => rfl
  | cons T rest ih => rw [idsAll, ih, List.flatMap_cons]

theorem ids_eq (T : Tree) : T.ids = T.id :: T.children.flatMap ids := by
  cases T
  simp [ids, Tree.id, children]

/-- A child is an expression, a type or a token. -/
theorem children_perm (T : Tree) : T.children.Perm (T.expressions ++ (T.types ++ T.words)) := by
  rw [expressions, types, words]
  induction T.children with
  | nil => exact .nil
  | cons child rest ih =>
    obtain ⟨_, form, _, _, _⟩ := child
    cases form with
    | expr _ => exact ih.cons _
    | type _ =>
      refine (ih.cons _).trans ?_
      exact List.perm_middle.symm
    | token _ =>
      refine (ih.cons _).trans ?_
      rw [← List.append_assoc]
      exact List.perm_middle.symm.trans (by rw [List.append_assoc]; rfl)

theorem id_mem_ids (T : Tree) : T.id ∈ T.ids := by
  rw [ids_eq]
  exact List.mem_cons_self

theorem ids_subset_of_mem_children {T child : Tree} (h : child ∈ T.children) :
    child.ids ⊆ T.ids := by
  intro id hid
  rw [ids_eq, List.mem_cons, List.mem_flatMap]
  exact .inr ⟨child, h, hid⟩

theorem length_ids_lt_of_mem_children {T child : Tree} (h : child ∈ T.children) :
    child.ids.length < T.ids.length := by
  have hsublist : child.ids.Sublist (T.children.flatMap ids) := by
    rw [List.flatMap_def]
    exact List.sublist_flatten_of_mem (List.mem_map_of_mem h)
  rw [ids_eq T, List.length_cons]
  exact Nat.lt_succ_of_le hsublist.length_le

end Tree

namespace Arena

/-- An arena has a tree, under a parent or as a root. -/
inductive Holds (a : Arena) : Option NodeId → Tree → Prop
  | node {parent : Option NodeId} {id : NodeId} {form : NodeForm} {span : Span} {grouped : Bool}
      {children : List Tree} (lt : id.index < a.size)
      (eq : a.node id = ⟨form, span, children.map Tree.id, parent, grouped⟩)
      (children_held : ∀ T ∈ children, a.Holds (some id) T) :
      Holds a parent (.node id form span grouped children)

/-- What becomes of an arena in which only certain nodes are changed and others are added. -/
structure Keeps (a a' : Arena) (changed : List NodeId) : Prop where
  size_le : a.size ≤ a'.size
  node_eq : ∀ id : NodeId, id.index < a.size → id ∉ changed → a'.node id = a.node id

section

variable {a a' a'' : Arena} {changed changed' : List NodeId} {parent : Option NodeId} {T : Tree}

theorem Keeps.refl (a : Arena) (changed : List NodeId) : a.Keeps a changed :=
  ⟨Nat.le_refl _, fun _ _ _ => rfl⟩

/-- Of what is changed later, only those nodes count that were there from the start. -/
theorem Keeps.trans (h : a.Keeps a' changed) (h' : a'.Keeps a'' changed')
    (hold : ∀ id ∈ changed', id.index < a.size → id ∈ changed) : a.Keeps a'' changed := by
  refine ⟨Nat.le_trans h.size_le h'.size_le, fun id hid hnot => ?_⟩
  rw [h'.node_eq id (Nat.lt_of_lt_of_le hid h.size_le) fun hmem => hnot (hold id hmem hid)]
  exact h.node_eq id hid hnot

theorem Keeps.update (a : Arena) (id : NodeId) (change : Node → Node) :
    a.Keeps (a.update id change) [id] := by
  refine ⟨Nat.le_of_eq (size_update ..).symm, fun other _ hnot => node_update_of_ne _ _ ?_⟩
  simpa using hnot

theorem Keeps.push (a : Arena) (n : Node) : a.Keeps (a.push n).2 [] :=
  ⟨by simp [size_push], fun _ hid _ => node_push_of_lt _ _ hid⟩

theorem Holds.node_eq (h : a.Holds parent T) :
    a.node T.id = ⟨T.form, T.span, T.children.map Tree.id, parent, T.grouped⟩ := by
  cases h with
  | node _ eq _ => exact eq

theorem Holds.child (h : a.Holds parent T) {child : Tree} (hchild : child ∈ T.children) :
    a.Holds (some T.id) child := by
  cases h with
  | node _ _ children_held => exact children_held child hchild

theorem Holds.lt (h : a.Holds parent T) {id : NodeId} (hid : id ∈ T.ids) : id.index < a.size := by
  induction h with
  | node lt _ _ ih =>
    simp only [Tree.ids, Tree.idsAll_eq, List.mem_cons, List.mem_flatMap] at hid
    rcases hid with rfl | ⟨child, hchild, hid⟩
    · exact lt
    · exact ih child hchild hid

/-- A handle stands for one tree only. -/
theorem Holds.eq_of_id_eq {parent' : Option NodeId} {T' : Tree} (h : a.Holds parent T)
    (h' : a.Holds parent' T') (hid : T.id = T'.id) : T = T' := by
  induction h generalizing parent' T' with
  | @node _ id form span grouped children lt eq children_held ih =>
    obtain ⟨id', form', span', grouped', children'⟩ := T'
    obtain rfl : id = id' := hid
    have hnode := eq.symm.trans h'.node_eq
    simp only [Node.mk.injEq, Tree.form, Tree.span, Tree.grouped, Tree.children] at hnode
    obtain ⟨rfl, rfl, hids, -, rfl⟩ := hnode
    have hall : ∀ trees trees' : List Tree, trees.map Tree.id = trees'.map Tree.id →
        (∀ T ∈ trees, T ∈ children) → (∀ T ∈ trees', T ∈ children') → trees = trees' := by
      intro trees
      induction trees with
      | nil => exact fun trees' heq _ _ => (List.map_eq_nil_iff.mp heq.symm).symm
      | cons U rest ihrest =>
        rintro (_ | ⟨U', rest'⟩) heq hmem hmem'
        · cases heq
        · obtain ⟨hU, hrest⟩ := List.cons.inj heq
          rw [ih U (hmem U List.mem_cons_self) (h'.child (hmem' U' List.mem_cons_self)) hU,
            ihrest rest' hrest (fun T hT => hmem T (List.mem_cons_of_mem _ hT))
              fun T hT => hmem' T (List.mem_cons_of_mem _ hT)]
    rw [hall children children' hids (fun _ h => h) fun _ h => h]

theorem holds_iff : a.Holds parent T ↔ T.id.index < a.size ∧
    a.node T.id = ⟨T.form, T.span, T.children.map Tree.id, parent, T.grouped⟩ ∧
    ∀ child ∈ T.children, a.Holds (some T.id) child := by
  refine ⟨fun h => ⟨h.lt T.id_mem_ids, h.node_eq, fun _ => h.child⟩, ?_⟩
  rintro ⟨hlt, hnode, hchildren⟩
  cases T
  exact .node hlt hnode hchildren

/-- A tree that nothing of is changed stays. -/
theorem Holds.keep (h : a.Holds parent T) (hkeeps : a.Keeps a' changed)
    (hdisjoint : ∀ id ∈ T.ids, id ∉ changed) : a'.Holds parent T := by
  induction h with
  | node lt eq _ ih =>
    simp only [Tree.ids, Tree.idsAll_eq, List.mem_cons, List.mem_flatMap] at hdisjoint
    refine .node (Nat.lt_of_lt_of_le lt hkeeps.size_le) ?_ fun child hchild => ?_
    · rw [hkeeps.node_eq _ lt (hdisjoint _ (.inl rfl)), eq]
    · exact ih child hchild fun id hid => hdisjoint id (.inr ⟨child, hchild, hid⟩)

/-- No tree has more nodes than the arena that holds it. -/
theorem Holds.length_ids_le (h : a.Holds parent T) (hnodup : T.ids.Nodup) :
    T.ids.length ≤ a.size :=
  NodeId.length_le_of_nodup hnodup fun _ => h.lt

theorem Holds.form_eq (h : a.Holds parent T) : a.form T.id = T.form := by
  rw [form, h.node_eq]

theorem Holds.span_eq (h : a.Holds parent T) : a.span T.id = T.span := by
  rw [span, h.node_eq]

theorem Holds.parent_eq (h : a.Holds parent T) : a.parent T.id = parent := by
  rw [Arena.parent, h.node_eq]

theorem Holds.children_eq (h : a.Holds parent T) : a.children T.id = T.children.map Tree.id := by
  rw [children, h.node_eq]

theorem Holds.expr?_eq (h : a.Holds parent T) : a.expr? T.id = T.form.expr? := by
  rw [expr?, h.form_eq]

theorem Holds.type?_eq (h : a.Holds parent T) : a.type? T.id = T.form.type? := by
  rw [type?, h.form_eq]

/-- Choosing among the children in the arena is choosing among those of the tree. -/
private theorem Holds.filter_children (h : a.Holds parent T) {p : NodeId → Bool} {q : Tree → Bool}
    (hsame : ∀ child ∈ T.children, p child.id = q child) :
    (a.children T.id).filter p = (T.children.filter q).map Tree.id := by
  rw [h.children_eq, List.filter_map]
  congr 1
  exact List.filter_congr hsame

theorem Holds.expressions_eq (h : a.Holds parent T) :
    a.expressions T.id = T.expressions.map Tree.id :=
  h.filter_children fun child hchild => by rw [isExpr, (h.child hchild).expr?_eq, Tree.isExpr]

theorem Holds.types_eq (h : a.Holds parent T) : a.types T.id = T.types.map Tree.id :=
  h.filter_children fun child hchild => by rw [isType, (h.child hchild).type?_eq, Tree.isType]

theorem Holds.tokens_eq (h : a.Holds parent T) : a.tokens T.id = T.tokens := by
  rw [tokens, h.children_eq, List.filterMap_map]
  refine List.filterMap_congr fun child hchild => ?_
  rw [Function.comp_apply, token?, (h.child hchild).form_eq]

end

end Arena

end MessageLang
