import MessageLang.Proofs.Tree.Held
import Mathlib.Data.Multiset.Bind
import Mathlib.Data.Multiset.UnionInter
import Mathlib.Tactic.Abel

namespace MessageLang

/-- The node at the top of a tree, as it stands in an arena under a parent. -/
def Tree.top (T : Tree) (parent : Option NodeId) : Node :=
  ⟨T.form, T.span, T.children.map Tree.id, parent, T.grouped⟩

/-- What lies about while trees are taken apart and put together: trees, under a parent or as
roots, and nodes whose children are elsewhere. -/
inductive Part where
  | tree (parent : Option NodeId) (T : Tree)
  | top (id : NodeId) (n : Node)

namespace Part

def ids : Part → List NodeId
  | tree _ T => T.ids
  | top id _ => [id]

def Held (a : Arena) : Part → Prop
  | tree parent T => a.Holds parent T
  | top id n => id.index < a.size ∧ a.node id = n

/-- The handles of all nodes of some parts. -/
def idsOf (parts : Multiset Part) : Multiset NodeId := parts.bind fun part => (part.ids : Multiset _)

@[simp]
theorem idsOf_add (parts parts' : Multiset Part) :
    idsOf (parts + parts') = idsOf parts + idsOf parts' := Multiset.add_bind ..

@[simp]
theorem idsOf_singleton (part : Part) : idsOf {part} = (part.ids : Multiset _) :=
  Multiset.singleton_bind ..

@[simp]
theorem idsOf_cons (part : Part) (parts : Multiset Part) :
    idsOf (part ::ₘ parts) = (part.ids : Multiset _) + idsOf parts := Multiset.cons_bind ..

theorem mem_idsOf {parts : Multiset Part} {id : NodeId} :
    id ∈ idsOf parts ↔ ∃ part ∈ parts, id ∈ part.ids := by
  simp [idsOf]

theorem idsOf_trees (parent : Option NodeId) (trees : List Tree) :
    idsOf (trees.map (tree parent) : List Part) = (trees.flatMap Tree.ids : Multiset _) := by
  simp only [idsOf, Multiset.coe_bind, List.flatMap_map]
  rfl

theorem Held.lt {a : Arena} {part : Part} (h : part.Held a) {id : NodeId} (hid : id ∈ part.ids) :
    id.index < a.size := by
  cases part with
  | tree parent T => exact Arena.Holds.lt h hid
  | top other n =>
    rw [ids, List.mem_singleton] at hid
    exact hid ▸ h.1

theorem Held.keep {a a' : Arena} {part : Part} {changed : List NodeId} (h : part.Held a)
    (hkeeps : a.Keeps a' changed) (hdisjoint : ∀ id ∈ part.ids, id ∉ changed) : part.Held a' := by
  cases part with
  | tree parent T => exact Arena.Holds.keep h hkeeps hdisjoint
  | top other n =>
    refine ⟨h.1.trans_le hkeeps.size_le, ?_⟩
    rw [hkeeps.node_eq other h.1 (hdisjoint other (by simp [ids]))]
    exact h.2

end Part

/-- What an arena looks like while some of its nodes are worked on: what those and the nodes made
meanwhile form, without overlap. All other nodes are as they were. -/
structure Arena.Apart (start : Arena) (owned : List NodeId) (parts : Multiset Part) (size : Nat)
    (a : Arena) : Prop where
  size_eq : a.size = size
  keeps : start.Keeps a owned
  held : ∀ part ∈ parts, part.Held a
  nodup : (Part.idsOf parts).Nodup
  owned : ∀ id ∈ Part.idsOf parts, id ∈ owned ∨ start.size ≤ id.index

namespace Arena.Apart

open MessageLang.Part

variable {start a a' : Arena} {owned : List NodeId} {parts rest : Multiset Part} {size : Nat}
  {parent : Option NodeId} {T : Tree}

theorem of_holds (h : a.Holds parent T) (hnodup : T.ids.Nodup) :
    a.Apart T.ids {.tree parent T} a.size a where
  size_eq := rfl
  keeps := .refl a _
  held := by simpa [Held] using h
  nodup := by simpa [Part.ids] using hnodup
  owned id hid := .inl (by simpa [Part.ids] using hid)

/-- The order in which parts are named does not matter. -/
theorem regroup (h : start.Apart owned parts size a) (heq : parts = rest) :
    start.Apart owned rest size a := heq ▸ h

/-- Parts that are no longer needed are left to themselves. -/
theorem drop (h : start.Apart owned (parts + rest) size a) : start.Apart owned parts size a where
  size_eq := h.size_eq
  keeps := h.keeps
  held part hpart := h.held part (Multiset.mem_add.mpr (.inl hpart))
  nodup := by
    have hnodup := h.nodup
    rw [idsOf_add, Multiset.nodup_add] at hnodup
    exact hnodup.1
  owned id hid := h.owned id (by rw [idsOf_add]; exact Multiset.mem_add.mpr (.inl hid))

theorem holds (h : start.Apart owned ({.tree parent T} + rest) size a) : a.Holds parent T :=
  h.held (.tree parent T) (by simp)

theorem ids_nodup (h : start.Apart owned ({.tree parent T} + rest) size a) : T.ids.Nodup := by
  simpa [Part.ids] using h.drop.nodup

/-- A tree is its topmost node and the trees below that. -/
theorem open_iff : start.Apart owned ({.tree parent T} + rest) size a ↔
    start.Apart owned ({.top T.id (T.top parent)} + (T.children.map (.tree (some T.id)) : List Part) +
      rest) size a := by
  have hids : idsOf ({.tree parent T} + rest) =
      idsOf ({.top T.id (T.top parent)} + (T.children.map (.tree (some T.id)) : List Part) + rest) := by
    simp only [idsOf_add, idsOf_singleton, idsOf_trees, Part.ids]
    rw [T.ids_eq, ← Multiset.cons_coe, ← Multiset.singleton_add]
    rfl
  have hheld : (∀ part ∈ ({.tree parent T} + rest : Multiset Part), part.Held a) ↔
      ∀ part ∈ ({.top T.id (T.top parent)} + (T.children.map (.tree (some T.id)) : List Part) +
        rest : Multiset Part), part.Held a := by
    simp only [Multiset.mem_add, Multiset.mem_singleton, Multiset.mem_coe, List.mem_map, or_imp,
      forall_and, forall_eq, Held, forall_exists_index, and_imp, forall_apply_eq_imp_iff₂]
    rw [holds_iff, Tree.top]
    simp only [and_assoc]
  constructor
  · intro h
    exact ⟨h.size_eq, h.keeps, hheld.mp h.held, hids ▸ h.nodup, hids ▸ h.owned⟩
  · intro h
    exact ⟨h.size_eq, h.keeps, hheld.mpr h.held, hids ▸ h.nodup, hids ▸ h.owned⟩

theorem update_top {id : NodeId} {n : Node} (h : start.Apart owned ({.top id n} + rest) size a)
    (change : Node → Node) :
    start.Apart owned ({.top id (change n)} + rest) size (a.update id change) := by
  have hids : idsOf ({.top id (change n)} + rest) = idsOf ({.top id n} + rest) := by
    simp [Part.ids]
  have htop : id.index < a.size ∧ a.node id = n := h.held (.top id n) (by simp)
  have hnot : id ∉ idsOf rest := by
    have hnodup := h.nodup
    rw [idsOf_add, Multiset.nodup_add] at hnodup
    refine Multiset.disjoint_left.mp hnodup.2.2 ?_
    simp [Part.ids]
  refine ⟨(size_update ..).trans h.size_eq, h.keeps.trans (.update a id change) ?_, ?_,
    hids ▸ h.nodup, hids ▸ h.owned⟩
  · intro other hother hlt
    rw [List.mem_singleton.mp hother] at hlt ⊢
    refine (h.owned id (by simp [Part.ids])).resolve_right ?_
    omega
  · intro part hpart
    rcases Multiset.mem_add.mp hpart with hpart | hpart
    · rw [Multiset.mem_singleton.mp hpart]
      refine ⟨by rw [size_update]; exact htop.1, ?_⟩
      rw [node_update_self _ _ htop.1, htop.2]
    · refine (h.held part (Multiset.mem_add.mpr (.inr hpart))).keep (.update a id change) ?_
      intro other hother heq
      rw [List.mem_singleton.mp heq] at hother
      exact hnot (mem_idsOf.mpr ⟨part, hpart, hother⟩)

theorem push (h : start.Apart owned rest size a) (n : Node) :
    start.Apart owned ({.top ⟨size⟩ n} + rest) (size + 1) (a.push n).2 := by
  have hsize := h.size_eq
  have hle := h.keeps.size_le
  refine ⟨by rw [size_push, hsize], h.keeps.trans (.push a n) (by simp), ?_, ?_, ?_⟩
  · intro part hpart
    rcases Multiset.mem_add.mp hpart with hpart | hpart
    · rw [Multiset.mem_singleton.mp hpart]
      refine ⟨by rw [size_push, hsize]; exact Nat.lt_succ_self size, ?_⟩
      have hnew := node_push_new a n
      rwa [show (a.push n).1 = ⟨size⟩ from congrArg NodeId.mk hsize] at hnew
    · exact (h.held part hpart).keep (.push a n) (by simp)
  · rw [idsOf_add, idsOf_singleton, Multiset.nodup_add]
    refine ⟨by simp [Part.ids], h.nodup, Multiset.disjoint_left.mpr ?_⟩
    intro id hid hold
    rw [Multiset.mem_coe, Part.ids, List.mem_singleton] at hid
    obtain ⟨part, hpart, hmem⟩ := mem_idsOf.mp hold
    have hlt := (h.held part hpart).lt hmem
    rw [hid, hsize] at hlt
    exact Nat.lt_irrefl size hlt
  · intro id hid
    rw [idsOf_add, Multiset.mem_add] at hid
    rcases hid with hid | hid
    · rw [idsOf_singleton, Multiset.mem_coe, Part.ids, List.mem_singleton] at hid
      subst hid
      exact .inr (hsize ▸ hle)
    · exact h.owned id hid

/-- Changing the topmost node of a tree, but not which children it has. -/
theorem update_tree (h : start.Apart owned ({.tree parent T} + rest) size a) (T' : Tree)
    (parent' : Option NodeId) (change : Node → Node)
    (hid : T'.id = T.id) (hchildren : T'.children = T.children)
    (hchange : change (T.top parent) = T'.top parent') :
    start.Apart owned ({.tree parent' T'} + rest) size (a.update T.id change) := by
  rw [open_iff, hid, hchildren, ← hchange, add_assoc]
  rw [open_iff, add_assoc] at h
  exact h.update_top change

end Arena.Apart

end MessageLang
