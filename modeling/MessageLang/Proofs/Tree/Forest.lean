import MessageLang.Proofs.Core.Lowers
import Mathlib.Data.Fintype.EquivFin
import Mathlib.Logic.Relation
import Mathlib.Order.WellFounded

namespace MessageLang

/-- Edges to one target, from where nothing leads to where they start, do not close a cycle. -/
theorem acyclic_of_edges_to {α : Type} {r r' : α → α → Prop} {sources : List α} {target : α}
    (h : ∀ x, ¬ Relation.TransGen r x x)
    (hedge : ∀ x y, r' x y → r x y ∨ x ∈ sources ∧ y = target)
    (hapart : ∀ source ∈ sources, ¬ Relation.ReflTransGen r target source) (x : α) :
    ¬ Relation.TransGen r' x x := by
  have hsplit : ∀ {x y}, Relation.TransGen r' x y → Relation.TransGen r x y ∨
      (∃ source ∈ sources, Relation.ReflTransGen r x source) ∧
        Relation.ReflTransGen r target y := by
    intro x y hpath
    induction hpath with
    | single hxy =>
      rcases hedge _ _ hxy with hold | ⟨hsource, rfl⟩
      · exact .inl (.single hold)
      · exact .inr ⟨⟨_, hsource, .refl⟩, .refl⟩
    | tail _ hyz ih =>
      rcases hedge _ _ hyz with hold | ⟨hsource, rfl⟩
      · exact ih.imp (·.tail hold) fun ⟨hx, hy⟩ => ⟨hx, hy.tail hold⟩
      · rcases ih with ih | ⟨hx, _⟩
        · exact .inr ⟨⟨_, hsource, ih.to_reflTransGen⟩, .refl⟩
        · exact .inr ⟨hx, .refl⟩
  intro hcycle
  rcases hsplit hcycle with hold | ⟨⟨source, hsource, hx⟩, hy⟩
  · exact h x hold
  · exact hapart source hsource (hy.trans hx)

/-- What comes to a handle from all that lead to it comes to all handles below a bound, if there is
no cycle among them. -/
theorem NodeId.induct_of_acyclic {bound : Nat} {r : NodeId → NodeId → Prop}
    {motive : NodeId → Prop} (hacyclic : ∀ id, ¬ Relation.TransGen r id id)
    (hlt : ∀ x y, r x y → x.index < bound)
    (step : ∀ id : NodeId, id.index < bound → (∀ x, r x id → motive x) → motive id) {id : NodeId}
    (hid : id.index < bound) : motive id := by
  let below (x y : Fin bound) : Prop := Relation.TransGen r ⟨x⟩ ⟨y⟩
  have : IsTrans (Fin bound) below := ⟨fun _ _ _ => Relation.TransGen.trans⟩
  have : Std.Irrefl below := ⟨fun _ => hacyclic _⟩
  have hfounded := Finite.wellFounded_of_trans_of_irrefl below
  have hall : ∀ x : Fin bound, motive ⟨x⟩ := fun x => hfounded.induction x fun y ih =>
    step ⟨y⟩ y.isLt fun z hz => ih ⟨z.index, hlt _ _ hz⟩ (.single hz)
  exact hall ⟨id.index, hid⟩

namespace Arena

/-- A node stands right below another one. -/
def Up (a : Arena) (child parent : NodeId) : Prop := a.parent child = some parent

/-- The nodes of an arena form trees: parents and children agree, no node is a child twice, and no
way up leads back. -/
structure Forest (a : Arena) : Prop where
  mem_children_iff : ∀ parent child : NodeId, child ∈ a.children parent ↔ a.Up child parent
  nodup_children : ∀ parent, (a.children parent).Nodup
  acyclic : ∀ id, ¬ Relation.TransGen a.Up id id

section

variable {a a' : Arena} {id parent child old new : NodeId} {ids : List NodeId}

theorem node_of_le (h : a.size ≤ id.index) : a.node id = default := by
  simp_all [node, size]

theorem lt_of_up (h : a.Up child parent) : child.index < a.size := by
  by_contra hle
  rw [Up, Arena.parent, node_of_le (Nat.le_of_not_lt hle)] at h
  cases h

theorem parent_update {change : Node → Node} (h : id.index < a.size) (other : NodeId) :
    (a.update id change).parent other =
      if other = id then (change (a.node id)).parent else a.parent other := by
  split
  · next heq => rw [heq, Arena.parent, node_update_self _ _ h]
  · next hne => rw [Arena.parent, node_update_of_ne _ _ hne, Arena.parent]

theorem children_update {change : Node → Node} (h : id.index < a.size) (other : NodeId) :
    (a.update id change).children other =
      if other = id then (change (a.node id)).children else a.children other := by
  split
  · next heq => rw [heq, children, node_update_self _ _ h]
  · next hne => rw [children, node_update_of_ne _ _ hne, children]

/-- What is above a place can be reached from there. -/
theorem Above.transGen (h : a.Above (a.parent id) path) {entry : NodeId × NodeForm}
    (hentry : entry ∈ path) : Relation.TransGen a.Up id entry.1 := by
  generalize hparent : a.parent id = above at h
  induction h generalizing id with
  | root => cases hentry
  | under _ _ ih =>
    rcases List.mem_cons.mp hentry with rfl | hentry
    · exact .single hparent
    · exact .head hparent (ih hentry rfl)

theorem Above.mem_of_transGen (h : a.Above (a.parent id) path)
    (hreach : Relation.TransGen a.Up id parent) : parent ∈ path.map (·.1) := by
  generalize hparent : a.parent id = above at h
  induction h generalizing id with
  | root =>
    obtain ⟨_, hup, _⟩ := Relation.TransGen.head'_iff.mp hreach
    cases hparent.symm.trans hup
  | under _ _ ih =>
    obtain ⟨next, hup, hrest⟩ := Relation.TransGen.head'_iff.mp hreach
    cases hparent.symm.trans hup
    rw [List.map_cons, List.mem_cons]
    rcases hrest.cases_head with rfl | ⟨further, hup', hrest⟩
    · exact .inl rfl
    · exact .inr (ih (.head' hup' hrest) rfl)

/-- From every node of a tree the way up leads to its top. -/
theorem Holds.reflTransGen {above : Option NodeId} {T : Tree} (h : a.Holds above T)
    (hid : id ∈ T.ids) : Relation.ReflTransGen a.Up id T.id := by
  induction h with
  | node _ _ children_held ih =>
    rw [Tree.ids_eq, List.mem_cons, List.mem_flatMap] at hid
    rcases hid with rfl | ⟨child, hchild, hid⟩
    · exact .refl
    · exact (ih child hchild hid).tail (children_held child hchild).parent_eq

/-- An arena in which children come before their parents, and know them, is a forest. -/
theorem forest_of_children_first
    (hup : ∀ i < a.size, ∀ parent ∈ a.parent ⟨i⟩, i < parent.index ∧ ⟨i⟩ ∈ a.children parent)
    (hdown : ∀ i < a.size, ∀ child ∈ a.children ⟨i⟩, a.parent child = some ⟨i⟩)
    (hnodup : ∀ i < a.size, (a.children ⟨i⟩).Nodup) : a.Forest := by
  have hlater : ∀ {child parent : NodeId}, a.Up child parent →
      child.index < parent.index ∧ child ∈ a.children parent :=
    fun {child parent} h => hup child.index (lt_of_up h) parent h
  have hnone : ∀ id : NodeId, ¬ id.index < a.size → a.children id = [] := fun id hle => by
    rw [children, node_of_le (Nat.le_of_not_lt hle)]
    rfl
  refine ⟨fun parent child => ⟨fun hmem => ?_, fun h => (hlater h).2⟩, fun parent => ?_,
    fun id hcycle => ?_⟩
  · by_cases hlt : parent.index < a.size
    · exact hdown parent.index hlt child hmem
    · rw [hnone parent hlt] at hmem
      cases hmem
  · by_cases hlt : parent.index < a.size
    · exact hnodup parent.index hlt
    · rw [hnone parent hlt]
      exact List.nodup_nil
  · have hindex : ∀ {id other : NodeId}, Relation.TransGen a.Up id other → id.index < other.index := by
      intro id other h
      induction h with
      | single h => exact (hlater h).1
      | tail _ h ih => exact ih.trans (hlater h).1
    exact Nat.lt_irrefl _ (hindex hcycle)

namespace Forest

theorem lt_of_up (h : a.Forest) (hup : a.Up child parent) : parent.index < a.size := by
  by_contra hle
  have hmem := (h.mem_children_iff parent child).mpr hup
  rw [children, node_of_le (Nat.le_of_not_lt hle)] at hmem
  cases hmem

theorem child_lt (h : a.Forest) (hchild : child ∈ a.children parent) : child.index < a.size :=
  Arena.lt_of_up ((h.mem_children_iff parent child).mp hchild)

/-- Only parents and children matter. -/
theorem congr (h : a.Forest) (hparent : ∀ id, a'.parent id = a.parent id)
    (hchildren : ∀ id, a'.children id = a.children id) : a'.Forest := by
  have hup : a'.Up = a.Up := by
    funext child parent
    rw [Up, Up, hparent]
  refine ⟨fun parent child => ?_, fun parent => ?_, fun id => ?_⟩
  · rw [hchildren, hup]
    exact h.mem_children_iff parent child
  · rw [hchildren]
    exact h.nodup_children parent
  · rw [hup]
    exact h.acyclic id

/-- Giving children to a node that it does not stand below any of. -/
theorem link (h : a.Forest) (hnodup : ids.Nodup) (hroot : ∀ id ∈ ids, a.parent id = none)
    (hapart : ∀ id ∈ ids, ¬ Relation.ReflTransGen a.Up parent id)
    (hparent : ∀ id, a'.parent id = if id ∈ ids then some parent else a.parent id)
    (hchildren : ∀ id, a'.children id =
      if id = parent then a.children parent ++ ids else a.children id) : a'.Forest := by
  have hup : ∀ {child other}, a'.Up child other ↔ a.Up child other ∨ child ∈ ids ∧ other = parent := by
    intro child other
    rw [Up, hparent, Up]
    split
    · next hmem => simp [hroot child hmem, hmem, eq_comm]
    · next hnot => simp [hnot]
  refine ⟨fun other child => ?_, fun other => ?_, acyclic_of_edges_to h.acyclic
    (fun _ _ => hup.mp) hapart⟩
  · rw [hchildren, hup, ← h.mem_children_iff]
    split
    · next heq => simp [heq]
    · next hne => simp [hne]
  · rw [hchildren]
    split
    · refine List.nodup_append.mpr ⟨h.nodup_children parent, hnodup, ?_⟩
      rintro child hchild _ hmem rfl
      have hnone := hroot child hmem
      rw [(h.mem_children_iff parent child).mp hchild] at hnone
      cases hnone
    · exact h.nodup_children other

/-- Taking a node from its parent. -/
theorem cut (h : a.Forest) (hup : a.Up id parent)
    (hparent : ∀ other, a'.parent other = if other = id then none else a.parent other)
    (hchildren : ∀ other, a'.children other =
      if other = parent then (a.children parent).filter (· != id) else a.children other) :
    a'.Forest := by
  have hup' : ∀ {child other}, a'.Up child other ↔ child ≠ id ∧ a.Up child other := by
    intro child other
    rw [Up, hparent]
    split
    · next heq => simp [heq]
    · next hne => exact ⟨fun h => ⟨hne, h⟩, fun h => h.2⟩
  refine ⟨fun other child => ?_, fun other => ?_, fun other hcycle => ?_⟩
  · rw [hchildren, hup', ← h.mem_children_iff]
    split
    · next heq =>
      subst heq
      simp [and_comm]
    · next hne =>
      refine ⟨fun hmem => ⟨?_, hmem⟩, fun hmem => hmem.2⟩
      rintro rfl
      exact hne (Option.some.inj (((h.mem_children_iff _ _).mp hmem).symm.trans hup))
  · rw [hchildren]
    split
    · exact (h.nodup_children parent).filter _
    · exact h.nodup_children other
  · exact h.acyclic other (Relation.TransGen.mono (fun _ _ hstep => (hup'.mp hstep).2) _ _ hcycle)

/-- A child list with one of its nodes replaced, taken apart where that stood. -/
theorem exists_replace_eq (h : a.Forest) (hold : a.parent old = some parent) (new : NodeId) :
    ∃ before after, a.children parent = before ++ old :: after ∧
      (a.children parent).replace old new = before ++ new :: after := by
  obtain ⟨before, after, heq⟩ := List.append_of_mem ((h.mem_children_iff parent old).mpr hold)
  refine ⟨before, after, heq, ?_⟩
  have hnodup := h.nodup_children parent
  rw [heq] at hnodup
  have hbefore : old ∉ before := fun hmem =>
    (List.nodup_append.mp hnodup).2.2 old hmem old List.mem_cons_self rfl
  rw [heq, List.replace_append_right hbefore, List.replace_cons_self]

/-- Putting a root where another node stands that it is not above of. -/
theorem swap (h : a.Forest) (hne : old ≠ new) (hroot : a.parent new = none)
    (hapart : ¬ Relation.TransGen a.Up old new)
    (hparent : ∀ id, a'.parent id =
      if id = new then a.parent old else if id = old then none else a.parent id)
    (hchildren : ∀ id, a'.children id =
      if a.parent old = some id then (a.children id).replace old new else a.children id) :
    a'.Forest := by
  have hnew : ∀ id, new ∉ a.children id := fun id hmem => by
    rw [h.mem_children_iff, Up, hroot] at hmem
    cases hmem
  have hup : ∀ {child other}, a'.Up child other ↔
      child ≠ old ∧ a.Up child other ∨ child = new ∧ a.Up old other := by
    intro child other
    rw [Up, hparent, Up, Up]
    by_cases hone : child = new
    · simp [hone, hroot]
    · rw [if_neg hone]
      by_cases htwo : child = old <;> simp [hone, htwo, hne]
  have hreplaced : ∀ {parent}, a.parent old = some parent → ∃ before after,
      a.children parent = before ++ old :: after ∧
        a'.children parent = before ++ new :: after := fun hold => by
    rw [hchildren, if_pos hold]
    exact h.exists_replace_eq hold new
  refine ⟨fun other child => ?_, fun other => ?_, ?_⟩
  · rw [hup, ← h.mem_children_iff, ← h.mem_children_iff]
    by_cases hold : a.parent old = some other
    · obtain ⟨before, after, heq, heq'⟩ := hreplaced hold
      have hnodup := h.nodup_children other
      rw [heq, List.perm_middle.nodup_iff, List.nodup_cons] at hnodup
      rw [heq, heq', List.perm_middle.mem_iff, List.perm_middle.mem_iff, List.mem_cons,
        List.mem_cons]
      grind
    · have hnot : old ∉ a.children other := fun hmem => hold ((h.mem_children_iff _ _).mp hmem)
      rw [hchildren, if_neg hold]
      grind
  · by_cases hold : a.parent old = some other
    · obtain ⟨before, after, heq, heq'⟩ := hreplaced hold
      have hnodup := h.nodup_children other
      have hnot := hnew other
      rw [heq, List.perm_middle.nodup_iff, List.nodup_cons] at hnodup
      rw [heq, List.perm_middle.mem_iff, List.mem_cons, not_or] at hnot
      rw [heq', List.perm_middle.nodup_iff, List.nodup_cons]
      exact ⟨hnot.2, hnodup.2⟩
    · rw [hchildren, if_neg hold]
      exact h.nodup_children other
  · cases hold : a.parent old with
    | none =>
      have hless : ∀ x y, a'.Up x y → a.Up x y := by
        intro x y hxy
        rcases hup.mp hxy with hxy | ⟨-, hxy⟩
        · exact hxy.2
        · cases hold.symm.trans hxy
      exact fun id hcycle => h.acyclic id (Relation.TransGen.mono hless _ _ hcycle)
    | some parent =>
      have hedge : ∀ x y, a'.Up x y → a.Up x y ∨ x ∈ [new] ∧ y = parent := by
        intro x y hxy
        rcases hup.mp hxy with hxy | ⟨rfl, hxy⟩
        · exact .inl hxy.2
        · exact .inr ⟨List.mem_singleton_self x, Option.some.inj (hxy.symm.trans hold)⟩
      refine acyclic_of_edges_to h.acyclic hedge fun source hsource hreach => ?_
      rw [List.mem_singleton.mp hsource] at hreach
      exact hapart (.head' hold hreach)

/-- A node does not stand below itself. -/
theorem ne_of_transGen (h : a.Forest) (hreach : Relation.TransGen a.Up id parent) : id ≠ parent := by
  rintro rfl
  exact h.acyclic id hreach

/-- What is above of two handles of a tree's children is at most one of these. -/
theorem eq_of_reflTransGen (h : a.Forest) {first second : NodeId}
    (hfirst : a.Up first parent) (hsecond : a.Up second parent)
    (hreach : Relation.ReflTransGen a.Up id first) (hreach' : Relation.ReflTransGen a.Up id second) :
    first = second := by
  have hfunctional : Relator.RightUnique a.Up := fun _ _ _ hx hy =>
    Option.some.inj (hx.symm.trans hy)
  have hbelow : ∀ {x y}, a.Up x parent → a.Up y parent → Relation.ReflTransGen a.Up x y → x = y := by
    intro x y hx hy hxy
    rcases hxy.cases_head with heq | ⟨next, hup, hrest⟩
    · exact heq
    · cases hfunctional hup hx
      exact absurd (.tail' hrest hy) (h.acyclic parent)
  rcases Relation.ReflTransGen.total_of_right_unique hfunctional hreach hreach' with hxy | hxy
  · exact hbelow hfirst hsecond hxy
  · exact (hbelow hsecond hfirst hxy).symm

/-- Each node is at the top of a tree. -/
theorem exists_tree (h : a.Forest) (hid : id.index < a.size) :
    ∃ T : Tree, T.id = id ∧ a.Holds (a.parent id) T := by
  refine NodeId.induct_of_acyclic (motive := fun id => ∃ T : Tree, T.id = id ∧
    a.Holds (a.parent id) T) h.acyclic (fun _ _ => Arena.lt_of_up) (fun id hid ih => ?_) hid
  have hchildren : ∀ ids : List NodeId, (∀ child ∈ ids, child ∈ a.children id) →
      ∃ trees : List Tree, trees.map Tree.id = ids ∧ ∀ T ∈ trees, a.Holds (some id) T := by
    intro ids
    induction ids with
    | nil => exact fun _ => ⟨[], rfl, fun _ hT => nomatch hT⟩
    | cons child rest ihrest =>
      intro hmem
      have hup := (h.mem_children_iff id child).mp (hmem child List.mem_cons_self)
      obtain ⟨T, hT, hheld⟩ := ih child hup
      obtain ⟨trees, htrees, hall⟩ := ihrest fun other hother => hmem other (.tail _ hother)
      rw [show a.parent child = some id from hup] at hheld
      exact ⟨T :: trees, by simp [hT, htrees], by simpa using ⟨hheld, hall⟩⟩
  obtain ⟨trees, htrees, hall⟩ := hchildren _ fun _ hchild => hchild
  refine ⟨.node id (a.form id) (a.span id) (a.isGrouped id) trees, rfl, .node hid ?_ hall⟩
  rw [htrees]
  rfl

/-- The nodes of a tree in a forest are distinct. -/
theorem nodup_ids (h : a.Forest) {above : Option NodeId} {T : Tree} (hheld : a.Holds above T) :
    T.ids.Nodup := by
  induction hheld with
  | @node above id form span grouped children lt eq children_held ih =>
    have hup : ∀ child ∈ children, a.Up child.id id := fun child hchild =>
      (children_held child hchild).parent_eq
    have hids : (children.map Tree.id).Nodup := by
      have hnodup := h.nodup_children id
      rwa [Arena.children, eq] at hnodup
    rw [Tree.ids_eq, List.nodup_cons, List.nodup_flatMap]
    refine ⟨fun hmem => ?_, ih, ?_⟩
    · obtain ⟨child, hchild, hid⟩ := List.mem_flatMap.mp hmem
      exact h.acyclic id (.tail' ((children_held child hchild).reflTransGen hid) (hup child hchild))
    · refine (List.pairwise_map.mp hids).imp_of_mem fun hx hy hne other hother hother' => ?_
      exact hne (h.eq_of_reflTransGen (hup _ hx) (hup _ hy)
        ((children_held _ hx).reflTransGen hother) ((children_held _ hy).reflTransGen hother'))

/-- Above each node is a way up that ends. -/
theorem exists_above (h : a.Forest) (hid : id.index < a.size) :
    ∃ path, a.Above (a.parent id) path := by
  refine NodeId.induct_of_acyclic (motive := fun id => ∃ path, a.Above (a.parent id) path)
    (r := fun parent child => a.Up child parent) ?_ (fun _ _ => h.lt_of_up) (fun id hid ih => ?_) hid
  · intro id hcycle
    exact h.acyclic id (Relation.transGen_swap.mp hcycle)
  · cases hparent : a.parent id with
    | none => exact ⟨[], .root⟩
    | some parent =>
      obtain ⟨path, hpath⟩ := ih parent hparent
      exact ⟨_, .under (h.lt_of_up hparent) hpath⟩

theorem nodup_above (h : a.Forest) {above : Option NodeId} (habove : a.Above above path) :
    (path.map (·.1)).Nodup := by
  induction habove with
  | root => exact List.nodup_nil
  | under _ habove ih =>
    rw [List.map_cons, List.nodup_cons]
    refine ⟨fun hmem => ?_, ih⟩
    obtain ⟨entry, hentry, heq⟩ := List.mem_map.mp hmem
    exact h.ne_of_transGen (habove.transGen hentry) heq.symm

/-- Each node of a forest is at the top of a tree, which has a place. -/
theorem exists_place (h : a.Forest) (hid : id.index < a.size) :
    ∃ (T : Tree) (path : List (NodeId × NodeForm)) (before after : List NodeId), T.id = id ∧
      a.Holds (a.parent id) T ∧ a.Under (a.parent id) path T ∧
        a.Site (a.parent id) before after T := by
  obtain ⟨T, rfl, hheld⟩ := h.exists_tree hid
  obtain ⟨path, habove⟩ := h.exists_above hid
  have hunder : a.Under (a.parent T.id) path T := by
    refine ⟨habove, List.nodup_append.mpr ⟨h.nodup_above habove, h.nodup_ids hheld, ?_⟩⟩
    rintro other hpath _ hmem rfl
    obtain ⟨entry, hentry, rfl⟩ := List.mem_map.mp hpath
    exact h.acyclic _ (.trans_right (hheld.reflTransGen hmem) (habove.transGen hentry))
  cases hparent : a.parent T.id with
  | none =>
    rw [hparent] at hheld hunder
    exact ⟨T, path, [], [], rfl, hheld, hunder, ⟨nofun, nofun, nofun⟩⟩
  | some parent =>
    rw [hparent] at hheld hunder
    obtain ⟨before, after, heq⟩ := List.append_of_mem ((h.mem_children_iff parent T.id).mpr hparent)
    have hbefore : ∀ child ∈ before, a.Up child parent ∧ child ≠ T.id := by
      intro child hchild
      have hnodup := h.nodup_children parent
      rw [heq] at hnodup
      refine ⟨(h.mem_children_iff parent child).mp (by simp [heq, hchild]), ?_⟩
      exact (List.nodup_append.mp hnodup).2.2 child hchild T.id List.mem_cons_self
    refine ⟨T, path, before, after, rfl, hheld, hunder, ⟨fun p hp => ?_, fun child hchild => ?_,
      fun child hchild hmem => ?_⟩⟩
    · cases hp
      exact heq
    · exact Arena.lt_of_up (hbefore child hchild).1
    · obtain ⟨hup, hne⟩ := hbefore child hchild
      exact hne (h.eq_of_reflTransGen hup hparent .refl (hheld.reflTransGen hmem))

end Forest

end

end Arena

end MessageLang
