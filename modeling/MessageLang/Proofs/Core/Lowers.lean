import MessageLang.Proofs.Core.Effort
import MessageLang.Proofs.Core.StepEnds

namespace MessageLang

/-- What lowering makes of the trees of a list one after the other, below nodes of certain forms.
A tree is rewritten until it stays, and then its parts are lowered. -/
inductive Lowers : List NodeForm → List Tree → Lowering × Nat → List Tree → Lowering × Nat → Prop
  | nil {above : List NodeForm} {w : Lowering × Nat} : Lowers above [] w [] w
  | settles {above : List NodeForm} {T T' : Tree} {trees trees' children : List Tree}
      {s s₁ : Lowering} {size size₁ : Nat} {w₂ w₃ : Lowering × Nat}
      (step : T.Settles above s size (T', size₁) s₁)
      (below : Lowers (T'.form :: above) T'.children (s₁, size₁) children w₂)
      (after : Lowers above trees w₂ trees' w₃) :
      Lowers above (T :: trees) (s, size) (T'.withChildren children :: trees') w₃
  | rewrites {above : List NodeForm} {T T' : Tree} {trees trees' : List Tree}
      {s s₁ : Lowering} {size size₁ : Nat} {w₂ : Lowering × Nat}
      (step : T.Rewrites s size (T', size₁) s₁)
      (again : Lowers above (T'.inherit T.grouped :: trees) (s₁, size₁) trees' w₂) :
      Lowers above (T :: trees) (s, size) trees' w₂

namespace Arena

/-- Where a tree stands among the children of its parent, if it has one. -/
structure Site (a : Arena) (parent : Option NodeId) (before after : List NodeId) (T : Tree) :
    Prop where
  children_eq : ∀ p, parent = some p → a.children p = before ++ T.id :: after
  before_lt : ∀ id ∈ before, id.index < a.size
  not_before : ∀ id ∈ before, id ∉ T.ids

/-- What becomes of an arena in which one tree takes the place of another. Of all other nodes,
only the parent changes, and of that only which child stands there. -/
structure Replaced (a : Arena) (parent : Option NodeId) (before after : List NodeId)
    (T T' : Tree) (a' : Arena) : Prop where
  holds : a'.Holds parent T'
  nodup : T'.ids.Nodup
  owned : ∀ id ∈ T'.ids, id ∈ T.ids ∨ a.size ≤ id.index
  size_le : a.size ≤ a'.size
  site : ∀ p, parent = some p →
    a'.node p = { a.node p with children := before ++ T'.id :: after }
  keeps : ∀ id : NodeId, id.index < a.size → id ∉ T.ids → parent ≠ some id →
    a'.node id = a.node id

section

variable {a a' a'' : Arena} {parent : Option NodeId} {before after : List NodeId}
  {path : List (NodeId × NodeForm)} {T T' T'' : Tree}

theorem Replaced.trans (h : a.Replaced parent before after T T' a')
    (h' : a'.Replaced parent before after T' T'' a'') :
    a.Replaced parent before after T T'' a'' where
  holds := h'.holds
  nodup := h'.nodup
  owned id hid := by
    rcases h'.owned id hid with hid | hid
    · exact h.owned id hid
    · exact .inr (h.size_le.trans hid)
  size_le := h.size_le.trans h'.size_le
  site p hp := by rw [h'.site p hp, h.site p hp]
  keeps id hlt hnot hne := by
    rw [h'.keeps id (hlt.trans_le h.size_le) ?_ hne, h.keeps id hlt hnot hne]
    intro hmem
    rcases h.owned id hmem with hmem | hmem
    · exact hnot hmem
    · omega

theorem Under.not_mem (h : a.Under parent path T) {entry : NodeId × NodeForm}
    (hentry : entry ∈ path) : entry.1 ∉ T.ids := by
  have hdisjoint := (List.nodup_append.mp h.nodup).2.2
  exact fun hmem => hdisjoint _ (List.mem_map_of_mem hentry) _ hmem rfl

theorem Under.parent_lt (h : a.Under parent path T) {p : NodeId} (hp : parent = some p) :
    p.index < a.size ∧ p ∉ T.ids := by
  subst hp
  have habove := h.above
  cases habove with
  | under lt _ => exact ⟨lt, h.not_mem List.mem_cons_self⟩

/-- What is above a tree stays there when another one takes its place. -/
theorem Replaced.under (h : a.Replaced parent before after T T' a') (hunder : a.Under parent path T) :
    a'.Under parent path T' := by
  have hsame : ∀ entry ∈ path, a'.form entry.1 = a.form entry.1 ∧
      a'.parent entry.1 = a.parent entry.1 := by
    intro entry hentry
    by_cases hp : parent = some entry.1
    · simp only [form, Arena.parent, h.site _ hp, and_self]
    · have hnode := h.keeps entry.1 (hunder.above.lt hentry) (hunder.not_mem hentry) hp
      simp only [form, Arena.parent, hnode, and_self]
  refine ⟨hunder.above.keep h.size_le hsame, ?_⟩
  rw [List.nodup_append]
  refine ⟨(List.nodup_append.mp hunder.nodup).1, h.nodup, ?_⟩
  rintro id hid _ hid' rfl
  obtain ⟨entry, hentry, rfl⟩ := List.mem_map.mp hid
  rcases h.owned _ hid' with hmem | hmem
  · exact hunder.not_mem hentry hmem
  · have hlt := hunder.above.lt hentry
    omega

theorem Replaced.site_of (h : a.Replaced parent before after T T' a')
    (hsite : a.Site parent before after T) : a'.Site parent before after T' where
  children_eq p hp := by rw [children, h.site p hp]
  before_lt id hid := (hsite.before_lt id hid).trans_le h.size_le
  not_before id hid hmem := by
    rcases h.owned id hmem with hmem | hmem
    · exact hsite.not_before id hid hmem
    · have hlt := hsite.before_lt id hid
      omega

/-- A tree that is changed where it stands takes its own place. -/
theorem Apart.replaced {size : Nat} (h : a.Apart T.ids {.tree parent T'} size a')
    (hid : T'.id = T.id) (hunder : a.Under parent path T) (hsite : a.Site parent before after T) :
    a.Replaced parent before after T T' a' where
  holds := h.held (.tree parent T') (by simp)
  nodup := by simpa [Part.ids] using h.nodup
  owned id hmem := h.owned id (by simpa [Part.ids] using hmem)
  size_le := h.keeps.size_le
  site p hp := by
    obtain ⟨hlt, hnot⟩ := hunder.parent_lt hp
    rw [h.keeps.node_eq p hlt hnot, hid, ← hsite.children_eq p hp]
    rfl
  keeps id hlt hnot _ := h.keeps.node_eq id hlt hnot

/-- Changing a node that is none of those worked on. -/
theorem Apart.update_outside {start : Arena} {owned : List NodeId} {parts : Multiset Part}
    {size : Nat} (h : start.Apart owned parts size a) {id : NodeId} (hlt : id.index < start.size)
    (hnot : id ∉ owned) (change : Node → Node) :
    (start.update id change).Apart owned parts size (a.update id change) where
  size_eq := (size_update ..).trans h.size_eq
  keeps := by
    refine ⟨by rw [size_update, size_update]; exact h.keeps.size_le, fun other hother hnot' => ?_⟩
    rw [size_update] at hother
    by_cases heq : other = id
    · subst heq
      rw [node_update_self _ _ hlt, node_update_self _ _ (hlt.trans_le h.keeps.size_le),
        h.keeps.node_eq _ hlt hnot]
    · rw [node_update_of_ne _ _ heq, node_update_of_ne _ _ heq, h.keeps.node_eq _ hother hnot']
  held part hpart := by
    refine (h.held part hpart).keep (.update a id change) fun other hother heq => ?_
    rw [List.mem_singleton.mp heq] at hother
    rcases h.owned id (Part.mem_idsOf.mpr ⟨part, hpart, hother⟩) with hmem | hmem
    · exact hnot hmem
    · omega
  nodup := h.nodup
  owned id hid := by
    rw [size_update]
    exact h.owned id hid

/-- Putting the tree that a step gives where the step was made. -/
theorem replace_ends {size : Nat} (h : T.Gives parent a (T', size) (some T'.id) a')
    (hunder : a.Under parent path T) (hsite : a.Site parent before after T) :
    Ends (Edit.replace T.id T'.id) a' fun _ a'' =>
      a.Replaced parent before after T T' a'' ∧ a''.size = size ∧ T'.id ≠ T.id := by
  obtain ⟨-, n, hparent, -, h'⟩ := h
  have hnew : a'.parent T'.id = none := h'.holds.parent_eq
  have hold : a'.parent T.id = parent := by
    have htop : a'.node T.id = n := (h'.held (.top T.id n) (by simp)).2
    rw [Arena.parent, htop, hparent]
  have hne : T.id ≠ T'.id := by
    have hnodup := h'.nodup
    rw [Part.idsOf_add, Multiset.nodup_add] at hnodup
    intro heq
    have hmem : T'.id ∈ Part.idsOf {.tree none T'} := by simpa [Part.ids] using T'.id_mem_ids
    exact Multiset.disjoint_left.mp hnodup.2.2 hmem (by simp [Part.ids, heq])
  -- the rest of the change, once the parent has its new child
  have hmoved : ∀ {start a' : Arena},
      start.Apart T.ids ({.tree none T'} + {.top T.id n}) size a' →
      start.Apart T.ids {.tree parent T'} size
        ((a'.update T.id fun n => { n with parent := none }).update T'.id
          fun n => { n with parent }) := by
    intro start a' h'
    rw [add_comm] at h'
    have h₁ := h'.update_top fun n => { n with parent := none }
    rw [add_comm] at h₁
    exact (h₁.update_tree T' parent (fun n => { n with parent }) rfl rfl rfl).drop
  have hids : ∀ {start a'' : Arena}, start.Apart T.ids {.tree parent T'} size a'' →
      ∀ id ∈ T'.ids, id ∈ T.ids ∨ start.size ≤ id.index :=
    fun h'' id hid => h''.owned id (by simpa [Part.ids] using hid)
  simp only [Edit.replace, if_neg hne, ends_bind_iff, ends_get_iff, hnew, hold]
  cases parent with
  | none =>
    have h'' := hmoved h'
    exact ⟨⟨h''.held (.tree none T') (by simp), by simpa [Part.ids] using h''.nodup, hids h'',
      h''.keeps.size_le, (fun p hp => by cases hp),
      fun id hlt hnot _ => h''.keeps.node_eq id hlt hnot⟩, h''.size_eq, hne.symm⟩
  | some p =>
    obtain ⟨hlt, hnot⟩ := hunder.parent_lt rfl
    have h'' := hmoved
      (h'.update_outside hlt hnot fun n => { n with children := n.children.replace T.id T'.id })
    have hchildren : (a.children p).replace T.id T'.id = before ++ T'.id :: after := by
      have hbefore : T.id ∉ before := fun hmem => hsite.not_before T.id hmem T.id_mem_ids
      rw [hsite.children_eq p rfl, List.replace_append_right hbefore, List.replace_cons_self]
    refine ⟨⟨h''.held (.tree (some p) T') (by simp), by simpa [Part.ids] using h''.nodup,
      ?_, ?_, ?_, ?_⟩, h''.size_eq, hne.symm⟩
    · intro id hid
      rw [← size_update a p fun n => { n with children := n.children.replace T.id T'.id }]
      exact hids h'' id hid
    · rw [← size_update a p fun n => { n with children := n.children.replace T.id T'.id }]
      exact h''.keeps.size_le
    · intro q hq
      cases hq
      rw [h''.keeps.node_eq p (by rwa [size_update]) hnot, node_update_self _ _ hlt, ← hchildren]
      rfl
    · intro id hid hnot' hne'
      rw [h''.keeps.node_eq id (by rwa [size_update]) hnot', node_update_of_ne]
      exact fun heq => hne' (congrArg some heq.symm)

end

end Arena

end MessageLang
