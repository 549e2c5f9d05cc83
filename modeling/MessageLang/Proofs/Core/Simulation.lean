import MessageLang.Proofs.Core.Lowers

namespace MessageLang

namespace Arena

/-- What becomes of an arena in which the later children of a node are replaced by other trees. -/
structure ReplacedAll (a : Arena) (p : NodeId) (before : List NodeId) (trees trees' : List Tree)
    (a' : Arena) : Prop where
  holds : ∀ T ∈ trees', a'.Holds (some p) T
  nodup : (trees'.flatMap Tree.ids).Nodup
  owned : ∀ id ∈ trees'.flatMap Tree.ids, id ∈ trees.flatMap Tree.ids ∨ a.size ≤ id.index
  size_le : a.size ≤ a'.size
  site : a'.node p = { a.node p with children := before ++ trees'.map Tree.id }
  keeps : ∀ id : NodeId, id.index < a.size → id ∉ trees.flatMap Tree.ids → id ≠ p →
    a'.node id = a.node id

/-- The later children of a node, from some place on, as trees. -/
structure Sites (a : Arena) (p : NodeId) (path : List (NodeId × NodeForm)) (before : List NodeId)
    (trees : List Tree) : Prop where
  above : a.Above (some p) path
  children_eq : a.children p = before ++ trees.map Tree.id
  holds : ∀ T ∈ trees, a.Holds (some p) T
  nodup : (path.map (·.1) ++ trees.flatMap Tree.ids).Nodup
  before_lt : ∀ id ∈ before, id.index < a.size
  not_before : ∀ id ∈ before, id ∉ trees.flatMap Tree.ids

section

variable {a a' a'' : Arena} {p : NodeId} {path : List (NodeId × NodeForm)} {before : List NodeId}
  {T T' : Tree} {trees trees' : List Tree}

theorem Sites.head_under (h : a.Sites p path before (T :: trees)) : a.Under (some p) path T := by
  refine ⟨h.above, h.nodup.sublist ?_⟩
  rw [List.flatMap_cons, ← List.append_assoc]
  exact List.sublist_append_left _ _

theorem Sites.head_site (h : a.Sites p path before (T :: trees)) :
    a.Site (some p) before (trees.map Tree.id) T where
  children_eq q hq := by
    cases hq
    exact h.children_eq
  before_lt := h.before_lt
  not_before id hid hmem := h.not_before id hid (by simp [hmem])

/-- The handles of the other trees are neither the parent's nor in the first tree. -/
private theorem Sites.tail_disjoint (h : a.Sites p path before (T :: trees)) {id : NodeId}
    (hid : id ∈ trees.flatMap Tree.ids) : id.index < a.size ∧ id ∉ T.ids ∧ id ≠ p := by
  obtain ⟨hpath, htrees, hdisjoint⟩ := List.nodup_append.mp h.nodup
  rw [List.flatMap_cons, List.nodup_append] at htrees
  refine ⟨?_, fun hmem => htrees.2.2 id hmem id hid rfl, ?_⟩
  · obtain ⟨U, hU, hid⟩ := List.mem_flatMap.mp hid
    exact (h.holds U (by simp [hU])).lt hid
  · rintro rfl
    have hhead := h.above.head?_eq
    rw [Option.map_eq_some_iff] at hhead
    obtain ⟨entry, hentry, rfl⟩ := hhead
    refine hdisjoint entry.1 (List.mem_map_of_mem (List.mem_of_mem_head? hentry)) entry.1 ?_ rfl
    rw [List.flatMap_cons, List.mem_append]
    exact .inr hid

/-- When the first of some trees is replaced, the others are as they were. -/
theorem Sites.tail (h : a.Sites p path before (T :: trees))
    (h' : a.Replaced (some p) before (trees.map Tree.id) T T' a') :
    a'.Sites p path (before ++ [T'.id]) trees where
  above := (h'.under h.head_under).above
  children_eq := by rw [children, h'.site p rfl, List.append_assoc, List.singleton_append]
  holds U hU := by
    have hkeeps : a.Keeps a' (p :: T.ids) := by
      refine ⟨h'.size_le, fun id hlt hnot => ?_⟩
      rw [List.mem_cons, not_or] at hnot
      exact h'.keeps id hlt hnot.2 fun heq => hnot.1 (Option.some.inj heq).symm
    refine (h.holds U (by simp [hU])).keep hkeeps fun id hid hmem => ?_
    obtain ⟨_, hnot, hne⟩ := h.tail_disjoint (List.mem_flatMap.mpr ⟨U, hU, hid⟩)
    rcases List.mem_cons.mp hmem with heq | hmem
    · exact hne heq
    · exact hnot hmem
  nodup := by
    refine h.nodup.sublist (List.Sublist.append_left ?_ _)
    rw [List.flatMap_cons]
    exact List.sublist_append_right _ _
  before_lt id hid := by
    rcases List.mem_append.mp hid with hid | hid
    · exact (h.before_lt id hid).trans_le h'.size_le
    · rw [List.mem_singleton.mp hid]
      exact h'.holds.lt T'.id_mem_ids
  not_before id hid hmem := by
    obtain ⟨hlt, hnot, _⟩ := h.tail_disjoint hmem
    rcases List.mem_append.mp hid with hid | hid
    · exact h.not_before id hid (by simp [hmem])
    · rw [List.mem_singleton.mp hid] at hlt hnot
      rcases h'.owned T'.id T'.id_mem_ids with hmem | hmem
      · exact hnot hmem
      · omega

theorem Sites.nil (h : a.Sites p path before []) : a.ReplacedAll p before [] [] a where
  holds _ hT := nomatch hT
  nodup := List.nodup_nil
  owned _ hid := nomatch hid
  size_le := le_rfl
  site := by
    have hchildren := h.children_eq
    rw [children] at hchildren
    rw [← hchildren]
  keeps _ _ _ _ := rfl

theorem Sites.cons (h : a.Sites p path before (T :: trees))
    (h' : a.Replaced (some p) before (trees.map Tree.id) T T' a')
    (h'' : a'.ReplacedAll p (before ++ [T'.id]) trees trees' a'') :
    a.ReplacedAll p before (T :: trees) (T' :: trees') a'' := by
  have hT' : ∀ id ∈ T'.ids, id ∉ trees.flatMap Tree.ids ∧ id ≠ p := by
    intro id hid
    rcases h'.owned id hid with hmem | hmem
    · have hnodup := (List.nodup_append.mp h.nodup).2.1
      rw [List.flatMap_cons, List.nodup_append] at hnodup
      refine ⟨fun hmem' => hnodup.2.2 id hmem id hmem' rfl, ?_⟩
      rintro rfl
      exact (h.head_under.parent_lt rfl).2 hmem
    · refine ⟨fun hmem' => ?_, ?_⟩
      · have hlt := (h.tail_disjoint hmem').1
        omega
      · rintro rfl
        have hlt := (h.head_under.parent_lt rfl).1
        omega
  refine ⟨?_, ?_, ?_, h'.size_le.trans h''.size_le, ?_, ?_⟩
  · intro U hU
    rcases List.mem_cons.mp hU with rfl | hU
    · have hkeeps : a'.Keeps a'' (p :: trees.flatMap Tree.ids) := by
        refine ⟨h''.size_le, fun id hlt hnot => ?_⟩
        rw [List.mem_cons, not_or] at hnot
        exact h''.keeps id hlt hnot.2 hnot.1
      refine h'.holds.keep hkeeps fun id hid hmem => ?_
      obtain ⟨hnot, hne⟩ := hT' id hid
      rcases List.mem_cons.mp hmem with heq | hmem
      · exact hne heq
      · exact hnot hmem
    · exact h''.holds U hU
  · rw [List.flatMap_cons, List.nodup_append]
    refine ⟨h'.nodup, h''.nodup, ?_⟩
    rintro id hid _ hid' rfl
    rcases h''.owned id hid' with hmem | hmem
    · exact (hT' id hid).1 hmem
    · have hlt := h'.holds.lt hid
      omega
  · intro id hid
    rw [List.flatMap_cons, List.mem_append] at hid ⊢
    rcases hid with hid | hid
    · rcases h'.owned id hid with hmem | hmem
      · exact .inl (.inl hmem)
      · exact .inr hmem
    · rcases h''.owned id hid with hmem | hmem
      · exact .inl (.inr hmem)
      · exact .inr (h'.size_le.trans hmem)
  · rw [h''.site, h'.site p rfl, List.append_assoc]
    rfl
  · intro id hlt hnot hne
    rw [List.flatMap_cons, List.mem_append, not_or] at hnot
    rw [h''.keeps id (hlt.trans_le h'.size_le) hnot.2 hne]
    exact h'.keeps id hlt hnot.1 fun heq => hne (Option.some.inj heq).symm

/-- All children of a tree, as places in it. -/
theorem Holds.sites {parent : Option NodeId} (h : a.Holds parent T) (hunder : a.Under parent path T) :
    a.Sites T.id ((T.id, T.form) :: path) [] T.children where
  above := by
    have habove := hunder.above
    rw [← h.parent_eq] at habove
    rw [← h.form_eq]
    exact .under (h.lt T.id_mem_ids) habove
  children_eq := h.children_eq
  holds _ hU := h.child hU
  nodup := by
    have hnodup := hunder.nodup
    rw [Tree.ids_eq] at hnodup
    exact List.perm_middle.nodup_iff.mp hnodup
  before_lt _ hid := nomatch hid
  not_before _ hid := nomatch hid

/-- Replacing all children of a tree changes the tree where it stands. -/
theorem ReplacedAll.replaced {parent : Option NodeId} {before after : List NodeId}
    (h : a.ReplacedAll T.id [] T.children trees' a') (hheld : a.Holds parent T)
    (hunder : a.Under parent path T) (hsite : a.Site parent before after T) :
    a.Replaced parent before after T (T.withChildren trees') a' := by
  have hids : (T.withChildren trees').ids = T.id :: trees'.flatMap Tree.ids := Tree.ids_eq _
  have hlt := hheld.lt T.id_mem_ids
  have hnodup := (List.nodup_append.mp hunder.nodup).2.1
  rw [Tree.ids_eq, List.nodup_cons] at hnodup
  have hkeeps : ∀ id : NodeId, id.index < a.size → id ∉ T.ids → a'.node id = a.node id := by
    intro id hid hnot
    rw [Tree.ids_eq, List.mem_cons, not_or] at hnot
    exact h.keeps id hid hnot.2 hnot.1
  refine ⟨holds_iff.mpr ⟨hlt.trans_le h.size_le, ?_, h.holds⟩, ?_, ?_, h.size_le, ?_,
    fun id hid hnot _ => hkeeps id hid hnot⟩
  · rw [Tree.withChildren, Tree.id, h.site, hheld.node_eq]
    rfl
  · rw [hids, List.nodup_cons]
    refine ⟨fun hmem => ?_, h.nodup⟩
    rcases h.owned T.id hmem with hmem | hmem
    · exact hnodup.1 hmem
    · omega
  · intro id hid
    rw [hids, List.mem_cons] at hid
    rw [Tree.ids_eq, List.mem_cons]
    rcases hid with rfl | hid
    · exact .inl (.inl rfl)
    · rcases h.owned id hid with hmem | hmem
      · exact .inl (.inr hmem)
      · exact .inr hmem
  · intro p hp
    obtain ⟨hplt, hpnot⟩ := hunder.parent_lt hp
    rw [hkeeps p hplt hpnot]
    have hchildren := hsite.children_eq p hp
    rw [Tree.withChildren, Tree.id, ← hchildren]
    rfl

end

end Arena

open Arena

/-- What lowering a tree within a budget comes to, where the tree stands. -/
def LowersWithin (budget : Nat) (T : Tree) : Prop :=
  ∀ ⦃parent : Option NodeId⦄ ⦃path : List (NodeId × NodeForm)⦄ ⦃before after : List NodeId⦄
    ⦃s : Lowering⦄ ⦃a : Arena⦄, a.Holds parent T → a.Under parent path T →
    a.Site parent before after T →
    Ends (Edit.replaceAllWithin Lowering.step budget T.id s) a fun p a' =>
      ∃ T', p.1 = T'.id ∧ Lowers (path.map (·.2)) [T] (s, a.size) [T'] (p.2, a'.size) ∧
        a.Replaced parent before after T T' a'

theorem Lowers.cons {above : List NodeForm} {T T' : Tree} {trees trees' : List Tree}
    {w w' w'' : Lowering × Nat} (head : Lowers above [T] w [T'] w')
    (tail : Lowers above trees w' trees' w'') :
    Lowers above (T :: trees) w (T' :: trees') w'' := by
  generalize hone : [T] = one at head
  generalize hone' : [T'] = one' at head
  induction head generalizing T T' with
  | nil => cases hone
  | settles step below after _ _ =>
    cases hone
    cases hone'
    cases after
    exact .settles step below tail
  | rewrites step _ ih =>
    cases hone
    exact .rewrites step (ih tail rfl hone')

/-- Lowering the children of a node one after the other. -/
theorem children_ends {budget : Nat} {p : NodeId} {path : List (NodeId × NodeForm)}
    {before : List NodeId} {trees : List Tree} {s : Lowering} {a : Arena}
    (hbudget : ∀ T ∈ trees, LowersWithin budget T) (h : a.Sites p path before trees) :
    Ends ((forIn (trees.map Tree.id) PUnit.unit fun child _ => do
        let _ ← Edit.replaceAllWithin Lowering.step budget child
        pure (ForInStep.yield PUnit.unit) : StateT Lowering Edit PUnit) s) a fun p' a' =>
      ∃ trees', Lowers (path.map (·.2)) trees (s, a.size) trees' (p'.2, a'.size) ∧
        a.ReplacedAll p before trees trees' a' := by
  induction trees generalizing before s a with
  | nil => exact ⟨[], .nil, h.nil⟩
  | cons T trees ih =>
    simp only [List.map_cons, List.forIn_cons, bind_assoc, pure_bind, ends_bind_apply_iff]
    refine (hbudget T (by simp) (h.holds T (by simp)) h.head_under h.head_site).mono ?_
    rintro ⟨_, s₁⟩ a₁ ⟨T', rfl, hhead, hreplaced⟩
    refine (ih (fun U hU => hbudget U (by simp [hU])) (h.tail hreplaced)).mono ?_
    rintro ⟨_, s₂⟩ a₂ ⟨trees', htail, hall⟩
    exact ⟨T' :: trees', hhead.cons htail, h.cons hreplaced hall⟩

private theorem Tree.Settles.id_eq {above : List NodeForm} {T T' : Tree} {s s' : Lowering}
    {size size' : Nat} (h : T.Settles above s size (T', size') s') : T'.id = T.id := by
  cases h <;> rfl

private theorem Tree.effort_inherit (T : Tree) (grouped : Bool) :
    (T.inherit grouped).effort = T.effort := by
  unfold Tree.inherit
  split
  · exact Tree.effort_setGrouped T true
  · rfl

/-- Lowering in an arena ends, and makes of a tree there what lowering makes of the tree as
such. -/
theorem lowersWithin_of_effort_le {budget : Nat} {T : Tree} (hbudget : T.effort ≤ budget) :
    LowersWithin budget T := by
  induction budget generalizing T with
  | zero =>
    have hpos := T.effort_pos
    omega
  | succ budget ih =>
    intro parent path before after s a hheld hunder hsite
    simp only [Edit.replaceAllWithin, ends_bind_apply_iff]
    refine (step_ends hheld hunder s).mono ?_
    rintro ⟨next, s₁⟩ a₁ hleft
    cases next with
    | none =>
      obtain ⟨T', size, hsettles, hapart⟩ := hleft
      have hsize := hapart.size_eq
      subst hsize
      have hid := hsettles.id_eq
      have hmoved := hapart.replaced hid hunder hsite
      have hheld' := hmoved.holds
      have hunder' := hmoved.under hunder
      simp only [Option.getD_none, if_true, ends_bind_apply_iff, ends_get_inner_iff,
        ends_pure_apply_iff]
      rw [← hid, hheld'.children_eq]
      have hbelow : ∀ child ∈ T'.children, LowersWithin budget child := fun child hchild => by
        have hlt := hsettles.effort_lt hchild
        exact ih (Nat.le_of_lt_succ (hlt.trans_le hbudget))
      refine (children_ends hbelow (hheld'.sites hunder')).mono ?_
      rintro ⟨_, s₂⟩ a₂ ⟨children, hlowers, hall⟩
      refine ⟨T'.withChildren children, rfl, .settles hsettles hlowers .nil, ?_⟩
      exact hmoved.trans (hall.replaced hheld' hunder' (hmoved.site_of hsite))
    | some next =>
      obtain ⟨T', size, hrewrites, hgives⟩ := hleft
      have hnext := Option.some.inj hgives.1
      subst hnext
      have hreplace := replace_ends hgives hunder hsite
      have hne : (T'.inherit T.grouped).id ≠ T.id := by
        obtain ⟨_, _, _, _, _, hne⟩ := ends_iff.mp hreplace
        exact hne
      simp only [Option.getD_some, if_neg hne, ends_bind_apply_iff, ends_lift_apply_iff]
      refine hreplace.mono ?_
      rintro _ a₂ ⟨hmoved, rfl, _⟩
      have hagain : LowersWithin budget (T'.inherit T.grouped) := by
        refine ih ?_
        rw [Tree.effort_inherit]
        exact Nat.le_of_lt_succ (hrewrites.effort_lt.trans_le hbudget)
      refine (hagain hmoved.holds (hmoved.under hunder) (hmoved.site_of hsite)).mono ?_
      rintro ⟨_, s₂⟩ a₃ ⟨T'', hid, hlowers, hreplaced⟩
      exact ⟨T'', hid, .rewrites hrewrites hlowers, hmoved.trans hreplaced⟩

/-- Going through a tree where it stands ends, and comes to what lowering makes of the tree as
such. -/
theorem replaceAll_lowers {a : Arena} {parent : Option NodeId} {path : List (NodeId × NodeForm)}
    {before after : List NodeId} {T : Tree} (hheld : a.Holds parent T) (hunder : a.Under parent path T)
    (hsite : a.Site parent before after T) (s : Lowering) :
    ∃ R s' a', Edit.replaceAll Lowering.step T.id s a = .ok ((R.id, s'), a') ∧
      Lowers (path.map (·.2)) [T] (s, a.size) [R] (s', a'.size) ∧
      a.Replaced parent before after T R a' := by
  have hbudget : T.effort ≤ 8 * a.size + 8 := by
    have heffort := T.effort_le_length
    have hlength := hheld.length_ids_le (List.nodup_append.mp hunder.nodup).2.1
    omega
  suffices hends : Ends (Edit.replaceAll Lowering.step T.id s) a fun p a' => ∃ R, p.1 = R.id ∧
      Lowers (path.map (·.2)) [T] (s, a.size) [R] (p.2, a'.size) ∧
      a.Replaced parent before after T R a' by
    obtain ⟨⟨_, s'⟩, a', hrun, R, rfl, hR⟩ := ends_iff.mp hends
    exact ⟨R, s', a', hrun, hR⟩
  simp only [Edit.replaceAll, ends_bind_apply_iff, ends_get_inner_iff]
  exact lowersWithin_of_effort_le hbudget hheld hunder hsite

theorem lower_eq_of_replaceAll {a a' : Arena} {root : NodeId} {stem : String} {log : Log}
    {result : NodeId} {s' : Lowering} (h : Edit.replaceAll Lowering.step root
      ⟨log, Temporaries.ofTree a root stem⟩ a = .ok ((result, s'), a')) :
    lower stem root log a = .ok ((result, s'.log), a') := by
  simp only [lower, bind, StateT.bind, Except.bind, get, getThe, MonadStateOf.get, StateT.get, pure,
    Except.pure, h]
  rfl

/-- Lowering a tree where it stands ends, and comes to what lowering makes of the tree as such. -/
theorem lower_lowers {a : Arena} {parent : Option NodeId} {path : List (NodeId × NodeForm)}
    {before after : List NodeId} {T : Tree} (hheld : a.Holds parent T) (hunder : a.Under parent path T)
    (hsite : a.Site parent before after T) (stem : String) (log : Log) :
    ∃ R s' a', lower stem T.id log a = .ok ((R.id, s'.log), a') ∧
      Lowers (path.map (·.2)) [T] (⟨log, Temporaries.ofTree a T.id stem⟩, a.size) [R] (s', a'.size) ∧
      a.Replaced parent before after T R a' := by
  obtain ⟨R, s', a', hrun, hR⟩ :=
    replaceAll_lowers hheld hunder hsite ⟨log, Temporaries.ofTree a T.id stem⟩
  exact ⟨R, s', a', lower_eq_of_replaceAll hrun, hR⟩

end MessageLang
