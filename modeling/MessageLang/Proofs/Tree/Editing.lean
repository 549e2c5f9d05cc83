import MessageLang.Proofs.Outcome
import MessageLang.Proofs.Tree.Growing

namespace MessageLang

/-- A node that is no longer the parent of another one. -/
def Node.without (n : Node) (child : NodeId) : Node :=
  { n with children := n.children.filter (· != child) }

/-- What an arena looks like after a tree was made in it, given that tree and how many nodes there
are then. -/
def Arena.Made (start : Arena) (owned : List NodeId) (rest : Multiset Part) (made : Tree × Nat)
    (id : NodeId) (a : Arena) : Prop :=
  id = made.1.id ∧ start.Apart owned ({.tree none made.1} + rest) made.2 a

/-- Going on with a tree that was made, of which only the way it was made is known. -/
theorem Ends.made {α : Type} {edit : Edit NodeId} {next : NodeId → Edit α} {start a : Arena}
    {owned : List NodeId} {rest : Multiset Part} {grown : Tree × Nat} {post : α → Arena → Prop}
    (h : Ends edit a (start.Made owned rest grown))
    (hnext : ∀ made, grown = made → ∀ a',
      start.Apart owned ({.tree none made.1} + rest) made.2 a' →
        Ends (next made.1.id) a' post) : Ends (edit >>= next) a post := by
  refine h.bind ?_
  rintro _ a' ⟨rfl, h'⟩
  exact hnext grown rfl a' h'

namespace Arena.Apart

open MessageLang.Tree (Twig)

variable {start a : Arena} {owned : List NodeId} {rest : Multiset Part} {size : Nat}
  {parent : Option NodeId} {T : Tree}

theorem leaf (h : start.Apart owned rest size a) (form : NodeForm) (span : Span) :
    Ends (Edit.leaf form span) a (start.Made owned rest (Tree.leaf form span size)) := by
  rw [Edit.leaf, Edit.push, ends_modifyGet_iff]
  refine ⟨congrArg NodeId.mk h.size_eq, ?_⟩
  rw [open_iff]
  simpa [Tree.leaf, Tree.top, Tree.id, Tree.form, Tree.span, Tree.grouped, Tree.children] using
    h.push { form, span }

theorem leaves {twigs : List Twig} (h : start.Apart owned (Twig.used twigs + rest) size a) :
    Ends (Edit.leaves (twigs.map Twig.piece)) a fun ids a' =>
      ids = (Tree.leaves twigs size).1.map Tree.id ∧
        start.Apart owned (((Tree.leaves twigs size).1.map (.tree none) : List Part) + rest)
          (Tree.leaves twigs size).2 a' := by
  induction twigs generalizing rest size a with
  | nil =>
    exact ends_pure_iff.mpr ⟨rfl, h⟩
  | cons twig twigs ih =>
    cases twig with
    | tree T =>
      simp only [List.map_cons, Twig.piece, Edit.leaves, ends_bind_iff, ends_pure_iff]
      have h' : start.Apart owned (Twig.used twigs + ({.tree none T} + rest)) size a := by
        rwa [Twig.used, add_assoc, add_left_comm] at h
      refine (ih h').mono ?_
      rintro _ a' ⟨rfl, h₁⟩
      refine ⟨rfl, ?_⟩
      rw [add_left_comm, ← add_assoc] at h₁
      exact h₁
    | token t =>
      simp only [List.map_cons, Twig.piece, Edit.leaves, Edit.token, ends_bind_iff, ends_pure_iff]
      refine (h.leaf (.token t) t.span).mono ?_
      rintro _ a₁ ⟨rfl, h₁⟩
      rw [Twig.used, add_left_comm] at h₁
      refine (ih h₁).mono ?_
      rintro _ a₂ ⟨rfl, h₂⟩
      refine ⟨rfl, ?_⟩
      rw [add_left_comm, ← add_assoc] at h₂
      exact h₂

theorem adopt (h : start.Apart owned ({.tree none T} + rest) size a) (parent : NodeId) :
    Ends (Edit.adopt parent T.id) a fun _ a' =>
      start.Apart owned ({.tree (some parent) T} + rest) size a' := by
  simp only [Edit.adopt, Edit.update, ends_bind_iff, ends_get_iff, h.holds.parent_eq]
  rw [if_neg (by simp)]
  simp only [ends_modify_iff]
  exact h.update_tree _ _ _ rfl rfl rfl

theorem adoptAll {trees : List Tree}
    (h : start.Apart owned ((trees.map (.tree none) : List Part) + rest) size a)
    (parent : NodeId) :
    Ends ((trees.map Tree.id).forM (Edit.adopt parent)) a fun _ a' =>
      start.Apart owned ((trees.map (.tree (some parent)) : List Part) + rest) size a' := by
  induction trees generalizing rest a with
  | nil => exact ends_pure_iff.mpr h
  | cons T trees ih =>
    simp only [List.map_cons, List.forM_eq_forM, List.forM_cons, ends_bind_iff]
    simp only [List.map_cons, ← Multiset.cons_coe, ← Multiset.singleton_add, add_assoc] at h ⊢
    refine (h.adopt parent).mono fun _ a₁ h₁ => ?_
    rw [add_left_comm] at h₁ ⊢
    exact ih h₁

theorem attach {trees : List Tree}
    (h : start.Apart owned ((trees.map (.tree none) : List Part) + rest) size a)
    (form : NodeForm) (span : Span) :
    Ends (Edit.attach form span (trees.map Tree.id)) a
      (start.Made owned rest (Tree.attach form span trees size)) := by
  simp only [Edit.attach, Edit.update, ends_bind_iff]
  refine (h.leaf form span).mono ?_
  rintro _ a₁ ⟨rfl, h₁⟩
  rw [add_left_comm] at h₁
  refine (h₁.adoptAll _).mono fun _ a₂ h₂ => ?_
  rw [add_left_comm, open_iff] at h₂
  simp only [ends_modify_iff, ends_pure_iff]
  refine ⟨rfl, ?_⟩
  rw [open_iff]
  rw [add_assoc] at h₂ ⊢
  simpa [Tree.top, Tree.leaf, Tree.attach, Tree.id, Tree.form, Tree.span, Tree.grouped, Tree.children] using
    h₂.update_top fun n => { n with children := trees.map Tree.id }

theorem allocAt (twigs : List Twig) (h : start.Apart owned (Twig.used twigs + rest) size a)
    (form : NodeForm) (span : Span) :
    Ends (Edit.allocAt form span (twigs.map Twig.piece)) a
      (start.Made owned rest (Tree.allocAt form span twigs size)) := by
  rw [Edit.allocAt, ends_bind_iff]
  refine h.leaves.mono ?_
  rintro _ a₁ ⟨rfl, h₁⟩
  exact h₁.attach form span

theorem alloc (twigs : List Twig) (h : start.Apart owned (Twig.used twigs + rest) size a)
    (hne : twigs ≠ []) (form : NodeForm) :
    Ends (Edit.alloc form (twigs.map Twig.piece)) a
      (start.Made owned rest (Tree.alloc form twigs size)) := by
  simp only [Edit.alloc, ends_bind_iff, ends_get_iff]
  refine h.leaves.mono ?_
  rintro _ a₁ ⟨rfl, h₁⟩
  have hnotnil : (Tree.leaves twigs size).1 ≠ [] := by
    rw [← List.length_pos_iff, Tree.length_leaves]
    exact List.length_pos_iff.mpr hne
  have hspan : ∀ T ∈ (Tree.leaves twigs size).1, a₁.span T.id = T.span := by
    intro T hT
    have hheld : a₁.Holds none T := h₁.held (.tree none T)
      (Multiset.mem_add.mpr (.inl (Multiset.mem_coe.mpr (List.mem_map_of_mem hT))))
    exact hheld.span_eq
  rw [List.head?_map, List.getLast?_map, List.head?_eq_some_head hnotnil,
    List.getLast?_eq_some_getLast hnotnil]
  simp only [Option.map_some]
  rw [hspan _ (List.head_mem hnotnil), hspan _ (List.getLast_mem hnotnil)]
  have hcover : Tree.cover (Tree.leaves twigs size).1 =
      ((Tree.leaves twigs size).1.head hnotnil).span.merge
        ((Tree.leaves twigs size).1.getLast hnotnil).span := by
    rw [Tree.cover, List.head?_eq_some_head hnotnil, List.getLast?_eq_some_getLast hnotnil]
  rw [← hcover]
  exact h₁.attach form _

theorem append (twigs : List Twig)
    (h : start.Apart owned (Twig.used twigs + ({.tree parent T} + rest)) size a) :
    Ends (Edit.append T.id (twigs.map Twig.piece)) a fun _ a' =>
      start.Apart owned ({.tree parent (T.append twigs size).1} + rest) (T.append twigs size).2
        a' := by
  simp only [Edit.append, Edit.update, ends_bind_iff]
  refine h.leaves.mono ?_
  rintro _ a₁ ⟨rfl, h₁⟩
  refine (h₁.adoptAll T.id).mono fun _ a₂ h₂ => ?_
  have hspan : ∀ child ∈ (Tree.leaves twigs size).1, a₂.span child.id = child.span := by
    intro child hchild
    have hheld : a₂.Holds (some T.id) child := h₂.held (.tree (some T.id) child)
      (Multiset.mem_add.mpr (.inl (Multiset.mem_coe.mpr (List.mem_map_of_mem hchild))))
    exact hheld.span_eq
  have hfold : ((Tree.leaves twigs size).1.map Tree.id).foldl
      (fun span child => span.merge (a₂.span child)) T.span =
      (Tree.leaves twigs size).1.foldl (fun span child => span.merge child.span) T.span := by
    rw [List.foldl_map]
    exact List.foldl_ext _ _ _ fun span child hchild => by rw [hspan child hchild]
  simp only [ends_get_iff, ends_modify_iff]
  rw [add_left_comm, open_iff, add_assoc] at h₂
  rw [open_iff]
  have h₃ := h₂.update_top fun n =>
    { n with
      children := n.children ++ (Tree.leaves twigs size).1.map Tree.id
      span := ((Tree.leaves twigs size).1.map Tree.id).foldl
        (fun span child => span.merge (a₂.span child)) n.span }
  have htop : (T.append twigs size).1.top parent =
      { T.top parent with
        children := (T.top parent).children ++ (Tree.leaves twigs size).1.map Tree.id
        span := ((Tree.leaves twigs size).1.map Tree.id).foldl
          (fun span child => span.merge (a₂.span child)) (T.top parent).span } := by
    simp only [Tree.top, hfold, ← List.map_append]
    rfl
  have hchildren : (T.append twigs size).1.children = T.children ++ (Tree.leaves twigs size).1 := rfl
  have hid : (T.append twigs size).1.id = T.id := rfl
  rw [htop, hchildren, hid, List.map_append, ← Multiset.coe_add]
  simp only [add_assoc] at h₃ ⊢
  exact h₃

theorem detach {p : NodeId} {n : Node}
    (h : start.Apart owned ({.top p n} + ({.tree (some p) T} + rest)) size a) :
    Ends (Edit.detach T.id) a fun _ a' =>
      start.Apart owned ({.top p (n.without T.id)} + ({.tree none T} + rest)) size a' := by
  have hheld : a.Holds (some p) T := by
    rw [add_left_comm] at h
    exact h.holds
  simp only [Edit.detach, Edit.removeChild, Edit.update, ends_bind_iff, ends_get_iff,
    hheld.parent_eq, ends_modify_iff]
  have h₁ := h.update_top (·.without T.id)
  rw [add_left_comm] at h₁ ⊢
  exact h₁.update_tree T none (fun n => { n with parent := none }) rfl rfl rfl

theorem detachAll {p : NodeId} {n : Node} {trees : List Tree}
    (h : start.Apart owned ({.top p n} + ((trees.map (.tree (some p)) : List Part) + rest)) size a) :
    Ends ((trees.map Tree.id).forM Edit.detach) a fun _ a' =>
      ∃ n' : Node, n'.parent = n.parent ∧ n'.grouped = n.grouped ∧ start.Apart owned
        ({.top p n'} + ((trees.map (.tree none) : List Part) + rest)) size a' := by
  induction trees generalizing rest n a with
  | nil => exact ends_pure_iff.mpr ⟨n, rfl, rfl, h⟩
  | cons T trees ih =>
    simp only [List.map_cons, List.forM_eq_forM, List.forM_cons, ends_bind_iff]
    simp only [List.map_cons, ← Multiset.cons_coe, ← Multiset.singleton_add, add_assoc] at h ⊢
    refine h.detach.mono fun _ a₁ h₁ => ?_
    have h₁' : start.Apart owned ({.top p (n.without T.id)} +
        ((trees.map (.tree (some p)) : List Part) + ({.tree none T} + rest))) size a₁ :=
      h₁.regroup (by abel)
    refine (ih h₁').mono ?_
    rintro _ a₂ ⟨n', hparent, hgrouped, h₂⟩
    exact ⟨n', hparent, hgrouped, h₂.regroup (by abel)⟩

theorem setGrouped (h : start.Apart owned ({.tree parent T} + rest) size a) (grouped : Bool) :
    Ends (Edit.setGrouped T.id grouped) a fun _ a' =>
      start.Apart owned ({.tree parent (T.setGrouped grouped)} + rest) size a' :=
  ends_modify_iff.mpr (h.update_tree _ _ _ rfl rfl rfl)

theorem setForm (h : start.Apart owned ({.tree parent T} + rest) size a) (form : NodeForm) :
    Ends (Edit.setForm T.id form) a fun _ a' =>
      start.Apart owned ({.tree parent (T.setForm form)} + rest) size a' :=
  ends_modify_iff.mpr (h.update_tree _ _ _ rfl rfl rfl)

end Arena.Apart

end MessageLang
