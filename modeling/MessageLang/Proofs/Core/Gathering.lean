import MessageLang.Proofs.Core.Names

namespace MessageLang

namespace Tree

section

variable {α : Type} (f : NodeForm → Span → List α)

/-- What the nodes of some trees have, each for what it is and where. -/
def gather (trees : List Tree) : List α := (nodesAll trees).flatMap fun X => f X.form X.span

/-- What the trees and tokens among some children in the making have. -/
def Twig.gather : List Twig → List α
  | [] => []
  | tree T :: rest => Tree.gather f [T] ++ gather rest
  | token t :: rest => f (.token t) t.span ++ gather rest

variable {f} {T : Tree} {trees trees' : List Tree}

@[simp]
theorem gather_nil : gather f [] = [] := rfl

theorem gather_cons :
    gather f (T :: trees) = f T.form T.span ++ (gather f T.children ++ gather f trees) := by
  rw [gather, nodesAll_cons, List.flatMap_cons, List.flatMap_append]
  rfl

theorem gather_singleton : gather f [T] = f T.form T.span ++ gather f T.children := by
  rw [gather_cons, gather_nil, List.append_nil]

theorem gather_cons_eq_append : gather f (T :: trees) = gather f [T] ++ gather f trees := by
  rw [gather_cons, gather_singleton, List.append_assoc]

theorem gather_append : gather f (trees ++ trees') = gather f trees ++ gather f trees' := by
  rw [gather, nodesAll_append, List.flatMap_append, gather, gather]

theorem gather_subset (h : trees ⊆ trees') : gather f trees ⊆ gather f trees' := by
  intro x hx
  rw [gather, List.mem_flatMap] at hx ⊢
  obtain ⟨X, hX, hmem⟩ := hx
  exact ⟨X, nodesAll_subset h hX, hmem⟩

theorem gather_children_subset (T : Tree) : gather f T.children ⊆ gather f [T] := by
  rw [gather_singleton]
  exact List.subset_append_right _ _

theorem subset_gather (h : T ∈ trees) : f T.form T.span ⊆ gather f trees :=
  fun _ hx => List.mem_flatMap.mpr ⟨T, mem_nodesAll h, hx⟩

/-- What a part has is among what the whole has. -/
theorem gather_part_subset (h : T ∈ trees) : gather f [T] ⊆ gather f trees :=
  gather_subset (by simpa using h)

@[simp]
theorem Twig.gather_nil : gather f [] = [] := rfl

@[simp]
theorem Twig.gather_tree (T : Tree) (rest : List Twig) :
    gather f (tree T :: rest) = Tree.gather f [T] ++ gather f rest := rfl

@[simp]
theorem Twig.gather_token (t : Token) (rest : List Twig) :
    gather f (token t :: rest) = f (.token t) t.span ++ gather f rest := rfl

theorem Twig.gather_append (twigs twigs' : List Twig) :
    gather f (twigs ++ twigs') = gather f twigs ++ gather f twigs' := by
  induction twigs with
  | nil => rfl
  | cons twig rest ih => cases twig <;> simp [ih]

theorem Twig.gather_map_tree (trees : List Tree) : gather f (trees.map .tree) = Tree.gather f trees := by
  induction trees with
  | nil => rfl
  | cons T rest ih => rw [List.map_cons, gather_tree, ih, ← gather_cons_eq_append]

@[simp]
theorem gather_leaf (form : NodeForm) (span : Span) (size : Nat) :
    gather f [(leaf form span size).1] = f form span := by
  rw [gather_singleton]
  exact List.append_nil _

theorem gather_leaves (twigs : List Twig) (size : Nat) :
    gather f (leaves twigs size).1 = Twig.gather f twigs := by
  induction twigs generalizing size with
  | nil => rfl
  | cons twig twigs ih =>
    cases twig with
    | tree T =>
      have hleaves : (leaves (.tree T :: twigs) size).1 = T :: (leaves twigs size).1 := rfl
      rw [hleaves, gather_cons_eq_append, ih, Twig.gather_tree]
    | token t =>
      have hleaves : (leaves (.token t :: twigs) size).1 =
        (leaf (.token t) t.span size).1 :: (leaves twigs (size + 1)).1 := rfl
      rw [hleaves, gather_cons_eq_append, ih, gather_leaf, Twig.gather_token]

@[simp]
theorem gather_attach (form : NodeForm) (span : Span) (trees : List Tree) (size : Nat) :
    gather f [(attach form span trees size).1] = f form span ++ gather f trees := gather_singleton

@[simp]
theorem gather_allocAt (form : NodeForm) (span : Span) (twigs : List Twig) (size : Nat) :
    gather f [(allocAt form span twigs size).1] = f form span ++ Twig.gather f twigs := by
  rw [gather_singleton, ← gather_leaves twigs size]
  rfl

/-- If the topmost node has nothing, its span does not matter. -/
theorem gather_alloc (form : NodeForm) (twigs : List Twig) (size : Nat) (hf : ∀ span, f form span = []) :
    gather f [(alloc form twigs size).1] = Twig.gather f twigs := by
  rw [gather_singleton, ← gather_leaves twigs size]
  exact congrArg (· ++ _) (hf _)

mutual

theorem gather_copy (T : Tree) (size : Nat) : gather f [(T.copy size).1] = gather f [T] := by
  match T with
  | node id form span grouped children =>
    rw [gather_singleton, gather_singleton, copy_eq]
    exact congrArg (_ ++ ·) (gather_copyAll children size)

theorem gather_copyAll (trees : List Tree) (size : Nat) :
    gather f (copyAll trees size).1 = gather f trees := by
  match trees with
  | [] => rfl
  | T :: rest =>
    have hall : (copyAll (T :: rest) size).1 =
      (T.copy size).1 :: (copyAll rest (T.copy size).2).1 := rfl
    rw [hall, gather_cons_eq_append, gather_copy T, gather_copyAll rest, ← gather_cons_eq_append]

end

@[simp]
theorem gather_setGrouped (T : Tree) (grouped : Bool) :
    gather f [T.setGrouped grouped] = gather f [T] := by
  rw [gather_singleton, gather_singleton]
  rfl

@[simp]
theorem gather_inherit (T : Tree) (grouped : Bool) : gather f [T.inherit grouped] = gather f [T] := by
  cases grouped
  · rfl
  · exact gather_setGrouped T true

mutual

theorem le_size_copy (T : Tree) (size : Nat) : size ≤ (T.copy size).2 := by
  match T with
  | node id form span grouped children =>
    exact (le_size_copyAll children size).trans (Nat.le_succ _)

theorem le_size_copyAll (trees : List Tree) (size : Nat) : size ≤ (copyAll trees size).2 := by
  match trees with
  | [] => exact Nat.le_refl size
  | T :: rest => exact (le_size_copy T size).trans (le_size_copyAll rest _)

end

theorem le_size_leaves (twigs : List Twig) (size : Nat) : size ≤ (leaves twigs size).2 := by
  induction twigs generalizing size with
  | nil => exact Nat.le_refl size
  | cons twig twigs ih =>
    cases twig with
    | tree T => exact ih size
    | token t => exact (Nat.le_succ size).trans (ih (size + 1))

/-- Naming the fields of a struct changes nothing if fields have the same whatever their names. -/
theorem gather_nameFields (hf : ∀ name name' span, f (.expr (.structField name)) span =
    f (.expr (.structField name')) span) (log : Log) (seen : Placement.FieldsSeen) (index : Nat)
    (trees : List Tree) : gather f (nameFields log seen index trees).2 = gather f trees := by
  induction trees generalizing log seen index with
  | nil => rfl
  | cons T rest ih =>
    unfold nameFields
    split
    · next declared hform =>
      have hown : ∀ name, f (T.setForm (.expr (.structField name))).form T.span =
          f T.form T.span := fun name => by
        rw [form_setForm, hform]
        exact hf name declared T.span
      rw [gather_cons, gather_cons (T := T), ih, ← hown]
      rfl
    · rw [gather_cons, ih, ← gather_cons]
    · rw [gather_cons, ih, ← gather_cons]

end

end Tree

/-- What a step makes is as said, however many nodes there are before it, if not less than a certain
number. No step makes them less. -/
def Growing.Ensures {α : Type} (n : Nat) (step : Growing α) (post : α → Prop) : Prop :=
  ∀ size, n ≤ size → post (step size).1 ∧ n ≤ (step size).2

namespace Growing

variable {α β : Type} {n : Nat}

theorem Ensures.bind {step : Growing α} {next : α → Growing β} {mid : α → Prop} {post : β → Prop}
    (h : Ensures n step mid) (hnext : ∀ x, mid x → Ensures n (next x) post) :
    Ensures n (step >>= next) post :=
  fun size hn => hnext _ (h size hn).1 _ (h size hn).2

theorem Ensures.mono {step : Growing α} {post post' : α → Prop} (h : Ensures n step post)
    (himp : ∀ x, post x → post' x) : Ensures n step post' :=
  fun size hn => ⟨himp _ (h size hn).1, (h size hn).2⟩

theorem ensures_pure {x : α} {post : α → Prop} (h : post x) :
    Ensures n (pure x : Growing α) post := fun _ hn => ⟨h, hn⟩

end Growing

end MessageLang
