import MessageLang.Proofs.Tree.Layout
import MessageLang.Proofs.Typing.Naming
import Mathlib.Logic.Relation

namespace MessageLang

theorem NodeForm.expr?_eq_some_iff {sort : NodeForm} {form : ExprForm} :
    sort.expr? = some form ↔ sort = .expr form := by
  cases sort <;> simp [expr?]

namespace Tree

/-- An expression that is reached from the root through expressions only, with those around it,
the nearest first. -/
inductive Within (R : Tree) : List Tree → Tree → Prop
  | root : R.Within [] R
  | child {path : List Tree} {N C : Tree} (above : R.Within path N) (mem : C ∈ N.expressions) :
      R.Within (N :: path) C

/-- The name that a local definition gives. -/
def localName? (T : Tree) : Option String :=
  match T.form with
  | .expr (.localDef name _) => some name
  | _ => none

/-- The name of the variable that an expression reads or assigns to. -/
def usedName? (T : Tree) : Option String :=
  match T.form with
  | .expr (.reference name) | .expr (.assignment name) => some name
  | _ => none

/-- The locals that are known in all of a block, in order. -/
def locals (B : Tree) : List Tree :=
  if B.form = .expr .block then
    (B.expressions.filter (·.form = .expr .locals)).flatMap expressions
  else []

/-- The input type of a handler has a field of a name, which then is a variable in its body. -/
def InputNames (a : Arena) (name : String) (T : Tree) : Prop :=
  T.form = .expr .handler ∧ ∃ input, T.types.head? = some input ∧ a.Names name input.id

/-- The local that a name means below some expressions, the nearest first: the last one of that
name in the nearest block that has one, unless an input field of a nearer handler has the name. -/
inductive Binds (a : Arena) (name : String) : List Tree → Tree → Prop
  | here {B D : Tree} {path before after : List Tree} (split : B.locals = before ++ D :: after)
      (named : D.localName? = some name) (last : ∀ E ∈ after, E.localName? ≠ some name) :
      Binds a name (B :: path) D
  | outer {A D : Tree} {path : List Tree} (silent : ∀ E ∈ A.locals, E.localName? ≠ some name)
      (no_input : ¬ A.InputNames a name) (binds : Binds a name path D) : Binds a name (A :: path) D

/-- Some block among the expressions around a place has a certain local. -/
def Visible (path : List Tree) (D : Tree) : Prop := ∃ B ∈ path, D ∈ B.locals

/-- The value of one local uses another one. -/
def DependsOn (a : Arena) (R : Tree) (x y : NodeId) : Prop :=
  ∃ path X name A D, R.Within path X ∧ X.usedName? = some name ∧ Binds a name path D ∧ D.id = y ∧
    A ∈ path ∧ A.localName?.isSome = true ∧ A.id = x

/-- The expressions that are reached are of forms that the core language has. -/
def InCore (R : Tree) : Prop :=
  ∀ path X, R.Within path X → ∃ form, X.form = .expr form ∧ form.isSurfaceOnly = false

/-- Locals stand in groups that are items of blocks. -/
def LocalsInBlocks (R : Tree) : Prop :=
  ∀ path G, R.Within path G → G.form = .expr .locals →
    ∃ B rest, path = B :: rest ∧ B.form = .expr .block

/-- An expression that is no group of locals and in none. Those in groups are reached by what they
are called. -/
def Direct (path : List Tree) (N : Tree) : Prop :=
  N.form ≠ .expr .locals ∧ ∀ G ∈ path.head?, G.form ≠ .expr .locals

end Tree

/-- A tree in an arena that is in the core language and laid out as its forms ask for. -/
structure Arena.Lowered (a : Arena) (R : Tree) : Prop where
  held : ∃ parent, a.Holds parent R
  nodup : R.ids.Nodup
  laidOut : R.laidOut = true
  core : R.InCore

/-- Such a tree with locals in blocks only. -/
structure Arena.Ready (a : Arena) (R : Tree) : Prop extends a.Lowered R where
  locals_in_blocks : R.LocalsInBlocks

namespace Tree

section

variable {a : Arena} {R N X Y A B D E G C : Tree} {path path' inner rest : List Tree} {z : NodeId}
  {name : String}

theorem mem_locals_iff : D ∈ B.locals ↔ B.form = .expr .block ∧
    ∃ G ∈ B.expressions, G.form = .expr .locals ∧ D ∈ G.expressions := by
  unfold locals
  split
  · next hform => simp [hform, and_assoc]
  · next hform => simp [hform]

theorem mem_children_of_mem_expressions (h : C ∈ N.expressions) : C ∈ N.children :=
  (List.mem_filter.mp h).1

theorem ids_subset_of_mem_expressions (h : C ∈ N.expressions) : C.ids ⊆ N.ids :=
  ids_subset_of_mem_children (mem_children_of_mem_expressions h)

theorem nodup_of_mem_children (hnodup : N.ids.Nodup) (h : C ∈ N.children) : C.ids.Nodup := by
  rw [ids_eq, List.nodup_cons, List.nodup_flatMap] at hnodup
  exact hnodup.2.1 C h

/-- Different children have no node in common. -/
theorem eq_of_mem_ids (hnodup : N.ids.Nodup) (hX : X ∈ N.children) (hY : Y ∈ N.children)
    (hzX : z ∈ X.ids) (hzY : z ∈ Y.ids) : X = Y := by
  rw [ids_eq, List.nodup_cons, List.nodup_flatMap] at hnodup
  have hsymm : Std.Symm (Function.onFun List.Disjoint ids) := ⟨fun _ _ h => h.symm⟩
  by_contra hne
  exact hnodup.2.2.forall hX hY hne hzX hzY

/-- No child comes twice. -/
theorem ne_of_expressions_eq (hnodup : N.ids.Nodup) {done after : List Tree}
    (hsplit : N.expressions = done ++ C :: after) (hX : X ∈ done) : C ≠ X := by
  rw [ids_eq, List.nodup_cons, List.nodup_flatMap] at hnodup
  have hdistinct : N.children.Nodup := hnodup.2.2.imp fun {T U} hdisjoint heq => by
    subst heq
    exact hdisjoint T.id_mem_ids T.id_mem_ids
  have hfilter : N.expressions.Nodup := hdistinct.filter _
  rw [hsplit, List.nodup_append] at hfilter
  exact (hfilter.2.2 X hX C List.mem_cons_self).symm

/-- The parts of an expression have no nodes in common. -/
theorem pairwise_expressions (hnodup : N.ids.Nodup) :
    N.expressions.Pairwise fun X Y => List.Disjoint X.ids Y.ids := by
  rw [ids_eq, List.nodup_cons, List.nodup_flatMap] at hnodup
  exact hnodup.2.2.filter _

/-- Nor have the locals of a block. -/
theorem pairwise_locals (hnodup : B.ids.Nodup) :
    B.locals.Pairwise fun D E => List.Disjoint D.ids E.ids := by
  unfold locals
  split
  · rw [List.pairwise_flatMap]
    refine ⟨fun G hG => ?_, ((pairwise_expressions hnodup).filter _).imp ?_⟩
    · have hmem := mem_children_of_mem_expressions (List.mem_of_mem_filter hG)
      exact pairwise_expressions (nodup_of_mem_children hnodup hmem)
    · exact fun hdisjoint D hD E hE z hzD hzE => hdisjoint (ids_subset_of_mem_expressions hD hzD)
        (ids_subset_of_mem_expressions hE hzE)
  · exact .nil

theorem id_not_mem_of_mem_expressions (hnodup : N.ids.Nodup) (h : C ∈ N.expressions) :
    N.id ∉ C.ids := by
  rw [ids_eq, List.nodup_cons, List.mem_flatMap] at hnodup
  exact fun hmem => hnodup.1 ⟨C, mem_children_of_mem_expressions h, hmem⟩

namespace Within

/-- A place below the root is one below a child of the root. -/
theorem eq_or_below (h : R.Within path X) : path = [] ∧ X = R ∨
    ∃ C ∈ R.expressions, ∃ inner, C.Within inner X ∧ path = inner ++ [R] := by
  induction h with
  | root => exact .inl ⟨rfl, rfl⟩
  | child above mem ih =>
    refine .inr ?_
    rcases ih with ⟨rfl, rfl⟩ | ⟨C, hC, inner, hinner, rfl⟩
    · exact ⟨_, mem, [], .root, rfl⟩
    · exact ⟨C, hC, _, hinner.child mem, rfl⟩

theorem of_child (h : C.Within path X) (hC : C ∈ R.expressions) : R.Within (path ++ [R]) X := by
  induction h with
  | root => exact Within.root.child hC
  | child _ mem ih => exact ih.child mem

theorem root_mem (h : R.Within path X) : R ∈ X :: path := by
  induction h with
  | root => exact List.mem_cons_self
  | child _ _ ih => exact List.mem_cons_of_mem _ ih

theorem ids_subset (h : R.Within path X) : X.ids ⊆ R.ids := by
  induction h with
  | root => exact fun _ hid => hid
  | child _ mem ih => exact fun _ hid => ih (ids_subset_of_mem_expressions mem hid)

theorem nodup (h : R.Within path X) (hnodup : R.ids.Nodup) : X.ids.Nodup := by
  induction h with
  | root => exact hnodup
  | child _ mem ih => exact nodup_of_mem_children ih (mem_children_of_mem_expressions mem)

theorem laidOut (h : R.Within path X) (hlaid : R.laidOut = true) : X.laidOut = true := by
  induction h with
  | root => exact hlaid
  | child _ mem ih => exact laidOut_of_mem_children ih (mem_children_of_mem_expressions mem)

theorem held {parent : Option NodeId} (h : R.Within path X) (hheld : a.Holds parent R) :
    ∃ parent, a.Holds parent X := by
  induction h with
  | root => exact ⟨_, hheld⟩
  | child _ mem ih =>
    obtain ⟨_, hN⟩ := ih
    exact ⟨_, hN.child (mem_children_of_mem_expressions mem)⟩

/-- The expressions around a place are reached themselves. -/
theorem of_append (h : R.Within (inner ++ A :: path) X) : R.Within path A := by
  induction inner generalizing X with
  | nil =>
    cases h with
    | child above _ => exact above
  | cons B inner ih =>
    cases h with
    | child above _ => exact ih above

theorem exists_of_mem (h : R.Within path X) (hA : A ∈ path) :
    ∃ inner rest, path = inner ++ A :: rest ∧ R.Within rest A := by
  obtain ⟨inner, rest, rfl⟩ := List.append_of_mem hA
  exact ⟨inner, rest, rfl, h.of_append⟩

/-- On the way to a place below an expression there is a child of it. -/
theorem exists_child (h : R.Within path X) (hA : A ∈ path) : ∃ C ∈ A.expressions, C ∈ X :: path := by
  induction h with
  | root => cases hA
  | @child path N C _ mem ih =>
    rcases List.mem_cons.mp hA with rfl | hA
    · exact ⟨C, mem, List.mem_cons_self⟩
    · obtain ⟨D, hD, hmem⟩ := ih hA
      exact ⟨D, hD, List.mem_cons_of_mem _ hmem⟩

theorem ids_subset_of_mem (h : R.Within path X) (hA : A ∈ path) : X.ids ⊆ A.ids := by
  induction h with
  | root => cases hA
  | child _ mem ih =>
    intro id hid
    rcases List.mem_cons.mp hA with rfl | hA
    · exact ids_subset_of_mem_expressions mem hid
    · exact ih hA (ids_subset_of_mem_expressions mem hid)

theorem id_not_mem_of_mem (h : R.Within path X) (hnodup : R.ids.Nodup) (hA : A ∈ path) :
    A.id ∉ X.ids := by
  induction h with
  | root => cases hA
  | child above mem ih =>
    rcases List.mem_cons.mp hA with rfl | hA
    · exact id_not_mem_of_mem_expressions (above.nodup hnodup) mem
    · exact fun hid => ih hA (ids_subset_of_mem_expressions mem hid)

theorem not_mem_path (h : R.Within path X) (hnodup : R.ids.Nodup) : X ∉ path :=
  fun hmem => h.id_not_mem_of_mem hnodup hmem X.id_mem_ids

/-- Expressions that have a node in common lie one within the other. -/
theorem nested (hX : R.Within path X) (hY : R.Within path' Y) (hnodup : R.ids.Nodup)
    (hzX : z ∈ X.ids) (hzY : z ∈ Y.ids) : X ∈ Y :: path' ∨ Y ∈ X :: path := by
  induction R generalizing path path' with
  | node id form span grouped children ih =>
    rcases hX.eq_or_below with ⟨rfl, rfl⟩ | ⟨C, hC, inner, hin, rfl⟩
    · rcases hY.eq_or_below with ⟨rfl, rfl⟩ | ⟨C, _, inner, -, rfl⟩
      · exact .inl List.mem_cons_self
      · exact .inl (by simp)
    · rcases hY.eq_or_below with ⟨rfl, rfl⟩ | ⟨C', hC', inner', hin', rfl⟩
      · exact .inr (by simp)
      · have hmem := mem_children_of_mem_expressions hC
        have heq := eq_of_mem_ids hnodup hmem (mem_children_of_mem_expressions hC')
          (hin.ids_subset hzX) (hin'.ids_subset hzY)
        subst heq
        exact (ih C hmem hin hin' (nodup_of_mem_children hnodup hmem)).imp
          (List.mem_append_left [_]) (List.mem_append_left [_])

/-- The handle of an expression tells where it stands. -/
theorem unique (hX : R.Within path X) (hY : R.Within path' Y) (hnodup : R.ids.Nodup)
    (hid : X.id = Y.id) : path = path' ∧ X = Y := by
  induction R generalizing path path' with
  | node id form span grouped children ih =>
    rcases hX.eq_or_below with ⟨rfl, rfl⟩ | ⟨C, hC, inner, hin, rfl⟩
    · rcases hY.eq_or_below with ⟨rfl, rfl⟩ | ⟨C, hC, inner, hin, rfl⟩
      · exact ⟨rfl, rfl⟩
      · refine absurd ?_ (id_not_mem_of_mem_expressions hnodup hC)
        rw [hid]
        exact hin.ids_subset Y.id_mem_ids
    · rcases hY.eq_or_below with ⟨rfl, rfl⟩ | ⟨C', hC', inner', hin', rfl⟩
      · refine absurd ?_ (id_not_mem_of_mem_expressions hnodup hC)
        rw [← hid]
        exact hin.ids_subset X.id_mem_ids
      · have hmem := mem_children_of_mem_expressions hC
        have heq := eq_of_mem_ids hnodup hmem (mem_children_of_mem_expressions hC')
          (hin.ids_subset X.id_mem_ids) (hin'.ids_subset (hid ▸ Y.id_mem_ids))
        subst heq
        obtain ⟨rfl, rfl⟩ := ih C hmem hin hin' (nodup_of_mem_children hnodup hmem)
        exact ⟨rfl, rfl⟩

/-- What is in a part of an expression or is that part has the expression around it. -/
theorem mem_of_mem_child (hX : R.Within path X) (hN : R.Within path' N) (hnodup : R.ids.Nodup)
    (hC : C ∈ N.expressions) (hmem : C ∈ X :: path) : N ∈ path := by
  rcases List.mem_cons.mp hmem with rfl | hmem
  · rw [(hX.unique (hN.child hC) hnodup rfl).1]
    exact List.mem_cons_self
  · obtain ⟨inner, rest, rfl, hwithin⟩ := hX.exists_of_mem hmem
    rw [(hwithin.unique (hN.child hC) hnodup rfl).1]
    exact List.mem_append_right _ (List.mem_cons_of_mem _ List.mem_cons_self)

theorem mem_path_of_mem_ids (hX : R.Within path X) (hN : R.Within path' N) (hnodup : R.ids.Nodup)
    (hC : C ∈ N.expressions) (hid : X.id ∈ C.ids) : N ∈ path := by
  refine hX.mem_of_mem_child hN hnodup hC ?_
  rcases hX.nested (hN.child hC) hnodup X.id_mem_ids hid with hmem | hmem
  · rcases List.mem_cons.mp hmem with rfl | hmem
    · exact List.mem_cons_self
    · exact absurd hid ((hN.child hC).id_not_mem_of_mem hnodup hmem)
  · exact hmem

end Within

mutual

/-- Whether something holds of all expressions that are reached from one through expressions. -/
def everywhere (holds : Tree → Bool) : Tree → Bool
  | node id form span grouped children =>
    holds (node id form span grouped children) && everywhereAll holds children

def everywhereAll (holds : Tree → Bool) : List Tree → Bool
  | [] => true
  | T :: rest => (!T.isExpr || T.everywhere holds) && everywhereAll holds rest

end

theorem everywhere_eq (holds : Tree → Bool) (T : Tree) :
    T.everywhere holds = (holds T && T.expressions.all (everywhere holds)) := by
  have hall : ∀ trees : List Tree,
      everywhereAll holds trees = (trees.filter isExpr).all (everywhere holds) := by
    intro trees
    induction trees with
    | nil => rfl
    | cons T rest ih => cases hexpr : T.isExpr <;> simp [everywhereAll, hexpr, ih]
  obtain ⟨id, form, span, grouped, children⟩ := T
  rw [everywhere, hall]
  rfl

theorem everywhere_iff {holds : Tree → Bool} :
    R.everywhere holds = true ↔ ∀ path X, R.Within path X → holds X = true := by
  induction R with
  | node id form span grouped children ih =>
    rw [everywhere_eq, Bool.and_eq_true, List.all_eq_true]
    constructor
    · rintro ⟨hroot, hparts⟩ path X hX
      rcases hX.eq_or_below with ⟨rfl, rfl⟩ | ⟨C, hC, inner, hinner, rfl⟩
      · exact hroot
      · exact (ih C (mem_children_of_mem_expressions hC)).mp (hparts C hC) inner X hinner
    · refine fun hall => ⟨hall [] _ .root, fun C hC => ?_⟩
      rw [ih C (mem_children_of_mem_expressions hC)]
      exact fun path X hX => hall _ X (hX.of_child hC)

theorem inCore_iff : R.InCore ↔ R.everywhere (·.form.expr?.any (!·.isSurfaceOnly)) = true := by
  rw [everywhere_iff]
  refine forall₃_congr fun path X _ => ?_
  cases X.form <;> simp [NodeForm.expr?]

theorem localsInBlocks_iff : R.LocalsInBlocks ↔ R.form ≠ .expr .locals ∧ R.everywhere (fun B =>
    B.form = .expr .block || B.expressions.all (·.form ≠ .expr .locals)) = true := by
  rw [everywhere_iff]
  constructor
  · refine fun h => ⟨fun hgroup => ?_, fun path B hB => ?_⟩
    · obtain ⟨_, _, heq, _⟩ := h [] R .root hgroup
      cases heq
    · by_cases hblock : B.form = .expr .block
      · simp [hblock]
      · simp only [hblock, decide_false, Bool.false_or, List.all_eq_true, decide_eq_true_eq]
        intro G hG hgroup
        obtain ⟨_, _, heq, hform⟩ := h _ G (hB.child hG) hgroup
        cases heq
        exact hblock hform
  · rintro ⟨hroot, hall⟩ path G hG hgroup
    cases hG with
    | root => exact absurd hgroup hroot
    | @child rest B _ above mem =>
      have hB := hall rest B above
      simp only [Bool.or_eq_true, decide_eq_true_eq, List.all_eq_true] at hB
      exact ⟨B, rest, rfl, hB.resolve_right fun h => h G mem hgroup⟩

instance : Decidable R.InCore := decidable_of_iff _ inCore_iff.symm

instance : Decidable R.LocalsInBlocks := decidable_of_iff _ localsInBlocks_iff.symm

theorem Binds.visible (h : Binds a name path D) : Visible path D := by
  induction h with
  | here split _ _ => exact ⟨_, List.mem_cons_self, by simp [split]⟩
  | outer _ _ _ ih =>
    obtain ⟨B, hB, hD⟩ := ih
    exact ⟨B, List.mem_cons_of_mem _ hB, hD⟩

theorem Binds.localName?_eq (h : Binds a name path D) : D.localName? = some name := by
  induction h with
  | here _ named _ => exact named
  | outer _ _ _ ih => exact ih

/-- A name means at most one local. -/
theorem Binds.unique (h : Binds a name path D) (h' : Binds a name path E) : D = E := by
  induction h with
  | @here B D path before after split named last =>
    cases h' with
    | @here _ _ _ before' after' split' named' last' =>
      rw [split] at split'
      rcases List.append_eq_append_iff.mp split' with ⟨extra, -, heq⟩ | ⟨extra, -, heq⟩
      · cases extra with
        | nil => exact (List.cons.inj heq).1
        | cons F extra =>
          rw [List.cons_append, List.cons.injEq] at heq
          exact absurd named' (last E (by simp [heq.2]))
      · cases extra with
        | nil => exact (List.cons.inj heq).1.symm
        | cons F extra =>
          rw [List.cons_append, List.cons.injEq] at heq
          exact absurd named (last' D (by simp [heq.2]))
    | outer silent _ _ => exact absurd named (silent D (by simp [split]))
  | outer silent _ _ ih =>
    cases h' with
    | here split named _ => exact absurd named (silent E (by simp [split]))
    | outer _ _ binds => exact ih binds

theorem Visible.cons (h : Visible path D) (A : Tree) : Visible (A :: path) D := by
  obtain ⟨B, hB, hD⟩ := h
  exact ⟨B, List.mem_cons_of_mem _ hB, hD⟩

/-- Where a visible local stands: in a group of a block around. -/
theorem Visible.exists_within (h : Visible path D) (hX : R.Within path X) :
    ∃ inner B rest G, path = inner ++ B :: rest ∧ B.form = .expr .block ∧ G.form = .expr .locals ∧
      D ∈ B.locals ∧ R.Within (G :: B :: rest) D := by
  obtain ⟨B, hB, hD⟩ := h
  obtain ⟨hform, G, hG, hgroup, hmem⟩ := mem_locals_iff.mp hD
  obtain ⟨inner, rest, rfl, hwithin⟩ := hX.exists_of_mem hB
  exact ⟨inner, B, rest, G, rfl, hform, hgroup, hD, (hwithin.child hG).child hmem⟩

/-- In a group there are definitions of locals and nothing else. -/
theorem exists_form_eq_of_mem_group (hlaid : G.laidOut = true) (hgroup : G.form = .expr .locals)
    (hD : D ∈ G.expressions) : ∃ name mutable, D.form = .expr (.localDef name mutable) := by
  have hadmits := laidOut_expr hlaid hgroup
  rw [ExprForm.admits, Bool.and_eq_true, List.all_eq_true] at hadmits
  cases hform : D.form.expr? with
  | none =>
    have hexpr := (List.mem_filter.mp hD).2
    rw [isExpr, hform] at hexpr
    cases hexpr
  | some form =>
    have hlocal := hadmits.1 form (List.mem_filterMap.mpr ⟨D, hD, hform⟩)
    cases form with
    | localDef name mutable => exact ⟨name, mutable, NodeForm.expr?_eq_some_iff.mp hform⟩
    | _ => cases hlocal

theorem exists_form_eq_of_localName? (h : D.localName?.isSome = true) :
    ∃ name mutable, D.form = .expr (.localDef name mutable) := by
  rw [localName?] at h
  split at h
  · next name mutable hform => exact ⟨name, mutable, hform⟩
  · cases h

/-- The definition of a local has one value. -/
theorem exists_expressions_eq_of_local {mutable : Bool} (hlaid : D.laidOut = true)
    (hform : D.form = .expr (.localDef name mutable)) : ∃ V, D.expressions = [V] := by
  have hadmits := laidOut_expr hlaid hform
  rw [ExprForm.admits, length_exprForms, Bool.and_eq_true, beq_iff_eq] at hadmits
  exact List.length_eq_one_iff.mp hadmits.1

theorem Visible.exists_form_eq (h : Visible path D) (hX : R.Within path X) (hlaid : R.laidOut = true) :
    ∃ name mutable, D.form = .expr (.localDef name mutable) := by
  obtain ⟨_, B, _, G, rfl, _, hgroup, _, hD⟩ := h.exists_within hX
  cases hD with
  | child above mem => exact exists_form_eq_of_mem_group (above.laidOut hlaid) hgroup mem

/-- Below an expression that is no block there are no groups. -/
theorem direct_of_mem_expressions (hplaced : R.LocalsInBlocks) (hN : R.Within path N)
    (hform : N.form ≠ .expr .locals) (hblock : N.form ≠ .expr .block) (hC : C ∈ N.expressions) :
    Direct (N :: path) C := by
  refine ⟨fun hgroup => ?_, fun G hG => ?_⟩
  · obtain ⟨B, rest, heq, hB⟩ := hplaced _ C (hN.child hC) hgroup
    cases heq
    exact hblock hB
  · cases hG
    exact hform

/-- Where the value of a visible local stands. -/
theorem Visible.exists_direct (h : Visible path D) (hX : R.Within path X) (hR : a.Ready R)
    (hV : C ∈ D.expressions) : ∃ rest, R.Within (D :: rest) C ∧ Direct (D :: rest) C := by
  obtain ⟨name, mutable, hform⟩ := h.exists_form_eq hX hR.laidOut
  obtain ⟨_, B, rest, G, rfl, _, hgroup, _, hD⟩ := h.exists_within hX
  exact ⟨_, hD.child hV, direct_of_mem_expressions hR.locals_in_blocks hD (by simp [hform])
    (by simp [hform]) hV⟩

/-- A visible local that is not around a place has nothing in common with what stands there. -/
theorem Visible.disjoint_of_direct (h : Visible path D) (hX : R.Within path X)
    (hnodup : R.ids.Nodup) (hdirect : Direct path X) (hoff : D ∉ path) (hz : z ∈ D.ids) :
    z ∉ X.ids := by
  intro hzX
  obtain ⟨inner, B, rest, G, rfl, _, hgroup, _, hD⟩ := h.exists_within hX
  rcases hX.nested hD hnodup hzX hz with hmem | hmem
  · rcases List.mem_cons.mp hmem with rfl | hmem
    · exact hdirect.2 G (by rw [(hX.unique hD hnodup rfl).1]; exact rfl) hgroup
    · rcases List.mem_cons.mp hmem with rfl | hmem
      · exact hdirect.1 hgroup
      · exact hX.not_mem_path hnodup (List.mem_append_right _ hmem)
  · rcases List.mem_cons.mp hmem with rfl | hmem
    · exact hdirect.2 G (by rw [(hX.unique hD hnodup rfl).1]; exact rfl) hgroup
    · exact hoff hmem

/-- A local around which a visible one lies is around the place itself. -/
private theorem Visible.mem_of_mem (h : Visible path D) (h' : Visible path E) (hX : R.Within path X)
    (hR : a.Ready R) (hD : R.Within path' D) (hmem : E ∈ path') : E ∈ path := by
  obtain ⟨inner, B, rest, G, rfl, -, hgroup, -, hwithin⟩ := h.exists_within hX
  rw [(hD.unique hwithin hR.nodup rfl).1] at hmem
  rcases List.mem_cons.mp hmem with rfl | hmem
  · obtain ⟨name, mutable, hform⟩ := h'.exists_form_eq hX hR.laidOut
    cases hgroup.symm.trans hform
  · exact List.mem_append_right _ hmem

/-- Nor has it anything in common with another one. -/
theorem Visible.disjoint (h : Visible path D) (h' : Visible path E) (hX : R.Within path X)
    (hR : a.Ready R) (hoff : D ∉ path) (hoff' : E ∉ path) (hne : D ≠ E) (hz : z ∈ D.ids) :
    z ∉ E.ids := by
  intro hzE
  obtain ⟨_, _, _, _, _, _, _, _, hD⟩ := h.exists_within hX
  obtain ⟨_, _, _, _, _, _, _, _, hE⟩ := h'.exists_within hX
  rcases hD.nested hE hR.nodup hz hzE with hmem | hmem
  · rcases List.mem_cons.mp hmem with rfl | hmem
    · exact hne rfl
    · exact hoff (h'.mem_of_mem h hX hR hE hmem)
  · rcases List.mem_cons.mp hmem with rfl | hmem
    · exact hne rfl
    · exact hoff' (h.mem_of_mem h' hX hR hD hmem)

/-- Nor does what is around the place stand in it. -/
theorem Visible.id_not_mem (h : Visible path D) (hX : R.Within path X) (hnodup : R.ids.Nodup)
    (hoff : D ∉ path) (hA : A ∈ path) : A.id ∉ D.ids := by
  intro hid
  obtain ⟨inner, rest, rfl, hwithin⟩ := hX.exists_of_mem hA
  obtain ⟨_, _, _, _, _, _, _, _, hD⟩ := h.exists_within hX
  rcases hwithin.nested hD hnodup A.id_mem_ids hid with hmem | hmem
  · rcases List.mem_cons.mp hmem with rfl | hmem
    · exact hoff hA
    · exact hD.id_not_mem_of_mem hnodup hmem hid
  · exact hoff (List.mem_append_right _ hmem)

/-- What an expression says something about: the local that its name means, or itself if it is the
definition of a local. -/
def Denotes (a : Arena) (path : List Tree) (X E : Tree) : Prop :=
  (∃ name, X.usedName? = some name ∧ Binds a name path E) ∨
    X = E ∧ ∃ G B rest, path = G :: B :: rest ∧ G.form = .expr .locals ∧ X ∈ B.locals

/-- A local stands in no expression that one that denotes it does not stand in. -/
theorem Denotes.mem_ids (h : Denotes a path X E) (hX : R.Within path X) (hW : R.Within path' Y)
    (hnodup : R.ids.Nodup) (hdirect : Direct path' Y) (hid : E.id ∈ Y.ids) : X.id ∈ Y.ids := by
  rcases h with ⟨name, -, hbinds⟩ | ⟨rfl, -⟩
  · obtain ⟨inner, B, rest, G, rfl, -, hgroup, -, hE⟩ := hbinds.visible.exists_within hX
    rcases hW.nested hE hnodup hid E.id_mem_ids with hmem | hmem
    · rcases List.mem_cons.mp hmem with rfl | hmem
      · exact absurd hgroup (hdirect.2 G (by rw [(hW.unique hE hnodup rfl).1]; exact rfl))
      · rcases List.mem_cons.mp hmem with rfl | hmem
        · exact absurd hgroup hdirect.1
        · exact hX.ids_subset_of_mem (List.mem_append_right _ hmem) X.id_mem_ids
    · rcases List.mem_cons.mp hmem with rfl | hmem
      · exact absurd hgroup (hdirect.2 G (by rw [(hW.unique hE hnodup rfl).1]; exact rfl))
      · exact absurd hid (hW.id_not_mem_of_mem hnodup hmem)
  · exact hid

end

end Tree

namespace Arena.Lowered

variable {a : Arena} {R X : Tree} {path : List Tree}

/-- The expressions in such a tree are where their handles say. -/
theorem holds (hR : a.Lowered R) (hX : R.Within path X) : ∃ parent, a.Holds parent X := by
  obtain ⟨_, hheld⟩ := hR.held
  exact hX.held hheld

theorem expressions_eq (hR : a.Lowered R) (hX : R.Within path X) :
    a.expressions X.id = X.expressions.map Tree.id := by
  obtain ⟨_, hheld⟩ := hR.holds hX
  exact hheld.expressions_eq

theorem types_eq (hR : a.Lowered R) (hX : R.Within path X) :
    a.types X.id = X.types.map Tree.id := by
  obtain ⟨_, hheld⟩ := hR.holds hX
  exact hheld.types_eq

theorem expr?_eq_some_iff (hR : a.Lowered R) (hX : R.Within path X) {form : ExprForm} :
    a.expr? X.id = some form ↔ X.form = .expr form := by
  obtain ⟨_, hheld⟩ := hR.holds hX
  rw [hheld.expr?_eq, NodeForm.expr?_eq_some_iff]

end Arena.Lowered

end MessageLang
