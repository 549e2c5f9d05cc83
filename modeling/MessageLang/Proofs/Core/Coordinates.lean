import MessageLang.Proofs.Core.Hygiene
import MessageLang.Proofs.Core.Legality
import MessageLang.Proofs.Core.Offsets

namespace MessageLang

open MessageLang.Tree

/-- The span of a node that is none of the core language. -/
def NodeForm.surface (form : NodeForm) (span : Span) : List Span :=
  if form.expr?.any ExprForm.isSurfaceOnly then [span] else []

namespace Tree

variable {T : Tree} {s s' : Lowering} {n size : Nat} {made : Tree × Nat} {span : Span}

/-- Where the surface nodes of some trees are. -/
abbrev surfaces (trees : List Tree) : List Span := gather NodeForm.surface trees

/-- Surface nodes below a tree are in its types and expressions. -/
theorem exists_part_of_mem_surfaces (hlaid : T.laidOut = true) (h : span ∈ surfaces T.children) :
    ∃ part, (part ∈ T.types ∨ part ∈ T.expressions) ∧ span ∈ surfaces [part] := by
  obtain ⟨X, hX, hspan⟩ := List.mem_flatMap.mp h
  obtain ⟨part, hpart, hmem⟩ := mem_nodesAll_iff.mp hX
  have hsurfaces : span ∈ surfaces [part] := by
    refine List.mem_flatMap.mpr ⟨X, ?_, hspan⟩
    simpa [nodesAll] using hmem
  refine ⟨part, ?_, hsurfaces⟩
  cases hsort : part.form with
  | token t =>
    have hnil := children_eq_nil_of_token (laidOut_of_mem_children hlaid hpart) (by rw [hsort]; rfl)
    rw [surfaces, gather_singleton, hnil, hsort] at hsurfaces
    cases hsurfaces
  | type => exact .inl (List.mem_filter.mpr ⟨hpart, by rw [isType, hsort]; rfl⟩)
  | expr => exact .inr (List.mem_filter.mpr ⟨hpart, by rw [isExpr, hsort]; rfl⟩)

/-- A function has no types but those of its input and its output. -/
theorem inputType?_or_outputType? {input output : Bool} {part : Tree}
    (hlength : T.types.length = input.toNat + output.toNat) (hpart : part ∈ T.types) :
    T.inputType? input = some part ∨ T.outputType? input output = some part := by
  unfold inputType? outputType?
  generalize T.types = types at hlength hpart
  rcases types with _ | ⟨first, _ | ⟨second, _ | _⟩⟩ <;> cases input <;> cases output <;>
    simp_all [eq_comm (a := part)]

/-- The surface nodes below a tree are still there when the tree is rewritten. -/
theorem Rewrites.surfaces_subset (h : T.Rewrites s size made s') (hlaid : T.laidOut = true) :
    surfaces T.children ⊆ surfaces [made.1] := by
  intro span hspan
  cases h with
  | logic =>
    rw [Tree.logic, surfaces, gather_allocAt, Twig.gather_map_tree]
    exact List.mem_append_right _ hspan
  | block hform items =>
    have hadmits := laidOut_expr hlaid hform
    simp only [ExprForm.admits, beq_iff_eq, List.length_eq_zero_iff] at hadmits
    obtain ⟨part, hpart, hmem⟩ := exists_part_of_mem_surfaces hlaid hspan
    simp only [hadmits, items, List.not_mem_nil, List.mem_singleton, false_or] at hpart
    rwa [surfaces, gather_setGrouped, ← hpart]
  | unary hform operands =>
    have hadmits := laidOut_expr hlaid hform
    simp only [ExprForm.admits, length_exprForms, operands, Bool.and_eq_true, beq_iff_eq,
      List.length_cons, Nat.add_eq_right, List.length_eq_zero_iff] at hadmits
    obtain ⟨part, hpart, hmem⟩ := exists_part_of_mem_surfaces hlaid hspan
    simp only [hadmits, operands, List.not_mem_nil, List.mem_singleton, false_or] at hpart
    subst hpart
    simp [Tree.unary, Growing.bind_apply, hmem]
  | binary hform _ operands =>
    rw [twoOperands?_eq_some_iff] at operands
    have hadmits := laidOut_expr hlaid hform
    simp only [ExprForm.admits, Bool.and_eq_true, beq_iff_eq, List.length_eq_zero_iff] at hadmits
    obtain ⟨part, hpart, hmem⟩ := exists_part_of_mem_surfaces hlaid hspan
    simp only [hadmits, operands, List.not_mem_nil, false_or] at hpart
    rcases List.mem_pair.mp hpart with rfl | rfl <;>
      simp [Tree.binary, Growing.bind_apply, gather_alloc, hmem, NodeForm.surface, NodeForm.expr?,
        ExprForm.isSurfaceOnly]
  | whileLoop hform operands =>
    rw [twoOperands?_eq_some_iff] at operands
    have hadmits := laidOut_expr hlaid hform
    simp only [ExprForm.admits, Bool.and_eq_true, beq_iff_eq, List.length_eq_zero_iff] at hadmits
    obtain ⟨part, hpart, hmem⟩ := exists_part_of_mem_surfaces hlaid hspan
    simp only [hadmits, operands, List.not_mem_nil, false_or] at hpart
    rcases List.mem_pair.mp hpart with rfl | rfl <;>
      simp [Tree.whileLoop, Growing.bind_apply, gather_alloc, hmem, NodeForm.surface, NodeForm.expr?,
        ExprForm.isSurfaceOnly]
  | @function input output body others hform operands =>
    have hadmits := laidOut_expr hlaid hform
    simp only [ExprForm.admits, length_exprForms, operands, Bool.and_eq_true, beq_iff_eq,
      List.length_cons, Nat.add_eq_right, List.length_eq_zero_iff] at hadmits
    obtain ⟨rfl, htypes⟩ := hadmits
    obtain ⟨part, hpart, hmem⟩ := exists_part_of_mem_surfaces hlaid hspan
    rw [operands, List.mem_singleton] at hpart
    simp only [Tree.function, Growing.bind_apply, surfaces, gather_allocAt, Twig.gather_append,
      Twig.gather_token, Twig.gather_tree, Twig.gather_map_tree, List.mem_append]
    rcases hpart with hpart | rfl
    · rcases inputType?_or_outputType? htypes hpart with hinput | houtput
      · simp [hinput, orEmpty, Growing.pure_apply, hmem]
      · simp [houtput, hmem]
    · simp [hmem]

/-- The surface nodes below a tree that stays are still there. -/
theorem Settles.surfaces_subset {above : List NodeForm} (h : T.Settles above s size made s') :
    surfaces T.children ⊆ surfaces made.1.children := by
  cases h with
  | conditional =>
    have hchildren : (T.completeConditional size).1.children = T.children ++
      (leaves [.token (.keyword .elseWord T.span.stop),
        .tree (leaf (.expr (.constant .nothing)) (.point T.span.stop) size).1] (size + 1)).1 := rfl
    rw [hchildren, surfaces, surfaces, gather_append]
    exact List.subset_append_left _ _
  | struct =>
    rw [children_withChildren, surfaces, surfaces, gather_nameFields fun _ _ _ => rfl]
    exact List.Subset.refl _
  | placed | kept => exact List.Subset.refl _

end Tree

/-- For every surface node that lowering meets, a new node with its span is in what it makes. -/
theorem Lowers.exists_new {above : List NodeForm} {trees trees' : List Tree} {w w' : Lowering × Nat}
    {n : Nat} (h : Lowers above trees w trees' w') (hlaid : ∀ T ∈ trees, T.laidOut = true)
    (hn : n ≤ w.2) {span : Span} (hspan : span ∈ surfaces trees) :
    ∃ X ∈ nodesAll trees', n ≤ X.id.index ∧ X.span = span := by
  induction h with
  | nil => cases hspan
  | @settles above T T' trees trees' children s s₁ size size₁ w₂ w₃ step below _ ihbelow ihafter =>
    obtain ⟨hT, hrest⟩ := List.forall_mem_cons.mp hlaid
    have hn₁ := hn.trans step.liesOn.2
    rw [surfaces, gather_cons, List.mem_append, List.mem_append] at hspan
    simp only [nodesAll_cons, children_withChildren, List.mem_cons, List.mem_append]
    rcases hspan with hspan | hspan | hspan
    · -- the tree itself is of the core language
      exfalso
      unfold NodeForm.surface at hspan
      cases hform : T.form with
      | expr form => simp [hform, NodeForm.expr?, step.isSurfaceOnly_eq hT hform] at hspan
      | _ => simp [hform, NodeForm.expr?] at hspan
    · obtain ⟨X, hX, hfound⟩ := ihbelow
        (fun child hchild => laidOut_of_mem_children (step.laidOut hT) hchild) hn₁
        (step.surfaces_subset hspan)
      exact ⟨X, .inr (.inl hX), hfound⟩
    · obtain ⟨X, hX, hfound⟩ := ihafter hrest (hn₁.trans below.offsets_subset.2) hspan
      exact ⟨X, .inr (.inr hX), hfound⟩
  | @rewrites above T T' trees trees' s s₁ size size₁ w₂ step again ih =>
    obtain ⟨hT, hrest⟩ := List.forall_mem_cons.mp hlaid
    obtain ⟨-, hle, hnew⟩ := step.newOn
    have hlaid' : ∀ U ∈ T'.inherit T.grouped :: trees, U.laidOut = true :=
      List.forall_mem_cons.mpr ⟨(laidOut_inherit ..).trans (step.laidOut hT), hrest⟩
    rw [surfaces, gather_cons_eq_append, gather_singleton, List.append_assoc, List.mem_append,
      List.mem_append] at hspan
    rcases hspan with hspan | hspan | hspan
    · -- what the tree is rewritten to stays, with the span of the tree
      have hnot : T.form ≠ .expr .block := fun hform => by
        rw [hform] at hspan
        cases hspan
      obtain rfl : span = T.span := by
        unfold NodeForm.surface at hspan
        split at hspan
        · exact List.mem_singleton.mp hspan
        · cases hspan
      obtain ⟨R, rest, w₁, rfl, hhead, -⟩ := again.cons_inv
      obtain ⟨hspan', hnot'⟩ := step.span_eq hnot
      obtain ⟨hR, hnewR⟩ := hhead.span_eq (n := n) (by rwa [form_inherit])
      refine ⟨R, mem_nodesAll List.mem_cons_self, hnewR ?_ (hn.trans hle), ?_⟩
      · rw [id_inherit]
        exact hn.trans (hnew hnot)
      · rw [hR, span_inherit, hspan']
    · refine ih hlaid' (hn.trans hle) ?_
      rw [surfaces, gather_cons_eq_append, gather_inherit]
      exact List.mem_append_left _ (step.surfaces_subset hT hspan)
    · refine ih hlaid' (hn.trans hle) ?_
      rw [surfaces, gather_cons_eq_append]
      exact List.mem_append_right _ hspan

section

variable {a : Arena} {parent : Option NodeId} {path : List (NodeId × NodeForm)}
  {before after : List NodeId} {T : Tree}

/-- Lowering invents no offsets: every node and token of the tree that it leaves starts and stops where
some node or token of the tree did. Wherever it comes to a surface node, a node with the same span
stands in place of that in the end; in a tree with the right layout it comes to all of them, and the
nodes in their place are new. -/
theorem lower_keeps_offsets (hheld : a.Holds parent T) (hunder : a.Under parent path T)
    (hsite : a.Site parent before after T) (stem : String) (log : Log) :
    (∃ R log' a', lower stem T.id log a = .ok ((R.id, log'), a') ∧
      a.Replaced parent before after T R a' ∧ offsets [R] ⊆ offsets [T] ∧
      (T.laidOut = true → ∀ X ∈ T.nodes, X.form.expr?.any ExprForm.isSurfaceOnly = true →
        ∃ X' ∈ R.nodes, a.size ≤ X'.id.index ∧ X'.span = X.span)) ∧
    ∀ (budget : Nat) (s : Lowering), T.effort ≤ budget →
      T.form.expr?.any ExprForm.isSurfaceOnly = true →
        Ends (Edit.replaceAllWithin Lowering.step budget T.id s) a fun p a' =>
          ∃ R, p.1 = R.id ∧ a.Replaced parent before after T R a' ∧ R.span = T.span := by
  constructor
  · obtain ⟨R, s', a', hrun, hlowers, hreplaced⟩ := lower_lowers hheld hunder hsite stem log
    refine ⟨R, s'.log, a', hrun, hreplaced, hlowers.offsets_subset.1, fun hlaid X hX hsurface => ?_⟩
    have hspan : X.span ∈ surfaces [T] := by
      refine List.mem_flatMap.mpr ⟨X, by simpa [nodesAll] using hX, ?_⟩
      rw [NodeForm.surface, if_pos hsurface]
      exact List.mem_singleton_self _
    obtain ⟨X', hX', hnew⟩ := hlowers.exists_new (List.forall_mem_singleton.mpr hlaid) le_rfl hspan
    exact ⟨X', by simpa [nodesAll] using hX', hnew⟩
  · intro budget s hbudget hsurface
    have hnot : T.form ≠ .expr .block := fun hform => by
      simp [hform, NodeForm.expr?, ExprForm.isSurfaceOnly] at hsurface
    refine (lowersWithin_of_effort_le hbudget hheld hunder hsite).mono ?_
    rintro ⟨_, s'⟩ a' ⟨R, rfl, hlowers, hreplaced⟩
    exact ⟨R, rfl, hreplaced, (hlowers.span_eq (n := 0) hnot).1⟩

end

/-- The body of a loop that is written as `while c do -b`. -/
def writtenBody : Tree :=
  .node ⟨3⟩ (.expr (.unary "-")) ⟨11, 13, by decide⟩ false
    [.node ⟨1⟩ (.token ⟨.operator, "-", ⟨11, 12, by decide⟩⟩) ⟨11, 12, by decide⟩ false [],
      .node ⟨2⟩ (.expr (.reference "b")) ⟨12, 13, by decide⟩ false []]

/-- The loop, without leaves for its words. -/
def writtenTree : Tree :=
  .node ⟨4⟩ (.expr .whileLoop) ⟨0, 13, by decide⟩ false
    [.node ⟨0⟩ (.expr (.reference "c")) ⟨6, 7, by decide⟩ false [], writtenBody]

def writtenArena : Arena where
  nodes := #[
    { form := .expr (.reference "c"), span := ⟨6, 7, by decide⟩, parent := some ⟨4⟩ },
    { form := .token ⟨.operator, "-", ⟨11, 12, by decide⟩⟩, span := ⟨11, 12, by decide⟩,
      parent := some ⟨3⟩ },
    { form := .expr (.reference "b"), span := ⟨12, 13, by decide⟩, parent := some ⟨3⟩ },
    { form := .expr (.unary "-"), span := ⟨11, 13, by decide⟩, children := [⟨1⟩, ⟨2⟩],
      parent := some ⟨4⟩ },
    { form := .expr .whileLoop, span := ⟨0, 13, by decide⟩, children := [⟨0⟩, ⟨3⟩] }]

theorem holds_writtenTree : writtenArena.Holds none writtenTree := by
  refine .node (by decide) rfl fun child hchild => ?_
  rcases List.mem_pair.mp hchild with rfl | rfl
  · exact .node (by decide) rfl fun _ h => (nomatch h)
  · refine .node (by decide) rfl fun child hchild => ?_
    rcases List.mem_pair.mp hchild with rfl | rfl <;>
      exact .node (by decide) rfl fun _ h => (nomatch h)

theorem lower_keeps_offsets_writtenTree :
    (writtenArena.Holds none writtenTree ∧ writtenArena.Under none [] writtenTree ∧
        writtenArena.Site none [] [] writtenTree ∧ writtenTree.laidOut = true) ∧
      ∃ R log' a', lower "_" writtenTree.id .empty writtenArena = .ok ((R.id, log'), a') ∧
        a'.Holds none R ∧ offsets [R] ⊆ [0, 6, 7, 11, 12, 13] ∧
        (∃ X ∈ R.nodes, 5 ≤ X.id.index ∧ X.span = ⟨0, 13, by decide⟩) ∧
        ∃ X ∈ R.nodes, 5 ≤ X.id.index ∧ X.span = ⟨11, 13, by decide⟩ := by
  have hunder : writtenArena.Under none [] writtenTree := ⟨.root, by decide⟩
  have hsite : writtenArena.Site none [] [] writtenTree := ⟨nofun, nofun, nofun⟩
  obtain ⟨⟨R, log', a', hrun, hreplaced, hoffsets, hnew⟩, -⟩ :=
    lower_keeps_offsets holds_writtenTree hunder hsite "_" .empty
  refine ⟨⟨holds_writtenTree, hunder, hsite, by decide⟩, R, log', a', hrun, hreplaced.holds,
    fun offset hoffset => ?_, ?_, ?_⟩
  · have hmem : ∀ offset ∈ offsets [writtenTree], offset ∈ [0, 6, 7, 11, 12, 13] := by decide
    exact hmem offset (hoffsets hoffset)
  · exact hnew (by decide) writtenTree (mem_nodes_self _) rfl
  · exact hnew (by decide) writtenBody (.tail _ (mem_nodesAll (.tail _ (.head _)))) rfl

end MessageLang
