import MessageLang.Proofs.Core.Hygiene
import MessageLang.Proofs.Core.Offsets
import MessageLang.Proofs.Core.Reported

namespace MessageLang

namespace Span

variable {s t u : Span}

theorem Within.refl (s : Span) : s.Within s := ⟨Nat.le_refl _, Nat.le_refl _⟩

theorem Within.trans (h : s.Within t) (h' : t.Within u) : s.Within u :=
  ⟨h'.1.trans h.1, h.2.trans h'.2⟩

theorem within_iff : s.Within t ↔ t.start ≤ s.start ∧ s.stop ≤ t.stop := Iff.rfl

@[simp]
theorem start_point (offset : Nat) : (point offset).start = offset := rfl

@[simp]
theorem stop_point (offset : Nat) : (point offset).stop = offset := rfl

theorem merge_within (h : s.Within u) (h' : t.Within u) : (s.merge t).Within u :=
  ⟨Nat.le_min.mpr ⟨h.1, h'.1⟩, Nat.max_le.mpr ⟨h.2, h'.2⟩⟩

/-- From one offset to a later one. -/
theorem merge_points {start stop : Nat} (h : start ≤ stop) :
    (point start).merge (point stop) = ⟨start, stop, h⟩ := by
  simp [merge, point, h]

end Span

namespace Tree

open Growing (Ensures ensures_pure)

variable (taken : Set String)

/-- A block that binds a name that is not taken, as the block of a generated loop does. -/
def IsLoopBlock (P : Tree) : Prop :=
  P.form = .expr .block ∧ ∃ G ∈ P.children, G.form = .expr .locals ∧
    ∃ D ∈ G.children, ∃ name ∉ taken, D.form = .expr (.localDef name false)

/-- A node has a child within it. The check of a generated loop may start before the block of the loop
that it is in, but stops where that does. -/
inductive Fits (P C : Tree) : Prop
  | within (within : C.span.Within P.span)
  | check (block : P.IsLoopBlock taken) (form_eq : C.form = .expr .conditional)
      (stop_eq : C.span.stop = P.span.stop)

/-- The children of a node fit, and leaves for tokens are where these are. -/
structure Snug (P : Tree) : Prop where
  fits : ∀ C ∈ P.children, P.Fits taken C
  token : ∀ t, P.form = .token t → P.span = t.span

def Nested (trees : List Tree) : Prop := ∀ X ∈ nodesAll trees, X.Snug taken

section

variable {taken} {T U C : Tree} {trees trees' : List Tree}

theorem nested_cons : Nested taken (T :: trees) ↔
    T.Snug taken ∧ Nested taken T.children ∧ Nested taken trees := by
  simp only [Nested, nodesAll_cons, List.mem_cons, List.mem_append, or_imp, forall_and, forall_eq]

theorem nested_singleton : Nested taken [T] ↔ T.Snug taken ∧ Nested taken T.children := by
  rw [nested_cons]
  simp [Nested, nodesAll]

theorem nested_iff : Nested taken trees ↔ ∀ T ∈ trees, Nested taken [T] := by
  induction trees with
  | nil => simp [Nested, nodesAll]
  | cons T rest ih => rw [nested_cons, List.forall_mem_cons, nested_singleton, ← ih, and_assoc]

theorem Snug.mono {taken' : Set String} (h : T.Snug taken') (hsub : taken ⊆ taken') : T.Snug taken := by
  refine ⟨fun C hC => ?_, h.token⟩
  cases h.fits C hC with
  | within within => exact .within within
  | check block form_eq stop_eq =>
    obtain ⟨hform, G, hG, hgroup, D, hD, name, hname, hdef⟩ := block
    exact .check ⟨hform, G, hG, hgroup, D, hD, name, fun hmem => hname (hsub hmem), hdef⟩ form_eq stop_eq

/-- If all names are taken, no node is the block of a loop. -/
theorem Snug.within_of_univ (h : T.Snug Set.univ) (hC : C ∈ T.children) : C.span.Within T.span := by
  cases h.fits C hC with
  | within within => exact within
  | check block =>
    obtain ⟨-, _, _, -, _, _, name, hname, -⟩ := block
    exact absurd (Set.mem_univ name) hname

/-- What fits into a node that is not the block of a loop is within it. -/
theorem Snug.within (h : T.Snug taken) (hnot : T.form ≠ .expr .block) (hC : C ∈ T.children) :
    C.span.Within T.span := by
  cases h.fits C hC with
  | within within => exact within
  | check block => exact absurd block.1 hnot

/-- Nothing depends on which handle a node has and whether it is grouped. -/
theorem Nested.inherit (h : Nested taken [T]) (grouped : Bool) : Nested taken [T.inherit grouped] := by
  cases grouped
  · exact h
  · obtain ⟨hsnug, hchildren⟩ := nested_singleton.mp h
    refine nested_singleton.mpr ⟨⟨fun C hC => ?_, hsnug.token⟩, hchildren⟩
    cases hsnug.fits C hC with
    | within within => exact .within within
    | check block form_eq stop_eq => exact .check block form_eq stop_eq

end

def Twig.span : Twig → Span
  | tree T => T.span
  | token t => t.span

@[simp]
theorem Twig.span_tree (T : Tree) : (tree T).span = T.span := rfl

@[simp]
theorem Twig.span_minted (kind : TokenKind) (text : String) (offset : Nat) :
    (token (.minted kind text offset)).span = .point offset := rfl

@[simp]
theorem Twig.span_keyword (word : Keyword) (offset : Nat) :
    (token (.keyword word offset)).span = .point offset := rfl

/-- A child that comes of another one in the making. -/
inductive Twig.Sprouts : Twig → Tree → Prop
  | tree (T : Tree) : Sprouts (.tree T) T
  | token (t : Token) (id : NodeId) : Sprouts (.token t) (.node id (.token t) t.span false [])

theorem Twig.Sprouts.span_eq {twig : Twig} {C : Tree} (h : twig.Sprouts C) : C.span = twig.span := by
  cases h <;> rfl

/-- A leaf for a token has nothing in it. -/
theorem Twig.Sprouts.nested {taken : Set String} {twig : Twig} {C : Tree} (h : twig.Sprouts C)
    (hnested : ∀ T, twig = .tree T → Nested taken [T]) : Nested taken [C] := by
  cases h with
  | tree => exact hnested C rfl
  | token t id =>
    refine nested_singleton.mpr ⟨⟨fun _ hC => (nomatch hC), ?_⟩, fun _ hX => (nomatch hX)⟩
    rintro _ ⟨⟩
    rfl

theorem exists_sprouts {twigs : List Twig} {size : Nat} {C : Tree} (hC : C ∈ (leaves twigs size).1) :
    ∃ twig ∈ twigs, twig.Sprouts C := by
  induction twigs generalizing size with
  | nil => cases hC
  | cons twig twigs ih =>
    have hrest : ∀ {size}, C ∈ (leaves twigs size).1 → ∃ twig' ∈ twig :: twigs, twig'.Sprouts C :=
      fun hC => by
        obtain ⟨twig', htwig', hsprout⟩ := ih hC
        exact ⟨twig', List.mem_cons_of_mem _ htwig', hsprout⟩
    cases twig with
    | tree T =>
      rcases List.mem_cons.mp (show C ∈ T :: (leaves twigs size).1 from hC) with rfl | hC
      · exact ⟨_, List.mem_cons_self, .tree C⟩
      · exact hrest hC
    | token t =>
      rcases List.mem_cons.mp
        (show C ∈ (leaf (.token t) t.span size).1 :: (leaves twigs (size + 1)).1 from hC) with rfl | hC
      · exact ⟨_, List.mem_cons_self, .token t ⟨size⟩⟩
      · exact hrest hC

theorem mem_leaves {twigs : List Twig} {size : Nat} {T : Tree} (hT : .tree T ∈ twigs) :
    T ∈ (leaves twigs size).1 := by
  induction twigs generalizing size with
  | nil => cases hT
  | cons twig twigs ih =>
    cases twig with
    | tree U =>
      have hleaves : (leaves (.tree U :: twigs) size).1 = U :: (leaves twigs size).1 := rfl
      rw [hleaves]
      rcases List.mem_cons.mp hT with hT | hT
      · cases hT
        exact List.mem_cons_self
      · exact List.mem_cons_of_mem _ (ih hT)
    | token t => exact List.mem_cons_of_mem _ (ih ((List.mem_cons.mp hT).resolve_left nofun))

/-- What comes of some children in the making: a new node over them, into which they fit. -/
structure MadeOf (form : ExprForm) (span : Span) (twigs : List Twig) (U : Tree) : Prop where
  nested : Nested taken [U]
  form_eq : U.form = .expr form
  span_eq : U.span = span
  mem : ∀ T, .tree T ∈ twigs → T ∈ U.children

section

variable {taken} {T : Tree} {form : ExprForm} {span : Span} {twigs : List Twig} {n : Nat}

theorem nested_leaf {sort : NodeForm} (hsort : sort.token? = none) (size : Nat) :
    Nested taken [(leaf sort span size).1] := by
  refine nested_singleton.mpr ⟨⟨fun _ hC => (nomatch hC), fun t ht => ?_⟩, fun _ hX => (nomatch hX)⟩
  have hform : sort = .token t := ht
  rw [hform] at hsort
  cases hsort

theorem attach_madeOf (hnested : ∀ T, .tree T ∈ twigs → Nested taken [T])
    (hfits : ∀ U : Tree, U.form = .expr form → U.span = span → (∀ T, .tree T ∈ twigs → T ∈ U.children) →
      ∀ twig ∈ twigs, ∀ C, twig.Sprouts C → U.Fits taken C) (size size' : Nat) :
    MadeOf taken form span twigs (attach (.expr form) span (leaves twigs size).1 size').1 := by
  refine ⟨nested_singleton.mpr ⟨⟨fun C hC => ?_, nofun⟩, nested_iff.mpr fun C hC => ?_⟩, rfl, rfl,
    fun _ => mem_leaves⟩
  · obtain ⟨twig, htwig, hsprout⟩ := exists_sprouts hC
    exact hfits _ rfl rfl (fun _ => mem_leaves) twig htwig C hsprout
  · obtain ⟨twig, htwig, hsprout⟩ := exists_sprouts hC
    exact hsprout.nested fun T hT => hnested T (hT ▸ htwig)

theorem allocAt_madeOf (hnested : ∀ T, .tree T ∈ twigs → Nested taken [T])
    (hwithin : ∀ twig ∈ twigs, twig.span.Within span) :
    Ensures n (allocAt (.expr form) span twigs) (MadeOf taken form span twigs) := fun size hn =>
  ⟨attach_madeOf hnested (fun U _ hspan _ twig htwig C hsprout => .within (by
      rw [hspan, hsprout.span_eq]
      exact hwithin twig htwig)) size _,
    (hn.trans (le_size_leaves twigs size)).trans (Nat.le_succ _)⟩

theorem alloc_fits (taken : Set String) (span : Span)
    (hcover : ∀ size, cover (leaves twigs size).1 = span)
    (hnested : ∀ T, .tree T ∈ twigs → Nested taken [T])
    (hfits : ∀ U : Tree, U.form = .expr form → U.span = span → (∀ T, .tree T ∈ twigs → T ∈ U.children) →
      ∀ twig ∈ twigs, ∀ C, twig.Sprouts C → U.Fits taken C) :
    Ensures n (alloc (.expr form) twigs) (MadeOf taken form span twigs) := fun size hn => by
  refine ⟨?_, (hn.trans (le_size_leaves twigs size)).trans (Nat.le_succ _)⟩
  have hmade := attach_madeOf hnested hfits size (leaves twigs size).2
  rwa [← hcover size] at hmade ⊢

theorem alloc_madeOf (taken : Set String) (span : Span)
    (hcover : ∀ size, cover (leaves twigs size).1 = span)
    (hnested : ∀ T, .tree T ∈ twigs → Nested taken [T])
    (hwithin : ∀ twig ∈ twigs, twig.span.Within span) :
    Ensures n (alloc (.expr form) twigs) (MadeOf taken form span twigs) :=
  alloc_fits taken span hcover hnested fun U _ hspan _ twig htwig C hsprout => .within (by
    rw [hspan, hsprout.span_eq]
    exact hwithin twig htwig)

theorem exists_copy {trees : List Tree} {size : Nat} {C : Tree} (hC : C ∈ (copyAll trees size).1) :
    ∃ V ∈ trees, ∃ size', C = (V.copy size').1 := by
  induction trees generalizing size with
  | nil => cases hC
  | cons V rest ih =>
    have hall : (copyAll (V :: rest) size).1 =
      (V.copy size).1 :: (copyAll rest (V.copy size).2).1 := rfl
    rw [hall] at hC
    rcases List.mem_cons.mp hC with rfl | hC
    · exact ⟨V, List.mem_cons_self, size, rfl⟩
    · obtain ⟨V', hV', heq⟩ := ih hC
      exact ⟨V', List.mem_cons_of_mem _ hV', heq⟩

theorem copy_mem {trees : List Tree} {V : Tree} (hV : V ∈ trees) (size : Nat) :
    ∃ size', (V.copy size').1 ∈ (copyAll trees size).1 := by
  induction trees generalizing size with
  | nil => cases hV
  | cons U rest ih =>
    rcases List.mem_cons.mp hV with rfl | hV
    · exact ⟨size, List.mem_cons_self⟩
    · obtain ⟨size', hmem⟩ := ih hV (U.copy size).2
      exact ⟨size', List.mem_cons_of_mem _ hmem⟩

theorem IsLoopBlock.copy (h : T.IsLoopBlock taken) (size : Nat) :
    (T.copy size).1.IsLoopBlock taken := by
  obtain ⟨hform, G, hG, hgroup, D, hD, name, hname, hdef⟩ := h
  obtain ⟨size', hG'⟩ := copy_mem hG size
  obtain ⟨size'', hD'⟩ := copy_mem hD size'
  refine ⟨by rw [form_copy, hform], (G.copy size').1, ?_, by rw [form_copy, hgroup],
    (D.copy size'').1, ?_, name, hname, by rw [form_copy, hdef]⟩
  · rwa [copy_eq]
  · rwa [copy_eq]

/-- Copies are alike. -/
theorem Nested.copy (h : Nested taken [T]) (size : Nat) : Nested taken [(T.copy size).1] := by
  induction T generalizing size with
  | node id form span grouped children ih =>
    obtain ⟨hsnug, hchildren⟩ := nested_singleton.mp h
    rw [copy_eq]
    refine nested_singleton.mpr ⟨⟨fun C hC => ?_, hsnug.token⟩, nested_iff.mpr fun C hC => ?_⟩
    · obtain ⟨V, hV, size', rfl⟩ := exists_copy hC
      have hspan : (V.copy size').1.span = V.span := by rw [copy_eq]; rfl
      cases hsnug.fits V hV with
      | within within => exact .within (hspan ▸ within)
      | check block form_eq stop_eq =>
        have hblock := block.copy size
        rw [copy_eq] at hblock
        exact .check hblock (by rw [form_copy, form_eq]) (hspan ▸ stop_eq)
    · obtain ⟨V, hV, size', rfl⟩ := exists_copy hC
      exact ih V hV (nested_iff.mp hchildren V hV) size'

theorem copy_nested (h : Nested taken [T]) :
    Ensures n T.copy fun U => Nested taken [U] ∧ U.span = T.span := fun size hn =>
  ⟨⟨h.copy size, by rw [copy_eq]; rfl⟩, hn.trans (le_size_copy T size)⟩

theorem leaf_nested (taken : Set String) {sort : NodeForm} (hsort : sort.token? = none) :
    Ensures n (leaf sort span) fun U => Nested taken [U] ∧ U.span = span := fun size hn =>
  ⟨⟨nested_leaf hsort size, rfl⟩, hn.trans (Nat.le_succ size)⟩

theorem whileLoop_nested {name : String} {condition body : Tree} (hname : name ∉ taken)
    (hcondition : Nested taken [condition]) (hbody : Nested taken [body])
    (hin : condition.span.Within T.span) (hin' : body.span.Within T.span) :
    Ensures n (T.whileLoop name condition body) fun U => Nested taken [U] ∧ U.span = T.span := by
  obtain ⟨hstart, hstop⟩ := hin
  obtain ⟨hstart', hstop'⟩ := hin'
  have hle := condition.span.start_le_stop
  have hle' := body.span.start_le_stop
  have hcheckSpan : condition.span.start ≤ T.span.stop := by omega
  have hcodeSpan : body.span.start ≤ T.span.stop := by omega
  refine (allocAt_madeOf (by simpa) ?_).bind fun definition hdefinition => ?_
  · simp [Span.within_iff, hle']
  refine (allocAt_madeOf (by simpa using hdefinition.nested) ?_).bind fun binding hbinding => ?_
  · simp [Span.within_iff, hle', hdefinition.span_eq]
  refine (copy_nested hcondition).bind fun again ⟨hagain, hagainSpan⟩ => ?_
  refine (leaf_nested taken rfl).bind fun not ⟨hnot, hnotSpan⟩ => ?_
  refine (alloc_madeOf taken condition.span (fun _ => ?_) (by simp [hagain, hnot]) ?_).bind
    fun negated hnegated => ?_
  · change again.span.merge not.span = condition.span
    rw [hagainSpan, hnotSpan, Span.stopPoint, Span.merge_point_stop]
  · simp [hagainSpan, hnotSpan, Span.within_iff, Span.stopPoint, hle]
  refine (leaf_nested taken rfl).bind fun result ⟨hresult, hresultSpan⟩ => ?_
  refine (alloc_madeOf taken (.point T.span.stop) (fun _ => ?_) (by simp [hresult]) ?_).bind
    fun leave hleave => ?_
  · change (Span.point T.span.stop).merge result.span = .point T.span.stop
    rw [hresultSpan]
    exact Span.merge_point_stop _
  · simp [hresultSpan, Span.stopPoint, Span.Within.refl]
  refine (alloc_madeOf taken ⟨condition.span.start, T.span.stop, hcheckSpan⟩ (fun _ => ?_)
    (by simp [hnegated.nested, hleave.nested]) ?_).bind fun check hcheck => ?_
  · change (Span.point condition.span.start).merge leave.span = _
    rw [hleave.span_eq, Span.merge_points]
  · simp [hnegated.span_eq, hleave.span_eq, Span.within_iff, hstop, hcheckSpan]
  refine (alloc_fits taken ⟨body.span.start, T.span.stop, hcodeSpan⟩ (fun _ => ?_)
    (by simp [hbinding.nested, hcheck.nested]) ?_).bind fun code hcode => ?_
  · exact Span.merge_points hcodeSpan
  · intro U hform hspan hmem twig htwig C hsprout
    have hwithin : twig.span.Within ⟨body.span.start, T.span.stop, hcodeSpan⟩ → U.Fits taken C :=
      fun h => .within (by rwa [hspan, hsprout.span_eq])
    simp only [List.mem_cons, List.not_mem_nil, or_false] at htwig
    rcases htwig with rfl | rfl | rfl | rfl
    · exact hwithin (by simp [Span.within_iff, hcodeSpan])
    · exact hwithin (by simp [Span.within_iff, hbinding.span_eq, hstop'])
    · cases hsprout
      refine .check ?_ hcheck.form_eq (by rw [hcheck.span_eq, hspan])
      exact ⟨hform, binding, hmem binding (by simp), hbinding.form_eq, definition,
        hbinding.mem definition (by simp), name, hname, hdefinition.form_eq⟩
    · exact hwithin (by simp [Span.within_iff, hcodeSpan])
  refine (alloc_madeOf taken ⟨body.span.start, T.span.stop, hcodeSpan⟩ (fun _ => ?_)
    (by simp [hcode.nested]) ?_).bind fun loop hloop => ?_
  · change (Span.point body.span.start).merge code.span = _
    simp [hcode.span_eq, Span.merge, Span.point, hcodeSpan]
  · simp [hcode.span_eq, Span.within_iff, hcodeSpan]
  refine (allocAt_madeOf (by simp [hcondition, hloop.nested]) ?_).mono fun U hU => ⟨hU.nested, hU.span_eq⟩
  simp [hloop.span_eq, Span.within_iff, T.span.start_le_stop]
  omega

theorem orEmpty_nested {type? : Option Tree} (outer : Span) (hspan : span.Within outer)
    (htype : ∀ type, type? = some type → Nested taken [type] ∧ type.span.Within outer) :
    Ensures n (orEmpty span type?) fun U => Nested taken [U] ∧ U.span.Within outer := by
  cases type? with
  | none =>
    refine (leaf_nested taken rfl).mono ?_
    rintro U ⟨hnested, rfl⟩
    exact ⟨hnested, hspan⟩
  | some type => exact ensures_pure (htype type rfl)

theorem function_nested {input output : Bool} {body : Tree}
    (htypes : ∀ type ∈ T.types, Nested taken [type] ∧ type.span.Within T.span)
    (hbody : Nested taken [body]) (hin : body.span.Within T.span) :
    Ensures n (T.function input output body) fun U => Nested taken [U] ∧ U.span = T.span := by
  have hle := T.span.start_le_stop
  refine (orEmpty_nested T.span (by simp [Span.startPoint, Span.within_iff, hle])
    fun type htype => htypes type (mem_types_of_inputType?_eq_some htype)).bind
    fun inputType ⟨hinput, hinputIn⟩ => ?_
  have houtput : ∀ type ∈ (T.outputType? input output).toList,
      Nested taken [type] ∧ type.span.Within T.span := fun type htype =>
    htypes type (mem_types_of_outputType?_eq_some (Option.mem_toList.mp htype))
  have hparts : ∀ twig ∈ [Twig.token (.keyword .onWord T.span.start), .tree inputType] ++
      (T.outputType? input output).toList.map .tree ++ [.tree body],
      (∀ U, .tree U = twig → Nested taken [U]) ∧ twig.span.Within T.span := by
    simp only [List.forall_mem_append, List.forall_mem_cons, List.forall_mem_map, Twig.span_tree,
      Twig.span_keyword, Twig.tree.injEq, forall_eq]
    exact ⟨⟨⟨⟨nofun, by simp [Span.within_iff, hle]⟩, ⟨hinput, hinputIn⟩, nofun⟩, houtput⟩,
      ⟨hbody, hin⟩, nofun⟩
  refine (allocAt_madeOf (fun U hU => (hparts _ hU).1 U rfl) fun twig htwig =>
    (hparts twig htwig).2).bind fun handler hhandler => ?_
  refine (allocAt_madeOf (by simpa using hhandler.nested) ?_).bind fun code hcode => ?_
  · simp [hhandler.span_eq, Span.within_iff, hle]
  refine (allocAt_madeOf (by simpa using hcode.nested) ?_).mono fun U hU => ⟨hU.nested, hU.span_eq⟩
  simp [hcode.span_eq, Span.within_iff, hle]

end

section

variable {taken} {T U : Tree} {s s' : Lowering} {size : Nat} {made : Tree × Nat} {above : List NodeForm}

theorem operatorSpan_within (h : Nested taken [T]) (hnot : T.form ≠ .expr .block) :
    T.operatorSpan.Within T.span := by
  obtain ⟨hsnug, hchildren⟩ := nested_singleton.mp h
  unfold operatorSpan
  split
  · next token rest htokens =>
    have htoken : token ∈ T.tokens := htokens ▸ List.mem_cons_self
    obtain ⟨child, hchild, hsort⟩ := List.mem_filterMap.mp htoken
    have hform : child.form = .token token := by
      cases hform : child.form <;> simp_all [NodeForm.token?]
    rw [← (hchildren child (mem_nodesAll hchild)).token token hform]
    exact hsnug.within hnot hchild
  · exact ⟨Nat.le_refl _, T.span.start_le_stop⟩

/-- Rewriting gives a tree that fits where the tree did, and into whose nodes their children fit. -/
theorem Rewrites.nested (h : T.Rewrites s size made s')
    (htaken : ∀ name ∈ taken, name ∈ s.temporaries.taken)
    (hnested : Nested taken [T]) : Nested taken [made.1] ∧ made.1.span.Within T.span := by
  obtain ⟨hsnug, hchildren⟩ := nested_singleton.mp hnested
  have hpart : ∀ {part}, part ∈ T.children → Nested taken [part] := fun hmem =>
    nested_iff.mp hchildren _ hmem
  have hmade : ∀ {step : Growing Tree},
      Ensures size step (fun U => Nested taken [U] ∧ U.span = T.span) →
        Nested taken [(step size).1] ∧ (step size).1.span.Within T.span := fun hstep => by
    obtain ⟨hresult, hspan⟩ := (hstep size le_rfl).1
    exact ⟨hresult, hspan ▸ Span.Within.refl _⟩
  cases h with
  | @unary op operand others form_eq operands =>
    have hnot : T.form ≠ .expr .block := by rw [form_eq]; nofun
    have hoperand := List.mem_of_mem_filter (operands ▸ List.mem_cons_self : operand ∈ T.expressions)
    refine hmade ((leaf_nested taken rfl).bind fun message ⟨hmessage, hspan⟩ => ?_)
    refine (allocAt_madeOf (by simp [hpart hoperand, hmessage]) ?_).mono
      fun U hU => ⟨hU.nested, hU.span_eq⟩
    simp [hspan, hsnug.within hnot hoperand, operatorSpan_within hnested hnot]
  | @logic text op left right form_eq _ operands =>
    have hnot : T.form ≠ .expr .block := by rw [form_eq]; nofun
    refine hmade ((allocAt_madeOf ?_ ?_).mono fun U hU => ⟨hU.nested, hU.span_eq⟩)
    · simpa using fun _ => hpart
    · simpa using fun _ => hsnug.within hnot
  | @binary op left right form_eq _ operands =>
    have hnot : T.form ≠ .expr .block := by rw [form_eq]; nofun
    rw [twoOperands?_eq_some_iff] at operands
    have hleft := List.mem_of_mem_filter (operands ▸ List.mem_cons_self : left ∈ T.expressions)
    have hright := List.mem_of_mem_filter
      (operands ▸ List.mem_cons_of_mem _ List.mem_cons_self : right ∈ T.expressions)
    have hoperator := operatorSpan_within hnested hnot
    refine hmade ((leaf_nested taken rfl).bind fun message ⟨hmessage, hspan⟩ => ?_)
    refine (alloc_madeOf taken (left.span.merge message.span) (fun _ => rfl)
      (by simp [hpart hleft, hmessage]) ?_).bind fun partially hpartially => ?_
    · simp [Span.within_merge_left, Span.within_merge_right]
    refine (allocAt_madeOf (by simp [hpartially.nested, hpart hright]) ?_).mono
      fun U hU => ⟨hU.nested, hU.span_eq⟩
    simp [hpartially.span_eq, hspan, hsnug.within hnot hright,
      Span.merge_within (hsnug.within hnot hleft) hoperator]
  | @whileLoop name temporaries condition body form_eq operands fresh =>
    have hnot : T.form ≠ .expr .block := by rw [form_eq]; nofun
    rw [twoOperands?_eq_some_iff] at operands
    have hcondition := List.mem_of_mem_filter (operands ▸ List.mem_cons_self : condition ∈ T.expressions)
    have hbody := List.mem_of_mem_filter
      (operands ▸ List.mem_cons_of_mem _ List.mem_cons_self : body ∈ T.expressions)
    have hname : name ∉ taken := fun hmem =>
      (Temporaries.Drew.of_fresh? fresh).not_mem name (List.mem_singleton_self name) (htaken name hmem)
    exact hmade (whileLoop_nested hname (hpart hcondition) (hpart hbody) (hsnug.within hnot hcondition)
      (hsnug.within hnot hbody))
  | @function input output body others form_eq operands =>
    have hnot : T.form ≠ .expr .block := by rw [form_eq]; nofun
    have hbody := List.mem_of_mem_filter (operands ▸ List.mem_cons_self : body ∈ T.expressions)
    refine hmade (function_nested (fun type htype => ?_) (hpart hbody) (hsnug.within hnot hbody))
    have hmem := List.mem_of_mem_filter htype
    exact ⟨hpart hmem, hsnug.within hnot hmem⟩
  | @block item form_eq items free =>
    have hitem := List.mem_of_mem_filter (items ▸ List.mem_cons_self : item ∈ T.expressions)
    refine ⟨(hpart hitem).inherit true, ?_⟩
    cases hsnug.fits item hitem with
    | within within => exact within
    | check block =>
      -- the block of a loop has the group that binds the temporary as its item too
      obtain ⟨-, G, hG, hgroup, -⟩ := block
      have hgroup' : G ∈ T.expressions := List.mem_filter.mpr ⟨hG, by rw [Tree.isExpr, hgroup]; rfl⟩
      rw [items, List.mem_singleton] at hgroup'
      rw [← hgroup', expr?, hgroup] at free
      cases free

/-- A tree that stays keeps its span, and what is added to it or changed in it fits. -/
theorem Settles.nested (h : T.Settles above s size made s') (hnested : Nested taken [T]) :
    Nested taken [made.1] := by
  obtain ⟨hsnug, hchildren⟩ := nested_singleton.mp hnested
  have hpart := nested_iff.mp hchildren
  cases h with
  | conditional form_eq =>
    have hnot : T.form ≠ .expr .block := by rw [form_eq]; nofun
    have hle := T.span.start_le_stop
    let nothing := (leaf (.expr (.constant .nothing)) (.point T.span.stop) size).1
    let twigs : List Twig := [.token (.keyword .elseWord T.span.stop), .tree nothing]
    have hadded : ∀ C ∈ (leaves twigs (size + 1)).1, Nested taken [C] ∧ C.span.Within T.span := by
      intro C hC
      obtain ⟨twig, htwig, hsprout⟩ := exists_sprouts hC
      have hwithin : twig.span.Within T.span := by
        rcases List.mem_pair.mp htwig with rfl | rfl <;>
          exact ⟨hle, Nat.le_refl _⟩
      refine ⟨hsprout.nested fun U hU => ?_, hsprout.span_eq ▸ hwithin⟩
      rcases List.mem_pair.mp htwig with rfl | rfl <;> cases hU
      exact nested_leaf rfl size
    refine nested_singleton.mpr ⟨⟨fun C hC => .within ?_, fun t ht => ?_⟩, nested_iff.mpr fun C hC => ?_⟩
    · rw [span_completeConditional]
      exact (List.mem_append.mp hC).elim (hsnug.within hnot) fun hC => (hadded C hC).2
    · cases form_eq.symm.trans ht
    · exact (List.mem_append.mp hC).elim (hpart C) fun hC => (hadded C hC).1
  | struct form_eq =>
    have hnot : T.form ≠ .expr .block := by rw [form_eq]; nofun
    have hfields := forall_nameFields (p := fun C => Nested taken [C] ∧ C.span.Within T.span)
      (fun V hV hfield name => ?_) (fun V hV _ => ⟨hpart V hV, hsnug.within hnot hV⟩) s.log ⟨[], false⟩ 0
    · refine nested_singleton.mpr ⟨⟨fun C hC => .within (hfields C hC).2, fun t ht => ?_⟩,
        nested_iff.mpr fun C hC => (hfields C hC).1⟩
      cases form_eq.symm.trans ht
    · obtain ⟨hown, hbelow⟩ := nested_singleton.mp (hpart V hV)
      have hnotBlock : V.form ≠ .expr .block := fun hform => by
        rw [hform] at hfield
        cases hfield
      refine ⟨nested_singleton.mpr ⟨⟨fun C hC => .within (hown.within hnotBlock hC), nofun⟩, hbelow⟩, ?_⟩
      exact (hsnug.within hnot hV : V.span.Within T.span)
  | placed | kept => exact hnested

/-- What stands in place of a tree in the end: nothing longer, and a conditional in place of one as
long as that. -/
structure Shrinks (T R : Tree) : Prop where
  within : R.span.Within T.span
  conditional : T.form = .expr .conditional → R.form = .expr .conditional ∧ R.span = T.span

end

end Tree

open MessageLang.Tree

namespace Lowers

variable {above : List NodeForm} {trees trees' : List Tree} {w w' : Lowering × Nat}
  {taken : Set String}

/-- A tree that only its place is checked of is still there, over what its parts have become. -/
theorem exists_lowered (h : Lowers above trees w trees' w') {V : Tree} (hV : V ∈ trees)
    {form : ExprForm} (hform : V.form = .expr form) (hplaced : isPlaced form = true) :
    ∃ X ∈ trees', X.form = V.form ∧ ∃ above' w₁ w₂, Lowers above' V.children w₁ X.children w₂ := by
  induction h with
  | nil => cases hV
  | settles step below _ _ ihafter =>
    rcases List.mem_cons.mp hV with rfl | hV
    · have heq := step.fst_eq hform hplaced
      cases heq
      exact ⟨_, List.mem_cons_self, rfl, _, _, _, below⟩
    · obtain ⟨X, hX, hsame⟩ := ihafter hV
      exact ⟨X, List.mem_cons_of_mem _ hX, hsame⟩
  | rewrites step _ ih =>
    rcases List.mem_cons.mp hV with rfl | hV
    · rw [step.isPlaced_eq_false hform] at hplaced
      cases hplaced
    · exact ih (List.mem_cons_of_mem _ hV)

/-- The block of a loop is one still when its parts have been lowered. -/
theorem isLoopBlock {P : Tree} (h : Lowers above P.children w trees' w') (hblock : P.IsLoopBlock taken) :
    (P.withChildren trees').IsLoopBlock taken := by
  obtain ⟨hform, G, hG, hgroup, D, hD, name, hname, hdef⟩ := hblock
  obtain ⟨G', hG', hgroup', _, _, _, hbelow⟩ := h.exists_lowered hG hgroup rfl
  obtain ⟨D', hD', hdef', _⟩ := hbelow.exists_lowered hD hdef rfl
  exact ⟨hform, G', hG', hgroup'.trans hgroup, D', hD', name, hname, hdef'.trans hdef⟩

/-- What lowering makes of some trees is nested as they are, but for the checks of the loops that it
generates. -/
theorem nested (h : Lowers above trees w trees' w') (htaken : ∀ name ∈ taken, name ∈ w.1.temporaries.taken)
    (hnested : Nested taken trees) :
    Nested taken trees' ∧ ∀ R ∈ trees', ∃ T ∈ trees, T.Shrinks R := by
  induction h with
  | nil => exact ⟨hnested, nofun⟩
  | @settles above T T' trees trees' children s s₁ size size₁ w₂ w₃ step below _ ihbelow ihafter =>
    have htemporaries := step.names_eq.2.2
    rw [nested_iff, List.forall_mem_cons, ← nested_iff] at hnested
    obtain ⟨hsnug, hchildren⟩ := nested_singleton.mp (step.nested hnested.1)
    have htaken₁ : ∀ name ∈ taken, name ∈ s₁.temporaries.taken := htemporaries ▸ htaken
    obtain ⟨hbelow, hshrink⟩ := ihbelow htaken₁ hchildren
    obtain ⟨hafter, hshrink'⟩ :=
      ihafter (fun name hname => below.taken_subset (htaken₁ name hname)) hnested.2
    refine ⟨nested_cons.mpr ⟨⟨fun R hR => ?_, hsnug.token⟩, hbelow, hafter⟩, fun R hR => ?_⟩
    · obtain ⟨C, hC, hwithin, hconditional⟩ := hshrink R hR
      cases hsnug.fits C hC with
      | within within => exact .within (hwithin.trans within)
      | check block form_eq stop_eq =>
        obtain ⟨hform, hspan⟩ := hconditional form_eq
        exact .check (below.isLoopBlock block) hform (hspan ▸ stop_eq)
    · rcases List.mem_cons.mp hR with rfl | hR
      · have hspan : (T'.withChildren children).span = T.span := step.span_eq
        refine ⟨T, List.mem_cons_self, hspan ▸ .refl _, fun hform => ⟨?_, hspan⟩⟩
        exact step.form_eq.trans hform
      · obtain ⟨U, hU, hshrinks⟩ := hshrink' R hR
        exact ⟨U, List.mem_cons_of_mem _ hU, hshrinks⟩
  | @rewrites above T T' trees trees' s s₁ size size₁ w₂ step _ ih =>
    rw [nested_iff, List.forall_mem_cons, ← nested_iff] at hnested
    obtain ⟨hmade, hwithin⟩ := step.nested htaken hnested.1
    obtain ⟨drawn, hdrew, -⟩ := step.drew
    obtain ⟨hagain, hshrink⟩ := ih (fun name hname => hdrew.taken_subset (htaken name hname))
      (nested_iff.mpr (List.forall_mem_cons.mpr ⟨hmade.inherit _, nested_iff.mp hnested.2⟩))
    refine ⟨hagain, fun R hR => ?_⟩
    obtain ⟨U, hU, hshrinks⟩ := hshrink R hR
    rcases List.mem_cons.mp hU with rfl | hU
    · refine ⟨T, List.mem_cons_self, ?_, fun hform => ?_⟩
      · exact (span_inherit T' T.grouped ▸ hshrinks.within).trans hwithin
      · cases step with
        | _ form_eq => cases form_eq.symm.trans hform
    · exact ⟨U, List.mem_cons_of_mem _ hU, hshrinks⟩

end Lowers

end MessageLang
