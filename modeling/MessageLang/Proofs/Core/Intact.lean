import MessageLang.Proofs.Core.Lowered
import MessageLang.Proofs.Tree.Building

namespace MessageLang

namespace Arena

/-- An arena of trees that another one has become, with some nodes in it that are at hand. -/
structure AtHand (start : Arena) (ids : List NodeId) (a : Arena) : Prop where
  forest : a.Forest
  size_le : start.size ≤ a.size
  lt : ∀ id ∈ ids, id.index < a.size

/-- The pieces of a node are tokens and nodes at hand. -/
inductive Usable (ids : List NodeId) : List Piece → Prop
  | nil : Usable ids []
  | node {id : NodeId} {rest : List Piece} (hand : id ∈ ids) (others : Usable ids rest) :
      Usable ids (.node id :: rest)
  | token {t : Token} {rest : List Piece} (others : Usable ids rest) : Usable ids (.token t :: rest)

variable {start a a' : Arena} {ids ids' : List NodeId} {id : NodeId} {pieces : List Piece}

theorem Usable.mem (h : Usable ids pieces) : .node id ∈ pieces → id ∈ ids := by
  induction h with
  | nil => exact nofun
  | node hand _ ih =>
    intro hmem
    rcases List.mem_cons.mp hmem with heq | hmem
    · cases heq
      exact hand
    · exact ih hmem
  | token _ ih =>
    intro hmem
    rcases List.mem_cons.mp hmem with heq | hmem
    · cases heq
    · exact ih hmem

theorem Usable.append {pieces' : List Piece} (h : Usable ids pieces) (h' : Usable ids pieces') :
    Usable ids (pieces ++ pieces') := by
  induction h with
  | nil => exact h'
  | node hand _ ih => exact .node hand ih
  | token _ ih => exact .token ih

theorem Usable.map {nodes : List NodeId} (h : nodes ⊆ ids) : Usable ids (nodes.map .node) := by
  induction nodes with
  | nil => exact .nil
  | cons id rest ih =>
    exact .node (h List.mem_cons_self) (ih fun _ hmem => h (List.mem_cons_of_mem _ hmem))

namespace AtHand

theorem refl (h : a.Forest) (hlt : ∀ id ∈ ids, id.index < a.size) : a.AtHand ids a :=
  ⟨h, le_rfl, hlt⟩

theorem sub (h : start.AtHand ids a) (hsub : ids' ⊆ ids) : start.AtHand ids' a :=
  ⟨h.forest, h.size_le, fun id hid => h.lt id (hsub hid)⟩

theorem regrows (h : start.AtHand ids a) (h' : a.Regrows a') : start.AtHand ids a' :=
  ⟨h'.forest, h.size_le.trans h'.size_le, fun id hid => (h.lt id hid).trans_le h'.size_le⟩

theorem cons (h : start.AtHand ids a) (hid : id.index < a.size) : start.AtHand (id :: ids) a :=
  ⟨h.forest, h.size_le, List.forall_mem_cons.mpr ⟨hid, h.lt⟩⟩

theorem leaf (h : start.AtHand ids a) (form : NodeForm) (span : Span) :
    After (Edit.leaf form span) a fun id => start.AtHand (id :: ids) := by
  refine (leaf_ends form span).after.mono ?_
  rintro _ a' ⟨rfl, hsize, hparent, hchildren⟩
  refine (h.regrows ⟨h.forest.congr hparent hchildren, by omega⟩).cons ?_
  rw [hsize]
  exact Nat.lt_succ_self _

theorem allocAt (h : start.AtHand ids a) (hpieces : Usable ids pieces) (form : NodeForm)
    (span : Span) :
    After (Edit.allocAt form span pieces) a fun id => start.AtHand (id :: ids) :=
  (allocAt_after h.forest fun id hid => h.lt id (hpieces.mem hid)).mono
    fun _ _ ⟨h', hid⟩ => (h.regrows h').cons hid

theorem alloc (h : start.AtHand ids a) (hpieces : Usable ids pieces) (form : NodeForm) :
    After (Edit.alloc form pieces) a fun id => start.AtHand (id :: ids) :=
  (alloc_after h.forest fun id hid => h.lt id (hpieces.mem hid)).mono
    fun _ _ ⟨h', hid⟩ => (h.regrows h').cons hid

theorem detach (h : start.AtHand ids a) (hid : id ∈ ids) :
    After (Edit.detach id) a fun _ => start.AtHand ids :=
  (detach_ends h.forest (h.lt id hid)).after.mono
    fun _ _ ⟨h', hsize⟩ => h.regrows ⟨h', hsize.ge⟩

theorem detachAll (h : start.AtHand ids a) (hsub : ids' ⊆ ids) :
    After (ids'.forM Edit.detach) a fun _ => start.AtHand ids :=
  after_forM (fun _ => start.AtHand ids) (fun _ _ hid _ h' => h'.detach (hsub hid)) h

theorem copy (h : start.AtHand ids a) (hid : id ∈ ids) :
    After (Edit.copy id) a fun copy => start.AtHand (copy :: ids) :=
  (h.forest.copy_ends (h.lt id hid)).after.mono fun _ _ h' => (h.regrows h'.regrows).cons h'.lt

theorem update (h : start.AtHand ids a) (hid : id ∈ ids) {change : Node → Node}
    (hparent : (change (a.node id)).parent = a.parent id)
    (hchildren : (change (a.node id)).children = a.children id) :
    start.AtHand ids (a.update id change) :=
  h.regrows ⟨h.forest.update (h.lt id hid) hparent hchildren, (size_update ..).ge⟩

end AtHand

theorem Forest.expressions_lt (h : a.Forest) (id : NodeId) : ∀ child ∈ a.expressions id, child.index < a.size :=
  fun _ hchild => h.child_lt (List.mem_of_mem_filter hchild)

theorem Forest.types_lt (h : a.Forest) (id : NodeId) : ∀ child ∈ a.types id, child.index < a.size :=
  fun _ hchild => h.child_lt (List.mem_of_mem_filter hchild)

end Arena

open Arena

section

variable {a : Arena} {id : NodeId}

/-- What a rewriting step gives is at hand. -/
def Arena.Offers (start : Arena) (next : Option NodeId) (a : Arena) : Prop :=
  start.AtHand next.toList a

theorem Arena.AtHand.given {start : Arena} {ids : List NodeId} {new : NodeId}
    (h : start.AtHand (new :: ids) a) : start.Offers (some new) a :=
  h.sub (by simp)

theorem unary_offers (h : a.Forest) (op : String) : After (Lowering.unary id op) a a.Offers := by
  rw [Lowering.unary, after_bind_iff, after_get_iff]
  split
  · exact after_pure_iff.mpr (.refl h (by simp))
  · next operand _ hoperands =>
    have hlt := h.expressions_lt id
    rw [hoperands] at hlt
    have h₀ : a.AtHand [operand] a := .refl h fun child hchild => hlt child (by simp_all)
    refine (h₀.detach (by simp)).bind fun _ a₁ h₁ => ?_
    refine (h₁.leaf _ _).bind fun message a₂ h₂ => ?_
    refine (h₂.allocAt (.node (by simp) (.node (by simp) .nil)) _ _).bind fun call a₃ h₃ => ?_
    exact after_pure_iff.mpr h₃.given

theorem twoOperands?_lt (h : a.Forest) {left right : NodeId}
    (hoperands : Lowering.twoOperands? a id = some (left, right)) :
    ∀ operand ∈ [left, right], operand.index < a.size := by
  have hlt := h.expressions_lt id
  unfold Lowering.twoOperands? at hoperands
  split at hoperands
  · next heq =>
    cases hoperands
    rwa [heq] at hlt
  · cases hoperands

theorem binary_offers (h : a.Forest) (op : String) : After (Lowering.binary id op) a a.Offers := by
  rw [Lowering.binary, after_bind_iff, after_get_iff]
  split
  · exact after_pure_iff.mpr (.refl h (by simp))
  · next left right hoperands =>
    have h₀ : a.AtHand [left, right] a := .refl h (twoOperands?_lt h hoperands)
    refine (h₀.detach (by simp)).bind fun _ a₁ h₁ => ?_
    refine (h₁.detach (by simp)).bind fun _ a₂ h₂ => ?_
    refine (h₂.leaf _ _).bind fun message a₃ h₃ => ?_
    refine (h₃.alloc (.node (by simp) (.node (by simp) .nil)) _).bind fun partially a₄ h₄ => ?_
    refine (h₄.allocAt (.node (by simp) (.node (by simp) .nil)) _ _).bind fun call a₅ h₅ => ?_
    exact after_pure_iff.mpr h₅.given

theorem logic_offers (h : a.Forest) (op : LogicOp) : After (Lowering.logic id op) a a.Offers := by
  rw [Lowering.logic, after_bind_iff, after_get_iff]
  split
  · exact after_pure_iff.mpr (.refl h (by simp))
  · have h₀ : a.AtHand (a.children id) a := .refl h fun _ hchild => h.child_lt hchild
    refine (h₀.detachAll (List.Subset.refl _)).bind fun _ a₁ h₁ => ?_
    refine (h₁.allocAt (.map (List.Subset.refl _)) _ _).bind fun whole a₂ h₂ => ?_
    exact after_pure_iff.mpr h₂.given

theorem collapse_offers (h : a.Forest) : After (Lowering.collapse id) a a.Offers := by
  rw [Lowering.collapse, after_bind_iff, after_get_iff]
  split
  · next item hitem =>
    have hlt := h.expressions_lt id
    rw [hitem] at hlt
    have h₀ : a.AtHand [item] a := .refl h hlt
    split
    · exact after_pure_iff.mpr (.refl h (by simp))
    · refine (h₀.detach (by simp)).bind fun _ a₁ h₁ => ?_
      rw [Edit.setGrouped, Edit.update, after_bind_iff, after_modify_iff, after_pure_iff]
      exact (h₁.update (by simp) rfl rfl).given
  · exact after_pure_iff.mpr (.refl h (by simp))

theorem whileLoop_offers (h : a.Forest) {condition body : NodeId} (temporary : String)
    (hlt : ∀ operand ∈ [condition, body], operand.index < a.size) :
    After (Lowering.whileLoop id temporary condition body) a fun new => a.Offers (some new) := by
  have h₀ : a.AtHand [condition, body] a := .refl h hlt
  rw [Lowering.whileLoop, after_bind_iff, after_get_iff]
  refine (h₀.detach (by simp)).bind fun _ a₁ h₁ => ?_
  refine (h₁.detach (by simp)).bind fun _ a₂ h₂ => ?_
  refine (h₂.allocAt (.token (.node (by simp) .nil)) _ _).bind fun definition a₃ h₃ => ?_
  refine (h₃.allocAt (.token (.node (by simp) .nil)) _ _).bind fun binding a₄ h₄ => ?_
  refine (h₄.copy (by simp)).bind fun again a₅ h₅ => ?_
  refine (h₅.leaf _ _).bind fun not a₆ h₆ => ?_
  refine (h₆.alloc (.node (by simp) (.node (by simp) .nil)) _).bind fun negated a₇ h₇ => ?_
  refine (h₇.leaf _ _).bind fun result a₈ h₈ => ?_
  refine (h₈.alloc (.token (.node (by simp) .nil)) _).bind fun leave a₉ h₉ => ?_
  refine (h₉.alloc (.token (.node (by simp) (.token (.node (by simp) .nil)))) _).bind
    fun check a₁₀ h₁₀ => ?_
  refine (h₁₀.alloc (.token (.node (by simp) (.node (by simp) (.token .nil)))) _).bind
    fun code a₁₁ h₁₁ => ?_
  refine (h₁₁.alloc (.token (.node (by simp) .nil)) _).bind fun loop a₁₂ h₁₂ => ?_
  refine (h₁₂.allocAt (.token (.node (by simp) (.token (.node (by simp) .nil)))) _ _).mono
    fun _ _ h₁₃ => h₁₃.given

private theorem orEmpty_after {start : Arena} {ids : List NodeId} {type? : Option NodeId}
    (h : start.AtHand ids a) (hsub : type?.toList ⊆ ids) (span : Span)
    {next : NodeId → Edit (Option NodeId)} {post : Option NodeId → Arena → Prop}
    (hnext : ∀ type a', start.AtHand (type :: ids) a' → After (next type) a' post) :
    After (match type? with
      | some type => pure type >>= next
      | none => Edit.leaf (.type .empty) span >>= next) a post := by
  cases type? with
  | none => exact (h.leaf _ _).bind hnext
  | some type => exact hnext type a (h.cons (h.lt type (hsub (by simp))))

private theorem detach_after {start : Arena} {ids : List NodeId} {type? : Option NodeId}
    (h : start.AtHand ids a) (hsub : type?.toList ⊆ ids) :
    After (type?.forM Edit.detach) a fun _ => start.AtHand ids := by
  cases type? with
  | none => exact after_pure_iff.mpr h
  | some type => exact h.detach (hsub (by simp))

theorem function_offers (h : a.Forest) (input output : Bool) :
    After (Lowering.function id input output) a a.Offers := by
  rw [Lowering.function, after_bind_iff, after_get_iff]
  split
  · exact after_pure_iff.mpr (.refl h (by simp))
  · next body others hbody =>
    dsimp only
    generalize hinput : (if input then (a.types id).head? else none) = inputType?
    generalize houtput : (if output then (if input then (a.types id).drop 1
      else a.types id).head? else none) = outputType?
    have htypes : ∀ type ∈ inputType?.toList ++ outputType?.toList, type ∈ a.types id := by
      simp only [List.mem_append, Option.mem_toList]
      rintro type (hmem | hmem)
      · rw [← hinput] at hmem
        split at hmem
        · exact List.mem_of_mem_head? hmem
        · cases hmem
      · rw [← houtput] at hmem
        split at hmem
        · split at hmem
          · exact List.mem_of_mem_drop (List.mem_of_mem_head? hmem)
          · exact List.mem_of_mem_head? hmem
        · cases hmem
    have hexpressions := h.expressions_lt id
    rw [hbody] at hexpressions
    have h₀ : a.AtHand (body :: (inputType?.toList ++ outputType?.toList)) a := by
      refine .refl h (List.forall_mem_cons.mpr ⟨hexpressions body List.mem_cons_self, ?_⟩)
      exact fun type htype => h.types_lt id type (htypes type htype)
    have hinputs : inputType?.toList ⊆ body :: (inputType?.toList ++ outputType?.toList) := by simp
    have houtputs : outputType?.toList ⊆ body :: (inputType?.toList ++ outputType?.toList) := by simp
    refine (h₀.detach List.mem_cons_self).bind fun _ a₁ h₁ => ?_
    refine (detach_after h₁ hinputs).bind fun _ a₂ h₂ => ?_
    refine (detach_after h₂ houtputs).bind fun _ a₃ h₃ => ?_
    refine orEmpty_after h₃ hinputs _ fun inputType a₄ h₄ => ?_
    have hpieces : ∀ t, Usable (inputType :: body :: (inputType?.toList ++ outputType?.toList))
        ([.token t, .node inputType] ++ outputType?.toList.map .node ++ [.node body]) := fun _ =>
      .append (.append (.token (.node (by simp) .nil)) (.map (List.Subset.trans houtputs
        (List.subset_cons_self _ _)))) (.node (by simp) .nil)
    refine (h₄.allocAt (hpieces _) _ _).bind fun handler a₅ h₅ => ?_
    refine (h₅.allocAt (.token (.node (by simp) (.token .nil))) _ _).bind fun code a₆ h₆ => ?_
    refine (h₆.allocAt (.token (.node (by simp) .nil)) _ _).bind fun object a₇ h₇ => ?_
    exact after_pure_iff.mpr h₇.given

theorem completeConditional_atHand (h : a.Forest) (hid : id.index < a.size) :
    After (Lowering.completeConditional id) a fun _ => a.AtHand [] := by
  have h₀ : a.AtHand [] a := .refl h (by simp)
  rw [Lowering.completeConditional, after_bind_iff, after_get_iff]
  split
  · refine (leaf_ends _ _).after.bind ?_
    rintro _ a₁ ⟨rfl, hsize, hparent, hchildren⟩
    have h₁ := h.congr hparent hchildren
    have hfree : a.node ⟨a.size⟩ = default := node_of_le le_rfl
    have hnew : ∀ ids, Usable [⟨a.size⟩] ids → ∀ piece, .node piece ∈ ids → piece = ⟨a.size⟩ :=
      fun _ husable _ hmem => by simpa using husable.mem hmem
    have husable : ∀ t, Usable [⟨a.size⟩] [.token t, .node ⟨a.size⟩] := fun _ =>
      .token (.node (by simp) .nil)
    refine (append_after h₁ (by omega) (fun piece hmem => ?_) fun piece hmem => ?_).mono
      fun _ a₂ h₂ => h₀.regrows ⟨h₂.forest, ?_⟩
    · rw [hnew _ (husable _) piece hmem, hsize]
      exact Nat.lt_succ_self _
    · rw [hnew _ (husable _) piece hmem]
      refine h₁.not_reflTransGen_of_childless ?_ ?_
      · rw [hchildren, children, hfree]
        rfl
      · rintro rfl
        exact Nat.lt_irrefl _ hid
    · have hle := h₂.size_le
      omega
  · exact after_pure_iff.mpr h₀

theorem checkStruct_atHand (h : a.Forest) (log : Log) :
    After (Placement.checkStruct log id) a fun _ => a.AtHand [] := by
  have hfields : ∀ (ids : List NodeId) (b : Arena) (log : Log) (seen : Placement.FieldsSeen)
      (index : Nat), a.AtHand ids b →
        After (Placement.checkFields log seen index ids) b fun _ => a.AtHand [] := by
    intro ids
    induction ids with
    | nil => exact fun b log seen index hb => after_pure_iff.mpr hb
    | cons id rest ih =>
      intro b log seen index hb
      rw [Placement.checkFields, after_bind_iff, after_get_iff]
      split
      · simp only [Edit.setForm, Edit.update, after_bind_iff, after_modify_iff, after_get_iff]
        exact ih _ _ _ _ ((hb.update (by simp) rfl rfl).sub (List.subset_cons_self _ _))
      · exact ih _ _ _ _ (hb.sub (List.subset_cons_self _ _))
  rw [Placement.checkStruct, after_bind_iff, after_get_iff]
  exact hfields _ a log _ 0 (.refl h (h.expressions_lt id))

private theorem checkPlacement_after (s : Lowering) :
    After (Lowering.checkPlacement id s) a fun _ a' => a' = a := by
  simp only [Lowering.checkPlacement, after_bind_apply_iff, after_get_inner_iff,
    after_modify_outer_iff]

private theorem freshName_after (s : Lowering) :
    After (Lowering.freshName s) a fun _ a' => a' = a := by
  simp only [Lowering.freshName, after_bind_apply_iff, after_get_outer_iff]
  cases s.temporaries.fresh? with
  | none => exact after_throw_apply
  | some given => simp only [after_bind_apply_iff, after_modify_outer_iff, after_pure_apply_iff]

theorem stepOf_offers (h : a.Forest) (hid : id.index < a.size) (form : ExprForm) (s : Lowering) :
    After (Lowering.stepOf id form s) a fun p => a.Offers p.1 := by
  have hplaced : Lowering.stepOf id form = (do Lowering.checkPlacement id; return none) →
      After (Lowering.stepOf id form s) a fun p => a.Offers p.1 := by
    intro hedit
    rw [hedit]
    simp only [after_bind_apply_iff, after_pure_apply_iff]
    refine (checkPlacement_after s).mono ?_
    rintro _ _ rfl
    exact .refl h (by simp)
  cases form with
  | unary op => exact after_lift_apply_iff.mpr (unary_offers h op)
  | binary op =>
    simp only [Lowering.stepOf]
    cases LogicOp.ofText? op with
    | none => exact after_lift_apply_iff.mpr (binary_offers h op)
    | some op => exact after_lift_apply_iff.mpr (logic_offers h op)
  | whileLoop =>
    simp only [Lowering.stepOf, after_bind_apply_iff, after_get_inner_iff]
    cases hoperands : Lowering.twoOperands? a id with
    | none => exact after_pure_apply_iff.mpr (.refl h (by simp))
    | some operands =>
      simp only [after_bind_apply_iff, after_lift_apply_iff, after_pure_apply_iff]
      refine (freshName_after s).mono ?_
      rintro ⟨name, _⟩ _ rfl
      exact whileLoop_offers h name (twoOperands?_lt h hoperands)
  | function input output => exact after_lift_apply_iff.mpr (function_offers h input output)
  | block => exact after_lift_apply_iff.mpr (collapse_offers h)
  | conditional =>
    simp only [Lowering.stepOf, after_bind_apply_iff, after_lift_apply_iff, after_pure_apply_iff]
    exact completeConditional_atHand h hid
  | struct =>
    simp only [Lowering.stepOf, after_bind_apply_iff, after_lift_apply_iff, after_get_outer_iff,
      after_modify_outer_iff, after_pure_apply_iff]
    exact checkStruct_atHand h s.log
  | _ => exact hplaced rfl

theorem step_offers (h : a.Forest) (hid : id.index < a.size) (s : Lowering) :
    After (Lowering.step id s) a fun p => a.Offers p.1 := by
  simp only [Lowering.step, after_bind_apply_iff, after_get_inner_iff]
  cases a.expr? id with
  | none => exact after_pure_apply_iff.mpr (.refl h (by simp))
  | some form =>
    simp only [after_bind_apply_iff, after_get_inner_iff]
    refine (stepOf_offers h hid form s).mono ?_
    rintro ⟨next, s'⟩ a' h'
    split
    · cases next with
      | none => exact after_pure_apply_iff.mpr h'
      | some new =>
        simp only [Option.forM, after_bind_apply_iff, after_lift_apply_iff, Edit.setGrouped,
          Edit.update, after_modify_iff, after_pure_apply_iff]
        exact Arena.AtHand.update h' (by simp) rfl rfl
    · exact after_pure_apply_iff.mpr h'

/-- A step may be made at any node. It never gives one that is above the node it was made at. -/
theorem step_not_above (h : a.Forest) (hid : id.index < a.size) (s : Lowering) :
    After (Lowering.step id s) a fun p a' =>
      ∀ new, p.1 = some new → ¬ Relation.TransGen a'.Up id new := by
  obtain ⟨T, path, _, _, rfl, hheld, hunder, _⟩ := h.exists_place hid
  refine (step_ends hheld hunder s).after.mono ?_
  rintro ⟨_ | next, s'⟩ a' hleft new hnew hreach
  · cases hnew
  cases hnew
  obtain ⟨T', size, _, hnext, n, hparent, _, hapart⟩ := hleft
  cases hnext
  -- what is above the node was there before the step and is as it was
  have hsame : ∀ entry ∈ path, a'.node entry.1 = a.node entry.1 := fun entry hentry =>
    hapart.keeps.node_eq entry.1 (hunder.above.lt hentry) (hunder.not_mem hentry)
  have habove : a'.Above (a'.parent T.id) path := by
    have htop : a'.node T.id = n := (hapart.held (.top T.id n) (by simp)).2
    rw [Arena.parent, htop, hparent]
    refine hunder.above.keep hapart.keeps.size_le fun entry hentry => ?_
    rw [Arena.form, Arena.parent, hsame entry hentry]
    exact ⟨rfl, rfl⟩
  obtain ⟨entry, hentry, heq⟩ := List.mem_map.mp (habove.mem_of_transGen hreach)
  have hlt := hunder.above.lt hentry
  have hnot := hunder.not_mem hentry
  rw [heq] at hlt hnot
  have hmem : (T'.inherit T.grouped).id ∈ Part.idsOf
      ({.tree none (T'.inherit T.grouped)} + {.top T.id n} : Multiset Part) := by
    simp [Part.ids, Tree.id_mem_ids]
  rcases hapart.owned _ hmem with hmem | hmem
  · exact hnot hmem
  · exact absurd hlt (Nat.not_lt_of_le hmem)

/-- Lowering whatever stands where a node stood leaves trees. -/
theorem replaceAllWithin_regrows {budget : Nat} (h : a.Forest) (hid : id.index < a.size)
    (s : Lowering) :
    After (Edit.replaceAllWithin Lowering.step budget id s) a fun _ a' => a.Regrows a' := by
  induction budget generalizing a id s with
  | zero => exact after_throw_apply
  | succ budget ih =>
    simp only [Edit.replaceAllWithin, after_bind_apply_iff]
    have hstep : After (Lowering.step id s) a fun p a' => a.Offers p.1 a' ∧
        ∀ new, p.1 = some new → ¬ Relation.TransGen a'.Up id new := fun p a' hrun =>
      ⟨step_offers h hid s p a' hrun, step_not_above h hid s p a' hrun⟩
    refine hstep.mono ?_
    rintro ⟨next, s₁⟩ a₁ ⟨hoffers, hnot⟩
    have h₁ := hoffers.forest
    have hid₁ := hid.trans_le hoffers.size_le
    split
    · next hsame =>
      simp only [after_bind_apply_iff, after_get_inner_iff, after_pure_apply_iff]
      refine (after_forIn_apply (fun a' => a₁.Regrows a') ?_ ⟨h₁, le_rfl⟩).mono
        fun _ _ h₂ => ⟨h₂.forest, hoffers.size_le.trans h₂.size_le⟩
      intro child hchild s₂ a₂ h₂
      simp only [after_bind_apply_iff, after_pure_apply_iff]
      refine (ih h₂.forest ((h₁.child_lt hchild).trans_le h₂.size_le) s₂).mono fun _ _ h₃ => ?_
      exact ⟨trivial, h₂.trans h₃⟩
    · next hne =>
      cases next with
      | none => exact absurd rfl hne
      | some new =>
        simp only [Option.getD_some, after_bind_apply_iff, after_lift_apply_iff]
        have hnew := hoffers.lt new (by simp)
        refine (h₁.replace_ends hid₁ hnew (hnot new rfl)).after.mono ?_
        rintro _ a₂ ⟨h₂, hsize⟩
        refine (ih h₂ (by rwa [hsize]) s₁).mono fun _ _ h₃ => ⟨h₃.forest, ?_⟩
        exact (hoffers.size_le.trans_eq hsize.symm).trans h₃.size_le

/-- Lowering any tree of an arena ends, and leaves trees. -/
theorem Arena.Forest.lower_ends (h : a.Forest) (hid : id.index < a.size) (stem : String) (log : Log) :
    Ends (lower stem id log) a fun _ a' => a'.Forest := by
  obtain ⟨T, path, before, after, rfl, hheld, hunder, hsite⟩ := h.exists_place hid
  obtain ⟨R, s', a', hrun, _⟩ := lower_lowers hheld hunder hsite stem log
  have hafter : After (lower stem T.id log) a fun _ a' => a'.Forest := by
    simp only [lower, Edit.replaceAll, after_bind_iff, after_get_iff, after_bind_apply_iff,
      after_get_inner_iff, after_pure_iff]
    exact (replaceAllWithin_regrows h hid _).mono fun _ _ h' => h'.forest
  exact ends_iff.mpr ⟨_, a', hrun, hafter _ _ hrun⟩

/-- The changes that an arena is built with make trees, and lowering any of these trees goes through
and leaves trees again. -/
theorem Arena.Built.keeps_forest (h : a.Built) : a.Forest ∧ ∀ (stem : String) (root : NodeId)
    (log : Log), root.index < a.size → Ends (lower stem root log) a fun _ a' => a'.Forest :=
  ⟨h.forest, fun stem _ log hroot => h.forest.lower_ends hroot stem log⟩

end

/-- A loop, made of its parts. -/
theorem built_loopArena : loopArena.Built := by
  have h₁ : Arena.Built ⟨#[{ form := .expr (.reference "go"), span := default }]⟩ :=
    @Arena.Built.step _ _ (.leaf (.expr (.reference "go")) default) .empty trivial rfl
  have h₂ : Arena.Built ⟨#[{ form := .expr (.reference "go"), span := default },
      { form := .expr (.reference "_0"), span := default }]⟩ :=
    @Arena.Built.step _ _ (.leaf (.expr (.reference "_0")) default) h₁ trivial rfl
  have h₃ : Arena.Built ⟨#[{ form := .expr (.reference "go"), span := default },
      { form := .expr (.reference "_0"), span := default, parent := some ⟨2⟩ },
      { form := .expr (.unary "-"), span := default, children := [⟨1⟩] }]⟩ :=
    @Arena.Built.step _ _ (.allocAt (.expr (.unary "-")) default [.node ⟨1⟩]) h₂
      ⟨by simp [Arena.size], by decide, by simp; rfl⟩ rfl
  exact @Arena.Built.step _ _ (.allocAt (.expr .whileLoop) default [.node ⟨0⟩, .node ⟨2⟩]) h₃
    ⟨by simp [Arena.size], by decide, by simp; exact ⟨rfl, rfl⟩⟩ rfl

theorem keeps_forest_loopArena : loopArena.Built ∧ loopArena.Forest ∧
    ∀ stem log, Ends (lower stem loopTree.id log) loopArena fun _ a' => a'.Forest := by
  obtain ⟨hforest, hlower⟩ := Arena.Built.keeps_forest built_loopArena
  exact ⟨built_loopArena, hforest, fun stem log => hlower stem loopTree.id log (by decide)⟩

end MessageLang
