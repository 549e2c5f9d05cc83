import MessageLang.Proofs.Typing.Declaring
import MessageLang.Proofs.Typing.Resolving

namespace MessageLang

open MessageLang.Tree (Denotes Direct Visible)

namespace Pass

section

variable {a : Arena} {R X Y N D : Tree} {base : Nat} {p : Pass} {path path' : List Tree}
  {type : TypeId}

/-- Noting the type of an expression elsewhere. -/
theorem Covered.noted (h : p.Covered a R base N) (hp : p.Sound) (hnodup : R.ids.Nodup)
    (hX : X.id ∉ N.ids) :
    Covered a R base { p with types := (X.id, type) :: p.types } N := by
  intro path' Y hY hmem
  have hsub : Y.ids ⊆ N.ids := by
    rcases List.mem_cons.mp hmem with rfl | hmem
    · exact fun _ hx => hx
    · exact hY.ids_subset_of_mem hmem
  have hlookup : ∀ x ∈ Y.ids, ((X.id, type) :: p.types).lookup x = p.types.lookup x := by
    intro x hx
    refine lookup_cons_of_ne ?_
    rintro rfl
    exact hX (hsub hx)
  refine (h path' Y hY hmem).transfer (hlookup _ Y.id_mem_ids) (fun found hfound hmade => ?_)
    (fun _ _ => rfl) (fun _ _ h => h) fun _ h => h
  exact hmade.keep hp.space.table (.of_eq rfl rfl) (hY.nodup hnodup) hp.types_lt
    (hp.types_lt _ (mem_of_lookup_eq_some hfound)) fun x hx _ => hlookup x hx

/-- Noting the type of an expression that stands in no value of a local that can be seen. -/
theorem Stands.noted (h : p.Stands a R base path) (hnodup : R.ids.Nodup) (hY : R.Within path Y)
    (hX : R.Within path' X) (hoff : ∀ D, Visible path D → D ∉ path → D ∉ path')
    (hlt : type.index < p.table.size) :
    Stands a R base { p with types := (X.id, type) :: p.types } path where
  sound := { h.sound with types_lt := List.forall_mem_cons.mpr ⟨hlt, h.sound.types_lt⟩ }
  resolving_lt := h.resolving_lt
  base_le := h.base_le
  flagged := h.flagged
  blamed := h.blamed
  frames := h.frames.keep (Nat.le_refl _) (fun _ _ => rfl) (fun _ _ => rfl)
    fun _ _ _ hfor => ⟨hfor.lt, hfor.definition_eq, hfor.value_eq, hfor.scope_eq, hfor.declared_iff⟩
  around := h.around
  found D id found hD hcurrent hfound := by
    obtain ⟨hgrounded, hcovered⟩ := h.found D id found hD hcurrent hfound
    refine ⟨hgrounded, fun hnot V hV => (hcovered hnot V hV).noted h.sound hnodup fun hid => ?_⟩
    obtain ⟨_, _, _, _, _, _, _, _, hwithin⟩ := hD.exists_within hY
    refine hoff D hD (fun hmem => ?_) (hX.mem_path_of_mem_ids hwithin hnodup hV hid)
    obtain ⟨other, hother, hsame⟩ := h.around D hD hmem
    cases hcurrent.symm.trans hsame
    exact hnot hother
  leads := h.leads

end

/-- Some items of a block have been typed, and some locals of the next one. -/
structure Runs (a : Arena) (R : Tree) (base : Nat) (p : Pass) (path : List Tree) (N : Tree)
    (items known : List Tree) (q : Pass) : Prop where
  grows : p.Grows path (p.Touches path [N]) q
  stands : q.Stands a R base (N :: path)
  resolving_eq : q.resolving = p.resolving
  fresh : ∀ D ∈ N.locals, ∀ id, q.current? D = some id → p.placeholders.size ≤ id.index
  covered : ∀ W ∈ items ++ known, q.Covered a R base W
  escapes_eq : R.ExitFree → q.escapes = p.escapes ++ (items.flatMap Tree.returns).map q.exitOf
  breaks_eq : R.ExitFree → q.breaks = p.breaks ++ (items.flatMap Tree.breaks).map q.exitType

section

variable {a : Arena} {R N G D E W X : Tree} {base : Nat} {p q q' : Pass}
  {path path' items known more roots : List Tree} {entered : List NodeId}
  {compute : NodeId → Typing TypeId} {region : NodeId → Prop} {type : TypeId} {id : PlaceholderId}
  {x : NodeId}

theorem Declares.runs (h : p.Declares a R base path N N.locals q)
    (henter : p.Entering a R base path N entered compute) (hform : N.form = .expr .block) :
    p.Runs a R base path N [] [] q where
  grows := h.grows
  stands := h.stands henter hform
  resolving_eq := h.resolving_eq
  fresh D hD id hid := (h.fresh D hD id hid).1
  covered _ h := nomatch h
  escapes_eq _ := by simp [h.escapes_eq]
  breaks_eq _ := by simp [h.breaks_eq]

/-- A part of what is settled is settled. -/
theorem Covered.of_mem_expressions (h : q.Covered a R base N) (hN : R.Within path N)
    (hnodup : R.ids.Nodup) (hG : G ∈ N.expressions) : q.Covered a R base G := fun path' X hX hmem =>
  h path' X hX (List.mem_cons_of_mem _ (hX.mem_of_mem_child hN hnodup hG hmem))

/-- A local that is settled is not waiting for its type. -/
theorem Covered.not_waiting (h : q.Covered a R base D) (hN : R.Within path N) (hlocal : D ∈ N.locals)
    (hcurrent : q.current? D = some id) : ¬ q.Waiting id := by
  obtain ⟨-, G, hG, hgroup, hD⟩ := Tree.mem_locals_iff.mp hlocal
  obtain ⟨type, -, -, hagrees⟩ := h _ D ((hN.child hG).child hD) List.mem_cons_self
  obtain ⟨other, hother, hanswers, -⟩ :=
    hagrees D (.inr ⟨rfl, G, N, path, rfl, hgroup, hlocal⟩)
  cases hcurrent.symm.trans hother
  exact hanswers.not_waiting

namespace Runs

variable (henter : p.Entering a R base path N entered compute)
include henter

/-- What is touched while a block is being typed is touched by typing the block. -/
theorem touches (h : p.Runs a R base path N items known q) (hroots : ∀ C ∈ roots, C ∈ N.expressions)
    (hx : q.Touches (N :: path) roots x) : p.Touches path [N] x :=
  h.grows.touches_of_children (fun _ => henter.clear) hroots hx

/-- Going on in a block, apart from what has been typed of it. -/
theorem visits (h : p.Runs a R base path N items known q)
    (h' : q.Visits a R base (N :: path) region more q') (hregion : ∀ x, region x → p.Touches path [N] x)
    (hspares : Spares a R q (N :: path) region) (hitems : ∀ W ∈ items, W ∈ N.expressions)
    (hapart : ∀ W ∈ items ++ known, ∀ x ∈ W.ids, ¬ region x) :
    p.Runs a R base path N (items ++ more) known q' := by
  have hsame : ∀ W ∈ items, ∀ x ∈ W.ids, q'.types.lookup x = q.types.lookup x := fun W hW x hx =>
    h'.advances.types_eq x (hapart W (List.mem_append_left _ hW) x hx)
  have hdone : ∀ W ∈ items, W.ids.Nodup := fun W hW =>
    Tree.nodup_of_mem_children henter.nodup (Tree.mem_children_of_mem_expressions (hitems W hW))
  have hcurrent : ∀ D, Visible (N :: path) D → q'.current? D = q.current? D := fun D hD =>
    h'.advances.current?_eq (hspares.visible D hD)
  refine ⟨?_, h'.stands, h'.advances.resolving_eq.trans h.resolving_eq, fun D hD id hid => ?_,
    fun W hW => ?_, fun hfree => ?_, fun hfree => ?_⟩
  · refine h.grows.trans_inner (h'.advances.toGrows.mono (fun _ h => h) hregion)
      (fun _ => henter.clear) fun id D hid ⟨B, hB, hD⟩ hid' => ?_
    rcases List.mem_cons.mp hB with rfl | hB
    · exact absurd hid (Nat.not_lt.mpr (h.fresh D hD id hid'))
    · exact ⟨B, hB, hD⟩
  · exact h.fresh D hD id ((hcurrent D ⟨N, List.mem_cons_self, hD⟩).symm.trans hid)
  · have hkeep : ∀ W ∈ items ++ known, q'.Covered a R base W := fun W hW =>
      h'.advances.covered h.stands.toFair henter.ready.nodup hspares (hapart W hW) (h.covered W hW)
    simp only [List.mem_append] at hW hkeep
    rcases hW with (hW | hW) | hW
    · exact hkeep W (.inl hW)
    · exact h'.covered W hW
    · exact hkeep W (.inr hW)
  · rw [h'.escapes_eq hfree, h.escapes_eq hfree, List.flatMap_append, List.map_append,
      List.append_assoc]
    congr 2
    refine List.map_congr_left fun X hX => Prod.ext rfl ?_
    exact (exitType_eq_of_mem_flatMap hdone hsame hX).symm
  · rw [h'.breaks_eq hfree, h.breaks_eq hfree, List.flatMap_append, List.map_append,
      List.append_assoc]
    congr 2
    exact List.map_congr_left fun X hX => (exitType_eq_of_mem_flatMap hdone hsame hX).symm

theorem quiet (h : p.Runs a R base path N items known q) (hquiet : q.Quiet q')
    (hitems : ∀ W ∈ items, W ∈ N.expressions) : p.Runs a R base path N items known q' := by
  simpa using h.visits henter (hquiet.visits h.stands henter.ready.nodup fun _ => False)
    (fun _ => False.elim) (spares_empty a R q (N :: path)) hitems fun _ _ _ _ h => h

/-- Noting the type of an expression of the block. -/
theorem noted (h : p.Runs a R base path N items known q) (hG : R.Within (N :: path) G)
    (hX : R.Within path' X) (hmem : X.id ∈ N.ids)
    (hoff : ∀ D, Visible (N :: path) D → D ∉ N :: path → D ∉ path')
    (hitems : ∀ W ∈ items, W ∈ N.expressions) (hne : ∀ W ∈ items ++ known, X.id ∉ W.ids)
    (hlt : type.index < q.table.size) :
    p.Runs a R base path N items known { q with types := (X.id, type) :: q.types } := by
  have hlookup : ∀ x, x ≠ X.id → ((X.id, type) :: q.types).lookup x = q.types.lookup x :=
    fun _ hx => lookup_cons_of_ne hx
  have hsame : ∀ W ∈ items, ∀ x ∈ W.ids,
      ((X.id, type) :: q.types).lookup x = q.types.lookup x := fun W hW x hx => hlookup x fun heq =>
    hne W (List.mem_append_left _ hW) (heq ▸ hx)
  have hdone : ∀ W ∈ items, W.ids.Nodup := fun W hW =>
    Tree.nodup_of_mem_children henter.nodup (Tree.mem_children_of_mem_expressions (hitems W hW))
  have hexitType : ∀ {stops exit}, ∀ Y ∈ items.flatMap (Tree.exits stops exit),
      exitType { q with types := (X.id, type) :: q.types } Y = q.exitType Y := fun _ hY =>
    exitType_eq_of_mem_flatMap hdone hsame hY
  refine ⟨{ h.grows with types_eq := fun x hx => (hlookup x ?_).trans (h.grows.types_eq x hx) },
    h.stands.noted henter.ready.nodup hG hX hoff hlt, h.resolving_eq, h.fresh, fun W hW => ?_,
    fun hfree => (h.escapes_eq hfree).trans ?_, fun hfree => (h.breaks_eq hfree).trans ?_⟩
  · rintro rfl
    exact hx (.inl ⟨N, List.mem_singleton_self N, hmem⟩)
  · exact (h.covered W hW).noted h.stands.sound henter.ready.nodup (hne W hW)
  · congr 1
    exact List.map_congr_left fun Y hY => Prod.ext rfl (hexitType Y hY).symm
  · congr 1
    exact List.map_congr_left fun Y hY => (hexitType Y hY).symm

/-- What has been typed of a block stands in nothing that is left to do. -/
theorem apart (h : p.Runs a R base path N items known q) (hW : W ∈ items) (hmem : W ∈ N.expressions)
    (hroots : ∀ C ∈ roots, C ∈ N.expressions ∧ C ≠ W) (hx : x ∈ W.ids) :
    ¬ q.Touches (N :: path) roots x := by
  refine h.stands.apart henter.ready.nodup henter.within henter.direct hmem hroots ?_ hx
  intro D hlocal hD id hcurrent
  have hcovered := (h.covered W (List.mem_append_left _ hW)).of_mem_expressions
    (henter.within.child hmem) henter.ready.nodup hD
  exact hcovered.not_waiting henter.within hlocal hcurrent

/-- Nor does a local whose type has been found have to do with those that are still to be found. -/
theorem apart_local (h : p.Runs a R base path N items known q) (hE : E ∈ known)
    (hlocal : E ∈ N.locals) (hx : x ∈ E.ids) : ¬ q.Touches (N :: path) [] x := by
  obtain ⟨-, G, hG, -, hmem⟩ := Tree.mem_locals_iff.mp hlocal
  have hwithin := henter.within.child hG
  have hcovered := h.covered E (List.mem_append_right _ hE)
  rintro (⟨_, hM, -⟩ | ⟨D, id, V, hD, hcurrent, hwaiting, hV, hxV⟩)
  · cases hM
  · have hvisible : Visible (N :: path) E := ⟨N, List.mem_cons_self, hlocal⟩
    refine hD.disjoint hvisible hwithin henter.ready
      (h.stands.not_mem_of_waiting hD hcurrent hwaiting) (fun hmem' => ?_) ?_
      (Tree.ids_subset_of_mem_expressions hV hxV) hx
    · exact (hwithin.child hmem).not_mem_path henter.ready.nodup (List.mem_cons_of_mem _ hmem')
    · rintro rfl
      exact hcovered.not_waiting henter.within hlocal hcurrent hwaiting

/-- The definition of a local is settled with its type and its value. -/
theorem covered_local (h : p.Runs a R base path N items known q) (hlocal : D ∈ N.locals)
    (hlookup : q.types.lookup D.id = some type) (hcurrent : q.current? D = some id)
    (hanswers : q.Answers id type) (hgrounded : Grounded a R (q.Safe a base) D.id) :
    q.Covered a R base D := by
  obtain ⟨-, G, hG, hgroup, hD⟩ := Tree.mem_locals_iff.mp hlocal
  have hwithin := henter.within.child hG
  obtain ⟨name, mutable, hform⟩ :=
    Tree.exists_form_eq_of_mem_group (hwithin.laidOut henter.ready.laidOut) hgroup hD
  have hnot : id ∉ q.resolving := fun hmem => by
    rw [h.resolving_eq] at hmem
    exact absurd (henter.stands.resolving_lt id hmem) (Nat.not_lt.mpr (h.fresh D hlocal id hcurrent))
  have hfound : (q.placeholder id).result = some type :=
    hanswers.resolve_right fun hopen => hnot hopen.2.1
  intro path' X hX hmem
  rcases List.mem_cons.mp hmem with rfl | hmem
  · refine ⟨type, hlookup, fun _ body _ => ?_, fun E hE => ?_⟩
    · rw [hform]
      exact ⟨nofun, nofun⟩
    · rcases hE with ⟨name', hname, -⟩ | ⟨rfl, -⟩
      · rw [Tree.usedName?, hform] at hname
        cases hname
      · exact ⟨id, hcurrent, hanswers, hgrounded⟩
  · obtain ⟨V, hV, hmem'⟩ := hX.exists_child hmem
    exact (h.stands.found D id type ⟨N, List.mem_cons_self, hlocal⟩ hcurrent hfound).2 hnot V hV
      path' X hX hmem'

/-- Noting the type that was found for one more local of a group. -/
theorem noted_local (h : p.Runs a R base path N items known q) (hform : N.form = .expr .block)
    (hG : G ∈ N.expressions) (hgroup : G.form = .expr .locals) (hD : D ∈ G.expressions)
    (hitems : ∀ W ∈ items, W ∈ N.expressions ∧ G ≠ W)
    (hknown : ∀ E ∈ known, E ∈ G.expressions ∧ D ≠ E) (hcurrent : q.current? D = some id)
    (hanswers : q.Answers id type) (hgrounded : Grounded a R (q.Safe a base) D.id) :
    p.Runs a R base path N items (known ++ [D]) { q with types := (D.id, type) :: q.types } := by
  have hwithin := henter.within.child hG
  have hmemG : D.id ∈ G.ids := Tree.ids_subset_of_mem_expressions hD D.id_mem_ids
  have hnodup := Tree.nodup_of_mem_children henter.nodup (Tree.mem_children_of_mem_expressions hG)
  have hnoted : p.Runs a R base path N items known { q with types := (D.id, type) :: q.types } := by
    refine h.noted henter hwithin (hwithin.child hD) (Tree.ids_subset_of_mem_expressions hG hmemG)
      (fun E hE hoff hmem => ?_) (fun W hW => (hitems W hW).1) (fun W hW hid => ?_)
      (hanswers.lt h.stands.sound)
    · -- a group is no local itself
      rcases List.mem_cons.mp hmem with rfl | hmem
      · obtain ⟨name, mutable, hform'⟩ := hE.exists_form_eq hwithin henter.ready.laidOut
        cases hgroup.symm.trans hform'
      · exact hoff hmem
    · rcases List.mem_append.mp hW with hW | hW
      · exact (hitems W hW).2 (Tree.eq_of_mem_ids henter.nodup
          (Tree.mem_children_of_mem_expressions hG)
          (Tree.mem_children_of_mem_expressions (hitems W hW).1) hmemG hid)
      · exact (hknown W hW).2 (Tree.eq_of_mem_ids hnodup (Tree.mem_children_of_mem_expressions hD)
          (Tree.mem_children_of_mem_expressions (hknown W hW).1) D.id_mem_ids hid)
  refine { hnoted with covered := fun W hW => ?_ }
  rw [← List.append_assoc] at hW
  rcases List.mem_append.mp hW with hW | hW
  · exact hnoted.covered W hW
  · rw [List.mem_singleton.mp hW]
    exact hnoted.covered_local henter (Tree.mem_locals_iff.mpr ⟨hform, G, hG, hgroup, hD⟩)
      List.lookup_cons_self hcurrent hanswers hgrounded

/-- A group is settled once its locals are. Nothing leaves it where no value of a local is left. -/
theorem group (h : p.Runs a R base path N items G.expressions q) (hG : G ∈ N.expressions)
    (hform : N.form = .expr .block) (hgroup : G.form = .expr .locals)
    (hlookup : q.types.lookup G.id = some type) :
    p.Runs a R base path N (items ++ [G]) [] q := by
  have hwithin := henter.within.child hG
  have hcovered : q.Covered a R base G := by
    intro path' X hX hmem
    rcases List.mem_cons.mp hmem with rfl | hmem
    · refine ⟨type, hlookup, fun _ body _ => ?_, fun E hE => ?_⟩
      · rw [hgroup]
        exact ⟨nofun, nofun⟩
      · rcases hE with ⟨name, hname, -⟩ | ⟨-, G', B, rest, rfl, hgroup', -⟩
        · rw [Tree.usedName?, hgroup] at hname
          cases hname
        · cases (hX.unique hwithin henter.ready.nodup rfl).1
          cases hform.symm.trans hgroup'
    · obtain ⟨D, hD, hmem'⟩ := hX.exists_child hmem
      exact h.covered D (List.mem_append_right _ hD) path' X hX hmem'
  have hexits : R.ExitFree → G.returns = [] ∧ G.breaks = [] := by
    intro hfree
    rw [Tree.returns, Tree.breaks, Tree.exits_eq_flatMap hgroup rfl (by simp),
      Tree.exits_eq_flatMap hgroup rfl (by simp), List.flatMap_eq_nil_iff, List.flatMap_eq_nil_iff]
    rw [← forall₂_and]
    intro D hD
    obtain ⟨name, mutable, hlocal⟩ :=
      Tree.exists_form_eq_of_mem_group (hwithin.laidOut henter.ready.laidOut) hgroup hD
    rw [Tree.exits_eq_flatMap hlocal rfl (by simp), Tree.exits_eq_flatMap hlocal rfl (by simp),
      List.flatMap_eq_nil_iff, List.flatMap_eq_nil_iff]
    exact ⟨fun V hV => (hfree _ G D (hwithin.child hD) hgroup V hV).1,
      fun V hV => (hfree _ G D (hwithin.child hD) hgroup V hV).2⟩
  refine { h with
    covered := fun W hW => ?_
    escapes_eq := fun hfree => ?_
    breaks_eq := fun hfree => ?_ }
  · rw [List.append_nil] at hW
    rcases List.mem_append.mp hW with hW | hW
    · exact h.covered W (List.mem_append_left _ hW)
    · rw [List.mem_singleton.mp hW]
      exact hcovered
  · rw [List.flatMap_append, List.flatMap_singleton, (hexits hfree).1, List.append_nil]
    exact h.escapes_eq hfree
  · rw [List.flatMap_append, List.flatMap_singleton, (hexits hfree).2, List.append_nil]
    exact h.breaks_eq hfree

end Runs

end

end Pass

namespace Typing

open Pass

variable {a : Arena} {R N G D : Tree} {base : Nat} {p q : Pass} {path items known rest : List Tree}
  {entered : List NodeId} {compute : NodeId → Typing TypeId}

section

variable (h : p.Entering a R base path N entered compute) (hform : N.form = .expr .block)
include h hform

omit hform in
/-- Going on to the value of a local does not lead back to where typing is. -/
theorem not_touches_of_runs (hruns : p.Runs a R base path N items known q) :
    ∀ x ∈ N.id :: entered, ¬ q.Touches (N :: path) [] x :=
  hruns.grows.not_touches_of_children h.stands hruns.stands h.ready h.within h.direct h.fresh
    fun _ hM => nomatch hM

omit hform in
/-- What can be reached from where typing is can be reached from the value of a local of the block. -/
theorem leads_local (hG : G ∈ N.expressions) (hD : D ∈ G.expressions) :
    ∀ path' x, R.Within path' D → Leads a R (N :: path) x → Leads a R (D :: path') x := by
  intro path' x hpath' hleads
  rw [(hpath'.unique ((h.within.child hG).child hD) h.ready.nodup rfl).1]
  exact hleads.mono fun A hA => List.mem_cons_of_mem _ (List.mem_cons_of_mem _ hA)

/-- Finding the type of one more local of a group. -/
theorem defineLocal_ends (hruns : p.Runs a R base path N items known q) (hG : G ∈ N.expressions)
    (hgroup : G.form = .expr .locals) (hD : D ∈ G.expressions)
    (hitems : ∀ W ∈ items, W ∈ N.expressions ∧ G ≠ W)
    (hknown : ∀ E ∈ known, E ∈ G.expressions ∧ D ≠ E) :
    Ends (defineLocal a compute D.id) q fun _ q' => p.Runs a R base path N items (known ++ [D]) q' := by
  have hlocal : ∀ E ∈ G.expressions, E ∈ N.locals := fun E hE =>
    Tree.mem_locals_iff.mpr ⟨hform, G, hG, hgroup, hE⟩
  have hwithin := h.within.child hG
  have hDwithin := hwithin.child hD
  have hvisible : Visible (N :: path) D := ⟨N, List.mem_cons_self, hlocal D hD⟩
  obtain ⟨id, hcurrent, -⟩ := hruns.stands.frames.exists_isFor (hlocal D hD)
  have hspares : Spares a R q (N :: path) (q.Touches (N :: path) []) :=
    hruns.stands.spares h.ready hwithin fun _ hM => nomatch hM
  rw [defineLocal, ends_bind_iff, ends_get_iff]
  have hlookup : q.ofLocal.lookup D.id = some id := hcurrent
  rw [hlookup]
  dsimp only
  rw [ends_bind_iff]
  refine (hruns.stands.resolve_ends h.ready hwithin h.computes (not_touches_of_runs h hruns) hvisible
    hcurrent (leads_local h hG hD) fun hmem => ?_).mono ?_
  · rw [hruns.resolving_eq] at hmem
    exact absurd (h.stands.resolving_lt id hmem)
      (Nat.not_lt.mpr (hruns.fresh D (hlocal D hD) id hcurrent))
  · rintro type q₁ ⟨hvisits, hanswers, hgrounded⟩
    have hruns₁ : p.Runs a R base path N items known q₁ := by
      simpa using hruns.visits h hvisits (fun x => hruns.touches h fun _ hM => nomatch hM) hspares
        (fun W hW => (hitems W hW).1) fun W hW x hx => by
          rcases List.mem_append.mp hW with hW | hW
          · exact hruns.apart h hW (hitems W hW).1 (fun _ hM => nomatch hM) hx
          · exact hruns.apart_local h hW (hlocal W (hknown W hW).1) hx
    rw [setType, ends_modify_iff]
    exact hruns₁.noted_local h hform hG hgroup hD hitems hknown
      ((hvisits.advances.current?_eq (hspares.visible D hvisible)).trans hcurrent) hanswers hgrounded

/-- Finding the types of the locals of a group, one after the other, and what each of them keeps
besides. -/
theorem defineLocals_ends (also : Pass → Prop) (hruns : p.Runs a R base path N items [] q)
    (hsplit : N.expressions = items ++ G :: rest) (hgroup : G.form = .expr .locals) (hstart : also q)
    (hstep : ∀ known D id q, p.Runs a R base path N items known q → also q → D ∈ G.expressions →
      q.ofLocal.lookup D.id = some id →
        After (defineLocal a compute D.id) q fun _ q' => also q') :
    Ends (defineLocals a compute G.id) q fun _ q' =>
      p.Runs a R base path N items G.expressions q' ∧ also q' := by
  have hG : G ∈ N.expressions := by simp [hsplit]
  have hwithin := h.within.child hG
  let inv (known : List Tree) (q : Pass) : Prop := p.Runs a R base path N items known q ∧ also q
  have hbegin : inv [] q := ⟨hruns, hstart⟩
  rw [defineLocals_eq, h.ready.expressions_eq hwithin]
  change Ends (forM (G.expressions.map Tree.id) _) q _
  rw [List.forM_map]
  refine ends_forM_of_split (fun known D rest hmembers q₁ hinv => ?_) hbegin
  obtain ⟨hruns₁, halso⟩ := hinv
  have hD : D ∈ G.expressions := by simp [hmembers]
  obtain ⟨id, hcurrent, -⟩ := hruns₁.stands.frames.exists_isFor
    (Tree.mem_locals_iff.mpr ⟨hform, G, hG, hgroup, hD⟩)
  exact (defineLocal_ends h hform hruns₁ hG hgroup hD (fun W hW => ⟨by simp [hsplit, hW],
    Tree.ne_of_expressions_eq h.nodup hsplit hW⟩) fun E hE => ⟨by simp [hmembers, hE],
      Tree.ne_of_expressions_eq (hwithin.nodup h.ready.nodup) hmembers hE⟩).and_after
        (hstep known D id q₁ hruns₁ halso hD hcurrent)

omit hform in
theorem typeItem_eq_of_group (hG : G ∈ N.expressions) (hgroup : G.form = .expr .locals) :
    typeItem a compute G.id = (do
      defineLocals a compute G.id
      setType G.id .nothing
      return .nothing) :=
  if_pos ((h.ready.expr?_eq_some_iff (h.within.child hG)).mpr hgroup)

omit hform in
theorem typeItem_eq_of_ne (hG : G ∈ N.expressions) (hgroup : G.form ≠ .expr .locals) :
    typeItem a compute G.id = compute G.id :=
  if_neg fun hexpr => hgroup ((h.ready.expr?_eq_some_iff (h.within.child hG)).mp hexpr)

/-- A group of locals among the items of a block. -/
theorem group_ends (hruns : p.Runs a R base path N items [] q) (hsplit : N.expressions = items ++ G :: rest)
    (hgroup : G.form = .expr .locals) :
    Ends (typeItem a compute G.id) q fun type q' =>
      p.Runs a R base path N (items ++ [G]) [] q' ∧ type.index < q'.table.size := by
  have hG : G ∈ N.expressions := by simp [hsplit]
  have hwithin := h.within.child hG
  have hitems : ∀ W ∈ items, W ∈ N.expressions ∧ G ≠ W := fun W hW =>
    ⟨by simp [hsplit, hW], Tree.ne_of_expressions_eq h.nodup hsplit hW⟩
  have hnodup := hwithin.nodup h.ready.nodup
  rw [typeItem_eq_of_group h hG hgroup, ends_bind_iff]
  refine (defineLocals_ends h hform (fun _ => True) hruns hsplit hgroup trivial
    fun _ _ _ _ _ _ _ _ _ _ _ => trivial).mono ?_
  rintro _ q₁ ⟨hruns₁, -⟩
  have hruns₂ : p.Runs a R base path N items G.expressions
      { q₁ with types := (G.id, .nothing) :: q₁.types } := by
    refine hruns₁.noted h hwithin hwithin ?_ (fun _ _ hoff => hoff) (fun W hW => (hitems W hW).1)
      (fun W hW hid => ?_) (hruns₁.stands.sound.lt_of_builtin (by decide))
    · exact Tree.ids_subset_of_mem_expressions hG G.id_mem_ids
    · rcases List.mem_append.mp hW with hW | hW
      · exact (hitems W hW).2 (Tree.eq_of_mem_ids h.nodup
          (Tree.mem_children_of_mem_expressions hG)
          (Tree.mem_children_of_mem_expressions (hitems W hW).1) G.id_mem_ids hid)
      · exact Tree.id_not_mem_of_mem_expressions hnodup hW hid
  simp only [setType, ends_bind_iff, ends_modify_iff, ends_pure_iff]
  exact ⟨hruns₂.group h hG hform hgroup List.lookup_cons_self,
    hruns₂.stands.sound.lt_of_builtin (by decide)⟩

omit hform in
/-- Any other item of a block. -/
theorem item_ends {C : Tree} (hruns : p.Runs a R base path N items [] q)
    (hsplit : N.expressions = items ++ C :: rest) (hgroup : C.form ≠ .expr .locals) :
    Ends (typeItem a compute C.id) q fun type q' =>
      p.Runs a R base path N (items ++ [C]) [] q' ∧ type.index < q'.table.size := by
  have hC : C ∈ N.expressions := by simp [hsplit]
  rw [typeItem_eq_of_ne h hC hgroup]
  have hroots : ∀ M ∈ [C], M ∈ N.expressions := fun M hM => List.mem_singleton.mp hM ▸ hC
  have hwithin := h.within.child hC
  have hdirect : Direct (N :: path) C := by
    refine ⟨hgroup, fun G hG => ?_⟩
    cases hG
    exact h.direct.1
  have hspares : Spares a R q (N :: path) (q.Touches (N :: path) [C]) := by
    refine hruns.stands.spares h.ready hwithin fun M hM => ?_
    rw [List.mem_singleton.mp hM]
    exact ⟨hwithin, hdirect⟩
  refine (h.computes q (N :: path) C hruns.stands hwithin hdirect
    (hruns.grows.not_touches_of_children h.stands hruns.stands h.ready h.within h.direct h.fresh
      hroots)).mono ?_
  rintro type q' ⟨hvisits, hlookup⟩
  refine ⟨hruns.visits h hvisits (fun x => hruns.touches h hroots) hspares
    (fun W hW => by simp [hsplit, hW]) fun W hW x hx => ?_,
    hvisits.stands.sound.types_lt _ (mem_of_lookup_eq_some hlookup)⟩
  rw [List.append_nil] at hW
  refine hruns.apart h hW (by simp [hsplit, hW]) (fun M hM => ?_) hx
  rw [List.mem_singleton.mp hM]
  exact ⟨hC, Tree.ne_of_expressions_eq h.nodup hsplit hW⟩

/-- One more item of a block, be it a group of locals or not. -/
theorem typeItem_ends {C : Tree} (hruns : p.Runs a R base path N items [] q)
    (hsplit : N.expressions = items ++ C :: rest) :
    Ends (typeItem a compute C.id) q fun type q' =>
      p.Runs a R base path N (items ++ [C]) [] q' ∧ type.index < q'.table.size := by
  by_cases hgroup : C.form = .expr .locals
  · exact group_ends h hform hruns hsplit hgroup
  · exact item_ends h hruns hsplit hgroup

omit hform in
theorem reportUnreachable_ends {options : TypingOptions} {C : Tree} (reach : Reach)
    (hruns : p.Runs a R base path N items [] q) (hsplit : N.expressions = items ++ C :: rest) :
    Ends (reportUnreachable a options reach C.id) q fun _ q' => p.Runs a R base path N items [] q' := by
  rw [reportUnreachable]
  split
  · exact (report_ends hruns.stands.sound (by simp)).mono fun _ q₁ hquiet =>
      hruns.quiet h hquiet fun W hW => by simp [hsplit, hW]
  · exact hruns

theorem itemsFrom_ends {options : TypingOptions} (reach : Reach) {last : TypeId}
    (hruns : p.Runs a R base path N items [] q) (hsplit : N.expressions = items ++ rest)
    (hlast : last.index < q.table.size) :
    Ends (itemsFrom a options compute reach last (rest.map Tree.id)) q fun type q' =>
      p.Runs a R base path N N.expressions [] q' ∧ type.index < q'.table.size := by
  induction rest generalizing reach last items q with
  | nil =>
    rw [List.append_nil] at hsplit
    rw [List.map_nil, itemsFrom, ends_pure_iff, hsplit]
    exact ⟨hruns, hlast⟩
  | cons C rest ih =>
    simp only [List.map_cons, itemsFrom_cons, ends_bind_iff]
    refine (reportUnreachable_ends h reach hruns hsplit).mono fun _ q₁ hruns₁ => ?_
    refine (typeItem_ends h hform hruns₁ hsplit).mono ?_
    rintro type q₂ ⟨hruns₂, hlt⟩
    exact ih _ hruns₂ (by simpa using hsplit) hlt

theorem block_ends {options : TypingOptions} :
    Ends (block a options compute N.id) p (p.Finds a R base path N) := by
  rw [block_eq, ends_inNewScope_iff, ends_bind_iff]
  refine (declareGroups_ends h hform).mono fun _ q hdeclares => ?_
  have hruns := hdeclares.runs h hform
  rw [h.expressions_eq]
  refine (itemsFrom_ends h hform _ hruns rfl (hruns.stands.sound.lt_of_builtin (by decide))).mono ?_
  rintro type q' ⟨hruns', hlt⟩
  refine { h.leave hruns'.grows hruns'.resolving_eq hruns'.stands (fun C hC => ?_) (fun hfree => ?_)
    fun hfree => ?_ with
      made := fun _ body _ => ?_
      agrees := fun E hE => absurd hE (h.not_denotes (by rw [Tree.usedName?, hform]))
      lt := hlt }
  · exact hruns'.covered C (List.mem_append_left _ hC)
  · rw [hruns'.escapes_eq hfree, Tree.returns, Tree.exits_eq_flatMap hform rfl (by simp)]
    rfl
  · rw [hruns'.breaks_eq hfree, Tree.breaks, Tree.exits_eq_flatMap hform rfl (by simp)]
    rfl
  · rw [hform]
    simp

end

end Typing

end MessageLang
