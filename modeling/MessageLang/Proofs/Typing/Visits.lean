import MessageLang.Proofs.Typing.Regions

namespace MessageLang

open MessageLang.Tree (Binds Denotes DependsOn Direct Visible)

namespace Pass

/-- What typing does at a place while it goes through some expressions: these are settled, and what
leaves them has been collected. -/
structure Visits (a : Arena) (R : Tree) (base : Nat) (p : Pass) (path : List Tree)
    (region : NodeId → Prop) (done : List Tree) (p' : Pass) : Prop where
  advances : p.Advances path region p'
  stands : p'.Stands a R base path
  covered : ∀ C ∈ done, p'.Covered a R base C
  escapes_eq : R.ExitFree → p'.escapes = p.escapes ++ (done.flatMap Tree.returns).map p'.exitOf
  breaks_eq : R.ExitFree → p'.breaks = p.breaks ++ (done.flatMap Tree.breaks).map p'.exitType

/-- What typing does at an expression up to when its type is known: all parts are settled, and what
leaves the expression has been collected. -/
structure Gathers (a : Arena) (R : Tree) (base : Nat) (p : Pass) (path : List Tree) (N : Tree)
    (p' : Pass) : Prop where
  advances : p.Advances path (p.Touches path [N]) p'
  stands : p'.Stands a R base path
  covered : ∀ C ∈ N.expressions, p'.Covered a R base C
  escapes_eq : R.ExitFree → p'.escapes = p.escapes ++ N.returns.map p'.exitOf
  breaks_eq : R.ExitFree → p'.breaks = p.breaks ++ N.breaks.map p'.exitType

/-- What the rule for an expression is to come to, before the type is noted. -/
structure Finds (a : Arena) (R : Tree) (base : Nat) (p : Pass) (path : List Tree) (N : Tree)
    (type : TypeId) (p' : Pass) : Prop extends p.Gathers a R base path N p' where
  made : R.ExitFree → p'.Made a N type
  agrees : p'.Agrees a R base path N type
  lt : type.index < p'.table.size

/-- A way to find the types of expressions that does not lead back to certain nodes: it ends, and
all that it comes upon is settled. -/
def Computes (a : Arena) (R : Tree) (base : Nat) (entered : List NodeId)
    (compute : NodeId → Typing TypeId) : Prop :=
  ∀ p path N, p.Stands a R base path → R.Within path N → Direct path N →
    (∀ x ∈ entered, ¬ p.Touches path [N] x) →
      Ends (compute N.id) p fun type p' =>
        p.Visits a R base path (p.Touches path [N]) [N] p' ∧ p'.types.lookup N.id = some type

section

variable {a : Arena} {R N C W D E : Tree} {base : Nat} {p p' p'' : Pass}
  {path done more roots rest : List Tree} {region region' : NodeId → Prop} {id : PlaceholderId}
  {type : TypeId} {x : NodeId}

theorem Stands.visits (h : p.Stands a R base path) (region : NodeId → Prop) :
    p.Visits a R base path region [] p where
  advances := .refl _ _ _
  stands := h
  covered _ h := nomatch h
  escapes_eq _ := by simp
  breaks_eq _ := by simp

/-- The types of exits are kept where the nodes in some expressions keep their types. -/
theorem exitType_eq_of_mem_flatMap {stops : ExprForm → Bool} {exit : ExprForm} (hdone : ∀ W ∈ done, W.ids.Nodup)
    (hsame : ∀ W ∈ done, ∀ x ∈ W.ids, p'.types.lookup x = p.types.lookup x) {X : Tree}
    (hX : X ∈ done.flatMap (Tree.exits stops exit)) : p'.exitType X = p.exitType X := by
  obtain ⟨W, hW, hX⟩ := List.mem_flatMap.mp hX
  exact exitType_eq (hdone W hW) (fun x hx _ => hsame W hW x hx) hX

/-- Going through more expressions, apart from those that were gone through. -/
theorem Visits.append (h : p.Visits a R base path region done p')
    (h' : p'.Visits a R base path region' more p'') (hnodup : R.ids.Nodup)
    (hdone : ∀ W ∈ done, W.ids.Nodup) (hsub : ∀ x, region' x → region x)
    (hclear : ∀ D, Visible path D → ¬ region D.id) (hspares : Spares a R p' path region')
    (hapart : ∀ W ∈ done, ∀ x ∈ W.ids, ¬ region' x) :
    p.Visits a R base path region (done ++ more) p'' := by
  have hsame : ∀ W ∈ done, ∀ x ∈ W.ids, p''.types.lookup x = p'.types.lookup x := fun W hW x hx =>
    h'.advances.types_eq x (hapart W hW x hx)
  refine ⟨h.advances.trans (h'.advances.mono (fun _ h => h) hsub) hclear, h'.stands, ?_, ?_, ?_⟩
  · rw [List.forall_mem_append]
    refine ⟨fun W hW => ?_, h'.covered⟩
    exact h'.advances.covered h.stands.toFair hnodup hspares (hapart W hW) (h.covered W hW)
  · intro hfree
    rw [h'.escapes_eq hfree, h.escapes_eq hfree, List.flatMap_append, List.map_append,
      List.append_assoc]
    congr 2
    refine List.map_congr_left fun X hX => Prod.ext rfl ?_
    exact (exitType_eq_of_mem_flatMap hdone hsame hX).symm
  · intro hfree
    rw [h'.breaks_eq hfree, h.breaks_eq hfree, List.flatMap_append, List.map_append,
      List.append_assoc]
    congr 2
    exact List.map_congr_left fun X hX => (exitType_eq_of_mem_flatMap hdone hsame hX).symm

/-- Changes to types and the checker alone come upon nothing. -/
theorem Quiet.visits (hquiet : p.Quiet p') (h : p.Stands a R base path) (hnodup : R.ids.Nodup)
    (region : NodeId → Prop) : p.Visits a R base path region [] p' where
  advances := hquiet.advances path region
  stands := h.quiet hnodup hquiet
  covered _ h := nomatch h
  escapes_eq _ := by
    rw [hquiet.eq]
    simp
  breaks_eq _ := by
    rw [hquiet.eq]
    simp

theorem Visits.quiet (h : p.Visits a R base path region done p') (hquiet : p'.Quiet p'')
    (hnodup : R.ids.Nodup) (hdone : ∀ W ∈ done, W.ids.Nodup)
    (hclear : ∀ D, Visible path D → ¬ region D.id) : p.Visits a R base path region done p'' := by
  have h' := hquiet.visits h.stands hnodup fun _ => False
  simpa using h.append h' hnodup hdone (fun _ => False.elim) hclear (spares_empty a R p' path)
    fun _ _ _ _ => id

/-- Going on with changes to types and the checker alone. -/
theorem Gathers.quiet (h : p.Gathers a R base path N p') (hquiet : p'.Quiet p'') (hnodup : R.ids.Nodup)
    (hclear : ∀ D, Visible path D → ¬ p.Touches path [N] D.id) : p.Gathers a R base path N p'' where
  advances := h.advances.trans (hquiet.advances path _) hclear
  stands := h.stands.quiet hnodup hquiet
  covered C hC := (hquiet.advances path fun _ => False).covered h.stands.toFair hnodup
    (spares_empty a R p' path) (fun _ _ h => h) (h.covered C hC)
  escapes_eq hfree := by
    rw [hquiet.eq]
    exact h.escapes_eq hfree
  breaks_eq hfree := by
    rw [hquiet.eq]
    exact h.breaks_eq hfree

/-- Going through a part of an expression that opens no frame, seen from outside. -/
theorem Visits.out (h : p'.Visits a R base (N :: path) region done p'') (hp : p'.Stands a R base path)
    (hblock : N.form ≠ .expr .block) (hclear : ∀ D, Visible path D → ¬ region D.id) :
    p'.Visits a R base path region done p'' where
  advances := h.advances.mono (fun _ => (visible_cons_iff hblock).mp) fun _ hx => hx
  stands := by
    have hgrows := h.advances.toGrows.mono (fun _ => (visible_cons_iff hblock).mp) fun _ hx => hx
    have hstands := hp.leave hgrows hclear h.advances.resolving_eq h.stands
    rwa [← h.advances.scope_eq, ← h.advances.typeScope_eq] at hstands
  covered := h.covered
  escapes_eq := h.escapes_eq
  breaks_eq := h.breaks_eq

section

variable {compute : NodeId → Typing TypeId} {entered : List NodeId}

/-- An expression whose types are being found is not met in its own parts, nor are those that were
not met before. -/
theorem Grows.not_touches_of_children (h : p.Grows path (p.Touches path [N]) p')
    (hp : p.Stands a R base path) (hp' : p'.Stands a R base (N :: path)) (hR : a.Ready R)
    (hN : R.Within path N) (hdirect : Direct path N) (hentered : ∀ x ∈ entered, ¬ p.Touches path [N] x)
    (hroots : ∀ C ∈ roots, C ∈ N.expressions) :
    ∀ x ∈ N.id :: entered, ¬ p'.Touches (N :: path) roots x := by
  have hspares := hp.spares hR hN fun M hM => by
    rw [List.mem_singleton.mp hM]
    exact ⟨hN, hdirect⟩
  rw [List.forall_mem_cons]
  refine ⟨?_, fun x hx htouched => hentered x hx ?_⟩
  · rintro (⟨C, hC, hid⟩ | ⟨D, id, V, hD, hcurrent, hwaiting, hV, hid⟩)
    · exact Tree.id_not_mem_of_mem_expressions (hN.nodup hR.nodup) (hroots C hC) hid
    · have hoff := hp'.not_mem_of_waiting hD hcurrent hwaiting
      have hid' := Tree.ids_subset_of_mem_expressions hV hid
      obtain ⟨B, hB, hlocal⟩ := hD
      rcases List.mem_cons.mp hB with rfl | hB
      · obtain ⟨-, G, hG, -, hmem⟩ := Tree.mem_locals_iff.mp hlocal
        exact Tree.id_not_mem_of_mem_expressions (hN.nodup hR.nodup) hG
          (Tree.ids_subset_of_mem_expressions hmem hid')
      · have hvisible : Visible path D := ⟨B, hB, hlocal⟩
        exact hvisible.disjoint_of_direct hN hR.nodup hdirect
          (fun h => hoff (List.mem_cons_of_mem _ h)) hid' N.id_mem_ids
  · exact h.touches_of_children hspares.visible hroots htouched

/-- Going on with the next part of an expression that opens no frame. -/
theorem Visits.child (h : p.Visits a R base path (p.Touches path [N]) done p')
    (hp : p.Stands a R base path) (hR : a.Ready R) (hN : R.Within path N) (hdirect : Direct path N)
    (hblock : N.form ≠ .expr .block) (hhandler : N.form ≠ .expr .handler)
    (hsplit : N.expressions = done ++ C :: rest)
    (hentered : ∀ x ∈ entered, ¬ p.Touches path [N] x)
    (hcompute : Computes a R base (N.id :: entered) compute) :
    Ends (compute C.id) p' fun type p'' =>
      p.Visits a R base path (p.Touches path [N]) (done ++ [C]) p'' ∧
        p''.types.lookup C.id = some type ∧ p'.table.Extends p''.table := by
  have hC : C ∈ N.expressions := by simp [hsplit]
  have hspares := hp.spares hR hN fun M hM => by
    rw [List.mem_singleton.mp hM]
    exact ⟨hN, hdirect⟩
  have hroots : ∀ M ∈ [C], M ∈ N.expressions := fun M hM => List.mem_singleton.mp hM ▸ hC
  have hinto := h.stands.into hR.nodup hN hdirect hblock hhandler
  have hdirect' := Tree.direct_of_mem_expressions hR.locals_in_blocks hN hdirect.1 hblock hC
  have hinner : Spares a R p' path (p'.Touches (N :: path) [C]) := by
    refine Spares.out (hinto.spares hR (hN.child hC) fun M hM => ?_)
      (not_visible_self hN hR.nodup hdirect)
    rw [List.mem_singleton.mp hM]
    exact ⟨hN.child hC, hdirect'⟩
  refine (hcompute p' (N :: path) C hinto (hN.child hC) hdirect'
    (h.advances.not_touches_of_children hp hinto hR hN hdirect hentered hroots)).mono ?_
  rintro type p'' ⟨hvisits, htype⟩
  refine ⟨h.append (hvisits.out h.stands hblock hinner.visible) hR.nodup (fun W hW => ?_)
    (fun x => h.advances.touches_of_children hspares.visible hroots) hspares.visible hinner ?_, htype,
    hvisits.advances.table⟩
  · exact Tree.nodup_of_mem_children (hN.nodup hR.nodup)
      (Tree.mem_children_of_mem_expressions (by simp [hsplit, hW]))
  · intro W hW x hx
    refine hinto.apart hR.nodup hN hdirect (by simp [hsplit, hW]) (fun M hM => ?_) (fun D hD => ?_) hx
    · rw [List.mem_singleton.mp hM]
      exact ⟨hC, Tree.ne_of_expressions_eq (hN.nodup hR.nodup) hsplit hW⟩
    · exact absurd (Tree.mem_locals_iff.mp hD).1 hblock

/-- Noting the type that was found for an expression. -/
theorem Finds.noted (h : p.Finds a R base path N type p') (hp : p.Stands a R base path)
    (hR : a.Ready R) (hN : R.Within path N) (hdirect : Direct path N) :
    p.Visits a R base path (p.Touches path [N]) [N]
      { p' with types := (N.id, type) :: p'.types } := by
  have hroots : ∀ M ∈ [N], R.Within path M ∧ Direct path M := fun M hM => by
    rw [List.mem_singleton.mp hM]
    exact ⟨hN, hdirect⟩
  have hlookup : ∀ x, x ≠ N.id → ((N.id, type) :: p'.types).lookup x = p'.types.lookup x :=
    fun _ hx => lookup_cons_of_ne hx
  have hadv : p'.Advances path (p'.Touches path [N]) { p' with types := (N.id, type) :: p'.types } :=
    { Advances.refl p' path (p'.Touches path [N]) with
      types_eq := fun x hx => hlookup x fun heq => hx (.inl ⟨N, List.mem_singleton_self N,
        heq ▸ N.id_mem_ids⟩) }
  have hsound : Sound { p' with types := (N.id, type) :: p'.types } :=
    { h.stands.sound with types_lt := List.forall_mem_cons.mpr ⟨h.lt, h.stands.sound.types_lt⟩ }
  have hclear := (hp.spares hR hN hroots).visible
  have hnodup := hN.nodup hR.nodup
  have hkeep : ∀ {X : Tree} {other : TypeId}, X.ids.Nodup → other.index < p'.table.size →
      (∀ x ∈ X.ids, x ≠ X.id → x ≠ N.id) → p'.Made a X other →
        Made a { p' with types := (N.id, type) :: p'.types } X other :=
    fun hX hlt hne hmade => hmade.keep h.stands.sound.space.table (.of_eq rfl rfl) hX
      h.stands.sound.types_lt hlt fun x hx hroot => hlookup x (hne x hx hroot)
  refine ⟨h.advances.trans (hadv.mono (fun _ h => h) fun x => h.advances.touches_of_touches hclear)
    hclear, ?_, fun C hC => ?_, fun hfree => ?_, fun hfree => ?_⟩
  · refine h.stands.advance hR.nodup hadv { h.stands.toFair with sound := hsound }
      (h.stands.spares hR hN hroots) fun D id found _ _ hwaiting hfound => ?_
    exact absurd (hwaiting.1.symm.trans hfound) nofun
  · rw [List.mem_singleton.mp hC]
    intro path' X hX hmem
    rcases List.mem_cons.mp hmem with rfl | hmem
    · rw [(hX.unique hN hR.nodup rfl).1]
      exact ⟨type, List.lookup_cons_self, fun hfree => hkeep hnodup h.lt (fun _ _ hne => hne)
        (h.made hfree), h.agrees⟩
    · obtain ⟨D, hD, hmem'⟩ := hX.exists_child hmem
      obtain ⟨other, hother, hmade, hdenoted⟩ := h.covered D hD path' X hX hmem'
      have hnot : ∀ x ∈ X.ids, x ≠ N.id := fun x hx heq =>
        hX.id_not_mem_of_mem hR.nodup hmem (heq ▸ hx)
      refine ⟨other, (hlookup _ (hnot _ X.id_mem_ids)).trans hother, fun hfree => ?_, hdenoted⟩
      exact hkeep (hX.nodup hR.nodup) (h.stands.sound.types_lt _ (mem_of_lookup_eq_some hother))
        (fun x hx _ => hnot x hx) (hmade hfree)
  · refine (h.escapes_eq hfree).trans ?_
    rw [List.flatMap_singleton]
    congr 1
    refine List.map_congr_left fun X hX => Prod.ext rfl ?_
    exact (exitType_eq hnodup (fun x _ hne => hlookup x hne) hX).symm
  · refine (h.breaks_eq hfree).trans ?_
    rw [List.flatMap_singleton]
    congr 1
    exact List.map_congr_left fun X hX =>
      (exitType_eq hnodup (fun x _ hne => hlookup x hne) hX).symm

end

end

end Pass

end MessageLang
