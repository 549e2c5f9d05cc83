import MessageLang.Proofs.Typing.Standing

namespace MessageLang

open MessageLang.Tree (Binds Denotes DependsOn Direct Visible)

/-- A place stands in the value of a local, or in that of another one which the first one needs. -/
def Leads (a : Arena) (R : Tree) (path : List Tree) (x : NodeId) : Prop :=
  ∃ A ∈ path, A.localName?.isSome = true ∧
    (A.id = x ∨ Relation.TransGen (DependsOn a R) x A.id)

section

variable {a : Arena} {R X D : Tree} {path : List Tree} {name : String} {x : NodeId}

/-- A local needs what is used where it leads to. -/
theorem Leads.transGen (h : Leads a R path x) (hX : R.Within path X) (huse : X.usedName? = some name)
    (hbinds : Binds a name path D) : Relation.TransGen (DependsOn a R) x D.id := by
  obtain ⟨A, hA, hlocal, hreach⟩ := h
  have hstep : DependsOn a R A.id D.id :=
    ⟨path, X, name, A, D, hX, huse, hbinds, rfl, hA, hlocal, rfl⟩
  rcases hreach with rfl | hreach
  · exact .single hstep
  · exact hreach.tail hstep

theorem Leads.mono {path' : List Tree} (h : Leads a R path x) (hsub : path ⊆ path') :
    Leads a R path' x := by
  obtain ⟨A, hA, hreach⟩ := h
  exact ⟨A, hsub hA, hreach⟩

end

namespace Pass

/-- What holds of a pass at any time, wherever typing is. -/
structure Fair (a : Arena) (R : Tree) (base : Nat) (p : Pass) : Prop where
  sound : p.Sound
  resolving_lt : ∀ id ∈ p.resolving, id.index < p.placeholders.size
  base_le : base ≤ p.log.size
  flagged : ∀ id, (p.placeholder id).cyclic = true → Cyclic a R (p.placeholder id).definition
  blamed : ∀ x, p.Blamed base x → Cyclic a R x

/-- What holds of a pass at a place. The locals around are being found. Of those that can be seen
and were found, all that the value is made of is settled. -/
structure Stands (a : Arena) (R : Tree) (base : Nat) (p : Pass) (path : List Tree) : Prop
    extends p.Fair a R base where
  frames : Scoped a p path p.scope
  around : ∀ D, Visible path D → D ∈ path → ∃ id ∈ p.resolving, p.current? D = some id
  found : ∀ D id type, Visible path D → p.current? D = some id →
    (p.placeholder id).result = some type → Grounded a R (p.Safe a base) D.id ∧
      (id ∉ p.resolving → ∀ V ∈ D.expressions, p.Covered a R base V)
  leads : ∀ id ∈ p.resolving, Leads a R path (p.placeholder id).definition

/-- The nodes that typing some expressions at a place may come to: those in them, and those in the
values of locals that can be seen and are still to be found. -/
def Touches (p : Pass) (path roots : List Tree) (x : NodeId) : Prop :=
  (∃ N ∈ roots, x ∈ N.ids) ∨ ∃ D id V, Visible path D ∧ p.current? D = some id ∧ p.Waiting id ∧
    V ∈ D.expressions ∧ x ∈ V.ids

/-- A region that has no part in what is settled at a place. -/
structure Spares (a : Arena) (R : Tree) (p : Pass) (path : List Tree) (region : NodeId → Prop) :
    Prop where
  denoted : ∀ path' X E, R.Within path' X → Denotes a path' X E → ¬ region X.id → ¬ region E.id
  visible : ∀ D, Visible path D → ¬ region D.id
  found : ∀ D id, Visible path D → D ∉ path → p.current? D = some id → ¬ p.Waiting id →
    ∀ V ∈ D.expressions, ∀ x ∈ V.ids, ¬ region x

section

variable {a : Arena} {R N W X D E V : Tree} {base : Nat} {p p' : Pass} {path path' roots : List Tree}
  {region : NodeId → Prop} {id : PlaceholderId} {type : TypeId} {x : NodeId}

theorem Grows.covered (h : p.Grows path region p') (hfair : p.Fair a R base)
    (hnodup : R.ids.Nodup) (hspares : Spares a R p path region) (hN : ∀ x ∈ N.ids, ¬ region x)
    (hcovered : p.Covered a R base N) : p'.Covered a R base N := by
  intro path' X hX hmem
  have hsub : X.ids ⊆ N.ids := by
    rcases List.mem_cons.mp hmem with rfl | hmem
    · exact fun _ hx => hx
    · exact hX.ids_subset_of_mem hmem
  have hclear : ∀ x ∈ X.ids, ¬ region x := fun x hx => hN x (hsub hx)
  exact h.settled hfair.sound hfair.resolving_lt (hX.nodup hnodup) hclear
    (fun E hE => hspares.denoted path' X E hX hE (hclear _ X.id_mem_ids)) (hcovered path' X hX hmem)

/-- A change in a region that leaves alone what is settled, if it settles what it finds. -/
theorem Stands.advance (h : p.Stands a R base path) (hnodup : R.ids.Nodup) (hadv : p.Advances path region p')
    (hfair : p'.Fair a R base) (hspares : Spares a R p path region)
    (hnew : ∀ D id type, Visible path D → p.current? D = some id → p.Waiting id →
      (p'.placeholder id).result = some type → Grounded a R (p'.Safe a base) D.id ∧
        ∀ V ∈ D.expressions, p'.Covered a R base V) : p'.Stands a R base path where
  __ := hfair
  frames := by
    rw [hadv.scope_eq]
    exact hadv.frames h.frames hspares.visible
  around D hD hmem := by
    rw [hadv.resolving_eq, hadv.current?_eq (hspares.visible D hD)]
    exact h.around D hD hmem
  found D id type hD hcurrent hfound := by
    rw [hadv.current?_eq (hspares.visible D hD)] at hcurrent
    by_cases hwaiting : p.Waiting id
    · exact (hnew D id type hD hcurrent hwaiting hfound).imp_right fun h _ => h
    · rw [hadv.resolving_eq]
      cases hbefore : (p.placeholder id).result with
      | none =>
        have hlt : id.index < p.placeholders.size := by
          obtain ⟨_, _, hcurrent', hfor⟩ := h.frames.visible hD
          cases hcurrent.symm.trans hcurrent'
          exact hfor.lt
        exact absurd (hadv.waiting id hlt (by rw [hbefore, hfound]; nofun)).1 hwaiting
      | some before =>
        obtain ⟨hgrounded, hcovered⟩ := h.found D id before hD hcurrent hbefore
        refine ⟨hgrounded.mono fun _ => hadv.safe h.resolving_lt, fun hnot V hV => ?_⟩
        have hoff : D ∉ path := fun hmem => by
          obtain ⟨other, hother, hsame⟩ := h.around D hD hmem
          cases hcurrent.symm.trans hsame
          exact hnot hother
        exact hadv.covered h.toFair hnodup hspares (hspares.found D id hD hoff hcurrent hwaiting V hV)
          (hcovered hnot V hV)
  leads id hid := by
    rw [hadv.resolving_eq] at hid
    rw [hadv.definition_eq (h.resolving_lt id hid)]
    exact h.leads id hid

theorem spares_empty (a : Arena) (R : Tree) (p : Pass) (path : List Tree) :
    Spares a R p path fun _ => False where
  denoted _ _ _ _ _ h := h
  visible _ _ h := h
  found _ _ _ _ _ _ _ _ _ _ h := h

theorem Fair.quiet (h : p.Fair a R base) (hquiet : p.Quiet p') : p'.Fair a R base := by
  obtain ⟨heq, -, ⟨more, hlog, hmore⟩, hsound⟩ := hquiet
  have hplaceholder : ∀ id, p'.placeholder id = p.placeholder id := fun id => by rw [heq]; rfl
  refine ⟨hsound, ?_, ?_, fun id hcyclic => ?_, fun x ⟨r, hr, hnode, name, hproblem⟩ => ?_⟩
  · rw [heq]
    exact h.resolving_lt
  · have hlength := congrArg List.length hlog
    have hbase := h.base_le
    simp only [Log.toList, List.length_append, Array.length_toList] at hlength
    simp only [Log.size] at hbase ⊢
    omega
  · rw [hplaceholder] at hcyclic ⊢
    exact h.flagged id hcyclic
  · refine h.blamed x ⟨r, ?_, hnode, name, hproblem⟩
    rw [Log.since, hlog, List.drop_append] at hr
    rcases List.mem_append.mp hr with hr | hr
    · exact hr
    · exact absurd hproblem (hmore r (List.mem_of_mem_drop hr) name)

theorem Stands.quiet (h : p.Stands a R base path) (hnodup : R.ids.Nodup) (hquiet : p.Quiet p') :
    p'.Stands a R base path := by
  refine h.advance hnodup (hquiet.advances path fun _ => False) (h.toFair.quiet hquiet)
    (spares_empty a R p path) fun D id type _ _ hwaiting hfound => ?_
  have hsame : p'.placeholder id = p.placeholder id := by
    rw [hquiet.eq]
    rfl
  rw [hsame, hwaiting.1] at hfound
  cases hfound

/-- Locals whose type is still to be found are not around. -/
theorem Stands.not_mem_of_waiting (h : p.Stands a R base path) (hD : Visible path D)
    (hcurrent : p.current? D = some id) (hwaiting : p.Waiting id) : D ∉ path := fun hmem => by
  obtain ⟨other, hother, hsame⟩ := h.around D hD hmem
  cases hcurrent.symm.trans hsame
  exact hwaiting.2 hother

/-- Locals that can be seen have placeholders of their own. -/
theorem Stands.eq_of_current (h : p.Stands a R base path) (hnodup : R.ids.Nodup)
    (hX : R.Within path X) (hD : Visible path D) (hE : Visible path E)
    (hcurrent : p.current? D = some id) (hcurrent' : p.current? E = some id) : D = E := by
  obtain ⟨other, _, hother, hfor⟩ := h.frames.visible hD
  cases hcurrent.symm.trans hother
  obtain ⟨other, _, hother', hfor'⟩ := h.frames.visible hE
  cases hcurrent'.symm.trans hother'
  obtain ⟨_, _, _, _, _, _, _, _, hwithin⟩ := hD.exists_within hX
  obtain ⟨_, _, _, _, _, _, _, _, hwithin'⟩ := hE.exists_within hX
  exact (hwithin.unique hwithin' hnodup (hfor.definition_eq.symm.trans hfor'.definition_eq)).2

/-- Finding the types of locals that can be seen touches nothing of an expression there. -/
theorem Stands.not_touches (h : p.Stands a R base path) (hnodup : R.ids.Nodup)
    (hN : R.Within path N) (hdirect : Direct path N) (hx : x ∈ N.ids) : ¬ p.Touches path [] x := by
  rintro (⟨M, hM, -⟩ | ⟨D, id, V, hD, hcurrent, hwaiting, hV, hxV⟩)
  · cases hM
  · exact hD.disjoint_of_direct hN hnodup hdirect (h.not_mem_of_waiting hD hcurrent hwaiting)
      (Tree.ids_subset_of_mem_expressions hV hxV) hx

/-- Typing expressions at a place leaves alone what is settled there. -/
theorem Stands.spares (h : p.Stands a R base path) (hR : a.Ready R) (hX : R.Within path X)
    (hroots : ∀ N ∈ roots, R.Within path N ∧ Direct path N) :
    Spares a R p path (p.Touches path roots) where
  denoted path' Y E hY hE hnot := by
    contrapose! hnot
    rcases hnot with ⟨N, hN, hid⟩ | ⟨D, id, V, hD, hcurrent, hwaiting, hV, hid⟩
    · exact .inl ⟨N, hN, hE.mem_ids hY (hroots N hN).1 hR.nodup (hroots N hN).2 hid⟩
    · obtain ⟨rest, hwithin, hdirect⟩ := hD.exists_direct hX hR hV
      exact .inr ⟨D, id, V, hD, hcurrent, hwaiting, hV,
        hE.mem_ids hY hwithin hR.nodup hdirect hid⟩
  visible E hE := by
    rintro (⟨N, hN, hid⟩ | ⟨D, id, V, hD, hcurrent, hwaiting, hV, hid⟩)
    · by_cases hmem : E ∈ path
      · exact (hroots N hN).1.id_not_mem_of_mem hR.nodup hmem hid
      · exact hE.disjoint_of_direct (hroots N hN).1 hR.nodup (hroots N hN).2 hmem E.id_mem_ids hid
    · have hoff := h.not_mem_of_waiting hD hcurrent hwaiting
      have hid' := Tree.ids_subset_of_mem_expressions hV hid
      by_cases hmem : E ∈ path
      · exact hD.id_not_mem hX hR.nodup hoff hmem hid'
      · by_cases hsame : E = D
        · subst hsame
          obtain ⟨rest, hwithin, -⟩ := hD.exists_direct hX hR hV
          exact hwithin.id_not_mem_of_mem hR.nodup List.mem_cons_self hid
        · exact hE.disjoint hD hX hR hmem hoff hsame E.id_mem_ids hid'
  found E id hE hmem hcurrent hsettled V hV x hx := by
    have hx' := Tree.ids_subset_of_mem_expressions hV hx
    rintro (⟨N, hN, hid⟩ | ⟨D, other, W, hD, hother, hwaiting, hW, hid⟩)
    · exact hE.disjoint_of_direct (hroots N hN).1 hR.nodup (hroots N hN).2 hmem hx' hid
    · have hne : E ≠ D := by
        rintro rfl
        cases hcurrent.symm.trans hother
        exact hsettled hwaiting
      exact hE.disjoint hD hX hR hmem (h.not_mem_of_waiting hD hother hwaiting) hne hx'
        (Tree.ids_subset_of_mem_expressions hW hid)

/-- What is touched later was touched before. -/
theorem Grows.touches_of_touches (h : p.Grows path region p')
    (hclear : ∀ D, Visible path D → ¬ region D.id) (hx : p'.Touches path roots x) :
    p.Touches path roots x := by
  refine hx.imp_right fun ⟨D, id, V, hD, hcurrent, hwaiting, hV⟩ => ?_
  rw [h.current?_eq (hclear D hD)] at hcurrent
  exact ⟨D, id, V, hD, hcurrent, h.waiting_of hwaiting, hV⟩

/-- Typing children touches no more than typing the whole, also when it is under way. -/
theorem Grows.touches_of_children (h : p.Grows path region p')
    (hclear : ∀ D, Visible path D → ¬ region D.id) {children : List Tree}
    (hchildren : ∀ C ∈ children, C ∈ N.expressions) (hx : p'.Touches (N :: path) children x) :
    p.Touches path [N] x := by
  rcases hx with ⟨C, hC, hx⟩ | ⟨D, id, V, ⟨B, hB, hD⟩, hcurrent, hwaiting, hV, hx⟩
  · exact .inl ⟨N, List.mem_singleton_self N,
      Tree.ids_subset_of_mem_expressions (hchildren C hC) hx⟩
  · rcases List.mem_cons.mp hB with rfl | hB
    · obtain ⟨-, G, hG, -, hmem⟩ := Tree.mem_locals_iff.mp hD
      refine .inl ⟨B, List.mem_singleton_self B, Tree.ids_subset_of_mem_expressions hG ?_⟩
      exact Tree.ids_subset_of_mem_expressions hmem (Tree.ids_subset_of_mem_expressions hV hx)
    · have hvisible : Visible path D := ⟨B, hB, hD⟩
      rw [h.current?_eq (hclear D hvisible)] at hcurrent
      exact .inr ⟨D, id, V, hvisible, hcurrent, h.waiting_of hwaiting, hV, hx⟩

theorem visible_cons_iff (hblock : N.form ≠ .expr .block) :
    Visible (N :: path) D ↔ Visible path D := by
  refine ⟨fun ⟨B, hB, hD⟩ => ?_, fun h => h.cons N⟩
  rcases List.mem_cons.mp hB with rfl | hB
  · exact absurd (Tree.mem_locals_iff.mp hD).1 hblock
  · exact ⟨B, hB, hD⟩

/-- An expression that is none in a group is no local that can be seen. -/
theorem not_visible_self (hN : R.Within path N) (hnodup : R.ids.Nodup) (hdirect : Direct path N) :
    ¬ Visible path N := fun h => by
  obtain ⟨_, _, _, G, rfl, _, hgroup, _, hwithin⟩ := h.exists_within hN
  refine hdirect.2 G ?_ hgroup
  rw [(hN.unique hwithin hnodup rfl).1]
  exact rfl

/-- What is spared inside an expression is spared outside. -/
theorem Spares.out (h : Spares a R p (N :: path) region) (hnot : ¬ Visible path N) :
    Spares a R p path region where
  denoted := h.denoted
  visible D hD := h.visible D (hD.cons N)
  found D id hD hoff := h.found D id (hD.cons N) fun hmem => by
    rcases List.mem_cons.mp hmem with rfl | hmem
    · exact hnot hD
    · exact hoff hmem

/-- Going into an expression. Its own locals, if it has any, are new there. -/
theorem Stands.enter (h : p.Stands a R base path) (hnodup : R.ids.Nodup) (hN : R.Within path N)
    (hdirect : Direct path N) (hgrows : p.Grows path region p') (hspares : Spares a R p path region)
    (hfair : p'.Fair a R base) (hresolving : p'.resolving = p.resolving)
    (hresult : ∀ id : PlaceholderId, id.index < p.placeholders.size →
      (p'.placeholder id).result = (p.placeholder id).result)
    (hframes : Scoped a p' (N :: path) p'.scope)
    (hnew : ∀ D ∈ N.locals, ∀ id, p'.current? D = some id → (p'.placeholder id).result = none) :
    p'.Stands a R base (N :: path) where
  __ := hfair
  frames := hframes
  around D hD hmem := by
    obtain ⟨B, hB, hlocal⟩ := hD
    rcases List.mem_cons.mp hB with rfl | hB
    · -- what is in an expression is not around it
      obtain ⟨-, G, hG, -, hDG⟩ := Tree.mem_locals_iff.mp hlocal
      have hinside := (hN.child hG).child hDG
      rcases List.mem_cons.mp hmem with rfl | hmem
      · exact absurd (List.mem_cons_of_mem _ List.mem_cons_self) (hinside.not_mem_path hnodup)
      · exact absurd (List.mem_cons_of_mem _ (List.mem_cons_of_mem _ hmem))
          (hinside.not_mem_path hnodup)
    · have hvisible : Visible path D := ⟨B, hB, hlocal⟩
      rw [hresolving, hgrows.current?_eq (hspares.visible D hvisible)]
      rcases List.mem_cons.mp hmem with rfl | hmem
      · exact absurd hvisible (not_visible_self hN hnodup hdirect)
      · exact h.around D hvisible hmem
  found D id type hD hcurrent hfound := by
    obtain ⟨B, hB, hlocal⟩ := hD
    rcases List.mem_cons.mp hB with rfl | hB
    · cases (hnew D hlocal id hcurrent).symm.trans hfound
    · have hvisible : Visible path D := ⟨B, hB, hlocal⟩
      rw [hgrows.current?_eq (hspares.visible D hvisible)] at hcurrent
      obtain ⟨_, _, hcurrent', hfor⟩ := h.frames.visible hvisible
      cases hcurrent.symm.trans hcurrent'
      rw [hresult id hfor.lt] at hfound
      obtain ⟨hgrounded, hcovered⟩ := h.found D id type hvisible hcurrent hfound
      refine ⟨hgrounded.mono fun _ => hgrows.safe h.resolving_lt, fun hnot V hV => ?_⟩
      rw [hresolving] at hnot
      have hoff : D ∉ path := fun hmem => by
        obtain ⟨other, hother, hsame⟩ := h.around D hvisible hmem
        cases hcurrent.symm.trans hsame
        exact hnot hother
      refine hgrows.covered h.toFair hnodup hspares (hspares.found D id hvisible hoff hcurrent ?_ V hV)
        (hcovered hnot V hV)
      exact fun hwaiting => nomatch hwaiting.1.symm.trans hfound
  leads id hid := by
    rw [hresolving] at hid
    rw [hgrows.definition_eq (h.resolving_lt id hid)]
    exact (h.leads id hid).mono (List.subset_cons_self _ _)

theorem Fair.withScope (h : p.Fair a R base) (scope typeScope : ScopeId) :
    Fair a R base { p with scope, typeScope } where
  sound := { h.sound with }
  resolving_lt := h.resolving_lt
  base_le := h.base_le
  flagged := h.flagged
  blamed := h.blamed

/-- Coming out of an expression. -/
theorem Stands.leave (h : p.Stands a R base path) (hgrows : p.Grows path region p')
    (hclear : ∀ D, Visible path D → ¬ region D.id) (hresolving : p'.resolving = p.resolving)
    (h' : p'.Stands a R base (N :: path)) :
    Stands a R base { p' with scope := p.scope, typeScope := p.typeScope } path where
  __ := h'.toFair.withScope _ _
  frames := (hgrows.frames h.frames hclear).keep (Nat.le_refl _) (fun _ _ => rfl) (fun _ _ => rfl)
    fun _ _ _ hfor => ⟨hfor.lt, hfor.definition_eq, hfor.value_eq, hfor.scope_eq, hfor.declared_iff⟩
  around D hD hmem := h'.around D (hD.cons N) (List.mem_cons_of_mem _ hmem)
  found D id type hD := h'.found D id type (hD.cons N)
  leads id hid := by
    have hmem : id ∈ p.resolving := hresolving ▸ hid
    change Leads a R path (p'.placeholder id).definition
    rw [hgrows.definition_eq (h.resolving_lt id hmem)]
    exact h.leads id hmem

/-- Going into an expression that opens no frame. -/
theorem Stands.into (h : p.Stands a R base path) (hnodup : R.ids.Nodup) (hN : R.Within path N)
    (hdirect : Direct path N) (hblock : N.form ≠ .expr .block) (hhandler : N.form ≠ .expr .handler) :
    p.Stands a R base (N :: path) :=
  h.enter hnodup hN hdirect (Advances.refl p path fun _ => False).toGrows (spares_empty a R p path)
    h.toFair rfl (fun _ _ => rfl) (.plain hblock hhandler h.frames)
    fun _ hD => absurd (Tree.mem_locals_iff.mp hD).1 hblock

/-- Typing some parts of an expression does not touch another part, unless that is a group with
locals that are still to be found. -/
theorem Stands.apart (h : p.Stands a R base (N :: path)) (hnodup : R.ids.Nodup)
    (hN : R.Within path N) (hdirect : Direct path N) (hW : W ∈ N.expressions)
    (hroots : ∀ C ∈ roots, C ∈ N.expressions ∧ C ≠ W)
    (hdone : ∀ D ∈ N.locals, D ∈ W.expressions → ∀ id, p.current? D = some id → ¬ p.Waiting id)
    (hx : x ∈ W.ids) : ¬ p.Touches (N :: path) roots x := by
  have hchild := Tree.mem_children_of_mem_expressions hW
  rintro (⟨C, hC, hxC⟩ | ⟨D, id, V, hD, hcurrent, hwaiting, hV, hxV⟩)
  · obtain ⟨hmem, hne⟩ := hroots C hC
    exact hne (Tree.eq_of_mem_ids (hN.nodup hnodup) (Tree.mem_children_of_mem_expressions hmem)
      hchild hxC hx)
  · have hxD := Tree.ids_subset_of_mem_expressions hV hxV
    have hoff := h.not_mem_of_waiting hD hcurrent hwaiting
    obtain ⟨B, hB, hlocal⟩ := hD
    rcases List.mem_cons.mp hB with rfl | hB
    · obtain ⟨-, G, hG, -, hmem⟩ := Tree.mem_locals_iff.mp hlocal
      have heq := Tree.eq_of_mem_ids (hN.nodup hnodup) (Tree.mem_children_of_mem_expressions hG)
        hchild (Tree.ids_subset_of_mem_expressions hmem hxD) hx
      subst heq
      exact hdone D hlocal hmem id hcurrent hwaiting
    · have hvisible : Visible path D := ⟨B, hB, hlocal⟩
      exact hvisible.disjoint_of_direct hN hnodup hdirect (fun h => hoff (List.mem_cons_of_mem _ h))
        hxD (Tree.ids_subset_of_mem_expressions hW hx)

end

end Pass

end MessageLang
