import MessageLang.Proofs.Typing.Visits

namespace MessageLang

open MessageLang.Tree (Binds Denotes DependsOn Direct Visible)

namespace Pass

/-- The placeholders of some locals as they were before their types were found. -/
def forget (p : Pass) (ids : List PlaceholderId) : Pass :=
  ids.foldl (fun p id => p.updatePlaceholder id ({ · with result := none })) p

/-- A state with all taken back that was found since an earlier one. -/
def takenBack (before p : Pass) : Pass :=
  let recent := p.resolved.take (p.resolved.length - before.resolved.length)
  { p with
    space := { p.space with log := p.log.restore before.log.size }
    checker := p.checker.rollback before.checker.checkpoint
    placeholders := (p.forget recent).placeholders
    resolved := p.resolved.drop recent.length
    escapes := p.escapes.take before.escapes.length
    breaks := p.breaks.take before.breaks.length }

/-- The state in which the value of a local is typed. -/
def opened (p : Pass) (id : PlaceholderId) : Pass :=
  { p with
    resolving := id :: p.resolving
    scope := (p.placeholder id).scope
    typeScope := (p.placeholder id).typeScope }

/-- A definition is reported as recursive, and may be anything. -/
def marked (a : Arena) (node : NodeId) (name : String) (p : Pass) (id : PlaceholderId) : Pass :=
  { p.updatePlaceholder id ({ · with result := some .anything }) with
    space := { p.space with log := p.log.report a node (.recursiveDefinition name) } }

/-- The type of a local has been found, and typing is back where it was. -/
def closed (before p : Pass) (id : PlaceholderId) (type : TypeId) : Pass :=
  { p.updatePlaceholder id ({ · with result := some type }) with
    resolving := p.resolving.drop 1
    resolved := id :: p.resolved
    scope := before.scope
    typeScope := before.typeScope }

section

variable {a : Arena} {p : Pass} {id other : PlaceholderId} {change : Placeholder → Placeholder}

theorem placeholder_updatePlaceholder_self (hlt : id.index < p.placeholders.size) :
    (p.updatePlaceholder id change).placeholder id = change (p.placeholder id) := by
  simp [placeholder, updatePlaceholder, Array.getD_eq_getD_getElem?, Array.getElem_modify, hlt]

theorem placeholder_updatePlaceholder_of_ne (hne : other ≠ id) :
    (p.updatePlaceholder id change).placeholder other = p.placeholder other := by
  have hindex : id.index ≠ other.index := fun h => hne (by cases id; cases other; simp_all)
  simp [placeholder, updatePlaceholder, Array.getD_eq_getD_getElem?, Array.getElem?_modify, hindex]

theorem placeholder_updatePlaceholder_eq_or (p : Pass) (id other : PlaceholderId)
    (change : Placeholder → Placeholder) :
    (p.updatePlaceholder id change).placeholder other = p.placeholder other ∨
      other = id ∧ (p.updatePlaceholder id change).placeholder other = change (p.placeholder id) := by
  by_cases heq : other = id
  · subst heq
    by_cases hlt : other.index < p.placeholders.size
    · exact .inr ⟨rfl, placeholder_updatePlaceholder_self hlt⟩
    · refine .inl ?_
      rw [placeholder_of_le (Nat.le_of_not_lt hlt)]
      exact placeholder_of_le (by simpa [updatePlaceholder] using hlt)
  · exact .inl (placeholder_updatePlaceholder_of_ne heq)

theorem placeholder_opened (p : Pass) (id other : PlaceholderId) :
    (p.opened id).placeholder other = p.placeholder other := rfl

theorem placeholder_marked (a : Arena) (node : NodeId) (name : String) (p : Pass)
    (id other : PlaceholderId) :
    (marked a node name p id).placeholder other = p.placeholder other ∨ other = id ∧
      (marked a node name p id).placeholder other =
        { p.placeholder id with result := some .anything } :=
  p.placeholder_updatePlaceholder_eq_or id other ({ · with result := some .anything })

theorem placeholder_marked_self (hlt : id.index < p.placeholders.size) {node : NodeId}
    {name : String} : (marked a node name p id).placeholder id =
      { p.placeholder id with result := some .anything } :=
  placeholder_updatePlaceholder_self hlt

theorem placeholder_marked_of_ne (hne : other ≠ id) {node : NodeId} {name : String} :
    (marked a node name p id).placeholder other = p.placeholder other :=
  placeholder_updatePlaceholder_of_ne hne

theorem size_placeholders_marked {node : NodeId} {name : String} :
    (marked a node name p id).placeholders.size = p.placeholders.size := Array.size_modify

theorem placeholder_closed (before p : Pass) (id other : PlaceholderId) (type : TypeId) :
    (closed before p id type).placeholder other = p.placeholder other ∨ other = id ∧
      (closed before p id type).placeholder other = { p.placeholder id with result := some type } :=
  p.placeholder_updatePlaceholder_eq_or id other ({ · with result := some type })

theorem placeholder_closed_self (before : Pass) (hlt : id.index < p.placeholders.size)
    (type : TypeId) :
    (closed before p id type).placeholder id = { p.placeholder id with result := some type } :=
  placeholder_updatePlaceholder_self hlt

theorem placeholder_closed_of_ne (before : Pass) (hne : other ≠ id) (type : TypeId) :
    (closed before p id type).placeholder other = p.placeholder other :=
  placeholder_updatePlaceholder_of_ne hne

theorem size_placeholders_closed {before : Pass} {type : TypeId} :
    (closed before p id type).placeholders.size = p.placeholders.size := Array.size_modify

theorem forget_eq (p : Pass) (ids : List PlaceholderId) :
    p.forget ids = { p with placeholders := (p.forget ids).placeholders } := by
  induction ids generalizing p with
  | nil => rfl
  | cons id ids ih =>
    change (p.updatePlaceholder id _).forget ids = _
    rw [ih]
    rfl

theorem size_placeholders_forget (p : Pass) (ids : List PlaceholderId) :
    (p.forget ids).placeholders.size = p.placeholders.size := by
  induction ids generalizing p with
  | nil => rfl
  | cons id ids ih => exact (ih _).trans Array.size_modify

theorem placeholder_forget (p : Pass) (ids : List PlaceholderId) (id : PlaceholderId) :
    (p.forget ids).placeholder id =
      { p.placeholder id with result := if id ∈ ids then none else (p.placeholder id).result } := by
  induction ids generalizing p with
  | nil => simp [forget]
  | cons other ids ih =>
    change ((p.updatePlaceholder other _).forget ids).placeholder id = _
    rw [ih]
    by_cases heq : id = other
    · subst heq
      by_cases hlt : id.index < p.placeholders.size
      · rw [placeholder_updatePlaceholder_self hlt]
        simp
      · have hsize : (p.updatePlaceholder id ({ · with result := none })).placeholders.size ≤
            id.index := by
          simpa [updatePlaceholder] using hlt
        rw [placeholder_of_le (Nat.le_of_not_lt hlt), placeholder_of_le hsize]
        simp [default, instInhabitedPlaceholder.default]
    · rw [placeholder_updatePlaceholder_of_ne heq]
      simp [heq]

theorem size_placeholders_takenBack (before p : Pass) :
    (takenBack before p).placeholders.size = p.placeholders.size :=
  size_placeholders_forget p _

theorem takeBack_eq (before : Pass) :
    Typing.takeBack before = modify (Pass.takenBack before) := by
  unfold Typing.takeBack
  congr 1
  funext p
  obtain ⟨placeholders, heq⟩ : ∃ placeholders,
      p.forget (p.resolved.take (p.resolved.length - before.resolved.length)) =
        { p with placeholders } := ⟨_, p.forget_eq _⟩
  unfold Pass.takenBack
  dsimp only
  rw [heq]
  unfold forget at heq
  rw [heq]
  rfl

end

/-- A local whose type is asked for at a place, where it stands, and its placeholder. What leads to
the place leads to the local. -/
structure Awaits (a : Arena) (R : Tree) (base : Nat) (p : Pass) (path : List Tree) (D : Tree)
    (around : List Tree) (id : PlaceholderId) : Prop where
  stands : p.Stands a R base path
  within : R.Within around D
  split : ∃ inner G B rest, path = inner ++ B :: rest ∧ around = G :: B :: rest ∧
    G.form = .expr .locals ∧ B.form = .expr .block ∧ D ∈ B.locals
  current : p.current? D = some id
  waiting : p.Waiting id
  leads : ∀ x, Leads a R path x → Leads a R (D :: around) x

/-- From there typing has gone into the value of the local. -/
structure Enters (a : Arena) (R : Tree) (base : Nat) (p : Pass) (path : List Tree) (D : Tree)
    (around : List Tree) (id : PlaceholderId) (q : Pass) : Prop where
  grows : p.Grows (D :: around) (p.Touches path []) q
  stands : q.Stands a R base (D :: around)
  resolving_eq : q.resolving = id :: p.resolving
  escapes_eq : R.ExitFree → q.escapes = p.escapes
  breaks_eq : R.ExitFree → q.breaks = p.breaks

section

variable {a : Arena} {R D E V X : Tree} {base : Nat} {p q q' : Pass} {path path' around : List Tree}
  {region : NodeId → Prop} {id other : PlaceholderId} {type : TypeId} {x : NodeId} {scope : ScopeId}
  {name : String}

theorem Sound.updatePlaceholder (h : p.Sound) {change : Placeholder → Placeholder}
    (hdeclared : ∀ e, (change e).declared = e.declared)
    (hresult : ∀ type ∈ (change (p.placeholder id)).result, type.index < p.table.size) :
    (p.updatePlaceholder id change).Sound where
  space := h.space
  checker := h.checker
  known_lt := h.known_lt
  declared_lt other := by
    rcases p.placeholder_updatePlaceholder_eq_or id other change with heq | ⟨-, heq⟩ <;> rw [heq]
    · exact h.declared_lt other
    · rw [hdeclared]
      exact h.declared_lt id
  result_lt other := by
    rcases p.placeholder_updatePlaceholder_eq_or id other change with heq | ⟨-, heq⟩ <;> rw [heq]
    · exact h.result_lt other
    · exact hresult
  types_lt := h.types_lt
  escapes_lt := h.escapes_lt
  breaks_lt := h.breaks_lt

theorem Sound.takenBack (h : p.Sound) (h' : q.Sound) (hmore : p.table.Extends q.table) :
    (takenBack p q).Sound := by
  obtain ⟨hlt, hknown⟩ := hmore.allBound h.checker.bound_lt h.checker.bound_known
  have hplaceholder := q.placeholder_forget (q.resolved.take (q.resolved.length - p.resolved.length))
  refine ⟨h'.space.withLog _, h'.checker.rollback hlt hknown, h'.known_lt, fun id => ?_, fun id => ?_,
    h'.types_lt, fun exit hexit => h'.escapes_lt exit (List.mem_of_mem_take hexit),
    fun type htype => h'.breaks_lt type (List.mem_of_mem_take htype)⟩
  · change ∀ type ∈ ((q.forget _).placeholder id).declared, _
    rw [hplaceholder]
    exact h'.declared_lt id
  · change ∀ type ∈ ((q.forget _).placeholder id).result, _
    rw [hplaceholder]
    intro type htype
    dsimp only at htype
    split at htype
    · cases htype
    · exact h'.result_lt id type htype

theorem Sound.withLog (h : p.Sound) (log : Log) :
    Sound { p with space := { p.space with log } } :=
  { h with space := h.space.withLog log }

theorem Sound.marked (h : p.Sound) : (marked a x name p id).Sound := by
  have hupdate : (p.updatePlaceholder id ({ · with result := some .anything })).Sound :=
    h.updatePlaceholder (fun _ => rfl) fun type htype => by
      cases htype
      exact h.lt_of_builtin (by decide)
  exact hupdate.withLog _

theorem blamed_marked_iff (hbase : base ≤ p.log.size) :
    (marked a D.id name p id).Blamed base x ↔ p.Blamed base x ∨ x = D.id := by
  have hmem : ∀ r, r ∈ (marked a D.id name p id).log.since base ↔ _ := fun r =>
    Log.mem_since_report_iff hbase
  constructor
  · rintro ⟨r, hr, rfl, hname⟩
    rcases (hmem r).mp hr with hr | rfl
    · exact .inl ⟨r, hr, rfl, hname⟩
    · exact .inr rfl
  · rintro (⟨r, hr, hblame⟩ | rfl)
    · exact ⟨r, (hmem r).mpr (.inl hr), hblame⟩
    · exact ⟨_, (hmem _).mpr (.inr rfl), rfl, name, rfl⟩

theorem Fair.marked (h : p.Fair a R base) (hcyclic : Cyclic a R D.id) :
    (marked a D.id name p id).Fair a R base where
  sound := h.sound.marked
  resolving_lt other hother :=
    (h.resolving_lt other hother).trans_le (by simp [Pass.marked, Pass.updatePlaceholder])
  base_le := h.base_le.trans (by simp [Pass.marked, Pass.log, Log.report, Log.size])
  flagged other hother := by
    rcases placeholder_marked a D.id name p id other with heq | ⟨rfl, heq⟩ <;>
      rw [heq] at hother ⊢ <;> exact h.flagged _ hother
  blamed x hx := by
    rcases (blamed_marked_iff h.base_le).mp hx with hx | rfl
    · exact h.blamed x hx
    · exact hcyclic

theorem Answers.lt (h : p.Answers id type) (hp : p.Sound) : type.index < p.table.size := by
  rcases h with hfound | ⟨-, -, hdeclared | ⟨-, -, rfl⟩⟩
  · exact hp.result_lt id type hfound
  · exact hp.declared_lt id type hdeclared
  · exact hp.lt_of_builtin (by decide)

theorem Answers.not_waiting (h : p.Answers id type) : ¬ p.Waiting id := fun hwaiting => by
  rcases h with hfound | ⟨-, hmem, -⟩
  · cases hwaiting.1.symm.trans hfound
  · exact hwaiting.2 hmem

namespace Awaits

variable (h : p.Awaits a R base path D around id)
include h

theorem visible_around : Visible around D := by
  obtain ⟨_, G, B, rest, -, rfl, -, -, hD⟩ := h.split
  exact ⟨B, by simp, hD⟩

theorem visible : Visible path D := by
  obtain ⟨_, G, B, rest, rfl, -, -, -, hD⟩ := h.split
  exact ⟨B, by simp, hD⟩

theorem form_eq (hR : a.Ready R) : ∃ name mutable, D.form = .expr (.localDef name mutable) :=
  h.visible_around.exists_form_eq h.within hR.laidOut

theorem expressions_eq (hR : a.Ready R) : ∃ V, D.expressions = [V] := by
  obtain ⟨name, mutable, hform⟩ := h.form_eq hR
  exact Tree.exists_expressions_eq_of_local (h.within.laidOut hR.laidOut) hform

/-- What can be seen from the value of a local can be seen from where it is used. -/
theorem visible_of_visible (hR : a.Ready R) (hE : Visible (D :: around) E) : Visible path E := by
  obtain ⟨name, mutable, hform⟩ := h.form_eq hR
  obtain ⟨inner, G, B, rest, rfl, rfl, hgroup, -, -⟩ := h.split
  rw [visible_cons_iff (by simp [hform]), visible_cons_iff (by simp [hgroup])] at hE
  obtain ⟨C, hC, hE⟩ := hE
  exact ⟨C, List.mem_append_right _ hC, hE⟩

/-- A local around the group of another one is around where that is used. -/
theorem mem_of_visible (hR : a.Ready R) (hE : Visible (D :: around) E) (hmem : E ∈ around) :
    E ∈ path := by
  obtain ⟨inner, G, B, rest, rfl, rfl, hgroup, -, hD⟩ := h.split
  rcases List.mem_cons.mp hmem with rfl | hmem
  · obtain ⟨V, hV⟩ := h.expressions_eq hR
    obtain ⟨name, mutable, hform⟩ :=
      hE.exists_form_eq (h.within.child (hV ▸ List.mem_singleton_self V)) hR.laidOut
    cases hgroup.symm.trans hform
  · exact List.mem_append_right _ hmem

theorem spares (hR : a.Ready R) (hX : R.Within path X) : Spares a R p path (p.Touches path []) :=
  h.stands.spares hR hX fun _ hN => nomatch hN

theorem clear (hR : a.Ready R) (hX : R.Within path X) (hE : Visible (D :: around) E) :
    ¬ p.Touches path [] E.id :=
  (h.spares hR hX).visible E (h.visible_of_visible hR hE)

theorem isFor_and_frames (hR : a.Ready R) : p.IsFor id D (p.placeholder id).scope ∧
    Scoped a p (D :: around) (p.placeholder id).scope := by
  obtain ⟨name, mutable, hform⟩ := h.form_eq hR
  obtain ⟨inner, G, B, rest, rfl, rfl, hgroup, hblock, hD⟩ := h.split
  obtain ⟨scope, hframes⟩ := h.stands.frames.of_append
  obtain ⟨other, hcurrent, hfor⟩ := hframes.exists_isFor hD
  cases h.current.symm.trans hcurrent
  rw [hfor.scope_eq]
  refine ⟨hfor, .plain (by simp [hform]) (by simp [hform]) ?_⟩
  exact .plain (by simp [hgroup]) (by simp [hgroup]) hframes

theorem isFor (hR : a.Ready R) : p.IsFor id D (p.placeholder id).scope :=
  (h.isFor_and_frames hR).1

theorem frames (hR : a.Ready R) : Scoped a p (D :: around) (p.placeholder id).scope :=
  (h.isFor_and_frames hR).2

theorem declared_iff (hR : a.Ready R) : (p.placeholder id).declared = none ↔ a.types D.id = [] :=
  (h.isFor hR).declared_iff_types hR h.within

theorem exitFree (hfree : R.ExitFree) (hV : V ∈ D.expressions) : V.returns = [] ∧ V.breaks = [] := by
  obtain ⟨_, G, B, rest, -, rfl, hgroup, -, -⟩ := h.split
  exact hfree _ G D h.within hgroup V hV

theorem place (hR : a.Ready R) (hV : V ∈ D.expressions) :
    R.Within (D :: around) V ∧ Direct (D :: around) V := by
  obtain ⟨name, mutable, hform⟩ := h.form_eq hR
  exact ⟨h.within.child hV, Tree.direct_of_mem_expressions hR.locals_in_blocks h.within
    (by simp [hform]) (by simp [hform]) hV⟩

/-- Going into the value of a local. -/
theorem opened (hR : a.Ready R) : p.Enters a R base path D around id (p.opened id) := by
  have hfor := h.isFor hR
  have hgrows : p.Grows (D :: around) (fun _ => False) (p.opened id) :=
    { (Advances.refl p (D :: around) fun _ => False).toGrows with
      resolving_sub := List.subset_cons_self _ _
      resolved := ⟨[], rfl, fun _ h => (nomatch h), fun _ _ _ _ => rfl⟩ }
  have hs := h.stands
  refine ⟨hgrows.mono (fun _ h => h) fun _ => False.elim, ?_, rfl, fun _ => rfl, fun _ => rfl⟩
  refine { sound := ⟨hs.sound.space, hs.sound.checker, hs.sound.known_lt, hs.sound.declared_lt,
             hs.sound.result_lt, hs.sound.types_lt, hs.sound.escapes_lt, hs.sound.breaks_lt⟩
           resolving_lt := List.forall_mem_cons.mpr ⟨hfor.lt, hs.resolving_lt⟩
           base_le := hs.base_le
           flagged := hs.flagged
           blamed := hs.blamed
           frames := ?_, around := ?_, found := ?_, leads := ?_ }
  · exact hgrows.frames (h.frames hR) fun _ _ h => h
  · intro E hE hmem
    have hvisible := h.visible_of_visible hR hE
    rcases List.mem_cons.mp hmem with rfl | hmem
    · exact ⟨id, List.mem_cons_self, h.current⟩
    · obtain ⟨other, hother, hcurrent⟩ := hs.around E hvisible (h.mem_of_visible hR hE hmem)
      exact ⟨other, List.mem_cons_of_mem _ hother, hcurrent⟩
  · intro E other type hE hcurrent hfound
    obtain ⟨hgrounded, hcovered⟩ := hs.found E other type (h.visible_of_visible hR hE) hcurrent hfound
    refine ⟨hgrounded.mono fun _ => hgrows.safe hs.resolving_lt, fun hnot V hV => ?_⟩
    exact hgrows.covered hs.toFair hR.nodup (spares_empty _ _ _ _) (fun _ _ h => h)
      (hcovered (fun hmem => hnot (List.mem_cons_of_mem _ hmem)) V hV)
  · refine List.forall_mem_cons.mpr ⟨?_, fun other hother => h.leads _ (hs.leads other hother)⟩
    obtain ⟨name, mutable, hform⟩ := h.form_eq hR
    refine ⟨D, List.mem_cons_self, by simp [Tree.localName?, hform], .inl ?_⟩
    exact hfor.definition_eq.symm

private theorem marked_grows (name : String) :
    p.Grows (D :: around) (fun _ => False) (Pass.marked a D.id name (p.opened id) id) := by
  have hresult := (p.opened id).placeholder_marked a D.id name id
  exact {
    resolving_sub := List.subset_cons_self _ _
    table := .refl _
    log := ⟨_, p.log.toList_report a D.id _⟩
    terms_le := Nat.le_refl _
    frame_eq := fun _ _ => rfl
    placeholders_le := by simp [Pass.marked, Pass.updatePlaceholder, Pass.opened]
    placeholder_eq := fun other _ => by
      rcases hresult other with heq | ⟨rfl, heq⟩ <;> rw [heq] <;> rfl
    cyclic := fun other hother => by
      rcases hresult other with heq | ⟨rfl, heq⟩ <;> rw [heq] <;> exact hother
    waiting := fun other _ hne => by
      rcases hresult other with heq | ⟨rfl, heq⟩
      · exact absurd (congrArg Placeholder.result heq) hne
      · exact ⟨h.waiting, D, h.visible_around.cons D, h.current⟩
    resolved := by
      refine ⟨[], rfl, fun _ h => (nomatch h), fun other _ _ hnot => ?_⟩
      rcases hresult other with heq | ⟨rfl, heq⟩
      · rw [heq, placeholder_opened]
      · exact absurd List.mem_cons_self hnot
    types_eq := fun _ _ => rfl
    ofLocal_eq := fun _ _ => rfl }

/-- A local that turned out to be recursive may be anything while its value is typed again. -/
theorem marked (hR : a.Ready R) (hX : R.Within path X) (hcyclic : Cyclic a R D.id) (name : String) :
    p.Enters a R base path D around id (marked a D.id name (p.opened id) id) := by
  have hfor := h.isFor hR
  have hstart := (h.opened hR).stands
  have hresult := (p.opened id).placeholder_marked a D.id name id
  have hlt : id.index < (p.opened id).placeholders.size := hfor.lt
  have hself : ((Pass.marked a D.id name (p.opened id) id).placeholder id).result = some .anything := by
    rw [placeholder_marked_self hlt]
  have hgrows := h.marked_grows name
  have hmore : ∀ x, (p.opened id).Blamed base x ∨ x = D.id →
      (Pass.marked a D.id name (p.opened id) id).Blamed base x := fun x =>
    (blamed_marked_iff hstart.base_le).mpr
  have hanswers : ∀ other type, (p.opened id).Answers other type →
      (Pass.marked a D.id name (p.opened id) id).Answers other type := by
    intro other type hanswers
    rcases hresult other with heq | ⟨rfl, -⟩
    · rw [Answers, heq]
      exact hanswers
    · rcases hanswers with hfound | ⟨-, -, hgiven | ⟨-, -, rfl⟩⟩
      · cases h.waiting.1.symm.trans hfound
      · cases ((h.declared_iff hR).mpr hcyclic.1).symm.trans hgiven
      · exact .inl hself
  have hsafe : ∀ x, (p.opened id).Safe a base x →
      (Pass.marked a D.id name (p.opened id) id).Safe a base x := by
    rintro x (hdeclared | hblamed | ⟨other, hother, hdefinition, hflagged⟩)
    · exact .inl hdeclared
    · exact .inr (.inl (hmore x (.inl hblamed)))
    · refine .inr (.inr ⟨other, hother, ?_⟩)
      rcases hresult other with heq | ⟨rfl, heq⟩ <;> rw [heq] <;> exact ⟨hdefinition, hflagged⟩
  refine ⟨hgrows.mono (fun _ h => h) fun _ => False.elim, ?_, rfl, fun _ => rfl, fun _ => rfl⟩
  refine { hstart.toFair.marked hcyclic with
    frames := hgrows.frames (h.frames hR) fun _ _ h => h
    around := hstart.around
    found := fun E other type hE hcurrent hfound => ?_
    leads := fun other hother => ?_ }
  · rcases hresult other with heq | ⟨rfl, -⟩
    · rw [heq] at hfound
      obtain ⟨hgrounded, hcovered⟩ := hstart.found E other type hE hcurrent hfound
      have hbefore : (p.opened id).Precedes (Pass.marked a D.id name (p.opened id) id) :=
        hgrows.precedes
      have htypes := hstart.sound.types_lt
      exact ⟨hgrounded.mono hsafe, fun hnot V hV path' X hX hmem =>
        (hcovered hnot V hV path' X hX hmem).transfer rfl
          (fun found hfound hmade => hmade.keep hstart.sound.space.table hbefore
            (hX.nodup hR.nodup) htypes (htypes _ (mem_of_lookup_eq_some hfound)) fun _ _ _ => rfl)
          (fun _ _ => rfl) hanswers hsafe⟩
    · rw [h.stands.eq_of_current hR.nodup hX (h.visible_of_visible hR hE) h.visible hcurrent h.current]
      exact ⟨.safe (.inr (.inl (hmore _ (.inr rfl)))), fun hnot => absurd List.mem_cons_self hnot⟩
  · rcases hresult other with heq | ⟨rfl, heq⟩ <;> rw [heq] <;> exact hstart.leads _ hother

end Awaits

/-- Placeholders that were there lose the types that were found for them, and nothing else. -/
theorem Advances.placeholder_takenBack (h : p.Advances path region q)
    (hlt : other.index < p.placeholders.size) : (takenBack p q).placeholder other =
      { p.placeholder other with cyclic := (q.placeholder other).cyclic } := by
  obtain ⟨recent, heq, hnone, hsame⟩ := h.resolved
  have hrecent : q.resolved.take (q.resolved.length - p.resolved.length) = recent := by simp [heq]
  have hresult : (if other ∈ recent then none else (q.placeholder other).result) =
      (p.placeholder other).result := by
    split
    · next hmem => exact (hnone other hmem).symm
    · next hmem =>
      by_cases hresolving : other ∈ q.resolving
      · by_contra hne
        exact (h.waiting other hlt hne).1.2 (h.resolving_eq ▸ hresolving)
      · exact hsame other hlt hmem hresolving
  change (q.forget _).placeholder other = _
  rw [placeholder_forget, hrecent, hresult, h.placeholder_eq other hlt]

theorem Advances.placeholder_marked_takenBack (h : p.Advances path region q) (node : NodeId)
    (name : String) (hlt : other.index < p.placeholders.size) :
    (marked a node name (takenBack p q) id).placeholder other =
      { (marked a node name p id).placeholder other with
        cyclic := (q.placeholder other).cyclic } := by
  have hsize := size_placeholders_takenBack p q
  by_cases heq : other = id
  · subst heq
    rw [placeholder_marked_self hlt, placeholder_marked_self, h.placeholder_takenBack hlt]
    exact hlt.trans_le (h.placeholders_le.trans_eq hsize.symm)
  · rw [placeholder_marked_of_ne heq, placeholder_marked_of_ne heq, h.placeholder_takenBack hlt]

/-- What was found since a state is taken back and a local is reported. From the state with just
that report, only types of nodes and the placeholders of inner locals are new. -/
theorem Advances.marked_takenBack (h : p.Advances path region q) (node : NodeId) (name : String) :
    (marked a node name p id).Advances path region (marked a node name (takenBack p q) id) := by
  have hplaceholder : ∀ other : PlaceholderId, other.index < p.placeholders.size →
      (marked a node name (takenBack p q) id).placeholder other =
        { (marked a node name p id).placeholder other with
          cyclic := (q.placeholder other).cyclic } :=
    fun _ => h.placeholder_marked_takenBack node name
  have hsize : (marked a node name p id).placeholders.size = p.placeholders.size :=
    size_placeholders_marked
  obtain ⟨more, hlog⟩ := h.log
  have hlogs : (takenBack p q).space.log = p.space.log := Log.restore_eq hlog
  obtain ⟨recent, hresolved, -⟩ := h.resolved
  exact {
    scope_eq := h.scope_eq
    typeScope_eq := h.typeScope_eq
    resolving_eq := h.resolving_eq
    resolving_sub := h.resolving_sub
    table := h.table
    log := ⟨[], by simp [marked, updatePlaceholder, Pass.log, hlogs]⟩
    terms_le := h.terms_le
    frame_eq := h.frame_eq
    placeholders_le := by
      rw [hsize, size_placeholders_marked, size_placeholders_takenBack]
      exact h.placeholders_le
    placeholder_eq := fun other hother => by
      rw [hplaceholder other (hsize ▸ hother)]
    cyclic := fun other hother => by
      have hlt : other.index < p.placeholders.size := by
        by_contra hle
        rw [placeholder_of_le (hsize ▸ Nat.le_of_not_lt hle)] at hother
        cases hother
      rw [hplaceholder other hlt]
      refine h.cyclic other ?_
      rcases p.placeholder_marked a node name id other with heq | ⟨rfl, heq⟩ <;> rw [heq] at hother <;>
        exact hother
    waiting := fun other hother hne => by
      rw [hplaceholder other (hsize ▸ hother)] at hne
      exact absurd rfl hne
    resolved := ⟨[], by simp [marked, Pass.takenBack, updatePlaceholder, hresolved], fun _ h => (nomatch h),
      fun other hother _ _ => by rw [hplaceholder other (hsize ▸ hother)]⟩
    types_eq := h.types_eq
    ofLocal_eq := h.ofLocal_eq }

theorem Advances.fair_takenBack (h : p.Advances path region q) (hp : p.Fair a R base)
    (hq : q.Fair a R base) : (takenBack p q).Fair a R base := by
  obtain ⟨more, hlog⟩ := h.log
  have hlogs : (takenBack p q).log = p.log := Log.restore_eq hlog
  refine ⟨hp.sound.takenBack hq.sound h.table, fun other hother => ?_, ?_, fun other hother => ?_, ?_⟩
  · rw [size_placeholders_takenBack]
    exact hq.resolving_lt other hother
  · rw [hlogs]
    exact hp.base_le
  · change ((q.forget _).placeholder other).cyclic = true at hother
    change Cyclic a R ((q.forget _).placeholder other).definition
    rw [placeholder_forget] at hother ⊢
    exact hq.flagged other hother
  · unfold Blamed
    rw [hlogs]
    exact hp.blamed

/-- A local whose type is being found is not among those that are touched. -/
theorem touches_marked {roots : List Tree} {node : NodeId} (hid : id ∈ p.resolving)
    (hx : p.Touches path roots x) : (marked a node name p id).Touches path roots x := by
  refine hx.imp_right fun ⟨E, other, W, hE, hcurrent, hwaiting, hW⟩ =>
    ⟨E, other, W, hE, hcurrent, ⟨?_, hwaiting.2⟩, hW⟩
  rw [placeholder_marked_of_ne]
  · exact hwaiting.1
  · rintro rfl
    exact hwaiting.2 hid

namespace Enters

variable (h : p.Enters a R base path D around id q) (hA : p.Awaits a R base path D around id)
include h hA

/-- Typing the value touches nothing that was not touched before. -/
theorem touches (hR : a.Ready R) (hX : R.Within path X) (hV : V ∈ D.expressions)
    (hx : q.Touches (D :: around) [V] x) : p.Touches path [] x := by
  rcases hx with ⟨N, hN, hx⟩ | ⟨E, other, W, hE, hcurrent, hwaiting, hW, hx⟩
  · rw [List.mem_singleton.mp hN] at hx
    exact .inr ⟨D, id, V, hA.visible, hA.current, hA.waiting, hV, hx⟩
  · rw [h.grows.current?_eq (hA.clear hR hX hE)] at hcurrent
    exact .inr ⟨E, other, W, hA.visible_of_visible hR hE, hcurrent, h.grows.waiting_of hwaiting, hW, hx⟩

theorem advance (hR : a.Ready R) (hX : R.Within path X)
    (hadv : q.Advances (D :: around) (p.Touches path []) q') (hstands : q'.Stands a R base (D :: around))
    (hescapes : R.ExitFree → q'.escapes = q.escapes) (hbreaks : R.ExitFree → q'.breaks = q.breaks) :
    p.Enters a R base path D around id q' where
  grows := h.grows.trans hadv.toGrows fun _ => hA.clear hR hX
  stands := hstands
  resolving_eq := hadv.resolving_eq.trans h.resolving_eq
  escapes_eq hfree := (hescapes hfree).trans (h.escapes_eq hfree)
  breaks_eq hfree := (hbreaks hfree).trans (h.breaks_eq hfree)

/-- Going back to the start, with the local reported. -/
theorem retried (hR : a.Ready R) (hX : R.Within path X) (hV : V ∈ D.expressions)
    (hadv : (p.opened id).Advances (D :: around) ((p.opened id).Touches (D :: around) [V]) q)
    (hflagged : (q.placeholder id).cyclic = true) (name : String) :
    p.Enters a R base path D around id (marked a D.id name (takenBack (p.opened id) q) id) := by
  have hstart := hA.opened hR
  have hcyclic : Cyclic a R D.id := by
    have hcyclic := h.stands.flagged id hflagged
    rwa [h.grows.definition_eq (hA.isFor hR).lt, (hA.isFor hR).definition_eq] at hcyclic
  have hmarked := hA.marked hR hX hcyclic name
  have hplace := hA.place hR hV
  generalize hfresh : marked a D.id name (p.opened id) id = fresh at hmarked
  have hback : fresh.Advances (D :: around) (fresh.Touches (D :: around) [V])
      (marked a D.id name (takenBack (p.opened id) q) id) := by
    rw [← hfresh]
    exact (hadv.marked_takenBack D.id name).mono (fun _ h => h) fun _ =>
      touches_marked List.mem_cons_self
  have hsame : ∀ other : PlaceholderId, other.index < p.placeholders.size →
      ((marked a D.id name (takenBack (p.opened id) q) id).placeholder other).result =
        (fresh.placeholder other).result := fun other hother => by
    rw [hadv.placeholder_marked_takenBack D.id name hother, hfresh]
  refine hmarked.advance hA hR hX (hback.mono (fun _ h => h) fun x => hmarked.touches hA hR hX hV) ?_
    (fun hfree => ?_) fun hfree => ?_
  · refine hmarked.stands.advance hR.nodup hback
      ((hadv.fair_takenBack hstart.stands.toFair h.stands.toFair).marked hcyclic)
      (hmarked.stands.spares hR hplace.1 fun N hN => List.mem_singleton.mp hN ▸ hplace)
      fun E other type hE hcurrent hwaiting hfound => ?_
    -- No type is found meanwhile.
    rw [hmarked.grows.current?_eq (hA.clear hR hX hE)] at hcurrent
    obtain ⟨_, _, hcurrent', hfor⟩ := hA.stands.frames.visible (hA.visible_of_visible hR hE)
    cases hcurrent.symm.trans hcurrent'
    rw [hsame other hfor.lt, hwaiting.1] at hfound
    cases hfound
  · refine Eq.trans ?_ (hmarked.escapes_eq hfree).symm
    change q.escapes.take p.escapes.length = _
    rw [h.escapes_eq hfree, List.take_length]
  · refine Eq.trans ?_ (hmarked.breaks_eq hfree).symm
    change q.breaks.take p.breaks.length = _
    rw [h.breaks_eq hfree, List.take_length]

/-- Typing the value once, be it declared or not. -/
theorem valueType_ends (hR : a.Ready R) (hX : R.Within path X) {entered : List NodeId}
    {compute : NodeId → Typing TypeId} (hcompute : Computes a R base entered compute)
    (hentered : ∀ x ∈ entered, ¬ p.Touches path [] x) (hV : V ∈ D.expressions)
    {declared : Option TypeId} (hdeclared : ∀ type ∈ declared, type.index < q.table.size) :
    Ends (Typing.valueType a compute (some V.id) declared) q fun type q' =>
      q.Advances (D :: around) (q.Touches (D :: around) [V]) q' ∧
        p.Enters a R base path D around id q' ∧ q'.Covered a R base V ∧
        type.index < q'.table.size ∧ ∀ expected ∈ declared, type = expected := by
  obtain ⟨hwithin, hdirect⟩ := hA.place hR hV
  have htouches : ∀ x, q.Touches (D :: around) [V] x → p.Touches path [] x := fun x =>
    h.touches hA hR hX hV
  rw [Typing.valueType, ends_bind_iff]
  refine (hcompute q (D :: around) V h.stands hwithin hdirect
    fun x hx htouched => hentered x hx (htouches x htouched)).mono ?_
  rintro found q₁ ⟨hvisits, hfound⟩
  have hcovered := hvisits.covered V (List.mem_singleton_self V)
  have henters : p.Enters a R base path D around id q₁ := by
    refine h.advance hA hR hX (hvisits.advances.mono (fun _ h => h) htouches) hvisits.stands
      (fun hfree => ?_) fun hfree => ?_
    · rw [hvisits.escapes_eq hfree, List.flatMap_singleton, (hA.exitFree hfree hV).1]
      exact List.append_nil _
    · rw [hvisits.breaks_eq hfree, List.flatMap_singleton, (hA.exitFree hfree hV).2]
      exact List.append_nil _
  -- Comparing the type with the declared one changes nothing of this.
  have hquiet : ∀ q₂ type, q₁.Quiet q₂ → type.index < q₂.table.size →
      (∀ expected ∈ declared, type = expected) →
        q.Advances (D :: around) (q.Touches (D :: around) [V]) q₂ ∧
          p.Enters a R base path D around id q₂ ∧ q₂.Covered a R base V ∧
          type.index < q₂.table.size ∧ ∀ expected ∈ declared, type = expected := by
    intro q₂ type hquiet hlt hexpected
    refine ⟨hvisits.advances.trans (hquiet.advances _ _) fun E hE htouched => ?_, ?_, ?_, hlt,
      hexpected⟩
    · exact hA.clear hR hX hE (htouches _ htouched)
    · refine henters.advance hA hR hX (hquiet.advances _ _) (henters.stands.quiet hR.nodup hquiet)
        (fun _ => ?_) fun _ => ?_ <;> rw [hquiet.eq]
    · exact (hquiet.advances _ fun _ => False).covered henters.stands.toFair hR.nodup
        (spares_empty a R q₁ path) (fun _ _ h => h) hcovered
  have hlt : found.index < q₁.table.size :=
    hvisits.stands.sound.types_lt _ (mem_of_lookup_eq_some hfound)
  cases declared with
  | none => exact hquiet q₁ found (.refl hvisits.stands.sound) hlt fun _ h => nomatch h
  | some expected =>
    have hexpected : expected.index < q₁.table.size :=
      hvisits.advances.table.lt (hdeclared expected rfl)
    rw [ends_bind_iff]
    refine (Typing.fits_ends hvisits.stands.sound hexpected hlt).mono fun verdict q₂ h₂ => ?_
    have hsame : ∀ other ∈ some expected, expected = other := fun _ h => Option.some.inj h
    split
    · rw [ends_bind_iff]
      refine (Typing.report_ends h₂.sound (by simp)).mono fun _ q₃ h₃ => ?_
      exact hquiet q₃ expected (h₂.trans h₃) ((h₂.trans h₃).table.lt hexpected) hsame
    · exact hquiet q₂ expected h₂ (h₂.table.lt hexpected) hsame

omit hA in
theorem resolving_closed (type : TypeId) : (Pass.closed p q id type).resolving = p.resolving := by
  change q.resolving.drop 1 = _
  rw [h.resolving_eq]
  rfl

theorem closed_advances (hR : a.Ready R) (type : TypeId) :
    p.Advances path (p.Touches path []) (closed p q id type) := by
  have hresult := fun other => placeholder_closed p q id other type
  have hresolving := h.resolving_closed type
  obtain ⟨recent, hresolved, hnone, hsame⟩ := h.grows.resolved
  exact {
    scope_eq := rfl
    typeScope_eq := rfl
    resolving_eq := hresolving
    resolving_sub := fun _ hother => hresolving ▸ hother
    table := h.grows.table
    log := h.grows.log
    terms_le := h.grows.terms_le
    frame_eq := h.grows.frame_eq
    placeholders_le := by
      rw [size_placeholders_closed]
      exact h.grows.placeholders_le
    placeholder_eq := fun other hother => by
      rcases hresult other with heq | ⟨rfl, heq⟩ <;> rw [heq] <;>
        rw [h.grows.placeholder_eq other hother]
    cyclic := fun other hother => by
      rcases hresult other with heq | ⟨rfl, heq⟩ <;> rw [heq] <;> exact h.grows.cyclic other hother
    waiting := fun other hother hne => by
      rcases hresult other with heq | ⟨rfl, -⟩
      · rw [heq] at hne
        obtain ⟨hwaiting, E, hE, hcurrent⟩ := h.grows.waiting other hother hne
        exact ⟨hwaiting, E, hA.visible_of_visible hR hE, hcurrent⟩
      · exact ⟨hA.waiting, D, hA.visible, hA.current⟩
    resolved := by
      refine ⟨id :: recent, congrArg (id :: ·) hresolved, ?_, fun other hother hnot hdone => ?_⟩
      · exact List.forall_mem_cons.mpr ⟨hA.waiting.1, hnone⟩
      · rw [List.mem_cons, not_or] at hnot
        rw [placeholder_closed_of_ne p hnot.1]
        refine hsame other hother hnot.2 fun hmem => ?_
        rw [h.resolving_eq] at hmem
        exact (List.mem_cons.mp hmem).elim hnot.1 fun hmem => hdone (hresolving ▸ hmem)
    types_eq := h.grows.types_eq
    ofLocal_eq := h.grows.ofLocal_eq }

omit hA in
theorem closed_fair (hlt : type.index < q.table.size) : (closed p q id type).Fair a R base := by
  have hq := h.stands.toFair
  have hupdate : (q.updatePlaceholder id ({ · with result := some type })).Sound :=
    hq.sound.updatePlaceholder (fun _ => rfl) fun other hother => by
      cases hother
      exact hlt
  refine ⟨⟨hupdate.space, hupdate.checker, hupdate.known_lt, hupdate.declared_lt, hupdate.result_lt,
    hupdate.types_lt, hupdate.escapes_lt, hupdate.breaks_lt⟩, fun other hother => ?_, hq.base_le,
    fun other hother => ?_, hq.blamed⟩
  · rw [size_placeholders_closed]
    exact hq.resolving_lt other (List.mem_of_mem_drop hother)
  · rcases placeholder_closed p q id other type with heq | ⟨rfl, heq⟩ <;> rw [heq] at hother ⊢ <;>
      exact hq.flagged _ hother

omit h hA in
theorem answers_closed_self (hlt : id.index < q.placeholders.size) (type : TypeId) :
    (Pass.closed p q id type).Answers id type := by
  refine .inl ?_
  rw [placeholder_closed_self p hlt]

omit hA in
/-- What a local was answered with while its value was typed, it is answered with afterwards. -/
theorem answers_closed (hlt : id.index < q.placeholders.size)
    (hanswer : ∀ other, q.Answers id other → other = type) {other : PlaceholderId} {given : TypeId}
    (hgiven : q.Answers other given) : (Pass.closed p q id type).Answers other given := by
  by_cases heq : other = id
  · subst heq
    rw [hanswer given hgiven]
    exact answers_closed_self hlt type
  · rw [Answers, placeholder_closed_of_ne p heq, h.resolving_closed type]
    refine hgiven.imp_right fun ⟨hnone, hmem, hgiven⟩ => ⟨hnone, ?_, hgiven⟩
    rw [h.resolving_eq] at hmem
    exact (List.mem_cons.mp hmem).resolve_left heq

/-- What is safe stays so if the local that is left, should it be on a cycle, has a declared type or
has been blamed. -/
theorem safe_closed (hR : a.Ready R) (type : TypeId)
    (hsafe : (q.placeholder id).cyclic = true → a.types D.id ≠ [] ∨ q.Blamed base D.id)
    {x : NodeId} (hx : q.Safe a base x) : (Pass.closed p q id type).Safe a base x := by
  have hfor := hA.isFor hR
  rcases hx with hdeclared | hblamed | ⟨other, hother, rfl, hflagged⟩
  · exact .inl hdeclared
  · exact .inr (.inl hblamed)
  · rw [h.resolving_eq] at hother
    rcases List.mem_cons.mp hother with rfl | hother
    · rw [h.grows.definition_eq hfor.lt, hfor.definition_eq]
      exact (hsafe hflagged).imp_right .inl
    · refine .inr (.inr ⟨other, (h.resolving_closed type).symm ▸ hother, ?_⟩)
      rcases placeholder_closed p q id other type with heq | ⟨rfl, heq⟩ <;> rw [heq] <;>
        exact ⟨rfl, hflagged⟩

omit h in
/-- A local is grounded if all that its value uses is. -/
theorem grounded_of_covered (hR : a.Ready R) {safe : NodeId → Prop}
    (hcovered : ∀ V ∈ D.expressions, q.Covered a R base V)
    (hsafe : ∀ x, q.Safe a base x → safe x) : Grounded a R safe D.id := by
  refine .uses ?_
  rintro _ ⟨path', Y, name, A, E, hY, huse, hbinds, rfl, hmem, -, hid⟩
  obtain ⟨_, _, -, hwithin⟩ := hY.exists_of_mem hmem
  rw [(hwithin.unique hA.within hR.nodup hid).2] at hmem
  obtain ⟨V, hV, hVmem⟩ := hY.exists_child hmem
  obtain ⟨_, -, -, hdenoted⟩ := hcovered V hV path' Y hY hVmem
  obtain ⟨_, -, -, hgrounded⟩ := hdenoted E (.inl ⟨name, huse, hbinds⟩)
  exact hgrounded.mono hsafe

/-- Coming back from the value of a local with its type. -/
theorem closed (hR : a.Ready R) (hX : R.Within path X)
    (hcovered : ∀ V ∈ D.expressions, q.Covered a R base V)
    (hanswer : ∀ other, q.Answers id other → other = type)
    (hsafe : (q.placeholder id).cyclic = true → a.types D.id ≠ [] ∨ q.Blamed base D.id)
    (hlt : type.index < q.table.size) :
    p.Visits a R base path (p.Touches path []) [] (closed p q id type) ∧
      (Pass.closed p q id type).Answers id type ∧
        Grounded a R ((Pass.closed p q id type).Safe a base) D.id := by
  have hid : id.index < q.placeholders.size :=
    (hA.isFor hR).lt.trans_le h.grows.placeholders_le
  have hanswers : ∀ other given, q.Answers other given →
      (Pass.closed p q id type).Answers other given := fun _ _ =>
    h.answers_closed hid hanswer
  have hsafe : ∀ x, q.Safe a base x → (Pass.closed p q id type).Safe a base x := fun _ =>
    h.safe_closed hA hR type hsafe
  have hcovers : ∀ N, q.Covered a R base N → (Pass.closed p q id type).Covered a R base N :=
    fun N hN path' X hX hmem => (hN path' X hX hmem).transfer rfl (fun _ _ h => h) (fun _ _ => rfl)
      hanswers hsafe
  have hgrounded := grounded_of_covered hA hR hcovered hsafe
  have hadv := h.closed_advances hA hR type
  refine ⟨⟨hadv, ?_, fun _ h => (nomatch h), fun hfree => ?_, fun hfree => ?_⟩,
    answers_closed_self hid type, hgrounded⟩
  · refine hA.stands.advance hR.nodup hadv (h.closed_fair hlt) (hA.spares hR hX)
      fun E other found hE hcurrent hwaiting hfound => ?_
    by_cases heq : other = id
    · subst heq
      rw [hA.stands.eq_of_current hR.nodup hX hE hA.visible hcurrent hA.current]
      exact ⟨hgrounded, fun V hV => hcovers V (hcovered V hV)⟩
    · rw [placeholder_closed_of_ne p heq] at hfound
      have hne : (q.placeholder other).result ≠ (p.placeholder other).result := by
        rw [hfound, hwaiting.1]
        nofun
      have hother : other.index < p.placeholders.size := by
        obtain ⟨_, _, hcurrent', hfor'⟩ := hA.stands.frames.visible hE
        cases hcurrent.symm.trans hcurrent'
        exact hfor'.lt
      obtain ⟨-, F, hF, hcurrent'⟩ := h.grows.waiting other hother hne
      rw [hA.stands.eq_of_current hR.nodup hX hE (hA.visible_of_visible hR hF) hcurrent hcurrent']
      rw [← h.grows.current?_eq (hA.clear hR hX hF)] at hcurrent'
      obtain ⟨hgrounded, hcovered⟩ := h.stands.found F other found hF hcurrent' hfound
      refine ⟨hgrounded.mono hsafe, fun V hV => hcovers V (hcovered (fun hmem => ?_) V hV)⟩
      rw [h.resolving_eq] at hmem
      exact (List.mem_cons.mp hmem).elim heq hwaiting.2
  · refine (h.escapes_eq hfree).trans ?_
    simp
  · refine (h.breaks_eq hfree).trans ?_
    simp

end Enters

section

variable {entered : List NodeId} {compute : NodeId → Typing TypeId}

theorem Awaits.resolveNow_ends (h : p.Awaits a R base path D around id) (hR : a.Ready R)
    (hX : R.Within path X) (hcompute : Computes a R base entered compute)
    (hentered : ∀ x ∈ entered, ¬ p.Touches path [] x) :
    Ends (Typing.resolveNow a compute id) p fun type p' =>
      p.Visits a R base path (p.Touches path []) [] p' ∧ p'.Answers id type ∧
        Grounded a R (p'.Safe a base) D.id := by
  obtain ⟨V, hV⟩ := h.expressions_eq hR
  have hfor := h.isFor hR
  have hmem : V ∈ D.expressions := hV ▸ List.mem_singleton_self V
  have hall : ∀ {q : Pass}, q.Covered a R base V → ∀ W ∈ D.expressions, q.Covered a R base W := by
    intro q hcovered W hW
    rw [hV] at hW
    exact List.mem_singleton.mp hW ▸ hcovered
  have hvalue : (p.placeholder id).value = some V.id := by
    rw [hfor.value_eq, hV]
    rfl
  have hstart := h.opened hR
  rw [Typing.resolveNow]
  simp only [ends_bind_iff, ends_get_iff, ends_modify_iff, hvalue]
  refine Ends.mono (hstart.valueType_ends h hR hX hcompute hentered hmem
    (hstart.stands.sound.declared_lt id)) ?_
  rintro found q ⟨hadv, henters, hcovered, hlt, hdeclared⟩
  split
  · next hcyclic =>
    rw [Bool.and_eq_true, Option.isNone_iff_eq_none] at hcyclic
    simp only [ends_bind_iff, takeBack_eq, ends_modify_iff]
    have hretried := henters.retried h hR hX hmem hadv hcyclic.1 (p.placeholder id).name
    have hbase : base ≤ (takenBack (p.opened id) q).log.size :=
      (hadv.fair_takenBack hstart.stands.toFair henters.stands.toFair).base_le
    have hid : id.index < (takenBack (p.opened id) q).placeholders.size := by
      rw [size_placeholders_takenBack]
      exact hfor.lt.trans_le henters.grows.placeholders_le
    change Ends _ (Pass.marked a (p.placeholder id).definition _ (takenBack (p.opened id) q) id) _
    rw [hfor.definition_eq]
    refine Ends.mono (hretried.valueType_ends h hR hX hcompute hentered hmem
      fun _ h => by cases h) ?_
    rintro _ q₂ ⟨hadv₂, henters₂, hcovered₂, -, -⟩
    have hfound : (q₂.placeholder id).result = some .anything :=
      hadv₂.result_eq (congrArg Placeholder.result (placeholder_marked_self hid))
    refine henters₂.closed h hR hX (hall hcovered₂) (fun other hanswer => ?_) (fun _ => .inr ?_)
      (henters₂.stands.sound.lt_of_builtin (by decide))
    · rcases hanswer with hother | ⟨hnone, -, -⟩
      · exact Option.some.inj (hother.symm.trans hfound)
      · cases hnone.symm.trans hfound
    · exact hadv₂.blamed ((blamed_marked_iff hbase).mpr (.inr rfl))
  · next hcyclic =>
    rw [Bool.and_eq_true, Option.isNone_iff_eq_none, not_and] at hcyclic
    have hsame := henters.grows.declared_eq hfor.lt
    refine henters.closed h hR hX (hall hcovered) (fun other hanswer => ?_) (fun hflagged => ?_) hlt
    · rcases hanswer with hother | ⟨-, -, hgiven | ⟨hnone, hflagged, -⟩⟩
      · have hne : (q.placeholder id).result ≠ ((p.opened id).placeholder id).result := by
          rw [hother, placeholder_opened, h.waiting.1]
          exact Option.some_ne_none other
        exact absurd List.mem_cons_self (hadv.waiting id hfor.lt hne).1.2
      · exact (hdeclared other (hsame ▸ hgiven)).symm
      · exact absurd (hsame.symm.trans hnone) (hcyclic hflagged)
    · exact .inl fun hnone => hcyclic hflagged ((h.declared_iff hR).mpr hnone)

/-- The type of a local that has none declared is asked for while it is being found. -/
theorem Stands.flag (h : p.Stands a R base path) (hnodup : R.ids.Nodup) (region : NodeId → Prop)
    (hcyclic : Cyclic a R (p.placeholder id).definition) :
    p.Visits a R base path region [] (p.updatePlaceholder id ({ · with cyclic := true })) := by
  have hresult := fun other => p.placeholder_updatePlaceholder_eq_or id other
    ({ · with cyclic := true })
  have hsame : ∀ other, ((p.updatePlaceholder id ({ · with cyclic := true })).placeholder other).result =
      (p.placeholder other).result := fun other => by
    rcases hresult other with heq | ⟨rfl, heq⟩ <;> rw [heq]
  have hadv : p.Advances path (fun _ => False) (p.updatePlaceholder id ({ · with cyclic := true })) :=
    { Advances.refl p path fun _ => False with
      placeholders_le := by simp [updatePlaceholder]
      placeholder_eq := fun other _ => by
        rcases hresult other with heq | ⟨rfl, heq⟩ <;> rw [heq]
      cyclic := fun other hother => by
        rcases hresult other with heq | ⟨rfl, heq⟩ <;> rw [heq]
        exact hother
      waiting := fun other _ hne => absurd (hsame other) hne
      resolved := ⟨[], rfl, fun _ h => (nomatch h), fun other _ _ _ => hsame other⟩ }
  refine ⟨hadv.mono (fun _ h => h) fun _ => False.elim, ?_, fun _ h => (nomatch h), fun _ => ?_,
    fun _ => ?_⟩
  · refine h.advance hnodup hadv ⟨?_, fun other hother => ?_, h.base_le, fun other hother => ?_, h.blamed⟩
      (spares_empty a R p path) fun D other type _ _ hwaiting hfound => ?_
    · exact h.sound.updatePlaceholder (fun _ => rfl) (h.sound.result_lt id)
    · exact (h.resolving_lt other hother).trans_le hadv.placeholders_le
    · rcases hresult other with heq | ⟨rfl, heq⟩ <;> rw [heq] at hother ⊢
      · exact h.flagged other hother
      · exact hcyclic
    · rw [hsame other, hwaiting.1] at hfound
      cases hfound
  · simp [updatePlaceholder]
  · simp [updatePlaceholder]

/-- A local that can be seen and is still to be found, when its type is asked for. -/
theorem Stands.exists_awaits (h : p.Stands a R base path) (hX : R.Within path X)
    (hD : Visible path D) (hcurrent : p.current? D = some id) (hwaiting : p.Waiting id)
    (hleads : ∀ path' x, R.Within path' D → Leads a R path x → Leads a R (D :: path') x) :
    ∃ around, p.Awaits a R base path D around id := by
  obtain ⟨inner, B, rest, G, rfl, hblock, hgroup, hlocal, hwithin⟩ := hD.exists_within hX
  exact ⟨_, h, hwithin, ⟨inner, G, B, rest, rfl, rfl, hgroup, hblock, hlocal⟩, hcurrent, hwaiting,
    fun x => hleads _ x hwithin⟩

/-- Asking for the type of a local that can be seen. If it is being found already, the local is on
a cycle. -/
theorem Stands.resolve_ends (h : p.Stands a R base path) (hR : a.Ready R) (hX : R.Within path X)
    (hcompute : Computes a R base entered compute) (hentered : ∀ x ∈ entered, ¬ p.Touches path [] x)
    (hD : Visible path D) (hcurrent : p.current? D = some id)
    (hleads : ∀ path' x, R.Within path' D → Leads a R path x → Leads a R (D :: path') x)
    (hcycle : id ∈ p.resolving → Relation.TransGen (DependsOn a R) D.id D.id) :
    Ends (Typing.resolve a compute id) p fun type p' =>
      p.Visits a R base path (p.Touches path []) [] p' ∧ p'.Answers id type ∧
        Grounded a R (p'.Safe a base) D.id := by
  rw [Typing.resolve]
  simp only [ends_bind_iff, ends_get_iff]
  obtain ⟨other, scope, hother, hfor⟩ := h.frames.visible hD
  cases hcurrent.symm.trans hother
  obtain ⟨_, _, _, _, _, _, _, _, hwithin⟩ := hD.exists_within hX
  have hundeclared := hfor.declared_iff_types hR hwithin
  split
  · next type hfound =>
    exact ⟨h.visits _, .inl hfound, (h.found D id type hD hcurrent hfound).1⟩
  · next hnone =>
    split
    · next hmem =>
      split
      · next type hdeclared =>
        refine ⟨h.visits _, .inr ⟨hnone, hmem, .inl hdeclared⟩, .safe (.inl fun htypes => ?_)⟩
        cases hdeclared.symm.trans (hundeclared.mpr htypes)
      · next hdeclared =>
        have hcyclic : Cyclic a R (p.placeholder id).definition := by
          rw [hfor.definition_eq]
          exact ⟨hundeclared.mp hdeclared, hcycle hmem⟩
        rw [ends_bind_iff, ends_modify_iff]
        have hself : (p.updatePlaceholder id ({ · with cyclic := true })).placeholder id =
            { p.placeholder id with cyclic := true } := placeholder_updatePlaceholder_self hfor.lt
        refine ⟨h.flag hR.nodup _ hcyclic, .inr ⟨?_, hmem, .inr ⟨?_, ?_, rfl⟩⟩,
          .safe (.inr (.inr ⟨id, hmem, ?_, ?_⟩))⟩ <;> rw [hself]
        · exact hnone
        · exact hdeclared
        · exact hfor.definition_eq
    · next hnot =>
      obtain ⟨_, hA⟩ := h.exists_awaits hX hD hcurrent ⟨hnone, hnot⟩ hleads
      exact hA.resolveNow_ends hR hX hcompute hentered

end

end

end Pass

end MessageLang
