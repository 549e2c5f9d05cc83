import MessageLang.Proofs.Typing.Framing

namespace MessageLang

open MessageLang.Tree (Direct Visible)

namespace Pass

/-- A local has got a placeholder, and its name is bound to that in the current frame. -/
def withLocal (p : Pass) (D : Tree) (name : String) (mutable : Bool) (declared : Option TypeId) :
    Pass :=
  let id : PlaceholderId := ⟨p.placeholders.size⟩
  { p with
    placeholders := p.placeholders.push
      { name, definition := D.id, declared, value := D.expressions.head?.map Tree.id
        scope := p.scope, typeScope := p.typeScope }
    ofLocal := (D.id, id) :: p.ofLocal
    terms := p.terms.add p.scope name ⟨.pending id, mutable⟩ }

section

variable {p : Pass} {D E : Tree} {name : String} {mutable : Bool} {declared : Option TypeId}
  {id : PlaceholderId}

theorem placeholder_withLocal_of_lt (hlt : id.index < p.placeholders.size) :
    (p.withLocal D name mutable declared).placeholder id = p.placeholder id := by
  simp [placeholder, withLocal, Array.getD_eq_getD_getElem?, Array.getElem?_push, Nat.ne_of_lt hlt]

theorem placeholder_withLocal_self :
    (p.withLocal D name mutable declared).placeholder ⟨p.placeholders.size⟩ =
      { name, definition := D.id, declared, value := D.expressions.head?.map Tree.id
        scope := p.scope, typeScope := p.typeScope } := by
  simp [placeholder, withLocal, Array.getD_eq_getD_getElem?]

theorem size_placeholders_withLocal :
    (p.withLocal D name mutable declared).placeholders.size = p.placeholders.size + 1 :=
  Array.size_push _

/-- Placeholders stay, and the new one is neither found nor known to be cyclic. -/
theorem placeholder_withLocal_eq_or (p : Pass) (D : Tree) (name : String) (mutable : Bool)
    (declared : Option TypeId) (id : PlaceholderId) :
    (p.withLocal D name mutable declared).placeholder id = p.placeholder id ∨
      ((p.withLocal D name mutable declared).placeholder id).declared = declared ∧
        ((p.withLocal D name mutable declared).placeholder id).result = none ∧
        ((p.withLocal D name mutable declared).placeholder id).cyclic = false := by
  rcases Nat.lt_trichotomy id.index p.placeholders.size with hlt | heq | hgt
  · exact .inl (placeholder_withLocal_of_lt hlt)
  · obtain rfl : id = ⟨p.placeholders.size⟩ := congrArg PlaceholderId.mk heq
    rw [placeholder_withLocal_self]
    exact .inr ⟨rfl, rfl, rfl⟩
  · refine .inl ?_
    rw [placeholder_of_le (Nat.le_of_lt hgt), placeholder_of_le]
    exact size_placeholders_withLocal.trans_le hgt

theorem current?_withLocal_self :
    (p.withLocal D name mutable declared).current? D = some ⟨p.placeholders.size⟩ :=
  List.lookup_cons_self

theorem current?_withLocal_of_ne (hne : E.id ≠ D.id) :
    (p.withLocal D name mutable declared).current? E = p.current? E :=
  lookup_cons_of_ne hne

theorem Sound.withLocal (h : p.Sound) (hdeclared : ∀ type ∈ declared, type.index < p.table.size) :
    (p.withLocal D name mutable declared).Sound where
  space := h.space
  checker := h.checker
  known_lt := h.known_lt.add _ _ fun _ htype => nomatch htype
  declared_lt id type htype := by
    rcases p.placeholder_withLocal_eq_or D name mutable declared id with heq | ⟨heq, -, -⟩ <;>
      rw [heq] at htype
    · exact h.declared_lt id type htype
    · exact hdeclared type htype
  result_lt id type htype := by
    rcases p.placeholder_withLocal_eq_or D name mutable declared id with heq | ⟨-, heq, -⟩ <;>
      rw [heq] at htype
    · exact h.result_lt id type htype
    · cases htype
  types_lt := h.types_lt
  escapes_lt := h.escapes_lt
  breaks_lt := h.breaks_lt

theorem Fair.withLocal {a : Arena} {R : Tree} {base : Nat} (h : p.Fair a R base)
    (hdeclared : ∀ type ∈ declared, type.index < p.table.size) :
    (p.withLocal D name mutable declared).Fair a R base where
  sound := h.sound.withLocal hdeclared
  resolving_lt id hid := by
    rw [size_placeholders_withLocal]
    exact (h.resolving_lt id hid).trans (Nat.lt_succ_self _)
  base_le := h.base_le
  flagged id hcyclic := by
    rcases p.placeholder_withLocal_eq_or D name mutable declared id with heq | ⟨-, -, heq⟩ <;>
      rw [heq] at hcyclic
    · rw [heq]
      exact h.flagged id hcyclic
    · cases hcyclic
  blamed := h.blamed

/-- Entering a local in a frame that was not there before. -/
theorem grows_withLocal {before : Pass} {path : List Tree} {region : NodeId → Prop}
    (h : before.Grows path region p) (hscope : before.terms.size ≤ p.scope.index)
    (hD : region D.id) : before.Grows path region (p.withLocal D name mutable declared) :=
  have hsame : ∀ id : PlaceholderId, id.index < before.placeholders.size →
      (p.withLocal D name mutable declared).placeholder id = p.placeholder id := fun _ hid =>
    placeholder_withLocal_of_lt (hid.trans_le h.placeholders_le)
  { h with
    terms_le := h.terms_le.trans_eq (Scopes.size_add ..).symm
    frame_eq := fun id hid => by
      refine (Scopes.frame_add_of_ne _ _ _ ?_).trans (h.frame_eq id hid)
      rintro rfl
      exact absurd hid (Nat.not_lt.mpr hscope)
    placeholders_le := by
      rw [size_placeholders_withLocal]
      exact h.placeholders_le.trans (Nat.le_succ _)
    placeholder_eq := fun id hid => by
      rw [hsame id hid]
      exact h.placeholder_eq id hid
    cyclic := fun id hcyclic => by
      by_cases hid : id.index < before.placeholders.size
      · rw [hsame id hid]
        exact h.cyclic id hcyclic
      · rw [placeholder_of_le (Nat.le_of_not_lt hid)] at hcyclic
        cases hcyclic
    waiting := fun id hid => by
      rw [hsame id hid]
      exact h.waiting id hid
    resolved := by
      obtain ⟨recent, heq, hnone, hkept⟩ := h.resolved
      refine ⟨recent, heq, hnone, fun id hid => ?_⟩
      rw [hsame id hid]
      exact hkept id hid
    ofLocal_eq := fun x hx => by
      have hne : x ≠ D.id := by
        rintro rfl
        exact hx hD
      rw [withLocal, lookup_cons_of_ne hne]
      exact h.ofLocal_eq x hx }

end

/-- What a frame binds for a local stays while placeholders are only added. -/
theorem Binding.keep {p p' : Pass} {scope : ScopeId} {entry : String × Variable} {D : Tree}
    (h : p.Binding scope entry D) (hcurrent : p'.current? D = p.current? D)
    (hfor : ∀ id, p.IsFor id D scope → p'.IsFor id D scope) : p'.Binding scope entry D := by
  obtain ⟨hname, id, hmeaning, hid, hisFor⟩ := h
  exact ⟨hname, id, hmeaning, hcurrent.trans hid, hfor id hisFor⟩

/-- Some of the locals of a block have been entered in its frame. -/
structure Declares (a : Arena) (R : Tree) (base : Nat) (p : Pass) (path : List Tree) (N : Tree)
    (done : List Tree) (q : Pass) : Prop where
  grows : p.Grows path (p.Touches path [N]) q
  fair : q.Fair a R base
  scope_eq : q.scope = p.pushed.scope
  resolving_eq : q.resolving = p.resolving
  escapes_eq : q.escapes = p.escapes
  breaks_eq : q.breaks = p.breaks
  lt : q.scope.index < q.terms.size
  parent : (q.terms.frame q.scope).parent = some p.scope
  names : List.Forall₂ (q.Binding q.scope) (q.terms.frame q.scope).names done.reverse
  result_eq : ∀ id : PlaceholderId, id.index < p.placeholders.size →
    (q.placeholder id).result = (p.placeholder id).result
  fresh : ∀ D ∈ done, ∀ id, q.current? D = some id →
    p.placeholders.size ≤ id.index ∧ (q.placeholder id).result = none

section

variable {a : Arena} {R N D : Tree} {base : Nat} {p q q' : Pass} {path done : List Tree}
  {entered : List NodeId} {compute : NodeId → Typing TypeId} {name : String} {mutable : Bool}
  {declared : Option TypeId}

theorem Stands.declares (h : p.Stands a R base path) (N : Tree) :
    p.Declares a R base path N [] p.pushed where
  grows := p.grows_pushed path _
  fair := h.toFair.pushed
  scope_eq := rfl
  resolving_eq := rfl
  escapes_eq := rfl
  breaks_eq := rfl
  lt := p.scope_pushed_lt
  parent := by rw [frame_pushed]
  names := by
    rw [frame_pushed]
    exact .nil
  result_eq _ _ := rfl
  fresh _ h := nomatch h

namespace Declares

theorem quiet (h : p.Declares a R base path N done q) (hquiet : q.Quiet q')
    (hclear : ∀ D, Visible path D → ¬ p.Touches path [N] D.id) :
    p.Declares a R base path N done q' := by
  have hmore := (hquiet.advances path (p.Touches path [N])).toGrows
  have hsame : ∀ id, q'.placeholder id = q.placeholder id := fun id => by
    rw [hquiet.eq]
    rfl
  have hrest : q'.scope = q.scope ∧ q'.terms = q.terms ∧ q'.resolving = q.resolving ∧
      q'.escapes = q.escapes ∧ q'.breaks = q.breaks ∧ q'.ofLocal = q.ofLocal := by
    rw [hquiet.eq]
    exact ⟨rfl, rfl, rfl, rfl, rfl, rfl⟩
  obtain ⟨hscope, hterms, hresolving, hescapes, hbreaks, hofLocal⟩ := hrest
  have hcurrent : ∀ D, q'.current? D = q.current? D := fun D => by rw [current?, hofLocal, current?]
  refine ⟨h.grows.trans hmore hclear, h.fair.quiet hquiet, hscope.trans h.scope_eq,
    hresolving.trans h.resolving_eq, hescapes.trans h.escapes_eq, hbreaks.trans h.breaks_eq, ?_, ?_,
    ?_, fun id hid => ?_, fun D hD id hid => ?_⟩
  · rw [hscope, hterms]
    exact h.lt
  · rw [hscope, hterms]
    exact h.parent
  · rw [hscope, hterms]
    exact h.names.imp fun {_ D} hbinding => hbinding.keep (hcurrent D) fun _ => hmore.isFor
  · rw [hsame]
    exact h.result_eq id hid
  · rw [hsame]
    exact h.fresh D hD id ((hcurrent D).symm.trans hid)

theorem add (h : p.Declares a R base path N done q) (hD : D.id ∈ N.ids)
    (hne : ∀ E ∈ done, E.id ≠ D.id) (hname : D.localName? = some name)
    (hdeclared : declared = none ↔ D.types = [])
    (hlt : ∀ type ∈ declared, type.index < q.table.size) :
    p.Declares a R base path N (done ++ [D]) (q.withLocal D name mutable declared) := by
  have hold : ∀ id, q.IsFor id D q.scope → id.index < q.placeholders.size := fun _ hfor => hfor.lt
  have hscope : p.terms.size ≤ q.scope.index := by
    rw [h.scope_eq]
    exact Nat.le_refl _
  have hframe := q.terms.frame_add_self name ⟨.pending ⟨q.placeholders.size⟩, mutable⟩ h.lt
  refine ⟨grows_withLocal h.grows hscope (.inl ⟨N, List.mem_singleton_self N, hD⟩),
    h.fair.withLocal hlt, h.scope_eq, h.resolving_eq, h.escapes_eq, h.breaks_eq,
    h.lt.trans_eq (Scopes.size_add ..).symm, (congrArg Frame.parent hframe).trans h.parent, ?_,
    fun id hid => ?_, fun E hE id hid => ?_⟩
  · change List.Forall₂ _ ((q.terms.add q.scope name _).frame q.scope).names _
    rw [hframe, List.reverse_append]
    refine .cons ⟨hname, _, rfl, current?_withLocal_self, ?_⟩ ?_
    · refine ⟨?_, ?_, ?_, ?_, ?_⟩ <;>
        first | rw [placeholder_withLocal_self] | rw [size_placeholders_withLocal]
      · exact Nat.lt_succ_self _
      · rfl
      · exact hdeclared
    · have hnames := h.names
      refine List.forall₂_iff_zip.mpr ⟨hnames.length_eq, fun {entry E} hmem => ?_⟩
      have hbinding := (List.forall₂_iff_zip.mp hnames).2 hmem
      refine hbinding.keep (current?_withLocal_of_ne ?_) fun id hfor => ?_
      · exact hne E (List.mem_reverse.mp (List.of_mem_zip hmem).2)
      · have hsame : (q.withLocal D name mutable declared).placeholder id = q.placeholder id :=
          placeholder_withLocal_of_lt hfor.lt
        refine ⟨?_, ?_, ?_, ?_, ?_⟩ <;>
          first | rw [hsame] | rw [size_placeholders_withLocal]
        · exact hfor.lt.trans (Nat.lt_succ_self _)
        · exact hfor.definition_eq
        · exact hfor.value_eq
        · exact hfor.scope_eq
        · exact hfor.declared_iff
  · rw [placeholder_withLocal_of_lt (hid.trans_le h.grows.placeholders_le)]
    exact h.result_eq id hid
  · rcases List.mem_append.mp hE with hE | hE
    · rw [current?_withLocal_of_ne (hne E hE)] at hid
      obtain ⟨hle, hnone⟩ := h.fresh E hE id hid
      refine ⟨hle, ?_⟩
      rcases q.placeholder_withLocal_eq_or D name mutable declared id with heq | ⟨-, heq, -⟩ <;>
        rw [heq]
      exact hnone
    · cases List.mem_singleton.mp hE
      cases current?_withLocal_self.symm.trans hid
      rw [placeholder_withLocal_self]
      exact ⟨h.grows.placeholders_le, rfl⟩

/-- Once all locals of a block have been entered, typing stands inside of it. -/
theorem stands (h : p.Declares a R base path N N.locals q)
    (henter : p.Entering a R base path N entered compute) (hform : N.form = .expr .block) :
    q.Stands a R base (N :: path) := by
  have hspares : Spares a R p path (p.Touches path [N]) :=
    henter.stands.spares henter.ready henter.within fun M hM => by
      rw [List.mem_singleton.mp hM]
      exact ⟨henter.within, henter.direct⟩
  refine henter.stands.enter henter.ready.nodup henter.within henter.direct h.grows hspares h.fair
    h.resolving_eq h.result_eq ?_ fun D hD id hid => (h.fresh D hD id hid).2
  refine .block hform h.lt ?_ h.parent h.names (h.grows.frames henter.stands.frames hspares.visible)
  rw [h.scope_eq]
  exact henter.stands.frames.lt

end Declares

end

end Pass

namespace Typing

open Pass

variable {a : Arena} {R N D G : Tree} {base : Nat} {p q : Pass} {path done items rest : List Tree}
  {entered : List NodeId} {compute : NodeId → Typing TypeId}

/-- Entering one more local of a block. -/
theorem declareLocal_ends (h : p.Entering a R base path N entered compute)
    (hdeclares : p.Declares a R base path N done q) (hG : G ∈ N.expressions)
    (hgroup : G.form = .expr .locals) (hD : D ∈ G.expressions) (hne : ∀ E ∈ done, E.id ≠ D.id) :
    Ends (declareLocal a D.id) q fun _ q' => p.Declares a R base path N (done ++ [D]) q' := by
  have hwithin := (h.within.child hG).child hD
  obtain ⟨_, hDheld⟩ := h.ready.holds hwithin
  have hlaid := (h.within.child hG).laidOut h.ready.laidOut
  obtain ⟨name, mutable, hform⟩ := Tree.exists_form_eq_of_mem_group hlaid hgroup hD
  have hexpr : a.expr? D.id = some (.localDef name mutable) := by
    rw [hDheld.expr?_eq, hform]
    rfl
  have hname : D.localName? = some name := by rw [Tree.localName?, hform]
  rw [declareLocal, hexpr]
  dsimp only
  rw [hDheld.types_eq, hDheld.expressions_eq, List.head?_map, List.head?_map, ends_bind_iff]
  have htype : ∀ T ∈ D.types.head?, T ∈ D.children := fun T hT =>
    (List.mem_filter.mp (List.mem_of_mem_head? hT)).1
  refine (readOption_ends hdeclares.fair.sound (fun T hT => ⟨_, hDheld.child (htype T hT)⟩)
    fun T hT => Tree.nodup_of_mem_children (hwithin.nodup h.ready.nodup) (htype T hT)).mono ?_
  rintro declared q₁ ⟨hquiet, hlt, hnone, -⟩
  rw [ends_bind_iff, ends_get_iff, ends_bind_iff, ends_set_iff, addTerm, ends_modify_iff]
  refine (hdeclares.quiet hquiet fun _ => h.clear).add ?_ hne hname (hnone.trans ?_) hlt
  · exact Tree.ids_subset_of_mem_expressions hG
      (Tree.ids_subset_of_mem_expressions hD D.id_mem_ids)
  · exact List.head?_eq_none_iff

/-- The locals in the groups among some items of a block. -/
theorem declareGroups_ends (h : p.Entering a R base path N entered compute)
    (hform : N.form = .expr .block) :
    Ends (declareGroups a N.id) p.pushed fun _ q => p.Declares a R base path N N.locals q := by
  let groups (items : List Tree) : List Tree :=
    (items.filter (·.form = .expr .locals)).flatMap Tree.expressions
  have hlocals : N.locals = groups N.expressions := if_pos hform
  let inv (items : List Tree) (q : Pass) : Prop := p.Declares a R base path N (groups items) q
  have hstart : inv [] p.pushed := h.stands.declares N
  rw [declareGroups, h.expressions_eq, List.forIn_map, hlocals]
  refine Ends.mono (ends_forIn_of_split ?_ hstart) fun _ _ h => h
  intro items G rest hsplit q hitems
  have hG : G ∈ N.expressions := by simp [hsplit]
  obtain ⟨_, hGheld⟩ := h.ready.holds (h.within.child hG)
  have hgroups : groups (items ++ [G]) =
      groups items ++ if G.form = .expr .locals then G.expressions else [] := by
    simp only [groups, List.filter_append, List.flatMap_append]
    split <;> simp [*]
  rw [hGheld.expr?_eq]
  simp only [NodeForm.expr?_eq_some_iff]
  split
  · next hgroup =>
    have hforM : (a.expressions G.id).forM (declareLocal a) =
        G.expressions.forM fun D => declareLocal a D.id := by
      rw [hGheld.expressions_eq]
      exact List.forM_map
    rw [ends_bind_iff, declareLocals, hforM]
    let known (done : List Tree) (q : Pass) : Prop :=
      p.Declares a R base path N (groups items ++ done) q
    have hbegin : known [] q := by
      simpa only [known, List.append_nil] using hitems
    refine Ends.mono (ends_forM_of_split ?_ hbegin) fun _ q' hdone => ?_
    · intro done D after hmembers q₁ hdone
      have hD : D ∈ G.expressions := by simp [hmembers]
      have hpairwise := Tree.pairwise_locals h.nodup
      have hall : N.locals = (groups items ++ done) ++ D :: (after ++ groups rest) := by
        rw [hlocals, hsplit]
        simp [groups, hgroup, hmembers]
      rw [hall, List.pairwise_append] at hpairwise
      simp only [known, ← List.append_assoc]
      refine declareLocal_ends h hdone hG hgroup hD fun E hE heq => ?_
      exact hpairwise.2.2 E hE D List.mem_cons_self (heq ▸ E.id_mem_ids) D.id_mem_ids
    · refine ⟨rfl, ?_⟩
      simp only [inv, hgroups, if_pos hgroup]
      exact hdone
  · next hgroup =>
    refine ⟨rfl, ?_⟩
    simp only [inv, hgroups, if_neg hgroup, List.append_nil]
    exact hitems

end Typing

end MessageLang
