import MessageLang.Proofs.Typing.Framing
import MessageLang.Proofs.Typing.Resolving

namespace MessageLang

/-- How far the finding of a placeholder's type has come. -/
inductive Progress where
  | pending
  | inProgress
  | done (type : TypeId)

namespace Pass

def progress (p : Pass) (id : PlaceholderId) : Progress :=
  match (p.placeholder id).result with
  | some type => .done type
  | none => if id ∈ p.resolving then .inProgress else .pending

end Pass

/-- Asking for the type of a placeholder goes by how far the finding of it has come. -/
theorem Typing.resolve_eq (a : Arena) (compute : NodeId → Typing TypeId) (id : PlaceholderId) :
    resolve a compute id = (do
      let p ← get
      match p.progress id with
      | .done type => return type
      | .inProgress =>
        match (p.placeholder id).declared with
        | some type => return type
        | none =>
          modify (·.updatePlaceholder id ({ · with cyclic := true }))
          return .anything
      | .pending => resolveNow a compute id) := by
  unfold resolve Pass.progress
  refine bind_congr fun p => ?_
  dsimp only
  cases (p.placeholder id).result with
  | some type => rfl
  | none =>
    by_cases hid : id ∈ p.resolving
    · have hprogress : (if id ∈ p.resolving then Progress.inProgress else .pending) = .inProgress :=
        if_pos hid
      rw [hprogress]
      exact if_pos hid
    · have hprogress : (if id ∈ p.resolving then Progress.inProgress else .pending) = .pending :=
        if_neg hid
      rw [hprogress]
      exact if_neg hid

namespace Pass

/-- Typing has come back: it stands where it stood and is about to find the types that it was about to
find, none of which got further. All others are either pending or done, and no conflict waits to be
reported. Problems and exits have at most been added. -/
structure Restored (p p' : Pass) : Prop where
  scope_eq : p'.scope = p.scope
  typeScope_eq : p'.typeScope = p.typeScope
  resolving_eq : p'.resolving = p.resolving
  progress_eq : ∀ id ∈ p.resolving, p'.progress id = p.progress id
  off_stack : ∀ id, id ∉ p'.resolving →
    p'.progress id = .pending ∧ id ∉ p'.resolved ∨ ∃ type, p'.progress id = .done type ∧ id ∈ p'.resolved
  conflicts_eq : p'.checker.conflicts = []
  log : p.log.toList <+: p'.log.toList
  escapes : p.escapes <+: p'.escapes
  breaks : p.breaks <+: p'.breaks

/-- Typing may go on to another node: no conflict waits to be reported, and of the placeholders that
are not being found those have a type that are noted as found. -/
structure Calm (p : Pass) : Prop where
  conflicts_eq : p.checker.conflicts = []
  found_iff : ∀ id, id ∉ p.resolving → ((p.placeholder id).result.isSome ↔ id ∈ p.resolved)
  nodup : p.resolved.Nodup
  pending_lt : p.terms.All fun v => ∀ id, v.meaning = .pending id → id.index < p.placeholders.size
  local_lt : ∀ entry ∈ p.ofLocal, entry.2.index < p.placeholders.size

/-- Typing has gone on from a state and finds the types of further placeholders now, the innermost
first. What it has found meanwhile are types of others. -/
structure Ongoing (opening : List PlaceholderId) (p q : Pass) : Prop where
  calm : q.Calm
  resolving_eq : q.resolving = opening ++ p.resolving
  result_eq : ∀ id ∈ p.resolving, (q.placeholder id).result = (p.placeholder id).result
  resolved : ∃ more, q.resolved = more ++ p.resolved ∧ ∀ id ∈ more, id ∉ q.resolving
  size_le : p.placeholders.size ≤ q.placeholders.size
  log : p.log.toList <+: q.log.toList
  escapes : p.escapes <+: q.escapes
  breaks : p.breaks <+: q.breaks

/-- Typing has gone on and come back to where it stood. -/
structure Returns (p p' : Pass) : Prop extends Ongoing [] p p' where
  scope_eq : p'.scope = p.scope
  typeScope_eq : p'.typeScope = p.typeScope

variable {a : Arena} {p p' p'' q : Pass} {id : PlaceholderId} {opening : List PlaceholderId}

theorem progress_eq_of_result (hresult : (p'.placeholder id).result = (p.placeholder id).result)
    (hresolving : p'.resolving = p.resolving) : p'.progress id = p.progress id := by
  rw [progress, progress, hresult, hresolving]

theorem progress_eq_pending_iff : p.progress id = .pending ↔ p.Waiting id := by
  unfold progress Waiting
  cases (p.placeholder id).result with
  | some type => simp
  | none => by_cases hid : id ∈ p.resolving <;> simp [hid]

/-- Off the stack a placeholder is pending or done. -/
theorem Calm.off_stack (hp : p.Calm) (hid : id ∉ p.resolving) :
    p.progress id = .pending ∧ id ∉ p.resolved ∨
      ∃ type, p.progress id = .done type ∧ id ∈ p.resolved := by
  have hfound := hp.found_iff id hid
  unfold progress
  cases hresult : (p.placeholder id).result with
  | some type =>
    rw [hresult] at hfound
    exact .inr ⟨type, rfl, hfound.mp rfl⟩
  | none =>
    rw [hresult] at hfound
    exact .inl ⟨if_neg hid, fun hmem => nomatch hfound.mpr hmem⟩

theorem Returns.restored (h : p.Returns p') : p.Restored p' where
  scope_eq := h.scope_eq
  typeScope_eq := h.typeScope_eq
  resolving_eq := h.resolving_eq
  progress_eq id hid := progress_eq_of_result (h.result_eq id hid) h.resolving_eq
  off_stack _ hid := h.calm.off_stack hid
  conflicts_eq := h.calm.conflicts_eq
  log := h.log
  escapes := h.escapes
  breaks := h.breaks

theorem Returns.refl (hp : p.Calm) : p.Returns p where
  calm := hp
  resolving_eq := rfl
  result_eq _ _ := rfl
  resolved := ⟨[], rfl, fun _ h => nomatch h⟩
  size_le := Nat.le_refl _
  log := List.prefix_refl _
  escapes := List.prefix_refl _
  breaks := List.prefix_refl _
  scope_eq := rfl
  typeScope_eq := rfl

/-- Coming back from further on is no way out of what has been opened. -/
theorem Ongoing.trans (h : p.Ongoing opening q) (h' : q.Returns p') : p.Ongoing opening p' where
  calm := h'.calm
  resolving_eq := h'.resolving_eq.trans h.resolving_eq
  result_eq id hid := by
    have hmem : id ∈ q.resolving := h.resolving_eq ▸ List.mem_append_right _ hid
    exact (h'.result_eq id hmem).trans (h.result_eq id hid)
  resolved := by
    obtain ⟨more, hmore, hapart⟩ := h.resolved
    obtain ⟨more', hmore', hapart'⟩ := h'.resolved
    have hresolving : p'.resolving = q.resolving := h'.resolving_eq
    refine ⟨more' ++ more, by rw [hmore', hmore, List.append_assoc], ?_⟩
    rw [List.forall_mem_append, hresolving]
    exact ⟨fun id hid => hresolving ▸ hapart' id hid, hapart⟩
  size_le := h.size_le.trans h'.size_le
  log := h.log.trans h'.log
  escapes := h.escapes.trans h'.escapes
  breaks := h.breaks.trans h'.breaks

theorem Returns.trans (h : p.Returns p') (h' : p'.Returns p'') : p.Returns p'' :=
  { h.toOngoing.trans h' with
    scope_eq := h'.scope_eq.trans h.scope_eq
    typeScope_eq := h'.typeScope_eq.trans h.typeScope_eq }

/-- Stepping back into the frames that typing came from. -/
theorem Ongoing.returns (h : p.Ongoing [] q) :
    p.Returns { q with scope := p.scope, typeScope := p.typeScope } where
  calm := { h.calm with }
  resolving_eq := h.resolving_eq
  result_eq := h.result_eq
  resolved := h.resolved
  size_le := h.size_le
  log := h.log
  escapes := h.escapes
  breaks := h.breaks
  scope_eq := rfl
  typeScope_eq := rfl

theorem Calm.pushed (hp : p.Calm) : p.pushed.Calm :=
  { hp with pending_lt := hp.pending_lt.push _ }

theorem Calm.ongoing_pushed (hp : p.Calm) : p.Ongoing [] p.pushed :=
  { Returns.refl hp with calm := hp.pushed }

/-- Exits put aside are those that there were. -/
theorem Returns.aside {escapes : List (NodeId × TypeId)} {breaks : List TypeId}
    (h : Returns { p with escapes, breaks } p') :
    p.Returns { p' with escapes := p.escapes, breaks := p.breaks } :=
  { h with
    calm := { h.calm with }
    escapes := List.prefix_refl _
    breaks := List.prefix_refl _ }

theorem Calm.ongoing_opened (hp : p.Calm) (id : PlaceholderId) : p.Ongoing [id] (p.opened id) where
  calm :=
    { hp with
      found_iff := fun other hother =>
        hp.found_iff other fun hmem => hother (List.mem_cons_of_mem id hmem) }
  resolving_eq := rfl
  result_eq _ _ := rfl
  resolved := ⟨[], rfl, fun _ h => nomatch h⟩
  size_le := Nat.le_refl _
  log := List.prefix_refl _
  escapes := List.prefix_refl _
  breaks := List.prefix_refl _

/-- A change of a placeholder that leaves its type alone. -/
theorem Returns.update (hp : p.Calm) (id : PlaceholderId) {change : Placeholder → Placeholder}
    (hsame : ∀ e, (change e).result = e.result) : p.Returns (p.updatePlaceholder id change) := by
  have hresult : ∀ other, ((p.updatePlaceholder id change).placeholder other).result =
      (p.placeholder other).result := by
    intro other
    rcases p.placeholder_updatePlaceholder_eq_or id other change with heq | ⟨rfl, heq⟩ <;> rw [heq]
    exact hsame _
  have hsize : (p.updatePlaceholder id change).placeholders.size = p.placeholders.size :=
    Array.size_modify
  refine { Returns.refl hp with
    calm := ⟨hp.conflicts_eq, ?_, hp.nodup, ?_, ?_⟩
    result_eq := fun other _ => hresult other
    size_le := hsize.ge }
  · exact fun other hother => (hresult other).symm ▸ hp.found_iff other hother
  · exact hsize.symm ▸ hp.pending_lt
  · exact hsize.symm ▸ hp.local_lt

/-- A new placeholder is pending. -/
theorem Returns.declared (hp : p.Calm) (definition : NodeId) {entry : Placeholder} (name : String)
    (mutable : Bool) (hentry : entry.result = none) : p.Returns { p with
      placeholders := p.placeholders.push entry
      ofLocal := (definition, ⟨p.placeholders.size⟩) :: p.ofLocal
      terms := p.terms.add p.scope name ⟨.pending ⟨p.placeholders.size⟩, mutable⟩ } := by
  have hsize : (p.placeholders.push entry).size = p.placeholders.size + 1 := Array.size_push _
  have hresult : ∀ id : PlaceholderId,
      ((p.placeholders.push entry).getD id.index default).result = (p.placeholder id).result := by
    intro id
    by_cases hid : id.index = p.placeholders.size
    · rw [placeholder_of_le hid.ge, hid]
      simp [Array.getD_eq_getD_getElem?, hentry, default, instInhabitedPlaceholder.default]
    · rw [placeholder, Array.getD_eq_getD_getElem?, Array.getElem?_push, if_neg hid,
        Array.getD_eq_getD_getElem?]
  refine { Returns.refl hp with
    calm := ⟨hp.conflicts_eq, ?_, hp.nodup, ?_, ?_⟩
    result_eq := fun id _ => hresult id
    size_le := hsize ▸ Nat.le_succ _ }
  · intro id hid
    exact (hresult id).symm ▸ hp.found_iff id hid
  · refine Scopes.All.add (hp.pending_lt.mono fun v hv id hid => ?_) _ _ fun id hid => ?_
    · exact (hv id hid).trans_le (hsize ▸ Nat.le_succ _)
    · cases hid
      exact hsize ▸ Nat.lt_succ_self _
  · rw [List.forall_mem_cons]
    refine ⟨hsize ▸ Nat.lt_succ_self _, fun other hother => ?_⟩
    exact (hp.local_lt other hother).trans_le (hsize ▸ Nat.le_succ _)

section

variable {more : List PlaceholderId} (hmore : q.resolved = more ++ p.resolved)
include hmore

theorem recent_eq : q.resolved.take (q.resolved.length - p.resolved.length) = more := by
  rw [hmore, List.length_append, Nat.add_sub_cancel]
  exact List.take_left' rfl

theorem resolved_takenBack : (takenBack p q).resolved = p.resolved := by
  unfold takenBack
  dsimp only
  rw [recent_eq hmore, hmore]
  exact List.drop_left' rfl

/-- Exactly the types found meanwhile are forgotten. -/
theorem result_takenBack (id : PlaceholderId) : ((takenBack p q).placeholder id).result =
    if id ∈ more then none else (q.placeholder id).result := by
  have hforget := q.placeholder_forget (q.resolved.take (q.resolved.length - p.resolved.length)) id
  rw [recent_eq hmore] at hforget
  have heq : (takenBack p q).placeholder id = (q.forget more).placeholder id := by
    unfold takenBack
    dsimp only
    rw [recent_eq hmore]
    rfl
  rw [heq, hforget]

end

/-- What has been found meanwhile is forgotten, and nothing else. -/
theorem Ongoing.takenBack (h : p.Ongoing opening q) : p.Ongoing opening (p.takenBack q) := by
  obtain ⟨more, hmore, hapart⟩ := h.resolved
  obtain ⟨reports, hlog⟩ := h.log
  obtain ⟨escapes, hescapes⟩ := h.escapes
  obtain ⟨breaks, hbreaks⟩ := h.breaks
  have hnodup : (more ++ p.resolved).Nodup := hmore ▸ h.calm.nodup
  obtain ⟨-, hold, hdisjoint⟩ := List.nodup_append.mp hnodup
  have hresolved : (p.takenBack q).resolved = p.resolved := resolved_takenBack hmore
  have hsize := size_placeholders_takenBack p q
  refine ⟨{ h.calm with found_iff := ?_, nodup := ?_, pending_lt := ?_, local_lt := ?_ },
    h.resolving_eq, ?_, ⟨[], hresolved, fun _ h => nomatch h⟩, hsize ▸ h.size_le, ?_, ?_, ?_⟩
  · intro id hid
    have hfound := h.calm.found_iff id hid
    rw [hmore, List.mem_append] at hfound
    rw [result_takenBack hmore, hresolved]
    by_cases hmem : id ∈ more
    · rw [if_pos hmem]
      exact iff_of_false (by simp) fun h' => hdisjoint _ hmem _ h' rfl
    · rw [if_neg hmem, hfound]
      exact or_iff_right hmem
  · rw [hresolved]
    exact hold
  · rw [hsize]
    exact h.calm.pending_lt
  · rw [hsize]
    exact h.calm.local_lt
  · intro id hid
    have hnew : id ∉ more := fun hmem =>
      hapart id hmem (h.resolving_eq ▸ List.mem_append_right opening hid)
    rw [result_takenBack hmore, if_neg hnew, h.result_eq id hid]
  · have hback : (p.takenBack q).log = p.log := Log.restore_eq hlog.symm
    rw [hback]
  · change _ <+: q.escapes.take p.escapes.length
    rw [← hescapes, List.take_left' rfl]
  · change _ <+: q.breaks.take p.breaks.length
    rw [← hbreaks, List.take_left' rfl]

/-- A placeholder is done before the finding of its type has come to an end. -/
theorem Ongoing.marked (h : p.Ongoing [id] q) (hid : p.Waiting id) (node : NodeId) (name : String) :
    p.Ongoing [id] (marked a node name q id) := by
  have hresolving : q.resolving = id :: p.resolving := h.resolving_eq
  have hsize : (Pass.marked a node name q id).placeholders.size = q.placeholders.size :=
    size_placeholders_marked
  refine { h with
    calm := { h.calm with found_iff := ?_, pending_lt := ?_, local_lt := ?_ }
    result_eq := ?_
    size_le := hsize ▸ h.size_le
    log := ?_ }
  · intro other hother
    have hoff : other ∉ q.resolving := hother
    rw [placeholder_marked_of_ne (List.ne_of_not_mem_cons (hresolving ▸ hoff))]
    exact h.calm.found_iff other hoff
  · rw [hsize]
    exact h.calm.pending_lt
  · rw [hsize]
    exact h.calm.local_lt
  · intro other hother
    have hne : other ≠ id := fun heq => hid.2 (heq ▸ hother)
    rw [placeholder_marked_of_ne hne]
    exact h.result_eq other hother
  · refine h.log.trans ?_
    change _ <+: (q.log.report a node _).toList
    rw [Log.toList_report]
    exact List.prefix_append _ _

/-- Once its type has been found, a placeholder is done, and typing is where it was before. -/
theorem Ongoing.closed (h : p.Ongoing [id] q) (hp : p.Calm) (hid : p.Waiting id)
    (hlt : id.index < p.placeholders.size) (type : TypeId) :
    p.Returns (closed p q id type) := by
  obtain ⟨more, hmore, hapart⟩ := h.resolved
  have hresolving : q.resolving = id :: p.resolving := h.resolving_eq
  have hclosed : (Pass.closed p q id type).resolving = p.resolving := by
    change q.resolving.drop 1 = _
    rw [hresolving]
    rfl
  have hsize : (Pass.closed p q id type).placeholders.size = q.placeholders.size :=
    size_placeholders_closed
  have hnew : id ∉ q.resolved := by
    rw [hmore, List.mem_append, not_or]
    refine ⟨fun hmem => hapart id hmem (hresolving ▸ List.mem_cons_self), fun hmem => ?_⟩
    have hfound := (hp.found_iff id hid.2).mpr hmem
    rw [hid.1] at hfound
    cases hfound
  refine ⟨⟨⟨h.calm.conflicts_eq, ?_, ?_, ?_, ?_⟩, hclosed, ?_, ?_, ?_, h.log, h.escapes, h.breaks⟩,
    rfl, rfl⟩
  · intro other hother
    rw [hclosed] at hother
    by_cases heq : other = id
    · subst heq
      rw [placeholder_closed_self p (hlt.trans_le h.size_le)]
      exact iff_of_true rfl List.mem_cons_self
    · have hoff : other ∉ q.resolving := by
        rw [hresolving, List.mem_cons, not_or]
        exact ⟨heq, hother⟩
      rw [placeholder_closed_of_ne p heq, h.calm.found_iff other hoff]
      exact (List.mem_cons.trans (or_iff_right heq)).symm
  · exact List.nodup_cons.mpr ⟨hnew, h.calm.nodup⟩
  · rw [hsize]
    exact h.calm.pending_lt
  · rw [hsize]
    exact h.calm.local_lt
  · intro other hother
    have hne : other ≠ id := fun heq => hid.2 (heq ▸ hother)
    rw [placeholder_closed_of_ne p hne]
    exact h.result_eq other hother
  · refine ⟨id :: more, congrArg (id :: ·) hmore, ?_⟩
    rw [hclosed, List.forall_mem_cons]
    refine ⟨hid.2, fun other hother hmem => ?_⟩
    exact hapart other hother (hresolving ▸ List.mem_cons_of_mem id hmem)
  · rw [hsize]
    exact h.size_le

end Pass

end MessageLang
