import MessageLang.Proofs.Typing.Completing
import MessageLang.Proofs.Typing.Tallying
import MessageLang.Proofs.Typing.Uses

namespace MessageLang

open MessageLang.Tree (Direct Known Visible)

namespace Pass

variable {a : Arena} {R N D V X : Tree} {base : Nat} {p q q' : Pass} {path around : List Tree}
  {id : PlaceholderId} {type : TypeId} {x : NodeId} {name : String} {r : Report} {n : Nat}

open Classical in
/-- Whether a node is in the value of a local that can be seen and is still to be found, as a
number. -/
noncomputable def ahead (p : Pass) (path : List Tree) (x : NodeId) : Nat :=
  if p.Touches path [] x then 1 else 0

theorem ahead_congr {path' : List Tree} (h : p.Touches path [] x ↔ q.Touches path' [] x) :
    p.ahead path x = q.ahead path' x := by rw [ahead, ahead, h]

theorem ahead_of_touches (h : p.Touches path [] x) : p.ahead path x = 1 := if_pos h

theorem ahead_of_not_touches (h : ¬ p.Touches path [] x) : p.ahead path x = 0 := if_neg h

/-- An expression that is no block has no locals of its own. -/
theorem ahead_cons (hblock : N.form ≠ .expr .block) : p.ahead (N :: path) x = p.ahead path x := by
  refine ahead_congr ?_
  simp only [Touches, visible_cons_iff hblock, List.not_mem_nil, false_and, exists_false]

/-- Outside of everything no local can be seen. -/
theorem not_touches_nil : ¬ p.Touches [] [] x := by
  rintro (⟨_, hM, -⟩ | ⟨_, _, _, ⟨_, hB, -⟩, -⟩)
  · cases hM
  · cases hB

/-- What is due is what is ahead, of an expression that owes something. -/
theorem due_eq_ahead (hr : Owed a R r) (p : Pass) (path : List Tree) :
    p.due a R r path = p.ahead path (r.origin a) := by
  by_cases h : p.Touches path [] (r.origin a)
  · rw [due_of_touches hr h, ahead_of_touches h]
  · rw [due_of_not_touches h, ahead_of_not_touches h]

namespace Awaits

variable (h : p.Awaits a R base path D around id) (hR : a.Ready R) (hV : V ∈ D.expressions)
include h hR hV

/-- In the value of a local, what is still to be found there is no longer in what can be seen. -/
theorem touches_iff :
    p.Touches (D :: around) [] x ↔ (p.opened id).Touches (D :: around) [] x ∨ x ∈ V.ids := by
  have hplace := h.place hR hV
  constructor
  · rintro (⟨_, hM, -⟩ | ⟨E, other, W, hE, hcurrent, hwaiting, hW, hx⟩)
    · cases hM
    · by_cases heq : other = id
      · subst heq
        obtain ⟨U, hU⟩ := h.expressions_eq hR
        have hsame := (h.opened hR).stands.eq_of_current hR.nodup hplace.1 hE
          (h.visible_around.cons D) hcurrent h.current
        rw [hsame, hU] at hW
        rw [hU] at hV
        rw [List.mem_singleton.mp hV, ← List.mem_singleton.mp hW]
        exact .inr hx
      · refine .inl (.inr ⟨E, other, W, hE, hcurrent, ⟨hwaiting.1, ?_⟩, hW, hx⟩)
        exact List.not_mem_cons_of_ne_of_not_mem heq hwaiting.2
  · rintro ((⟨_, hM, -⟩ | ⟨E, other, W, hE, hcurrent, hwaiting, hW, hx⟩) | hx)
    · cases hM
    · refine .inr ⟨E, other, W, hE, hcurrent, ⟨hwaiting.1, ?_⟩, hW, hx⟩
      exact fun hmem => hwaiting.2 (List.mem_cons_of_mem _ hmem)
    · exact .inr ⟨D, id, V, h.visible_around.cons D, h.current, h.waiting, hV, hx⟩

/-- Going into the value of a local, what is in the value is no longer ahead. -/
theorem ahead_opened :
    p.ahead (D :: around) x = (p.opened id).ahead (D :: around) x + V.ids.count x := by
  have hiff := h.touches_iff hR hV (x := x)
  have hplace := h.place hR hV
  by_cases hx : x ∈ V.ids
  · have hapart := (h.opened hR).stands.not_touches hR.nodup hplace.1 hplace.2 hx
    rw [ahead_of_touches (hiff.mpr (.inr hx)), ahead_of_not_touches hapart,
      List.count_eq_one_of_mem (hplace.1.nodup hR.nodup) hx]
  · rw [List.count_eq_zero_of_not_mem hx, Nat.add_zero]
    exact ahead_congr (hiff.trans (or_iff_left hx))

/-- Going into the value of a local, the part of the value is no longer due. -/
theorem due_opened : p.due a R r (D :: around) =
    (p.opened id).due a R r (D :: around) + debt a R r V := by
  by_cases hr : Owed a R r
  · rw [due_eq_ahead hr, due_eq_ahead hr, h.ahead_opened hR hV,
      debt_eq_count hr ((h.place hR hV).1.nodup hR.nodup)]
  · simp only [due_of_not_owed hr, debt_of_not_owed hr]

end Awaits

namespace Enters

variable (h : p.Enters a R base path D around id q) (hA : p.Awaits a R base path D around id)
  (hR : a.Ready R) (hX : R.Within path X) (type : TypeId)
include h hA hR hX

omit hX in
/-- What is still to be found for the value of a local is so for where the local is used. -/
theorem touches_closed (hx : q.Touches (D :: around) [] x) :
    (Pass.closed p q id type).Touches path [] x := by
  rcases hx with ⟨_, hM, -⟩ | ⟨E, other, W, hE, hcurrent, hwaiting, hW, hx⟩
  · cases hM
  · have hne : other ≠ id := by
      rintro rfl
      exact hwaiting.2 (h.resolving_eq ▸ List.mem_cons_self)
    refine .inr ⟨E, other, W, hA.visible_of_visible hR hE, hcurrent, ⟨?_, fun hmem => ?_⟩, hW, hx⟩
    · rw [placeholder_closed_of_ne p hne]
      exact hwaiting.1
    · rw [(h.closed_advances hA hR type).resolving_eq] at hmem
      exact hwaiting.2 (h.grows.resolving_sub hmem)

/-- So is what is to be found elsewhere. -/
theorem touches_closed_of_not_touches (hx : p.Touches path [] x)
    (hnot : ¬ p.Touches (D :: around) [] x) : (Pass.closed p q id type).Touches path [] x := by
  rcases hx with ⟨_, hM, -⟩ | ⟨E, other, W, hE, hcurrent, hwaiting, hW, hx⟩
  · cases hM
  · have hfar : ¬ Visible (D :: around) E := fun hvisible =>
      hnot (.inr ⟨E, other, W, hvisible, hcurrent, hwaiting, hW, hx⟩)
    have hne : other ≠ id := by
      rintro rfl
      rw [hA.stands.eq_of_current hR.nodup hX hE hA.visible hcurrent hA.current] at hfar
      exact hfar (hA.visible_around.cons D)
    have hadv := h.closed_advances hA hR type
    have hlt : other.index < p.placeholders.size := by
      obtain ⟨_, _, hcurrent', hfor⟩ := hA.stands.frames.visible hE
      cases hcurrent.symm.trans hcurrent'
      exact hfor.lt
    refine .inr ⟨E, other, W, hE, ?_, ⟨?_, ?_⟩, hW, hx⟩
    · rw [hadv.current?_eq ((hA.spares hR hX).visible E hE)]
      exact hcurrent
    · rw [placeholder_closed_of_ne p hne]
      by_contra hfound
      obtain ⟨-, F, hF, hcurrent'⟩ := h.grows.waiting other hlt fun heq =>
        hfound (heq.trans hwaiting.1)
      rw [hA.stands.eq_of_current hR.nodup hX hE (hA.visible_of_visible hR hF) hcurrent hcurrent']
        at hfar
      exact hfar hF
    · rw [hadv.resolving_eq]
      exact hwaiting.2

/-- There is nothing else that is still to be found. -/
theorem touches_of_closed (hx : (Pass.closed p q id type).Touches path [] x) :
    q.Touches (D :: around) [] x ∨ p.Touches path [] x ∧ ¬ p.Touches (D :: around) [] x := by
  have hadv := h.closed_advances hA hR type
  rcases hx with ⟨_, hM, -⟩ | ⟨E, other, W, hE, hcurrent, hwaiting, hW, hx⟩
  · cases hM
  · have hne : other ≠ id := by
      rintro rfl
      have hself := placeholder_closed_self p ((hA.isFor hR).lt.trans_le h.grows.placeholders_le) type
      have hnone := hwaiting.1
      rw [hself] at hnone
      cases hnone
    have hq : q.Waiting other := by
      refine ⟨?_, fun hmem => ?_⟩
      · rw [← placeholder_closed_of_ne p hne type]
        exact hwaiting.1
      · rw [h.resolving_eq] at hmem
        exact hwaiting.2 (hadv.resolving_eq ▸ (List.mem_cons.mp hmem).resolve_left hne)
    by_cases hnear : Visible (D :: around) E
    · exact .inl (.inr ⟨E, other, W, hnear, hcurrent, hq, hW, hx⟩)
    · have hp := h.grows.waiting_of hq
      rw [hadv.current?_eq ((hA.spares hR hX).visible E hE)] at hcurrent
      refine .inr ⟨.inr ⟨E, other, W, hE, hcurrent, hp, hW, hx⟩, ?_⟩
      -- The values of different locals have no nodes in common.
      rintro (⟨_, hM, -⟩ | ⟨F, other', U, hF, hcurrent', hwaiting', hU, hxU⟩)
      · cases hM
      · have hvisible := hA.visible_of_visible hR hF
        refine hE.disjoint hvisible hX hR (hA.stands.not_mem_of_waiting hE hcurrent hp)
          (hA.stands.not_mem_of_waiting hvisible hcurrent' hwaiting') ?_
          (Tree.ids_subset_of_mem_expressions hW hx) (Tree.ids_subset_of_mem_expressions hU hxU)
        rintro rfl
        exact hnear hF

/-- Coming back from the value of a local, what has become of what was ahead there is what has become
of what was ahead where the local is used. -/
theorem ahead_closed : (Pass.closed p q id type).ahead path x + p.ahead (D :: around) x =
    p.ahead path x + q.ahead (D :: around) x := by
  have hout : ∀ {E}, Visible (D :: around) E → Visible path E := hA.visible_of_visible hR
  have hpath : p.Touches (D :: around) [] x → p.Touches path [] x := fun hx =>
    hx.imp_right fun ⟨E, other, W, hE, hrest⟩ => ⟨E, other, W, hout hE, hrest⟩
  have hback : q.Touches (D :: around) [] x → p.Touches (D :: around) [] x :=
    h.grows.touches_of_touches fun _ => hA.clear hR hX
  have hnear := h.touches_closed hA hR type (x := x)
  have hfar := h.touches_closed_of_not_touches hA hR hX type (x := x)
  have hall := h.touches_of_closed hA hR hX type (x := x)
  by_cases hin : p.Touches (D :: around) [] x
  · have hsame : (Pass.closed p q id type).Touches path [] x ↔ q.Touches (D :: around) [] x :=
      ⟨fun hx => (hall hx).resolve_right fun h => h.2 hin, hnear⟩
    rw [ahead_of_touches hin, ahead_of_touches (hpath hin), ahead_congr hsame, Nat.add_comm]
  · have hsame : (Pass.closed p q id type).Touches path [] x ↔ p.Touches path [] x :=
      ⟨fun hx => ((hall hx).resolve_left fun h => hin (hback h)).1, fun hx => hfar hx hin⟩
    rw [ahead_of_not_touches hin, ahead_of_not_touches fun hx => hin (hback hx), ahead_congr hsame]

theorem due_closed : (Pass.closed p q id type).due a R r path + p.due a R r (D :: around) =
    p.due a R r path + q.due a R r (D :: around) := by
  by_cases hr : Owed a R r
  · simp only [due_eq_ahead hr]
    exact h.ahead_closed hA hR hX type
  · simp only [due_of_not_owed hr]

/-- Coming back to where a local is used, with as much reported or due in the value as before. -/
theorem raises_closed (hroot : q.Rooted)
    (htally : q.tally a R r (D :: around) = p.tally a R r (D :: around)) :
    p.Raises a R r path 0 (Pass.closed p q id type) where
  rooted := ⟨hroot.lt, hroot.names⟩
  scope_eq := rfl
  tally_eq := by
    have hdue := h.due_closed hA hR hX type (r := r)
    have hheard : (Pass.closed p q id type).heard r = q.heard r := rfl
    unfold tally at htally ⊢
    omega

end Enters

section

variable (hA : p.Awaits a R base path D around id) (hR : a.Ready R) (hV : V ∈ D.expressions)
  (hadv : (p.opened id).Advances (D :: around) ((p.opened id).Touches (D :: around) [V]) q)
include hA hR hV hadv

/-- Taking back what was found in the value of a local, to type it again, gives back what is ahead
there. -/
theorem touches_marked_takenBack_iff (name : String) :
    (marked a D.id name (takenBack (p.opened id) q) id).Touches (D :: around) [] x ↔
      (p.opened id).Touches (D :: around) [] x := by
  have hplace := hA.place hR hV
  have hstart := (hA.opened hR).stands
  have hspares := hstart.spares hR hplace.1 fun M hM => by
    rw [List.mem_singleton.mp hM]
    exact hplace
  have hresolving : (marked a D.id name (takenBack (p.opened id) q) id).resolving =
      (p.opened id).resolving := hadv.resolving_eq
  have hcurrent : ∀ E, Visible (D :: around) E →
      (marked a D.id name (takenBack (p.opened id) q) id).current? E = (p.opened id).current? E :=
    fun E hE => hadv.current?_eq (hspares.visible E hE)
  have hwaiting : ∀ E other, Visible (D :: around) E → (p.opened id).current? E = some other →
      ((marked a D.id name (takenBack (p.opened id) q) id).Waiting other ↔
        (p.opened id).Waiting other) := by
    intro E other hE hother
    rw [Waiting, Waiting, hresolving]
    refine and_congr_left fun hnot => ?_
    have hne : other ≠ id := by
      rintro rfl
      exact hnot List.mem_cons_self
    have hlt : other.index < (p.opened id).placeholders.size := by
      obtain ⟨_, _, hother', hfor⟩ := hstart.frames.visible hE
      cases hother.symm.trans hother'
      exact hfor.lt
    rw [hadv.placeholder_marked_takenBack D.id name hlt, placeholder_marked_of_ne hne]
  refine or_congr_right (exists_congr fun E => exists_congr fun other => exists_congr fun W => ?_)
  refine and_congr_right fun hE => ?_
  rw [hcurrent E hE]
  exact and_congr_right fun hother => and_congr_left fun _ => hwaiting E other hE hother

/-- It gives back what is due there and what has been reported. -/
theorem tally_marked_takenBack (hr : r.problem ≠ .recursiveDefinition name) :
    (marked a D.id name (takenBack (p.opened id) q) id).tally a R r (D :: around) =
      (p.opened id).tally a R r (D :: around) := by
  have hheard : (marked a D.id name (takenBack (p.opened id) q) id).heard r = (p.opened id).heard r := by
    obtain ⟨more, hlog⟩ := hadv.log
    have hback : (takenBack (p.opened id) q).log = (p.opened id).log := Log.restore_eq hlog
    refine (Log.count_report _ a D.id (.recursiveDefinition name) r).trans ?_
    rw [if_neg fun h => hr (congrArg Report.problem h), hback]
    rfl
  rw [tally, tally, hheard, due_congr (touches_marked_takenBack_iff hA hR hV hadv name)]

end

end Pass

namespace Typing

open Pass

variable {a : Arena} {R N D V X : Tree} {base : Nat} {p : Pass} {path around : List Tree}
  {entered : List NodeId} {compute : NodeId → Typing TypeId} {id : PlaceholderId} {r : Report}
  {options : TypingOptions}

/-- A way to find the types of expressions that reports what is owed in them, in so far as this has not
been reported or due already. -/
def Counts (a : Arena) (R : Tree) (r : Report) (compute : NodeId → Typing TypeId) : Prop :=
  ∀ path C, R.Within path C → Raises a R r path (compute C.id) (debt a R r C)

section

variable (hcompute : Computes a R base entered compute) (hcount : Counts a R r compute) (hR : a.Ready R)
  (hr : r.problem.isOwed options) (hX : R.Within path X)
  (hentered : ∀ x ∈ entered, ¬ p.Touches path [] x) (hp : p.Rooted)
include hcompute hcount hR hr hX hentered hp

/-- Finding the type of a local reports what is due in its value, and no more. -/
theorem resolveNow_raises (hA : p.Awaits a R base path D around id) :
    After (resolveNow a compute id) p fun _ p' => p.Raises a R r path 0 p' := by
  obtain ⟨V, hD⟩ := hA.expressions_eq hR
  have hV : V ∈ D.expressions := hD ▸ List.mem_singleton_self V
  have hfor := hA.isFor hR
  have hvalue : (p.placeholder id).value = some V.id := by
    rw [hfor.value_eq, hD]
    rfl
  have hstart := hA.opened hR
  have hplace := hA.place hR hV
  have hraises : ∀ declared, Raises a R r (D :: around) (valueType a compute (some V.id) declared)
      (debt a R r V) := fun declared => valueType_raises hr (hcount _ V hplace.1)
  have hopened : (p.opened id).tally a R r (D :: around) + debt a R r V =
      p.tally a R r (D :: around) := by
    have hdue := hA.due_opened hR hV (r := r)
    have hheard : (p.opened id).heard r = p.heard r := rfl
    unfold tally
    omega
  rw [after_resolveNow_iff, hvalue, hfor.definition_eq]
  have hfirst := hstart.valueType_ends hA hR hX hcompute hentered hV
    (hstart.stands.sound.declared_lt id)
  refine (hfirst.and_after (hraises _ (p.opened id) ⟨hp.lt, hp.names⟩)).after.mono ?_
  rintro found q ⟨⟨hadv, henters, -⟩, h₁⟩
  split
  · next hcyclic =>
    rw [Bool.and_eq_true] at hcyclic
    have hretried := henters.retried hA hR hX hV hadv hcyclic.1 (p.placeholder id).name
    have hsecond := hretried.valueType_ends hA hR hX hcompute hentered hV
      fun _ (h : _ ∈ none) => nomatch h
    refine (hsecond.and_after (hraises _ _ ⟨h₁.rooted.lt, h₁.rooted.names⟩)).after.mono ?_
    rintro _ q₂ ⟨⟨-, henters₂, -⟩, h₂⟩
    refine henters₂.raises_closed hA hR hX .anything h₂.rooted ?_
    rw [h₂.tally_eq, tally_marked_takenBack hA hR hV hadv (Problem.ne_of_isOwed hr rfl), hopened]
  · exact henters.raises_closed hA hR hX found h₁.rooted (h₁.tally_eq.trans hopened)

/-- Asking for the type of a local that can be seen. -/
theorem resolve_raises (h : p.Stands a R base path) (hD : Visible path D)
    (hcurrent : p.current? D = some id)
    (hleads : ∀ path' x, R.Within path' D → Leads a R path x → Leads a R (D :: path') x) :
    After (resolve a compute id) p fun _ p' => p.Raises a R r path 0 p' := by
  simp only [resolve, after_bind_iff, after_get_iff]
  split
  · exact after_pure_iff.mpr (.refl hp)
  · next hnone =>
    split
    · split
      · exact after_pure_iff.mpr (.refl hp)
      · rw [after_bind_iff, after_modify_iff, after_pure_iff]
        refine .of_eq hp rfl rfl rfl (fun other => and_congr_left fun _ => ?_) rfl
        rcases p.placeholder_updatePlaceholder_eq_or id other ({ · with cyclic := true })
          with heq | ⟨rfl, heq⟩ <;> rw [heq]
    · next hnot =>
      obtain ⟨_, hA⟩ := h.exists_awaits hX hD hcurrent ⟨hnone, hnot⟩ hleads
      exact resolveNow_raises hcompute hcount hR hr hX hentered hp hA

end

end Typing

end MessageLang
