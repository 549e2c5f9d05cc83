import MessageLang.Proofs.Typing.Spaces

namespace MessageLang

/-- What is done to frames: one is opened inside another, or a name is bound in one. -/
inductive ScopeStep (α : Type) where
  | push (parent : ScopeId)
  | add (frame : ScopeId) (name : String) (value : α)

namespace Scopes

def apply {α : Type} (s : Scopes α) : ScopeStep α → Scopes α
  | .push parent => (s.push parent).2
  | .add frame name value => s.add frame name value

/-- The frames that steps lead to from the root frame alone. The latest step comes first. -/
def after {α : Type} : List (ScopeStep α) → Scopes α
  | [] => .empty
  | step :: earlier => (after earlier).apply step

end Scopes

namespace ScopeStep

variable {α : Type} {id inner outer parent frame : ScopeId} {name other : String} {value : α}
  {step : ScopeStep α} {steps later earlier : List (ScopeStep α)} {way : List ScopeId}

/-- How many frames there are after some steps. -/
def frames : List (ScopeStep α) → Nat
  | [] => 1
  | .push _ :: earlier => frames earlier + 1
  | .add .. :: earlier => frames earlier

/-- Every step is taken in a frame that there is by then. -/
def Proper : List (ScopeStep α) → Prop
  | [] => True
  | .push frame :: earlier => frame.index < frames earlier ∧ Proper earlier
  | .add frame _ _ :: earlier => frame.index < frames earlier ∧ Proper earlier

/-- The frame that a frame was opened in. -/
def openedIn? (id : ScopeId) : List (ScopeStep α) → Option ScopeId
  | [] => none
  | .push frame :: earlier => if id.index = frames earlier then some frame else openedIn? id earlier
  | .add .. :: earlier => openedIn? id earlier

/-- The value that was last bound to a name in a frame. -/
def lastAdded? (name : String) (id : ScopeId) : List (ScopeStep α) → Option α
  | [] => none
  | .push _ :: earlier => lastAdded? name id earlier
  | .add frame other value :: earlier =>
    if id = frame ∧ name = other then some value else lastAdded? name id earlier

/-- The frames from one outwards, up to one that was opened in none. -/
inductive WayOut (steps : List (ScopeStep α)) : ScopeId → List ScopeId → Prop
  | outermost {id : ScopeId} (opened : openedIn? id steps = none) : WayOut steps id [id]
  | outwards {id outer : ScopeId} {way : List ScopeId} (opened : openedIn? id steps = some outer)
      (rest : WayOut steps outer way) : WayOut steps id (id :: way)

/-- On the way out of a frame another one comes, and none before it binds a name. -/
def Sees (steps : List (ScopeStep α)) (name : String) (inner outer : ScopeId) : Prop :=
  ∃ nearer further, WayOut steps inner (nearer ++ outer :: further) ∧
    ∀ frame ∈ nearer, lastAdded? name frame steps = none

theorem size_after (steps : List (ScopeStep α)) : (Scopes.after steps).size = frames steps := by
  induction steps with
  | nil => rfl
  | cons step earlier ih =>
    cases step with
    | push frame => rw [Scopes.after, Scopes.apply, Scopes.size_push, ih, frames]
    | add frame name value => rw [Scopes.after, Scopes.apply, Scopes.size_add, ih, frames]

theorem parent_after (steps : List (ScopeStep α)) (id : ScopeId) :
    (Scopes.after steps).parent id = openedIn? id steps := by
  induction steps with
  | nil => rw [Scopes.after, Scopes.parent, Scopes.frame_empty, openedIn?]
  | cons step earlier ih =>
    cases step with
    | push frame =>
      rw [Scopes.after, Scopes.apply, Scopes.parent, Scopes.frame_push, size_after, openedIn?, ← ih]
      split <;> rfl
    | add frame name value => rw [Scopes.after, Scopes.apply, Scopes.parent_add, ih, openedIn?]

theorem here?_after (h : Proper steps) (id : ScopeId) (name : String) :
    (Scopes.after steps).here? id name = lastAdded? name id steps := by
  induction steps with
  | nil =>
    rw [Scopes.after, Scopes.here?, Scopes.frame_empty]
    rfl
  | cons step earlier ih =>
    cases step with
    | push frame =>
      rw [Scopes.after, Scopes.apply, Scopes.here?, Scopes.frame_push, lastAdded?, ← ih h.2]
      split
      · next hnew => rw [Scopes.here?, Scopes.frame_of_le hnew.ge]; rfl
      · rfl
    | add frame other value =>
      rw [Scopes.after, Scopes.apply, Scopes.here?, Scopes.frame_add, lastAdded?, ← ih h.2, size_after]
      by_cases hid : id = frame
      · rw [if_pos ⟨hid, h.1⟩, lookup_cons_eq_ite, hid]
        simp [Scopes.here?]
      · rw [if_neg fun hself => hid hself.1, if_neg fun hself => hid hself.1, Scopes.here?]

/-- Every frame is opened in one that there was before. -/
theorem Proper.ordered (h : Proper steps) : (Scopes.after steps).Ordered := by
  induction steps with
  | nil =>
    intro id outer hparent
    rw [parent_after] at hparent
    cases hparent
  | cons step earlier ih =>
    cases step with
    | push frame =>
      intro id outer hparent
      rw [parent_after, openedIn?] at hparent
      split at hparent
      · next hnew =>
        cases hparent
        exact h.1.trans_eq hnew.symm
      · exact ih h.2 id outer ((parent_after earlier id).trans hparent)
    | add frame name value => exact (ih h.2).add _ _ _

theorem Proper.openedIn?_lt (h : Proper steps) (hopened : openedIn? id steps = some outer) :
    outer.index < id.index := h.ordered id outer ((parent_after steps id).trans hopened)

/-- The way out of a frame comes to an end, after no more frames than there are up to that one. -/
theorem Proper.exists_wayOut (h : Proper steps) (id : ScopeId) :
    ∃ way, WayOut steps id way ∧ way.length ≤ id.index + 1 := by
  generalize hbound : id.index = bound
  induction bound using Nat.strong_induction_on generalizing id with
  | _ bound ih =>
    cases hopened : openedIn? id steps with
    | none => exact ⟨[id], .outermost hopened, Nat.le_add_left _ _⟩
    | some outer =>
      have hlt := h.openedIn?_lt hopened
      obtain ⟨way, hway, hlength⟩ := ih outer.index (hbound ▸ hlt) outer rfl
      refine ⟨id :: way, .outwards hopened hway, ?_⟩
      rw [List.length_cons]
      omega

theorem WayOut.unique {way' : List ScopeId} (h : WayOut steps id way) (h' : WayOut steps id way') :
    way = way' := by
  induction h generalizing way' with
  | outermost hopened =>
    cases h' with
    | outermost => rfl
    | outwards hopened' => cases hopened.symm.trans hopened'
  | outwards hopened _ ih =>
    cases h' with
    | outermost hopened' => cases hopened.symm.trans hopened'
    | outwards hopened' hrest =>
      cases hopened.symm.trans hopened'
      rw [ih hrest]

/-- A lookup goes the way out. -/
theorem WayOut.getWithin?_eq (h : WayOut steps id way) (hsteps : Proper steps) (name : String)
    {count : Nat} (hcount : way.length ≤ count) :
    (Scopes.after steps).getWithin? name count id = way.findSome? (lastAdded? name · steps) := by
  induction h generalizing count with
  | outermost hopened =>
    obtain ⟨count, rfl⟩ := Nat.exists_eq_add_of_le' hcount
    rw [List.length_singleton, Scopes.getWithin?, here?_after hsteps, parent_after, hopened,
      List.findSome?_cons]
    rfl
  | @outwards id outer way hopened _ ih =>
    obtain ⟨count, rfl⟩ := Nat.exists_eq_add_of_le' hcount
    rw [List.length_cons, ← Nat.add_assoc, Scopes.getWithin?, here?_after hsteps, parent_after, hopened,
      List.findSome?_cons]
    dsimp only
    rw [ih (Nat.le_add_left _ _)]
    cases lastAdded? name id steps <;> rfl

theorem WayOut.get?_eq (h : WayOut steps id way) (hsteps : Proper steps) (name : String) :
    (Scopes.after steps).get? id name = way.findSome? (lastAdded? name · steps) := by
  obtain ⟨way', hway', hlength⟩ := hsteps.exists_wayOut id
  cases h.unique hway'
  exact h.getWithin?_eq hsteps name hlength

theorem frames_insert (later earlier : List (ScopeStep α)) (frame : ScopeId) (name : String)
    (value : α) : frames (later ++ .add frame name value :: earlier) = frames (later ++ earlier) := by
  induction later with
  | nil => rfl
  | cons step rest ih => cases step <;> simp [frames, ih]

theorem openedIn?_insert (later earlier : List (ScopeStep α)) (frame : ScopeId) (name : String)
    (value : α) (id : ScopeId) : openedIn? id (later ++ .add frame name value :: earlier) =
      openedIn? id (later ++ earlier) := by
  induction later with
  | nil => rfl
  | cons step rest ih => cases step <;> simp [openedIn?, frames_insert, ih]

theorem Proper.of_insert (h : Proper (later ++ .add frame name value :: earlier)) :
    Proper (later ++ earlier) := by
  induction later with
  | nil => exact h.2
  | cons step rest ih => cases step <;> exact ⟨frames_insert rest .. ▸ h.1, ih h.2⟩

theorem WayOut.insert (h : WayOut (later ++ earlier) id way) (frame : ScopeId) (name : String)
    (value : α) : WayOut (later ++ .add frame name value :: earlier) id way := by
  induction h with
  | outermost hopened => exact .outermost (openedIn?_insert .. |>.trans hopened)
  | outwards hopened _ ih => exact .outwards (openedIn?_insert .. |>.trans hopened) ih

theorem lastAdded?_append (name : String) (id : ScopeId) (later earlier : List (ScopeStep α)) :
    lastAdded? name id (later ++ earlier) =
      (lastAdded? name id later).or (lastAdded? name id earlier) := by
  induction later with
  | nil => rfl
  | cons step rest ih =>
    cases step with
    | push frame => exact ih
    | add frame other value =>
      rw [List.cons_append, lastAdded?, lastAdded?]
      split
      · rfl
      · exact ih

/-- A binding has a say in one frame and for one name, until the name is bound there again. -/
theorem lastAdded?_insert (later earlier : List (ScopeStep α)) (frame : ScopeId) (name : String)
    (value : α) (id : ScopeId) (other : String) :
    lastAdded? other id (later ++ .add frame name value :: earlier) =
      if id = frame ∧ other = name ∧ lastAdded? name frame later = none then some value
      else lastAdded? other id (later ++ earlier) := by
  rw [lastAdded?_append, lastAdded?_append, lastAdded?]
  by_cases hself : id = frame ∧ other = name
  · obtain ⟨rfl, rfl⟩ := hself
    rw [if_pos ⟨rfl, rfl⟩]
    cases lastAdded? other id later with
    | none => rw [if_pos ⟨rfl, rfl, rfl⟩, Option.none_or]
    | some last =>
      have hagain : ¬(id = id ∧ other = other ∧ some last = none) := fun h => nomatch h.2.2
      rw [if_neg hagain]
      rfl
  · rw [if_neg hself, if_neg fun h => hself ⟨h.1, h.2.1⟩]

/-- Where a binding is seen, it is what is found. -/
theorem findSome?_insert (hlast : lastAdded? name frame later = none) {nearer : List ScopeId}
    (hnearer : ∀ id ∈ nearer, lastAdded? name id (later ++ earlier) = none) (further : List ScopeId) :
    (nearer ++ frame :: further).findSome?
      (lastAdded? name · (later ++ .add frame name value :: earlier)) = some value := by
  have hframe : lastAdded? name frame (later ++ .add frame name value :: earlier) = some value := by
    rw [lastAdded?_insert, if_pos ⟨rfl, rfl, hlast⟩]
  induction nearer with
  | nil => rw [List.nil_append, List.findSome?_cons, hframe]
  | cons id rest ih =>
    obtain ⟨hid, hrest⟩ := List.forall_mem_cons.mp hnearer
    rw [List.cons_append, List.findSome?_cons]
    by_cases heq : id = frame
    · rw [heq, hframe]
    · rw [lastAdded?_insert, if_neg fun h => heq h.1, hid]
      exact ih hrest

theorem findSome?_congr {β : Type} {f g : ScopeId → Option β} {ids : List ScopeId}
    (h : ∀ id ∈ ids, f id = g id) : ids.findSome? f = ids.findSome? g := by
  induction ids with
  | nil => rfl
  | cons id rest ih =>
    obtain ⟨hid, hrest⟩ := List.forall_mem_cons.mp h
    rw [List.findSome?_cons, List.findSome?_cons, hid, ih hrest]

/-- A lookup that a binding has a say in sees that binding. -/
theorem sees_of_findSome?_ne (value : α) (hway : WayOut (later ++ earlier) inner way)
    (hne : way.findSome? (lastAdded? other · (later ++ .add frame name value :: earlier)) ≠
      way.findSome? (lastAdded? other · (later ++ earlier))) :
    other = name ∧ Sees (later ++ earlier) name inner frame ∧ lastAdded? name frame later = none := by
  by_cases hsay : frame ∈ way ∧ other = name ∧ lastAdded? name frame later = none
  · obtain ⟨hmem, rfl, hlast⟩ := hsay
    obtain ⟨nearer, further, rfl, hnot⟩ := List.eq_append_cons_of_mem hmem
    refine ⟨rfl, ⟨nearer, further, hway, ?_⟩, hlast⟩
    by_contra hbound
    -- a binding that is nearer is found both with and without the one further out
    have hsome : (nearer.findSome? (lastAdded? other · (later ++ earlier))).isSome := by
      rw [List.isSome_findSome?]
      simpa [Option.isSome_iff_ne_none] using hbound
    have hsame : nearer.findSome? (lastAdded? other · (later ++ .add frame other value :: earlier)) =
        nearer.findSome? (lastAdded? other · (later ++ earlier)) := by
      refine findSome?_congr fun id hid => ?_
      have hother : id ≠ frame := fun heq => hnot (heq ▸ hid)
      rw [lastAdded?_insert, if_neg fun h => hother h.1]
    rw [List.findSome?_append, List.findSome?_append, hsame] at hne
    obtain ⟨found, hfound⟩ := Option.isSome_iff_exists.mp hsome
    simp [hfound] at hne
  · refine absurd (findSome?_congr fun id hid => ?_) hne
    refine (lastAdded?_insert ..).trans (if_neg ?_)
    rintro ⟨rfl, hrest⟩
    exact hsay ⟨hid, hrest⟩

end ScopeStep

open ScopeStep

/-- Whatever was done to frames, a lookup comes to an end: the way out of a frame is finite, and a
lookup finds what was last bound to the name in the nearest frame on it that binds the name. So what a
binding changes, then or later, are lookups of its name from which its frame is seen, as long as the
name is not bound there again. These find it. -/
theorem Scopes.get?_after {α : Type} {steps : List (ScopeStep α)} (hsteps : Proper steps) :
    (∀ id, ∃ way, WayOut steps id way ∧ ∀ name,
      (Scopes.after steps).get? id name = way.findSome? (lastAdded? name · steps) ∧
      ∀ count, way.length ≤ count →
        (Scopes.after steps).getWithin? name count id = (Scopes.after steps).get? id name) ∧
    ∀ later frame name value earlier, steps = later ++ .add frame name value :: earlier → ∀ inner,
      (∀ other, (Scopes.after steps).get? inner other ≠
          (Scopes.after (later ++ earlier)).get? inner other →
        other = name ∧ Sees (later ++ earlier) name inner frame ∧ lastAdded? name frame later = none) ∧
      (Sees (later ++ earlier) name inner frame → lastAdded? name frame later = none →
        (Scopes.after steps).get? inner name = some value) := by
  refine ⟨fun id => ?_, ?_⟩
  · obtain ⟨way, hway, -⟩ := hsteps.exists_wayOut id
    refine ⟨way, hway, fun name => ⟨hway.get?_eq hsteps name, fun count hcount => ?_⟩⟩
    rw [hway.getWithin?_eq hsteps name hcount, hway.get?_eq hsteps name]
  · rintro later frame name value earlier rfl inner
    obtain ⟨way, hway, -⟩ := hsteps.of_insert.exists_wayOut inner
    have hinserted := hway.insert frame name value
    refine ⟨fun other hne => sees_of_findSome?_ne value hway ?_, ?_⟩
    · rwa [hinserted.get?_eq hsteps, hway.get?_eq hsteps.of_insert] at hne
    · rintro ⟨nearer, further, hsees, hnearer⟩ hlast
      rw [(hsees.insert frame name value).get?_eq hsteps]
      exact findSome?_insert hlast hnearer further

/-- A block is still extended after a frame beside it was opened. What is bound in it then is found
from it, and the frame beside it and the root frame do not see it. -/
theorem Scopes.get?_after_region :
    let steps : List (ScopeStep Nat) :=
      [.add ⟨1⟩ "z" 4, .push ⟨0⟩, .add ⟨1⟩ "y" 3, .push ⟨0⟩, .add ⟨0⟩ "x" 1]
    let bare : List (ScopeStep Nat) := [.push ⟨0⟩, .add ⟨1⟩ "y" 3, .push ⟨0⟩, .add ⟨0⟩ "x" 1]
    Proper steps ∧ (Scopes.after steps).get? ⟨1⟩ "z" = some 4 ∧
      (Scopes.after steps).get? ⟨1⟩ "x" = some 1 ∧ (Scopes.after steps).get? ⟨2⟩ "z" = none ∧
      (Scopes.after steps).get? ⟨0⟩ "y" = none ∧ Sees bare "z" ⟨1⟩ ⟨1⟩ := by
  intro steps bare
  have hsteps : Proper steps := by simp [steps, Proper, ScopeStep.frames]
  have hchanged := ((Scopes.get?_after hsteps).2 [] ⟨1⟩ "z" 4 bare rfl ⟨1⟩).1 "z" (by decide)
  exact ⟨hsteps, by decide, by decide, by decide, by decide, hchanged.2.1⟩

end MessageLang
