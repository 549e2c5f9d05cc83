import MessageLang.Proofs.Types.Growth
import MessageLang.Scope

namespace MessageLang.Scopes

variable {α : Type} {s : Scopes α} {P Q : α → Prop} {id : ScopeId} {name : String} {value : α}

def size (s : Scopes α) : Nat := s.frames.size

theorem size_push (s : Scopes α) (parent : ScopeId) : (s.push parent).2.size = s.size + 1 := by
  simp [push, size]

theorem size_add (s : Scopes α) (id : ScopeId) (name : String) (value : α) :
    (s.add id name value).size = s.size := by
  simp [add, size]

theorem frame_push_new (s : Scopes α) (parent : ScopeId) :
    (s.push parent).2.frame (s.push parent).1 = ⟨some parent, []⟩ := by
  simp [push, frame]

theorem frame_push_of_lt (s : Scopes α) (parent : ScopeId) (h : id.index < s.size) :
    (s.push parent).2.frame id = s.frame id := by
  have h' : id.index < s.frames.size := h
  simp [push, frame, Array.getD_eq_getD_getElem?, Array.getElem?_push, Nat.ne_of_lt h']

theorem frame_of_le (h : s.size ≤ id.index) : s.frame id = default := by
  have h' : s.frames.size ≤ id.index := h
  simp [frame, Array.getD_eq_getD_getElem?, h']

/-- A frame that was opened, or any other one. -/
theorem frame_push (s : Scopes α) (parent id : ScopeId) : (s.push parent).2.frame id =
    if id.index = s.size then ⟨some parent, []⟩ else s.frame id := by
  split
  · next heq =>
    obtain rfl : id = (s.push parent).1 := by
      cases id
      exact congrArg ScopeId.mk heq
    exact s.frame_push_new parent
  · next hne =>
    by_cases hlt : id.index < s.size
    · exact s.frame_push_of_lt parent hlt
    · rw [frame_of_le (Nat.le_of_not_lt hlt), frame_of_le]
      rw [size_push]
      omega

theorem frame_empty (id : ScopeId) : (empty : Scopes α).frame id = ⟨none, []⟩ := by
  by_cases hlt : id.index < (empty : Scopes α).size
  · obtain rfl : id = root := by
      cases id
      exact congrArg ScopeId.mk (Nat.lt_one_iff.mp hlt)
    rfl
  · exact frame_of_le (Nat.le_of_not_lt hlt)

theorem frame_add_self (s : Scopes α) (name : String) (value : α) (h : id.index < s.size) :
    (s.add id name value).frame id =
      { s.frame id with names := (name, value) :: (s.frame id).names } := by
  have h' : id.index < s.frames.size := h
  simp [add, frame, Array.getD_eq_getD_getElem?, Array.getElem_modify, h']

theorem frame_add_of_ne (s : Scopes α) (name : String) (value : α) {other : ScopeId}
    (h : other ≠ id) : (s.add id name value).frame other = s.frame other := by
  have h' : id.index ≠ other.index := fun he => h (by cases id; cases other; simp_all)
  simp [add, frame, Array.getD_eq_getD_getElem?, Array.getElem?_modify, h']

/-- The frame that a name was bound in, or any other one. -/
theorem frame_add (s : Scopes α) (id : ScopeId) (name : String) (value : α) (other : ScopeId) :
    (s.add id name value).frame other = if other = id ∧ id.index < s.size then
      { s.frame id with names := (name, value) :: (s.frame id).names } else s.frame other := by
  split
  · next h => rw [h.1, frame_add_self s name value h.2]
  · next hnot =>
    by_cases heq : other = id
    · subst heq
      have hle : s.size ≤ other.index := Nat.le_of_not_lt fun hlt => hnot ⟨rfl, hlt⟩
      rw [frame_of_le hle, frame_of_le]
      rwa [size_add]
    · exact frame_add_of_ne s name value heq

/-- All that names are bound to is of a certain sort. -/
def All (P : α → Prop) (s : Scopes α) : Prop := ∀ id, ∀ entry ∈ (s.frame id).names, P entry.2

theorem All.mono (h : s.All P) (himp : ∀ value, P value → Q value) : s.All Q :=
  fun id entry hentry => himp _ (h id entry hentry)

theorem All.push (h : s.All P) (parent : ScopeId) : (s.push parent).2.All P := by
  intro id entry hentry
  rw [frame_push] at hentry
  split at hentry
  · cases hentry
  · exact h id entry hentry

theorem All.add (h : s.All P) (id : ScopeId) (name : String) (hvalue : P value) :
    (s.add id name value).All P := by
  intro other entry hentry
  rw [frame_add] at hentry
  split at hentry
  · rcases List.mem_cons.mp hentry with rfl | hentry
    · exact hvalue
    · exact h id entry hentry
  · exact h other entry hentry

theorem All.getWithin? (h : s.All P) {steps : Nat} (hget : s.getWithin? name steps id = some value) :
    P value := by
  induction steps generalizing id with
  | zero => cases hget
  | succ steps ih =>
    unfold Scopes.getWithin? at hget
    split at hget
    · next found hfound =>
      cases hget
      exact h id _ (mem_of_lookup_eq_some hfound)
    · split at hget
      · exact ih hget
      · cases hget

/-- What a name means is something that a name is bound to. -/
theorem All.get? (h : s.All P) (hget : s.get? id name = some value) : P value := h.getWithin? hget

end MessageLang.Scopes
