import MessageLang.Proofs.Assign.Judgement

namespace MessageLang

open Checking

/-- Comparing the parts of two types, as an examination does. -/
def compareParts (t : TypeTable) (check : TypeId → TypeId → Checking Bool) (d : Demand) :
    Checking Bool :=
  match (t.get d.target).shape with
  | .simple => handlersMatch check (t.get d.target) (t.get d.source)
  | .compound fields => compoundMatch t check fields d.source
  | _ => pure false

theorem examine_eq (t : TypeTable) (check : TypeId → TypeId → Checking Bool) (d : Demand) :
    examine t check d = (do
      let before := (← get).verdicts.length
      decide d true
      let verdict ← compareParts t check d
      if !verdict then
        modify (·.keepVerdicts before)
        decide d false
      return verdict) := by
  unfold examine compareParts
  cases (t.get d.target).shape <;> rfl

/-- Entering a demand as not met, without all that was decided since there were so many verdicts. -/
def Checker.refuse (c : Checker) (before : Nat) (demand : Demand) : Checker :=
  { c.keepVerdicts before with verdicts := (demand, false) :: (c.keepVerdicts before).verdicts }

/-- How a comparison of two types goes on. -/
inductive Course where
  /-- It is settled by what the two types are, or by what was decided before. -/
  | settled (verdict : Bool)
  /-- The required type is a wildcard and takes the given one. -/
  | binding
  /-- The parts of the two types are compared. -/
  | examination

/-- What becomes of a wildcard that is to take a type. -/
inductive Taking where
  /-- It takes the type, and so much is known from then on. -/
  | done (bindings : Bindings)
  /-- It stands for another type than the wildcard that it is to take. -/
  | clash (bindings : Bindings) (bound attempted : TypeId)
  /-- It stands for a type already, which the given one has to fit. -/
  | asks (bound : TypeId)

/-- What is known of wildcards then is as said, or the type that is to fit. -/
def Taking.All (K : Bindings → Prop) (P : TypeId → Prop) : Taking → Prop
  | .done bindings => K bindings
  | .clash bindings _ _ => K bindings
  | .asks bound => P bound

theorem Taking.All.and {K K' : Bindings → Prop} {P P' : TypeId → Prop} {what : Taking}
    (h : what.All K P) (h' : what.All K' P') :
    what.All (fun b => K b ∧ K' b) fun bound => P bound ∧ P' bound := by
  cases what <;> exact ⟨h, h'⟩

namespace Checking

/-- How a comparison goes on, by the two types and by what is known of the demand. -/
def course (t : TypeTable) (target source : TypeId) (known : Option Bool) : Course :=
  if t.isNothing target then .settled false
  else if t.isNothing source && (t.fields? target).isNone then .settled false
  else if target = source then .settled true
  else if t.isWildcard target then .binding
  else match known with
    | some verdict => .settled verdict
    | none =>
      if t.isAnything target || t.isAnything source || t.isNever source || t.isWildcard source then
        .settled true
      else .examination

/-- What becomes of a wildcard that is to take a type, by what is known of wildcards. -/
def taking (t : TypeTable) (b : Bindings) (wildcard source : TypeId) : Taking :=
  if t.isWildcard source then
    match ((b.introduce wildcard).introduce source).join wildcard source with
    | .ok joined => .done joined
    | .error (bound, attempted) => .clash ((b.introduce wildcard).introduce source) bound attempted
  else
    match (b.introduce wildcard).binding? wildcard with
    | none => .done ((b.introduce wildcard).bind wildcard source)
    | some bound => .asks bound

variable {t : TypeTable} {target source wildcard bound attempted : TypeId} {known : Option Bool}
  {b b' : Bindings}

theorem fields?_of_isWildcard {id : TypeId} (h : t.isWildcard id = true) : t.fields? id = none := by
  have hshape : (t.get id).shape = .wildcard := by simpa [TypeTable.isWildcard] using h
  simp [TypeTable.fields?, Descriptor.fields?, hshape]

/-- A wildcard is not to take a type without values. -/
theorem course_eq_binding (h : course t target source known = .binding) :
    t.isWildcard target = true ∧ t.isNothing source = false := by
  unfold course at h
  split at h
  · cases h
  split at h
  · cases h
  next hempty =>
  split at h
  · cases h
  split at h
  · next hwild => exact ⟨hwild, by simpa [fields?_of_isWildcard hwild] using hempty⟩
  · cases known with
    | some verdict => cases h
    | none =>
      dsimp only at h
      split at h <;> cases h

/-- The parts are compared only if there is no verdict yet, and neither type is a wildcard. -/
theorem course_eq_examination (h : course t target source known = .examination) :
    known = none ∧ t.isWildcard target = false ∧ t.isWildcard source = false := by
  unfold course at h
  split at h
  · cases h
  split at h
  · cases h
  split at h
  · cases h
  split at h
  · cases h
  next hwild =>
  cases known with
  | some verdict => cases h
  | none =>
    dsimp only at h
    split at h
    · cases h
    · next hopen =>
      simp only [Bool.not_eq_true, Bool.or_eq_false_iff] at hwild hopen
      exact ⟨rfl, hwild, hopen.2⟩

/-- An examination compares the parts while the demand is assumed. -/
theorem examine_apply (t : TypeTable) (check : TypeId → TypeId → Checking Bool) (d : Demand)
    (c : Checker) :
    examine t check d c = (do
      let verdict ← compareParts t check d
      modify fun (c' : Checker) => if verdict then c' else c'.refuse c.verdicts.length d
      return verdict) (c.assume d) := by
  rw [examine_eq]
  change (do
    let verdict ← compareParts t check d
    if !verdict then
      modify (·.keepVerdicts c.verdicts.length)
      decide d false
    return verdict : Checking Bool) (c.assume d) = _
  refine congrFun (congrArg (Bind.bind (compareParts t check d)) (funext fun verdict => ?_)) _
  cases verdict <;> rfl

theorem taking_allBound {P : TypeId → Prop} (h : b.AllBound P) (wildcard : TypeId)
    (hsource : t.isWildcard source = false → P source) :
    (taking t b wildcard source).All (Bindings.AllBound P) P := by
  have hintroduced := h.introduce wildcard
  unfold taking
  split
  · have hboth := hintroduced.introduce source
    split
    · next joined hjoin => exact hboth.join hjoin
    · exact hboth
  · next hwild =>
    split
    · exact hintroduced.bind wildcard (hsource (by simpa using hwild))
    · next bound hbound => exact hintroduced.binding? hbound

/-- Only wildcards that both stand for a type can do so for different ones. -/
theorem taking_eq_clash (h : taking t b wildcard source = .clash b' bound attempted) :
    b.binding? wildcard = some bound ∧ b.binding? source = some attempted := by
  unfold taking at h
  split at h
  · split at h
    · cases h
    · next hjoin =>
      cases h
      simpa only [Bindings.binding?_introduce] using Bindings.join_eq_error hjoin
  · split at h <;> cases h

theorem taking_eq_asks (h : taking t b wildcard source = .asks bound) :
    b.binding? wildcard = some bound ∧ t.isWildcard source = false := by
  unfold taking at h
  split at h
  · split at h <;> cases h
  · next hwild =>
    split at h
    · cases h
    · next hbound =>
      cases h
      exact ⟨Bindings.binding?_introduce b wildcard wildcard ▸ hbound, by simpa using hwild⟩

/-- A wildcard takes a type by what is known of wildcards, and asks only what the type has to fit
that it stands for. -/
theorem bind_apply (t : TypeTable) (check : TypeId → TypeId → Checking Bool)
    (wildcard source : TypeId) (c : Checker) :
    Checking.bind t check wildcard source c =
      match taking t c.bindings wildcard source with
      | .done bindings => .ok (true, { c with bindings })
      | .clash bindings bound attempted =>
        .ok (false, { c with bindings, conflicts := c.conflicts ++ [⟨wildcard, bound, attempted⟩] })
      | .asks bound =>
        (do
          if ← check bound source then return true
          else conflict wildcard bound source) { c with bindings := c.bindings.introduce wildcard } := by
  have hget : ∀ (next : Checker → Checking Bool) (c : Checker), (get >>= next) c = next c c :=
    fun _ _ => rfl
  have hmodify : ∀ (change : Checker → Checker) (next : PUnit → Checking Bool) (c : Checker),
      (modify change >>= next) c = next ⟨⟩ (change c) := fun _ _ _ => rfl
  rw [Checking.bind, hmodify, taking]
  by_cases hwild : t.isWildcard source = true
  · simp only [hwild, if_true, hmodify, hget]
    cases ((c.bindings.introduce wildcard).introduce source).join wildcard source with
    | ok joined => rfl
    | error pair => rfl
  simp only [hwild, Bool.false_eq_true, if_false, hget]
  cases (c.bindings.introduce wildcard).binding? wildcard with
  | none => rfl
  | some bound => rfl

/-- A comparison depends on what a checker holds only through what the given type stands for and
what is known of the demand, until a wildcard takes a type or the parts are compared. -/
theorem canAssignWithin_succ (t : TypeTable) (levels : Nat) (target given : TypeId) (c : Checker) :
    canAssignWithin t (levels + 1) target given c =
      match course t target (c.bindings.resolve t given)
        (c.verdict? ⟨target, c.bindings.resolve t given⟩) with
      | .settled verdict => .ok (verdict, c)
      | .binding => Checking.bind t (canAssignWithin t levels) target (c.bindings.resolve t given) c
      | .examination =>
        examine t (canAssignWithin t levels) ⟨target, c.bindings.resolve t given⟩ c := by
  have hget : ∀ next : Checker → Checking Bool, (get >>= next) c = next c c := fun _ => rfl
  rw [canAssignWithin, hget]
  generalize c.bindings.resolve t given = source
  unfold course
  by_cases htarget : t.isNothing target = true
  · simp only [htarget, if_true]
    rfl
  simp only [htarget, Bool.false_eq_true, if_false]
  by_cases hempty : (t.isNothing source && (t.fields? target).isNone) = true
  · simp only [hempty, if_true]
    rfl
  simp only [hempty, Bool.false_eq_true, if_false]
  by_cases hsame : target = source
  · simp only [hsame, if_true]
    rfl
  simp only [hsame, if_false]
  by_cases hwild : t.isWildcard target = true
  · simp only [hwild, if_true]
  simp only [hwild, Bool.false_eq_true, if_false]
  rw [hget]
  cases c.verdict? ⟨target, source⟩ with
  | some verdict => rfl
  | none =>
    dsimp only
    split <;> rfl

end Checking

end MessageLang
