import MessageLang.Assign.Bindings

namespace MessageLang

/-- A wildcard that was to stand for a type which does not fit the one it stands for. -/
structure Conflict where
  wildcard : TypeId
  bound : TypeId
  attempted : TypeId
deriving DecidableEq

/-- A pair of types: the one that is required and the one that is given. -/
structure Demand where
  target : TypeId
  source : TypeId
deriving DecidableEq

/-- What has been decided so far. A demand under examination is entered as met, so that
recursive types come to an end; if it turns out not to be, all that was decided meanwhile goes
with it, because it may rest on that assumption. -/
structure Checker where
  /-- The demands decided on or under examination, the latest first. -/
  verdicts : List (Demand × Bool)
  bindings : Bindings
  /-- The conflicts nobody has asked for yet, in order. -/
  conflicts : List Conflict
  /-- Whether a type with one compound field also takes what that field takes. -/
  unwrapsSingleField : Bool

/-- A step of checking, which stops at the first fault. -/
abbrev Checking := StateT Checker (Except Fault)

/-- What a checker goes back to when a match that was tried fails. -/
structure Checkpoint where
  verdictCount : Nat
  bindings : Bindings

namespace Checker

def new (unwrapsSingleField : Bool) : Checker := ⟨[], [], [], unwrapsSingleField⟩

/-- Forgets everything. -/
def reset (c : Checker) : Checker := new c.unwrapsSingleField

def verdict? (c : Checker) (d : Demand) : Option Bool := c.verdicts.lookup d

/-- Forgets all verdicts but the oldest ones. -/
def keepVerdicts (c : Checker) (count : Nat) : Checker :=
  { c with verdicts := c.verdicts.drop (c.verdicts.length - count) }

def checkpoint (c : Checker) : Checkpoint := ⟨c.verdicts.length, c.bindings⟩

/-- Undoes what was decided and bound since a checkpoint. The conflicts found stay. -/
def rollback (c : Checker) (point : Checkpoint) : Checker :=
  { c.keepVerdicts point.verdictCount with bindings := point.bindings }

end Checker

namespace Checking

def decide (d : Demand) (verdict : Bool) : Checking Unit :=
  modify fun c => { c with verdicts := (d, verdict) :: c.verdicts }

/-- Hands over the conflicts found since the last time. -/
def takeConflicts : Checking (List Conflict) :=
  modifyGet fun c => (c.conflicts, { c with conflicts := [] })

def conflict (wildcard bound attempted : TypeId) : Checking Bool := do
  modify fun c => { c with conflicts := c.conflicts ++ [⟨wildcard, bound, attempted⟩] }
  return false

section

variable (t : TypeTable) (check : TypeId → TypeId → Checking Bool)

/-- Lets a wildcard take a type. The first one is what it stands for from then on; a later one
has to fit it. Two wildcards come to stand for the same. -/
def bind (wildcard source : TypeId) : Checking Bool := do
  modify fun c => { c with bindings := c.bindings.introduce wildcard }
  if t.isWildcard source then
    modify fun c => { c with bindings := c.bindings.introduce source }
    match (← get).bindings.join wildcard source with
    | .ok bindings =>
      modify fun c => { c with bindings }
      return true
    | .error (bound, attempted) => conflict wildcard bound attempted
  else
    match (← get).bindings.binding? wildcard with
    | none =>
      modify fun c => { c with bindings := c.bindings.bind wildcard source }
      return true
    | some bound =>
      if ← check bound source then return true
      conflict wildcard bound source

/-- Whether all that one type answers is answered by another as well. Guards vary the other way
round: what the required type takes has to fit what the given type takes. -/
def handlersMatch (target source : Descriptor) : Checking Bool := do
  let symbolsMatch ← target.symbols.allM fun (symbol, answer) =>
    match source.symbols.lookup symbol with
    | some offered => check answer offered
    | none => return false
  if !symbolsMatch then return false
  target.handlers.allM fun (guard, answer) =>
    source.handlers.anyM fun (otherGuard, otherAnswer) => do
      if ← check otherGuard guard then check answer otherAnswer else return false

/-- The number that a text stands for: decimal digits, perhaps after a plus sign. -/
def readPosition? (text : List Char) : Option Nat :=
  let digits := if text.head? = some '+' then text.tail else text
  if digits ≠ [] ∧ digits.all Char.isDigit then some (Nat.ofDigitChars 10 digits 0) else none

/-- Which of the required fields a given one is for: the one at its position, or the first one
of its name. -/
def fieldIndex? (target : List Field) (f : Field) : Option Nat :=
  match f.name.toList with
  | '?' :: position => (readPosition? position).filter (· < target.length)
  | _ => target.findIdx? (·.name = f.name)

/-- Matches the given fields one after the other. No field is given twice, and at the end all
required ones were given or have a default. -/
def fieldsMatchFrom (target : List Field) (given : List Nat) : List Field → Checking Bool
  | [] => return target.zipIdx.all fun (f, index) => index ∈ given || f.hasDefault
  | f :: rest => do
    match fieldIndex? target f with
    | none => return false
    | some index =>
      if index ∈ given then return false
      match target[index]? with
      | none => return false
      | some wanted =>
        if ← check wanted.type f.type then fieldsMatchFrom target (index :: given) rest
        else return false

/-- The fields that a value of a type gives to a compound type. A value without fields is the
first field itself. -/
def offeredFields (source : TypeId) : List Field :=
  if t.isNothing source then []
  else (t.fields? source).getD [⟨Field.positionalName 0, source, false⟩]

/-- Whether a type fits a list of fields, or the fields of the only one. -/
def compoundMatch (target : List Field) (source : TypeId) : Checking Bool := do
  let offered := offeredFields t source
  if ← fieldsMatchFrom check target [] offered then return true
  if (← get).unwrapsSingleField then
    if let [only] := target then
      if let some inner := t.fields? only.type then
        return ← fieldsMatchFrom check inner [] offered
  return false

/-- Decides on a demand by the parts of the two types, assuming it meanwhile. -/
def examine (d : Demand) : Checking Bool := do
  let before := (← get).verdicts.length
  decide d true
  let verdict ← match (t.get d.target).shape with
    | .simple => handlersMatch check (t.get d.target) (t.get d.source)
    | .compound fields => compoundMatch t check fields d.source
    | _ => pure false
  if !verdict then
    modify (·.keepVerdicts before)
    decide d false
  return verdict

end

/-- Whether a value of one type may be used where another is required, with at most so many
demands on the way to any one. What a wildcard takes is never entered as decided, since it
changes what the wildcard stands for. -/
def canAssignWithin (t : TypeTable) : Nat → TypeId → TypeId → Checking Bool
  | 0, _, _ => throw .unending
  | levels + 1, target, given => do
    let check := canAssignWithin t levels
    let source := (← get).bindings.resolve t given
    if t.isNothing target then return false
    if t.isNothing source && (t.fields? target).isNone then return false
    if target = source then return true
    if t.isWildcard target then return ← bind t check target source
    let d : Demand := ⟨target, source⟩
    if let some verdict := (← get).verdict? d then return verdict
    if t.isAnything target || t.isAnything source || t.isNever source || t.isWildcard source then
      return true
    examine t check d

/-- Whether a value of type `source` may be used where `target` is required. No demand comes
twice on the way to another, and a wildcard passes its demand on to a type that is none. -/
def canAssign (t : TypeTable) (target source : TypeId) : Checking Bool :=
  canAssignWithin t (2 * (t.size * t.size + 1)) target source

end Checking

end MessageLang
