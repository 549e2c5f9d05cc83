import MessageLang.Diagnostic.Log
import MessageLang.Tree.Edit

namespace MessageLang.Placement

/-- What is known of the fields of a struct while going through them. -/
structure FieldsSeen where
  names : List String
  /-- Some field had a name of its own. -/
  anyNamed : Bool

/-- The name of a field by its position. -/
def positional (index : Nat) : String := "?" ++ toString index

def isPositional (name : String) : Bool := name.startsWith "?"

/-- The problems with one more field: without a name of its own after one with, or with a name
that was there before. -/
def FieldsSeen.problems (seen : FieldsSeen) (name : String) : List Problem :=
  (if isPositional name && seen.anyNamed then [.positionalAfterNamed] else [])
    ++ (if name ∈ seen.names then [.duplicateField name] else [])

def FieldsSeen.add (seen : FieldsSeen) (name : String) : FieldsSeen where
  names := name :: seen.names
  anyNamed := seen.anyNamed || !isPositional name

/-- Checks the items of a struct from the one at `index` on. Fields without a name get that of
their position. -/
def checkFields (log : Log) (seen : FieldsSeen) (index : Nat) : List NodeId → Edit Log
  | [] => return log
  | id :: rest => do
    match (← get).expr? id with
    | some (.structField declared) =>
      let name := declared.getD (positional index)
      Edit.setForm id (.expr (.structField name))
      let a ← get
      let log := (seen.problems name).foldl (fun log problem => log.report a id problem) log
      checkFields log (seen.add name) (index + 1) rest
    | _ => checkFields log seen (index + 1) rest

def checkStruct (log : Log) (id : NodeId) : Edit Log := do
  checkFields log ⟨[], false⟩ 0 ((← get).expressions id)

def isHandler (a : Arena) (id : NodeId) : Bool := a.expr? id == some .handler

def isBlock (a : Arena) (id : NodeId) : Bool := a.expr? id == some .block

/-- The code of an object is a handler, or a block with one among its items. -/
def hasHandler (a : Arena) (id : NodeId) : Bool :=
  match a.expressions id with
  | [] => false
  | code :: _ => isHandler a code || (isBlock a code && (a.expressions code).any (isHandler a))

/-- What is wrong with where a node stands. Of a local in a group only the group is checked. -/
def problem? (a : Arena) (id : NodeId) : Option Problem :=
  let inBlock := (a.enclosingExpr? id).any (isBlock a)
  let inGroup := (a.parent id).any fun parent => a.expr? parent == some .locals
  match a.expr? id with
  | some .newObject => if hasHandler a id then none else some .newWithoutHandler
  | some (.assignment _) => if inBlock then none else some .assignmentOutsideBlock
  | some .locals => if inBlock then none else some .localOutsideBlock
  | some (.localDef ..) => if inGroup || inBlock then none else some .localOutsideBlock
  | some .returnExit =>
    if (a.inside? (· == .handler) id).isSome then none else some .returnOutsideHandler
  | some .breakExit =>
    if (a.inside? (· == .repeatLoop) id).isSome then none else some .breakOutsideRepeat
  | _ => none

def check (a : Arena) (log : Log) (id : NodeId) : Log :=
  match problem? a id with
  | some problem => log.report a id problem
  | none => log

end MessageLang.Placement
