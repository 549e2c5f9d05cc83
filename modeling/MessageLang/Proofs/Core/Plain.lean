import MessageLang.Core.Lower
import MessageLang.Proofs.Tree.Held

namespace MessageLang

open Lowering (unaryMessage needsBlock)

/-- A tree without its tokens, and without where it stands in the source or in an arena. -/
inductive Plain where
  | node (form : NodeForm) (grouped : Bool) (children : List Plain)

/-- Making plain trees with names for temporaries, given how many names there have been so far. -/
abbrev Naming := StateM Nat

namespace Plain

def form : Plain → NodeForm
  | node form .. => form

def isExpr (P : Plain) : Bool := P.form.expr?.isSome

def isType (P : Plain) : Bool := P.form.type?.isSome

def setGrouped : Plain → Plain
  | node form _ children => node form true children

def setForm (form : NodeForm) : Plain → Plain
  | node _ grouped children => node form grouped children

def leaf (form : NodeForm) : Plain := node form false []

def nothing : Plain := leaf (.expr (.constant .nothing))

def symbol (name : String) : Plain := leaf (.expr (.constant (.symbol name)))

def call (grouped : Bool) (receiver message : Plain) : Plain :=
  node (.expr .call) grouped [receiver, message]

def block (items : List Plain) : Plain := node (.expr .block) false items

def conditional (grouped : Bool) (condition yes no : Plain) : Plain :=
  node (.expr .conditional) grouped [condition, yes, no]

/-- A conditional around a loop that keeps the value of its body in a temporary, asks the
condition again and leaves with that value. -/
def whileLoop (grouped : Bool) (temporary : String) (condition body again : Plain) : Plain :=
  let binding := node (.expr .locals) false [node (.expr (.localDef temporary false)) false [body]]
  let leave := node (.expr .breakExit) false [leaf (.expr (.reference temporary))]
  let check := conditional false (call false again (symbol "not")) leave nothing
  conditional grouped condition (node (.expr .repeatLoop) false [block [binding, check]]) nothing

/-- An object with one handler. -/
def function (grouped : Bool) (types : List Plain) (body : Plain) : Plain :=
  node (.expr .newObject) grouped [block [node (.expr .handler) false (types ++ [body])]]

mutual

/-- The names that a tree binds, refers to or assigns. -/
def names : Plain → List String
  | node form _ children => (form.expr? >>= Temporaries.nameOf?).toList ++ namesAll children

def namesAll : List Plain → List String
  | [] => []
  | P :: rest => P.names ++ namesAll rest

end

/-- A part of a tree on its way into the core language: what it is, and how to get what it
becomes. -/
structure Prospect where
  was : Plain
  become : Naming Plain

/-- Fields of a struct that have no name get that of their index, which counts from `index` on. -/
def nameFields (index : Nat) : List Prospect → Naming (List Plain)
  | [] => return []
  | prospect :: rest => do
    let item ← prospect.become
    let item := if prospect.was.form = .expr (.structField none) then
      item.setForm (.expr (.structField (some (Placement.positional index)))) else item
    let rest ← nameFields (if prospect.was.isExpr then index + 1 else index) rest
    return item :: rest

/-- What a node becomes whose parts are given with what they become. -/
def assemble (name : Nat → String) (form : NodeForm) (grouped : Bool) (parts : List Prospect) :
    Naming Plain :=
  match form, parts.filter (·.was.isExpr) with
  | .expr (.unary op), [operand] =>
    return call grouped (← operand.become) (symbol (unaryMessage op))
  | .expr (.binary op), [left, right] => do
    let left ← left.become
    let right ← right.become
    return match LogicOp.ofText? op with
      | some op => node (.expr (.logic op)) grouped [left, right]
      | none => call grouped (call false left (symbol op)) right
  | .expr .conditional, [condition, yes] =>
    return conditional grouped (← condition.become) (← yes.become) nothing
  | .expr .whileLoop, [condition, body] => do
    let temporary ← modifyGet fun count => (name count, count + 1)
    -- the condition is there twice, and has its own temporaries each time
    return whileLoop grouped temporary (← condition.become) (← body.become) (← condition.become)
  | .expr (.function input _), [body] => do
    let types ← (parts.filter (·.was.isType)).mapM Prospect.become
    let types := if input then types else leaf (.type .empty) :: types
    return function grouped types (← body.become)
  | .expr .block, [item] => do
    let becomes ← item.become
    return if item.was.form.expr?.any needsBlock then node (.expr .block) grouped [becomes]
      else becomes.setGrouped
  | .expr .struct, _ => return node (.expr .struct) grouped (← nameFields 0 parts)
  | _, _ => return node form grouped (← parts.mapM Prospect.become)

mutual

/-- What a plain tree is in the core language. The temporary of a loop is named before those in
its condition and its body. -/
def core (name : Nat → String) : Plain → Naming Plain
  | node form grouped children => assemble name form grouped (prospects name children)

def prospects (name : Nat → String) : List Plain → List Prospect
  | [] => []
  | P :: rest => ⟨P, core name P⟩ :: prospects name rest

end

def prospect (name : Nat → String) (P : Plain) : Prospect := ⟨P, core name P⟩

theorem prospects_eq (name : Nat → String) (trees : List Plain) :
    prospects name trees = trees.map (prospect name) := by
  induction trees with
  | nil => rfl
  | cons P rest ih => rw [prospects, ih, List.map_cons, prospect]

theorem core_eq (name : Nat → String) (form : NodeForm) (grouped : Bool) (children : List Plain) :
    core name (node form grouped children) =
      assemble name form grouped (children.map (prospect name)) := by
  rw [core, prospects_eq]

/-- Choosing among prospects by what they were is choosing among the trees. -/
theorem filter_prospects (name : Nat → String) (p : Plain → Bool) (trees : List Plain) :
    (trees.map (prospect name)).filter (p ·.was) = (trees.filter p).map (prospect name) :=
  List.filter_map

end Plain

end MessageLang
