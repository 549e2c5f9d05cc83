import MessageLang.Fault

namespace MessageLang

/-- The handle of a type. Two types are the same only if their handles are. -/
structure TypeId where
  index : Nat
deriving DecidableEq, Inhabited

/-- One field of a compound type. A field without a name is called by its position. -/
structure Field where
  name : String
  type : TypeId
  hasDefault : Bool := false
deriving DecidableEq

namespace Field

/-- Fields called by their position have a question mark in front of it. -/
def isPositional (f : Field) : Bool := f.name.startsWith "?"

/-- The name of the field at a position. -/
def positionalName (position : Nat) : String := "?" ++ toString position

end Field

/-- What decides whether a value is of a type. -/
inductive Shape where
  /-- The messages that it answers. -/
  | simple
  /-- Its fields, one by one. -/
  | compound (fields : List Field)
  /-- Nothing yet: the type stands for one that is still to be found. -/
  | wildcard
  /-- No value is of this type, not even one of this type. -/
  | nothing
  /-- Every value is of this type. -/
  | anything
  /-- There is never a value here, as after leaving a handler or a loop. -/
  | never
deriving DecidableEq

/-- A type: the symbols it answers with the types of the answers, in the order of the symbols,
and what it answers to values that fit a guard, as guard and answer. -/
structure Descriptor where
  name : Option String := none
  shape : Shape := .simple
  symbols : List (String × TypeId) := []
  handlers : List (TypeId × TypeId) := []
  /-- The wildcards that a template leaves open. -/
  params : List TypeId := []
  /-- What a union was made of. -/
  variants : List TypeId := []
deriving Inhabited

namespace Descriptor

/-- Puts a symbol in its place, instead of an earlier entry for it. -/
def insertSymbol (symbol : String) (answer : TypeId) :
    List (String × TypeId) → List (String × TypeId)
  | [] => [(symbol, answer)]
  | (other, previous) :: rest =>
    if symbol < other then (symbol, answer) :: (other, previous) :: rest
    else if symbol = other then (symbol, answer) :: rest
    else (other, previous) :: insertSymbol symbol answer rest

def addSymbol (d : Descriptor) (symbol : String) (answer : TypeId) : Descriptor :=
  { d with symbols := insertSymbol symbol answer d.symbols }

def addHandler (d : Descriptor) (guard answer : TypeId) : Descriptor :=
  { d with handlers := d.handlers ++ [(guard, answer)] }

def fields? (d : Descriptor) : Option (List Field) :=
  match d.shape with
  | .compound fields => some fields
  | _ => none

def fieldTypes (d : Descriptor) : List TypeId := (d.fields?.getD []).map (·.type)

end Descriptor

/-- The types of one session, and the unions made so far by what they were made of. -/
structure TypeTable where
  types : Array Descriptor
  unions : List (List TypeId × TypeId)

/-- A change to a table, which stops at the first fault. -/
abbrev Tabling := StateT TypeTable (Except Fault)

namespace TypeTable

def empty : TypeTable := ⟨#[], []⟩

def size (t : TypeTable) : Nat := t.types.size

def get (t : TypeTable) (id : TypeId) : Descriptor := t.types.getD id.index default

def isNothing (t : TypeTable) (id : TypeId) : Bool := (t.get id).shape == .nothing

def isAnything (t : TypeTable) (id : TypeId) : Bool := (t.get id).shape == .anything

def isNever (t : TypeTable) (id : TypeId) : Bool := (t.get id).shape == .never

def isWildcard (t : TypeTable) (id : TypeId) : Bool := (t.get id).shape == .wildcard

def fields? (t : TypeTable) (id : TypeId) : Option (List Field) := (t.get id).fields?

/-- The type of the answer to a symbol. -/
def answer? (t : TypeTable) (id : TypeId) (symbol : String) : Option TypeId :=
  (t.get id).symbols.lookup symbol

/-- Adds a type under the next handle. -/
def push (t : TypeTable) (d : Descriptor) : TypeId × TypeTable :=
  (⟨t.types.size⟩, { t with types := t.types.push d })

/-- Changes one type. -/
def update (t : TypeTable) (id : TypeId) (change : Descriptor → Descriptor) : TypeTable :=
  { t with types := t.types.modify id.index change }

theorem size_push (t : TypeTable) (d : Descriptor) : (t.push d).2.size = t.size + 1 := by
  simp [push, size]

theorem size_update (t : TypeTable) (id : TypeId) (change : Descriptor → Descriptor) :
    (t.update id change).size = t.size := by
  simp [update, size]

theorem get_push_new (t : TypeTable) (d : Descriptor) : (t.push d).2.get (t.push d).1 = d := by
  simp [push, get]

theorem get_push_of_lt (t : TypeTable) (d : Descriptor) {id : TypeId} (h : id.index < t.size) :
    (t.push d).2.get id = t.get id := by
  have h' : id.index < t.types.size := h
  simp [push, get, Array.getD_eq_getD_getElem?, Array.getElem?_push, Nat.ne_of_lt h']

theorem get_update_self (t : TypeTable) (change : Descriptor → Descriptor) {id : TypeId}
    (h : id.index < t.size) : (t.update id change).get id = change (t.get id) := by
  have h' : id.index < t.types.size := h
  simp [update, get, Array.getD_eq_getD_getElem?, Array.getElem_modify, h']

theorem get_update_of_ne (t : TypeTable) (change : Descriptor → Descriptor) {id other : TypeId}
    (h : other ≠ id) : (t.update id change).get other = t.get other := by
  have h' : id.index ≠ other.index := fun he => h (by cases id; cases other; simp_all)
  simp [update, get, Array.getD_eq_getD_getElem?, Array.getElem?_modify, h']

end TypeTable

namespace Tabling

def push (d : Descriptor) : Tabling TypeId := modifyGet (·.push d)

def update (id : TypeId) (change : Descriptor → Descriptor) : Tabling Unit :=
  modify (·.update id change)

/-- A type that answers nothing yet. -/
def simple : Tabling TypeId := push {}

def wildcard (name : String) : Tabling TypeId := push { name := some name, shape := .wildcard }

def addSymbol (id : TypeId) (symbol : String) (answer : TypeId) : Tabling Unit :=
  update id (·.addSymbol symbol answer)

def addHandler (id guard answer : TypeId) : Tabling Unit := update id (·.addHandler guard answer)

/-- A type with fields, which answers the name of each field that has one. -/
def compound (fields : List Field) : Tabling TypeId :=
  let named := fields.filter (!·.isPositional)
  push
    { shape := .compound fields
      symbols := named.foldl (fun symbols f => Descriptor.insertSymbol f.name f.type symbols) [] }

/-- A type that answers what fits `argument` with `result`, and nothing else. -/
def function (argument result : TypeId) : Tabling TypeId :=
  push { handlers := [(argument, result)] }

end Tabling

end MessageLang
