import MessageLang.Proofs.Tree.Apart
import MessageLang.Tree.Edit

namespace MessageLang

/-- Making trees, given how many nodes there have been so far. -/
abbrev Growing := StateM Nat

theorem Growing.bind_apply {α β : Type} (step : Growing α) (next : α → Growing β) (size : Nat) :
    (step >>= next) size = next (step size).1 (step size).2 := rfl

theorem Growing.pure_apply {α : Type} (x : α) (size : Nat) :
    (pure x : Growing α) size = (x, size) := rfl

namespace Tree

/-- A child in the making: a tree there is, or a token that is still to become a leaf. -/
inductive Twig where
  | tree (T : Tree)
  | token (token : Token)

def Twig.piece : Twig → Piece
  | tree T => .node T.id
  | token t => .token t

/-- The trees among some children in the making, which are roots. -/
def Twig.used : List Twig → Multiset Part
  | [] => 0
  | tree T :: rest => {.tree none T} + used rest
  | token _ :: rest => used rest

def leaf (form : NodeForm) (span : Span) : Growing Tree :=
  fun size => (.node ⟨size⟩ form span false [], size + 1)

def leaves : List Twig → Growing (List Tree)
  | [] => pure []
  | .tree T :: rest => do
    let trees ← leaves rest
    return T :: trees
  | .token t :: rest => do
    let T ← leaf (.token t) t.span
    let trees ← leaves rest
    return T :: trees

def attach (form : NodeForm) (span : Span) (children : List Tree) : Growing Tree :=
  fun size => (.node ⟨size⟩ form span false children, size + 1)

def allocAt (form : NodeForm) (span : Span) (twigs : List Twig) : Growing Tree := do
  attach form span (← leaves twigs)

/-- The span from the first of some trees to the last. -/
def cover (trees : List Tree) : Span :=
  match trees.head?, trees.getLast? with
  | some first, some last => first.span.merge last.span
  | _, _ => default

def alloc (form : NodeForm) (twigs : List Twig) : Growing Tree := do
  let children ← leaves twigs
  attach form (cover children) children

def append (T : Tree) (twigs : List Twig) : Growing Tree := do
  let added ← leaves twigs
  return .node T.id T.form (added.foldl (fun span child => span.merge child.span) T.span) T.grouped
    (T.children ++ added)

mutual

def copy : Tree → Growing Tree
  | .node _ form span grouped children => do
    let copies ← copyAll children
    fun size => (.node ⟨size⟩ form span grouped copies, size + 1)

def copyAll : List Tree → Growing (List Tree)
  | [] => pure []
  | T :: rest => do
    let T ← copy T
    let copies ← copyAll rest
    return T :: copies

end

def setGrouped (T : Tree) (grouped : Bool) : Tree := .node T.id T.form T.span grouped T.children

def setForm (T : Tree) (form : NodeForm) : Tree := .node T.id form T.span T.grouped T.children

@[simp]
theorem form_setForm (T : Tree) (form : NodeForm) : (T.setForm form).form = form := rfl

@[simp]
theorem children_setForm (T : Tree) (form : NodeForm) :
    (T.setForm form).children = T.children := rfl

theorem Twig.used_append (twigs twigs' : List Twig) :
    used (twigs ++ twigs') = used twigs + used twigs' := by
  induction twigs with
  | nil => exact (zero_add _).symm
  | cons twig twigs ih =>
    cases twig with
    | tree T => rw [List.cons_append, used, used, ih, add_assoc]
    | token t => exact ih

theorem Twig.used_map_tree (trees : List Tree) :
    used (trees.map .tree) = (trees.map (.tree none) : List Part) := by
  induction trees with
  | nil => rfl
  | cons T trees ih =>
    rw [List.map_cons, used, ih, List.map_cons, ← Multiset.cons_coe, Multiset.singleton_add]

theorem copy_eq (T : Tree) (size : Nat) :
    T.copy size = (.node ⟨(copyAll T.children size).2⟩ T.form T.span T.grouped
      (copyAll T.children size).1, (copyAll T.children size).2 + 1) := by
  cases T
  rfl

theorem length_leaves (twigs : List Twig) (size : Nat) :
    (leaves twigs size).1.length = twigs.length := by
  induction twigs generalizing size with
  | nil => rfl
  | cons twig twigs ih =>
    cases twig with
    | tree T => exact congrArg Nat.succ (ih size)
    | token t => exact congrArg Nat.succ (ih (size + 1))

end Tree

end MessageLang
