import MessageLang.Proofs.Tree.Linking

namespace MessageLang

/-- One of the changes that arenas are built with. -/
inductive Operation where
  | leaf (form : NodeForm) (span : Span)
  | token (t : Token)
  | alloc (form : NodeForm) (pieces : List Piece)
  | allocAt (form : NodeForm) (span : Span) (pieces : List Piece)
  | append (id : NodeId) (pieces : List Piece)
  | replace (old new : NodeId)
  | detach (id : NodeId)
  | copy (id : NodeId)

namespace Operation

def run : Operation → Edit Unit
  | leaf form span => do let _ ← Edit.leaf form span
  | token t => do let _ ← Edit.token t
  | alloc form pieces => do let _ ← Edit.alloc form pieces
  | allocAt form span pieces => do let _ ← Edit.allocAt form span pieces
  | append id pieces => Edit.append id pieces
  | replace old new => Edit.replace old new
  | detach id => Edit.detach id
  | copy id => do let _ ← Edit.copy id

/-- The nodes among some pieces can become children: they are distinct and have no parent. -/
structure Loose (a : Arena) (pieces : List Piece) : Prop where
  lt : ∀ id, .node id ∈ pieces → id.index < a.size
  nodup : (pieces.filterMap Piece.node?).Nodup
  root : ∀ id, .node id ∈ pieces → a.parent id = none

/-- What a change asks of the arena that it is made to. Nothing may be put below itself. -/
def Allowed (a : Arena) : Operation → Prop
  | leaf .. | token _ => True
  | alloc _ pieces | allocAt _ _ pieces => Loose a pieces
  | append id pieces => id.index < a.size ∧ Loose a pieces ∧
      ∀ piece, .node piece ∈ pieces → ¬ Relation.ReflTransGen a.Up id piece
  | replace old new =>
    old.index < a.size ∧ new.index < a.size ∧ ¬ Relation.TransGen a.Up old new
  | detach id | copy id => id.index < a.size

section

variable {a : Arena} {op : Operation}

/-- Trees stay trees. -/
theorem forest_after (h : a.Forest) (hallowed : op.Allowed a) :
    After op.run a fun _ a' => a'.Forest := by
  cases op with
  | leaf form span =>
    rw [run, after_bind_iff]
    refine (Arena.leaf_ends form span).after.mono fun _ a' ⟨_, _, hparent, hchildren⟩ => ?_
    exact after_pure_iff.mpr (h.congr hparent hchildren)
  | token t =>
    rw [run, Edit.token, after_bind_iff]
    refine (Arena.leaf_ends _ _).after.mono fun _ a' ⟨_, _, hparent, hchildren⟩ => ?_
    exact after_pure_iff.mpr (h.congr hparent hchildren)
  | alloc form pieces =>
    rw [run, after_bind_iff]
    refine (Arena.alloc_after h hallowed.lt).mono fun _ _ h' => ?_
    exact after_pure_iff.mpr h'.1.forest
  | allocAt form span pieces =>
    rw [run, after_bind_iff]
    refine (Arena.allocAt_after h hallowed.lt).mono fun _ _ h' => ?_
    exact after_pure_iff.mpr h'.1.forest
  | append id pieces =>
    obtain ⟨hid, hloose, hapart⟩ := hallowed
    exact (Arena.append_after h hid hloose.lt hapart).mono fun _ _ h' => h'.forest
  | replace old new =>
    obtain ⟨hold, hnew, hapart⟩ := hallowed
    exact (h.replace_ends hold hnew hapart).after.mono fun _ _ h' => h'.1
  | detach id => exact (Arena.detach_ends h hallowed).after.mono fun _ _ h' => h'.1
  | copy id =>
    rw [run, after_bind_iff]
    refine (h.copy_ends hallowed).after.mono fun _ _ h' => ?_
    exact after_pure_iff.mpr h'.regrows.forest

/-- No change stops half-way, but for a node that is to span from its first child to its last and is
given none. -/
theorem forest_ends (h : a.Forest) (hallowed : op.Allowed a) (hne : ∀ form, op ≠ .alloc form []) :
    Ends op.run a fun _ a' => a'.Forest := by
  suffices hends : Ends op.run a fun _ _ => True from
    (hends.and_after (forest_after h hallowed)).mono fun _ _ hboth => hboth.2
  cases op with
  | leaf form span =>
    rw [run, ends_bind_iff]
    exact (Arena.leaf_ends form span).mono fun _ _ _ => trivial
  | token t =>
    rw [run, Edit.token, ends_bind_iff]
    exact (Arena.leaf_ends _ _).mono fun _ _ _ => trivial
  | alloc form pieces =>
    rw [run, ends_bind_iff]
    refine (Arena.alloc_ends hallowed.lt hallowed.nodup hallowed.root ?_ form).mono
      fun _ _ _ => trivial
    rintro rfl
    exact hne form rfl
  | allocAt form span pieces =>
    rw [run, ends_bind_iff]
    exact (Arena.allocAt_ends hallowed.lt hallowed.nodup hallowed.root form span).mono
      fun _ _ _ => trivial
  | append id pieces =>
    obtain ⟨_, hloose, _⟩ := hallowed
    exact Arena.append_ends hloose.lt hloose.nodup hloose.root id
  | replace old new =>
    obtain ⟨hold, hnew, hapart⟩ := hallowed
    exact (h.replace_ends hold hnew hapart).mono fun _ _ _ => trivial
  | detach id => exact (Arena.detach_ends h hallowed).mono fun _ _ _ => trivial
  | copy id =>
    rw [run, ends_bind_iff]
    exact (h.copy_ends hallowed).mono fun _ _ _ => trivial

end

end Operation

namespace Arena

/-- An arena that some changes made of the empty one. -/
inductive Built : Arena → Prop
  | empty : Built .empty
  | step {a a' : Arena} {op : Operation} (built : Built a) (allowed : op.Allowed a)
      (run : op.run a = .ok ((), a')) : Built a'

theorem empty_forest : empty.Forest := by
  have hnode : ∀ id, empty.node id = default := fun id => node_of_le (Nat.zero_le _)
  refine ⟨fun parent child => ?_, fun parent => ?_, fun id hcycle => ?_⟩
  · rw [children, hnode, Up, Arena.parent, hnode]
    exact iff_of_false List.not_mem_nil (Option.some_ne_none parent).symm
  · rw [children, hnode]
    exact List.nodup_nil
  · obtain ⟨next, hup, _⟩ := Relation.TransGen.head'_iff.mp hcycle
    rw [Up, Arena.parent, hnode] at hup
    cases hup

theorem Built.forest {a : Arena} (h : a.Built) : a.Forest := by
  induction h with
  | empty => exact empty_forest
  | step _ allowed run ih => exact Operation.forest_after ih allowed _ _ run

end Arena

end MessageLang
