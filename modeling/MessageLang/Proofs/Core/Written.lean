import MessageLang.Proofs.Core.Nesting
import MessageLang.Proofs.Tree.Editing
import MessageLang.Tree.Phrase

namespace MessageLang

open MessageLang.Tree (Twig Nested)

mutual

/-- Whether a sketch gets all its text, and every span, from tokens that are written one after the
other. -/
def Sketch.isWritten : Sketch → Bool
  | .word .. => true
  | .node form parts more span => form.token?.isNone && span.isNone &&
    SketchPart.allWritten parts && SketchPart.allWritten more
  | .bare .. => false
  | .grouped inner => inner.isWritten

def SketchPart.isWritten : SketchPart → Bool
  | .absent | .lexeme .. => true
  | .many parts => SketchPart.allWritten parts
  | .token _ | .existing _ => false
  | .sketch inner => inner.isWritten

def SketchPart.allWritten : List SketchPart → Bool
  | [] => true
  | part :: rest => part.isWritten && SketchPart.allWritten rest

end

namespace Span

/-- Spans that follow each other between two offsets, perhaps with gaps. -/
def Follow : Nat → List Span → Nat → Prop
  | first, [], last => first ≤ last
  | first, s :: rest, last => first ≤ s.start ∧ Follow s.stop rest last

variable {s t : Span} {spans spans' : List Span} {first last mid : Nat}

theorem Follow.le (h : Follow first spans last) : first ≤ last := by
  induction spans generalizing first with
  | nil => exact h
  | cons s rest ih => exact h.1.trans (s.start_le_stop.trans (ih h.2))

theorem Follow.append (h : Follow first spans mid) (h' : Follow mid spans' last) :
    Follow first (spans ++ spans') last := by
  induction spans generalizing first with
  | nil =>
    cases spans' with
    | nil => exact h.trans h'
    | cons s rest => exact ⟨h.trans h'.1, h'.2⟩
  | cons s rest ih => exact ⟨h.1, ih h.2⟩

theorem Follow.bounds (h : Follow first spans last) (hs : s ∈ spans) :
    first ≤ s.start ∧ s.stop ≤ last := by
  induction spans generalizing first with
  | nil => cases hs
  | cons t rest ih =>
    rcases List.mem_cons.mp hs with rfl | hs
    · exact ⟨h.1, h.2.le⟩
    · have hbounds := ih h.2 hs
      have hle := t.start_le_stop
      exact ⟨h.1.trans (hle.trans hbounds.1), hbounds.2⟩

theorem Follow.to_last (h : Follow first spans last) (hlast : spans.getLast? = some t) :
    Follow first spans t.stop := by
  induction spans generalizing first with
  | nil => cases hlast
  | cons s rest ih =>
    refine ⟨h.1, ?_⟩
    cases rest with
    | nil =>
      cases hlast
      exact Nat.le_refl s.stop
    | cons s' rest => exact ih h.2 (by rwa [List.getLast?_cons_cons] at hlast)

/-- Spans that follow each other do not reach beyond the first and the last of them. -/
theorem Follow.within (h : Follow first spans last) (hhead : spans.head? = some s)
    (hlast : spans.getLast? = some t) {u : Span} (hu : u ∈ spans) : u.Within (s.merge t) := by
  have hfrom : Follow s.start spans t.stop := by
    cases spans with
    | nil => cases hu
    | cons s' rest =>
      cases hhead
      exact ⟨Nat.le_refl _, (h.to_last hlast).2⟩
  obtain ⟨hstart, hstop⟩ := hfrom.bounds hu
  exact ⟨(Nat.min_le_left ..).trans hstart, hstop.trans (Nat.le_max_right ..)⟩

/-- Growing a span to cover others. -/
theorem foldl_merge (spans : List Span) (s : Span) : s.Within (spans.foldl merge s) ∧
    (∀ t ∈ spans, t.Within (spans.foldl merge s)) ∧
      ∀ u : Span, s.Within u → (∀ t ∈ spans, t.Within u) → (spans.foldl merge s).Within u := by
  induction spans generalizing s with
  | nil => exact ⟨.refl s, nofun, fun _ h _ => h⟩
  | cons t rest ih =>
    obtain ⟨hs, hrest, hleast⟩ := ih (s.merge t)
    refine ⟨(within_merge_left s t).trans hs, List.forall_mem_cons.mpr
      ⟨(within_merge_right s t).trans hs, hrest⟩, fun u hu hall => ?_⟩
    obtain ⟨ht, hall⟩ := List.forall_mem_cons.mp hall
    exact hleast u (merge_within hu ht) hall

end Span

/-- The offset at which the source of a draft ends. -/
def Draft.length (d : Draft) : Nat := d.source.utf8ByteSize

namespace Drafting

theorem after_edit_iff {α : Type} {change : Edit α} {d : Draft} {post : α → Draft → Prop} :
    After (edit change) d post ↔ After change d.arena fun r a => post r { d with arena := a } := by
  simp only [After, edit, bind, Except.bind]
  cases change d.arena with
  | error _ => simp
  | ok result =>
    obtain ⟨r, a⟩ := result
    refine ⟨fun h r' a' heq => ?_, fun h r' d' heq => ?_⟩
    · cases heq
      exact h _ _ rfl
    · cases heq
      exact h _ _ rfl

/-- A token is written after all that there is, and nothing after it. -/
theorem write_after (kind : TokenKind) (text : String) (d : Draft) :
    After (write kind text) d fun t d' =>
      d.length ≤ t.span.start ∧ t.span.stop = d'.length ∧ d'.arena = d.arena := by
  intro t d' hrun
  cases hrun
  refine ⟨?_, ?_, rfl⟩
  · change d.source.utf8ByteSize ≤ (if d.source.isEmpty then "" else d.source ++ " ").utf8ByteSize
    split
    · next hempty =>
      rw [String.isEmpty_iff.mp hempty]
    · rw [String.utf8ByteSize_append]
      exact Nat.le_add_right _ _
  · exact (String.utf8ByteSize_append ..).symm

end Drafting

namespace Tree

variable {T : Tree} {twigs : List Twig} {first mid last : Nat} {form : NodeForm}

theorem map_span_leaves (twigs : List Twig) (size : Nat) :
    (leaves twigs size).1.map Tree.span = twigs.map Twig.span := by
  induction twigs generalizing size with
  | nil => rfl
  | cons twig twigs ih =>
    cases twig with
    | tree T => exact congrArg (T.span :: ·) (ih size)
    | token t => exact congrArg (t.span :: ·) (ih (size + 1))

/-- Children in the making that follow each other between two offsets. -/
structure Twig.Laid (first : Nat) (twigs : List Twig) (last : Nat) : Prop where
  follow : Span.Follow first (twigs.map Twig.span) last
  nested : ∀ T, .tree T ∈ twigs → Nested Set.univ [T]

theorem Twig.Laid.nil (offset : Nat) : Laid offset [] offset := ⟨Nat.le_refl offset, nofun⟩

theorem Twig.Laid.append {twigs' : List Twig} (h : Laid first twigs mid) (h' : Laid mid twigs' last) :
    Laid first (twigs ++ twigs') last where
  follow := by
    rw [List.map_append]
    exact h.follow.append h'.follow
  nested T hT := (List.mem_append.mp hT).elim (h.nested T) (h'.nested T)

/-- A tree that lies between two offsets and in which all nodes have their children within them. -/
structure LaidBetween (first last : Nat) (T : Tree) : Prop where
  nested : Nested Set.univ [T]
  sort : T.form.token? = none
  start_le : first ≤ T.span.start
  stop_le : T.span.stop ≤ last

/-- A node over parts that are within it. -/
theorem nested_of_within (hsort : T.form.token? = none)
    (h : ∀ C ∈ T.children, Nested Set.univ [C] ∧ C.span.Within T.span) : Nested Set.univ [T] := by
  refine nested_singleton.mpr ⟨⟨fun C hC => .within (h C hC).2, fun t ht => ?_⟩,
    nested_iff.mpr fun C hC => (h C hC).1⟩
  rw [ht] at hsort
  cases hsort

/-- A new node over parts that follow each other. -/
theorem Twig.Laid.alloc (h : Laid first twigs last) (hne : twigs ≠ []) (hsort : form.token? = none)
    (size : Nat) : LaidBetween first last (Tree.alloc form twigs size).1 := by
  obtain ⟨hfollow, hnested⟩ := h
  have hspans := map_span_leaves twigs size
  have hnotnil : (leaves twigs size).1 ≠ [] := by
    rw [← List.length_pos_iff, length_leaves]
    exact List.length_pos_iff.mpr hne
  rw [← hspans] at hfollow
  have hspan : (Tree.alloc form twigs size).1.span =
      ((leaves twigs size).1.head hnotnil).span.merge ((leaves twigs size).1.getLast hnotnil).span := by
    change cover (leaves twigs size).1 = _
    rw [cover, List.head?_eq_some_head hnotnil, List.getLast?_eq_some_getLast hnotnil]
  have hfirst := hfollow.bounds (List.mem_map_of_mem (List.head_mem hnotnil))
  have hlast := hfollow.bounds (List.mem_map_of_mem (List.getLast_mem hnotnil))
  refine ⟨nested_of_within hsort fun C hC => ⟨?_, ?_⟩, hsort, ?_, ?_⟩
  · obtain ⟨twig, htwig, hsprout⟩ := exists_sprouts hC
    exact hsprout.nested fun T hT => hnested T (hT ▸ htwig)
  · rw [hspan]
    refine hfollow.within ?_ ?_ (List.mem_map_of_mem hC)
    · rw [List.head?_map, List.head?_eq_some_head hnotnil]
      rfl
    · rw [List.getLast?_map, List.getLast?_eq_some_getLast hnotnil]
      rfl
  · rw [hspan]
    exact Nat.le_min.mpr ⟨hfirst.1, hlast.1⟩
  · rw [hspan]
    exact Nat.max_le.mpr ⟨hfirst.2, hlast.2⟩

/-- Parts that are added to a node follow it. -/
theorem LaidBetween.append (h : LaidBetween first mid T) (h' : Twig.Laid mid twigs last) (size : Nat) :
    LaidBetween first last (T.append twigs size).1 := by
  obtain ⟨hfollow, hnested⟩ := h'
  obtain ⟨hself, hsort, hfirst, hmid⟩ := h
  obtain ⟨hsnug, hchildren⟩ := nested_singleton.mp hself
  have hle := T.span.start_le_stop
  have hspan : (T.append twigs size).1.span = (twigs.map Twig.span).foldl Span.merge T.span := by
    rw [← map_span_leaves twigs size, List.foldl_map]
    rfl
  obtain ⟨hown, hadded, hleast⟩ := Span.foldl_merge (twigs.map Twig.span) T.span
  rw [← hspan] at hown hadded hleast
  have hbounds := hleast ⟨first, last, by have := hfollow.le; omega⟩ ⟨hfirst, hmid.trans hfollow.le⟩
    fun t ht => ?_
  · refine ⟨nested_of_within hsort fun C hC => ?_, hsort, hbounds.1, hbounds.2⟩
    rcases List.mem_append.mp hC with hC | hC
    · exact ⟨nested_iff.mp hchildren C hC, (hsnug.within_of_univ hC).trans hown⟩
    · obtain ⟨twig, htwig, hsprout⟩ := exists_sprouts hC
      refine ⟨hsprout.nested fun T hT => hnested T (hT ▸ htwig), ?_⟩
      rw [hsprout.span_eq]
      exact hadded _ (List.mem_map_of_mem htwig)
  · obtain ⟨hstart, hstop⟩ := hfollow.bounds ht
    exact ⟨by dsimp only; omega, hstop⟩

theorem LaidBetween.setGrouped (h : LaidBetween first last T) :
    LaidBetween first last (T.setGrouped true) where
  nested := h.nested.inherit true
  sort := h.sort
  start_le := h.start_le
  stop_le := h.stop_le

theorem LaidBetween.laid (h : LaidBetween first last T) : Twig.Laid first [.tree T] last where
  follow := ⟨h.start_le, h.stop_le⟩
  nested _ hT := by
    cases List.mem_singleton.mp hT
    exact h.nested

end Tree

section

open Arena (Apart)

variable {start : Arena} {owned : List NodeId}

/-- The pieces that are there after some parts have been written: tokens, and roots of trees that lie
one after the other. -/
def Draft.Spread (start : Arena) (owned : List NodeId) (rest : Multiset Part) (first : Nat)
    (pieces : List Piece) (d : Draft) : Prop :=
  ∃ twigs size, pieces = twigs.map Twig.piece ∧ start.Apart owned (Twig.used twigs + rest) size d.arena ∧
    Twig.Laid first twigs d.length

theorem Drafting.after_alloc_nil (form : NodeForm) (a : Arena) (post : NodeId → Arena → Prop) :
    After (Edit.alloc form []) a post := after_throw

mutual

/-- A sketch that is written out comes to a tree at the end of the source, whose nodes all have their
children within them. -/
theorem Sketch.build_after {rest : Multiset Part} {size : Nat} {d : Draft} (s : Sketch)
    (hs : s.isWritten) (h : start.Apart owned rest size d.arena) :
    After s.build d fun id d' => ∃ T size', id = T.id ∧
      start.Apart owned ({.tree none T} + rest) size' d'.arena ∧ T.LaidBetween d.length d'.length := by
  match s with
  | .word form kind text =>
    rw [Sketch.build, after_bind_iff]
    refine (Drafting.write_after kind text d).mono fun t d₁ ⟨hstart, hstop, harena⟩ => ?_
    rw [Drafting.after_edit_iff, harena]
    refine (h.leaf (.expr form) t.span).after.mono fun id a ⟨hid, hmade⟩ => ?_
    exact ⟨_, _, hid, hmade, Tree.nested_leaf rfl size, rfl, hstart, hstop.le⟩
  | .node form parts more span =>
    simp only [Sketch.isWritten, Bool.and_eq_true, Option.isNone_iff_eq_none] at hs
    obtain ⟨⟨⟨hsort, rfl⟩, hparts⟩, hmore⟩ := hs
    rw [Sketch.build, after_bind_iff]
    refine (SketchPart.buildAll_after parts hparts h).mono ?_
    rintro _ d₁ ⟨twigs, size₁, rfl, h₁, hlaid⟩
    rw [after_bind_iff, Drafting.after_edit_iff]
    by_cases hne : twigs = []
    · rw [hne]
      exact Drafting.after_alloc_nil form d₁.arena _
    refine (h₁.alloc twigs hne form).after.mono ?_
    rintro _ a₂ ⟨rfl, h₂⟩
    rw [after_bind_iff]
    refine (SketchPart.buildAll_after more hmore h₂).mono ?_
    rintro _ d₃ ⟨twigs', size₃, rfl, h₃, hlaid'⟩
    rw [after_bind_iff, Drafting.after_edit_iff]
    refine (h₃.append twigs').after.mono fun _ a₄ h₄ => after_pure_iff.mpr ?_
    exact ⟨((Tree.alloc form twigs size₁).1.append twigs' size₃).1, _, rfl, h₄,
      (hlaid.alloc hne hsort size₁).append hlaid' size₃⟩
  | .grouped inner =>
    rw [Sketch.build, after_bind_iff]
    refine (inner.build_after hs h).mono ?_
    rintro _ d₁ ⟨T, size₁, rfl, h₁, hlaid⟩
    rw [after_bind_iff, Drafting.after_edit_iff]
    refine (h₁.setGrouped true).after.mono fun _ a h₂ => after_pure_iff.mpr ?_
    exact ⟨T.setGrouped true, size₁, rfl, h₂, hlaid.setGrouped⟩

theorem SketchPart.build_after {rest : Multiset Part} {size : Nat} {d : Draft} (part : SketchPart)
    (hpart : part.isWritten) (h : start.Apart owned rest size d.arena) :
    After part.build d (Draft.Spread start owned rest d.length) := by
  match part with
  | .absent =>
    rw [SketchPart.build, after_pure_iff]
    exact ⟨[], size, rfl, by rwa [Twig.used, zero_add], .nil _⟩
  | .many parts =>
    rw [SketchPart.build]
    exact SketchPart.buildAll_after parts hpart h
  | .lexeme kind text =>
    rw [SketchPart.build, after_bind_iff]
    refine (Drafting.write_after kind text d).mono fun t d₁ ⟨hstart, hstop, harena⟩ => ?_
    rw [after_pure_iff]
    refine ⟨[.token t], size, rfl, ?_, ⟨hstart, hstop.le⟩, fun T hT => by simp at hT⟩
    rw [harena, Twig.used, Twig.used, zero_add]
    exact h
  | .sketch inner =>
    rw [SketchPart.build, after_bind_iff]
    refine (inner.build_after hpart h).mono ?_
    rintro _ d₁ ⟨T, size₁, rfl, h₁, hlaid⟩
    rw [after_pure_iff]
    refine ⟨[.tree T], size₁, rfl, ?_, hlaid.laid⟩
    rwa [Twig.used, Twig.used, add_zero]

theorem SketchPart.buildAll_after {rest : Multiset Part} {size : Nat} {d : Draft}
    (parts : List SketchPart) (hparts : SketchPart.allWritten parts)
    (h : start.Apart owned rest size d.arena) :
    After (SketchPart.buildAll parts) d (Draft.Spread start owned rest d.length) := by
  match parts with
  | [] =>
    rw [SketchPart.buildAll, after_pure_iff]
    exact ⟨[], size, rfl, by rwa [Twig.used, zero_add], .nil _⟩
  | part :: more =>
    obtain ⟨hpart, hmore⟩ := Bool.and_eq_true_iff.mp hparts
    rw [SketchPart.buildAll, after_bind_iff]
    refine (part.build_after hpart h).mono ?_
    rintro _ d₁ ⟨twigs, size₁, rfl, h₁, hlaid⟩
    rw [after_bind_iff]
    refine (SketchPart.buildAll_after more hmore h₁).mono ?_
    rintro _ d₂ ⟨twigs', size₂, rfl, h₂, hlaid'⟩
    rw [after_pure_iff]
    refine ⟨twigs ++ twigs', size₂, (List.map_append ..).symm, ?_, hlaid.append hlaid'⟩
    rwa [Twig.used_append, add_assoc, add_left_comm]

end

end

/-- In a tree that is written out all children are within their parents, and lowering keeps it so but
for one thing: the check in the block of a generated loop starts where the condition does, which is
before what the block starts with. -/
theorem lower_nested {s : Sketch} (hs : s.isWritten) {d d' : Draft} {root : NodeId}
    (hrun : s.build d = .ok (root, d')) (stem : String) (log : Log) :
    ∃ T R log' a', T.id = root ∧ d'.arena.Holds none T ∧
      (∀ P ∈ T.nodes, ∀ C ∈ P.children, C.span.Within P.span) ∧
      lower stem root log d'.arena = .ok ((R.id, log'), a') ∧ a'.Holds none R ∧
      R.span.Within T.span ∧
      ∀ P ∈ R.nodes, ∀ C ∈ P.children, P.Fits {name | name ∈ Tree.names [T]} C := by
  have hstart : d.arena.Apart [] 0 d.arena.size d.arena :=
    ⟨rfl, .refl _ _, nofun, Multiset.nodup_zero, nofun⟩
  obtain ⟨T, size, rfl, hapart, hlaid⟩ := s.build_after hs hstart root d' hrun
  have hnodup := hapart.ids_nodup
  have hsite : d'.arena.Site none [] [] T := ⟨nofun, nofun, nofun⟩
  obtain ⟨R, s', a', hlower, hlowers, hreplaced⟩ :=
    lower_lowers hapart.holds ⟨.root, by simpa using hnodup⟩ hsite stem log
  have htaken := hapart.holds.taken_eq hnodup stem
  have hnodes : ∀ U : Tree, Tree.nodesAll [U] = U.nodes := fun U => by simp [Tree.nodesAll]
  have hsubset : ∀ name ∈ {name | name ∈ Tree.names [T]},
      name ∈ (Temporaries.ofTree d'.arena T.id stem).taken := fun name hname => htaken ▸ hname
  obtain ⟨hnested, hshrink⟩ := hlowers.nested hsubset
    fun X hX => (hlaid.nested X hX).mono (Set.subset_univ _)
  obtain ⟨U, hU, hR⟩ := hshrink R (List.mem_singleton_self R)
  cases List.mem_singleton.mp hU
  refine ⟨T, R, s'.log, a', rfl, hapart.holds, fun P hP C hC => ?_, hlower, hreplaced.holds,
    hR.within, fun P hP => (hnested P (hnodes R ▸ hP)).fits⟩
  exact (hlaid.nested P (hnodes T ▸ hP)).within_of_univ hC

/-- The loop `while c do b`. -/
def shortLoop : Sketch := .whileLoop (.reference "c") (.reference "b")

theorem lower_nested_shortLoop : shortLoop.isWritten ∧ ∃ root d',
    shortLoop.build .empty = .ok (root, d') ∧ d'.source = "while c do b" ∧
    ∃ (T R : Tree) (log' : Log) (a' : Arena), T.id = root ∧
      lower "_" root .empty d'.arena = .ok ((R.id, log'), a') ∧
      ∀ P ∈ R.nodes, ∀ C ∈ P.children, P.Fits {name | name ∈ Tree.names [T]} C := by
  have hwritten : shortLoop.isWritten := rfl
  obtain ⟨root, d', hrun, hsource⟩ : ∃ root d', shortLoop.build .empty = .ok (root, d') ∧
    d'.source = "while c do b" := ⟨_, _, rfl, by decide⟩
  obtain ⟨T, R, log', a', hroot, -, -, hlower, -, -, hfits⟩ := lower_nested hwritten hrun "_" .empty
  exact ⟨hwritten, root, d', hrun, hsource, T, R, log', a', hroot, hlower, hfits⟩

end MessageLang
