import MessageLang.Proofs.Core.Slices
import MessageLang.Proofs.Core.Written

namespace MessageLang

open MessageLang.Tree (Twig)
open Draft (written whereabouts)

/-- Being what nodes are that stand for one token each. -/
def NodeForm.isLeaf : NodeForm → Bool
  | token _ | expr (.constant _) | expr (.reference _) => true
  | _ => false

mutual

/-- Whether a sketch is of tokens only, each with some text, and of nodes with parts. -/
def Sketch.isSpelt : Sketch → Bool
  | .word form _ text => (NodeForm.expr form).isLeaf && !text.isEmpty
  | .node form parts more span => !form.isLeaf && span.isNone && SketchPart.anyPresent parts &&
    SketchPart.allSpelt parts && SketchPart.allSpelt more
  | .bare .. => false
  | .grouped inner => inner.isSpelt

def SketchPart.isSpelt : SketchPart → Bool
  | .absent => true
  | .many parts => SketchPart.allSpelt parts
  | .token _ | .existing _ => false
  | .lexeme _ text => !text.isEmpty
  | .sketch inner => inner.isSpelt

def SketchPart.allSpelt : List SketchPart → Bool
  | [] => true
  | part :: rest => part.isSpelt && SketchPart.allSpelt rest

/-- Whether there will be a child for a part. -/
def SketchPart.isPresent : SketchPart → Bool
  | .absent => false
  | .many parts => SketchPart.anyPresent parts
  | .token _ | .lexeme .. | .existing _ | .sketch _ => true

def SketchPart.anyPresent : List SketchPart → Bool
  | [] => false
  | part :: rest => part.isPresent || SketchPart.anyPresent rest

end

mutual

/-- The texts that are written for a sketch, from left to right. -/
def Sketch.texts : Sketch → List String
  | .word _ _ text => [text]
  | .node _ parts more _ => SketchPart.allTexts parts ++ SketchPart.allTexts more
  | .bare .. => []
  | .grouped inner => inner.texts

def SketchPart.texts : SketchPart → List String
  | .absent | .token _ | .existing _ => []
  | .many parts => SketchPart.allTexts parts
  | .lexeme _ text => [text]
  | .sketch inner => inner.texts

def SketchPart.allTexts : List SketchPart → List String
  | [] => []
  | part :: rest => part.texts ++ SketchPart.allTexts rest

end

mutual

/-- The forms of the nodes of a sketch, but for tokens, each before those of its parts. -/
def Sketch.forms : Sketch → List NodeForm
  | .word form .. => [.expr form]
  | .node form parts more _ => form :: (SketchPart.allForms parts ++ SketchPart.allForms more)
  | .bare form _ => [form]
  | .grouped inner => inner.forms

def SketchPart.forms : SketchPart → List NodeForm
  | .absent | .token _ | .existing _ | .lexeme .. => []
  | .many parts => SketchPart.allForms parts
  | .sketch inner => inner.forms

def SketchPart.allForms : List SketchPart → List NodeForm
  | [] => []
  | part :: rest => part.forms ++ SketchPart.allForms rest

end

mutual

theorem Sketch.texts_ne_empty (s : Sketch) (hs : s.isSpelt) : ∀ text ∈ s.texts, text ≠ "" := by
  match s with
  | .word form kind text =>
    simp only [Sketch.isSpelt, Bool.and_eq_true, Bool.not_eq_true', String.isEmpty_eq_false_iff] at hs
    simpa [Sketch.texts] using hs.2
  | .node form parts more span =>
    simp only [Sketch.isSpelt, Bool.and_eq_true] at hs
    intro text htext
    rcases List.mem_append.mp htext with htext | htext
    · exact SketchPart.allTexts_ne_empty parts hs.1.2 text htext
    · exact SketchPart.allTexts_ne_empty more hs.2 text htext
  | .bare .. => exact nofun
  | .grouped inner => exact inner.texts_ne_empty hs

theorem SketchPart.texts_ne_empty (part : SketchPart) (hpart : part.isSpelt) :
    ∀ text ∈ part.texts, text ≠ "" := by
  match part with
  | .absent | .token _ | .existing _ => exact nofun
  | .many parts => exact SketchPart.allTexts_ne_empty parts hpart
  | .lexeme kind text => simpa [SketchPart.texts, SketchPart.isSpelt] using hpart
  | .sketch inner => exact inner.texts_ne_empty hpart

theorem SketchPart.allTexts_ne_empty (parts : List SketchPart) (hparts : SketchPart.allSpelt parts) :
    ∀ text ∈ SketchPart.allTexts parts, text ≠ "" := by
  match parts with
  | [] => exact nofun
  | part :: rest =>
    obtain ⟨hpart, hrest⟩ := Bool.and_eq_true_iff.mp hparts
    intro text htext
    rcases List.mem_append.mp htext with htext | htext
    · exact part.texts_ne_empty hpart text htext
    · exact SketchPart.allTexts_ne_empty rest hrest text htext

end

namespace Span

variable {s t : Span} {spans : List Span} {first last : Nat}

theorem Follow.pairwise (h : Follow first spans last) :
    spans.Pairwise fun s t => s.stop ≤ t.start := by
  induction spans generalizing first with
  | nil => exact .nil
  | cons s rest ih => exact .cons (fun t ht => (h.2.bounds ht).1) (ih h.2)

theorem Follow.hull_within (h : Follow first spans last) (hs : hull spans = some s) :
    first ≤ s.start ∧ s.stop ≤ last := by
  cases spans with
  | nil => cases hs
  | cons t rest =>
    cases hs
    have hbounds := fun {u} => h.bounds (s := u)
    exact (foldl_merge rest t).2.2 ⟨first, last, h.le⟩ (hbounds List.mem_cons_self)
      fun u hu => hbounds (List.mem_cons_of_mem _ hu)

/-- The least span over spans that follow each other is from the first to the last. -/
theorem Follow.hull_eq (h : Follow first spans last) (hhead : spans.head? = some s)
    (hlast : spans.getLast? = some t) : hull spans = some (s.merge t) := by
  cases spans with
  | nil => cases hhead
  | cons u rest =>
    cases hhead
    obtain ⟨hu, hrest, hleast⟩ := foldl_merge rest s
    have hall : ∀ v ∈ s :: rest, v.Within (rest.foldl merge s) := List.forall_mem_cons.mpr ⟨hu, hrest⟩
    have hwithin := hleast (s.merge t) (h.within rfl hlast List.mem_cons_self)
      fun v hv => h.within rfl hlast (List.mem_cons_of_mem _ hv)
    have hwithin' := merge_within hu (hall t (List.mem_of_getLast? hlast))
    have hstart := hwithin.1.antisymm hwithin'.1
    have hstop := hwithin'.2.antisymm hwithin.2
    rw [hull]
    congr 1
    revert hstart hstop
    generalize rest.foldl merge s = x
    generalize s.merge t = y
    cases x
    cases y
    rintro rfl rfl
    rfl

theorem hull_append (hs : hull spans = some s) (spans' : List Span) :
    hull (spans ++ spans') = some (spans'.foldl merge s) := by
  cases spans with
  | nil => cases hs
  | cons t rest =>
    cases hs
    exact congrArg some (List.foldl_append ..)

end Span

namespace Tree

/-- The nodes of some trees that stand for one token each, from left to right. -/
def leafNodes (trees : List Tree) : List Tree := (nodesAll trees).filter (·.form.isLeaf)

/-- The forms of the nodes of some trees, but for tokens, each before those below it. -/
def formsOf (trees : List Tree) : List NodeForm :=
  ((nodesAll trees).map form).filter (·.token?.isNone)

/-- A node stands where a token does, and if it is one, it is that token. -/
structure Stands (L : Tree) (placed : String × Span) : Prop where
  span_eq : L.span = placed.2
  token : ∀ t, L.form = .token t → t.text = placed.1 ∧ t.span = placed.2

/-- A node spans its children, which follow each other. Only nodes that stand for a token have
none. -/
structure Spanning (P : Tree) : Prop where
  leaf_iff : P.form.isLeaf = true ↔ P.children = []
  hull_eq : P.form.isLeaf = false → Span.hull (P.children.map Tree.span) = some P.span
  apart : (P.children.map Tree.span).Pairwise fun s t => s.stop ≤ t.start

theorem exists_stands_of_mem {trees : List Tree} {spots : List (String × Span)} {L : Tree}
    (h : List.Forall₂ Stands trees spots) (hL : L ∈ trees) : ∃ placed ∈ spots, L.Stands placed := by
  induction h with
  | nil => cases hL
  | cons hself _ ih =>
    rcases List.mem_cons.mp hL with rfl | hL
    · exact ⟨_, List.mem_cons_self, hself⟩
    · obtain ⟨placed, hplaced, hstands⟩ := ih hL
      exact ⟨placed, List.mem_cons_of_mem _ hplaced, hstands⟩

/-- What is read at some nodes is what stands there. -/
theorem map_slice?_of_stand {trees : List Tree} {spots : List (String × Span)} {source : String}
    (h : List.Forall₂ Stands trees spots)
    (hread : ∀ placed ∈ spots, placed.2.slice? source = some placed.1) :
    trees.map (·.span.slice? source) = spots.map fun placed => some placed.1 := by
  induction h with
  | nil => rfl
  | cons hself _ ih =>
    obtain ⟨hhead, hrest⟩ := List.forall_mem_cons.mp hread
    rw [List.map_cons, List.map_cons, hself.span_eq, hhead, ih hrest]

variable {T : Tree} {trees trees' : List Tree} {twigs twigs' : List Twig}
  {source : String} {texts texts' : List String} {form : NodeForm} {forms forms' : List NodeForm}

theorem leafNodes_append : leafNodes (trees ++ trees') = leafNodes trees ++ leafNodes trees' := by
  rw [leafNodes, nodesAll_append, List.filter_append, leafNodes, leafNodes]

theorem nodesAll_singleton (T : Tree) : nodesAll [T] = T :: nodesAll T.children := by
  rw [nodesAll_cons, nodesAll, List.append_nil]

theorem leafNodes_singleton (T : Tree) : leafNodes [T] =
    if T.form.isLeaf then T :: leafNodes T.children else leafNodes T.children := by
  rw [leafNodes, nodesAll_singleton, List.filter_cons, leafNodes]

theorem formsOf_append : formsOf (trees ++ trees') = formsOf trees ++ formsOf trees' := by
  rw [formsOf, nodesAll_append, List.map_append, List.filter_append, formsOf, formsOf]

theorem formsOf_singleton (hform : T.form.token? = none) :
    formsOf [T] = T.form :: formsOf T.children := by
  rw [formsOf, nodesAll_singleton, List.map_cons, List.filter_cons_of_pos (by simp [hform]), formsOf]

theorem leaves_append (twigs twigs' : List Twig) (size : Nat) :
    (leaves (twigs ++ twigs') size).1 =
      (leaves twigs size).1 ++ (leaves twigs' (leaves twigs size).2).1 := by
  induction twigs generalizing size with
  | nil => rfl
  | cons twig twigs ih =>
    cases twig with
    | tree T => exact congrArg (T :: ·) (ih size)
    | token t => exact congrArg (_ :: ·) (ih (size + 1))

/-- Children in the making are worded like some texts that are written after a source, and are of
some forms. -/
structure Twig.Worded (source : String) (texts : List String) (forms : List NodeForm)
    (twigs : List Twig) : Prop where
  forms_eq : ∀ size, formsOf (leaves twigs size).1 = forms
  stand : ∀ size, List.Forall₂ Stands (leafNodes (leaves twigs size).1) (whereabouts source texts)
  spanning : ∀ size, ∀ P ∈ nodesAll (leaves twigs size).1, P.Spanning
  follow : Span.Follow source.utf8ByteSize (twigs.map Twig.span) (written source texts).utf8ByteSize

theorem Twig.Worded.nil (source : String) : Worded source [] [] [] :=
  ⟨fun _ => rfl, fun _ => .nil, fun _ _ hP => (nomatch hP), Nat.le_refl source.utf8ByteSize⟩

theorem Twig.Worded.append (h : Worded source texts forms twigs)
    (h' : Worded (written source texts) texts' forms' twigs') :
    Worded source (texts ++ texts') (forms ++ forms') (twigs ++ twigs') where
  forms_eq size := by
    rw [leaves_append, formsOf_append, h.forms_eq, h'.forms_eq]
  stand size := by
    rw [leaves_append, leafNodes_append, Draft.whereabouts_append]
    exact List.rel_append (h.stand size) (h'.stand _)
  spanning size P hP := by
    rw [leaves_append, nodesAll_append] at hP
    exact (List.mem_append.mp hP).elim (h.spanning size P) (h'.spanning _ P)
  follow := by
    rw [List.map_append, Draft.written_append]
    exact h.follow.append h'.follow

theorem follow_place (source text : String) :
    Span.Follow source.utf8ByteSize [Draft.place source text] (written source [text]).utf8ByteSize := by
  refine ⟨Draft.utf8ByteSize_lead_le source, ?_⟩
  simp only [Span.Follow, written, Draft.place, String.utf8ByteSize_append, Nat.le_refl]

/-- A token that is written. -/
theorem Twig.worded_token (kind : TokenKind) (source text : String) :
    Worded source [text] [] [.token ⟨kind, text, Draft.place source text⟩] where
  forms_eq _ := rfl
  stand size := by
    refine .cons ⟨rfl, ?_⟩ .nil
    rintro _ ⟨⟩
    exact ⟨rfl, rfl⟩
  spanning size P hP := by
    cases List.mem_singleton.mp hP
    exact ⟨⟨fun _ => rfl, fun _ => rfl⟩, nofun, .nil⟩
  follow := follow_place source text

/-- A leaf that stands for a token. -/
theorem Twig.worded_leaf (hleaf : form.isLeaf = true) (hform : form.token? = none)
    (source text : String) (size : Nat) :
    Worded source [text] [form] [.tree (leaf form (Draft.place source text) size).1] where
  forms_eq _ := formsOf_singleton hform
  stand _ := by
    change List.Forall₂ _ (leafNodes [_]) _
    rw [leafNodes_singleton, if_pos (by exact hleaf)]
    refine .cons ⟨rfl, fun t ht => ?_⟩ .nil
    rw [show form = .token t from ht] at hform
    cases hform
  spanning _ P hP := by
    cases List.mem_singleton.mp hP
    exact ⟨by simpa using ⟨fun _ => rfl, fun _ => hleaf⟩, fun hnot => by simp_all [leaf, Tree.form], .nil⟩
  follow := follow_place source text

/-- A node that is made over some children, and then given some more. -/
theorem Twig.Worded.node (h : Worded source texts forms twigs)
    (h' : Worded (written source texts) texts' forms' twigs') (hne : twigs ≠ [])
    (hform : form.isLeaf = false) (size size' : Nat) :
    Worded source (texts ++ texts') (form :: (forms ++ forms'))
      [.tree ((Tree.alloc form twigs size).1.append twigs' size').1] := by
  have hfollow : Span.Follow source.utf8ByteSize
      (((leaves twigs size).1 ++ (leaves twigs' size').1).map Tree.span)
      (written source (texts ++ texts')).utf8ByteSize := by
    rw [List.map_append, map_span_leaves, map_span_leaves, ← List.map_append]
    exact (h.append h').follow
  have hnotnil : (leaves twigs size).1 ≠ [] := by
    rw [← List.length_pos_iff, length_leaves]
    exact List.length_pos_iff.mpr hne
  have hcover : Span.hull ((leaves twigs size).1.map Tree.span) = some (cover (leaves twigs size).1) := by
    have hfirst := h.follow
    rw [← map_span_leaves twigs size] at hfirst
    rw [cover, List.head?_eq_some_head hnotnil, List.getLast?_eq_some_getLast hnotnil]
    refine hfirst.hull_eq ?_ ?_
    · rw [List.head?_map, List.head?_eq_some_head hnotnil]
      rfl
    · rw [List.getLast?_map, List.getLast?_eq_some_getLast hnotnil]
      rfl
  have hhull := Span.hull_append hcover ((leaves twigs' size').1.map Tree.span)
  rw [← List.map_append, List.foldl_map] at hhull
  have hnodes : nodesAll [((Tree.alloc form twigs size).1.append twigs' size').1] =
      ((Tree.alloc form twigs size).1.append twigs' size').1 ::
        nodesAll ((leaves twigs size).1 ++ (leaves twigs' size').1) := nodesAll_singleton _
  have htoken : form.token? = none := by
    cases form with
    | token _ => cases hform
    | _ => rfl
  refine ⟨fun _ => ?_, fun _ => ?_, fun _ P hP => ?_, ?_⟩
  · have hbelow : formsOf ((leaves twigs size).1 ++ (leaves twigs' size').1) = forms ++ forms' := by
      rw [formsOf_append, h.forms_eq, h'.forms_eq]
    refine Eq.trans ?_ (congrArg (form :: ·) hbelow)
    exact formsOf_singleton (T := ((Tree.alloc form twigs size).1.append twigs' size').1) htoken
  · change List.Forall₂ _ (leafNodes [_]) _
    rw [leafNodes_singleton, if_neg (by exact ne_true_of_eq_false hform)]
    change List.Forall₂ _ (leafNodes ((leaves twigs size).1 ++ (leaves twigs' size').1)) _
    rw [leafNodes_append, Draft.whereabouts_append]
    exact List.rel_append (h.stand size) (h'.stand size')
  · change P ∈ nodesAll [_] at hP
    rw [hnodes, nodesAll_append] at hP
    rcases List.mem_cons.mp hP with rfl | hP
    · refine ⟨?_, fun _ => hhull, hfollow.pairwise⟩
      change form.isLeaf = true ↔ (leaves twigs size).1 ++ (leaves twigs' size').1 = []
      simp [hform, hnotnil]
    · exact (List.mem_append.mp hP).elim (h.spanning size P) (h'.spanning size' P)
  · exact hfollow.hull_within hhull

theorem Twig.Worded.grouped (h : Worded source texts forms [.tree T]) :
    Worded source texts forms [.tree (T.setGrouped true)] where
  forms_eq size := by
    refine Eq.trans ?_ (h.forms_eq size)
    change formsOf [T.setGrouped true] = formsOf [T]
    rw [formsOf, nodesAll_singleton, formsOf, nodesAll_singleton]
    rfl
  stand size := by
    have hstand : List.Forall₂ Stands (leafNodes [T]) (whereabouts source texts) := h.stand size
    change List.Forall₂ _ (leafNodes [_]) _
    rw [leafNodes_singleton] at hstand ⊢
    change List.Forall₂ _ (if T.form.isLeaf then T.setGrouped true :: leafNodes T.children
      else leafNodes T.children) _
    generalize whereabouts source texts = placed at hstand ⊢
    split
    · next hleaf =>
      rw [if_pos hleaf] at hstand
      cases hstand with
      | cons hself hrest => exact .cons ⟨hself.span_eq, hself.token⟩ hrest
    · next hleaf => rwa [if_neg hleaf] at hstand
  spanning size P hP := by
    change P ∈ nodesAll [_] at hP
    have hspanning : ∀ P ∈ nodesAll [T], P.Spanning := h.spanning size
    rw [nodesAll_singleton] at hP hspanning
    rcases List.mem_cons.mp hP with rfl | hP
    · obtain ⟨hleaf, hhull, hapart⟩ := hspanning T List.mem_cons_self
      exact ⟨hleaf, hhull, hapart⟩
    · exact hspanning P (List.mem_cons_of_mem _ hP)
  follow := h.follow

end Tree

namespace Drafting

theorem ends_edit_iff {α : Type} {change : Edit α} {d : Draft} {post : α → Draft → Prop} :
    Ends (edit change) d post ↔ Ends change d.arena fun r a => post r { d with arena := a } := by
  simp only [Ends, edit, bind, Except.bind]
  cases change d.arena <;> rfl

theorem ends_write (kind : TokenKind) (text : String) (d : Draft) :
    Ends (write kind text) d fun t d' => t = ⟨kind, text, Draft.place d.source text⟩ ∧
      d' = { d with source := written d.source [text] } :=
  ends_modifyGet_iff.mpr ⟨rfl, rfl⟩

end Drafting

section

variable {start : Arena} {owned : List NodeId}

/-- The pieces that are there after some parts have been written: tokens and roots of trees, worded
like the texts of the parts. -/
def Draft.Worded (start : Arena) (owned : List NodeId) (rest : Multiset Part) (source : String)
    (texts : List String) (forms : List NodeForm) (pieces : List Piece) (d : Draft) : Prop :=
  ∃ twigs size, pieces = twigs.map Twig.piece ∧
    start.Apart owned (Twig.used twigs + rest) size d.arena ∧ d.source = written source texts ∧
      Twig.Worded source texts forms twigs

mutual

/-- A sketch that is spelt out can be built, and comes to a tree that is worded like its texts. -/
theorem Sketch.build_worded {rest : Multiset Part} {size : Nat} {d : Draft} (s : Sketch)
    (hs : s.isSpelt) (h : start.Apart owned rest size d.arena) :
    Ends s.build d fun id d' => ∃ T size', id = T.id ∧
      start.Apart owned ({.tree none T} + rest) size' d'.arena ∧
        d'.source = written d.source s.texts ∧ Twig.Worded d.source s.texts s.forms [.tree T] := by
  match s with
  | .word form kind text =>
    simp only [Sketch.isSpelt, Bool.and_eq_true] at hs
    rw [Sketch.build, ends_bind_iff]
    refine (Drafting.ends_write kind text d).mono ?_
    rintro _ _ ⟨rfl, rfl⟩
    rw [Drafting.ends_edit_iff]
    refine (h.leaf (.expr form) _).mono fun id a ⟨hid, hmade⟩ => ?_
    exact ⟨_, _, hid, hmade, rfl, Twig.worded_leaf hs.1 rfl d.source text size⟩
  | .node form parts more span =>
    simp only [Sketch.isSpelt, Bool.and_eq_true, Bool.not_eq_true', Option.isNone_iff_eq_none] at hs
    obtain ⟨⟨⟨⟨hform, rfl⟩, hpresent⟩, hparts⟩, hmore⟩ := hs
    rw [Sketch.build, ends_bind_iff]
    refine (SketchPart.buildAll_worded parts hparts h).mono ?_
    rintro _ d₁ ⟨⟨twigs, size₁, rfl, h₁, hsource₁, hworded⟩, hnotnil⟩
    have hne : twigs ≠ [] := fun hnil => hnotnil hpresent (by rw [hnil]; rfl)
    rw [ends_bind_iff, Drafting.ends_edit_iff]
    refine (h₁.alloc twigs hne form).mono ?_
    rintro _ a₂ ⟨rfl, h₂⟩
    rw [ends_bind_iff]
    refine (SketchPart.buildAll_worded more hmore h₂).mono ?_
    rintro _ d₃ ⟨⟨twigs', size₃, rfl, h₃, hsource₃, hworded'⟩, -⟩
    rw [ends_bind_iff, Drafting.ends_edit_iff]
    refine (h₃.append twigs').mono fun _ a₄ h₄ => ends_pure_iff.mpr ?_
    simp only at hsource₃ hworded'
    rw [hsource₁] at hsource₃ hworded'
    exact ⟨((Tree.alloc form twigs size₁).1.append twigs' size₃).1, _, rfl, h₄,
      hsource₃.trans Draft.written_append.symm, hworded.node hworded' hne hform size₁ size₃⟩
  | .grouped inner =>
    rw [Sketch.build, ends_bind_iff]
    refine (inner.build_worded hs h).mono ?_
    rintro _ d₁ ⟨T, size₁, rfl, h₁, hsource, hworded⟩
    rw [ends_bind_iff, Drafting.ends_edit_iff]
    refine (h₁.setGrouped true).mono fun _ a h₂ => ends_pure_iff.mpr ?_
    exact ⟨T.setGrouped true, size₁, rfl, h₂, hsource, hworded.grouped⟩

theorem SketchPart.build_worded {rest : Multiset Part} {size : Nat} {d : Draft} (part : SketchPart)
    (hpart : part.isSpelt) (h : start.Apart owned rest size d.arena) :
    Ends part.build d fun pieces d' =>
      Draft.Worded start owned rest d.source part.texts part.forms pieces d' ∧
        (part.isPresent → pieces ≠ []) := by
  match part with
  | .absent =>
    rw [SketchPart.build, ends_pure_iff]
    exact ⟨⟨[], size, rfl, by rwa [Twig.used, zero_add], rfl, .nil d.source⟩, nofun⟩
  | .many parts =>
    rw [SketchPart.build]
    exact SketchPart.buildAll_worded parts hpart h
  | .lexeme kind text =>
    rw [SketchPart.build, ends_bind_iff]
    refine (Drafting.ends_write kind text d).mono ?_
    rintro _ _ ⟨rfl, rfl⟩
    rw [ends_pure_iff]
    refine ⟨⟨[.token _], size, rfl, ?_, rfl, Twig.worded_token kind d.source text⟩, fun _ => nofun⟩
    rwa [Twig.used, Twig.used, zero_add]
  | .sketch inner =>
    rw [SketchPart.build, ends_bind_iff]
    refine (inner.build_worded hpart h).mono ?_
    rintro _ d₁ ⟨T, size₁, rfl, h₁, hsource, hworded⟩
    rw [ends_pure_iff]
    refine ⟨⟨[.tree T], size₁, rfl, ?_, hsource, hworded⟩, fun _ => nofun⟩
    rwa [Twig.used, Twig.used, add_zero]

theorem SketchPart.buildAll_worded {rest : Multiset Part} {size : Nat} {d : Draft}
    (parts : List SketchPart) (hparts : SketchPart.allSpelt parts)
    (h : start.Apart owned rest size d.arena) :
    Ends (SketchPart.buildAll parts) d fun pieces d' =>
      Draft.Worded start owned rest d.source (SketchPart.allTexts parts) (SketchPart.allForms parts)
          pieces d' ∧
        (SketchPart.anyPresent parts → pieces ≠ []) := by
  match parts with
  | [] =>
    rw [SketchPart.buildAll, ends_pure_iff]
    exact ⟨⟨[], size, rfl, by rwa [Twig.used, zero_add], rfl, .nil d.source⟩, nofun⟩
  | part :: more =>
    obtain ⟨hpart, hmore⟩ := Bool.and_eq_true_iff.mp hparts
    rw [SketchPart.buildAll, ends_bind_iff]
    refine (part.build_worded hpart h).mono ?_
    rintro _ d₁ ⟨⟨twigs, size₁, rfl, h₁, hsource₁, hworded⟩, hpresent⟩
    rw [ends_bind_iff]
    refine (SketchPart.buildAll_worded more hmore h₁).mono ?_
    rintro _ d₂ ⟨⟨twigs', size₂, rfl, h₂, hsource₂, hworded'⟩, hpresent'⟩
    rw [ends_pure_iff]
    rw [hsource₁] at hsource₂ hworded'
    refine ⟨⟨twigs ++ twigs', size₂, (List.map_append ..).symm, ?_,
      hsource₂.trans Draft.written_append.symm, hworded.append hworded'⟩, fun hany => ?_⟩
    · rwa [Twig.used_append, add_assoc, add_left_comm]
    · rcases Bool.or_eq_true_iff.mp hany with hany | hany
      · exact List.append_ne_nil_of_left_ne_nil (hpresent hany) _
      · exact List.append_ne_nil_of_right_ne_nil _ (hpresent' hany)

end

end

end MessageLang
