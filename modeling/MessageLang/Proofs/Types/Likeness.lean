import MessageLang.Proofs.Types.Images
import Mathlib.Data.List.Forall2

namespace MessageLang

/-- Shapes that are the same but for the types of fields, which are related place by place. -/
inductive Shape.Matches (R : TypeId → TypeId → Prop) : Shape → Shape → Prop
  | compound {fields fields' : List Field}
      (fields_match : List.Forall₂ (fun f f' => f.name = f'.name ∧ f.hasDefault = f'.hasDefault ∧
        R f.type f'.type) fields fields') : Matches R (.compound fields) (.compound fields')
  | plain {shape : Shape} (no_fields : ∀ fields, shape ≠ .compound fields) : Matches R shape shape

/-- Types that are the same but for their names and parts. The parts are related place by place. -/
structure Descriptor.Matches (R : TypeId → TypeId → Prop) (d d' : Descriptor) : Prop where
  shape : d.shape.Matches R d'.shape
  symbols : List.Forall₂ (fun entry entry' => entry.1 = entry'.1 ∧ R entry.2 entry'.2)
    d.symbols d'.symbols
  handlers : List.Forall₂ (fun handler handler' => R handler.1 handler'.1 ∧ R handler.2 handler'.2)
    d.handlers d'.handlers
  params_eq : d.params = d'.params
  variants : List.Forall₂ R d.variants d'.variants

namespace Descriptor

/-- How what a type answers is written, with texts for its parts. -/
def answersText (d : Descriptor) (text : TypeId → String) : String :=
  match d.symbols, d.handlers with
  | [], [(guard, answer)] => text guard ++ " -> " ++ text answer
  | symbols, handlers =>
    let answers := symbols.map fun entry => " ." ++ entry.1 ++ " -> " ++ text entry.2
    let calls := handlers.map fun handler => " " ++ text handler.1 ++ " -> " ++ text handler.2
    "\x7b" ++ ";".intercalate (answers ++ calls) ++ " \x7d"

/-- How a type without a name is written, with texts for its parts. -/
def text (d : Descriptor) (text : TypeId → String) : String :=
  if !d.variants.isEmpty then " | ".intercalate (d.variants.map text)
  else
    match d.shape with
    | .compound fields =>
      let item (f : Field) := (if f.isPositional then "" else f.name ++ ": ") ++ text f.type
      "(" ++ ", ".intercalate (fields.map item) ++ ")"
    | _ => d.answersText text

end Descriptor

/-- A way to pair the types of two tables that both go on from a third one. Paired types match, with
paired parts, and a type that was there before is paired with itself alone. Paired types have the same
name as well, if names count. -/
def TypeTable.Pairs (t t₁ t₂ : TypeTable) (named : Prop) (R : TypeId → TypeId → Prop) : Prop :=
  ∀ x y, R x y → (t₁.get x).Matches R (t₂.get y) ∧
    (named → (t₁.get x).name = (t₂.get y).name) ∧ (x.index < t.size ∨ y.index < t.size → x = y)

/-- Two types, each in its own table, match however far one goes into them. -/
def TypeTable.Alike (t t₁ t₂ : TypeTable) (named : Prop) (x y : TypeId) : Prop :=
  ∃ R, t.Pairs t₁ t₂ named R ∧ R x y

/-- Two types, each in its own table, have the same structure, whatever they and their parts are
called. Both tables go on from a third one, and what was there before is like itself alone. -/
def TypeTable.SameStructure (t t₁ t₂ : TypeTable) (x y : TypeId) : Prop := t.Alike t₁ t₂ False x y

section

variable {α β γ : Type} {R S : TypeId → TypeId → Prop} {f g : TypeId → TypeId} {d d' : Descriptor}

private theorem map_eq_of_forall₂ {P : α → β → Prop} {xs : List α} {ys : List β} {f : α → γ}
    {g : β → γ} (h : List.Forall₂ P xs ys) (hsame : ∀ x y, P x y → f x = g y) :
    xs.map f = ys.map g := by
  induction h with
  | nil => rfl
  | cons head _ ih => rw [List.map_cons, List.map_cons, hsame _ _ head, ih]

/-- What is the same for all members of a list may be said of two lists made of it. -/
private theorem forall₂_map_of_forall {P : β → γ → Prop} {xs : List α} {f : α → β} {g : α → γ}
    (h : ∀ x ∈ xs, P (f x) (g x)) : List.Forall₂ P (xs.map f) (xs.map g) := by
  rw [List.forall₂_map_left_iff, List.forall₂_map_right_iff, List.forall₂_same]
  exact h

theorem Shape.Matches.mono {shape shape' : Shape} (h : shape.Matches R shape')
    (hsub : ∀ x y, R x y → S x y) : shape.Matches S shape' := by
  cases h with
  | compound hfields =>
    exact .compound (hfields.imp fun _ _ ⟨hname, hdefault, htype⟩ =>
      ⟨hname, hdefault, hsub _ _ htype⟩)
  | plain hplain => exact .plain hplain

/-- Images of one type match where those of its parts are related. -/
theorem Descriptor.matches_mapParts (h : ∀ part ∈ d.parts, R (f part) (g part)) :
    (d.mapParts f).Matches R (d.mapParts g) where
  shape := by
    rw [mapParts, mapParts]
    cases hshape : d.shape with
    | compound fields =>
      refine .compound (forall₂_map_of_forall fun x hx => ⟨rfl, rfl, ?_⟩)
      exact h x.type (mem_parts_iff.mpr (.inl ⟨fields, hshape, x, hx, rfl⟩))
    | _ => exact .plain fun fields => Shape.noConfusion
  symbols := forall₂_map_of_forall fun entry hentry =>
    ⟨rfl, h _ (mem_parts_iff.mpr (.inr (.inl ⟨entry, hentry, rfl⟩)))⟩
  handlers := forall₂_map_of_forall fun handler hhandler =>
    ⟨h _ (mem_parts_iff.mpr (.inr (.inr (.inl ⟨handler, hhandler, .inl rfl⟩)))),
      h _ (mem_parts_iff.mpr (.inr (.inr (.inl ⟨handler, hhandler, .inr rfl⟩))))⟩
  params_eq := rfl
  variants := forall₂_map_of_forall fun part hpart =>
    h part (mem_parts_iff.mpr (.inr (.inr (.inr hpart))))

/-- A type without what it leaves open is its own image where all parts are their own. -/
theorem Descriptor.mapParts_self (d : Descriptor) :
    d.mapParts (fun part => part) = { d with params := [] } := by
  have hshape : d.shape.mapTypes (fun part => part) = d.shape := by
    cases d.shape <;> simp [Shape.mapTypes]
  simp [mapParts, hshape]

theorem Descriptor.mapParts_mapParts (f g : TypeId → TypeId) (d : Descriptor) :
    (d.mapParts f).mapParts g = d.mapParts (g ∘ f) := by
  have hshape : (d.shape.mapTypes f).mapTypes g = d.shape.mapTypes (g ∘ f) := by
    cases d.shape <;> simp [Shape.mapTypes]
  simp [mapParts, hshape]

namespace Descriptor.Matches

theorem rename (h : d.Matches R d') (name name' : Option String) :
    ({ d with name } : Descriptor).Matches R { d' with name := name' } :=
  ⟨h.shape, h.symbols, h.handlers, h.params_eq, h.variants⟩

theorem mono (h : d.Matches R d') (hsub : ∀ x y, R x y → S x y) : d.Matches S d' where
  shape := h.shape.mono hsub
  symbols := h.symbols.imp fun _ _ ⟨hsymbol, hanswer⟩ => ⟨hsymbol, hsub _ _ hanswer⟩
  handlers := h.handlers.imp fun _ _ ⟨hguard, hanswer⟩ => ⟨hsub _ _ hguard, hsub _ _ hanswer⟩
  params_eq := h.params_eq
  variants := h.variants.imp hsub

theorem refl (h : ∀ part ∈ d.parts, R part part) : d.Matches R d := by
  have hparts : (d.mapParts fun part => part).Matches R (d.mapParts fun part => part) :=
    matches_mapParts h
  rw [mapParts_self] at hparts
  exact ⟨hparts.shape, hparts.symbols, hparts.handlers, rfl, hparts.variants⟩

section

variable {text text' : TypeId → String}

/-- What types that match answer is written alike where their parts are. -/
theorem answersText_eq (h : d.Matches R d') (hparts : ∀ x y, R x y → text x = text' y) :
    d.answersText text = d'.answersText text' := by
  have hanswers : d.symbols.map (fun entry => " ." ++ entry.1 ++ " -> " ++ text entry.2) =
      d'.symbols.map fun entry => " ." ++ entry.1 ++ " -> " ++ text' entry.2 :=
    map_eq_of_forall₂ h.symbols fun _ _ hentry => by rw [hentry.1, hparts _ _ hentry.2]
  have hcalls : d.handlers.map (fun handler => " " ++ text handler.1 ++ " -> " ++ text handler.2) =
      d'.handlers.map fun handler => " " ++ text' handler.1 ++ " -> " ++ text' handler.2 :=
    map_eq_of_forall₂ h.handlers fun _ _ hhandler => by
      rw [hparts _ _ hhandler.1, hparts _ _ hhandler.2]
  have hsymbols := h.symbols
  have hhandlers := h.handlers
  unfold Descriptor.answersText
  generalize d.symbols = symbols at *
  generalize d'.symbols = symbols' at *
  generalize d.handlers = handlers at *
  generalize d'.handlers = handlers' at *
  -- both are written as a function, or both as all that they answer
  cases hsymbols with
  | cons => simp only [hanswers, hcalls]
  | nil =>
    cases hhandlers with
    | nil => rfl
    | cons hhead htail =>
      cases htail with
      | nil => simp only [hparts _ _ hhead.1, hparts _ _ hhead.2]
      | cons => simp only [hcalls, List.map_nil]

/-- Types without names that match are written alike where their parts are. -/
theorem text_eq (h : d.Matches R d') (hparts : ∀ x y, R x y → text x = text' y) :
    d.text text = d'.text text' := by
  have hvariants : d.variants.map text = d'.variants.map text' :=
    map_eq_of_forall₂ h.variants hparts
  have hnone : d.variants.isEmpty = d'.variants.isEmpty := by
    rw [Bool.eq_iff_iff, List.isEmpty_iff_length_eq_zero, List.isEmpty_iff_length_eq_zero,
      h.variants.length_eq]
  have hanswers := h.answersText_eq hparts
  have hshape := h.shape
  rw [Descriptor.text, Descriptor.text, hvariants, hnone]
  split
  · rfl
  generalize d.shape = shape at *
  generalize d'.shape = shape' at *
  cases hshape with
  | plain hplain =>
    cases shape with
    | compound fields => exact absurd rfl (hplain fields)
    | _ => exact hanswers
  | compound hfields =>
    have hitems : ∀ f f' : Field, f.name = f'.name ∧ f.hasDefault = f'.hasDefault ∧ R f.type f'.type →
        (if f.isPositional then "" else f.name ++ ": ") ++ text f.type =
          (if f'.isPositional then "" else f'.name ++ ": ") ++ text' f'.type := by
      rintro f f' ⟨hname, -, htype⟩
      rw [Field.isPositional, Field.isPositional, hname, hparts _ _ htype]
    dsimp only
    rw [map_eq_of_forall₂ hfields hitems]

end

end Descriptor.Matches

namespace TypeTable

variable {t t₁ t₂ t' : TypeTable} {id x y : TypeId} {named : Prop}

theorem displayWithin_of_name_eq_some {name : String} (h : (t.get id).name = some name)
    (levels : Nat) : t.displayWithin levels id = name := by
  cases levels <;> simp [displayWithin, h]

theorem displayWithin_succ_of_name_eq_none (h : (t.get id).name = none) (levels : Nat) :
    t.displayWithin (levels + 1) id = (t.get id).text (t.displayWithin levels) := by
  rw [displayWithin.eq_def]
  simp only [h]
  generalize t.displayWithin levels = text
  generalize t.get id = d
  obtain ⟨name, shape, symbols, handlers, params, variants⟩ := d
  cases shape <;> rcases symbols with _ | ⟨_, _⟩ <;> rcases handlers with _ | ⟨_, _ | ⟨_, _⟩⟩ <;> rfl

/-- Types that match and have the same names, however far one goes into them, are written alike. The
induction is on the levels that are shown. -/
theorem displayWithin_eq_of_matches
    (h : ∀ x y, R x y → (t₁.get x).Matches R (t₂.get y) ∧ (t₁.get x).name = (t₂.get y).name)
    (levels : Nat) (hxy : R x y) : t₁.displayWithin levels x = t₂.displayWithin levels y := by
  induction levels generalizing x y with
  | zero =>
    have hname := (h x y hxy).2
    cases hnone : (t₁.get x).name with
    | some name =>
      rw [displayWithin_of_name_eq_some hnone, displayWithin_of_name_eq_some (hname.symm.trans hnone)]
    | none => simp [displayWithin, hnone, hname.symm.trans hnone]
  | succ levels ih =>
    obtain ⟨hmatches, hname⟩ := h x y hxy
    cases hnone : (t₁.get x).name with
    | some name =>
      rw [displayWithin_of_name_eq_some hnone, displayWithin_of_name_eq_some (hname.symm.trans hnone)]
    | none =>
      rw [displayWithin_succ_of_name_eq_none hnone,
        displayWithin_succ_of_name_eq_none (hname.symm.trans hnone)]
      exact hmatches.text_eq fun _ _ hpart => ih hpart

/-- Types that are alike, names and all, are written alike. -/
theorem Alike.display_eq (h : t.Alike t₁ t₂ named x y) (hnamed : named) :
    t₁.display x = t₂.display y := by
  obtain ⟨R, hR, hxy⟩ := h
  exact displayWithin_eq_of_matches (fun x y hxy => ⟨(hR x y hxy).1, (hR x y hxy).2.1 hnamed⟩) 6 hxy

/-- What is alike in one way or another is paired. -/
theorem pairs_alike (t t₁ t₂ : TypeTable) (named : Prop) :
    t.Pairs t₁ t₂ named (t.Alike t₁ t₂ named) := by
  rintro x y ⟨R, hR, hxy⟩
  exact ⟨(hR x y hxy).1.mono fun x y hxy => ⟨R, hR, hxy⟩, (hR x y hxy).2⟩

theorem Alike.sameStructure (h : t.Alike t₁ t₂ named x y) : t.SameStructure t₁ t₂ x y := by
  obtain ⟨R, hR, hxy⟩ := h
  exact ⟨R, fun x y hxy => ⟨(hR x y hxy).1, False.elim, (hR x y hxy).2.2⟩, hxy⟩

/-- A type is written as before when there are more types. -/
theorem Extends.display_eq (h : t.Extends t') (hclosed : t.Closed) (hid : id.index < t.size) :
    t'.display id = t.display id := by
  refine displayWithin_eq_of_matches (R := fun x y => x = y ∧ x.index < t.size) ?_ 6 ⟨rfl, hid⟩
  rintro x _ ⟨rfl, hx⟩
  rw [h.get_eq x hx]
  exact ⟨.refl fun part hpart => ⟨rfl, hclosed x part hpart⟩, rfl⟩

end TypeTable

end

end MessageLang
