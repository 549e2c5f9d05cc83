import MessageLang.Proofs.Types.Leading
import MessageLang.Proofs.Types.Substitution

namespace MessageLang

/-- The same shape with other types for the fields. -/
def Shape.mapTypes (f : TypeId → TypeId) : Shape → Shape
  | .compound fields => .compound (fields.map fun x => { x with type := f x.type })
  | shape => shape

namespace Descriptor

/-- The same kind of type with other parts. It leaves nothing open. -/
def mapParts (f : TypeId → TypeId) (d : Descriptor) : Descriptor where
  name := d.name
  shape := d.shape.mapTypes f
  symbols := d.symbols.map fun entry => (entry.1, f entry.2)
  handlers := d.handlers.map fun handler => (f handler.1, f handler.2)
  variants := d.variants.map f

variable {f g : TypeId → TypeId} {d : Descriptor}

theorem fieldTypes_mapParts (f : TypeId → TypeId) (d : Descriptor) :
    (d.mapParts f).fieldTypes = d.fieldTypes.map f := by
  cases hshape : d.shape <;> simp [fieldTypes, fields?, mapParts, Shape.mapTypes, hshape]

theorem parts_mapParts (f : TypeId → TypeId) (d : Descriptor) :
    (d.mapParts f).parts = d.parts.map f := by
  rw [parts, fieldTypes_mapParts]
  simp [parts, mapParts, List.map_flatMap, List.flatMap_map]

theorem mapParts_congr (h : ∀ part ∈ d.parts, f part = g part) : d.mapParts f = d.mapParts g := by
  have hpart : ∀ part, _ → f part = g part := fun part hpart => h part (mem_parts_iff.mpr hpart)
  have hsymbols : ∀ entry ∈ d.symbols, f entry.2 = g entry.2 := fun entry hentry =>
    hpart _ (.inr (.inl ⟨entry, hentry, rfl⟩))
  have hhandlers : ∀ handler ∈ d.handlers, f handler.1 = g handler.1 ∧ f handler.2 = g handler.2 :=
    fun handler hhandler => ⟨hpart _ (.inr (.inr (.inl ⟨handler, hhandler, .inl rfl⟩))),
      hpart _ (.inr (.inr (.inl ⟨handler, hhandler, .inr rfl⟩)))⟩
  have hvariants : ∀ part ∈ d.variants, f part = g part := fun part hmem =>
    hpart _ (.inr (.inr (.inr hmem)))
  have hshape : d.shape.mapTypes f = d.shape.mapTypes g := by
    cases hshape : d.shape with
    | compound fields =>
      rw [Shape.mapTypes, Shape.mapTypes, Shape.compound.injEq]
      exact List.map_congr_left fun x hx => by
        rw [hpart x.type (.inl ⟨fields, hshape, x, hx, rfl⟩)]
    | _ => rfl
  rw [mapParts, mapParts, mk.injEq]
  refine ⟨rfl, hshape, ?_, ?_, rfl, ?_⟩
  · exact List.map_congr_left fun entry hentry => by rw [hsymbols entry hentry]
  · exact List.map_congr_left fun handler hhandler => by
      rw [(hhandlers handler hhandler).1, (hhandlers handler hhandler).2]
  · exact List.map_congr_left hvariants

end Descriptor

namespace TypeTable

/-- A type leads to another one, and the way does not go on from what a substitution replaces. -/
def Meets (t : TypeTable) (map : Substitution) : TypeId → TypeId → Prop :=
  t.LeadsOver (map.lookup · = none)

/-- A type that is met on the way from another one, mentions what is replaced and is not replaced
itself. It needs a copy. -/
structure Renews (t : TypeTable) (map : Substitution) (root id : TypeId) : Prop where
  meets : t.Meets map root id
  stays : map.lookup id = none
  mentions : t.Mentions map id

/-- How a table comes to hold a type under a substitution. Every type has an image: what it is
replaced with, itself if it mentions nothing that is replaced, or else a copy of it, of which there
is one, with the images of its parts for parts. -/
structure Substituted (t : TypeTable) (map : Substitution) (root : TypeId)
    (image : TypeId → TypeId) (t' : TypeTable) : Prop where
  grows : t.Extends t'
  unions_eq : t'.unions = t.unions
  image_replaced : ∀ id replacement, map.lookup id = some replacement → image id = replacement
  image_shared : ∀ id, ¬ t.Mentions map id → image id = id
  image_new : ∀ id, t.Renews map root id →
    t.size ≤ (image id).index ∧ (image id).index < t'.size
  get_image : ∀ id, t.Renews map root id → t'.get (image id) = (t.get id).mapParts image
  image_injective : ∀ id other, t.Renews map root id → t.Renews map root other →
    image id = image other → id = other
  exists_image_eq : ∀ copy : TypeId, t.size ≤ copy.index → copy.index < t'.size →
    ∃ id, t.Renews map root id ∧ image id = copy

variable {t : TypeTable} {map : Substitution} {root id part : TypeId}

theorem mentions_of_lookup_eq_some {image : TypeId} (h : map.lookup id = some image) :
    t.Mentions map id := ⟨id, image, .refl, h⟩

end TypeTable

namespace Tabling

/-- What stands in place of a type, by what is replaced and by the copies that were made. -/
def imageAmong (map : Substitution) (made : List (TypeId × TypeId)) (id : TypeId) : TypeId :=
  (map.lookup id).getD ((made.lookup id).getD id)

/-- It is known what stands in place of a type: it is replaced, or there is a copy of it, or it needs
none. -/
def Known (start : TypeTable) (map : Substitution) (made : List (TypeId × TypeId)) (id : TypeId) :
    Prop :=
  map.lookup id = none → made.lookup id = none → ¬ start.Mentions map id

/-- How far copying has come. All copies are of types that need one, and all but those of some types
whose parts are still being copied are finished. -/
structure Underway (start : TypeTable) (map : Substitution) (root : TypeId)
    (unfinished : List TypeId) (made : List (TypeId × TypeId)) (t : TypeTable) : Prop where
  grows : start.Extends t
  unions_eq : t.unions = start.unions
  renews : ∀ id copy, made.lookup id = some copy → start.Renews map root id
  copy_new : ∀ id copy, made.lookup id = some copy →
    start.size ≤ copy.index ∧ copy.index < t.size
  copy_injective : ∀ id other copy, made.lookup id = some copy → made.lookup other = some copy →
    id = other
  exists_lookup_eq : ∀ copy : TypeId, start.size ≤ copy.index → copy.index < t.size →
    ∃ id, made.lookup id = some copy
  parts_known : ∀ id copy, made.lookup id = some copy → id ∉ unfinished →
    ∀ part ∈ (start.get id).parts, Known start map made part
  get_copy : ∀ id copy, made.lookup id = some copy → id ∉ unfinished →
    t.get copy = (start.get id).mapParts (imageAmong map made)

section

variable {start t t' : TypeTable} {map : Substitution} {root id part : TypeId}
  {unfinished : List TypeId} {made made' made'' : List (TypeId × TypeId)}

theorem Known.keep (h : Known start map made id) (hkeeps : Persists made made') :
    Known start map made' id :=
  fun hstays hnone => h hstays (hkeeps.lookup_eq_none hnone)

/-- What stands in place of a type stays the same once it is known. -/
theorem Known.imageAmong_eq (h : Known start map made id) (hkeeps : Persists made made')
    (hrenews : ∀ id copy, made'.lookup id = some copy → start.Renews map root id) :
    imageAmong map made' id = imageAmong map made id := by
  unfold imageAmong
  cases hstays : map.lookup id with
  | some replacement => rfl
  | none =>
    cases hcopy : made.lookup id with
    | some copy => rw [hkeeps id copy hcopy]
    | none =>
      cases hcopy' : made'.lookup id with
      | none => rfl
      | some copy => exact absurd (hrenews id copy hcopy').mentions (h hstays hcopy)

theorem known_of_lookup_eq_some {copy : TypeId} (h : made.lookup id = some copy) :
    Known start map made id := fun _ hnone => by
  rw [h] at hnone
  cases hnone

/-- What stands in place of the parts of a type stays the same once it is known of all of them. -/
theorem mapParts_imageAmong_eq (h : ∀ part ∈ (start.get id).parts, Known start map made part)
    (hkeeps : Persists made made')
    (hrenews : ∀ id copy, made'.lookup id = some copy → start.Renews map root id) :
    (start.get id).mapParts (imageAmong map made') =
      (start.get id).mapParts (imageAmong map made) :=
  Descriptor.mapParts_congr fun part hpart => (h part hpart).imageAmong_eq hkeeps hrenews

/-- Nothing is copied at the start. -/
theorem underway_start (start : TypeTable) (map : Substitution) (root : TypeId) :
    Underway start map root [] [] start where
  grows := .refl start
  unions_eq := rfl
  renews _ _ h := nomatch h
  copy_new _ _ h := nomatch h
  copy_injective _ _ _ h := nomatch h
  exists_lookup_eq copy hnew hlt := by omega
  parts_known _ _ h := nomatch h
  get_copy _ _ h := nomatch h

/-- Entering a type that has no copy yet with an empty one. -/
theorem Underway.enter (h : Underway start map root unfinished made t)
    (hrenews : start.Renews map root id) (hnone : made.lookup id = none) (name : Option String) :
    Underway start map root (id :: unfinished) ((id, (t.push { name }).1) :: made)
      (t.push { name }).2 := by
  have hgrows := (TypeTable.Extends.refl t).push { name }
  have hkeeps := Persists.cons hnone (t.push { name }).1
  have hall : ∀ other copy, ((id, (t.push { name }).1) :: made).lookup other = some copy →
      start.Renews map root other := by
    intro other copy hcopy
    rcases lookup_cons_eq_some_iff.mp hcopy with ⟨rfl, rfl⟩ | ⟨-, hcopy⟩
    · exact hrenews
    · exact h.renews other copy hcopy
  have hindex : (t.push { name }).1.index = t.size := rfl
  have hsize : (t.push { name }).2.size = t.size + 1 := TypeTable.size_push t _
  have holder : ∀ other copy, ((id, (t.push { name }).1) :: made).lookup other = some copy →
      other ∉ id :: unfinished → made.lookup other = some copy ∧ other ∉ unfinished := by
    intro other copy hcopy hopen
    rw [List.mem_cons, not_or] at hopen
    rcases lookup_cons_eq_some_iff.mp hcopy with ⟨heq, -⟩ | ⟨-, hcopy⟩
    · exact absurd heq hopen.1
    · exact ⟨hcopy, hopen.2⟩
  refine ⟨h.grows.trans hgrows, h.unions_eq, hall, fun other copy hcopy => ?_,
    fun one other copy hone hother => ?_, fun copy hnew hlt => ?_,
    fun other copy hcopy hopen part hpart => ?_, fun other copy hcopy hopen => ?_⟩
  · rcases lookup_cons_eq_some_iff.mp hcopy with ⟨-, rfl⟩ | ⟨-, hcopy⟩
    · have := h.grows.size_le
      omega
    · have := h.copy_new other copy hcopy
      omega
  · rcases lookup_cons_eq_some_iff.mp hone with ⟨hone, heq⟩ | ⟨-, hone⟩ <;>
      rcases lookup_cons_eq_some_iff.mp hother with ⟨hother, heq'⟩ | ⟨-, hother⟩
    · rw [hone, hother]
    · have := h.copy_new other copy hother
      rw [heq] at this
      omega
    · have := h.copy_new one copy hone
      rw [heq'] at this
      omega
    · exact h.copy_injective one other copy hone hother
  · by_cases heq : copy.index = t.size
    · exact ⟨id, lookup_cons_eq_some_iff.mpr (.inl ⟨rfl, by cases copy; exact congrArg TypeId.mk heq⟩)⟩
    · obtain ⟨other, hother⟩ := h.exists_lookup_eq copy hnew (by omega)
      exact ⟨other, hkeeps other copy hother⟩
  · obtain ⟨hcopy, hopen⟩ := holder other copy hcopy hopen
    exact (h.parts_known other copy hcopy hopen part hpart).keep hkeeps
  · obtain ⟨hcopy, hopen⟩ := holder other copy hcopy hopen
    rw [hgrows.get_eq copy (h.copy_new other copy hcopy).2, h.get_copy other copy hcopy hopen,
      mapParts_imageAmong_eq (h.parts_known other copy hcopy hopen) hkeeps hall]

/-- Finishing a copy once it is known what stands in place of the parts. -/
theorem Underway.finish (h : Underway start map root (id :: unfinished) made t) {copy : TypeId}
    (hcopy : made.lookup id = some copy)
    (hparts : ∀ part ∈ (start.get id).parts, Known start map made part)
    {change : Descriptor → Descriptor}
    (hchange : change (t.get copy) = (start.get id).mapParts (imageAmong map made)) :
    Underway start map root unfinished made (t.update copy change) := by
  obtain ⟨hnew, hlt⟩ := h.copy_new id copy hcopy
  have hsize := TypeTable.size_update t copy change
  refine ⟨h.grows.update hnew change, h.unions_eq, h.renews, fun other otherCopy hother => ?_,
    h.copy_injective, fun other hother => ?_, fun other otherCopy hother hopen => ?_,
    fun other otherCopy hother hopen => ?_⟩
  · rw [hsize]
    exact h.copy_new other otherCopy hother
  · rw [hsize]
    exact h.exists_lookup_eq other hother
  · by_cases heq : other = id
    · exact heq ▸ hparts
    · exact h.parts_known other otherCopy hother (List.not_mem_cons_of_ne_of_not_mem heq hopen)
  · by_cases heq : other = id
    · subst heq
      cases hcopy.symm.trans hother
      rw [TypeTable.get_update_self t change hlt, hchange]
    · have hne : otherCopy ≠ copy := by
        rintro rfl
        exact heq (h.copy_injective other id otherCopy hother hcopy)
      rw [TypeTable.get_update_of_ne t change hne]
      exact h.get_copy other otherCopy hother (List.not_mem_cons_of_ne_of_not_mem heq hopen)

end

/-- A step of copying looks up what stands in place of some types and makes something of that. -/
structure Renders (start : TypeTable) (map : Substitution) (root : TypeId) (levels : Nat)
    (unfinished : List TypeId) {α : Type} (step : Copying α) (parts : List TypeId)
    (result : (TypeId → TypeId) → α) : Prop where
  congr : ∀ f g, (∀ part ∈ parts, f part = g part) → result f = result g
  run : ∀ made t, Underway start map root unfinished made t → openCopies start.size made < levels →
    Ends (step made) t fun p t' => Underway start map root unfinished p.2 t' ∧ Persists made p.2 ∧
      t.Extends t' ∧ (∀ part ∈ parts, Known start map p.2 part) ∧
      p.1 = result (imageAmong map p.2)

section

variable {start t t' : TypeTable} {map : Substitution} {root id part : TypeId} {levels : Nat}
  {unfinished parts parts' : List TypeId} {α β : Type} {step : Copying α}
  {result : (TypeId → TypeId) → α}

theorem renders_pure (x : α) :
    Renders start map root levels unfinished (pure x) [] fun _ => x where
  congr _ _ _ := rfl
  run made t h _ := ⟨h, .refl made, .refl t, List.forall_mem_nil _, rfl⟩

theorem Renders.bind {next : α → Copying β} {result' : α → (TypeId → TypeId) → β}
    (h : Renders start map root levels unfinished step parts result)
    (hnext : ∀ x, Renders start map root levels unfinished (next x) parts' (result' x)) :
    Renders start map root levels unfinished (step >>= next) (parts ++ parts')
      fun f => result' (result f) f where
  congr f g hsame := by
    rw [List.forall_mem_append] at hsame
    rw [h.congr f g hsame.1, (hnext (result g)).congr f g hsame.2]
  run made t hmade hlevels := by
    rw [ends_bind_apply_iff]
    refine (h.run made t hmade hlevels).mono ?_
    rintro ⟨x, made₁⟩ t₁ ⟨hmade₁, hkeeps, hgrows, hknown, hx⟩
    dsimp only at hmade₁ hkeeps hknown hx
    subst hx
    have hlevels₁ := (openCopies_le start.size fun _ => hkeeps.lookup_eq_none).trans_lt hlevels
    refine ((hnext _).run made₁ t₁ hmade₁ hlevels₁).mono ?_
    rintro ⟨y, made₂⟩ t₂ ⟨hmade₂, hkeeps', hgrows', hknown', hy⟩
    dsimp only at hmade₂ hkeeps' hknown' hy
    have hsame : result (imageAmong map made₁) = result (imageAmong map made₂) :=
      h.congr _ _ fun part hpart => ((hknown part hpart).imageAmong_eq hkeeps' hmade₂.renews).symm
    refine ⟨hmade₂, hkeeps.trans hkeeps', hgrows.trans hgrows',
      List.forall_mem_append.mpr ⟨fun part hpart => (hknown part hpart).keep hkeeps', hknown'⟩, ?_⟩
    rw [hy, hsame]

theorem Renders.make (h : Renders start map root levels unfinished step parts result) (g : α → β) :
    Renders start map root levels unfinished (step >>= fun x => pure (g x)) parts
      fun f => g (result f) := by
  simpa using h.bind fun x => renders_pure (g x)

theorem renders_mapM (items : List α) {step : α → Copying β} {parts : α → List TypeId}
    {result : α → (TypeId → TypeId) → β}
    (h : ∀ item ∈ items, Renders start map root levels unfinished (step item) (parts item)
      (result item)) :
    Renders start map root levels unfinished (items.mapM step) (items.flatMap parts)
      fun f => items.map fun item => result item f := by
  induction items with
  | nil => exact renders_pure []
  | cons item rest ih =>
    rw [List.forall_mem_cons] at h
    rw [List.mapM_cons, List.flatMap_cons]
    exact h.1.bind fun x => (ih h.2).make fun results => x :: results

/-- Copying the types of the fields, if there are any. -/
def copyShape (part : TypeId → Copying TypeId) : Shape → Copying Shape
  | .compound fields => do
    let fields ← fields.mapM fun f => return { f with type := ← part f.type }
    pure (Shape.compound fields)
  | shape => pure shape

/-- Copying all parts of a type, one after the other. -/
def copyParts (part : TypeId → Copying TypeId) (old : Descriptor) : Copying Descriptor := do
  let shape ← copyShape part old.shape
  let symbols ← old.symbols.mapM fun (symbol, answer) => return (symbol, ← part answer)
  let handlers ← old.handlers.mapM fun (guard, answer) => return (← part guard, ← part answer)
  let variants ← old.variants.mapM part
  return { name := old.name, shape, symbols, handlers, variants }

theorem copyParts_renders {copyPart : TypeId → Copying TypeId} {old : Descriptor}
    (h : ∀ part ∈ old.parts,
      Renders start map root levels unfinished (copyPart part) [part] fun f => f part) :
    Renders start map root levels unfinished (copyParts copyPart old) old.parts
      fun f => old.mapParts f := by
  have hpart : ∀ part, _ → _ := fun part hpart => h part (Descriptor.mem_parts_iff.mpr hpart)
  have hshape : Renders start map root levels unfinished (copyShape copyPart old.shape)
      old.fieldTypes fun f => old.shape.mapTypes f := by
    have hfields : ∀ f fields, old.shape = .compound fields → f ∈ fields →
        Renders start map root levels unfinished (copyPart f.type) [f.type] fun g => g f.type :=
      fun f fields hfields hf => hpart f.type (.inl ⟨fields, hfields, f, hf, rfl⟩)
    unfold Descriptor.fieldTypes Descriptor.fields?
    cases hshape : old.shape with
    | compound fields =>
      have hrenders := (renders_mapM fields fun f hf => (hfields f fields hshape hf).make fun type =>
        { f with type }).make Shape.compound
      rwa [← List.map_eq_flatMap] at hrenders
    | _ => exact renders_pure _
  have hsymbols := renders_mapM old.symbols fun entry hentry =>
    (hpart entry.2 (.inr (.inl ⟨entry, hentry, rfl⟩))).make fun answer => (entry.1, answer)
  have hhandlers := renders_mapM old.handlers fun handler hhandler =>
    (hpart handler.1 (.inr (.inr (.inl ⟨handler, hhandler, .inl rfl⟩)))).bind fun guard =>
      (hpart handler.2 (.inr (.inr (.inl ⟨handler, hhandler, .inr rfl⟩)))).make fun answer =>
        (guard, answer)
  have hvariants := renders_mapM old.variants fun part hmem => hpart part (.inr (.inr (.inr hmem)))
  have hall := hshape.bind fun shape => hsymbols.bind fun symbols => hhandlers.bind fun handlers =>
    hvariants.make fun variants =>
      ({ name := old.name, shape, symbols, handlers, variants } : Descriptor)
  have hparts : old.parts = old.fieldTypes ++ (old.symbols.flatMap (fun entry => [entry.2]) ++
      (old.handlers.flatMap (fun handler => [handler.1] ++ [handler.2]) ++
        old.variants.flatMap fun part => [part])) := by
    simp [Descriptor.parts, List.map_eq_flatMap]
  rw [hparts]
  exact hall

/-- A type that needs a copy is entered with an empty one, which is filled in with copies of the
parts. -/
theorem substituteWithin_succ (map : Substitution) (levels : Nat) (id : TypeId) :
    substituteWithin map (levels + 1) id = (do
      if let some image := map.lookup id then return image
      if let some made := (← get).lookup id then return made
      let t ← getThe TypeTable
      if !t.mentions map id then return id
      let copy ← push { name := (t.get id).name }
      modify fun made => (id, copy) :: made
      let new ← copyParts (substituteWithin map levels) (t.get id)
      update copy fun d =>
        { d with shape := new.shape, symbols := new.symbols, handlers := new.handlers,
                 variants := new.variants }
      return copy) := by
  rw [substituteWithin]
  simp only [copyParts, bind_assoc, pure_bind]
  cases map.lookup id with
  | some image => rfl
  | none =>
    refine bind_congr fun made => ?_
    cases made.lookup id with
    | some copy => rfl
    | none =>
      refine bind_congr fun t => ?_
      cases t.mentions map id with
      | false => rfl
      | true =>
        refine bind_congr fun copy => bind_congr fun _ => ?_
        cases (t.get id).shape <;> simp only [copyShape, bind_assoc, pure_bind]

/-- Copying a type looks up what stands in its place. The induction is on the levels: while the parts
of a type are copied it is unfinished, and there is one type less without a copy. -/
theorem substituteWithin_renders (hstart : start.Closed) (levels : Nat) :
    ∀ (unfinished : List TypeId) (id : TypeId), id.index < start.size →
      start.Meets map root id →
        Renders start map root levels unfinished (substituteWithin map levels id) [id]
          fun f => f id := by
  induction levels with
  | zero => exact fun _ id _ _ => ⟨fun f g hsame => hsame id (by simp), fun _ _ _ h => nomatch h⟩
  | succ levels ih =>
    intro unfinished id hid hleads
    refine ⟨fun f g hsame => hsame id (by simp), fun made t hmade hlevels => ?_⟩
    simp only [List.forall_mem_singleton]
    have hsame : ∀ image, Known start map made id → image = imageAmong map made id →
        Underway start map root unfinished made t ∧ Persists made made ∧ t.Extends t ∧
          Known start map made id ∧ image = imageAmong map made id :=
      fun image hknown himage => ⟨hmade, .refl made, .refl t, hknown, himage⟩
    rw [substituteWithin_succ]
    cases hstays : map.lookup id with
    | some image =>
      exact hsame image (fun hnone => nomatch hstays.symm.trans hnone) (by simp [imageAmong, hstays])
    | none =>
      simp only [ends_bind_apply_iff, ends_get_apply_iff]
      cases hnone : made.lookup id with
      | some copy =>
        exact hsame copy (known_of_lookup_eq_some hnone) (by simp [imageAmong, hstays, hnone])
      | none =>
        simp only [ends_bind_apply_iff, ends_get_inner_iff]
        cases hmentions : t.mentions map id with
        | false =>
          have hnot : ¬ start.Mentions map id := by
            rw [← hmade.grows.mentions_iff hstart hid, hmentions]
            exact Bool.false_ne_true
          exact hsame id (fun _ _ => hnot) (by simp [imageAmong, hstays, hnone])
        | true =>
          have hrenews : start.Renews map root id :=
            ⟨hleads, hstays, (hmade.grows.mentions_iff hstart hid).mp hmentions⟩
          have hentered := hmade.enter hrenews hnone (t.get id).name
          have hgrows := (TypeTable.Extends.refl t).push { name := (t.get id).name }
          have hname := TypeTable.get_push_new t { name := (t.get id).name }
          have hfresh : t.size ≤ (t.push { name := (t.get id).name }).1.index := Nat.le_refl _
          rw [Bool.not_true, if_neg Bool.false_ne_true, ends_bind_apply_iff, ends_lift_apply_iff,
            Tabling.push, ends_modifyGet_iff, ends_bind_apply_iff, ends_modify_apply_iff,
            ends_bind_apply_iff]
          generalize t.push { name := (t.get id).name } = pushed at hentered hgrows hname hfresh
          obtain ⟨copy, t₁⟩ := pushed
          dsimp only at hentered hgrows hname hfresh
          rw [hmade.grows.get_eq id hid] at hname ⊢
          have hparts := copyParts_renders fun part hpart =>
            ih (id :: unfinished) part (hstart id part hpart) (hleads.tail ⟨hstays, hpart⟩)
          have hfewer := openCopies_cons_lt hid hnone copy
          refine (hparts.run _ t₁ hentered (by omega)).mono ?_
          rintro ⟨new, made'⟩ t₂ ⟨hcopied, hkeeps, hgrows', hknown, hnew⟩
          dsimp only at hcopied hkeeps hknown hnew
          have hcopy : made'.lookup id = some copy := hkeeps id copy (by simp)
          have hcopylt := (hentered.copy_new id copy (by simp)).2
          -- nothing has been written into the copy meanwhile
          have hempty : t₂.get copy = { name := (start.get id).name } := by
            rw [hgrows'.get_eq copy hcopylt, hname]
          rw [ends_bind_apply_iff, ends_lift_apply_iff]
          refine ⟨hcopied.finish hcopy hknown ?_, (Persists.cons hnone copy).trans hkeeps, ?_,
            known_of_lookup_eq_some hcopy, by simp [imageAmong, hstays, hcopy]⟩
          · rw [hempty, hnew]
            rfl
          · exact (hgrows.trans hgrows').update hfresh _

/-- What holds of the copies when all are finished. -/
theorem Underway.substituted (h : Underway start map root [] made t)
    (hroot : Known start map made root) : start.Substituted map root (imageAmong map made) t := by
  have hshared : ∀ id, ¬ start.Mentions map id → imageAmong map made id = id := by
    intro id hnot
    have hstays : map.lookup id = none := Option.eq_none_iff_forall_ne_some.mpr fun image himage =>
      hnot (TypeTable.mentions_of_lookup_eq_some himage)
    have hnone : made.lookup id = none := Option.eq_none_iff_forall_ne_some.mpr fun copy hcopy =>
      hnot (h.renews id copy hcopy).mentions
    simp [imageAmong, hstays, hnone]
  -- a type that needs a copy has one, since it is a part of one that has
  have hknown : ∀ id, start.Meets map root id → Known start map made id := by
    intro id hleads
    induction hleads with
    | refl => exact hroot
    | @tail whole part _ hstep ih =>
      intro hstays hnone hmentions
      cases hcopy : made.lookup whole with
      | none => exact ih hstep.1 hcopy (.of_part hstep.2 hmentions)
      | some copy => exact h.parts_known whole copy hcopy (List.not_mem_nil) part hstep.2 hstays hnone hmentions
  have hcopies : ∀ id, start.Renews map root id →
      made.lookup id = some (imageAmong map made id) := by
    intro id hrenews
    cases hcopy : made.lookup id with
    | none => exact absurd hrenews.mentions (hknown id hrenews.meets hrenews.stays hcopy)
    | some copy => simp [imageAmong, hrenews.stays, hcopy]
  refine ⟨h.grows, h.unions_eq, fun id replacement hreplaced => ?_, hshared,
    fun id hrenews => h.copy_new id _ (hcopies id hrenews),
    fun id hrenews => h.get_copy id _ (hcopies id hrenews) (List.not_mem_nil),
    fun id other hid hother heq => ?_, fun copy hnew hlt => ?_⟩
  · simp [imageAmong, hreplaced]
  · exact h.copy_injective id other _ (hcopies id hid) (heq ▸ hcopies other hother)
  · obtain ⟨id, hcopy⟩ := h.exists_lookup_eq copy hnew hlt
    have hrenews := h.renews id copy hcopy
    exact ⟨id, hrenews, Option.some.inj ((hcopies id hrenews).symm.trans hcopy)⟩

end

end Tabling

namespace TypeTable

variable {t t' : TypeTable} {map : Substitution} {root id : TypeId} {image : TypeId → TypeId}

/-- Without more types, a table that goes on to describe those there are is the same. -/
theorem Extends.eq_of_size_le (h : t.Extends t') (hsize : t'.size ≤ t.size)
    (hunions : t'.unions = t.unions) : t' = t := by
  have htypes : t'.types = t.types := by
    refine Array.ext (Nat.le_antisymm hsize h.size_le) fun index hlt' hlt => ?_
    have hget := h.get_eq ⟨index⟩ hlt
    simpa [get, Array.getD_eq_getD_getElem?, hlt, hlt'] using hget
  cases t
  cases t'
  rw [mk.injEq]
  exact ⟨htypes, hunions⟩

/-- Where nothing is mentioned that is replaced, nothing is copied. -/
theorem Substituted.eq_of_not_mentions (h : t.Substituted map root image t')
    (hnot : ¬ t.Mentions map root) : image root = root ∧ t' = t := by
  refine ⟨h.image_shared root hnot, h.grows.eq_of_size_le ?_ h.unions_eq⟩
  by_contra hmore
  obtain ⟨id, hrenews, -⟩ := h.exists_image_eq ⟨t.size⟩ (Nat.le_refl _) (Nat.lt_of_not_le hmore)
  exact hnot (hrenews.mentions.of_leads hrenews.meets.leads)

/-- Going on from a type, over what was not put in, one meets only images of what the type met. -/
theorem Substituted.exists_image_of_leadsOver (h : t.Substituted map root image t')
    (hclosed : t.Closed) (hroot : root.index < t.size) {last : TypeId}
    (hleads : t'.LeadsOver (fun whole => ∀ id, t.Meets map root id → map.lookup id ≠ some whole)
      (image root) last) : ∃ id, t.Meets map root id ∧ image id = last := by
  induction hleads with
  | refl => exact ⟨root, .refl, rfl⟩
  | tail _ hstep ih =>
    obtain ⟨id, hmeets, rfl⟩ := ih
    obtain ⟨hover, hpart⟩ := hstep
    have hstays : map.lookup id = none := Option.eq_none_iff_forall_ne_some.mpr
      fun replacement hreplaced => hover id hmeets (h.image_replaced id _ hreplaced ▸ hreplaced)
    by_cases hmentions : t.Mentions map id
    · rw [h.get_image id ⟨hmeets, hstays, hmentions⟩, Descriptor.parts_mapParts] at hpart
      obtain ⟨part, hmem, rfl⟩ := List.mem_map.mp hpart
      exact ⟨part, hmeets.tail ⟨hstays, hmem⟩, rfl⟩
    · rw [h.image_shared id hmentions, h.grows.get_eq id (hclosed.lt_of_leads hroot hmeets.leads)]
        at hpart
      exact ⟨_, hmeets.tail ⟨hstays, hpart⟩, h.image_shared _ fun hpart' =>
        hmentions (.of_part hpart hpart')⟩

/-- What was replaced is met, going on over what was not put in, only where it was put in. -/
theorem Substituted.exists_replaced_of_leadsOver (h : t.Substituted map root image t')
    (hclosed : t.Closed) (hroot : root.index < t.size)
    (hmap : ∀ entry ∈ map, entry.1.index < t.size) {last : TypeId}
    (hleads : t'.LeadsOver (fun whole => ∀ id, t.Meets map root id → map.lookup id ≠ some whole)
      (image root) last) (hlast : map.lookup last ≠ none) :
    ∃ id, t.Meets map root id ∧ map.lookup id = some last := by
  obtain ⟨id, hmeets, rfl⟩ := h.exists_image_of_leadsOver hclosed hroot hleads
  cases hstays : map.lookup id with
  | some replacement => exact ⟨id, hmeets, (h.image_replaced id _ hstays).symm ▸ hstays⟩
  | none =>
    obtain ⟨replacement, hreplaced⟩ := Option.ne_none_iff_exists'.mp hlast
    by_cases hmentions : t.Mentions map id
    · -- a copy is none of the types that there were
      have hnew := (h.image_new id ⟨hmeets, hstays, hmentions⟩).1
      have hold : (image id).index < t.size := hmap _ (mem_of_lookup_eq_some hreplaced)
      omega
    · rw [h.image_shared id hmentions, hstays] at hreplaced
      cases hreplaced

/-- Substituting ends, whatever types there are. -/
theorem substitute_substituted (hclosed : t.Closed) (hid : id.index < t.size) (map : Substitution) :
    Ends (Tabling.substitute id map) t fun result t' =>
      ∃ image, result = image id ∧ t.Substituted map id image t' := by
  rw [Tabling.substitute]
  split
  · next hempty =>
    have hnone : ∀ part, map.lookup part = none := by simp [List.isEmpty_iff.mp hempty]
    refine ⟨Tabling.imageAmong map [], ?_, (Tabling.underway_start t map id).substituted ?_⟩
    · simp [Tabling.imageAmong, hnone]
    · rintro - - ⟨part, replacement, -, hreplaced⟩
      rw [hnone] at hreplaced
      cases hreplaced
  · simp only [ends_bind_iff, ends_get_iff]
    refine ((Tabling.substituteWithin_renders hclosed (t.size + 1) [] id hid .refl).run [] t
      (Tabling.underway_start t map id) (Nat.lt_succ_of_le (openCopies_nil_le _))).mono ?_
    rintro ⟨result, made⟩ t' ⟨hmade, -, -, hknown, hresult⟩
    exact ⟨Tabling.imageAmong map made, hresult, hmade.substituted (hknown id (by simp))⟩

/-- Substituting ends, whatever types there are, in a table with one image for each type: what the
type is replaced with, the type itself if it leads to nothing that is replaced, or else one copy of
it with the images of its parts, so that cycles of types become cycles of images. All types that there
were stay as they are, nothing is added but the copies, and nothing at all if the type itself leads to
nothing that is replaced. What was replaced is met again, going on from the image of the type over
what was not put in, only where it was put in. -/
theorem substitute_images (hclosed : t.Closed) (hid : id.index < t.size)
    (hmap : ∀ entry ∈ map, entry.1.index < t.size) :
    ∃ image t', Tabling.substitute id map t = .ok (image id, t') ∧ t.Substituted map id image t' ∧
      (¬ t.Mentions map id → image id = id ∧ t' = t) ∧
      ∀ last, t'.LeadsOver (fun whole => ∀ part, t.Meets map id part → map.lookup part ≠ some whole)
        (image id) last → map.lookup last ≠ none →
          ∃ part, t.Meets map id part ∧ map.lookup part = some last := by
  obtain ⟨_, t', hrun, image, rfl, h⟩ := ends_iff.mp (substitute_substituted hclosed hid map)
  exact ⟨image, t', hrun, h, h.eq_of_not_mentions,
    fun _ hleads hlast => h.exists_replaced_of_leadsOver hclosed hid hmap hleads hlast⟩

/-- A wildcard, numbers, a pair of lists of the wildcard that go on with themselves, a list of the
numbers alone, and the union of both lists. -/
def listsOfWildcard : TypeTable where
  types := #[{ name := some "$A", shape := .wildcard }, { symbols := [("negative", ⟨1⟩)] },
    { shape := .compound [⟨"first", ⟨0⟩, true⟩, ⟨"rest", ⟨4⟩, false⟩], handlers := [(⟨1⟩, ⟨2⟩)] },
    { symbols := [("first", ⟨1⟩), ("rest", ⟨3⟩)] }, { variants := [⟨2⟩, ⟨3⟩] }]
  unions := []

theorem substitute_images_listsOfWildcard :
    listsOfWildcard.Closed ∧ listsOfWildcard.Mentions [(⟨0⟩, ⟨1⟩)] ⟨2⟩ ∧
      (Tabling.substitute ⟨2⟩ [(⟨0⟩, ⟨1⟩)] listsOfWildcard).map (·.1) = .ok ⟨5⟩ ∧
      ∃ image t', Tabling.substitute ⟨2⟩ [(⟨0⟩, ⟨1⟩)] listsOfWildcard = .ok (image ⟨2⟩, t') ∧
        listsOfWildcard.Substituted [(⟨0⟩, ⟨1⟩)] ⟨2⟩ image t' ∧
        (¬ listsOfWildcard.Mentions [(⟨0⟩, ⟨1⟩)] ⟨2⟩ → image ⟨2⟩ = ⟨2⟩ ∧ t' = listsOfWildcard) ∧
        ∀ last, t'.LeadsOver (fun whole => ∀ part, listsOfWildcard.Meets [(⟨0⟩, ⟨1⟩)] ⟨2⟩ part →
            ([(⟨0⟩, ⟨1⟩)] : Substitution).lookup part ≠ some whole) (image ⟨2⟩) last →
          ([(⟨0⟩, ⟨1⟩)] : Substitution).lookup last ≠ none →
            ∃ part, listsOfWildcard.Meets [(⟨0⟩, ⟨1⟩)] ⟨2⟩ part ∧
              ([(⟨0⟩, ⟨1⟩)] : Substitution).lookup part = some last := by
  have hclosed : listsOfWildcard.Closed := closed_iff.mpr (by decide)
  exact ⟨hclosed, ⟨⟨0⟩, ⟨1⟩, .single (by decide), by decide⟩, rfl,
    substitute_images hclosed (by decide) (by decide)⟩

end TypeTable

end MessageLang
