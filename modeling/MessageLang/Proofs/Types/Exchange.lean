import MessageLang.Proofs.Assign.Instances
import MessageLang.Proofs.Types.Likeness

namespace MessageLang

/-- The same types replaced, each with what stands in place of what it was replaced with. -/
def Substitution.andThen (map : Substitution) (f : TypeId → TypeId) : Substitution :=
  map.map fun entry => (entry.1, f entry.2)

namespace TypeTable

/-- A table shows a type of an earlier one under a substitution. Every type that is met has an image.
One that mentions something replaced, without being replaced itself, has an image that was not there
before, made of the images of its parts. -/
structure Depicts (t t' : TypeTable) (map : Substitution) (root : TypeId) (image : TypeId → TypeId)
    (name : TypeId → Option String) : Prop where
  image_replaced : ∀ id replacement, map.lookup id = some replacement → image id = replacement
  image_shared : ∀ id, t.Meets map root id → ¬ t.Mentions map id → image id = id
  image_new : ∀ id, t.Renews map root id → t.size ≤ (image id).index
  get_image : ∀ id, t.Renews map root id →
    t'.get (image id) = { (t.get id).mapParts image with name := name id }
  image_lt : ∀ id, t.Renews map root id → (image id).index < t'.size

/-- What an instance of a template is called, if the template has a name. -/
def instanceName (t : TypeTable) (template : TypeId) (shown : List String) : Option String :=
  (t.get template).name.map fun name => name ++ "(" ++ ", ".intercalate shown ++ ")"

end TypeTable

section

variable {t t' t'' t₁ t₂ start : TypeTable} {map map' : Substitution} {root whole id part : TypeId}
  {image f g : TypeId → TypeId} {name name' : TypeId → Option String} {named : Prop}

theorem Substitution.lookup_andThen (map : Substitution) (f : TypeId → TypeId) (id : TypeId) :
    (map.andThen f).lookup id = (map.lookup id).map f := by
  induction map with
  | nil => rfl
  | cons entry rest ih =>
    rw [Substitution.andThen, List.map_cons, lookup_cons_eq_ite, lookup_cons_eq_ite]
    split
    · rfl
    · exact ih

/-- A substitution of types below a bound leaves the others. -/
theorem Substitution.lookup_eq_none_of_le {bound : Nat} (h : ∀ entry ∈ map, entry.1.index < bound)
    (hid : bound ≤ id.index) : map.lookup id = none := by
  by_contra hreplaced
  obtain ⟨replacement, hreplaced⟩ := Option.ne_none_iff_exists'.mp hreplaced
  exact Nat.not_le_of_lt (h _ (mem_of_lookup_eq_some hreplaced)) hid

/-- Two lists with the same keys, whose values are related, are looked up alike. -/
theorem lookup_of_forall₂ {α β γ : Type} [BEq α] {P : β → γ → Prop} {xs : List (α × β)}
    {ys : List (α × γ)} (h : List.Forall₂ (fun x y => x.1 = y.1 ∧ P x.2 y.2) xs ys) (key : α) :
    xs.lookup key = none ∧ ys.lookup key = none ∨
      ∃ x y, xs.lookup key = some x ∧ ys.lookup key = some y ∧ P x y := by
  induction h with
  | nil => exact .inl ⟨rfl, rfl⟩
  | @cons x y xs ys head _ ih =>
    obtain ⟨⟨k, v⟩, ⟨k', w⟩⟩ := x, y
    obtain ⟨rfl, hvalues⟩ := head
    rw [List.lookup_cons, List.lookup_cons]
    cases key == k with
    | true => exact .inr ⟨v, w, rfl, rfl, hvalues⟩
    | false => exact ih

namespace TypeTable

/-- Under other names a type leads to the same types. -/
theorem Resembles.leads_iff (h : t.Resembles t') (hclosed : t.Closed) (hid : id.index < t.size) :
    t'.Leads id part ↔ t.Leads id part := by
  constructor
  · intro hleads
    induction hleads with
    | refl => exact .refl
    | tail _ hstep ih => exact ih.tail (h.parts_eq (hclosed.lt_of_leads hid ih) ▸ hstep)
  · intro hleads
    induction hleads with
    | refl => exact .refl
    | tail hleads hstep ih =>
      refine ih.tail ?_
      rwa [h.parts_eq (hclosed.lt_of_leads hid hleads)]

theorem Resembles.mentions_iff (h : t.Resembles t') (hclosed : t.Closed) (hid : id.index < t.size) :
    t'.Mentions map id ↔ t.Mentions map id := by
  simp only [Mentions, h.leads_iff hclosed hid]

theorem Resembles.meets (h : t.Resembles t') (hclosed : t.Closed) (hroot : root.index < t.size)
    (hmeets : t.Meets map root id) : t'.Meets map root id := by
  induction hmeets with
  | refl => exact .refl
  | tail hmeets hstep ih =>
    refine ih.tail ⟨hstep.1, ?_⟩
    rw [h.parts_eq (hclosed.lt_of_leads hroot (LeadsOver.leads hmeets))]
    exact hstep.2

/-- What is met depends on which types are replaced, not on what they are replaced with. -/
theorem Renews.congr (h : t.Renews map root id)
    (hsame : ∀ id, map.lookup id = none ↔ map'.lookup id = none) : t.Renews map' root id where
  meets := h.meets.mono fun id hstays => (hsame id).mp hstays
  stays := (hsame id).mp h.stays
  mentions := by
    obtain ⟨last, replacement, hleads, hreplaced⟩ := h.mentions
    have hsome : map'.lookup last ≠ none := fun hnone =>
      Option.some_ne_none _ (hreplaced.symm.trans ((hsame last).mpr hnone))
    obtain ⟨replacement', hreplaced'⟩ := Option.ne_none_iff_exists'.mp hsome
    exact ⟨last, replacement', hleads, hreplaced'⟩

theorem Depicts.extend (h : t.Depicts t' map root image name) (hlater : t'.Extends t'') :
    t.Depicts t'' map root image name where
  image_replaced := h.image_replaced
  image_shared := h.image_shared
  image_new := h.image_new
  get_image id hrenews := by
    rw [hlater.get_eq _ (h.image_lt id hrenews), h.get_image id hrenews]
  image_lt id hrenews := hlater.lt (h.image_lt id hrenews)

/-- What shows a type goes on to show it under other names, and under the same where names count. -/
theorem Depicts.resembles (h : t.Depicts t' map root image name) (hlater : t'.Resembles t'')
    (hnamed : named → t'.Extends t'') :
    ∃ name', (named → name' = name) ∧ t.Depicts t'' map root image name' := by
  by_cases hnames : named
  · exact ⟨name, fun _ => rfl, h.extend (hnamed hnames)⟩
  refine ⟨fun id => (t''.get (image id)).name, fun h => absurd h hnames, h.image_replaced,
    h.image_shared, h.image_new, fun id hrenews => ?_, fun id hrenews => hlater.lt (h.image_lt id hrenews)⟩
  obtain ⟨name', heq⟩ := hlater.get_eq _ (h.image_lt id hrenews)
  rw [heq, h.get_image id hrenews]

/-- What a substitution leaves shows all that was met on the way. -/
theorem Substituted.depicts (h : start.Substituted map whole image t') (hbefore : t.Resembles start)
    (hclosed : t.Closed) (hroot : root.index < t.size) (hmeets : start.Meets map whole root) :
    t.Depicts t' map root image fun id => (start.get id).name := by
  have hlt : ∀ id, t.Meets map root id → id.index < t.size := fun id hid =>
    hclosed.lt_of_leads hroot hid.leads
  have hrenews : ∀ id, t.Renews map root id → start.Renews map whole id := fun id hid =>
    ⟨hmeets.trans (hbefore.meets hclosed hroot hid.meets), hid.stays,
      (hbefore.mentions_iff hclosed (hlt id hid.meets)).mpr hid.mentions⟩
  refine ⟨h.image_replaced, fun id hid hnot => h.image_shared id ?_, fun id hid => ?_,
    fun id hid => ?_, fun id hid => (h.image_new id (hrenews id hid)).2⟩
  · rwa [hbefore.mentions_iff hclosed (hlt id hid)]
  · exact hbefore.size_le.trans (h.image_new id (hrenews id hid)).1
  · obtain ⟨other, heq⟩ := hbefore.get_eq id (hlt id hid.meets)
    rw [h.get_image id (hrenews id hid), heq]
    rfl

/-- A type that was there before is alike in all later tables. -/
theorem alike_self (hclosed : t.Closed) (h₁ : t.Resembles t₁) (h₂ : t.Resembles t₂)
    (hnamed : named → t.Extends t₁ ∧ t.Extends t₂) (hid : id.index < t.size) :
    t.Alike t₁ t₂ named id id := by
  refine ⟨fun x y => x = y ∧ x.index < t.size, ?_, rfl, hid⟩
  rintro x _ ⟨rfl, hx⟩
  obtain ⟨name₁, heq₁⟩ := h₁.get_eq x hx
  obtain ⟨name₂, heq₂⟩ := h₂.get_eq x hx
  refine ⟨?_, fun hnames => ?_, fun _ => rfl⟩
  · rw [heq₁, heq₂]
    exact (Descriptor.Matches.refl fun part hpart => ⟨rfl, hclosed x part hpart⟩).rename _ _
  · obtain ⟨hsame₁, hsame₂⟩ := hnamed hnames
    rw [hsame₁.get_eq x hx, hsame₂.get_eq x hx]

/-- Two images of one type are alike if the types are that were put in. The pairs are those that are
alike anyway, and the two images of each type that needs them. -/
theorem Depicts.alike (h₁ : t.Depicts t₁ map root f name) (h₂ : t.Depicts t₂ map' root g name')
    (hsame : ∀ id, t.Meets map root id → t.Alike t₁ t₂ named id id)
    (hnames : named → ∀ id, t.Renews map root id → name id = name' id)
    (hmaps : ∀ id, map.lookup id = none ∧ map'.lookup id = none ∨ ∃ x y, map.lookup id = some x ∧
      map'.lookup id = some y ∧ (t.Meets map root id → t.Alike t₁ t₂ named x y)) :
    t.Alike t₁ t₂ named (f root) (g root) := by
  let R (x y : TypeId) : Prop := t.Alike t₁ t₂ named x y ∨
    ∃ id, t.Renews map root id ∧ f id = x ∧ g id = y
  have hkeys : ∀ id, map.lookup id = none ↔ map'.lookup id = none := by
    intro id
    rcases hmaps id with ⟨hnone, hnone'⟩ | ⟨x, y, hx, hy, -⟩
    · simp [hnone, hnone']
    · simp [hx, hy]
  have hmet : ∀ id, t.Meets map root id → R (f id) (g id) := by
    intro id hid
    rcases hmaps id with ⟨hstays, hstays'⟩ | ⟨x, y, hx, hy, halike⟩
    · by_cases hmentions : t.Mentions map id
      · exact .inr ⟨id, ⟨hid, hstays, hmentions⟩, rfl, rfl⟩
      · have hid' : t.Meets map' root id := hid.mono fun id => (hkeys id).mp
        have hmentions' : ¬ t.Mentions map' id := fun hmentions' =>
          hmentions (Renews.congr ⟨hid', hstays', hmentions'⟩ fun id => (hkeys id).symm).mentions
        rw [h₁.image_shared id hid hmentions, h₂.image_shared id hid' hmentions']
        exact .inl (hsame id hid)
    · rw [h₁.image_replaced id x hx, h₂.image_replaced id y hy]
      exact .inl (halike hid)
  refine ⟨R, ?_, hmet root .refl⟩
  rintro x y (halike | ⟨id, hid, rfl, rfl⟩)
  · obtain ⟨hmatches, hrest⟩ := pairs_alike t t₁ t₂ named x y halike
    exact ⟨hmatches.mono fun x y hxy => .inl hxy, hrest⟩
  have hid' : t.Renews map' root id := hid.congr hkeys
  refine ⟨?_, fun hnamed => ?_, fun hold => ?_⟩
  · rw [h₁.get_image id hid, h₂.get_image id hid']
    refine (Descriptor.matches_mapParts fun part hpart => ?_).rename _ _
    exact hmet part (hid.meets.tail ⟨hid.stays, hpart⟩)
  · rw [h₁.get_image id hid, h₂.get_image id hid']
    exact hnames hnamed id hid
  · have hnew := h₁.image_new id hid
    have hnew' := h₂.image_new id hid'
    omega

theorem Renews.top (h : t.Renews map root id) : t.Renews map root root where
  meets := .refl
  stays := by
    rcases h.meets.cases_head with rfl | ⟨_, hstep, _⟩
    · exact h.stays
    · exact hstep.1
  mentions := h.mentions.of_leads h.meets.leads

/-- All on the way to what is replaced is met again, going on from the image. A later substitution
that replaces only types of the earlier table does not stop there. -/
theorem Depicts.meets_image (h : t.Depicts t' map root image name) {later : Substitution}
    (hkeys : ∀ entry ∈ later, entry.1.index < t.size) (hid : t.Meets map root id)
    (hmentions : t.Mentions map id) : t'.Meets later (image root) (image id) := by
  induction hid with
  | refl => exact .refl
  | @tail whole part hwhole hstep ih =>
    have hrenews : t.Renews map root whole := ⟨hwhole, hstep.1, .of_part hstep.2 hmentions⟩
    refine (ih hrenews.mentions).tail ⟨?_, ?_⟩
    · exact Substitution.lookup_eq_none_of_le hkeys (h.image_new whole hrenews)
    · rw [h.get_image whole hrenews]
      have hparts : ((t.get whole).mapParts image).parts = (t.get whole).parts.map image :=
        Descriptor.parts_mapParts image _
      exact hparts ▸ List.mem_map_of_mem hstep.2

/-- Substituting in what a table shows leaves the type under both substitutions, if the later one
replaces nothing that the type itself leads to. -/
theorem Depicts.andThen (h : t.Depicts start map root f name)
    (h' : start.Substituted map' (f root) g t') (hbefore : t.Resembles start) (hclosed : t.Closed)
    (hroot : root.index < t.size) (hkeys : ∀ entry ∈ map', entry.1.index < t.size)
    (hnot : ¬ t.Mentions map' root) : t.Depicts t' (map.andThen g) root (g ∘ f) name := by
  have hsame : ∀ id, (map.andThen g).lookup id = none ↔ map.lookup id = none := fun id => by
    rw [Substitution.lookup_andThen, Option.map_eq_none_iff]
  have hrenews : ∀ id, t.Renews (map.andThen g) root id → t.Renews map root id := fun id hid =>
    hid.congr hsame
  -- an image stays, or there is a copy of it in turn
  have himage : ∀ id, t.Renews map root id → t.size ≤ (g (f id)).index ∧
      (g (f id)).index < t'.size ∧ t'.get (g (f id)) = (start.get (f id)).mapParts g := by
    intro id hid
    have hnew := h.image_new id hid
    by_cases hmentions : start.Mentions map' (f id)
    · have hstays := Substitution.lookup_eq_none_of_le hkeys hnew
      have hagain : start.Renews map' (f root) (f id) :=
        ⟨h.meets_image hkeys hid.meets hid.mentions, hstays, hmentions⟩
      obtain ⟨hlate, hlt⟩ := h'.image_new _ hagain
      exact ⟨hbefore.size_le.trans hlate, hlt, h'.get_image _ hagain⟩
    · rw [h'.image_shared _ hmentions]
      have hlt := h.image_lt id hid
      refine ⟨hnew, h'.grows.lt hlt, ?_⟩
      have hparts : (start.get (f id)).mapParts g = (start.get (f id)).mapParts fun part => part :=
        Descriptor.mapParts_congr fun part hpart => h'.image_shared part fun hpart' =>
          hmentions (.of_part hpart hpart')
      rw [h'.grows.get_eq _ hlt, hparts, Descriptor.mapParts_self, h.get_image id hid]
      rfl
  refine ⟨fun id replacement hreplaced => ?_, fun id hid hshared => ?_,
    fun id hid => (himage id (hrenews id hid)).1, fun id hid => ?_,
    fun id hid => (himage id (hrenews id hid)).2.1⟩
  · rw [Substitution.lookup_andThen, Option.map_eq_some_iff] at hreplaced
    obtain ⟨argument, hargument, rfl⟩ := hreplaced
    rw [Function.comp_apply, h.image_replaced id argument hargument]
  · have hid' : t.Meets map root id := hid.mono fun id => (hsame id).mp
    have hshared' : ¬ t.Mentions map id := by
      rintro ⟨last, replacement, hleads, hreplaced⟩
      refine hshared ⟨last, g replacement, hleads, ?_⟩
      rw [Substitution.lookup_andThen, hreplaced, Option.map_some]
    have hlt := hclosed.lt_of_leads hroot hid.leads
    rw [Function.comp_apply, h.image_shared id hid' hshared', h'.image_shared id]
    rw [hbefore.mentions_iff hclosed hlt]
    exact fun hmentions => hnot (hmentions.of_leads hid.leads)
  · rw [Function.comp_apply, (himage id (hrenews id hid)).2.2, h.get_image id (hrenews id hid)]
    exact congrArg (fun d : Descriptor => { d with name := name id })
      (Descriptor.mapParts_mapParts f g (t.get id))

variable {template : TypeId} {arguments arguments' : List TypeId}

/-- Filling in a template is a substitution, after which the image of the template gets a name if it is
another type and the template has one. -/
theorem instantiate_named (hstart : start.Closed) (htemplate : template.index < start.size)
    (harguments : ∀ argument ∈ arguments, argument.index < start.size) :
    Ends (Tabling.instantiate template arguments) start fun result t' => ∃ image t'',
      result = image template ∧
      start.Substituted (start.replacements template arguments) template image t'' ∧
      ((image template = template ∨ (start.get template).name = none) ∧ t' = t'' ∨
        image template ≠ template ∧ (start.get template).name ≠ none ∧
          t' = t''.update (image template) fun d =>
            { d with name := start.instanceName template (arguments.map start.display) }) := by
  rw [Tabling.instantiate, ends_bind_iff, ends_get_iff, ends_bind_iff]
  refine (substitute_substituted hstart htemplate _).mono ?_
  rintro result t'' ⟨image, rfl, h⟩
  have hname : (t''.get template).name = (start.get template).name := by
    rw [h.grows.get_eq template htemplate]
  have hshown : arguments.map t''.display = arguments.map start.display :=
    List.map_congr_left fun argument hargument =>
      h.grows.display_eq hstart (harguments argument hargument)
  split
  · next hchanged =>
    rw [ends_bind_iff, ends_get_iff, hname]
    cases hsome : (start.get template).name with
    | none => exact ⟨image, t'', rfl, h, .inl ⟨.inr rfl, rfl⟩⟩
    | some name =>
      refine ⟨image, t'', rfl, h, .inr ⟨bne_iff_ne.mp hchanged, Option.some_ne_none name, ?_⟩⟩
      rw [instanceName, hsome, ← hshown]
      rfl
  · next hsame =>
    exact ⟨image, t'', rfl, h, .inl ⟨.inl (by simpa using hsame), rfl⟩⟩

/-- Filling in a template leaves a table that shows it. Its image is called after the template and
what was filled in. The types that there were are as before, unless the template leaves itself open:
what is filled in for it is then called so. -/
theorem instantiate_depicts (hclosed : t.Closed) (htemplate : template.index < t.size)
    (hbefore : t.Extends start) (hstart : start.Closed)
    (harguments : ∀ argument ∈ arguments, argument.index < start.size) :
    Ends (Tabling.instantiate template arguments) start fun result t' => ∃ image,
      result = image template ∧ result.index < t'.size ∧ t'.Closed ∧ start.Resembles t' ∧
      t.Depicts t' (t.replacements template arguments) template image (fun id =>
        if id = template then t.instanceName template (arguments.map start.display)
        else (t.get id).name) ∧
      ((t.get template).name = none ∨ (t.replacements template arguments).lookup template = none →
        start.Extends t') := by
  have htemplate' := hbefore.lt htemplate
  have hmap : ∀ entry ∈ t.replacements template arguments, entry.2.index < start.size :=
    fun entry hentry => harguments _ (mem_arguments_of_mem_replacements hentry)
  refine (instantiate_named hstart htemplate' harguments).mono ?_
  rintro _ t' ⟨image, t'', rfl, h, hnamed⟩
  rw [hbefore.resembles.replacements_eq htemplate] at h
  rw [instanceName, hbefore.get_eq template htemplate, ← instanceName] at hnamed
  have hclosed'' := h.closed hstart htemplate' hmap
  have hlt := h.image_lt hstart htemplate' hmap .refl
  have hdepicts := h.depicts hbefore.resembles hclosed htemplate .refl
  have hrenews : ∀ id, t.Renews (t.replacements template arguments) template id → id.index < t.size ∧
      start.Renews (t.replacements template arguments) template id := fun id hid => by
    have hlt := hclosed.lt_of_leads htemplate hid.meets.leads
    exact ⟨hlt, hbefore.resembles.meets hclosed htemplate hid.meets, hid.stays,
      (hbefore.resembles.mentions_iff hclosed hlt).mpr hid.mentions⟩
  have hname : ∀ id, t.Renews (t.replacements template arguments) template id →
      (start.get id).name = (t.get id).name := fun id hid => by
    rw [hbefore.get_eq id (hrenews id hid).1]
  rcases hnamed with ⟨hsame, rfl⟩ | ⟨hne, hsome, rfl⟩
  · refine ⟨image, rfl, hlt, hclosed'', h.grows.resembles, ?_, fun _ => h.grows⟩
    refine { hdepicts with get_image := fun id hid => ?_ }
    rw [hdepicts.get_image id hid, hname id hid]
    by_cases heq : id = template
    · rcases hsame with hsame | hnone
      · have hnew := hdepicts.image_new template hid.top
        rw [hsame] at hnew
        exact absurd htemplate (Nat.not_lt_of_le hnew)
      · rw [if_pos heq, heq, instanceName, hnone]
        rfl
    · rw [if_neg heq]
  · have hrename := Resembles.rename t'' (image template)
      (t.instanceName template (arguments.map start.display))
    refine ⟨image, rfl, hrename.lt hlt, hclosed''.update fun part hpart =>
      hclosed'' (image template) part hpart, h.grows.resembles.trans hrename, ?_, fun hsafe => ?_⟩
    · refine { hdepicts with
        get_image := fun id hid => ?_, image_lt := fun id hid => hrename.lt (hdepicts.image_lt id hid) }
      by_cases heq : id = template
      · rw [if_pos heq, heq, get_update_self t'' _ hlt, hdepicts.get_image template hid.top]
      · have hother : image id ≠ image template := fun himage =>
          heq (h.image_injective id template (hrenews id hid).2 (hrenews _ hid.top).2 himage)
        rw [if_neg heq, get_update_of_ne t'' _ hother, hdepicts.get_image id hid, hname id hid]
    · have hmentions : start.Mentions (t.replacements template arguments) template := by
        by_contra hnot
        exact hne (h.image_shared template hnot)
      have hnew := h.image_new template ⟨.refl, hsafe.resolve_left hsome, hmentions⟩
      exact h.grows.update hnew.1 _

/-- Substituting in one type after the other leaves a table that shows all of them. -/
theorem substituteAll_depicts (hclosed : t.Closed)
    (harguments : ∀ argument ∈ arguments, argument.index < t.size)
    (hmap : ∀ entry ∈ map, entry.2.index < t.size) (hbefore : t.Extends start)
    (hstart : start.Closed) :
    Ends (arguments.mapM (Tabling.substitute · map)) start fun arguments' t' =>
      t'.Closed ∧ start.Extends t' ∧ (∀ argument' ∈ arguments', argument'.index < t'.size) ∧
        List.Forall₂ (fun argument argument' => ∃ image, argument' = image argument ∧
          t.Depicts t' map argument image fun id => (t.get id).name) arguments arguments' := by
  let inv (done results : List TypeId) (t' : TypeTable) : Prop :=
    t'.Closed ∧ start.Extends t' ∧ (∀ argument' ∈ results, argument'.index < t'.size) ∧
      List.Forall₂ (fun argument argument' => ∃ image, argument' = image argument ∧
        t.Depicts t' map argument image fun id => (t.get id).name) done results
  have hnone : inv [] [] start := ⟨hstart, .refl start, List.forall_mem_nil _, .nil⟩
  refine ends_mapM (fun done argument hargument results s hs => ?_) hnone
  obtain ⟨hs, hgrows, hresults, hdone⟩ := hs
  have hlt := harguments argument hargument
  have hbefore' := hbefore.trans hgrows
  refine (substitute_substituted hs (hbefore'.lt hlt) map).mono ?_
  rintro result s' ⟨image, rfl, h⟩
  have hmap' : ∀ entry ∈ map, entry.2.index < s.size := fun entry hentry =>
    hbefore'.lt (hmap entry hentry)
  refine ⟨h.closed hs (hbefore'.lt hlt) hmap', hgrows.trans h.grows,
    List.forall_mem_append.mpr ⟨fun id hid => h.grows.lt (hresults id hid),
      List.forall_mem_singleton.mpr (h.image_lt hs (hbefore'.lt hlt) hmap' .refl)⟩,
    List.rel_append ?_ (.cons ⟨image, rfl, ?_⟩ .nil)⟩
  · refine hdone.imp ?_
    rintro earlier _ ⟨image', rfl, hdepicts⟩
    exact ⟨image', rfl, hdepicts.extend h.grows⟩
  · have hdepicts := h.depicts hbefore'.resembles hclosed hlt .refl
    refine { hdepicts with get_image := fun id hid => ?_ }
    rw [hdepicts.get_image id hid, hbefore'.get_eq id (hclosed.lt_of_leads hlt hid.meets.leads)]

/-- What a template is filled in with, looked up in two lists of arguments that are related one by
one. -/
theorem lookup_replacements_of_forall₂ {P : TypeId → TypeId → Prop}
    (h : List.Forall₂ P arguments arguments') (t : TypeTable) (template id : TypeId) :
    (t.replacements template arguments).lookup id = none ∧
        (t.replacements template arguments').lookup id = none ∨
      ∃ x y, (t.replacements template arguments).lookup id = some x ∧
        (t.replacements template arguments').lookup id = some y ∧ P x y := by
  refine lookup_of_forall₂ (List.rel_reverse ?_) id
  generalize (t.get template).params = params
  induction h generalizing params with
  | nil => simp
  | cons head _ ih =>
    cases params with
    | nil => exact .nil
    | cons param params => exact .cons ⟨rfl, head⟩ (ih params)

/-- A type is what another one comes to under a substitution. Where names count, its copies go by the
names of what they are copies of. -/
def CopiedTo (t t' : TypeTable) (map : Substitution) (named : Prop) (id copy : TypeId) : Prop :=
  ∃ image name, copy = image id ∧ (named → name = fun id => (t.get id).name) ∧
    t.Depicts t' map id image name

theorem Depicts.copiedTo {map : Substitution}
    (h : t.Depicts t' map id image fun id => (t.get id).name) (hlater : t'.Resembles t'')
    (hnamed : named → t'.Extends t'') : t.CopiedTo t'' map named id (image id) := by
  obtain ⟨name', hname', h'⟩ := h.resembles hlater hnamed
  exact ⟨image, name', rfl, hname', h'⟩

section

variable {s₁ u₁ : TypeTable} {filling filling' : Substitution} {argument argument' : TypeId}
  (hclosed : t.Closed) (hmap : ∀ entry ∈ map, entry.1.index < t.size ∧ entry.2.index < t.size)
  (hfilled : t.Depicts s₁ filling root f name) (hbefore : t.Resembles s₁)
  (hnamed : named → t.Extends s₁) (houter : s₁.Substituted map (f root) g u₁)
  (hlater : u₁.Extends t₁) (hself : ∀ id, id.index < t.size → t.Alike t₁ t₂ named id id)

include hclosed hmap hfilled hbefore hnamed houter hlater hself

/-- What a type was filled in with comes to the same under a substitution, as part of the whole and
on its own. -/
theorem Depicts.alike_argument (hid : t.Meets filling root id)
    (hargument : filling.lookup id = some argument) (hlt : argument.index < t.size)
    (hcopied : t.CopiedTo t₂ map named argument argument') :
    t.Alike t₁ t₂ named (g argument) argument' := by
  obtain ⟨copy, name', rfl, hname', halone⟩ := hcopied
  have hmeets := hfilled.meets_image (fun entry hentry => (hmap entry hentry).1) hid
    (mentions_of_lookup_eq_some hargument)
  rw [hfilled.image_replaced id argument hargument] at hmeets
  have hinside := (houter.depicts hbefore hclosed hlt hmeets).extend hlater
  have hmet : ∀ id, t.Meets map argument id → id.index < t.size := fun id hid =>
    hclosed.lt_of_leads hlt hid.leads
  refine hinside.alike halone (fun id hid => hself id (hmet id hid)) (fun h id hid => ?_) ?_
  · rw [hname' h, (hnamed h).get_eq id (hmet id hid.meets)]
  · intro id
    cases hreplaced : map.lookup id with
    | none => exact .inl ⟨rfl, rfl⟩
    | some replacement =>
      exact .inr ⟨replacement, replacement, rfl, rfl, fun _ =>
        hself replacement (hmap _ (mem_of_lookup_eq_some hreplaced)).2⟩

/-- A type that was filled in comes to the same under a substitution as the type filled in with what
the substitution makes of its arguments, if nothing is replaced that the type itself leads to. -/
theorem Depicts.alike_filled (hroot : root.index < t.size) (hnot : ¬ t.Mentions map root)
    (himage : t.Depicts t₂ filling' root image name')
    (hnames : named → ∀ id, t.Renews filling root id → name id = name' id)
    (harguments : ∀ id, filling.lookup id = none ∧ filling'.lookup id = none ∨
      ∃ argument argument', filling.lookup id = some argument ∧
        filling'.lookup id = some argument' ∧ argument.index < t.size ∧
        t.CopiedTo t₂ map named argument argument') :
    t.Alike t₁ t₂ named (g (f root)) (image root) := by
  have hleft := (hfilled.andThen houter hbefore hclosed hroot
    (fun entry hentry => (hmap entry hentry).1) hnot).extend hlater
  have hsame : ∀ id, (filling.andThen g).lookup id = none ↔ filling.lookup id = none := fun id => by
    rw [Substitution.lookup_andThen, Option.map_eq_none_iff]
  refine hleft.alike himage (fun id hid => hself id (hclosed.lt_of_leads hroot hid.leads))
    (fun h id hid => hnames h id (hid.congr hsame)) fun id => ?_
  rw [Substitution.lookup_andThen]
  rcases harguments id with ⟨hnone, hnone'⟩ | ⟨argument, argument', hsome, hsome', hlt, hcopied⟩
  · exact .inl ⟨by rw [hnone, Option.map_none], hnone'⟩
  · refine .inr ⟨g argument, argument', by rw [hsome, Option.map_some], hsome', fun hid => ?_⟩
    exact hfilled.alike_argument hclosed hmap hbefore hnamed houter hlater hself
      (hid.mono fun id => (hsame id).mp) hsome hlt hcopied

end

/-- Substituting in an instance of a template comes to the same structure as substituting in what the
template is filled in with, if nothing is replaced that the template itself leads to. Both are written
alike as well if the template has no name, or if it does not leave itself open and all that it is filled
in with is written as before: an instance is called after what it was filled in with, and a copy of it
goes by the same name. -/
theorem Closed.substitute_instance (hclosed : t.Closed) (htemplate : template.index < t.size)
    (harguments : ∀ argument ∈ arguments, argument.index < t.size)
    (hmap : ∀ entry ∈ map, entry.1.index < t.size ∧ entry.2.index < t.size)
    (hnot : ¬ t.Mentions map template) (h₁ : t.Extends t₁) (hclosed₁ : t₁.Closed)
    (h₂ : t.Extends t₂) (hclosed₂ : t₂.Closed) :
    ∃ x u₁ arguments' s₂ y u₂,
      (do let filled ← Tabling.instantiate template arguments; Tabling.substitute filled map) t₁ =
        .ok (x, u₁) ∧
      arguments.mapM (Tabling.substitute · map) t₂ = .ok (arguments', s₂) ∧
      Tabling.instantiate template arguments' s₂ = .ok (y, u₂) ∧
      ∀ v₁ v₂, u₁.Extends v₁ → u₂.Extends v₂ → t.SameStructure v₁ v₂ x y ∧
        ((t.get template).name = none ∨
          (t.replacements template arguments).lookup template = none ∧
            arguments'.map s₂.display = arguments.map t.display →
          v₁.display x = v₂.display y) := by
  obtain ⟨_, s₁, hfill, inner, rfl, hinstance, hclosedS₁, hsame₁, hinner, hextends₁⟩ :=
    ends_iff.mp (instantiate_depicts hclosed htemplate h₁ hclosed₁ fun argument hargument =>
      h₁.lt (harguments argument hargument))
  obtain ⟨_, u₁, hput, outer, rfl, houter⟩ :=
    ends_iff.mp (substitute_substituted hclosedS₁ hinstance map)
  obtain ⟨arguments', s₂, hputs, hclosedS₂, hgrows₂, hlt', hcopies⟩ := ends_iff.mp
    (substituteAll_depicts hclosed harguments (fun entry hentry => (hmap entry hentry).2) h₂ hclosed₂)
  obtain ⟨_, u₂, hfill', image, rfl, -, -, hsame₂, himage, hextends₂⟩ := ends_iff.mp
    (instantiate_depicts hclosed htemplate (h₂.trans hgrows₂) hclosedS₂ hlt')
  refine ⟨outer (inner template), u₁, arguments', s₂, image template, u₂, ?_, hputs, hfill',
    fun v₁ v₂ hv₁ hv₂ => ?_⟩
  · change (Tabling.instantiate template arguments t₁ >>= fun p => Tabling.substitute p.1 map p.2) = _
    rw [hfill]
    exact hput
  have hbefore₁ : t.Resembles s₁ := h₁.resembles.trans hsame₁
  have hbefore₂ : t.Extends s₂ := h₂.trans hgrows₂
  have hafter₁ : s₁.Extends v₁ := houter.grows.trans hv₁
  have hafter₂ : s₂.Resembles v₂ := hsame₂.trans hv₂.resembles
  have hlookup := lookup_replacements_of_forall₂ hcopies t template
  generalize hsafe : ((t.get template).name = none ∨
    (t.replacements template arguments).lookup template = none ∧
      arguments'.map s₂.display = arguments.map t.display) = safe
  have hnamed₁ : safe → t.Extends s₁ := fun h => by
    rw [← hsafe] at h
    exact h₁.trans (hextends₁ (h.imp_right And.left))
  have hnamed₂ : safe → s₂.Extends v₂ := fun h => by
    rw [← hsafe] at h
    refine (hextends₂ (h.imp_right fun h => ?_)).trans hv₂
    rcases hlookup template with ⟨-, hnone'⟩ | ⟨x, _, hsome, -⟩
    · exact hnone'
    · exact absurd (h.1.symm.trans hsome) (Option.some_ne_none x).symm
  have halike : t.Alike v₁ v₂ safe (outer (inner template)) (image template) := by
    refine hinner.alike_filled hclosed hmap hbefore₁ hnamed₁ houter hv₁ (fun id hid => ?_) htemplate
      hnot (himage.extend hv₂) (fun h id _ => ?_) fun id => (hlookup id).imp_right ?_
    · exact alike_self hclosed (hbefore₁.trans hafter₁.resembles) (hbefore₂.resembles.trans hafter₂)
        (fun h => ⟨(hnamed₁ h).trans hafter₁, hbefore₂.trans (hnamed₂ h)⟩) hid
    · -- an instance is called after what its arguments are called
      have hshown : arguments.map t₁.display = arguments.map t.display :=
        List.map_congr_left fun argument hargument =>
          h₁.display_eq hclosed (harguments argument hargument)
      rw [← hsafe] at h
      rw [hshown]
      rcases h with hnone | ⟨-, hsame⟩
      · simp only [instanceName, hnone, Option.map_none]
      · rw [hsame]
    · rintro ⟨argument, _, hfilled, hfilled', copy, rfl, hcopy⟩
      exact ⟨argument, copy argument, hfilled, hfilled',
        harguments _ (mem_arguments_of_mem_replacements (mem_of_lookup_eq_some hfilled)),
        hcopy.copiedTo hafter₂ hnamed₂⟩
  exact ⟨halike.sameStructure, fun h => halike.display_eq (hsafe ▸ h)⟩

/-- Two wildcards, numbers and texts, and a template of pairs that leaves just the first wildcard
open. -/
def openPairs : TypeTable where
  types := #[{ name := some "$A", shape := .wildcard }, { name := some "$B", shape := .wildcard },
    { name := some "Number" }, { name := some "String" },
    { shape := .compound [⟨"?0", ⟨0⟩, false⟩, ⟨"?1", ⟨1⟩, false⟩], params := [⟨0⟩] }]
  unions := []

/-- It is not enough that none of what the template leaves open is replaced. What it leads to besides
is replaced in an instance, but not in what it is filled in with. -/
theorem not_sameStructure_openPairs :
    (openPairs.get ⟨4⟩).params = [⟨0⟩] ∧ ([(⟨1⟩, ⟨3⟩)] : Substitution).lookup ⟨0⟩ = none ∧
      ∃ x u₁ y u₂,
        (do let filled ← Tabling.instantiate ⟨4⟩ [⟨2⟩]; Tabling.substitute filled [(⟨1⟩, ⟨3⟩)])
          openPairs = .ok (x, u₁) ∧
        (do let arguments' ← [(⟨2⟩ : TypeId)].mapM (Tabling.substitute · [(⟨1⟩, ⟨3⟩)])
            Tabling.instantiate ⟨4⟩ arguments') openPairs = .ok (y, u₂) ∧
        u₁.display x = "(Number, String)" ∧ u₂.display y = "(Number, $B)" ∧
        ¬ openPairs.SameStructure u₁ u₂ x y := by
  refine ⟨rfl, rfl, _, _, _, _, rfl, rfl, by decide +kernel, by decide +kernel, ?_⟩
  rintro ⟨R, hR, hpair⟩
  have hshape := (hR _ _ hpair).1.shape
  change Shape.Matches R (.compound [⟨"?0", ⟨2⟩, false⟩, ⟨"?1", ⟨3⟩, false⟩])
    (.compound [⟨"?0", ⟨2⟩, false⟩, ⟨"?1", ⟨1⟩, false⟩]) at hshape
  cases hshape with
  | compound hfields =>
    rw [List.forall₂_cons, List.forall₂_cons] at hfields
    obtain ⟨-, ⟨-, -, hlast⟩, -⟩ := hfields
    exact absurd ((hR _ _ hlast).2.2 (.inl (by decide))) (by decide)

/-- Two wildcards, numbers, and a template called `Box` of the first wildcard. -/
def namedBoxes : TypeTable where
  types := #[{ name := some "$A", shape := .wildcard }, { name := some "$B", shape := .wildcard },
    { name := some "Number" },
    { name := some "Box", shape := .compound [⟨"?0", ⟨0⟩, false⟩], params := [⟨0⟩] }]
  unions := []

/-- Two types of the same structure need not be written alike if the template has a name. The copy of
an instance goes by the name that the instance got, which tells what was filled in before. -/
theorem display_ne_namedBoxes : ¬ namedBoxes.Mentions [(⟨1⟩, ⟨2⟩)] ⟨3⟩ ∧
    ∃ x u₁ y u₂,
      (do let filled ← Tabling.instantiate ⟨3⟩ [⟨1⟩]; Tabling.substitute filled [(⟨1⟩, ⟨2⟩)])
        namedBoxes = .ok (x, u₁) ∧
      (do let arguments' ← [(⟨1⟩ : TypeId)].mapM (Tabling.substitute · [(⟨1⟩, ⟨2⟩)])
          Tabling.instantiate ⟨3⟩ arguments') namedBoxes = .ok (y, u₂) ∧
      namedBoxes.SameStructure u₁ u₂ x y ∧
      u₁.display x = "Box($B)" ∧ u₂.display y = "Box(Number)" := by
  have hclosed : namedBoxes.Closed := closed_iff.mpr (by decide)
  refine ⟨?_, ⟨5⟩, _, ⟨4⟩, _, rfl, rfl, ?_, by decide +kernel, by decide +kernel⟩
  · rw [← (Extends.refl namedBoxes).mentions_iff hclosed (by decide)]
    decide +kernel
  -- the numbers that both boxes hold are paired with themselves
  · refine ⟨fun x y => x = ⟨5⟩ ∧ y = ⟨4⟩ ∨ x = ⟨2⟩ ∧ y = ⟨2⟩, ?_, .inl ⟨rfl, rfl⟩⟩
    rintro x y (⟨rfl, rfl⟩ | ⟨rfl, rfl⟩)
    · exact ⟨⟨.compound (.cons ⟨rfl, rfl, .inr ⟨rfl, rfl⟩⟩ .nil), .nil, .nil, rfl, .nil⟩,
        False.elim, by decide⟩
    · exact ⟨⟨.plain nofun, .nil, .nil, rfl, .nil⟩, False.elim, fun _ => rfl⟩

/-- Two wildcards, numbers, a template of lists of the first wildcard, and a box of the second. -/
def boxedLists : TypeTable where
  types := #[{ name := some "$A", shape := .wildcard }, { name := some "$B", shape := .wildcard },
    { name := some "Number" },
    { shape := .compound [⟨"first", ⟨0⟩, false⟩, ⟨"rest", ⟨3⟩, true⟩], params := [⟨0⟩] },
    { shape := .compound [⟨"?0", ⟨1⟩, false⟩] }]
  unions := []

theorem substitute_instance_boxedLists :
    boxedLists.Closed ∧ ¬ boxedLists.Mentions [(⟨1⟩, ⟨2⟩)] ⟨3⟩ ∧
      ∃ x u₁ arguments' s₂ y u₂,
        (do let filled ← Tabling.instantiate ⟨3⟩ [⟨4⟩]; Tabling.substitute filled [(⟨1⟩, ⟨2⟩)])
          boxedLists = .ok (x, u₁) ∧
        [(⟨4⟩ : TypeId)].mapM (Tabling.substitute · [(⟨1⟩, ⟨2⟩)]) boxedLists = .ok (arguments', s₂) ∧
        Tabling.instantiate ⟨3⟩ arguments' s₂ = .ok (y, u₂) ∧
        boxedLists.SameStructure u₁ u₂ x y ∧ u₁.display x = u₂.display y := by
  have hclosed : boxedLists.Closed := closed_iff.mpr (by decide)
  have hnot : ¬ boxedLists.Mentions [(⟨1⟩, ⟨2⟩)] ⟨3⟩ := by
    rw [← (Extends.refl boxedLists).mentions_iff hclosed (by decide)]
    decide +kernel
  have hbox : ∀ argument ∈ [(⟨4⟩ : TypeId)], argument.index < boxedLists.size := by decide
  obtain ⟨x, u₁, arguments', s₂, y, u₂, hleft, harguments, hright, h⟩ := hclosed.substitute_instance
    (by decide) hbox (by decide) hnot (.refl _) hclosed (.refl _) hclosed
  obtain ⟨hsame, hshown⟩ := h u₁ u₂ (.refl _) (.refl _)
  exact ⟨hclosed, hnot, x, u₁, arguments', s₂, y, u₂, hleft, harguments, hright, hsame,
    hshown (.inl rfl)⟩

end TypeTable

end

end MessageLang
