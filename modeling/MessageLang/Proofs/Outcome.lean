import MessageLang.Fault

namespace MessageLang

section

variable {σ α β : Type}

/-- A step ends without a fault, and its result and the state after it are as said. -/
def Ends (step : StateT σ (Except Fault) α) (s : σ) (post : α → σ → Prop) : Prop :=
  match step s with
  | .ok (r, s') => post r s'
  | .error _ => False

theorem ends_iff {step : StateT σ (Except Fault) α} {s : σ} {post : α → σ → Prop} :
    Ends step s post ↔ ∃ r s', step s = .ok (r, s') ∧ post r s' := by
  unfold Ends
  constructor
  · intro h
    split at h
    · next r s' hrun => exact ⟨r, s', hrun, h⟩
    · exact h.elim
  · rintro ⟨r, s', hrun, hpost⟩
    rw [hrun]
    exact hpost

theorem Ends.mono {step : StateT σ (Except Fault) α} {s : σ} {post post' : α → σ → Prop}
    (h : Ends step s post) (himp : ∀ r s', post r s' → post' r s') : Ends step s post' := by
  obtain ⟨r, s', hrun, hpost⟩ := ends_iff.mp h
  exact ends_iff.mpr ⟨r, s', hrun, himp r s' hpost⟩

@[simp]
theorem ends_bind_iff {step : StateT σ (Except Fault) α} {next : α → StateT σ (Except Fault) β}
    {s : σ} {post : β → σ → Prop} :
    Ends (step >>= next) s post ↔ Ends step s fun r s' => Ends (next r) s' post := by
  simp only [Ends, bind, StateT.bind, Except.bind]
  cases step s <;> rfl

/-- A step followed by another: what the first one ensures is all that the second one needs. -/
theorem Ends.bind {step : StateT σ (Except Fault) α} {next : α → StateT σ (Except Fault) β}
    {s : σ} {mid : α → σ → Prop} {post : β → σ → Prop} (h : Ends step s mid)
    (hnext : ∀ r s', mid r s' → Ends (next r) s' post) : Ends (step >>= next) s post :=
  ends_bind_iff.mpr (h.mono hnext)

@[simp]
theorem ends_pure_iff {r : α} {s : σ} {post : α → σ → Prop} :
    Ends (pure r : StateT σ (Except Fault) α) s post ↔ post r s := .rfl

@[simp]
theorem ends_map_iff {step : StateT σ (Except Fault) α} {f : α → β} {s : σ} {post : β → σ → Prop} :
    Ends (f <$> step) s post ↔ Ends step s fun r s' => post (f r) s' := by
  simp only [Ends, Functor.map, StateT.map, bind, Except.bind]
  cases step s <;> rfl

@[simp]
theorem ends_get_iff {s : σ} {post : σ → σ → Prop} :
    Ends (get : StateT σ (Except Fault) σ) s post ↔ post s s := .rfl

@[simp]
theorem ends_set_iff {s new : σ} {post : PUnit → σ → Prop} :
    Ends (set new : StateT σ (Except Fault) PUnit) s post ↔ post ⟨⟩ new := .rfl

@[simp]
theorem ends_modify_iff {change : σ → σ} {s : σ} {post : PUnit → σ → Prop} :
    Ends (modify change : StateT σ (Except Fault) PUnit) s post ↔ post ⟨⟩ (change s) := .rfl

@[simp]
theorem ends_modifyGet_iff {change : σ → α × σ} {s : σ} {post : α → σ → Prop} :
    Ends (modifyGet change : StateT σ (Except Fault) α) s post ↔
      post (change s).1 (change s).2 := .rfl

/-- Going through a list. What holds depends on which items are behind and what they gave. -/
theorem ends_mapM_of_split {items : List α} {step : α → StateT σ (Except Fault) β}
    {inv : List α → List β → σ → Prop} {s : σ}
    (hstep : ∀ done item rest, items = done ++ item :: rest → ∀ results s, inv done results s →
      Ends (step item) s fun result s' => inv (done ++ [item]) (results ++ [result]) s')
    (h : inv [] [] s) : Ends (items.mapM step) s (inv items) := by
  suffices hrest : ∀ (rest done : List α) (results : List β) (s : σ), items = done ++ rest →
      inv done results s →
        Ends (rest.mapM step) s fun more s' => inv items (results ++ more) s' from
    hrest items [] [] s rfl h
  intro rest
  induction rest with
  | nil =>
    intro done results s heq h
    simpa [heq] using h
  | cons item rest ih =>
    intro done results s heq h
    rw [List.mapM_cons, ends_bind_iff]
    refine (hstep done item rest heq results s h).mono fun result s' h' => ?_
    rw [ends_bind_iff]
    refine (ih _ _ s' (by simp [heq]) h').mono ?_
    intro more s'' h''
    rw [ends_pure_iff]
    simpa using h''

theorem ends_mapM {items : List α} {step : α → StateT σ (Except Fault) β}
    {inv : List α → List β → σ → Prop} {s : σ}
    (hstep : ∀ done, ∀ item ∈ items, ∀ results s, inv done results s →
      Ends (step item) s fun result s' => inv (done ++ [item]) (results ++ [result]) s')
    (h : inv [] [] s) : Ends (items.mapM step) s (inv items) :=
  ends_mapM_of_split (fun done item _ heq => hstep done item (by simp [heq])) h

theorem ends_forM_of_split {items : List α} {step : α → StateT σ (Except Fault) PUnit}
    {inv : List α → σ → Prop} {s : σ}
    (hstep : ∀ done item rest, items = done ++ item :: rest → ∀ s, inv done s →
      Ends (step item) s fun _ s' => inv (done ++ [item]) s')
    (h : inv [] s) : Ends (items.forM step) s fun _ => inv items := by
  suffices hrest : ∀ (rest done : List α) (s : σ), items = done ++ rest →
      inv done s → Ends (rest.forM step) s fun _ => inv items from hrest items [] s rfl h
  intro rest
  induction rest with
  | nil =>
    intro done s heq h
    simpa [heq] using h
  | cons item rest ih =>
    intro done s heq h
    rw [List.forM, ends_bind_iff]
    refine (hstep done item rest heq s h).mono fun _ s' h' => ?_
    exact ih _ s' (by simp [heq]) h'

theorem ends_forM {items : List α} {step : α → StateT σ (Except Fault) PUnit}
    {inv : List α → σ → Prop} {s : σ}
    (hstep : ∀ done, ∀ item ∈ items, ∀ s, inv done s →
      Ends (step item) s fun _ s' => inv (done ++ [item]) s')
    (h : inv [] s) : Ends (items.forM step) s fun _ => inv items :=
  ends_forM_of_split (fun done item _ heq => hstep done item (by simp [heq])) h

/-- A loop that is never left early. -/
theorem ends_forIn_of_split {items : List α}
    {step : α → PUnit → StateT σ (Except Fault) (ForInStep PUnit)} {inv : List α → σ → Prop} {s : σ}
    (hstep : ∀ done item rest, items = done ++ item :: rest → ∀ s, inv done s →
      Ends (step item ⟨⟩) s fun next s' => next = .yield ⟨⟩ ∧ inv (done ++ [item]) s')
    (h : inv [] s) : Ends (forIn items PUnit.unit step) s fun _ => inv items := by
  suffices hrest : ∀ (rest done : List α) (s : σ), items = done ++ rest →
      inv done s → Ends (forIn rest PUnit.unit step) s fun _ => inv items from
    hrest items [] s rfl h
  intro rest
  induction rest with
  | nil =>
    intro done s heq h
    simpa [heq] using h
  | cons item rest ih =>
    intro done s heq h
    rw [List.forIn_cons, ends_bind_iff]
    refine (hstep done item rest heq s h).mono ?_
    rintro _ s' ⟨rfl, h'⟩
    exact ih _ s' (by simp [heq]) h'

theorem ends_forIn {items : List α} {step : α → PUnit → StateT σ (Except Fault) (ForInStep PUnit)}
    {inv : List α → σ → Prop} {s : σ}
    (hstep : ∀ done, ∀ item ∈ items, ∀ s, inv done s →
      Ends (step item ⟨⟩) s fun next s' => next = .yield ⟨⟩ ∧ inv (done ++ [item]) s')
    (h : inv [] s) : Ends (forIn items PUnit.unit step) s fun _ => inv items :=
  ends_forIn_of_split (fun done item _ heq => hstep done item (by simp [heq])) h

end

section

variable {σ α β : Type} {step : StateT σ (Except Fault) α}
  {next : α → StateT σ (Except Fault) β} {s : σ}

/-- If a step ends without a fault, its result and the state after it are as said. -/
def After (step : StateT σ (Except Fault) α) (s : σ) (post : α → σ → Prop) : Prop :=
  ∀ r s', step s = .ok (r, s') → post r s'

theorem After.mono {post post' : α → σ → Prop} (h : After step s post)
    (himp : ∀ r s', post r s' → post' r s') : After step s post' :=
  fun r s' hrun => himp r s' (h r s' hrun)

theorem Ends.after {post : α → σ → Prop} (h : Ends step s post) : After step s post := by
  intro r s' hrun
  obtain ⟨_, _, hrun', hpost⟩ := ends_iff.mp h
  cases hrun.symm.trans hrun'
  exact hpost

/-- What a step comes to has all that holds of it whenever it ends. -/
theorem Ends.and_after {post post' : α → σ → Prop} (h : Ends step s post)
    (hafter : After step s post') : Ends step s fun r s' => post r s' ∧ post' r s' := by
  obtain ⟨r, s', hrun, hpost⟩ := ends_iff.mp h
  exact ends_iff.mpr ⟨r, s', hrun, hpost, hafter r s' hrun⟩

@[simp]
theorem after_bind_iff {post : β → σ → Prop} :
    After (step >>= next) s post ↔ After step s fun r s' => After (next r) s' post := by
  simp only [After, bind, StateT.bind, Except.bind]
  cases step s with
  | error _ => simp
  | ok result =>
    obtain ⟨r, s'⟩ := result
    refine ⟨fun h r' s'' heq => ?_, fun h => h r s' rfl⟩
    cases heq
    exact h

/-- A step followed by another, after what is said of the first one. -/
theorem After.bind {mid : α → σ → Prop} {post : β → σ → Prop} (h : After step s mid)
    (hnext : ∀ r s', mid r s' → After (next r) s' post) : After (step >>= next) s post :=
  after_bind_iff.mpr (h.mono hnext)

@[simp]
theorem after_pure_iff {r : α} {post : α → σ → Prop} :
    After (pure r : StateT σ (Except Fault) α) s post ↔ post r s := by
  refine ⟨fun h => h r s rfl, fun h r' s' hrun => ?_⟩
  cases hrun
  exact h

@[simp]
theorem after_map_iff {f : α → β} {post : β → σ → Prop} :
    After (f <$> step) s post ↔ After step s fun r s' => post (f r) s' := by
  simp only [After, Functor.map, StateT.map, bind, Except.bind]
  cases step s with
  | error _ => simp
  | ok result =>
    obtain ⟨r, s'⟩ := result
    refine ⟨fun h r' s'' heq => ?_, fun h r' s'' heq => ?_⟩
    · cases heq
      exact h _ _ rfl
    · cases heq
      exact h _ _ rfl

@[simp]
theorem after_get_iff {post : σ → σ → Prop} :
    After (get : StateT σ (Except Fault) σ) s post ↔ post s s := by
  refine ⟨fun h => h s s rfl, fun h r' s' hrun => ?_⟩
  cases hrun
  exact h

@[simp]
theorem after_set_iff {new : σ} {post : PUnit → σ → Prop} :
    After (set new : StateT σ (Except Fault) PUnit) s post ↔ post ⟨⟩ new := by
  refine ⟨fun h => h _ _ rfl, fun h r' s' hrun => ?_⟩
  cases hrun
  exact h

@[simp]
theorem after_modify_iff {change : σ → σ} {post : PUnit → σ → Prop} :
    After (modify change : StateT σ (Except Fault) PUnit) s post ↔ post ⟨⟩ (change s) := by
  refine ⟨fun h => h _ _ rfl, fun h r' s' hrun => ?_⟩
  cases hrun
  exact h

@[simp]
theorem after_modifyGet_iff {change : σ → α × σ} {post : α → σ → Prop} :
    After (modifyGet change : StateT σ (Except Fault) α) s post ↔
      post (change s).1 (change s).2 := by
  refine ⟨fun h => h _ _ rfl, fun h r' s' hrun => ?_⟩
  have hchange : change s = (r', s') := Except.ok.inj hrun
  rwa [hchange] at h

@[simp]
theorem after_throw {fault : Fault} {post : α → σ → Prop} :
    After (throw fault : StateT σ (Except Fault) α) s post := fun _ _ hrun => nomatch hrun

theorem after_mapM {items : List α} {step : α → StateT σ (Except Fault) β}
    (inv : List α → List β → σ → Prop)
    (hstep : ∀ done, ∀ item ∈ items, ∀ results s, inv done results s →
      After (step item) s fun result s' => inv (done ++ [item]) (results ++ [result]) s')
    (h : inv [] [] s) : After (items.mapM step) s (inv items) := by
  suffices hrest : ∀ (rest done : List α) (results : List β) (s : σ), (∀ item ∈ rest, item ∈ items) →
      inv done results s →
        After (rest.mapM step) s fun more s' => inv (done ++ rest) (results ++ more) s' from
    hrest items [] [] s (fun _ hitem => hitem) h
  intro rest
  induction rest with
  | nil =>
    intro done results s _ h
    simpa using h
  | cons item rest ih =>
    intro done results s hmem h
    rw [List.mapM_cons, after_bind_iff]
    refine (hstep done item (hmem item (by simp)) results s h).mono fun result s' h' => ?_
    rw [after_bind_iff]
    refine (ih _ _ s' (fun other hother => hmem other (by simp [hother])) h').mono ?_
    intro more s'' h''
    rw [after_pure_iff]
    simpa using h''

theorem after_forM {items : List α} {step : α → StateT σ (Except Fault) PUnit}
    (inv : List α → σ → Prop)
    (hstep : ∀ done, ∀ item ∈ items, ∀ s, inv done s →
      After (step item) s fun _ s' => inv (done ++ [item]) s')
    (h : inv [] s) : After (items.forM step) s fun _ => inv items := by
  suffices hrest : ∀ (rest done : List α) (s : σ), (∀ item ∈ rest, item ∈ items) →
      inv done s → After (rest.forM step) s fun _ s' => inv (done ++ rest) s' from
    hrest items [] s (fun _ hitem => hitem) h
  intro rest
  induction rest with
  | nil =>
    intro done s _ h
    simpa using h
  | cons item rest ih =>
    intro done s hmem h
    rw [List.forM, after_bind_iff]
    refine (hstep done item (hmem item (by simp)) s h).mono fun _ s' h' => ?_
    refine (ih _ s' (fun other hother => hmem other (by simp [hother])) h').mono ?_
    intro _ s'' h''
    simpa using h''

theorem after_forIn {items : List α}
    {step : α → PUnit → StateT σ (Except Fault) (ForInStep PUnit)} (inv : List α → σ → Prop)
    (hstep : ∀ done, ∀ item ∈ items, ∀ s, inv done s →
      After (step item ⟨⟩) s fun next s' => next = .yield ⟨⟩ ∧ inv (done ++ [item]) s')
    (h : inv [] s) : After (forIn items PUnit.unit step) s fun _ => inv items := by
  suffices hrest : ∀ (rest done : List α) (s : σ), (∀ item ∈ rest, item ∈ items) →
      inv done s → After (forIn rest PUnit.unit step) s fun _ s' => inv (done ++ rest) s' from
    hrest items [] s (fun _ hitem => hitem) h
  intro rest
  induction rest with
  | nil =>
    intro done s _ h
    simpa using h
  | cons item rest ih =>
    intro done s hmem h
    rw [List.forIn_cons, after_bind_iff]
    refine (hstep done item (hmem item (by simp)) s h).mono ?_
    rintro _ s' ⟨rfl, h'⟩
    refine (ih _ s' (fun other hother => hmem other (by simp [hother])) h').mono ?_
    intro _ s'' h''
    simpa using h''

end

/-- A relation that steps are in if what they are made of one after the other is. -/
structure Sequential {σ : Type}
    (R : ∀ {α : Type}, StateT σ (Except Fault) α → StateT σ (Except Fault) α → Prop) : Prop where
  pure : ∀ {α : Type} (x : α), R (pure x) (pure x)
  seq : ∀ {α β : Type} {step step' : StateT σ (Except Fault) α}
    {next next' : α → StateT σ (Except Fault) β}, R step step' → (∀ x, R (next x) (next' x)) →
      R (step >>= next) (step' >>= next')

namespace Sequential

variable {σ α β : Type}
  {R : ∀ {α : Type}, StateT σ (Except Fault) α → StateT σ (Except Fault) α → Prop}
  (hR : Sequential R)
include hR

theorem mapM {items : List α} {step step' : α → StateT σ (Except Fault) β}
    (h : ∀ item ∈ items, R (step item) (step' item)) : R (items.mapM step) (items.mapM step') := by
  induction items with
  | nil => exact hR.pure _
  | cons item rest ih =>
    obtain ⟨hitem, hrest⟩ := List.forall_mem_cons.mp h
    rw [List.mapM_cons, List.mapM_cons]
    exact hR.seq hitem fun _ => hR.seq (ih hrest) fun _ => hR.pure _

theorem forM {items : List α} {step step' : α → StateT σ (Except Fault) PUnit}
    (h : ∀ item ∈ items, R (step item) (step' item)) : R (items.forM step) (items.forM step') := by
  induction items with
  | nil => exact hR.pure _
  | cons item rest ih =>
    obtain ⟨hitem, hrest⟩ := List.forall_mem_cons.mp h
    exact hR.seq hitem fun _ => ih hrest

theorem option {item? : Option α} {step step' : α → StateT σ (Except Fault) β}
    (h : ∀ item, R (step item) (step' item)) : R (item?.mapM step) (item?.mapM step') := by
  cases item? with
  | none => exact hR.pure _
  | some item =>
    rw [Option.mapM_some, Option.mapM_some, map_eq_pure_bind, map_eq_pure_bind]
    exact hR.seq (h item) fun _ => hR.pure _

theorem forIn {items : List α} {start : β}
    {step step' : α → β → StateT σ (Except Fault) (ForInStep β)}
    (h : ∀ item b, R (step item b) (step' item b)) :
    R (forIn items start step) (forIn items start step') := by
  induction items generalizing start with
  | nil => exact hR.pure _
  | cons item rest ih =>
    rw [List.forIn_cons, List.forIn_cons]
    refine hR.seq (h item start) fun next => ?_
    cases next with
    | done => exact hR.pure _
    | yield => exact ih

end Sequential

section

variable {ρ σ α β : Type} {r : ρ} {s : σ}

/-- A step of two states is a step of the second one for every value of the first. -/
@[simp]
theorem ends_bind_apply_iff {step : StateT ρ (StateT σ (Except Fault)) α}
    {next : α → StateT ρ (StateT σ (Except Fault)) β} {post : β × ρ → σ → Prop} :
    Ends ((step >>= next) r) s post ↔ Ends (step r) s fun p s' => Ends (next p.1 p.2) s' post := by
  change Ends (step r >>= fun p => next p.1 p.2) s post ↔ _
  rw [ends_bind_iff]

@[simp]
theorem ends_pure_apply_iff {x : α} {post : α × ρ → σ → Prop} :
    Ends ((pure x : StateT ρ (StateT σ (Except Fault)) α) r) s post ↔ post (x, r) s := .rfl

@[simp]
theorem ends_lift_apply_iff {step : StateT σ (Except Fault) α} {post : α × ρ → σ → Prop} :
    Ends ((liftM step : StateT ρ (StateT σ (Except Fault)) α) r) s post ↔
      Ends step s fun x s' => post (x, r) s' := by
  change Ends (step >>= fun x => pure (x, r)) s post ↔ _
  rw [ends_bind_iff]
  rfl

@[simp]
theorem ends_get_apply_iff {post : ρ × ρ → σ → Prop} :
    Ends ((get : StateT ρ (StateT σ (Except Fault)) ρ) r) s post ↔ post (r, r) s := .rfl

@[simp]
theorem ends_get_inner_iff {post : σ × ρ → σ → Prop} :
    Ends ((getThe σ : StateT ρ (StateT σ (Except Fault)) σ) r) s post ↔ post (s, r) s := .rfl

@[simp]
theorem ends_get_outer_iff {post : ρ × ρ → σ → Prop} :
    Ends ((getThe ρ : StateT ρ (StateT σ (Except Fault)) ρ) r) s post ↔ post (r, r) s := .rfl

@[simp]
theorem ends_modify_outer_iff {change : ρ → ρ} {post : PUnit × ρ → σ → Prop} :
    Ends ((modifyThe ρ change : StateT ρ (StateT σ (Except Fault)) PUnit) r) s post ↔
      post (⟨⟩, change r) s := .rfl

@[simp]
theorem ends_modify_apply_iff {change : ρ → ρ} {post : PUnit × ρ → σ → Prop} :
    Ends ((modify change : StateT ρ (StateT σ (Except Fault)) PUnit) r) s post ↔
      post (⟨⟩, change r) s := .rfl

theorem ends_mapM_apply {items : List α} {step : α → StateT ρ (StateT σ (Except Fault)) β}
    {inv : List α → List β → ρ → σ → Prop}
    (hstep : ∀ done, ∀ item ∈ items, ∀ results r s, inv done results r s →
      Ends (step item r) s fun p s' => inv (done ++ [item]) (results ++ [p.1]) p.2 s')
    (h : inv [] [] r s) : Ends (items.mapM step r) s fun p => inv items p.1 p.2 := by
  suffices hrest : ∀ (rest done : List α) (results : List β) (r : ρ) (s : σ),
      (∀ item ∈ rest, item ∈ items) → inv done results r s →
        Ends (rest.mapM step r) s fun p s' => inv (done ++ rest) (results ++ p.1) p.2 s' from
    hrest items [] [] r s (fun _ hitem => hitem) h
  intro rest
  induction rest with
  | nil =>
    intro done results r s _ h
    simpa using h
  | cons item rest ih =>
    intro done results r s hmem h
    rw [List.mapM_cons, ends_bind_apply_iff]
    refine (hstep done item (hmem item (by simp)) results r s h).mono fun p s' h' => ?_
    rw [ends_bind_apply_iff]
    refine (ih _ _ p.2 s' (fun other hother => hmem other (by simp [hother])) h').mono ?_
    intro q s'' h''
    rw [ends_pure_apply_iff]
    simpa using h''

/-- What holds whenever a step ends, of a step of two states. -/
@[simp]
theorem after_bind_apply_iff {step : StateT ρ (StateT σ (Except Fault)) α}
    {next : α → StateT ρ (StateT σ (Except Fault)) β} {post : β × ρ → σ → Prop} :
    After ((step >>= next) r) s post ↔ After (step r) s fun p s' => After (next p.1 p.2) s' post := by
  change After (step r >>= fun p => next p.1 p.2) s post ↔ _
  rw [after_bind_iff]

@[simp]
theorem after_pure_apply_iff {x : α} {post : α × ρ → σ → Prop} :
    After ((pure x : StateT ρ (StateT σ (Except Fault)) α) r) s post ↔ post (x, r) s :=
  after_pure_iff

@[simp]
theorem after_lift_apply_iff {step : StateT σ (Except Fault) α} {post : α × ρ → σ → Prop} :
    After ((liftM step : StateT ρ (StateT σ (Except Fault)) α) r) s post ↔
      After step s fun x s' => post (x, r) s' := by
  change After (step >>= fun x => pure (x, r)) s post ↔ _
  simp only [after_bind_iff, after_pure_iff]

@[simp]
theorem after_get_inner_iff {post : σ × ρ → σ → Prop} :
    After ((getThe σ : StateT ρ (StateT σ (Except Fault)) σ) r) s post ↔ post (s, r) s :=
  after_pure_iff (r := (s, r))

@[simp]
theorem after_get_outer_iff {post : ρ × ρ → σ → Prop} :
    After ((getThe ρ : StateT ρ (StateT σ (Except Fault)) ρ) r) s post ↔ post (r, r) s :=
  after_pure_iff

@[simp]
theorem after_modify_outer_iff {change : ρ → ρ} {post : PUnit × ρ → σ → Prop} :
    After ((modifyThe ρ change : StateT ρ (StateT σ (Except Fault)) PUnit) r) s post ↔
      post (⟨⟩, change r) s := after_pure_iff

@[simp]
theorem after_throw_apply {fault : Fault} {post : α × ρ → σ → Prop} :
    After ((throw fault : StateT ρ (StateT σ (Except Fault)) α) r) s post :=
  fun _ _ hrun => nomatch hrun

theorem after_forIn_apply {items : List α}
    {step : α → PUnit → StateT ρ (StateT σ (Except Fault)) (ForInStep PUnit)} (inv : σ → Prop)
    (hstep : ∀ item ∈ items, ∀ r s, inv s →
      After (step item ⟨⟩ r) s fun p s' => p.1 = .yield ⟨⟩ ∧ inv s')
    (h : inv s) : After (forIn items PUnit.unit step r) s fun _ => inv := by
  induction items generalizing r s with
  | nil => exact after_pure_apply_iff.mpr h
  | cons item rest ih =>
    rw [List.forIn_cons, after_bind_apply_iff]
    refine (hstep item List.mem_cons_self r s h).mono ?_
    rintro ⟨_, r'⟩ s' ⟨rfl, h'⟩
    exact ih (fun other hother => hstep other (List.mem_cons_of_mem _ hother)) h'

end

end MessageLang
