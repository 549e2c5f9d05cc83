import MessageLang.Proofs.Typing.Framing
import MessageLang.Proofs.Typing.Leaving

namespace MessageLang

open MessageLang.Tree (Direct Visible)

namespace Pass

/-- What is bound in the frame of a handler: the fields of its input. -/
structure Fills (p : Pass) (fields : List Field) (p' : Pass) : Prop where
  eq : p' = { p with terms := p'.terms }
  size_eq : p'.terms.size = p.terms.size
  frame_eq : ∀ id, id ≠ p.scope → p'.terms.frame id = p.terms.frame id
  frame_scope : p'.terms.frame p.scope = { p.terms.frame p.scope with
    names := (fields.map fun f => (f.name, ⟨.known f.type, false⟩)).reverse ++
      (p.terms.frame p.scope).names }
  sound : p'.Sound

section

variable {a : Arena} {R N input : Tree} {base : Nat} {p q p' : Pass} {path : List Tree}
  {entered : List NodeId} {compute : NodeId → Typing TypeId} {fields : List Field}
  {type : TypeId} {before : TypeTable} {name : String}

theorem Fills.mem_names_iff_hasField
    (h : p.Fills (((p.table.fields? type).getD []).filter (!·.isPositional)) p')
    (hempty : (p.terms.frame p.scope).names = []) :
    (∃ entry ∈ (p'.terms.frame p.scope).names, entry.1 = name) ↔ p.table.HasField type name := by
  rw [h.frame_scope, hempty]
  cases hfields : p.table.fields? type with
  | none => simp [TypeTable.HasField, hfields]
  | some fields => simp [TypeTable.HasField, hfields, and_assoc]

/-- Inside a handler, with the fields of its input as variables. -/
theorem Entering.inHandler (h : p.Entering a R base path N entered compute)
    (hform : N.form = .expr .handler) (hinput : N.types.head? = some input)
    (hquiet : p.pushed.Quiet q) (hreads : Reads a before q.table input.id type)
    (hfills : q.Fills (((q.table.fields? type).getD []).filter (!·.isPositional)) p') :
    p.Grows path (fun _ => False) p' ∧ p'.Stands a R base (N :: path) ∧
      p'.resolving = p.resolving ∧ p'.escapes = p.escapes ∧ p'.breaks = p.breaks := by
  have hq := hquiet.eq
  have hp' := hfills.eq
  have hscope : q.scope = p.pushed.scope := by rw [hq]
  have hterms : q.terms = p.pushed.terms := by rw [hq]
  have hsame : p'.scope = p.pushed.scope := by rw [hp', ← hscope]
  have hframe : q.terms.frame q.scope = ⟨some p.scope, []⟩ := by
    rw [hscope, hterms, p.frame_pushed]
  have hnew : ∀ id : ScopeId, id.index < p.terms.size → id ≠ q.scope := by
    rintro id hid rfl
    rw [hscope] at hid
    exact Nat.lt_irrefl p.terms.size hid
  have hgrows : p.Grows path (fun _ => False) p' := by
    have hbefore := (p.grows_pushed path fun _ => False).trans (hquiet.advances path _).toGrows
      fun _ _ h => h
    rw [hp']
    exact { hbefore with
      terms_le := hbefore.terms_le.trans_eq hfills.size_eq.symm
      frame_eq := fun id hid => (hfills.frame_eq id (hnew id hid)).trans (hbefore.frame_eq id hid) }
  have hfair : p'.Fair a R base := by
    have hsound := hfills.sound
    have hbefore := h.stands.toFair.pushed.quiet hquiet
    rw [hp'] at hsound ⊢
    exact { hbefore with sound := hsound }
  have hnames : ∀ name, (∃ entry ∈ (p'.terms.frame p'.scope).names, entry.1 = name) ↔
      N.InputNames a name := by
    intro name
    rw [hsame, ← hscope, hfills.mem_names_iff_hasField (by rw [hframe]), hreads.hasField_iff]
    refine ⟨fun hnames => ⟨hform, input, hinput, hnames⟩, ?_⟩
    rintro ⟨-, other, hother, hnames⟩
    cases hinput.symm.trans hother
    exact hnames
  have hframes : Scoped a p' (N :: path) p'.scope := by
    refine .handler hform ?_ ?_ ?_ ?_ hnames
      (hgrows.frames h.stands.frames fun _ _ h => h)
    · rw [hsame, hfills.size_eq, hterms]
      exact p.scope_pushed_lt
    · rw [hsame]
      exact h.stands.frames.lt
    · rw [hsame, ← hscope, hfills.frame_scope, hframe]
    · rw [hsame, ← hscope, hfills.frame_scope, hframe]
      intro entry hentry
      rw [List.append_nil, List.mem_reverse, List.mem_map] at hentry
      obtain ⟨f, -, rfl⟩ := hentry
      exact ⟨f.type, rfl⟩
  have hresolving : p'.resolving = p.resolving := by
    rw [hp', hq]
    rfl
  refine ⟨hgrows, ?_, hresolving, by rw [hp', hq]; rfl, by rw [hp', hq]; rfl⟩
  refine h.stands.enter h.ready.nodup h.within h.direct hgrows (spares_empty a R p path) hfair hresolving
    (fun id _ => ?_) hframes fun D hD => ?_
  · rw [hp', hq]
    rfl
  · cases hform.symm.trans (Tree.mem_locals_iff.mp hD).1

end

end Pass

namespace Typing

open Pass

variable {a : Arena} {R N body : Tree} {base : Nat} {p p' : Pass} {path : List Tree}
  {entered : List NodeId} {compute : NodeId → Typing TypeId} {fields : List Field}

/-- The fields of an input type become variables, one after the other. -/
theorem addFields_ends (hp : p.Sound) (hscope : p.scope.index < p.terms.size)
    (hfields : ∀ f ∈ fields, f.type.index < p.table.size) :
    Ends (forIn fields PUnit.unit fun f _ => do
      addTerm f.name ⟨.known f.type, false⟩
      pure (ForInStep.yield PUnit.unit)) p fun _ p' => p.Fills fields p' := by
  have hstart : p.Fills [] p := ⟨rfl, rfl, fun _ _ => rfl, rfl, hp⟩
  let inv (done : List Field) (p' : Pass) : Prop := p.Fills done p'
  have hbegin : inv [] p := hstart
  refine Ends.mono (ends_forIn ?_ hbegin) fun _ _ h => h
  intro done f hf p₁ h₁
  have hscope₁ : p₁.scope = p.scope := by rw [h₁.eq]
  rw [ends_bind_iff, addTerm, ends_modify_iff, ends_pure_iff]
  refine ⟨rfl, ?_, ?_, fun id hid => ?_, ?_, ?_⟩
  · rw [h₁.eq]
  · exact (Scopes.size_add ..).trans h₁.size_eq
  · change (p₁.terms.add p₁.scope _ _).frame id = _
    rw [Scopes.frame_add_of_ne, h₁.frame_eq id hid]
    rwa [hscope₁]
  · change (p₁.terms.add p₁.scope _ _).frame p.scope = _
    rw [hscope₁, Scopes.frame_add_self _ _ _ (hscope.trans_eq h₁.size_eq.symm), h₁.frame_scope]
    simp
  · refine h₁.sound.withTerms (h₁.sound.known_lt.add _ _ fun type htype => ?_)
    cases htype
    have htable : p₁.table = p.table := by rw [h₁.eq]; rfl
    rw [htable]
    exact hfields f hf

/-- The body of a handler is typed with exits of its own. What leaves the handler is given, and
those around it are as before. -/
theorem handlerExits_ends (h : p.Entering a R base path N entered compute)
    (hblock : N.form ≠ .expr .block) (hgrows : p.Grows path (p.Touches path [N]) p')
    (hstands : p'.Stands a R base (N :: path)) (hparts : N.expressions = [body]) :
    Ends (handlerExits a compute N.id) p' fun exits p'' =>
      p'.Advances (N :: path) (p'.Touches (N :: path) [body]) p'' ∧ p''.Stands a R base (N :: path) ∧
        p''.Covered a R base body ∧ p''.escapes = p'.escapes ∧ p''.breaks = p'.breaks ∧
        (∀ exit ∈ exits, exit.2.index < p''.table.size) ∧
        (R.ExitFree → exits = p''.outcomes body) := by
  have hmem : body ∈ N.expressions := hparts ▸ List.mem_singleton_self body
  have hstands₀ : Stands a R base { p' with escapes := [], breaks := [] } (N :: path) :=
    hstands.withExits h.ready.nodup (fun _ h => nomatch h) fun _ h => nomatch h
  have hgrows₀ : p.Grows path (p.Touches path [N]) { p' with escapes := [], breaks := [] } :=
    { hgrows with }
  have hdirect := Tree.direct_of_mem_expressions h.ready.locals_in_blocks h.within h.direct.1 hblock
    hmem
  simp only [handlerExits, ends_bind_iff, ends_get_iff, ends_modify_iff, h.expressions_eq, hparts,
    List.map_cons, List.map_nil, List.head?_cons]
  refine (h.computes _ (N :: path) body hstands₀ (h.within.child hmem) hdirect
    (hgrows₀.not_touches_of_children h.stands hstands₀ h.ready h.within h.direct h.fresh
      fun C hC => List.mem_singleton.mp hC ▸ hmem)).mono ?_
  rintro value p₁ ⟨hvisits, hlookup⟩
  have hsound := hvisits.stands.sound
  have hvalue : value.index < p₁.table.size := hsound.types_lt _ (mem_of_lookup_eq_some hlookup)
  refine ⟨{ hvisits.advances with }, ?_, hvisits.covered body (List.mem_singleton_self body), rfl, rfl,
    ?_, fun hfree => ?_⟩
  · refine hvisits.stands.withExits h.ready.nodup (fun exit hexit => ?_) fun type htype => ?_
    · exact hvisits.advances.table.lt (hstands.sound.escapes_lt exit hexit)
    · exact hvisits.advances.table.lt (hstands.sound.breaks_lt type htype)
  · rw [List.forall_mem_append]
    refine ⟨hsound.escapes_lt, ?_⟩
    split
    · exact fun _ h => nomatch h
    · exact List.forall_mem_singleton.mpr hvalue
  · have htypeOf : p₁.typeOf body = value := by
      rw [typeOf, hlookup]
      rfl
    have hreturns : p₁.escapes = body.returns.map p₁.exitOf := by
      simpa using hvisits.escapes_eq hfree
    rw [hreturns]
    refine congrArg₂ (· ++ ·) rfl ?_
    change _ = if p₁.table.isNever (p₁.typeOf body) then [] else [(body.id, p₁.typeOf body)]
    rw [htypeOf]
    rfl

/-- A handler is left as it was entered: nothing that leaves its body leaves the handler. -/
theorem leaveHandler {p₃ p₄ p₅ : Pass} (h : p.Entering a R base path N entered compute)
    (hform : N.form = .expr .handler) (hparts : N.expressions = [body])
    (hgrows : p.Grows path (fun _ => False) p₃) (hresolving : p₃.resolving = p.resolving)
    (hadv : p₃.Advances (N :: path) (p₃.Touches (N :: path) [body]) p₄)
    (hstands : p₄.Stands a R base (N :: path)) (hcovered : p₄.Covered a R base body)
    (hescapes : p₄.escapes = p.escapes) (hbreaks : p₄.breaks = p.breaks) (hquiet : p₄.Quiet p₅) :
    p.Gathers a R base path N { p₅ with scope := p.scope, typeScope := p.typeScope } := by
  have hblock : N.form ≠ .expr .block := by simp [hform]
  have hroots : ∀ C ∈ [body], C ∈ N.expressions := fun C hC => hparts ▸ hC
  have hinner : p.Grows path (p.Touches path [N]) p₄ :=
    (hgrows.mono (fun _ h => h) fun _ => False.elim).trans
      (hadv.toGrows.mono (fun _ => (visible_cons_iff hblock).mp)
        fun x => hgrows.touches_of_children (fun _ _ h => h) hroots)
      fun _ => h.clear
  have hall := hinner.trans (hquiet.advances path _).toGrows fun _ => h.clear
  have hq := hquiet.eq
  refine h.leave hall ?_ (hstands.quiet h.ready.nodup hquiet) (fun C hC => ?_) (fun _ => ?_) fun _ => ?_
  · rw [hq]
    exact hadv.resolving_eq.trans hresolving
  · rw [hparts] at hC
    rw [List.mem_singleton.mp hC]
    exact (hquiet.advances path fun _ => False).covered hstands.toFair h.ready.nodup
      (spares_empty a R p₄ path) (fun _ _ h => h) hcovered
  · have hreturns : N.returns = [] := Tree.exits_eq hform
    rw [hreturns, List.map_nil, List.append_nil, hq]
    exact hescapes
  · have hnone : N.breaks = [] := Tree.exits_eq hform
    rw [hnone, List.map_nil, List.append_nil, hq]
    exact hbreaks

/-- The type that a handler answers with, from how its output was read and what it comes to. -/
theorem handlerResult_answers {input : Tree} {more : List Tree} {q q' : Pass}
    {exits : List (NodeId × TypeId)} {declared : Option TypeId} (hp : p.Sound)
    (htypes : N.types = input :: more) (hbody : body.ids.Nodup)
    (hnone : declared = none ↔ more.head? = none)
    (hread : ∀ T ∈ more.head?, ∀ type ∈ declared, readType a T.id q = .ok (type, q'))
    (hbefore : q'.Precedes p) (hdeclared : ∀ type ∈ declared, type.index < p.table.size)
    (hexits : ∀ exit ∈ exits, exit.2.index < p.table.size) :
    Ends (handlerResult a declared exits) p fun result p' => p.Quiet p' ∧
      result.index < p'.table.size ∧
        (exits = p.outcomes body → p'.AnswersWith a N body result) := by
  obtain ⟨result, p', hrun, hquiet, hlt, hsame, hunites⟩ :=
    ends_iff.mp (handlerResult_ends hp hdeclared hexits)
  refine ends_iff.mpr ⟨result, p', hrun, hquiet, hlt, ?_⟩
  rintro rfl
  unfold AnswersWith
  rw [hquiet.outcomes_eq hp hbody, htypes, List.tail_cons]
  cases more with
  | nil =>
    rw [hquiet.table.retains.unionParts_eq hp.space.table.closed (List.forall_mem_map.mpr hexits)]
    exact hunites (hnone.mpr rfl)
  | cons output more =>
    cases declared with
    | none => cases hnone.mp rfl
    | some expected =>
      obtain rfl := hsame expected rfl
      exact ⟨⟨q, q', hread output rfl result rfl, hbefore.trans hquiet.precedes⟩, p, p', hrun,
        .of_eq rfl rfl⟩

/-- A handler from where the type of its input is known. -/
theorem handlerBody_ends {before : TypeTable} {input : Tree} {more : List Tree} {q : Pass}
    {type : TypeId} (h : p.Entering a R base path N entered compute)
    (hform : N.form = .expr .handler) (hparts : N.expressions = [body])
    (htypes : N.types = input :: more) (hquiet : p.pushed.Quiet q)
    (hreads : Reads a before q.table input.id type) :
    Ends (handlerBody a compute N.id type) q fun sides p' =>
      p.Gathers a R base path N { p' with scope := p.scope, typeScope := p.typeScope } ∧
        sides.1 = type ∧ type.index < p'.table.size ∧ sides.2.index < p'.table.size ∧
          (R.ExitFree → p'.AnswersWith a N body sides.2) := by
  obtain ⟨_, hheld⟩ := h.holds
  have hbody := Tree.nodup_of_mem_children h.nodup
    (Tree.mem_children_of_mem_expressions (hparts ▸ List.mem_singleton_self body))
  have hmore : ∀ T ∈ more.head?, T ∈ N.children := fun T hT =>
    List.mem_of_mem_filter (htypes ▸ List.mem_cons_of_mem _ (List.mem_of_mem_head? hT))
  have houtput : (a.types N.id)[1]? = more.head?.map Tree.id := by
    rw [hheld.types_eq, htypes]
    cases more <;> rfl
  rw [handlerBody, houtput, ends_bind_iff]
  refine (readOption_ends hquiet.sound (fun T hT => ⟨_, hheld.child (hmore T hT)⟩)
    fun T hT => Tree.nodup_of_mem_children h.nodup (hmore T hT)).mono ?_
  rintro declared p₂ ⟨hquiet₂, hdeclared, hnone, hread⟩
  have hall := hquiet.trans hquiet₂
  have hscope : p₂.scope.index < p₂.terms.size := by
    rw [hall.eq]
    exact p.scope_pushed_lt
  simp only [ends_bind_iff, ends_get_iff]
  refine (addFields_ends hquiet₂.sound hscope fun f hf =>
    hquiet₂.sound.space.table.getD_field_lt (List.mem_of_mem_filter hf)).mono fun _ p₃ hfills => ?_
  obtain ⟨hgrows, hstands, hresolving, hescapes, hbreaks⟩ :=
    h.inHandler hform (by rw [htypes]; rfl) hall (hreads.extend hquiet₂.table) hfills
  refine (handlerExits_ends h (by simp [hform]) (hgrows.mono (fun _ h => h) fun _ => False.elim)
    hstands hparts).mono ?_
  rintro exits p₄ ⟨hadv, hstands₄, hcovered, hescapes₄, hbreaks₄, hexits, hmade⟩
  have hfilled : p₂.Precedes p₃ := by
    refine .of_eq ?_ ?_ <;> rw [hfills.eq] <;> rfl
  have hbefore : p₂.Precedes p₄ := hfilled.trans hadv.precedes
  refine (handlerResult_answers hstands₄.sound htypes hbody hnone hread hbefore
    (fun other hother => hbefore.1.lt (hdeclared other hother)) hexits).mono ?_
  rintro result p₅ ⟨hquiet₅, hlt, hanswers⟩
  rw [ends_pure_iff]
  exact ⟨leaveHandler h hform hparts hgrows hresolving hadv hstands₄ hcovered
    (hescapes₄.trans hescapes) (hbreaks₄.trans hbreaks) hquiet₅, rfl,
    hquiet₅.table.lt (hbefore.1.lt (hquiet₂.table.lt hreads.lt)), hlt,
    fun hfree => hanswers (hmade hfree)⟩

theorem handler_ends (h : p.Entering a R base path N entered compute)
    (hform : N.form = .expr .handler) :
    Ends (handler a compute N.id) p (p.Finds a R base path N) := by
  have hadmits := h.admits hform
  rw [ExprForm.admits, Tree.length_exprForms, Bool.and_eq_true, beq_iff_eq,
    List.length_eq_one_iff] at hadmits
  obtain ⟨⟨body, hparts⟩, htypes⟩ := hadmits
  obtain ⟨_, hheld⟩ := h.holds
  have hbody := Tree.nodup_of_mem_children h.nodup
    (Tree.mem_children_of_mem_expressions (hparts ▸ List.mem_singleton_self body))
  cases hlist : N.types with
  | nil => simp [hlist] at htypes
  | cons input more =>
    have hinput : input ∈ N.children := List.mem_of_mem_filter (hlist ▸ List.mem_cons_self)
    rw [handler_eq, ends_bind_iff, ends_inNewScope_iff, ends_bind_iff, handlerInput, hheld.types_eq,
      hlist, List.map_cons]
    refine (readType_ends h.stands.sound.pushed (hheld.child hinput)
      (Tree.nodup_of_mem_children h.nodup hinput)).mono ?_
    rintro type p₁ ⟨hquiet₁, hreads⟩
    refine (handlerBody_ends h hform hparts hlist hquiet₁ hreads).mono ?_
    rintro ⟨type, result⟩ p₂ ⟨hgathers, rfl, hinput_lt, hlt, hanswers⟩
    have hsound := hgathers.stands.sound
    refine (tabling_ends hsound (fun found t => found.index < t.size ∧
      t.get found = { handlers := [(type, result)] }) ?_).mono ?_
    · exact (Tabling.function_ends hsound.space.table hinput_lt hlt).mono
        fun _ _ h => ⟨h.1, h.2.1, h.2.2.2⟩
    · rintro found p₃ ⟨hquiet₃, hlt₃, hget⟩
      refine { hgathers.quiet hquiet₃ h.ready.nodup fun _ => h.clear with
        made := fun hfree other hother => ?_
        agrees := fun E hE => absurd hE (h.not_denotes (by rw [Tree.usedName?, hform]))
        lt := hlt₃ }
      rw [hparts] at hother
      obtain rfl : body = other := Option.some.inj hother
      refine ⟨fun _ => ⟨type, result, by rw [hget], ?_⟩, fun heq => ?_⟩
      · exact (hanswers hfree).keep hsound.space.table hquiet₃.precedes hsound.types_lt
          (hquiet₃.outcomes_eq hsound hbody)
      · cases hform.symm.trans heq

end Typing

end MessageLang
