import MessageLang.Proofs.Assign.Extension
import MessageLang.Proofs.Assign.Verdict
import MessageLang.Proofs.Typing.Reading
import MessageLang.Proofs.Typing.Reporting
import MessageLang.Typing.Rules

namespace MessageLang

open TypeTable

/-- What typing can rely on and keeps to. All types that it may come upon are in the table. -/
structure Pass.Sound (p : Pass) : Prop where
  space : p.space.Sound
  checker : p.checker.Consistent p.table p.checker.unwrapsSingleField
  known_lt : p.terms.All fun v => ∀ type, v.meaning = .known type → type.index < p.table.size
  declared_lt : ∀ id, ∀ type ∈ (p.placeholder id).declared, type.index < p.table.size
  result_lt : ∀ id, ∀ type ∈ (p.placeholder id).result, type.index < p.table.size
  types_lt : ∀ entry ∈ p.types, entry.2.index < p.table.size
  escapes_lt : ∀ exit ∈ p.escapes, exit.2.index < p.table.size
  breaks_lt : ∀ type ∈ p.breaks, type.index < p.table.size

/-- A change that has to do with types alone: the table grows, types are compared, problems are
found. What is known of nodes and locals stays. -/
structure Pass.Quiet (p p' : Pass) : Prop where
  eq : p' = { p with space := p'.space, checker := p'.checker, coercions := p'.coercions }
  table : p.table.Extends p'.table
  log : p.log.Adds p'.log
  sound : p'.Sound

namespace Pass

variable {p p' p'' : Pass} {a : Arena} {node : NodeId} {problem : Problem}

theorem Quiet.refl (h : p.Sound) : p.Quiet p := ⟨rfl, .refl _, .refl _, h⟩

theorem Quiet.trans (h : p.Quiet p') (h' : p'.Quiet p'') : p.Quiet p'' where
  eq := by
    rw [h'.eq, h.eq]
  table := h.table.trans h'.table
  log := h.log.trans h'.log
  sound := h'.sound

/-- Changing the space of types and the checker. -/
theorem Sound.quiet (h : p.Sound) {space : TypeSpace} {checker : Checker}
    {coercions : List (NodeId × TypeId)} (hspace : space.Sound)
    (hchecker : checker.Consistent space.table checker.unwrapsSingleField)
    (hmore : p.table.Extends space.table) (hlog : p.log.Adds space.log) :
    p.Quiet { p with space, checker, coercions } where
  eq := rfl
  table := hmore
  log := hlog
  sound := ⟨hspace, hchecker, h.known_lt.mono fun _ hv type htype => hmore.lt (hv type htype),
    fun id type htype => hmore.lt (h.declared_lt id type htype),
    fun id type htype => hmore.lt (h.result_lt id type htype),
    fun entry hentry => hmore.lt (h.types_lt entry hentry),
    fun exit hexit => hmore.lt (h.escapes_lt exit hexit),
    fun type htype => hmore.lt (h.breaks_lt type htype)⟩

theorem Sound.withSpace (h : p.Sound) {space : TypeSpace} (hspace : space.Sound)
    (hmore : p.table.Extends space.table) (hlog : p.log.Adds space.log) :
    p.Quiet { p with space } :=
  h.quiet hspace (h.checker.extend h.space.table.closed hmore) hmore hlog

theorem Sound.withChecker (h : p.Sound) {checker : Checker}
    (hchecker : checker.Consistent p.table checker.unwrapsSingleField) :
    p.Quiet { p with checker } :=
  h.quiet h.space hchecker (.refl _) (.refl _)

theorem Sound.lt_of_builtin (h : p.Sound) {type : TypeId} (htype : type.index ≤ TypeId.array.index) :
    type.index < p.table.size := h.space.table.lt_of_index_le htype

end Pass

namespace Typing

variable {α : Type} {p : Pass} {a : Arena} {node : NodeId} {problem : Problem} {type : TypeId}

/-- Reading types changes nothing else. -/
theorem reading_ends (hp : p.Sound) {step : Reading α} (post : α → TypeSpace → Prop)
    (h : Ends step p.space fun result space => space.Sound ∧ p.table.Extends space.table ∧
      p.log.Adds space.log ∧ post result space) :
    Ends (reading step) p fun result p' => p.Quiet p' ∧ post result p'.space := by
  obtain ⟨result, space, hrun, hspace, hmore, hlog, hpost⟩ := ends_iff.mp h
  refine ends_iff.mpr ⟨result, { p with space }, ?_, hp.withSpace hspace hmore hlog, hpost⟩
  simp [reading, hrun, bind, Except.bind, pure, Except.pure]

theorem tabling_ends (hp : p.Sound) {change : Tabling α} (post : α → TypeTable → Prop)
    (h : Ends change p.table fun result t => t.Sound ∧ p.table.Extends t ∧ post result t) :
    Ends (tabling change) p fun result p' => p.Quiet p' ∧ post result p'.table := by
  have hspace : Ends (Reading.tabling change) p.space fun result space => space.Sound ∧
      p.table.Extends space.table ∧ p.log.Adds space.log ∧ post result space.table := by
    rw [Reading.ends_tabling_iff]
    exact h.mono fun result t ⟨ht, hmore, hpost⟩ =>
      ⟨hp.space.extend ht hmore, hmore, .refl _, hpost⟩
  exact reading_ends hp (fun result space => post result space.table) hspace

theorem checking_ends (hp : p.Sound) {step : TypeTable → Checking α} (post : α → Checker → Prop)
    (h : Ends (step p.table) p.checker fun result c =>
      c.Consistent p.table c.unwrapsSingleField ∧ post result c) :
    Ends (checking step) p fun result p' => p.Quiet p' ∧ p'.table = p.table ∧
      post result p'.checker := by
  obtain ⟨result, c, hrun, hc, hpost⟩ := ends_iff.mp h
  refine ends_iff.mpr ⟨result, { p with checker := c }, ?_, hp.withChecker hc, rfl, hpost⟩
  simp [checking, hrun, bind, Except.bind, pure, Except.pure]

theorem report_ends (hp : p.Sound) (hproblem : ∀ name, problem ≠ .recursiveDefinition name) :
    Ends (report a node problem) p fun _ p' => p.Quiet p' :=
  hp.withSpace (hp.space.withLog _) (.refl _) (p.log.adds_report a node hproblem)

theorem takeConflicts_ends (hp : p.Sound) :
    Ends (checking fun _ => Checking.takeConflicts) p fun _ p' => p.Quiet p' := by
  refine Ends.mono (checking_ends hp (fun _ _ => True) ?_) fun _ _ h => h.1
  obtain ⟨hunwraps, hlt, hknown, hdemands, hrefuted⟩ := hp.checker
  exact ⟨⟨hunwraps, hlt, hknown, hdemands, hrefuted⟩, trivial⟩

theorem reportConflicts_ends (hp : p.Sound) :
    Ends (reportConflicts a node) p fun _ p' => p.Quiet p' := by
  rw [reportConflicts, ends_bind_iff]
  refine (takeConflicts_ends hp).mono fun conflicts p₁ h₁ => ?_
  let inv (_ : List Conflict) (p' : Pass) : Prop := p.Quiet p'
  have hstart : inv [] p₁ := h₁
  rw [ends_bind_iff]
  refine Ends.mono (ends_forIn ?_ hstart) fun _ p₂ h₂ => h₂
  intro _ conflict _ p₂ h₂
  simp only [ends_bind_iff, ends_get_iff, ends_pure_iff]
  exact (report_ends h₂.sound (by simp)).mono fun _ p₃ h₃ => ⟨by trivial, h₂.trans h₃⟩

theorem canAssign_ends (hp : p.Sound) {target source : TypeId}
    (htarget : target.index < p.table.size) (hsource : source.index < p.table.size) :
    Ends (checking fun t => Checking.canAssign t target source) p fun _ p' =>
      p.Quiet p' ∧ p'.table = p.table := by
  refine Ends.mono (checking_ends hp (fun _ _ => True) ?_) fun _ _ h => ⟨h.1, h.2.1⟩
  refine (MessageLang.canAssign_ends hp.space.table.closed htarget hsource hp.checker).mono ?_
  rintro _ c ⟨hc, hgrows, -⟩
  rw [hgrows.unwraps_eq]
  exact ⟨hc, trivial⟩

theorem fits_ends (hp : p.Sound) {target source : TypeId} (htarget : target.index < p.table.size)
    (hsource : source.index < p.table.size) :
    Ends (fits a node target source) p fun _ p' => p.Quiet p' := by
  rw [fits, ends_bind_iff]
  refine (canAssign_ends hp htarget hsource).mono fun verdict p₁ h₁ => ?_
  rw [ends_bind_iff]
  refine (reportConflicts_ends h₁.1.sound).mono fun _ p₂ h₂ => ?_
  exact h₁.1.trans h₂

theorem readType_ends (hp : p.Sound) {parent : Option NodeId} {T : Tree} (hheld : a.Holds parent T)
    (hnodup : T.ids.Nodup) :
    Ends (readType a T.id) p fun type p' => p.Quiet p' ∧
      Reads a p.table p'.table T.id type := by
  rw [readType, ends_bind_iff, ends_get_iff]
  refine reading_ends hp (fun type space => Reads a p.table space.table T.id type) ?_
  refine ((Reading.type_ends hheld hnodup hp.space).and_after
    (Reading.type_reporting a p.typeScope T.id p.space)).mono ?_
  rintro type space ⟨⟨hspace, hmore, hreads⟩, hadds⟩
  exact ⟨hspace, hmore, hadds.log, hreads⟩

/-- Reading a type that may be missing. -/
theorem readOption_ends (hp : p.Sound) {T? : Option Tree}
    (hheld : ∀ T ∈ T?, ∃ parent, a.Holds parent T) (hnodup : ∀ T ∈ T?, T.ids.Nodup) :
    Ends ((T?.map Tree.id).mapM (readType a)) p fun type? p' => p.Quiet p' ∧
      (∀ type ∈ type?, type.index < p'.table.size) ∧ (type? = none ↔ T? = none) ∧
        ∀ T ∈ T?, ∀ type ∈ type?, readType a T.id p = .ok (type, p') := by
  cases T? with
  | none => exact ⟨.refl hp, fun _ h => (nomatch h), by simp, fun _ h => (nomatch h)⟩
  | some T =>
    obtain ⟨parent, hT⟩ := hheld T rfl
    rw [Option.map_some, Option.mapM_some, ends_map_iff]
    obtain ⟨type, p₁, hrun, hquiet, hreads⟩ := ends_iff.mp (readType_ends hp hT (hnodup T rfl))
    refine ends_iff.mpr ⟨type, p₁, hrun, hquiet, fun other hother => ?_, by simp,
      fun other hother found hfound => ?_⟩
    · cases hother
      exact hreads.lt
    · cases hother
      cases hfound
      exact hrun

theorem firstMatch?_ends (hp : p.Sound) (message : NodeId) (htype : type.index < p.table.size)
    {handlers : List (TypeId × TypeId)}
    (hhandlers : ∀ handler ∈ handlers,
      handler.1.index < p.table.size ∧ handler.2.index < p.table.size) :
    Ends (firstMatch? a message type handlers) p fun found p' => p.Quiet p' ∧
      ∀ answer ∈ found, answer.1.index < p'.table.size := by
  induction handlers generalizing p with
  | nil =>
    rw [firstMatch?, ends_bind_iff]
    exact (reportConflicts_ends hp).mono fun _ p₁ h₁ => ⟨h₁, fun _ h => by cases h⟩
  | cons handler rest ih =>
    obtain ⟨⟨hguard, hanswer⟩, hrest⟩ := List.forall_mem_cons.mp hhandlers
    rw [firstMatch?]
    simp only [ends_bind_iff, ends_get_iff]
    refine (canAssign_ends hp hguard htype).mono ?_
    rintro verdict p₁ ⟨h₁, htable₁⟩
    split
    · rw [ends_bind_iff]
      refine (takeConflicts_ends h₁.sound).mono fun _ p₂ h₂ => ?_
      simp only [ends_bind_iff, ends_get_iff]
      refine (tabling_ends h₂.sound (fun result t => result.index < t.size) ?_).mono ?_
      · refine (substitute_ends h₂.sound.space.table ?_ fun _ => h₂.sound.checker.bound_lt.resolutions).mono ?_
        · exact (h₁.trans h₂).table.lt hanswer
        · exact fun _ _ h => ⟨h.1, h.2.1, h.2.2.1⟩
      · rintro answer p₃ ⟨h₃, hlt⟩
        refine ⟨h₁.trans (h₂.trans h₃), fun found hfound => ?_⟩
        cases hfound
        exact hlt
    · rw [ends_bind_iff, ends_modify_iff]
      have hback : p.Quiet { p₁ with checker := p₁.checker.rollback p.checker.checkpoint } := by
        refine h₁.trans (h₁.sound.withChecker (h₁.sound.checker.rollback ?_ ?_))
        · rw [htable₁]
          exact hp.checker.bound_lt
        · rw [htable₁]
          exact hp.checker.bound_known
      refine (ih hback.sound (hback.table.lt htype) fun handler hhandler => ?_).mono ?_
      · exact (hrest handler hhandler).imp hback.table.lt hback.table.lt
      · rintro found p₂ ⟨h₂, hlt⟩
        exact ⟨hback.trans h₂, hlt⟩

theorem answer_ends (hp : p.Sound) (message : NodeId) {receiver : TypeId}
    (hreceiver : receiver.index < p.table.size) (htype : type.index < p.table.size) :
    Ends (answer a node message receiver type) p fun result p' => p.Quiet p' ∧
      result.index < p'.table.size := by
  have hresolved : (p.checker.bindings.resolve p.table receiver).index < p.table.size :=
    Bindings.AllBound.resolve hp.checker.bound_lt p.table hreceiver
  have hanything : ∀ {p' : Pass}, p.Quiet p' →
      p.Quiet p' ∧ TypeId.anything.index < p'.table.size := fun h =>
    ⟨h, h.sound.lt_of_builtin (by decide)⟩
  rw [answer]
  simp only [ends_bind_iff, ends_get_iff]
  split
  · exact hanything (.refl hp)
  · split
    · next found hfound =>
      obtain ⟨symbol, -, hsymbol⟩ := Option.bind_eq_some_iff.mp hfound
      exact ⟨.refl hp, hp.space.table.symbol_lt (mem_of_lookup_eq_some hsymbol)⟩
    · rw [ends_bind_iff]
      refine (firstMatch?_ends hp message htype fun handler hhandler =>
        hp.space.table.handler_lt hhandler).mono ?_
      rintro found p₁ ⟨h₁, hlt⟩
      split
      · next answer guard =>
        rw [ends_bind_iff, ends_modify_iff, ends_pure_iff]
        exact ⟨h₁.trans (h₁.sound.quiet h₁.sound.space h₁.sound.checker (.refl _) (.refl _)),
          hlt _ rfl⟩
      · rw [ends_bind_iff]
        exact (report_ends h₁.sound (by simp)).mono fun _ p₂ h₂ => hanything (h₁.trans h₂)

theorem unite_ends (hp : p.Sound) {ids : List TypeId} (hids : ∀ id ∈ ids, id.index < p.table.size) :
    Ends (tabling (Tabling.union ids)) p fun result p' => p.Quiet p' ∧
      result.index < p'.table.size ∧ p'.table.Unites (p.table.unionParts ids) result := by
  refine tabling_ends hp
    (fun result t => result.index < t.size ∧ t.Unites (p.table.unionParts ids) result) ?_
  exact (union_ends hp.space.table hids).mono fun _ _ h => h

/-- Without a declared type a handler answers with the union of what leaves it. -/
theorem handlerResult_ends (hp : p.Sound) {declared : Option TypeId}
    {exits : List (NodeId × TypeId)} (hdeclared : ∀ type ∈ declared, type.index < p.table.size)
    (hexits : ∀ exit ∈ exits, exit.2.index < p.table.size) :
    Ends (handlerResult a declared exits) p fun result p' => p.Quiet p' ∧
      result.index < p'.table.size ∧ (∀ type ∈ declared, result = type) ∧
      (declared = none → p'.table.Unites (p.table.unionParts (exits.map (·.2))) result) := by
  cases declared with
  | none =>
    rw [handlerResult]
    refine (unite_ends hp (List.forall_mem_map.mpr hexits)).mono ?_
    exact fun result p₁ ⟨h₁, hlt, hunites⟩ => ⟨h₁, hlt, fun _ h => (nomatch h), fun _ => hunites⟩
  | some expected =>
    have hexpected := hdeclared expected rfl
    rw [handlerResult, ends_bind_iff]
    let inv (_ : List (NodeId × TypeId)) (p' : Pass) : Prop := p.Quiet p'
    have hstart : inv [] p := .refl hp
    refine Ends.mono (ends_forIn ?_ hstart) fun _ p₁ h₁ => ⟨h₁, h₁.table.lt hexpected, ?_, nofun⟩
    · rintro _ ⟨node, type⟩ hexit p₁ h₁
      rw [ends_bind_iff]
      refine (fits_ends h₁.sound (h₁.table.lt hexpected) (h₁.table.lt (hexits _ hexit))).mono
        fun verdict p₂ h₂ => ?_
      split
      · rw [ends_bind_iff]
        exact (report_ends h₂.sound (by simp)).mono fun _ p₃ h₃ =>
          ⟨rfl, h₁.trans (h₂.trans h₃)⟩
      · exact ⟨rfl, h₁.trans h₂⟩
    · intro type htype
      cases htype
      rfl

end Typing

end MessageLang
