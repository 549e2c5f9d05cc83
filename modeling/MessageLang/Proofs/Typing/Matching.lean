import MessageLang.Proofs.Typing.Accepting

namespace MessageLang

namespace Pass

/-- What it comes to if a message of some type is judged by a guard, with what is known by then. -/
def judge (p : Pass) (type guard : TypeId) : Except Fault (Bool × Checker) :=
  Checking.canAssign p.table guard type p.checker

/-- Whether a guard takes a message of some type. -/
def accepts (p : Pass) (type guard : TypeId) : Bool :=
  match p.judge type guard with
  | .ok (verdict, _) => verdict
  | .error _ => false

/-- The conflicts that are met when a message of some type is judged by a guard. -/
def meets (p : Pass) (type guard : TypeId) : List Conflict :=
  match p.judge type guard with
  | .ok (_, c) => c.conflicts.drop p.checker.conflicts.length
  | .error _ => []

/-- The same but for the conflicts that wait to be reported. -/
def withConflicts (p : Pass) (conflicts : List Conflict) : Pass :=
  { p with checker := { p.checker with conflicts } }

end Pass

namespace Typing

section

variable {p : Pass} {a : Arena} {type : TypeId}

/-- A message is judged by a guard, whatever conflicts wait to be reported. -/
theorem judge_ends (hclosed : p.table.Closed) (hproper : p.checker.bindings.Proper p.table)
    (htype : type.index < p.table.size) {guard : TypeId} (hguard : guard.index < p.table.size) :
    ∃ verdict c, p.judge type guard = .ok (verdict, c) ∧ c.bindings.Proper p.table ∧
      p.accepts type guard = verdict ∧ ∀ pending,
        Checking.canAssign p.table guard type (p.withConflicts pending).checker =
          .ok (verdict, { c with conflicts := pending ++ p.meets type guard }) := by
  obtain ⟨verdict, c, met, hrun, hc, hmet, hpending⟩ := canAssign_meets hclosed hproper hguard htype
  have hjudge : p.judge type guard = .ok (verdict, c) := hrun
  refine ⟨verdict, c, hjudge, hc, by simp [Pass.accepts, hjudge], fun pending => ?_⟩
  have hmeets : p.meets type guard = met := by simp [Pass.meets, hjudge, hmet]
  rw [hmeets]
  exact hpending pending

/-- A guard that refuses a message leaves behind only the conflicts that it met, which wait with
those of the guards before it. -/
theorem firstMatch?_from (ht : p.table.Sound) (hproper : p.checker.bindings.Proper p.table)
    (htype : type.index < p.table.size) (message : NodeId) (handlers : List (TypeId × TypeId))
    (hhandlers : ∀ handler ∈ handlers,
      handler.1.index < p.table.size ∧ handler.2.index < p.table.size) (pending : List Conflict) :
    Ends (firstMatch? a message type handlers) (p.withConflicts pending) fun found p' =>
      match handlers.find? fun handler => p.accepts type handler.1 with
      | some (guard, answer) => ∃ c result table, p.judge type guard = .ok (true, c) ∧
        Tabling.substitute answer (c.bindings.resolutions p.table) p.table = .ok (result, table) ∧
        found = some (result, guard) ∧ p' = { p with
          checker := { c with conflicts := [] }
          space := { p.space with table } }
      | none => found = none ∧
        p' = p.reporting a message (pending ++ handlers.flatMap fun handler =>
          p.meets type handler.1) := by
  induction handlers generalizing pending with
  | nil =>
    rw [firstMatch?, ends_bind_iff]
    refine (reportConflicts_ends_with _ a message).mono ?_
    rintro _ _ rfl
    refine ⟨rfl, ?_⟩
    simp [Pass.withConflicts, Pass.reporting, Pass.log, Pass.table]
  | cons handler rest ih =>
    obtain ⟨guard, answer⟩ := handler
    obtain ⟨⟨hguard, hanswer⟩, hrest⟩ := List.forall_mem_cons.mp hhandlers
    obtain ⟨verdict, c, hjudge, hc, haccepts, hrun⟩ :=
      judge_ends ht.closed hproper htype hguard
    rw [firstMatch?, List.find?_cons, haccepts]
    simp only [ends_bind_iff, ends_get_iff, ends_checking_iff]
    refine ends_iff.mpr ⟨verdict, _, hrun pending, ?_⟩
    cases verdict with
    | true =>
      simp only [if_true, ends_bind_iff, ends_takeConflicts_iff, ends_get_iff, ends_tabling_iff,
        ends_pure_iff]
      obtain ⟨result, table, hsubstitute, -⟩ := ends_iff.mp
        (substitute_ends ht hanswer fun _ => hc.lt.resolutions)
      exact ends_iff.mpr
        ⟨result, table, hsubstitute, c, result, table, hjudge, hsubstitute, rfl, rfl⟩
    | false =>
      have hretains : p.checker.Retains
          { c with conflicts := pending ++ p.meets type guard } := by
        have h := canAssign_retains p.table guard type p.checker false c hjudge
        exact ⟨h.unwraps_eq, h.verdicts_suffix⟩
      simp only [Bool.false_eq_true, if_false, ends_bind_iff, ends_modify_iff]
      have hback : ({ c with conflicts := pending ++ p.meets type guard } : Checker).rollback
          (p.withConflicts pending).checker.checkpoint =
            (p.withConflicts (pending ++ p.meets type guard)).checker := hretains.rollback_eq
      rw [hback]
      have hfound := ih hrest (pending ++ p.meets type guard)
      simp only [List.append_assoc] at hfound
      exact hfound

/-- Of the handlers of a type the first one answers whose guard takes the message, judged from what
was known before any of them was tried. What that guard leads to is all that is known from then on,
and nothing is reported. If no guard takes the message, what is known stays as it was, and all
conflicts that the guards met are reported at the message, in the order of the handlers. -/
theorem firstMatch?_eq_find? (ht : p.table.Sound) (hproper : p.checker.bindings.Proper p.table)
    (htype : type.index < p.table.size) (a : Arena) (message : NodeId) (receiver : TypeId) :
    (∀ handler ∈ (p.table.get receiver).handlers, ∃ verdict c,
      p.judge type handler.1 = .ok (verdict, c) ∧ p.accepts type handler.1 = verdict ∧
      c.conflicts = p.checker.conflicts ++ p.meets type handler.1) ∧
    ∃ found p', firstMatch? a message type (p.table.get receiver).handlers p = .ok (found, p') ∧
      match (p.table.get receiver).handlers.find? fun handler => p.accepts type handler.1 with
      | some (guard, answer) => ∃ c result table, p.judge type guard = .ok (true, c) ∧
        Tabling.substitute answer (c.bindings.resolutions p.table) p.table = .ok (result, table) ∧
        found = some (result, guard) ∧ p' = { p with
          checker := { c with conflicts := [] }
          space := { p.space with table } }
      | none => found = none ∧ p' = p.reporting a message
        (p.checker.conflicts ++ (p.table.get receiver).handlers.flatMap fun handler =>
          p.meets type handler.1) := by
  refine ⟨fun handler hhandler => ?_, ends_iff.mp (firstMatch?_from ht hproper htype message _
    (fun handler hhandler => ht.handler_lt hhandler) p.checker.conflicts)⟩
  obtain ⟨verdict, c, hjudge, -, haccepts, hrun⟩ :=
    judge_ends ht.closed hproper htype (ht.handler_lt hhandler).1
  refine ⟨verdict, c, hjudge, haccepts, ?_⟩
  have hsame := hjudge.symm.trans (hrun p.checker.conflicts)
  exact congrArg (fun pair => pair.2.conflicts) (Except.ok.inj hsame)

/-- A wildcard, a pair of it and a number, a pair of strings, and what answers the one pair with a
number and all else with itself. -/
def guardedTypes : TypeTable :=
  let t := (TypeTable.initial.push { name := some "$A", shape := .wildcard }).2
  let t := (t.push { shape := .compound [⟨"x", ⟨18⟩, false⟩, ⟨"y", .number, false⟩] }).2
  let t := (t.push { shape := .compound [⟨"x", .string, false⟩, ⟨"y", .string, false⟩] }).2
  (t.push { handlers := [(⟨19⟩, .number), (⟨18⟩, ⟨18⟩)] }).2

theorem sound_guardedTypes : guardedTypes.Sound :=
  (((TypeTable.initial_sound.push (by decide +kernel) rfl).push (by decide +kernel) rfl).push
    (by decide +kernel) rfl).push (by decide +kernel) rfl

/-- The pair of strings is refused as a pair of the wildcard and a number, after the wildcard has taken
a string. The second guard, which is the wildcard itself, takes all of the pair nevertheless. -/
theorem firstMatch?_eq_find?_guardedTypes :
    guardedTypes.Sound ∧ (Pass.bare guardedTypes).accepts ⟨20⟩ ⟨19⟩ = false ∧
      ∃ c table, firstMatch? .empty ⟨0⟩ ⟨20⟩ (guardedTypes.get ⟨21⟩).handlers (.bare guardedTypes) =
        .ok (some (⟨20⟩, ⟨18⟩), { Pass.bare guardedTypes with
          checker := c
          space := { TypeSpace.initial with table } }) ∧
        c.bindings = [⟨[⟨18⟩], some ⟨20⟩⟩] ∧ c.verdicts = [] ∧ c.conflicts = [] := by
  have hproper : (Pass.bare guardedTypes).checker.bindings.Proper guardedTypes :=
    fun _ hcls => nomatch hcls
  have hlt : (⟨20⟩ : TypeId).index < guardedTypes.size := by decide +kernel
  have hfind : ((Pass.bare guardedTypes).table.get ⟨21⟩).handlers.find? (fun handler =>
      (Pass.bare guardedTypes).accepts ⟨20⟩ handler.1) = some (⟨18⟩, ⟨18⟩) := by decide +kernel
  obtain ⟨-, found, p', hrun, hfound⟩ := firstMatch?_eq_find? (p := .bare guardedTypes)
    sound_guardedTypes hproper hlt .empty ⟨0⟩ ⟨21⟩
  rw [hfind] at hfound
  obtain ⟨c, result, table, hjudge, hsubstitute, rfl, rfl⟩ := hfound
  have hknown : ((Pass.bare guardedTypes).judge ⟨20⟩ ⟨18⟩).map
      (fun judged => (judged.2.bindings, judged.2.verdicts)) =
        .ok ([⟨[⟨18⟩], some ⟨20⟩⟩], []) := by decide +kernel
  rw [hjudge] at hknown
  obtain ⟨hbindings, hverdicts⟩ := Prod.mk.inj (Except.ok.inj hknown)
  have hresult : (Tabling.substitute ⟨18⟩
      (Bindings.resolutions [⟨[⟨18⟩], some ⟨20⟩⟩] guardedTypes) guardedTypes).map (·.1) =
        .ok ⟨20⟩ := by decide +kernel
  rw [hbindings] at hsubstitute
  change Tabling.substitute ⟨18⟩ (Bindings.resolutions [⟨[⟨18⟩], some ⟨20⟩⟩] guardedTypes)
    guardedTypes = .ok (result, table) at hsubstitute
  rw [hsubstitute] at hresult
  obtain rfl := Except.ok.inj hresult
  exact ⟨sound_guardedTypes, by decide +kernel, _, table, hrun, hbindings, hverdicts, rfl⟩

end

end Typing

end MessageLang
