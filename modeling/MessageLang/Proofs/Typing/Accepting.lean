import MessageLang.Proofs.Assign.Conflicts
import MessageLang.Proofs.Typing.Steps

namespace MessageLang

/-- What is reported of a conflict at a node. -/
def Conflict.report (a : Arena) (node : NodeId) (t : TypeTable) (conflict : Conflict) : Report :=
  ⟨.wildcardConflict (t.display conflict.wildcard) (t.display conflict.bound), node, a.span node⟩

/-- A log with more reports at its end. -/
def Log.extend (log : Log) (more : List Report) : Log := ⟨log.reports ++ more.toArray⟩

@[simp]
theorem Log.extend_nil (log : Log) : log.extend [] = log := by simp [Log.extend]

@[simp]
theorem Log.toList_extend (log : Log) (more : List Report) :
    (log.extend more).toList = log.toList ++ more := by simp [Log.extend, Log.toList]

/-- A pass whose checker has handed over its conflicts, which have been reported at a node. -/
def Pass.reporting (p : Pass) (a : Arena) (node : NodeId) (conflicts : List Conflict) : Pass :=
  { p with
    checker := { p.checker with conflicts := [] }
    space := { p.space with log := p.log.extend (conflicts.map (Conflict.report a node p.table)) } }

/-- A pass that knows nothing but some types. -/
def Pass.bare (t : TypeTable) : Pass where
  space := { TypeSpace.initial with table := t }
  checker := .new true
  terms := .empty
  scope := Scopes.root
  typeScope := Scopes.root
  types := []
  coercions := []
  escapes := []
  breaks := []
  placeholders := #[]
  ofLocal := []
  resolving := []
  resolved := []

namespace Typing

section

variable {α : Type} {p : Pass} {a : Arena} {node : NodeId}

theorem ends_reading_iff {step : Reading α} {post : α → Pass → Prop} :
    Ends (reading step) p post ↔ Ends step p.space fun result space => post result { p with space } := by
  simp only [Ends, reading, bind, Except.bind, pure, Except.pure]
  cases step p.space <;> rfl

theorem ends_checking_iff {step : TypeTable → Checking α} {post : α → Pass → Prop} :
    Ends (checking step) p post ↔
      Ends (step p.table) p.checker fun result checker => post result { p with checker } := by
  simp only [Ends, checking, bind, Except.bind, pure, Except.pure]
  cases step p.table p.checker <;> rfl

theorem ends_tabling_iff {change : Tabling α} {post : α → Pass → Prop} :
    Ends (tabling change) p post ↔ Ends change p.table fun result table =>
      post result { p with space := { p.space with table } } := by
  rw [tabling, ends_reading_iff, Reading.ends_tabling_iff]
  rfl

theorem ends_takeConflicts_iff {post : List Conflict → Pass → Prop} :
    Ends (checking fun _ => Checking.takeConflicts) p post ↔
      post p.checker.conflicts { p with checker := { p.checker with conflicts := [] } } := .rfl

/-- All conflicts that are there are reported, in order. -/
theorem reportConflicts_ends_with (p : Pass) (a : Arena) (node : NodeId) :
    Ends (reportConflicts a node) p fun _ p' => p' = p.reporting a node p.checker.conflicts := by
  rw [reportConflicts, ends_bind_iff, ends_takeConflicts_iff, ends_bind_iff]
  let inv (done : List Conflict) (p' : Pass) : Prop := p' = p.reporting a node done
  have hstart : inv [] { p with checker := { p.checker with conflicts := [] } } := by
    simp [inv, Pass.reporting, Pass.log]
  refine Ends.mono (ends_forIn ?_ hstart) fun _ _ h => h
  rintro done conflict - _ rfl
  simp only [ends_bind_iff, ends_get_iff, report, ends_reading_iff, Reading.ends_report_iff,
    ends_pure_iff]
  refine ⟨trivial, ?_⟩
  simp [inv, Pass.reporting, Log.extend, Log.report, Conflict.report, Pass.table]

/-- Checking that a type fits reports what is in conflict then, whether it does or not. -/
theorem fits_eq {target source : TypeId} {verdict : Bool} {c : Checker}
    (h : Checking.canAssign p.table target source p.checker = .ok (verdict, c)) :
    fits a node target source p =
      .ok (verdict, ({ p with checker := c } : Pass).reporting a node c.conflicts) := by
  have hends : Ends (fits a node target source) p fun v p' =>
      v = verdict ∧ p' = ({ p with checker := c } : Pass).reporting a node c.conflicts := by
    rw [fits, ends_bind_iff, ends_checking_iff]
    refine ends_iff.mpr ⟨verdict, c, h, ?_⟩
    rw [ends_bind_iff]
    exact (reportConflicts_ends_with _ a node).mono fun _ _ heq => ⟨rfl, heq⟩
  obtain ⟨_, _, hrun, rfl, rfl⟩ := ends_iff.mp hends
  exact hrun

/-- A comparison ends, and if it is met it meets no conflict, so nothing is reported but what was in
conflict before: if there is more than one way only to meet demands on types without wildcards. -/
theorem fits_accepted {target source : TypeId} (hclosed : p.table.Closed)
    (hproper : p.checker.bindings.Proper p.table) (htarget : target.index < p.table.size)
    (hsource : source.index < p.table.size)
    (hforks : ∀ a b, p.checker.Involves p.table target source a →
      p.checker.Involves p.table target source b →
        p.table.Forks p.checker.unwrapsSingleField a b → Demand.WildcardFree p.table ⟨a, b⟩) :
    ∃ verdict c, Checking.canAssign p.table target source p.checker = .ok (verdict, c) ∧
      (verdict = true → c.conflicts = p.checker.conflicts ∧
        ∀ node, fits a node target source p = .ok (true,
          ({ p with checker := c } : Pass).reporting a node p.checker.conflicts)) := by
  obtain ⟨verdict, c, hrun, -⟩ :=
    ends_iff.mp (MessageLang.canAssign_proper hclosed hproper htarget hsource)
  refine ⟨verdict, c, hrun, fun haccepted => ?_⟩
  have hclean := canAssignWithin_clean (P := p.checker.Involves p.table target source)
    (fun _ hid _ hpart => hid.component hpart) hforks _ target source ⟨target, .inl rfl, .refl⟩
    ⟨source, .inr (.inl rfl), .refl⟩ p.checker
    ⟨rfl, fun cls hcls bound hbound => ⟨bound, .inr (.inr ⟨cls, hcls, hbound⟩), .refl⟩⟩ verdict c hrun
  have hconflicts := hclean.2 haccepted
  refine ⟨hconflicts, fun node => ?_⟩
  rw [fits_eq (haccepted ▸ hrun), hconflicts]

/-- A pair of a function and a wildcard, and one of an object with two handlers and a type. -/
def forkedPairs : TypeTable where
  types := #[{ shape := .wildcard }, { symbols := [("length", ⟨1⟩)] },
    { symbols := [("negative", ⟨2⟩)] }, { handlers := [(⟨1⟩, ⟨1⟩)] },
    { handlers := [(⟨2⟩, ⟨2⟩), (⟨1⟩, ⟨1⟩)] },
    { shape := .compound [⟨"f", ⟨3⟩, false⟩, ⟨"x", ⟨0⟩, false⟩] },
    { shape := .compound [⟨"f", ⟨4⟩, false⟩, ⟨"x", ⟨1⟩, false⟩] }]
  unions := []

/-- The second handler does where the first one does not, after which the wildcard takes the type. -/
def forkedPairsMet : Checker :=
  ⟨[(⟨⟨2⟩, ⟨1⟩⟩, false), (⟨⟨3⟩, ⟨4⟩⟩, true), (⟨⟨5⟩, ⟨6⟩⟩, true)], [⟨[⟨0⟩], some ⟨1⟩⟩], [], true⟩

theorem fits_accepted_forkedPairs :
    forkedPairs.Closed ∧ (Pass.bare forkedPairs).checker.bindings.Proper forkedPairs ∧
      (∀ a b, (Pass.bare forkedPairs).checker.Involves forkedPairs ⟨5⟩ ⟨6⟩ a →
        (Pass.bare forkedPairs).checker.Involves forkedPairs ⟨5⟩ ⟨6⟩ b →
          forkedPairs.Forks true a b → Demand.WildcardFree forkedPairs ⟨a, b⟩) ∧
      forkedPairs.Forks true ⟨3⟩ ⟨4⟩ ∧
      fits .empty ⟨0⟩ ⟨5⟩ ⟨6⟩ (.bare forkedPairs) =
        .ok (true, { Pass.bare forkedPairs with checker := forkedPairsMet }) := by
  have hclosed : forkedPairs.Closed := TypeTable.closed_iff.mpr (by decide)
  have hproper : (Pass.bare forkedPairs).checker.bindings.Proper forkedPairs := fun _ hcls => nomatch hcls
  have hfree : ∀ id ∈ [(⟨1⟩ : TypeId), ⟨2⟩, ⟨3⟩, ⟨4⟩], forkedPairs.WildcardFree id := fun _ =>
    TypeTable.wildcardFree_of_closed (P := (· ∈ [(⟨1⟩ : TypeId), ⟨2⟩, ⟨3⟩, ⟨4⟩])) (by decide)
      (by decide)
  have hforks : ∀ a b, (Pass.bare forkedPairs).checker.Involves forkedPairs ⟨5⟩ ⟨6⟩ a →
      (Pass.bare forkedPairs).checker.Involves forkedPairs ⟨5⟩ ⟨6⟩ b →
        forkedPairs.Forks true a b → Demand.WildcardFree forkedPairs ⟨a, b⟩ := by
    intro a b ha hb hfork
    have hlt : a.index < forkedPairs.size ∧ b.index < forkedPairs.size :=
      ⟨ha.lt hclosed (by decide) (by decide) hproper.lt,
        hb.lt hclosed (by decide) (by decide) hproper.lt⟩
    rcases hfork with ⟨hhandlers, hmore⟩ | ⟨-, only, inner, honly, -⟩
    · have hobjects : ∀ i < forkedPairs.size, (forkedPairs.get ⟨i⟩).handlers ≠ [] →
          (⟨i⟩ : TypeId) ∈ [(⟨1⟩ : TypeId), ⟨2⟩, ⟨3⟩, ⟨4⟩] := by decide
      refine ⟨hfree a (hobjects _ hlt.1 hhandlers), hfree b (hobjects _ hlt.2 fun hnone => ?_)⟩
      rw [hnone] at hmore
      cases hmore
    · have hpairs : ∀ i < forkedPairs.size,
          (forkedPairs.fields? ⟨i⟩).map List.length ≠ some 1 := by decide
      exact absurd (by rw [honly]; rfl) (hpairs _ hlt.1)
  have hrun : Checking.canAssign forkedPairs ⟨5⟩ ⟨6⟩ (.new true) = .ok (true, forkedPairsMet) := rfl
  have htarget : (⟨5⟩ : TypeId).index < forkedPairs.size := by decide
  have hsource : (⟨6⟩ : TypeId).index < forkedPairs.size := by decide
  obtain ⟨_, _, hrun', haccepted⟩ :=
    fits_accepted (a := .empty) (p := .bare forkedPairs) hclosed hproper htarget hsource hforks
  cases hrun.symm.trans hrun'
  exact ⟨hclosed, hproper, hforks, .inl ⟨by decide, by decide⟩, (haccepted rfl).2 ⟨0⟩⟩

end

end Typing

end MessageLang
