import MessageLang.Proofs.Metering
import MessageLang.Proofs.Typing.Dues
import MessageLang.Proofs.Typing.Topics

namespace MessageLang

open Meter

/-- How often a log reports something on a topic. -/
def Log.heard (log : Log) (t : Topic) : Nat := log.toList.countP fun r => r.topic = t

theorem Log.heard_report (log : Log) (a : Arena) (node : NodeId) (problem : Problem) (t : Topic) :
    (log.report a node problem).heard t = log.heard t + t.charge node problem := by
  rw [heard, heard, Log.toList_report, List.countP_append, List.countP_singleton, Topic.charge]
  simp [Report.topic, eq_comm]

/-- Reading types is measured by the reports on a topic. -/
def TypeSpace.meter (t : Topic) : Meter TypeSpace where
  amount space := space.log.heard t
  Keeps _ _ := True
  refl _ := trivial
  trans _ _ := trivial

namespace Reading

variable {α : Type} {a : Arena} {t : Topic} {scope : ScopeId} {node : NodeId} {problem : Problem}
  {name : String} {read : NodeId → Reading TypeId} {parent : Option NodeId} {Y : Tree}
  {trees : List Tree} {form : TypeForm}

theorem grows_of_log {space space' : TypeSpace} (h : space'.log = space.log) :
    (TypeSpace.meter t).Grows space 0 space' :=
  ⟨trivial, (congrArg (fun log => log.heard t) h).le⟩

theorem tabling_costs {change : Tabling α} : (TypeSpace.meter t).Costs (tabling change) 0 :=
  fun _ => after_tabling fun _ _ => grows_of_log rfl

theorem report_costs :
    (TypeSpace.meter t).Costs (report a node problem) (t.charge node problem) :=
  costs_modify fun space => ⟨trivial, (space.log.heard_report a node problem t).le⟩

/-- Only a name that means nothing is reported. -/
theorem named?_after (t : Topic) (space : TypeSpace) :
    After (named? a scope node name) space fun found space' =>
      (TypeSpace.meter t).Grows space (if found.isSome then 0 else t.charge node (.unresolvedType name))
        space' := by
  rw [named?, after_bind_iff, after_get_iff]
  split
  · exact after_pure_iff.mpr (.refl _ _)
  · exact (report_costs space).bind fun _ _ h => after_pure_iff.mpr h

theorem parameter_costs : (TypeSpace.meter t).Costs (parameter scope name) 0 := by
  refine costs_get.seq fun space => ?_
  split
  · exact .pure _
  · exact tabling_costs.seq fun _ => Costs.seq (costs_modify fun _ => grows_of_log rfl) fun _ => .pure _

section

variable (hread : ∀ parent Z, a.Holds parent Z → (TypeSpace.meter t).Costs (read Z.id) (t.reading Z))
include hread

/-- A field is read or is reported. -/
theorem fieldsFrom_costs (htrees : ∀ Z ∈ trees, ∃ parent, a.Holds parent Z) (index : Nat)
    (names : List String) :
    (TypeSpace.meter t).Costs (fieldsFrom a read index names (trees.map Tree.id))
      (trees.map t.reading).sum := by
  induction trees generalizing index names with
  | nil => exact .pure _
  | cons Z trees ih =>
    obtain ⟨⟨_, hZ⟩, htrees⟩ := List.forall_mem_cons.mp htrees
    rw [List.map_cons, fieldsFrom, List.map_cons, List.sum_cons]
    split
    · dsimp only
      split
      · exact (report_costs.mono (Topic.charge_le_reading rfl)).bind fun _ => ih htrees _ _
      · exact (hread _ Z hZ).bind fun _ => (ih htrees _ _).last fun _ => .pure _
    · exact (ih htrees _ _).mono (Nat.le_add_left _ _)

variable (h : a.Holds parent Y)
include h

theorem mapM_costs : (TypeSpace.meter t).Costs ((Y.types.map Tree.id).mapM read)
    (Y.types.map t.reading).sum := by
  rw [List.mapM_map]
  exact costs_mapM fun Z hZ => hread _ Z (h.child (Tree.mem_children_of_mem_types hZ))

/-- What is reported of a template is that its name means nothing or that it has not the arguments
that it asks for. -/
theorem instantiate_costs :
    (TypeSpace.meter t).Costs (instantiate a scope read Y.id name (a.types Y.id)) (t.reading Y) := by
  intro space
  rw [instantiate, after_bind_iff, h.types_eq]
  refine (named?_after t space).mono fun found space₁ h₁ => ?_
  cases found with
  | none => exact after_pure_iff.mpr (h₁.mono (Topic.charge_le_reading rfl))
  | some template =>
    have hsum : (Y.types.map t.reading).sum + t.charge Y.id (.templateArity "" 0 0) ≤ t.reading Y := by
      rw [Nat.add_comm]
      exact Topic.charge_add_sum_reading_le rfl
    have h₁ : (TypeSpace.meter t).Grows space 0 space₁ := h₁
    refine ((mapM_costs hread h).on h₁).bind fun arguments space₂ h₂ => ?_
    rw [Nat.zero_add] at h₂
    rw [after_bind_iff, after_get_iff]
    dsimp only
    split
    · exact (tabling_costs.on h₂).mono fun _ _ h₃ => h₃.mono Topic.sum_reading_le
    · exact (report_costs.on h₂).bind fun _ _ h₃ => after_pure_iff.mpr (h₃.mono hsum)

theorem declare_costs {type : TypeId} :
    (TypeSpace.meter t).Costs (declare a read type Y.id) (t.reading Y) := by
  have hchild : ∀ Z ∈ Y.types, (TypeSpace.meter t).Costs (read Z.id) (t.reading Z) := fun Z hZ =>
    hread _ Z (h.child (Tree.mem_children_of_mem_types hZ))
  have hsum : (Y.types.map t.reading).sum ≤ t.reading Y := Topic.sum_reading_le
  rw [declare]
  split
  · next hanswer =>
    obtain ⟨Z, hparts, rfl⟩ := List.map_eq_singleton_iff.mp (h.types_eq.symm.trans hanswer)
    rw [hparts] at hchild hsum
    refine Costs.mono ?_ hsum
    exact (hchild Z (by simp)).bind fun _ => tabling_costs
  · next hpair =>
    obtain ⟨Z, rest, hparts, rfl, hrest⟩ := List.map_eq_cons_iff.mp (h.types_eq.symm.trans hpair)
    obtain ⟨W, rfl, rfl⟩ := List.map_eq_singleton_iff.mp hrest
    rw [hparts] at hchild hsum
    refine Costs.mono ?_ hsum
    exact (hchild Z (by simp)).bind fun _ => (hchild W (by simp)).bind fun _ => tabling_costs
  · exact (Costs.pure _).mono (Nat.zero_le _)

theorem readForm_costs : (TypeSpace.meter t).Costs (readForm a scope read Y.id form) (t.reading Y) := by
  have hchild : ∀ Z ∈ Y.types, (TypeSpace.meter t).Costs (read Z.id) (t.reading Z) := fun Z hZ =>
    hread _ Z (h.child (Tree.mem_children_of_mem_types hZ))
  have hsum : (Y.types.map t.reading).sum ≤ t.reading Y := Topic.sum_reading_le
  have hfirst : (TypeSpace.meter t).Costs (readForm a scope read Y.id .nestedType)
      (t.reading Y) := by
    rw [readForm, h.types_eq]
    cases hparts : Y.types with
    | nil => exact (Costs.pure _).mono (Nat.zero_le _)
    | cons Z rest =>
      rw [hparts, List.map_cons, List.sum_cons] at hsum
      exact (hchild Z (by simp [hparts])).mono (by omega)
  cases form with
  | empty => exact (Costs.pure _).mono (Nat.zero_le _)
  | simple name =>
    intro space
    rw [readForm]
    refine (named?_after t space).bind fun found _ h₁ => after_pure_iff.mpr (h₁.mono ?_)
    split
    · exact Nat.zero_le _
    · exact Topic.charge_le_reading rfl
  | parameter name => exact parameter_costs.mono (Nat.zero_le _)
  | typedField label => exact hfirst
  | nestedType => exact hfirst
  | compound =>
    rw [readForm, h.types_eq]
    have hfields : (TypeSpace.meter t).Costs (fieldsFrom a read 0 [] (Y.types.map Tree.id))
        (Y.types.map t.reading).sum :=
      fieldsFrom_costs hread (fun Z hZ => ⟨_, h.child (Tree.mem_children_of_mem_types hZ)⟩) 0 []
    exact (hfields.last fun _ => tabling_costs).mono hsum
  | template name => exact instantiate_costs hread h
  | functionType =>
    rw [readForm]
    split
    · next hpair =>
      obtain ⟨Z, rest, hparts, rfl, hrest⟩ := List.map_eq_cons_iff.mp (h.types_eq.symm.trans hpair)
      obtain ⟨W, rfl, rfl⟩ := List.map_eq_singleton_iff.mp hrest
      rw [hparts] at hchild hsum
      refine Costs.mono ?_ hsum
      exact (hchild Z (by simp)).bind fun _ => (hchild W (by simp)).bind fun _ => tabling_costs
    · exact (Costs.pure _).mono (Nat.zero_le _)
  | mergedType =>
    rw [readForm, h.types_eq]
    exact ((mapM_costs hread h).last fun _ => tabling_costs).mono hsum
  | inlineType =>
    have hforM : ∀ type, (Y.types.map Tree.id).forM (declare a read type) =
        Y.types.forM fun Z => declare a read type Z.id := fun _ => List.forM_map
    rw [readForm, h.types_eq]
    refine Costs.mono (tabling_costs.seq fun type => Costs.last ?_ fun _ => .pure _) hsum
    rw [hforM]
    exact costs_forM fun Z hZ => declare_costs hread (h.child (Tree.mem_children_of_mem_types hZ))
  | inlineDeclaration symbol =>
    exact tabling_costs.seq fun type => (declare_costs hread h).last fun _ => .pure _

end

/-- Reading a written type reports each fault in it once. -/
theorem type_costs (h : a.Holds parent Y) :
    (TypeSpace.meter t).Costs (Reading.type a scope Y.id) (t.reading Y) := by
  rw [Reading.type]
  suffices hheight : ∀ (height : Nat) (parent : Option NodeId) (Y : Tree), a.Holds parent Y →
      (TypeSpace.meter t).Costs (readWithin a scope height Y.id) (t.reading Y) from
    hheight _ _ _ h
  intro height
  induction height with
  | zero => exact fun _ _ _ => Costs.throw _
  | succ height ih =>
    intro parent Y h
    rw [readWithin]
    split
    · exact (Costs.pure _).mono (Nat.zero_le _)
    · exact readForm_costs ih h

end Reading

end MessageLang
