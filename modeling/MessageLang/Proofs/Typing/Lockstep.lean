import MessageLang.Proofs.Typing.Reporting
import MessageLang.Typing.State

namespace MessageLang

namespace Log

/-- A log without what it says since a certain size about code that is not reached. -/
def muted (base : Nat) (log : Log) : Log :=
  ⟨(log.toList.take base ++ (log.since base).filter (·.problem ≠ .unreachableCode)).toArray⟩

variable {base : Nat} {log log' : Log} {a : Arena} {node : NodeId} {problem : Problem}

theorem toList_muted_of_append (hbase : base ≤ log.size) {more : List Report}
    (h : log'.toList = log.toList ++ more) : (log'.muted base).toList =
      (log.muted base).toList ++ more.filter (·.problem ≠ .unreachableCode) := by
  rw [size_eq_length] at hbase
  simp only [muted, toList, since] at h hbase ⊢
  rw [h, List.take_append_of_le_length hbase, List.drop_append_of_le_length hbase,
    List.filter_append, List.append_assoc]

theorem eq_of_toList_eq (h : log.toList = log'.toList) : log = log' := by
  cases log
  cases log'
  exact congrArg Log.mk (Array.toList_inj.mp h)

theorem muted_size (log : Log) : log.muted log.size = log := by
  refine eq_of_toList_eq ?_
  change log.toList.take log.size ++ (log.toList.drop log.size).filter _ = log.toList
  rw [size_eq_length, List.take_length, List.drop_length]
  exact List.append_nil _

/-- A log that says nothing about code that is not reached before a certain size. -/
theorem toList_muted_of_forall (h : ∀ r ∈ log.toList.take base, r.problem ≠ .unreachableCode) :
    (log.muted base).toList = log.toList.filter (·.problem ≠ .unreachableCode) := by
  conv_rhs => rw [← List.take_append_drop base log.toList, List.filter_append]
  rw [List.filter_eq_self.mpr fun r hr => by simpa using h r hr]
  rfl

theorem muted_report (hbase : base ≤ log.size) (hproblem : problem ≠ .unreachableCode) :
    (log.report a node problem).muted base = (log.muted base).report a node problem := by
  refine eq_of_toList_eq ?_
  rw [toList_muted_of_append hbase (toList_report ..), toList_report]
  exact congrArg _ (List.filter_cons_of_pos (by simpa using hproblem))

theorem muted_report_unreachable (hbase : base ≤ log.size) :
    (log.report a node .unreachableCode).muted base = log.muted base := by
  refine eq_of_toList_eq ?_
  rw [toList_muted_of_append hbase (toList_report ..)]
  exact List.append_nil _

/-- Going back to an earlier size is the same with and without what is left out. -/
theorem muted_restore (hbase : base ≤ log.size) (h : log.toList <+: log'.toList) :
    (log'.restore log.size).muted base = (log'.muted base).restore (log.muted base).size := by
  obtain ⟨more, hmore⟩ := h
  rw [restore_eq hmore.symm, restore_eq (toList_muted_of_append hbase hmore.symm)]

theorem size_le_of_prefix (h : log.toList <+: log'.toList) : log.size ≤ log'.size := by
  rw [size_eq_length, size_eq_length]
  exact h.length_le

end Log

/-- A state with a log. -/
class Logging (σ : Type) where
  log : σ → Log
  withLog : σ → Log → σ

instance : Logging TypeSpace := ⟨TypeSpace.log, fun space log => { space with log }⟩

instance : Logging Pass := ⟨Pass.log, fun p log => { p with space := { p.space with log } }⟩

open Logging (log withLog)

section

variable {σ α β : Type} [Logging σ]

/-- A state as it would be if code that is not reached had not been reported since the log had a
certain size. -/
def mute (base : Nat) (s : σ) : σ := withLog s ((log s).muted base)

/-- From a state and from the muted one, two steps come to the same, and to states of which the one
is the other muted. -/
def Mirrors (base : Nat) (f g : StateT σ (Except Fault) α) (s : σ) : Prop :=
  g (mute base s) = (f s).map fun (r, s') => (r, mute base s')

/-- Two steps, of which the first one may report code that is not reached and the second one does
not. Neither takes anything back that was reported before. -/
structure InStep (base : Nat) (f g : StateT σ (Except Fault) α) : Prop where
  mirrors : ∀ s, base ≤ (log s).size → Mirrors base f g s
  grows : ∀ s, After f s fun _ s' => (log s).toList <+: (log s').toList

variable {base : Nat} {f g : StateT σ (Except Fault) α} {k k' : α → StateT σ (Except Fault) β} {s : σ}

theorem Mirrors.bind (h : Mirrors base f g s)
    (hnext : ∀ r s', f s = .ok (r, s') → Mirrors base (k r) (k' r) s') :
    Mirrors base (f >>= k) (g >>= k') s := by
  unfold Mirrors at h ⊢
  simp only [Bind.bind, StateT.bind, h]
  cases hrun : f s with
  | error fault => rfl
  | ok result => exact hnext result.1 result.2 hrun

theorem mirrors_pure (r : α) (s : σ) : Mirrors base (pure r) (pure r) s := rfl

theorem Mirrors.get {k k' : σ → StateT σ (Except Fault) β}
    (h : Mirrors base (k s) (k' (mute base s)) s) : Mirrors base (get >>= k) (get >>= k') s := h

theorem Mirrors.modify {change change' : σ → σ} {f g : StateT σ (Except Fault) β}
    (hchange : change' (mute base s) = mute base (change s)) (h : Mirrors base f g (change s)) :
    Mirrors base (modify change >>= fun _ => f) (modify change' >>= fun _ => g) s := by
  rw [Mirrors, ← hchange] at h
  exact h

theorem Mirrors.ite {c c' : Prop} [Decidable c] [Decidable c'] {f' g' : StateT σ (Except Fault) α}
    (hc : c' = c) (h : Mirrors base f g s) (h' : Mirrors base f' g' s) :
    Mirrors base (if c then f else f') (if c' then g else g') s := by
  subst hc
  by_cases hc : c'
  · rw [if_pos hc, if_pos hc]
    exact h
  · rw [if_neg hc, if_neg hc]
    exact h'

namespace InStep

theorem pure (r : α) : InStep base (pure r : StateT σ (Except Fault) α) (pure r) :=
  ⟨fun s _ => mirrors_pure r s, fun _ => after_pure_iff.mpr (List.prefix_refl _)⟩

theorem throw (fault : Fault) : InStep base (throw fault : StateT σ (Except Fault) α) (throw fault) :=
  ⟨fun _ _ => rfl, fun _ => after_throw⟩

theorem seq (h : InStep base f g) (hnext : ∀ r, InStep base (k r) (k' r)) :
    InStep base (f >>= k) (g >>= k') where
  mirrors s hs := (h.mirrors s hs).bind fun r s' hrun =>
    (hnext r).mirrors s' (hs.trans (Log.size_le_of_prefix (h.grows s r s' hrun)))
  grows s := (h.grows s).bind fun r s' hgrows => ((hnext r).grows s').mono fun _ _ => hgrows.trans

/-- What is done with a state depends on nothing that is left out. -/
theorem get {k k' : σ → StateT σ (Except Fault) β} (hk : ∀ s, k' (mute base s) = k' s)
    (h : ∀ s, InStep base (k s) (k' s)) : InStep base (get >>= k) (get >>= k') where
  mirrors s hs := by
    have hsame := (h s).mirrors s hs
    rw [Mirrors, ← hk] at hsame
    exact hsame
  grows s := (after_bind_iff.trans after_get_iff).mpr ((h s).grows s)

theorem modify {change change' : σ → σ} (hlog : ∀ s, log (change s) = log s)
    (h : ∀ s, change' (mute base s) = mute base (change s)) :
    InStep base (modify change : StateT σ (Except Fault) PUnit) (modify change') :=
  ⟨fun s _ => congrArg (fun s' => Except.ok (PUnit.unit, s')) (h s),
    fun s => after_modify_iff.mpr (hlog s ▸ List.prefix_refl _)⟩

/-- Reading a state and setting it at once. -/
theorem get_set {change change' : σ → σ} {k k' : σ → StateT σ (Except Fault) β}
    (hlog : ∀ s, log (change s) = log s) (hchange : ∀ s, change' (mute base s) = mute base (change s))
    (hk : ∀ s, k' (mute base s) = k' s) (h : ∀ s, InStep base (k s) (k' s)) :
    InStep base (MonadState.get >>= fun s => set (change s) >>= fun _ => k s)
      (MonadState.get >>= fun s => set (change' s) >>= fun _ => k' s) where
  mirrors s hs := by
    have hsame := (h s).mirrors (change s) (hlog s ▸ hs)
    rw [Mirrors, ← hchange, ← hk] at hsame
    exact hsame
  grows s := by
    simp only [after_bind_iff, after_get_iff, after_set_iff]
    exact hlog s ▸ (h s).grows (change s)

theorem sequential : Sequential fun (f g : StateT σ (Except Fault) _) => InStep base f g := ⟨pure, seq⟩

theorem mapM {items : List α} {step step' : α → StateT σ (Except Fault) β}
    (h : ∀ item, InStep base (step item) (step' item)) :
    InStep base (items.mapM step) (items.mapM step') :=
  sequential.mapM fun item _ => h item

theorem forM {items : List α} {step step' : α → StateT σ (Except Fault) PUnit}
    (h : ∀ item, InStep base (step item) (step' item)) :
    InStep base (items.forM step) (items.forM step') :=
  sequential.forM fun item _ => h item

theorem option {item? : Option α} {step step' : α → StateT σ (Except Fault) β}
    (h : ∀ item, InStep base (step item) (step' item)) :
    InStep base (item?.mapM step) (item?.mapM step') := sequential.option h

theorem forIn {items : List α} {step step' : α → PUnit → StateT σ (Except Fault) (ForInStep PUnit)}
    (h : ∀ item, InStep base (step item ⟨⟩) (step' item ⟨⟩)) :
    InStep base (forIn items PUnit.unit step) (forIn items PUnit.unit step') :=
  sequential.forIn fun item _ => h item

end InStep

end

namespace Reading

variable {base : Nat} {a : Arena} {scope : ScopeId} {node : NodeId} {read : NodeId → Reading TypeId}

theorem tabling_inStep {α : Type} (change : Tabling α) :
    InStep base (Reading.tabling change) (Reading.tabling change) where
  mirrors space _ := by
    unfold Mirrors Reading.tabling
    cases hchange : change space.table with
    | error fault => simp [mute, Logging.withLog, hchange, bind, Except.bind, Except.map]
    | ok result =>
      simp [mute, Logging.withLog, Logging.log, hchange, bind, Except.bind, pure, Except.pure,
        Except.map]
  grows space := by
    intro r space' hrun
    simp only [Reading.tabling, bind, Except.bind] at hrun
    split at hrun
    · cases hrun
    · cases hrun
      exact List.prefix_refl _

theorem report_inStep {problem : Problem} (hproblem : problem ≠ .unreachableCode) :
    InStep base (Reading.report a node problem) (Reading.report a node problem) where
  mirrors space hbase := by
    refine congrArg (fun log => Except.ok (PUnit.unit, { space with log })) ?_
    exact (Log.muted_report hbase hproblem).symm
  grows space := after_modify_iff.mpr (by
    simp only [Logging.log, Log.toList_report]
    exact List.prefix_append _ _)

theorem named?_inStep (name : String) :
    InStep base (named? a scope node name) (named? a scope node name) := by
  refine .get (fun _ => rfl) fun space => ?_
  split
  · exact .pure _
  · exact (report_inStep (by simp)).seq fun _ => .pure _

theorem parameter_inStep (name : String) : InStep base (parameter scope name) (parameter scope name) := by
  refine .get (fun _ => rfl) fun space => ?_
  split
  · exact .pure _
  · exact (tabling_inStep _).seq fun _ => .seq (.modify (fun _ => rfl) fun _ => rfl) fun _ => .pure _

variable (hread : ∀ child, InStep base (read child) (read child))
include hread

theorem fieldsFrom_inStep (index : Nat) (names : List String) (nodes : List NodeId) :
    InStep base (fieldsFrom a read index names nodes) (fieldsFrom a read index names nodes) := by
  induction nodes generalizing index names with
  | nil => exact .pure _
  | cons child rest ih =>
    rw [fieldsFrom]
    split
    · dsimp only
      split
      · exact (report_inStep (by simp)).seq fun _ => ih _ _
      · exact (hread child).seq fun _ => (ih _ _).seq fun _ => .pure _
    · exact ih _ _

theorem instantiate_inStep (name : String) (arguments : List NodeId) :
    InStep base (instantiate a scope read node name arguments)
      (instantiate a scope read node name arguments) := by
  refine (named?_inStep name).seq fun found => ?_
  split
  · exact .pure _
  · refine (InStep.mapM hread).seq fun arguments => .get (fun _ => rfl) fun space => ?_
    dsimp only
    split
    · exact tabling_inStep _
    · exact (report_inStep (by simp)).seq fun _ => .pure _

theorem declare_inStep (type : TypeId) (declaration : NodeId) :
    InStep base (declare a read type declaration) (declare a read type declaration) := by
  rw [declare]
  split
  · exact (hread _).seq fun _ => tabling_inStep _
  · exact (hread _).seq fun _ => (hread _).seq fun _ => tabling_inStep _
  · exact .pure _

theorem readForm_inStep (form : TypeForm) :
    InStep base (readForm a scope read node form) (readForm a scope read node form) := by
  cases form with
  | empty => exact .pure _
  | simple name => exact (named?_inStep name).seq fun _ => .pure _
  | parameter name => exact parameter_inStep name
  | typedField _ | nestedType =>
    rw [readForm]
    split
    · exact hread _
    · exact .pure _
  | compound => exact (fieldsFrom_inStep hread 0 [] _).seq fun _ => tabling_inStep _
  | template name => exact instantiate_inStep hread name _
  | functionType =>
    rw [readForm]
    split
    · exact (hread _).seq fun _ => (hread _).seq fun _ => tabling_inStep _
    · exact .pure _
  | mergedType => exact (InStep.mapM hread).seq fun _ => tabling_inStep _
  | inlineType =>
    exact (tabling_inStep _).seq fun type =>
      (InStep.forM fun declaration => declare_inStep hread type declaration).seq fun _ => .pure _
  | inlineDeclaration symbol =>
    exact (tabling_inStep _).seq fun type => (declare_inStep hread type node).seq fun _ => .pure _

omit hread in
/-- What types mean depends on nothing that has been reported. -/
theorem type_inStep (node : NodeId) :
    InStep base (Reading.type a scope node) (Reading.type a scope node) := by
  suffices hwithin : ∀ height node,
      InStep base (readWithin a scope height node) (readWithin a scope height node) from
    hwithin a.size node
  intro height
  induction height with
  | zero => exact fun _ => .throw _
  | succ height ih =>
    intro node
    rw [readWithin]
    split
    · exact .pure _
    · exact readForm_inStep ih _

end Reading

end MessageLang
