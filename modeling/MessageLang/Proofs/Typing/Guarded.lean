import MessageLang.Proofs.Typing.Following

namespace MessageLang

open MessageLang.Tree (Direct)

namespace Typing

open Pass

/-- A node that is an expression where typing stands, and that can be typed from there without coming
upon certain nodes. -/
def Reachable (a : Arena) (R : Tree) (base : Nat) (entered : List NodeId) (node : NodeId) (p : Pass) :
    Prop :=
  ∃ path N, N.id = node ∧ p.Stands a R base path ∧ R.Within path N ∧ Direct path N ∧
    ∀ x ∈ entered, ¬ p.Touches path [N] x

open Classical in
/-- A way to find the types of nodes, kept to the states in which typing may come to the node. What
holds of these holds of it in all states. -/
noncomputable def guarded (a : Arena) (R : Tree) (base : Nat) (entered : List NodeId)
    (compute : NodeId → Typing TypeId) (node : NodeId) : Typing TypeId := fun p =>
  if Reachable a R base entered node p then compute node p else .error .unending

variable {a : Arena} {options : TypingOptions} {R N : Tree} {base steps : Nat} {p : Pass}
  {path : List Tree} {entered : List NodeId} {compute : NodeId → Typing TypeId} {node : NodeId}
  {post : List Tree → Tree → Pass → TypeId → Pass → Prop}

theorem guarded_follows : Follows (guarded a R base entered compute node) (compute node) := by
  intro p result hrun
  rw [guarded] at hrun
  split at hrun
  · exact hrun
  · cases hrun

theorem guarded_computes (h : Computes a R base entered compute) :
    Computes a R base entered (guarded a R base entered compute) := by
  intro p path N hp hN hdirect hfresh
  have hreach : Reachable a R base entered N.id p := ⟨path, N, rfl, hp, hN, hdirect, hfresh⟩
  have heq : guarded a R base entered compute N.id p = compute N.id p := if_pos hreach
  have hends := h p path N hp hN hdirect hfresh
  rwa [Ends, ← heq] at hends

theorem guarded_after (hnodup : R.ids.Nodup)
    (h : ∀ p path N, p.Stands a R base path → R.Within path N → Direct path N →
      (∀ x ∈ entered, ¬ p.Touches path [N] x) → After (compute N.id) p (post path N p))
    (hN : R.Within path N) :
    After (guarded a R base entered compute N.id) p (post path N p) := by
  intro type p' hrun
  rw [guarded] at hrun
  split at hrun
  · next hreach =>
    obtain ⟨path', M, hid, hstands, hM, hdirect, hfresh⟩ := hreach
    obtain ⟨rfl, rfl⟩ := hM.unique hN hnodup hid
    exact h p path' M hstands hM hdirect hfresh type p' hrun
  · cases hrun

/-- What a rule makes of an expression if the parts have been made that of, typing makes of all
expressions. Rules find their parts typed as said in every state, since only states in which typing
may come to them count. -/
theorem computeApart_after (hR : a.Ready R)
    (hrule : ∀ {p path N entered compute form}, p.Entering a R base path N entered compute →
      (∀ path C p, R.Within path C → After (compute C.id) p (post path C p)) →
        N.form = .expr form → After (ofForm a options compute N.id form) p (post path N p))
    (hnote : ∀ {path N p type p'}, post path N p type p' →
      post path N p type { p' with types := (N.id, type) :: p'.types })
    (hnodup : entered.Nodup) (hentered : entered ⊆ R.ids)
    (hsteps : R.ids.length ≤ entered.length + steps) (hstands : p.Stands a R base path)
    (hN : R.Within path N) (hdirect : Direct path N) (hfresh : ∀ x ∈ entered, ¬ p.Touches path [N] x) :
    After (computeApart a options steps entered N.id) p (post path N p) := by
  induction steps generalizing entered p path N with
  | zero => exact after_throw
  | succ steps ih =>
    have hnew : N.id ∉ entered := fun hmem =>
      hfresh _ hmem (.inl ⟨N, List.mem_singleton_self N, N.id_mem_ids⟩)
    have hnodup' := List.nodup_cons.mpr ⟨hnew, hnodup⟩
    have hentered' := List.cons_subset.mpr ⟨hN.ids_subset N.id_mem_ids, hentered⟩
    have hsteps' : R.ids.length ≤ (N.id :: entered).length + steps := by
      rw [List.length_cons]
      omega
    obtain ⟨compute, hfollows, hcompute, hparts⟩ : ∃ compute : NodeId → Typing TypeId,
        (∀ node, Follows (compute node) (computeApart a options steps (N.id :: entered) node)) ∧
          Computes a R base (N.id :: entered) compute ∧
            ∀ path C p, R.Within path C → After (compute C.id) p (post path C p) :=
      ⟨guarded a R base (N.id :: entered) (computeApart a options steps (N.id :: entered)),
        fun _ => guarded_follows, guarded_computes (computeApart_computes hR hnodup' hentered' hsteps'),
        fun _ _ _ hC => guarded_after hR.nodup
          (fun _ _ _ => ih hnodup' hentered' hsteps') hC⟩
    have henter : p.Entering a R base path N entered compute :=
      ⟨hR, hstands, hN, hdirect, hfresh, hcompute⟩
    obtain ⟨form, hform, -⟩ := hR.core path N hN
    have hends : Ends (ofForm a options compute N.id form) p (p.Finds a R base path N) :=
      ofForm_ends henter hform
    obtain ⟨type, p₁, hrun, -, h₁⟩ := ends_iff.mp (hends.and_after (hrule henter hparts hform))
    have hrun' := ofForm_follows hfollows N.id form p _ hrun
    rw [computeApart, if_neg hnew, (hR.expr?_eq_some_iff hN).mpr hform]
    dsimp only
    rw [after_bind_iff]
    intro type' p' hother
    cases hrun'.symm.trans hother
    rw [after_bind_iff, setType, after_modify_iff, after_pure_iff]
    exact hnote h₁

end Typing

end MessageLang
