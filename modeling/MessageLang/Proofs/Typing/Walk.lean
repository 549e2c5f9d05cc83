import MessageLang.Proofs.Typing.Blocks
import MessageLang.Proofs.Typing.Handlers
import MessageLang.Proofs.Typing.Uses
import MessageLang.Typing.Pass

namespace MessageLang

open MessageLang.Tree (Direct)

namespace Typing

/-- Finds the type of a node as `computeWithin` does, but not while it is being found already:
coming upon one of the nodes entered is a fault. -/
def computeApart (a : Arena) (options : TypingOptions) : Nat → List NodeId → NodeId → Typing TypeId
  | 0, _, _ => throw .unending
  | steps + 1, entered, node =>
    if node ∈ entered then throw .unending
    else do
      let type ← match a.expr? node with
        | some form => ofForm a options (computeApart a options steps (node :: entered)) node form
        | none => pure .anything
      setType node type
      return type

open Pass

variable {a : Arena} {options : TypingOptions} {R N : Tree} {base : Nat} {p : Pass} {path : List Tree}
  {entered : List NodeId} {compute : NodeId → Typing TypeId} {form : ExprForm} {steps : Nat}

/-- Every rule finds a type and settles the parts of the expression. -/
theorem ofForm_ends (h : p.Entering a R base path N entered compute) (hform : N.form = .expr form) :
    Ends (ofForm a options compute N.id form) p (p.Finds a R base path N) := by
  obtain ⟨other, hother, hcore⟩ := h.ready.core path N h.within
  cases hform.symm.trans hother
  have hone : ∀ {form}, N.form = .expr form →
      form.admits N.exprForms N.types.length = (N.exprForms.length == 1 && N.types.length == 0) ∨
        form.admits N.exprForms N.types.length = (N.exprForms.length == 1 && N.types.length ≤ 1) →
      N.expressions.length = 1 := by
    intro form hform heq
    have hadmits := h.admits hform
    rcases heq with heq | heq <;>
    · rw [heq, Tree.length_exprForms, Bool.and_eq_true, beq_iff_eq] at hadmits
      exact hadmits.1
  cases form with
  | constant c => exact constant_ends h hform
  | reference name => exact reference_ends h hform
  | array => exact array_ends h hform
  | struct => exact struct_ends h hform
  | structField name => exact wrapper_ends h hform rfl (hone hform (.inl rfl))
  | nested => exact wrapper_ends h hform rfl (hone hform (.inl rfl))
  | localDef name mutable => exact wrapper_ends h hform rfl (hone hform (.inr rfl))
  | newObject => exact newObject_ends h hform
  | call => exact call_ends h hform
  | logic op => exact logic_ends h hform
  | conditional => exact conditional_ends h hform
  | repeatLoop => exact repeatLoop_ends h hform
  | assignment name => exact assignment_ends h hform
  | returnExit => exact returnExit_ends h hform
  | breakExit => exact breakExit_ends h hform
  | locals => exact absurd hform h.direct.1
  | handler => exact handler_ends h hform
  | block => exact block_ends h hform
  | function | unary | binary | whileLoop => cases hcore

/-- Nodes that are never entered twice are not entered for longer than there are nodes. -/
theorem computeApart_computes (hR : a.Ready R) (hnodup : entered.Nodup) (hentered : entered ⊆ R.ids)
    (hsteps : R.ids.length ≤ entered.length + steps) :
    Computes a R base entered (computeApart a options steps entered) := by
  induction steps generalizing entered with
  | zero =>
    intro p path N _ hN _ hfresh
    have hnew : N.id ∉ entered := fun hmem =>
      hfresh _ hmem (.inl ⟨N, List.mem_singleton_self N, N.id_mem_ids⟩)
    have hle := (List.subperm_of_subset (List.nodup_cons.mpr ⟨hnew, hnodup⟩)
      (List.cons_subset.mpr ⟨hN.ids_subset N.id_mem_ids, hentered⟩)).length_le
    rw [List.length_cons] at hle
    omega
  | succ steps ih =>
    intro p path N hstands hN hdirect hfresh
    have hnew : N.id ∉ entered := fun hmem =>
      hfresh _ hmem (.inl ⟨N, List.mem_singleton_self N, N.id_mem_ids⟩)
    have hcomputes : Computes a R base (N.id :: entered)
        (computeApart a options steps (N.id :: entered)) := by
      refine ih (List.nodup_cons.mpr ⟨hnew, hnodup⟩)
        (List.cons_subset.mpr ⟨hN.ids_subset N.id_mem_ids, hentered⟩) ?_
      rw [List.length_cons]
      omega
    obtain ⟨form, hform, -⟩ := hR.core path N hN
    rw [computeApart, if_neg hnew, (hR.expr?_eq_some_iff hN).mpr hform]
    dsimp only
    rw [ends_bind_iff]
    refine (ofForm_ends ⟨hR, hstands, hN, hdirect, hfresh, hcomputes⟩ hform).mono ?_
    rintro type p' hfinds
    rw [ends_bind_iff, setType, ends_modify_iff, ends_pure_iff]
    exact ⟨hfinds.noted hstands hR hN hdirect, List.lookup_cons_self⟩

end Typing

end MessageLang
