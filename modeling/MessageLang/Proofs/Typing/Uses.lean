import MessageLang.Proofs.Typing.Parts
import MessageLang.Proofs.Typing.Resolving

namespace MessageLang

open MessageLang.Tree (Binds Denotes DependsOn Direct Visible)

namespace Pass

variable {a : Arena} {R N D : Tree} {base : Nat} {p p' : Pass} {path done : List Tree}
  {entered : List NodeId} {compute : NodeId → Typing TypeId} {name : String} {type : TypeId}
  {found : Variable}

namespace Entering

variable (h : p.Entering a R base path N entered compute)
include h

/-- The types of locals may be asked for at an expression, also when some parts have been typed. -/
theorem not_touches (hvisits : p.Visits a R base path (p.Touches path [N]) done p') :
    ∀ x ∈ N.id :: entered, ¬ p'.Touches path [] x := by
  rw [List.forall_mem_cons]
  refine ⟨hvisits.stands.not_touches h.ready.nodup h.within h.direct N.id_mem_ids,
    fun x hx htouched => h.fresh x hx ?_⟩
  exact hvisits.advances.touches_of_touches (fun _ => h.clear)
    (htouched.imp_left fun ⟨_, hM, _⟩ => nomatch hM)

/-- An expression that is no definition denotes the local that its name means. -/
theorem denotes_iff (huse : N.usedName? = some name) :
    Denotes a path N D ↔ Binds a name path D := by
  refine ⟨fun hdenotes => ?_, fun hbinds => .inl ⟨name, huse, hbinds⟩⟩
  rcases hdenotes with ⟨other, hother, hbinds⟩ | ⟨-, G, B, rest, rfl, hgroup, -⟩
  · cases huse.symm.trans hother
    exact hbinds
  · exact absurd hgroup (h.direct.2 G rfl)

/-- The type of the variable that an expression names, which is the type of the local that it
denotes, if that is what it denotes. -/
theorem meaningType_ends (huse : N.usedName? = some name)
    (hvisits : p.Visits a R base path (p.Touches path [N]) N.expressions p')
    (hfound : p'.terms.get? p'.scope name = some found) :
    Ends (Typing.meaningType a compute found.meaning) p' fun type p'' =>
      p.Visits a R base path (p.Touches path [N]) N.expressions p'' ∧
        p''.Agrees a R base path N type ∧ type.index < p''.table.size ∧
        p'.table.Extends p''.table := by
  have hstands := hvisits.stands
  rcases hstands.frames.get? name with ⟨E, id, mutable, hget, hbinds, hcurrent⟩ | ⟨hnot, hknown⟩
  · cases hfound.symm.trans hget
    obtain ⟨other, _, hother, hfor⟩ := hstands.frames.visible hbinds.visible
    cases hcurrent.symm.trans hother
    have hspares : Spares a R p' path (p'.Touches path []) :=
      hstands.spares h.ready h.within fun _ hM => nomatch hM
    refine (hstands.resolve_ends h.ready h.within h.computes (h.not_touches hvisits) hbinds.visible
      hcurrent (fun path' x _ hleads => ?_) fun hmem => ?_).mono ?_
    · refine ⟨E, List.mem_cons_self, ?_, .inr (hleads.transGen h.within huse hbinds)⟩
      rw [hbinds.localName?_eq]
      rfl
    · have hleads := hstands.leads id hmem
      rw [hfor.definition_eq] at hleads
      exact hleads.transGen h.within huse hbinds
    · rintro type p'' ⟨hvisits', hanswers, hgrounded⟩
      refine ⟨?_, fun F hF => ?_, hanswers.lt hvisits'.stands.sound, hvisits'.advances.table⟩
      · have hboth := hvisits.append hvisits' h.ready.nodup
          (fun W hW => Tree.nodup_of_mem_children h.nodup (Tree.mem_children_of_mem_expressions hW))
          (fun x htouched => hvisits.advances.touches_of_touches (fun _ => h.clear)
            (htouched.imp_left fun ⟨_, hM, _⟩ => nomatch hM))
          (fun _ => h.clear) hspares fun W hW x hx => hstands.not_touches h.ready.nodup h.within
            h.direct (Tree.ids_subset_of_mem_expressions hW hx)
        rwa [List.append_nil] at hboth
      · rw [((h.denotes_iff huse).mp hF).unique hbinds]
        exact ⟨id, (hvisits'.advances.current?_eq (hspares.visible E hbinds.visible)).trans hcurrent,
          hanswers, hgrounded⟩
  · obtain ⟨type, htype⟩ := hknown found hfound
    rw [htype]
    exact ⟨hvisits, fun E hE => absurd ((h.denotes_iff huse).mp hE) (hnot E),
      hstands.sound.known_lt.get? hfound type htype, .refl _⟩

/-- A name that is not found means no local. -/
theorem not_denotes_of_get?_eq_none (huse : N.usedName? = some name)
    (hp' : p'.Stands a R base path) (hnone : p'.terms.get? p'.scope name = none) :
    ¬ Denotes a path N D := by
  intro hdenotes
  rcases hp'.frames.get? name with ⟨_, _, _, hget, _⟩ | ⟨hnot, _⟩
  · cases hnone.symm.trans hget
  · exact hnot D ((h.denotes_iff huse).mp hdenotes)

end Entering

end Pass

namespace Typing

open Pass

variable {a : Arena} {R N : Tree} {base : Nat} {p : Pass} {path : List Tree} {entered : List NodeId}
  {compute : NodeId → Typing TypeId} {name : String}

theorem reference_ends (h : p.Entering a R base path N entered compute)
    (hform : N.form = .expr (.reference name)) :
    Ends (reference a compute N.id name) p (p.Finds a R base path N) := by
  have huse : N.usedName? = some name := by
    rw [Tree.usedName?, hform]
  have hadmits := h.admits hform
  rw [ExprForm.admits, Tree.length_exprForms, Bool.and_eq_true, beq_iff_eq,
    List.length_eq_zero_iff] at hadmits
  have hstart : p.Visits a R base path (p.Touches path [N]) N.expressions p := by
    rw [hadmits.1]
    exact h.stands.visits _
  rw [reference, ends_bind_iff, ends_get_iff]
  split
  · next found hfound =>
    refine (h.meaningType_ends huse hstart hfound).mono ?_
    rintro type p₁ ⟨hvisits₁, hagrees, hlt, _⟩
    exact Entering.finds_of_agrees hform rfl hvisits₁ hagrees hlt
  · next hnone =>
    rw [ends_bind_iff]
    refine (report_ends h.stands.sound (by simp)).mono fun _ p₁ h₁ => ?_
    refine Entering.finds_of_agrees hform rfl (h.quiet hstart (fun _ h => h) h₁) (fun E hE => ?_)
      (h₁.sound.lt_of_builtin (by decide))
    exact absurd hE (h.not_denotes_of_get?_eq_none huse h.stands hnone)

theorem assignment_ends (h : p.Entering a R base path N entered compute)
    (hform : N.form = .expr (.assignment name)) :
    Ends (assignment a compute N.id name) p (p.Finds a R base path N) := by
  have huse : N.usedName? = some name := by
    rw [Tree.usedName?, hform]
  have hadmits := h.admits hform
  rw [ExprForm.admits, Tree.length_exprForms, Bool.and_eq_true, beq_iff_eq,
    List.length_eq_one_iff] at hadmits
  obtain ⟨⟨V, hparts⟩, -⟩ := hadmits
  rw [assignment, ends_bind_iff]
  refine (operand_ends h (by simp [hform]) (by simp [hform]) hparts).mono ?_
  rintro value p₁ ⟨hvisits₁, hlookup⟩
  rw [← hparts] at hvisits₁
  have hvalue := hvisits₁.stands.sound.types_lt _ (mem_of_lookup_eq_some hlookup)
  simp only [ends_bind_iff, ends_get_iff]
  split
  · next hnone =>
    rw [ends_bind_iff]
    refine (report_ends hvisits₁.stands.sound (by simp)).mono fun _ p₂ h₂ => ?_
    refine Entering.finds_of_agrees hform rfl (h.quiet hvisits₁ (fun _ h => h) h₂) (fun E hE => ?_)
      (h₂.table.lt hvalue)
    exact absurd hE (h.not_denotes_of_get?_eq_none huse hvisits₁.stands hnone)
  · next found hfound =>
    rw [ends_bind_iff]
    refine (h.meaningType_ends huse hvisits₁ hfound).mono ?_
    rintro target p₂ ⟨hvisits₂, hagrees, hlt, hmore⟩
    have hfinish : ∀ p₃, p₂.Quiet p₃ → p.Finds a R base path N target p₃ := fun p₃ h₃ =>
      Entering.finds_of_agrees hform rfl (h.quiet hvisits₂ (fun _ h => h) h₃)
        ((h₃.advances path fun _ => False).agrees hvisits₂.stands.resolving_lt (fun _ _ h => h)
          hagrees)
        (h₃.table.lt hlt)
    split
    · rw [ends_bind_iff]
      exact (report_ends hvisits₂.stands.sound (by simp)).mono fun _ p₃ h₃ => hfinish p₃ h₃
    · rw [ends_bind_iff]
      refine (fits_ends hvisits₂.stands.sound hlt (hmore.lt hvalue)).mono fun verdict p₃ h₃ => ?_
      split
      · rw [ends_bind_iff]
        exact (report_ends h₃.sound (by simp)).mono fun _ p₄ h₄ => hfinish p₄ (h₃.trans h₄)
      · exact hfinish p₃ h₃

end Typing

end MessageLang
