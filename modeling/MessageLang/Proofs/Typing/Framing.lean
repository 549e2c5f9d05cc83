import MessageLang.Proofs.Typing.Frames
import MessageLang.Proofs.Typing.Parts

namespace MessageLang

open MessageLang.Tree (Direct Visible)

namespace Pass

/-- The state inside new frames. -/
def pushed (p : Pass) : Pass :=
  { p with
    terms := (p.terms.push p.scope).2
    scope := (p.terms.push p.scope).1
    typeScope := (p.space.scopes.push p.typeScope).1
    space := { p.space with scopes := (p.space.scopes.push p.typeScope).2 } }

variable {a : Arena} {R N : Tree} {base : Nat} {p p' : Pass} {path : List Tree}
  {region : NodeId → Prop} {name : String} {meaning : Variable}

theorem frame_pushed (p : Pass) : p.pushed.terms.frame p.pushed.scope = ⟨some p.scope, []⟩ :=
  p.terms.frame_push_new p.scope

theorem scope_pushed_lt (p : Pass) : p.pushed.scope.index < p.pushed.terms.size := by
  change p.terms.size < _
  rw [pushed, Scopes.size_push]
  exact Nat.lt_succ_self _

theorem Sound.withTerms (h : p.Sound) {terms : Scopes Variable}
    (hterms : terms.All fun v => ∀ type, v.meaning = .known type → type.index < p.table.size) :
    Sound { p with terms } := { h with known_lt := hterms }

theorem Sound.pushed (h : p.Sound) : p.pushed.Sound where
  space := ⟨h.space.table, h.space.builtins, h.space.named.push _⟩
  checker := h.checker
  known_lt := h.known_lt.push _
  declared_lt := h.declared_lt
  result_lt := h.result_lt
  types_lt := h.types_lt
  escapes_lt := h.escapes_lt
  breaks_lt := h.breaks_lt

theorem Fair.pushed (h : p.Fair a R base) : p.pushed.Fair a R base where
  sound := h.sound.pushed
  resolving_lt := h.resolving_lt
  base_le := h.base_le
  flagged := h.flagged
  blamed := h.blamed

theorem grows_pushed (p : Pass) (path : List Tree) (region : NodeId → Prop) :
    p.Grows path region p.pushed :=
  { (Advances.refl p path region).toGrows with
    terms_le := by
      rw [pushed, Scopes.size_push]
      exact Nat.le_succ _
    frame_eq := fun _ hid => p.terms.frame_push_of_lt p.scope hid }

/-- Coming out of an expression that opened a frame. -/
theorem Entering.leave {entered : List NodeId} {compute : NodeId → Typing TypeId}
    (h : p.Entering a R base path N entered compute) (hgrows : p.Grows path (p.Touches path [N]) p')
    (hresolving : p'.resolving = p.resolving) (hstands : p'.Stands a R base (N :: path))
    (hcovered : ∀ C ∈ N.expressions, p'.Covered a R base C)
    (hescapes : R.ExitFree → p'.escapes = p.escapes ++ N.returns.map p'.exitOf)
    (hbreaks : R.ExitFree → p'.breaks = p.breaks ++ N.breaks.map p'.exitType) :
    p.Gathers a R base path N { p' with scope := p.scope, typeScope := p.typeScope } where
  advances := { hgrows with
    scope_eq := rfl
    typeScope_eq := rfl
    resolving_eq := hresolving }
  stands := h.stands.leave hgrows (fun _ => h.clear) hresolving hstands
  covered := hcovered
  escapes_eq := hescapes
  breaks_eq := hbreaks

end Pass

namespace Typing

variable {α : Type} {p : Pass} {step : Typing α} {post : α → Pass → Prop}

theorem ends_inNewScope_iff : Ends (inNewScope step) p post ↔
    Ends step p.pushed fun result p' =>
      post result { p' with scope := p.scope, typeScope := p.typeScope } := by
  simp only [inNewScope, ends_bind_iff, ends_get_iff, ends_modify_iff, ends_pure_iff]
  rfl

end Typing

end MessageLang
