import MessageLang.Proofs.Typing.Paying

namespace MessageLang

open Meter

open MessageLang.Tree (Visible)

namespace Pass

variable {a : Arena} {R D V X : Tree} {base n : Nat} {p q : Pass} {path around : List Tree}
  {id : PlaceholderId} {t : Topic} {x : NodeId}

/-- Going into the value of a local, what is in the value may be reported there. -/
theorem Awaits.amount_opened (hA : p.Awaits a R base path D around id) (hR : a.Ready R)
    (hV : V ∈ D.expressions) : (meter t x (D :: around)).amount p =
      (meter t x (D :: around)).amount (p.opened id) + V.ids.count x := by
  have hahead := hA.ahead_opened hR hV (x := x)
  change p.log.heard t + t.pool p.escapes + p.ahead (D :: around) x =
    p.log.heard t + t.pool p.escapes + (p.opened id).ahead (D :: around) x + V.ids.count x
  omega

/-- What was found in the value of a local is taken back but for what is said of the local. -/
theorem Awaits.grows_marked_takenBack (hA : p.Awaits a R base path D around id) (hR : a.Ready R)
    (hV : V ∈ D.expressions)
    (hadv : (p.opened id).Advances (D :: around) ((p.opened id).Touches (D :: around) [V]) q)
    (hgrows : (meter t x (D :: around)).Grows (p.opened id) n q) (name : String) :
    (meter t x (D :: around)).Grows (p.opened id) (t.charge D.id (.recursiveDefinition name))
      (Pass.marked a D.id name (takenBack (p.opened id) q) id) := by
  obtain ⟨more, hlog⟩ := hadv.log
  obtain ⟨more', hescapes⟩ : (p.opened id).escapes <+: q.escapes := hgrows.keeps
  have hlogs : (takenBack (p.opened id) q).log = (p.opened id).log := Log.restore_eq hlog
  have hback : (Pass.marked a D.id name (takenBack (p.opened id) q) id).escapes =
      (p.opened id).escapes := by
    change q.escapes.take (p.opened id).escapes.length = _
    rw [← hescapes, List.take_left]
  have hheard : (Pass.marked a D.id name (takenBack (p.opened id) q) id).log.heard t =
      (p.opened id).log.heard t + t.charge D.id (.recursiveDefinition name) := by
    change ((takenBack (p.opened id) q).log.report a D.id _).heard t = _
    rw [Log.heard_report, hlogs]
  have hkeeps : (p.opened id).escapes <+:
      (Pass.marked a D.id name (takenBack (p.opened id) q) id).escapes := by
    rw [hback]
  refine ⟨hkeeps, ?_⟩
  simp only [meter, hback, hheard, ahead_congr (touches_marked_takenBack_iff hA hR hV hadv name)]
  omega

/-- Coming back to where a local is used, with no more reported or ahead in the value than before. -/
theorem Enters.grows_closed (h : p.Enters a R base path D around id q)
    (hA : p.Awaits a R base path D around id) (hR : a.Ready R) (hX : R.Within path X)
    (hgrows : (meter t x (D :: around)).Grows p 0 q) (type : TypeId) :
    (meter t x path).Grows p 0 (Pass.closed p q id type) := by
  refine ⟨hgrows.keeps, ?_⟩
  have hahead := h.ahead_closed hA hR hX type (x := x)
  have hamount : q.log.heard t + t.pool q.escapes + q.ahead (D :: around) x ≤
      p.log.heard t + t.pool p.escapes + p.ahead (D :: around) x := hgrows.amount_le
  change q.log.heard t + t.pool q.escapes + (Pass.closed p q id type).ahead path x ≤
    p.log.heard t + t.pool p.escapes + p.ahead path x
  omega

end Pass

namespace Typing

open Pass

variable {a : Arena} {R N D V X : Tree} {base : Nat} {p : Pass} {path around : List Tree}
  {entered : List NodeId} {compute : NodeId → Typing TypeId} {id : PlaceholderId} {t : Topic} {x : NodeId}

/-- A way to find the types of expressions that reports no more on a topic than the expressions
account for. -/
def Pays (R : Tree) (t : Topic) (x : NodeId) (compute : NodeId → Typing TypeId) : Prop :=
  ∀ path C, R.Within path C → (meter t x path).Costs (compute C.id) (t.weight x C)

variable (hcompute : Computes a R base entered compute) (hpays : Pays R t x compute) (hR : a.Ready R)
  (hx : R.Origin t x) (ht : t.NoConflict) (hX : R.Within path X)
  (hentered : ∀ x ∈ entered, ¬ p.Touches path [] x)
include hcompute hpays hR hx ht hX hentered

/-- Finding the type of a local reports what the value accounts for. A second attempt has as much to
report as the first one had, since the first one is taken back. -/
theorem resolveNow_grows (hA : p.Awaits a R base path D around id) :
    After (resolveNow a compute id) p fun _ p' => (meter t x path).Grows p 0 p' := by
  obtain ⟨V, hD⟩ := hA.expressions_eq hR
  have hV : V ∈ D.expressions := hD ▸ List.mem_singleton_self V
  have hfor := hA.isFor hR
  have hvalue : (p.placeholder id).value = some V.id := by
    rw [hfor.value_eq, hD]
    rfl
  have hlocal : D.localName?.isSome = true := by
    obtain ⟨name, mutable, hform⟩ := hA.form_eq hR
    rw [Tree.localName?, hform]
    rfl
  have hstart := hA.opened hR
  have hplace := hA.place hR hV
  have hcosts := hpays _ V hplace.1
  have hopened := hA.amount_opened hR hV (t := t) (x := x)
  have hback : ∀ {q n}, (meter t x (D :: around)).Grows (p.opened id) n q → n ≤ V.ids.count x →
      (meter t x (D :: around)).Grows p 0 q := fun hq hle => by
    have hamount := hq.amount_le
    exact ⟨hq.keeps, by omega⟩
  rw [after_resolveNow_iff, hvalue, hfor.definition_eq]
  have hfirst := hstart.valueType_ends hA hR hX hcompute hentered hV
    (hstart.stands.sound.declared_lt id)
  refine (hfirst.and_after (valueType_costs ht hcosts _ (p.opened id))).after.mono ?_
  rintro found q ⟨⟨hadv, henters, -⟩, h₁⟩
  split
  · next hcyclic =>
    rw [Bool.and_eq_true] at hcyclic
    have hretried := henters.retried hA hR hX hV hadv hcyclic.1 (p.placeholder id).name
    have hsecond := hretried.valueType_ends hA hR hX hcompute hentered hV
      fun _ hmem => absurd hmem (Option.not_mem_none _)
    have hundeclared : (meter t x (D :: around)).Costs (valueType a compute (some V.id) none)
        (t.weight x V) := hcosts.last fun _ => .pure _
    have hmarked := hA.grows_marked_takenBack hR hV hadv h₁ (p.placeholder id).name
    refine (hsecond.and_after (hundeclared.on hmarked)).after.mono ?_
    rintro _ q₂ ⟨⟨-, henters₂, -⟩, h₂⟩
    refine henters₂.grows_closed hA hR hX (hback h₂ ?_) .anything
    rw [Nat.add_comm]
    exact Topic.weight_add_charge_le hx hA.within hlocal hV fun heq => .inr ⟨_, heq⟩
  · refine henters.grows_closed hA hR hX (hback h₁ ?_) found
    exact Topic.weight_add_charge_le hx hA.within hlocal hV .inl

/-- Asking for the type of a local that can be seen. -/
theorem resolve_grows (h : p.Stands a R base path) (hD : Visible path D)
    (hcurrent : p.current? D = some id)
    (hleads : ∀ path' x, R.Within path' D → Leads a R path x → Leads a R (D :: path') x) :
    After (resolve a compute id) p fun _ p' => (meter t x path).Grows p 0 p' := by
  simp only [resolve, after_bind_iff, after_get_iff]
  split
  · exact after_pure_iff.mpr (.refl _ p)
  · next hnone =>
    split
    · split
      · exact after_pure_iff.mpr (.refl _ p)
      · rw [after_bind_iff, after_modify_iff, after_pure_iff]
        refine grows_of_eq rfl rfl rfl fun other => and_congr_left fun _ => ?_
        rcases p.placeholder_updatePlaceholder_eq_or id other ({ · with cyclic := true })
          with heq | ⟨rfl, heq⟩ <;> rw [heq]
    · next hnot =>
      obtain ⟨_, hA⟩ := h.exists_awaits hX hD hcurrent ⟨hnone, hnot⟩ hleads
      exact resolveNow_grows hcompute hpays hR hx ht hX hentered hA

end Typing

end MessageLang
