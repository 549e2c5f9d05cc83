import MessageLang.Proofs.Assign.Judgement
import MessageLang.Proofs.Types.Growth

namespace MessageLang

variable {t t' : TypeTable} {unwraps : Bool} {c : Checker} {target source : TypeId}

theorem TypeTable.Extends.isWildcard_eq (h : t.Extends t') {id : TypeId} (hid : id.index < t.size) :
    t'.isWildcard id = t.isWildcard id := by
  rw [TypeTable.isWildcard, TypeTable.isWildcard, h.get_eq id hid]

/-- A type goes on to lead to the same types when there are more of them. -/
theorem TypeTable.Extends.wildcardFree_iff (hclosed : t.Closed) (h : t.Extends t') {id : TypeId}
    (hid : id.index < t.size) : t'.WildcardFree id ↔ t.WildcardFree id := by
  constructor
  · intro hfree part hreach
    have hboth : Relation.ReflTransGen (fun whole part => part ∈ (t'.get whole).components) id part ∧
        part.index < t.size := by
      induction hreach with
      | refl => exact ⟨.refl, hid⟩
      | tail _ hstep ih => exact ⟨ih.1.tail (h.get_eq _ ih.2 ▸ hstep), hclosed.component_lt hstep⟩
    rw [← h.isWildcard_eq hboth.2]
    exact hfree part hboth.1
  · intro hfree part hreach
    have hboth : Relation.ReflTransGen (fun whole part => part ∈ (t.get whole).components) id part ∧
        part.index < t.size := by
      induction hreach with
      | refl => exact ⟨.refl, hid⟩
      | tail _ hstep ih =>
        rw [h.get_eq _ ih.2] at hstep
        exact ⟨ih.1.tail hstep, hclosed.component_lt hstep⟩
    rw [h.isWildcard_eq hboth.2]
    exact hfree part hboth.1

theorem TypeTable.Extends.assignable_iff (hclosed : t.Closed) (h : t.Extends t')
    (htarget : target.index < t.size) (hsource : source.index < t.size) :
    t'.Assignable unwraps target source ↔ t.Assignable unwraps target source := by
  have hcomponent : ∀ id : TypeId, id.index < t.size → ∀ part ∈ (t.get id).components,
      part.index < t.size := fun _ _ _ hpart => hclosed.component_lt hpart
  constructor
  · refine TypeTable.Assignable.transfer (P := (·.index < t.size)) ?_ ?_ htarget hsource
    · intro id hid
      rw [h.get_eq id hid]
      exact hcomponent id hid
    · exact fun id hid => (h.get_eq id hid).symm
  · exact TypeTable.Assignable.transfer hcomponent h.get_eq htarget hsource

/-- What wildcards stand for is still a type and no wildcard when there are more types. -/
theorem TypeTable.Extends.allBound (h : t.Extends t') {b : Bindings}
    (hlt : b.AllBound (·.index < t.size)) (hknown : b.AllBound (t.isWildcard · = false)) :
    b.AllBound (·.index < t'.size) ∧ b.AllBound (t'.isWildcard · = false) := by
  refine ⟨fun cls hcls bound hb => h.lt (hlt cls hcls bound hb), fun cls hcls bound hb => ?_⟩
  exact (h.isWildcard_eq (hlt cls hcls bound hb)).trans (hknown cls hcls bound hb)

namespace Checker

theorem Consistent.extend (hc : c.Consistent t unwraps) (hclosed : t.Closed) (h : t.Extends t') :
    c.Consistent t' unwraps := by
  obtain ⟨hlt, hknown⟩ := h.allBound hc.bound_lt hc.bound_known
  refine ⟨hc.unwraps_eq, hlt, hknown, fun entry hentry => ?_, fun d hd htarget hsource => ?_⟩
  · exact (hc.demand_lt entry hentry).imp h.lt h.lt
  · have hlt := hc.demand_lt _ hd
    rw [h.assignable_iff hclosed hlt.1 hlt.2]
    exact hc.refuted d hd ((h.wildcardFree_iff hclosed hlt.1).mp htarget)
      ((h.wildcardFree_iff hclosed hlt.2).mp hsource)

/-- The verdicts that are left are some of those there were. -/
theorem mem_of_mem_rollback {point : Checkpoint} {entry : Demand × Bool}
    (h : entry ∈ (c.rollback point).verdicts) : entry ∈ c.verdicts := List.mem_of_mem_drop h

theorem Consistent.rollback (hc : c.Consistent t unwraps) {point : Checkpoint}
    (hlt : point.bindings.AllBound (·.index < t.size))
    (hknown : point.bindings.AllBound (t.isWildcard · = false)) :
    (c.rollback point).Consistent t unwraps where
  unwraps_eq := hc.unwraps_eq
  bound_lt := hlt
  bound_known := hknown
  demand_lt entry hentry := hc.demand_lt entry (mem_of_mem_rollback hentry)
  refuted d hd := hc.refuted d (mem_of_mem_rollback hd)

end Checker

end MessageLang
