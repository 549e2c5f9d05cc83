import MessageLang.Proofs.Types.Lasting

namespace MessageLang

namespace TypeTable

/-- Two unions of the same types and with the same handlers, which answer the same symbols with types
that a relation holds of. -/
structure Reorders (t : TypeTable) (related : TypeId → TypeId → Prop) (left right : TypeId) :
    Prop where
  left_made : t.unions.lookup (t.get left).variants = some left
  right_made : t.unions.lookup (t.get right).variants = some right
  mem_variants_iff : ∀ part, part ∈ (t.get left).variants ↔ part ∈ (t.get right).variants
  answers_related : ∀ symbol, Option.Rel related (t.answer? left symbol) (t.answer? right symbol)
  mem_handlers_iff : ∀ handler, handler ∈ (t.get left).handlers ↔ handler ∈ (t.get right).handlers

/-- Types that are the same but for the order, however deep one looks and also where they lead back
to themselves: some relation holds of them, and it holds of no types but the same ones and unions
that are the same but for the order as far as it goes. -/
def SameButForOrder (t : TypeTable) (left right : TypeId) : Prop :=
  ∃ related : TypeId → TypeId → Prop, related left right ∧
    ∀ left right, related left right → left = right ∨ t.Reorders related left right

/-- Two types that lists of the same types were united to. -/
def UnitedAlike (t : TypeTable) (left right : TypeId) : Prop :=
  ∃ xs ys : List TypeId, (∀ id ∈ xs, id.index < t.size) ∧ (∀ id, id ∈ xs ↔ id ∈ ys) ∧
    t.united? xs = some left ∧ t.united? ys = some right

variable {t t' : TypeTable} {xs ys : List TypeId} {left right : TypeId}

theorem mem_unionParts_congr (hsame : ∀ id, id ∈ xs ↔ id ∈ ys) (part : TypeId) :
    part ∈ t.unionParts xs ↔ part ∈ t.unionParts ys := by
  simp only [mem_unionParts, hsame]

theorem unionParts_perm (hsame : ∀ id, id ∈ xs ↔ id ∈ ys) :
    (t.unionParts xs).Perm (t.unionParts ys) := by
  rw [List.perm_ext_iff_of_nodup (nodup_unionParts t xs) (nodup_unionParts t ys)]
  exact mem_unionParts_congr hsame

/-- Uniting the same types in another order comes to the same type, or else to a union in either
order. -/
theorem united?_reordered (hsame : ∀ id, id ∈ xs ↔ id ∈ ys) (hleft : t.united? xs = some left)
    (hright : t.united? ys = some right) : left = right ∨
      t.unions.lookup (t.unionParts xs) = some left ∧
        t.unions.lookup (t.unionParts ys) = some right := by
  have hmem := mem_unionParts_congr (t := t) hsame
  have hperm := unionParts_perm (t := t) hsame
  have heq_of_parts : t.unionParts xs = t.unionParts ys → left = right := by
    intro hparts
    rw [united?, hparts] at hleft
    exact Option.some.inj (hleft.symm.trans hright)
  rcases united?_cases t xs with ⟨⟨part, hpart, hany⟩, heq⟩ | ⟨hnil, -⟩ | ⟨only, hone, -⟩ |
    ⟨hnone, htwo, heq⟩
  · have hany' : (t.unionParts ys).any t.isAnything = true :=
      List.any_eq_true.mpr ⟨part, (hmem part).mp hpart, hany⟩
    have heq' : t.united? ys = some .anything := if_pos hany'
    rw [heq, Option.some.injEq] at hleft
    rw [heq', Option.some.injEq] at hright
    exact .inl (hleft.symm.trans hright)
  · rw [hnil, List.nil_perm] at hperm
    exact .inl (heq_of_parts (hnil.trans hperm.symm))
  · rw [hone, List.singleton_perm] at hperm
    exact .inl (heq_of_parts (hone.trans hperm))
  · have hnone' : ∀ part ∈ t.unionParts ys, t.isAnything part = false :=
      fun part hpart => hnone part ((hmem part).mpr hpart)
    rw [hperm.length_eq] at htwo
    exact .inr ⟨heq.symm.trans hleft, (united?_eq_lookup hnone' htwo).symm.trans hright⟩

/-- What the same types answer is the same but for the order. -/
theorem mem_answers_congr {parts parts' : List TypeId} (hsame : ∀ part, part ∈ parts ↔ part ∈ parts')
    (symbol : String) (id : TypeId) :
    id ∈ parts.filterMap (t.answer? · symbol) ↔ id ∈ parts'.filterMap (t.answer? · symbol) := by
  simp only [List.mem_filterMap, hsame]

/-- Where all unions say what their parts say, being united alike is a relation that shows types to be
the same but for the order: what two such unions answer was united alike as well. -/
theorem UnitedAlike.reorders (h : t.Uniting t []) (halike : t.UnitedAlike left right) :
    left = right ∨ t.Reorders t.UnitedAlike left right := by
  obtain ⟨xs, ys, hxs, hsame, hleft, hright⟩ := halike
  have hmem := mem_unionParts_congr (t := t) hsame
  rcases united?_reordered hsame hleft hright with heq | ⟨hleft, hright⟩
  · exact .inl heq
  have hleftspeaks := h.speaks _ left hleft List.not_mem_nil
  have hrightspeaks := h.speaks _ right hright List.not_mem_nil
  have hleftvariants := h.variants_eq _ left hleft
  have hrightvariants := h.variants_eq _ right hright
  refine .inr ⟨?_, ?_, fun part => ?_, fun symbol => ?_, fun handler => ?_⟩
  · rw [hleftvariants, hleft]
  · rw [hrightvariants, hright]
  · rw [hleftvariants, hrightvariants]
    exact hmem part
  · have hsome : (t.answer? left symbol).isSome ↔ (t.answer? right symbol).isSome := by
      rw [hleftspeaks.isSome_answer?_iff, hrightspeaks.isSome_answer?_iff]
      exact exists_congr fun part => and_congr_left fun _ => hmem part
    cases hanswer : t.answer? left symbol with
    | none =>
      have hnone : t.answer? right symbol = none := by simpa [hanswer] using hsome
      rw [hnone]
      exact .none
    | some answer =>
      obtain ⟨answer', hanswer'⟩ : ∃ answer', t.answer? right symbol = some answer' := by
        rw [← Option.isSome_iff_exists, ← hsome, hanswer]
        rfl
      rw [hanswer']
      exact .some ⟨_, _, answers_lt h.closed symbol, mem_answers_congr hmem symbol,
        hleftspeaks.united?_eq symbol answer hanswer, hrightspeaks.united?_eq symbol answer' hanswer'⟩
  · rw [hleftspeaks.handlers_eq, hrightspeaks.handlers_eq, List.mem_eraseDups, List.mem_eraseDups,
      List.mem_flatMap, List.mem_flatMap]
    exact exists_congr fun part => and_congr_left fun _ => hmem part

theorem UnitedAlike.sameButForOrder (h : t.Uniting t []) (halike : t.UnitedAlike left right) :
    t.SameButForOrder left right :=
  ⟨t.UnitedAlike, halike, fun _ _ halike => halike.reorders h⟩

theorem Develops.amends (h : t.Develops t') : t.Amends t' := ⟨h.toRetains, h.closed, h.unions_eq⟩

theorem Reached.goes (h : t.Reached) (hgoes : t.Goes Develops t') : t'.Reached := by
  induction hgoes with
  | start => exact h
  | step _ hdevelops ih => exact ih.develop hdevelops
  | unite _ hids hrun ih => exact ih.unite hids hrun

theorem Reached.orderly (h : t.Reached) : t.Orderly := h.uniting.2.orderly h.uniting.1

theorem Reached.size_le (h : t.Reached) (hgoes : t.Goes Develops t') : t.size ≤ t'.size :=
  (hgoes.keeps (fun _ _ => Develops.amends) h.orderly).2.1.size_le

/-- Uniting types ends, and they come to the same type from then on. -/
theorem Reached.exists_united (h : t.Reached) (hids : ∀ id ∈ xs, id.index < t.size) :
    ∃ union t', Tabling.union xs t = .ok (union, t') ∧ t'.Reached ∧ t.size ≤ t'.size ∧
      ∀ t'', t'.Goes Develops t'' → t''.united? xs = some union := by
  obtain ⟨union, t', hrun, -, hadds, hunited⟩ := ends_iff.mp (h.orderly.union_ends hids)
  have hreached := h.unite hids hrun
  refine ⟨union, t', hrun, hreached, hadds.grows.size_le, fun t'' hgoes => ?_⟩
  exact hgoes.united?_eq_some (fun _ _ => Develops.amends) hreached.orderly
    (fun id hid => hadds.grows.lt (hids id hid)) hunited

/-- Where types are told nothing once they take part in a union, uniting the same types in another
order, some of them perhaps more than once, comes to a type that is the same but for the order. It
does so however the session goes on in between, and it stays so. -/
theorem Reached.union_reordered (h : t.Reached) (hxs : ∀ id ∈ xs, id.index < t.size)
    (hsame : ∀ id, id ∈ xs ↔ id ∈ ys) :
    ∃ left t₁, Tabling.union xs t = .ok (left, t₁) ∧ ∀ t₂, t₁.Goes Develops t₂ →
      ∃ right t₃, Tabling.union ys t₂ = .ok (right, t₃) ∧ ∀ t₄, t₃.Goes Develops t₄ →
        t₄.SameButForOrder left right := by
  obtain ⟨left, t₁, hrun₁, hreached₁, hsize₁, hleft⟩ := h.exists_united hxs
  refine ⟨left, t₁, hrun₁, fun t₂ hgoes => ?_⟩
  have hreached₂ := hreached₁.goes hgoes
  have hsize₂ := hsize₁.trans (hreached₁.size_le hgoes)
  have hys : ∀ id ∈ ys, id.index < t₂.size :=
    fun id hid => (hxs id ((hsame id).mpr hid)).trans_le hsize₂
  obtain ⟨right, t₃, hrun₃, hreached₃, hsize₃, hright⟩ := hreached₂.exists_united hys
  refine ⟨right, t₃, hrun₃, fun t₄ hgoes' => ?_⟩
  have hsize₄ := (hsize₂.trans hsize₃).trans (hreached₃.size_le hgoes')
  have halike : t₄.UnitedAlike left right :=
    ⟨xs, ys, fun id hid => (hxs id hid).trans_le hsize₄, hsame,
      hleft t₄ ((hgoes.unite hys hrun₃).trans hgoes'), hright t₄ hgoes'⟩
  exact halike.sameButForOrder (hreached₃.goes hgoes').uniting.2

/-- The union of both kinds of lists and that in the other order, made from a list in which one kind
stands twice, go on with each other. -/
theorem union_reordered_alternatingLists :
    alternatingLists.Reached ∧
      (Tabling.union [⟨18⟩, ⟨19⟩] alternatingLists >>= fun made =>
        Tabling.union [⟨19⟩, ⟨18⟩, ⟨19⟩] made.2 >>= fun again => pure
          (made.1, again.1, again.2.answer? made.1 "next", again.2.answer? again.1 "next")) =
        .ok (⟨20⟩, ⟨24⟩, some ⟨24⟩, some ⟨20⟩) ∧
      ∃ left t₁, Tabling.union [⟨18⟩, ⟨19⟩] alternatingLists = .ok (left, t₁) ∧
        ∀ t₂, t₁.Goes Develops t₂ → ∃ right t₃,
          Tabling.union [⟨19⟩, ⟨18⟩, ⟨19⟩] t₂ = .ok (right, t₃) ∧
            ∀ t₄, t₃.Goes Develops t₄ → t₄.SameButForOrder left right := by
  refine ⟨reached_alternatingLists, by decide +kernel, reached_alternatingLists.union_reordered ?_ ?_⟩
  · decide +kernel
  · intro id
    simp only [List.mem_cons, List.not_mem_nil, or_false]
    tauto

end TypeTable

end MessageLang
