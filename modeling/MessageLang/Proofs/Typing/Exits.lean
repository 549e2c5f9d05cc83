import MessageLang.Proofs.Types.Unions
import MessageLang.Proofs.Typing.Lexical
import MessageLang.Typing.Rules

namespace MessageLang

namespace Tree

mutual

/-- The expressions of a form that are reached without going into expressions that stop the
search, each after those in it. -/
def exits (stops : ExprForm → Bool) (exit : ExprForm) : Tree → List Tree
  | node id form span grouped children =>
    match form with
    | .expr sort =>
      if stops sort then []
      else exitsAll stops exit children ++
        if sort = exit then [node id form span grouped children] else []
    | _ => []

def exitsAll (stops : ExprForm → Bool) (exit : ExprForm) : List Tree → List Tree
  | [] => []
  | T :: rest => T.exits stops exit ++ exitsAll stops exit rest

end

/-- The returns in an expression that leave it, which are those in no handler. -/
def returns (T : Tree) : List Tree := T.exits (· == .handler) .returnExit

/-- The breaks in an expression that leave it, which are those in no handler and no loop. -/
def breaks (T : Tree) : List Tree :=
  T.exits (fun form => form == .handler || form == .repeatLoop) .breakExit

/-- No value of a local leaves the expression that it stands in. -/
def ExitFree (R : Tree) : Prop :=
  ∀ path G D, R.Within (G :: path) D → G.form = .expr .locals →
    ∀ V ∈ D.expressions, V.returns = [] ∧ V.breaks = []

variable {stops : ExprForm → Bool} {exit sort : ExprForm} {T X : Tree}

theorem exitsAll_eq (stops : ExprForm → Bool) (exit : ExprForm) (trees : List Tree) :
    exitsAll stops exit trees = (trees.filter isExpr).flatMap (exits stops exit) := by
  induction trees with
  | nil => rfl
  | cons T rest ih =>
    rw [exitsAll, ih, List.filter_cons]
    split
    · rfl
    · next hexpr =>
      obtain ⟨id, form, span, grouped, children⟩ := T
      cases form with
      | expr _ => exact absurd rfl hexpr
      | _ => rfl

theorem exits_eq (hform : T.form = .expr sort) : T.exits stops exit =
    if stops sort then []
    else T.expressions.flatMap (exits stops exit) ++ if sort = exit then [T] else [] := by
  obtain ⟨id, form, span, grouped, children⟩ := T
  cases hform
  rw [exits, exitsAll_eq]
  rfl

/-- The exits of most expressions are those of their parts. -/
theorem exits_eq_flatMap (hform : T.form = .expr sort) (hstops : stops sort = false)
    (hexit : sort ≠ exit) : T.exits stops exit = T.expressions.flatMap (exits stops exit) := by
  simp [exits_eq hform, hstops, hexit]

theorem exists_within_of_mem_exits (h : X ∈ T.exits stops exit) : ∃ path, T.Within path X := by
  induction T with
  | node id form span grouped children ih =>
    cases form with
    | expr sort =>
      have hform : (node id (.expr sort) span grouped children).form = .expr sort := rfl
      rw [exits_eq hform] at h
      split at h
      · cases h
      · rcases List.mem_append.mp h with h | h
        · obtain ⟨C, hC, h⟩ := List.mem_flatMap.mp h
          obtain ⟨path, hwithin⟩ := ih C (mem_children_of_mem_expressions hC) h
          exact ⟨_, hwithin.of_child hC⟩
        · split at h
          · rw [List.mem_singleton.mp h]
            exact ⟨[], .root⟩
          · cases h
    | _ => cases h

/-- The operand of an exit is not the expression that is left. -/
theorem operand_mem_of_mem_exits (hnodup : T.ids.Nodup) (h : X ∈ T.exits stops exit) {V : Tree}
    (hV : V ∈ X.expressions) : V.id ∈ T.ids ∧ V.id ≠ T.id := by
  obtain ⟨path, hwithin⟩ := exists_within_of_mem_exits h
  have hbelow := hwithin.child hV
  refine ⟨hbelow.ids_subset V.id_mem_ids, fun heq => ?_⟩
  exact hbelow.id_not_mem_of_mem hnodup hwithin.root_mem (heq ▸ V.id_mem_ids)

theorem exitFree_iff {R : Tree} : R.ExitFree ↔ R.everywhere (fun G => G.form ≠ .expr .locals ||
    G.expressions.all fun D => D.expressions.all fun V => V.returns.isEmpty && V.breaks.isEmpty) =
      true := by
  rw [everywhere_iff]
  simp only [Bool.or_eq_true, decide_eq_true_eq, List.all_eq_true, Bool.and_eq_true,
    List.isEmpty_iff, ← imp_iff_not_or, ne_eq]
  constructor
  · exact fun h path G hG hgroup D hD => h path G D (hG.child hD) hgroup
  · intro h path G D hD hgroup
    cases hD with
    | child above mem => exact h path G above hgroup D mem

instance {R : Tree} : Decidable R.ExitFree := decidable_of_iff _ exitFree_iff.symm

end Tree

namespace Pass

open TypeTable

/-- The type that was found for an expression, or that of nothing. -/
def typeOf (p : Pass) (T : Tree) : TypeId := (p.types.lookup T.id).getD .nothing

/-- The type of the value that an exit has, or of nothing if it has none. -/
def exitType (p : Pass) (X : Tree) : TypeId := (X.expressions.head?.map p.typeOf).getD .nothing

/-- An exit with the type of its value. -/
def exitOf (p : Pass) (X : Tree) : NodeId × TypeId := (X.id, p.exitType X)

/-- What a handler comes to: its returns, and its body unless that has no value. -/
def outcomes (p : Pass) (body : Tree) : List (NodeId × TypeId) :=
  body.returns.map p.exitOf ++
    if p.table.isNever (p.typeOf body) then [] else [(body.id, p.typeOf body)]

/-- Since a state types and reports have only been added. -/
def Precedes (p p' : Pass) : Prop :=
  p.table.Extends p'.table ∧ ∃ more, p'.log.toList = p.log.toList ++ more

/-- The type that a handler answers with. Without a declared output it is the union of what the
handler comes to. A declared output is the type itself, and all that the handler comes to has been
checked against it. -/
def AnswersWith (a : Arena) (p : Pass) (X body : Tree) (result : TypeId) : Prop :=
  match X.types.tail with
  | [] => p.table.Unites (p.table.unionParts ((p.outcomes body).map (·.2))) result
  | output :: _ =>
    (∃ q q', Typing.readType a output.id q = .ok (result, q') ∧ q'.Precedes p) ∧
      ∃ q q', Typing.handlerResult a (some result) (p.outcomes body) q = .ok (result, q') ∧
        q'.Precedes p

/-- A handler answers its input with what it comes to, and the type of a loop is the union of what
leaves the loop. -/
def Made (a : Arena) (p : Pass) (X : Tree) (type : TypeId) : Prop :=
  ∀ body ∈ X.expressions.head?,
    (X.form = .expr .handler →
      ∃ input result, (p.table.get type).handlers = [(input, result)] ∧
        p.AnswersWith a X body result) ∧
    (X.form = .expr .repeatLoop →
      if body.breaks = [] then type = .nothing
      else p.table.Unites (p.table.unionParts (body.breaks.map p.exitType)) type)

section

variable {a : Arena} {p p' : Pass} {X body : Tree} {type : TypeId}

theorem typeOf_lt (htable : p.table.Sound) (htypes : ∀ entry ∈ p.types, entry.2.index < p.table.size)
    (T : Tree) : (p.typeOf T).index < p.table.size := by
  unfold typeOf
  cases hlookup : p.types.lookup T.id with
  | none => exact htable.lt_of_index_le (by decide)
  | some type => exact htypes _ (mem_of_lookup_eq_some hlookup)

theorem exitType_lt (htable : p.table.Sound) (htypes : ∀ entry ∈ p.types, entry.2.index < p.table.size)
    (X : Tree) : (p.exitType X).index < p.table.size := by
  have hnothing : TypeId.nothing.index < p.table.size := htable.lt_of_index_le (by decide)
  unfold exitType
  cases X.expressions.head? with
  | none => exact hnothing
  | some V => exact typeOf_lt htable htypes V

theorem outcomes_lt (htable : p.table.Sound)
    (htypes : ∀ entry ∈ p.types, entry.2.index < p.table.size) (body : Tree) :
    ∀ type ∈ (p.outcomes body).map (·.2), type.index < p.table.size := by
  rw [List.forall_mem_map, outcomes, List.forall_mem_append, List.forall_mem_map]
  refine ⟨fun X _ => exitType_lt htable htypes X, ?_⟩
  split
  · exact fun _ h => nomatch h
  · exact List.forall_mem_singleton.mpr (typeOf_lt htable htypes body)

/-- The types of exits are those of their values. -/
theorem exitType_eq {stops : ExprForm → Bool} {exit : ExprForm} {Y : Tree} (hnodup : Y.ids.Nodup)
    (hsame : ∀ x ∈ Y.ids, x ≠ Y.id → p'.types.lookup x = p.types.lookup x)
    (hX : X ∈ Y.exits stops exit) : p'.exitType X = p.exitType X := by
  unfold exitType
  cases hV : X.expressions.head? with
  | none => rfl
  | some V =>
    obtain ⟨hmem, hne⟩ := Tree.operand_mem_of_mem_exits hnodup hX (List.mem_of_mem_head? hV)
    rw [Option.map_some, Option.map_some, typeOf, typeOf, hsame V.id hmem hne]

/-- What a handler comes to stays while its body keeps the types in it. -/
theorem outcomes_eq (htable : p.table.Sound) (hmore : p.table.Extends p'.table)
    (hnodup : body.ids.Nodup) (htypes : ∀ entry ∈ p.types, entry.2.index < p.table.size)
    (hsame : ∀ x ∈ body.ids, p'.types.lookup x = p.types.lookup x) :
    p'.outcomes body = p.outcomes body := by
  have htypeOf : p'.typeOf body = p.typeOf body :=
    congrArg (Option.getD · TypeId.nothing) (hsame _ body.id_mem_ids)
  have hreturns : body.returns.map p'.exitOf = body.returns.map p.exitOf :=
    List.map_congr_left fun X hX =>
      congrArg (X.id, ·) (exitType_eq hnodup (fun x hx _ => hsame x hx) hX)
  rw [outcomes, outcomes, hreturns, htypeOf, hmore.isNever_eq (typeOf_lt htable htypes body)]

theorem Precedes.of_eq (htable : p'.table = p.table) (hlog : p'.log = p.log) : p.Precedes p' :=
  ⟨htable ▸ .refl _, [], by rw [hlog, List.append_nil]⟩

theorem Precedes.trans {p'' : Pass} (h : p.Precedes p') (h' : p'.Precedes p'') :
    p.Precedes p'' := by
  obtain ⟨htable, more, hmore⟩ := h
  obtain ⟨htable', more', hmore'⟩ := h'
  exact ⟨htable.trans htable', more ++ more', by rw [hmore', hmore, List.append_assoc]⟩

theorem AnswersWith.keep {result : TypeId} (h : p.AnswersWith a X body result)
    (htable : p.table.Sound) (hbefore : p.Precedes p')
    (htypes : ∀ entry ∈ p.types, entry.2.index < p.table.size)
    (hsame : p'.outcomes body = p.outcomes body) : p'.AnswersWith a X body result := by
  unfold AnswersWith at h ⊢
  rw [hsame]
  split at h
  · have hlt := outcomes_lt htable htypes body
    rw [hbefore.1.retains.unionParts_eq htable.closed hlt]
    exact h.extend hbefore.1 (unionParts_lt htable.closed (.refl _) hlt)
  · obtain ⟨⟨q, q', hread, hfirst⟩, r, r', hrun, hthen⟩ := h
    exact ⟨⟨q, q', hread, hfirst.trans hbefore⟩, r, r', hrun, hthen.trans hbefore⟩

/-- What handlers and loops are made of does not change while the nodes in them keep their types. -/
theorem Made.keep (h : p.Made a X type) (htable : p.table.Sound) (hbefore : p.Precedes p')
    (hnodup : X.ids.Nodup) (htypes : ∀ entry ∈ p.types, entry.2.index < p.table.size)
    (htype : type.index < p.table.size)
    (hsame : ∀ x ∈ X.ids, x ≠ X.id → p'.types.lookup x = p.types.lookup x) : p'.Made a X type := by
  intro body hbody
  have hchild : body ∈ X.expressions := List.mem_of_mem_head? hbody
  have hbelow : ∀ x ∈ body.ids, p'.types.lookup x = p.types.lookup x := by
    refine fun x hx => hsame x (Tree.ids_subset_of_mem_expressions hchild hx) ?_
    rintro rfl
    exact Tree.id_not_mem_of_mem_expressions hnodup hchild hx
  have hbodyNodup := Tree.nodup_of_mem_children hnodup (Tree.mem_children_of_mem_expressions hchild)
  obtain ⟨hhandler, hloop⟩ := h body hbody
  refine ⟨fun hform => ?_, fun hform => ?_⟩
  · obtain ⟨input, result, hget, hanswers⟩ := hhandler hform
    have hsame' := outcomes_eq htable hbefore.1 hbodyNodup htypes hbelow
    exact ⟨input, result, by rw [hbefore.1.get_eq type htype, hget],
      hanswers.keep htable hbefore htypes hsame'⟩
  · have hloop := hloop hform
    split
    · next hnone => rwa [if_pos hnone] at hloop
    · next hsome =>
      rw [if_neg hsome] at hloop
      have hbreaks : ∀ type ∈ body.breaks.map p.exitType, type.index < p.table.size := by
        rw [List.forall_mem_map]
        exact fun Y _ => exitType_lt htable htypes Y
      have hexits : body.breaks.map p'.exitType = body.breaks.map p.exitType :=
        List.map_congr_left fun Y hY => exitType_eq hbodyNodup (fun x hx _ => hbelow x hx) hY
      rw [hexits, hbefore.1.retains.unionParts_eq htable.closed hbreaks]
      exact hloop.extend hbefore.1 (unionParts_lt htable.closed (.refl _) hbreaks)

end

end Pass

end MessageLang
