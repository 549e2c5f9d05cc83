import MessageLang.Proofs.Core.Wording

namespace MessageLang

open MessageLang.Tree (Twig)

namespace SketchPart

variable {items : List Sketch}

@[simp]
theorem isSpelt_lexeme_iff {kind : TokenKind} {text : String} :
    (lexeme kind text).isSpelt ↔ text ≠ "" := by
  simp [isSpelt]

@[simp]
theorem isSpelt_name_iff {text : String} : (name text).isSpelt ↔ text ≠ "" := isSpelt_lexeme_iff

@[simp]
theorem isSpelt_mark_iff {text : String} : (mark text).isSpelt ↔ text ≠ "" := isSpelt_lexeme_iff

@[simp]
theorem isSpelt_sketch (s : Sketch) : (sketch s).isSpelt = s.isSpelt := rfl

@[simp]
theorem isSpelt_absent : absent.isSpelt := rfl

@[simp]
theorem isSpelt_reserved (word : Keyword) : (reserved word).isSpelt := by
  cases word <;> rfl

theorem isSpelt_operator {op : String} (h : op ≠ "") : (operator op).isSpelt := by
  unfold operator
  split
  case h_4 => exact isSpelt_lexeme_iff.mpr h
  all_goals exact isSpelt_reserved _

theorem isSpelt_sketches (h : ∀ s ∈ items, s.isSpelt) : (sketches items).isSpelt := by
  change allSpelt (items.map sketch)
  induction items with
  | nil => rfl
  | cons s rest ih =>
    obtain ⟨hs, hrest⟩ := List.forall_mem_cons.mp h
    exact Bool.and_eq_true_iff.mpr ⟨hs, ih hrest⟩

theorem isSpelt_optional {part : Option Sketch} (h : ∀ s ∈ part, s.isSpelt) :
    (optional part).isSpelt := by
  cases part with
  | none => rfl
  | some s => exact h s rfl

theorem isSpelt_labelling {label : Option String} (h : ∀ text ∈ label, text ≠ "") :
    (labelling label).isSpelt := by
  cases label with
  | none => rfl
  | some text => exact Bool.and_eq_true_iff.mpr ⟨isSpelt_name_iff.mpr (h text rfl), rfl⟩

theorem allSpelt_iff {parts : List SketchPart} : allSpelt parts ↔ ∀ part ∈ parts, part.isSpelt := by
  induction parts with
  | nil => simp [allSpelt]
  | cons part rest ih => rw [allSpelt, Bool.and_eq_true, ih, List.forall_mem_cons]

theorem anyPresent_of_mem {s : Sketch} {parts : List SketchPart} (hmem : sketch s ∈ parts) :
    anyPresent parts := by
  induction parts with
  | nil => cases hmem
  | cons part rest ih =>
    rw [anyPresent, Bool.or_eq_true]
    rcases List.mem_cons.mp hmem with rfl | hmem
    · exact .inl rfl
    · exact .inr (ih hmem)

theorem isSpelt_arrow {left right : SketchPart} (hleft : left.isSpelt) (hright : right.isSpelt) :
    ∀ part ∈ [left, lexeme .operator "->", right], part.isSpelt := by
  simp [hleft, hright]

theorem isSpelt_thenParts {condition branch : Sketch} (hcondition : condition.isSpelt)
    (hbranch : branch.isSpelt) :
    ∀ part ∈ [reserved .ifWord, sketch condition, reserved .thenWord, sketch branch],
      part.isSpelt := by
  simp [hcondition, hbranch]

end SketchPart

namespace Sketch

open SketchPart

/-- Being put together in the ways there are to write expressions and types, each token with some
text. -/
inductive Phrased : Sketch → Prop
  | number {text : String} (text_ne : text ≠ "") : Phrased (number text)
  | string (value : String) : Phrased (string value)
  | boolean (value : Bool) : Phrased (boolean value)
  | nothing : Phrased nothing
  | symbol (name : String) : Phrased (symbol name)
  | reference {name : String} (name_ne : name ≠ "") : Phrased (reference name)
  | nested {inner : Sketch} (inner_phrased : Phrased inner) : Phrased (nested inner)
  | unary {op : String} {operand : Sketch} (op_ne : op ≠ "") (operand_phrased : Phrased operand) :
      Phrased (unary op operand)
  | binary {left right : Sketch} {op : String} (left_phrased : Phrased left) (op_ne : op ≠ "")
      (right_phrased : Phrased right) : Phrased (binary left op right)
  | call {receiver message : Sketch} (receiver_phrased : Phrased receiver)
      (message_phrased : Phrased message) : Phrased (call receiver message)
  | send {receiver : Sketch} (message : String) (receiver_phrased : Phrased receiver) :
      Phrased (send receiver message)
  | ifThen {condition branch : Sketch} (condition_phrased : Phrased condition)
      (branch_phrased : Phrased branch) : Phrased (ifThen condition branch)
  | ifElse {condition branch otherwise : Sketch} (condition_phrased : Phrased condition)
      (branch_phrased : Phrased branch) (otherwise_phrased : Phrased otherwise) :
      Phrased (ifElse condition branch otherwise)
  | whileLoop {condition body : Sketch} (condition_phrased : Phrased condition)
      (body_phrased : Phrased body) : Phrased (whileLoop condition body)
  | repeatLoop {body : Sketch} (body_phrased : Phrased body) : Phrased (repeatLoop body)
  | newObject {code : Sketch} (code_phrased : Phrased code) : Phrased (newObject code)
  | block {items : List Sketch} (items_phrased : ∀ s ∈ items, Phrased s) : Phrased (block items)
  | array {items : List Sketch} (items_phrased : ∀ s ∈ items, Phrased s) : Phrased (array items)
  | struct {fields : List Sketch} (fields_phrased : ∀ s ∈ fields, Phrased s) : Phrased (struct fields)
  | field {label : Option String} {value : Sketch} (label_ne : ∀ text ∈ label, text ≠ "")
      (value_phrased : Phrased value) : Phrased (field label value)
  | assign {target : String} {value : Sketch} (target_ne : target ≠ "")
      (value_phrased : Phrased value) : Phrased (assign target value)
  | localDef {target : String} {mutable : Bool} {declared : Option Sketch} {value : Sketch}
      (target_ne : target ≠ "") (declared_phrased : ∀ s ∈ declared, Phrased s)
      (value_phrased : Phrased value) : Phrased (localDef target mutable declared value)
  | locals {mutable : Bool} {definitions : List Sketch}
      (definitions_phrased : ∀ s ∈ definitions, Phrased s) : Phrased (locals mutable definitions)
  | letOne {target : String} {declared : Option Sketch} {value : Sketch} (target_ne : target ≠ "")
      (declared_phrased : ∀ s ∈ declared, Phrased s) (value_phrased : Phrased value) :
      Phrased (letOne target declared value)
  | varOne {target : String} {value : Sketch} (target_ne : target ≠ "")
      (value_phrased : Phrased value) : Phrased (varOne target value)
  | returnExit {value : Option Sketch} (value_phrased : ∀ s ∈ value, Phrased s) :
      Phrased (returnExit value)
  | breakExit {value : Option Sketch} (value_phrased : ∀ s ∈ value, Phrased s) :
      Phrased (breakExit value)
  | handler {input : Sketch} {output : Option Sketch} {body : Sketch}
      (input_phrased : Phrased input) (output_phrased : ∀ s ∈ output, Phrased s)
      (body_phrased : Phrased body) : Phrased (handler input output body)
  | function {input output : Option Sketch} {body : Sketch}
      (input_phrased : ∀ s ∈ input, Phrased s) (output_phrased : ∀ s ∈ output, Phrased s)
      (body_phrased : Phrased body) : Phrased (function input output body)
  | emptyType : Phrased emptyType
  | simpleType {text : String} (text_ne : text ≠ "") : Phrased (simpleType text)
  | parameterType (text : String) : Phrased (parameterType text)
  | typedField {label : Option String} {fieldType : Sketch} (label_ne : ∀ text ∈ label, text ≠ "")
      (fieldType_phrased : Phrased fieldType) : Phrased (typedField label fieldType)
  | typedFieldDefault {label : String} {fieldType default : Sketch} (label_ne : label ≠ "")
      (fieldType_phrased : Phrased fieldType) (default_phrased : Phrased default) :
      Phrased (typedFieldDefault label fieldType default)
  | compoundType {fields : List Sketch} (fields_phrased : ∀ s ∈ fields, Phrased s) :
      Phrased (compoundType fields)
  | templateType {text : String} {arguments : List Sketch} (text_ne : text ≠ "")
      (arguments_phrased : ∀ s ∈ arguments, Phrased s) : Phrased (templateType text arguments)
  | functionType {argument result : Sketch} (argument_phrased : Phrased argument)
      (result_phrased : Phrased result) : Phrased (functionType argument result)
  | nestedType {inner : Sketch} (inner_phrased : Phrased inner) : Phrased (nestedType inner)
  | mergedType {alternatives : List Sketch} (alternatives_ne : alternatives ≠ [])
      (alternatives_phrased : ∀ s ∈ alternatives, Phrased s) : Phrased (mergedType alternatives)
  | inlineType {declarations : List Sketch} (declarations_phrased : ∀ s ∈ declarations, Phrased s) :
      Phrased (inlineType declarations)
  | symbolDeclaration {name : String} {result : Sketch} (result_phrased : Phrased result) :
      Phrased (symbolDeclaration name result)
  | guardDeclaration {guard result : Sketch} (guard_phrased : Phrased guard)
      (result_phrased : Phrased result) : Phrased (guardDeclaration guard result)

variable {s : Sketch}

/-- A node over parts that are spelt out, one of which is there. -/
theorem isSpelt_node {form : NodeForm} {parts more : List SketchPart} (hform : form.isLeaf = false)
    (hpresent : anyPresent parts) (hparts : ∀ part ∈ parts, part.isSpelt)
    (hmore : ∀ part ∈ more, part.isSpelt) : (node form parts more none).isSpelt := by
  simp [isSpelt, hform, hpresent, allSpelt_iff.mpr hparts, allSpelt_iff.mpr hmore]

theorem isSpelt_word {form : ExprForm} {kind : TokenKind} {text : String}
    (hform : (NodeForm.expr form).isLeaf) (h : text ≠ "") : (word form kind text).isSpelt := by
  simp [isSpelt, hform, h]

theorem isSpelt_localDef {target : String} {declared : Option Sketch} {value : Sketch}
    (htarget : target ≠ "") (hdeclared : ∀ s ∈ declared, s.isSpelt) (hvalue : value.isSpelt)
    (mutable : Bool) : (localDef target mutable declared value).isSpelt := by
  refine isSpelt_node rfl rfl ?_ nofun
  cases declared with
  | none => simp [htarget, hvalue]
  | some type => simp [htarget, hvalue, SketchPart.isSpelt, allSpelt_iff, hdeclared type rfl]

theorem isSpelt_locals {definitions : List Sketch} (h : ∀ s ∈ definitions, s.isSpelt)
    (mutable : Bool) : (locals mutable definitions).isSpelt :=
  isSpelt_node rfl rfl (by simp [isSpelt_sketches h]) nofun

theorem isSpelt_call {receiver message : Sketch} (hreceiver : receiver.isSpelt)
    (hmessage : message.isSpelt) : (call receiver message).isSpelt :=
  isSpelt_node rfl rfl (by simp [hreceiver, hmessage]) nofun

theorem isSpelt_symbol (name : String) : (symbol name).isSpelt := isSpelt_word rfl (by simp)

theorem Phrased.isSpelt (h : s.Phrased) : s.isSpelt := by
  induction h with
  | number text_ne => exact isSpelt_word rfl text_ne
  | string value => exact isSpelt_word rfl (by simp [quote])
  | boolean value => cases value <;> rfl
  | nothing => rfl
  | symbol name => exact isSpelt_symbol name
  | reference name_ne => exact isSpelt_word rfl name_ne
  | nested _ ih => exact isSpelt_node rfl rfl (by simp [ih]) nofun
  | unary op_ne _ ih =>
    refine isSpelt_node rfl (anyPresent_of_mem (.tail _ (.head _))) ?_ nofun
    simp [isSpelt_operator op_ne, ih]
  | binary _ op_ne _ ih ih' =>
    exact isSpelt_node rfl rfl (by simp [isSpelt_operator op_ne, ih, ih']) nofun
  | call _ _ ih ih' => exact isSpelt_call ih ih'
  | send message _ ih => exact isSpelt_call ih (isSpelt_symbol message)
  | ifThen _ _ ih ih' => exact isSpelt_node rfl rfl (isSpelt_thenParts ih ih') nofun
  | ifElse _ _ _ ih ih' ih'' =>
    exact isSpelt_node rfl rfl (isSpelt_thenParts ih ih') (by simp [ih''])
  | whileLoop _ _ ih ih' => exact isSpelt_node rfl rfl (by simp [ih, ih']) nofun
  | repeatLoop _ ih => exact isSpelt_node rfl rfl (by simp [ih]) nofun
  | newObject _ ih => exact isSpelt_node rfl rfl (by simp [ih]) nofun
  | block _ ih => exact isSpelt_node rfl rfl (by simp [isSpelt_sketches ih]) nofun
  | array _ ih => exact isSpelt_node rfl rfl (by simp [isSpelt_sketches ih]) nofun
  | struct _ ih => exact isSpelt_node rfl rfl (by simp [isSpelt_sketches ih]) nofun
  | field label_ne _ ih =>
    refine isSpelt_node rfl (anyPresent_of_mem (.tail _ (.head _))) ?_ nofun
    simp [isSpelt_labelling label_ne, ih]
  | assign target_ne _ ih => exact isSpelt_node rfl rfl (by simp [target_ne, ih]) nofun
  | localDef target_ne _ _ ih ih' => exact isSpelt_localDef target_ne ih ih' _
  | locals _ ih => exact isSpelt_locals ih _
  | letOne target_ne _ _ ih ih' =>
    exact isSpelt_locals (List.forall_mem_singleton.mpr (isSpelt_localDef target_ne ih ih' false)) false
  | varOne target_ne _ ih =>
    exact isSpelt_locals (List.forall_mem_singleton.mpr (isSpelt_localDef target_ne (by simp) ih true)) true
  | returnExit _ ih => exact isSpelt_node rfl rfl (by simp [isSpelt_optional ih]) nofun
  | breakExit _ ih => exact isSpelt_node rfl rfl (by simp [isSpelt_optional ih]) nofun
  | handler _ _ _ ih ih' ih'' =>
    exact isSpelt_node rfl rfl (by simp [ih, isSpelt_optional ih', ih'']) nofun
  | function _ _ _ ih ih' ih'' =>
    exact isSpelt_node rfl rfl (by simp [isSpelt_optional ih, isSpelt_optional ih', ih'']) nofun
  | emptyType => rfl
  | simpleType text_ne => exact isSpelt_node rfl rfl (by simp [text_ne]) nofun
  | parameterType text => exact isSpelt_node rfl rfl (by simp) nofun
  | typedField label_ne _ ih =>
    refine isSpelt_node rfl (anyPresent_of_mem (.tail _ (.head _))) ?_ nofun
    simp [isSpelt_labelling label_ne, ih]
  | @typedFieldDefault label _ _ label_ne _ _ ih ih' =>
    refine isSpelt_node rfl rfl ?_ (by simp [ih'])
    have hlabelling : (labelling (some label)).isSpelt := isSpelt_labelling (by simpa using label_ne)
    simp [hlabelling, ih]
  | compoundType _ ih => exact isSpelt_node rfl rfl (by simp [isSpelt_sketches ih]) nofun
  | templateType text_ne _ ih =>
    exact isSpelt_node rfl rfl (by simp [text_ne, isSpelt_sketches ih]) nofun
  | functionType _ _ ih ih' =>
    exact isSpelt_node rfl rfl (isSpelt_arrow ih ih') nofun
  | nestedType _ ih => exact isSpelt_node rfl rfl (by simp [ih]) nofun
  | mergedType alternatives_ne _ ih =>
    refine isSpelt_node rfl ?_ (by simp [isSpelt_sketches ih]) nofun
    obtain ⟨first, rest, rfl⟩ := List.exists_cons_of_ne_nil alternatives_ne
    rfl
  | inlineType _ ih => exact isSpelt_node rfl rfl (by simp [isSpelt_sketches ih]) nofun
  | symbolDeclaration _ ih => exact isSpelt_node rfl rfl (isSpelt_arrow (by simp) ih) nofun
  | guardDeclaration _ _ ih ih' => exact isSpelt_node rfl rfl (isSpelt_arrow ih ih') nofun

/-- What is put together in the ways there are to write can be built, as a tree with the forms it is
put together of. What is read at the nodes that stand for tokens are its texts in order, the source
is these with single spaces between, and what is read at a token is the token's text. Each node
spans its children, which follow each other. -/
theorem Phrased.build_reads (h : s.Phrased) : ∃ T d', s.build .empty = .ok (T.id, d') ∧
    d'.arena.Holds none T ∧ Tree.formsOf [T] = s.forms ∧
    (Tree.leafNodes [T]).map (·.span.slice? d'.source) = s.texts.map some ∧
    d'.source = " ".intercalate s.texts ∧
    (∀ L ∈ Tree.leafNodes [T], ∀ t, L.form = .token t →
      L.span.slice? d'.source = some t.text ∧ t.span = L.span) ∧
    ∀ P ∈ T.nodes, P.Spanning := by
  have hstart : Draft.empty.arena.Apart [] 0 Draft.empty.arena.size Draft.empty.arena :=
    ⟨rfl, .refl _ _, nofun, Multiset.nodup_zero, nofun⟩
  obtain ⟨_, d', hrun, T, size, rfl, hapart, hsource, hworded⟩ :=
    ends_iff.mp (s.build_worded h.isSpelt hstart)
  have hstand : List.Forall₂ Tree.Stands (Tree.leafNodes [T]) (Draft.whereabouts "" s.texts) :=
    hworded.stand size
  have hread : ∀ placed ∈ Draft.whereabouts "" s.texts, placed.2.slice? d'.source = some placed.1 :=
    fun placed hplaced => hsource ▸ Draft.slice?_of_mem_whereabouts hplaced
  refine ⟨T, d', hrun, hapart.holds, hworded.forms_eq size, ?_, ?_, fun L hL t ht => ?_,
    fun P hP => ?_⟩
  · rw [Tree.map_slice?_of_stand hstand hread]
    conv_rhs => rw [← Draft.map_fst_whereabouts "" s.texts, List.map_map]
    rfl
  · exact hsource.trans (Draft.written_empty (s.texts_ne_empty h.isSpelt))
  · obtain ⟨placed, hplaced, hself⟩ := Tree.exists_stands_of_mem hstand hL
    obtain ⟨htext, hspan⟩ := hself.token t ht
    rw [hself.span_eq, hread placed hplaced, htext, hspan]
    exact ⟨rfl, rfl⟩
  · exact hworded.spanning size P (Tree.mem_nodesAll_iff.mpr ⟨T, List.mem_singleton_self T, hP⟩)

/-- The definition `let größe = if "ß" then é else ()`, in which some characters take two bytes. -/
def accentedLet : Sketch :=
  letOne "größe" none (ifElse (string "ß") (reference "é") nothing)

theorem build_reads_accentedLet : accentedLet.Phrased ∧ ∃ (T : Tree) (d' : Draft),
    accentedLet.build .empty = .ok (T.id, d') ∧ d'.arena.Holds none T ∧
    d'.source = "let größe = if \"ß\" then é else ()" ∧
    (Tree.leafNodes [T]).map (·.span.slice? d'.source) = [some "let", some "größe", some "=",
      some "if", some "\"ß\"", some "then", some "é", some "else", some "()"] ∧
    Tree.formsOf [T] = [.expr .locals, .expr (.localDef "größe" false), .expr .conditional,
      .expr (.constant ⟨.string, "ß"⟩), .expr (.reference "é"), .expr (.constant .nothing)] ∧
    (∀ L ∈ Tree.leafNodes [T], ∀ t, L.form = .token t →
      L.span.slice? d'.source = some t.text ∧ t.span = L.span) ∧
    ∀ P ∈ T.nodes, P.Spanning := by
  have hphrased : accentedLet.Phrased := .letOne (by decide) nofun
    (.ifElse (.string "ß") (.reference (by decide)) .nothing)
  obtain ⟨T, d', hrun, hheld, hforms, hread, hsource, hrest⟩ := hphrased.build_reads
  have htexts : accentedLet.texts =
      ["let", "größe", "=", "if", "\"ß\"", "then", "é", "else", "()"] := by decide +kernel
  rw [htexts] at hread hsource
  exact ⟨hphrased, T, d', hrun, hheld, hsource.trans (by decide), hread,
    hforms.trans (by decide +kernel), hrest⟩

end Sketch

end MessageLang
