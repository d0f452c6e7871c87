import ScopedAggregation.Definition
import ScopedAggregation.Proofs.KeyOrder
import ScopedAggregation.Proofs.RenderSuccess
import ScopedAggregation.Proofs.ScalarNumbers

namespace ScopedAggregation.Definition

open Yaml (Node ScalarKind ScalarStyle Document)

/-- The words for truth values. -/
def truthWords : List (Text × Bool) :=
  (["true", "True", "TRUE"].map fun w => (text w, true)) ++
    (["false", "False", "FALSE"].map fun w => (text w, false))

/-- A sign, if any, and decimal digits with the value of the integer. A leading zero would make them
octal. -/
structure IsDecimalInt (s : Text) (i : Int64) : Prop where
  given : Numeral.dropSign s ≠ []
  digits : ∀ b ∈ Numeral.dropSign s, Ascii.isDigit b = true
  unmarked : ∀ ds, Numeral.dropSign s = Ascii.zero :: ds → ds = []
  value : i.toInt = if Yaml.isNegative s then -(Text.digitsValue (Numeral.dropSign s) : Int)
    else Text.digitsValue (Numeral.dropSign s)

def IsKeyNode (node : Node) (k : Text) : Prop := ∃ line kind style, node = .scalar line kind style k

/-- The value that a node without aliases, doubles and dates is written for, entries in their order. -/
inductive Writes : Node → Value → Prop
  | null {line : Nat} {s : Text} : Writes (.scalar line .null .plain s) .null
  | bool {line : Nat} {s : Text} {b : Bool} (word : (s, b) ∈ truthWords) :
    Writes (.scalar line .bool .plain s) (.bool b)
  | int {line : Nat} {s : Text} {i : Int64} (decimal : IsDecimalInt s i) :
    Writes (.scalar line .int .plain s) (.int i)
  | string {line : Nat} {style : ScalarStyle} {s : Text} : Writes (.scalar line .str style s) (.string s)
  | list {line : Nat} {items : List Node} {vs : List Value} (parts : List.Forall₂ Writes items vs) :
    Writes (.sequence line items) (.list vs)
  | document {line : Nat} {nodes : List (Node × Node)} {entries : List (Text × Value)}
    (keys : List.Forall₂ IsKeyNode (nodes.map (·.1)) (entries.map (·.1)))
    (values : List.Forall₂ Writes (nodes.map (·.2)) (entries.map (·.2))) :
    Writes (.mapping line nodes) (.document entries)

theorem scalarData_truthWord {s : Text} {b : Bool} (word : (s, b) ∈ truthWords) :
    scalarData .bool .plain s = .bool b := by
  have hsame : ∀ word ∈ truthWords, (sameWord "true" word.1 || sameWord "yes" word.1) = word.2 := by
    decide
  have hs : (sameWord "true" s || sameWord "yes" s) = b := hsame _ word
  rw [← hs]
  rfl

theorem toEntries_ofList (entries : List (Text × Plain)) :
    Plain.toEntries (Table.ofList entries) = Table.ofList (Plain.toEntries entries) := by
  rw [Plain.toEntries_eq_map, Plain.toEntries_eq_map, Table.ofList_map]

theorem IsDecimalInt.scanInt?_eq {s : Text} {i : Int64} (h : IsDecimalInt s i) :
    Numeral.scanInt? s = some i := by
  have hskip := skipBlanks?_of_head (.inl (leads_of_digits h.given h.digits))
  have hrun : (Numeral.dropSign s).takeWhile Ascii.isDigit = Numeral.dropSign s :=
    List.takeWhile_eq_self_iff.mpr h.digits
  have hvalue := h.value
  simp only [Yaml.isNegative, decide_eq_true_eq] at hvalue
  simp only [Numeral.scanInt?, hskip, Option.bind_eq_bind, Option.bind_some, hrun, if_neg h.given,
    ← hvalue, Numeral.isInt64_toInt, if_true, Int64.ofInt_toInt]

/-- The data of a node is the value that it is written for, with the keys sorted. -/
theorem Writes.toValue_nodeData {node : Node} {v : Value} (h : Writes node v)
    (anchored : Nat → Plain) : (nodeData anchored node).toValue = v.sortKeys := by
  induction v using Value.memberInduction generalizing node with
  | null =>
    cases h
    rfl
  | bool b =>
    cases h with
    | bool word =>
      rw [nodeData, scalarData_truthWord word]
      rfl
  | int i =>
    cases h with
    | int decimal =>
      have hdata : ∀ s, Numeral.scanInt? s = some i → scalarData .int .plain s = .int i := by
        intro s hs
        simp [scalarData, hs]
      rw [nodeData, hdata _ decimal.scanInt?_eq]
      rfl
  | double x => cases h
  | string s =>
    cases h with
    | @string _ style =>
      have hdata : scalarData .str style s = .string s := ite_self _
      rw [nodeData, hdata]
      rfl
  | list items ih =>
    cases h with
    | @list _ nodes _ parts =>
      have hitems : List.Forall₂ (fun node v => (nodeData anchored node).toValue = v) nodes
          (items.map Value.sortKeys) := by
        rw [List.forall₂_map_right_iff]
        exact forall₂_imp_of_mem parts fun node v hv hw => ih v hv hw
      rw [nodeData, Plain.toValue, toValues_nodeItems hitems, Value.sortKeys_list]
  | document entries ih =>
    cases h with
    | @document _ nodes _ keys values =>
      have hparts : List.Forall₂ (fun p q => p.1.value = q.1 ∧ (nodeData anchored p.2).toValue = q.2)
          nodes (entries.map fun q => (q.1, q.2.sortKeys)) := by
        rw [List.forall₂_map_right_iff]
        apply forall₂_imp_of_mem (forall₂_of_parts keys values)
        rintro p q hq ⟨⟨line, kind, style, hkey⟩, hvalue⟩
        refine ⟨?_, ih q hq hvalue⟩
        rw [hkey]
        rfl
      rw [nodeData, Plain.toValue, toEntries_ofList, toEntries_nodeEntries hparts, Table.ofList_ofList,
        Value.sortKeys_document]

/-- When an explicit literal is kept as it is written. At every place where an expression stands it is
read and compiles to a document that stands for the value of its node with sorted keys; so it stands
for the value itself exactly if the keys of all mappings are written in increasing order. -/
theorem literal_kept_iff_sorted {key node : Node} {v : Value} (operator : key.value = text "$literal")
    (written : Writes node v) (distinct : v.all Value.hasDistinctKeys = true) (d : Document)
    (line levels : Nat) (c : Compiler) (positive : 0 < c.maxDepth) (ctx : Context) :
    ∃ e w doc, readExpr d (levels + 1) (.mapping line [(key, node)]) = .ok e ∧
      (c.compile (some e) ctx).1 = .ok doc ∧ w.IsShownAs doc ∧
      v.Rearranged w ∧ w.all Value.isSortedNode = true ∧
      (v.IsShownAs doc ↔ v.all Value.isSortedNode = true) := by
  have hdata : (dataOf d node).toValue = v.sortKeys := written.toValue_nodeData _
  have hread : readExpr d (levels + 1) (.mapping line [(key, node)]) = .ok (.literal v.sortKeys) := by
    have hsigil : ¬ (!Text.startsWith [Ascii.dollar] (text "$literal")) = true := by decide
    rw [readExpr, Inner.mapping]
    simp only [operator, hdata, if_true]
    exact if_neg hsigil
  have hcompile : (c.compile (some (.literal v.sortKeys)) ctx).1 = .ok (renderLiteral v.sortKeys) :=
    compile_eq_ok.mpr ⟨_, rfl, Expr.noConfusion, Expr.rendersTo_literal.mpr ⟨positive, rfl⟩⟩
  exact ⟨_, v.sortKeys, _, hread, hcompile, Value.isShownAs_iff.mpr rfl,
    Value.rearranged_sortKeys distinct, v.isSorted_sortKeys, Value.isShownAs_sortKeys_iff distinct⟩

def stringNode (s : String) : Node := .scalar 1 .str .plain (text s)

def integerNode (i : Int64) : Node := .scalar 1 .int .plain (Json.int i)

theorem isKeyNode_stringNode (s : String) : IsKeyNode (stringNode s) (text s) := ⟨1, .str, .plain, rfl⟩

/-- A mapping around a sequence with what could be taken for a reference. -/
def sortedLimits : Value :=
  .document [(text "limits", .list [.int (-1), .null]), (text "path", .string (text "$total"))]

def sortedLimitsNode : Node :=
  .mapping 1 [(stringNode "limits", .sequence 1 [integerNode (-1), .scalar 1 .null .plain (text "null")]),
    (stringNode "path", stringNode "$total")]

theorem sortedLimits_written : Writes sortedLimitsNode sortedLimits := by
  have hint : Writes (integerNode (-1)) (.int (-1)) :=
    .int ⟨by decide, by decide +kernel, fun ds h => (by cases h), by decide⟩
  have hlist := @Writes.list 1 _ _ (.cons hint (.cons (@Writes.null 1 (text "null")) .nil))
  exact .document (.cons (isKeyNode_stringNode _) (.cons (isKeyNode_stringNode _) .nil))
    (.cons hlist (.cons .string .nil))

theorem sortedLimits_kept :
    (stringNode "$literal").value = text "$literal" ∧ Writes sortedLimitsNode sortedLimits ∧
      sortedLimits.all Value.hasDistinctKeys = true ∧ 0 < ({} : Compiler).maxDepth ∧
      ∃ e doc, readExpr ⟨sortedLimitsNode, []⟩ 1 (.mapping 1 [(stringNode "$literal", sortedLimitsNode)]) =
          .ok e ∧
        (Compiler.compile {} (some e) .root).1 = .ok doc ∧ sortedLimits.IsShownAs doc := by
  have distinct : sortedLimits.all Value.hasDistinctKeys = true := by decide
  have sorted : sortedLimits.all Value.isSortedNode = true := by decide
  obtain ⟨e, -, doc, hread, hcompile, -, -, -, kept⟩ :=
    @literal_kept_iff_sorted (stringNode "$literal") _ _ rfl sortedLimits_written distinct
      ⟨sortedLimitsNode, []⟩ 1 0 {} (by decide) .root
  exact ⟨rfl, sortedLimits_written, distinct, by decide, e, doc, hread, hcompile, kept.mpr sorted⟩

def unsortedPair : Value := .document [(text "b", .int 1), (text "a", .int 2)]

def unsortedPairNode : Node :=
  .mapping 1 [(stringNode "b", integerNode 1), (stringNode "a", integerNode 2)]

/-- A definition with this literal. -/
def unsortedPairSource : Text := text "expression: \x7b$literal: \x7bb: 1, a: 2\x7d\x7d"

def firstKey? : Value → Option Text
  | .document entries => entries.head?.map (·.1)
  | _ => none

theorem unsortedPair_not_shown {doc : Value} (h : firstKey? doc = some (text "a")) :
    ¬ unsortedPair.IsShownAs doc := by
  intro shown
  rw [Value.isShownAs_iff.mp shown] at h
  exact absurd h (by decide)

/-- The literal comes out with its keys in another order. -/
theorem unsortedPair_reordered :
    Writes unsortedPairNode unsortedPair ∧ unsortedPair.all Value.hasDistinctKeys = true ∧
      (∃ e doc, readExpr ⟨unsortedPairNode, []⟩ 1
          (.mapping 1 [(stringNode "$literal", unsortedPairNode)]) = .ok e ∧
        (Compiler.compile {} (some e) .root).1 = .ok doc ∧ ¬ unsortedPair.IsShownAs doc) ∧
      ∃ definition doc last, parse unsortedPairSource = .ok definition ∧
        compile {} definition [] = (.ok doc, last) ∧ ¬ unsortedPair.IsShownAs doc := by
  have hone : Writes (integerNode 1) (.int 1) :=
    .int ⟨by decide, by decide +kernel, fun ds h => (by cases h), by decide⟩
  have htwo : Writes (integerNode 2) (.int 2) :=
    .int ⟨by decide, by decide +kernel, fun ds h => (by cases h), by decide⟩
  have written : Writes unsortedPairNode unsortedPair :=
    .document (.cons (isKeyNode_stringNode _) (.cons (isKeyNode_stringNode _) .nil))
      (.cons hone (.cons htwo .nil))
  have checked : (parse unsortedPairSource).toOption.any (fun definition =>
      (compile {} definition []).1.toOption.any fun doc => decide (firstKey? doc = some (text "a"))) =
      true := by decide +kernel
  obtain ⟨definition, hparse, checked⟩ := exists_ok_of_any checked
  obtain ⟨doc, hcompile, hfirst⟩ := exists_ok_of_any checked
  refine ⟨written, by decide, ⟨_, _, rfl, rfl, unsortedPair_not_shown rfl⟩, definition, doc, _, hparse,
    Prod.ext hcompile rfl, unsortedPair_not_shown (of_decide_eq_true hfirst)⟩

end ScopedAggregation.Definition
