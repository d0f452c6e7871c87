import ScopedAggregation.Definition
import ScopedAggregation.Proofs.FormulaBraces
import ScopedAggregation.Proofs.QuotedScalar
import ScopedAggregation.Proofs.WhiteSpace

namespace ScopedAggregation

namespace Text

theorem splitAt_of_not_mem {sep : UInt8} {s : Text} (h : sep ∉ s) : splitAt sep s = [s] := by
  induction s with
  | nil => rfl
  | cons b s ih =>
    rw [List.mem_cons, not_or] at h
    rw [splitAt, ih h.2]
    exact if_neg (Ne.symm h.1)

end Text

namespace Formula

/-- A formula between the marks that embed it in a text. -/
def embedded (s : Text) : Text := opening ++ s ++ [Ascii.closeBrace]

theorem embedded_eq_cons (s : Text) :
    embedded s = Ascii.dollar :: (Ascii.openBrace :: s ++ [Ascii.closeBrace]) := rfl

theorem cut?_embedded (s : Text) :
    Text.cut? opening (embedded s) = some ([], s ++ [Ascii.closeBrace]) := rfl

theorem isPrintable_embedded {s : Text} (h : ∀ b ∈ s, Yaml.isPrintable b = true) :
    ∀ b ∈ embedded s, Yaml.isPrintable b = true := by
  simp only [embedded, opening, List.mem_append, List.mem_cons, List.not_mem_nil, or_false]
  rintro b (((rfl | rfl) | hb) | rfl)
  · decide
  · decide
  · exact h b hb
  · decide

theorem trim_embedded (s : Text) : Text.trim (embedded s) = embedded s :=
  Text.trim_inked (by decide) (by decide) (by decide) (by decide) (Ascii.openBrace :: s)

/-- The formula alone is found, if any is. -/
theorem lone?_embedded {s inner : Text} (found : lone? (embedded s) = some inner) : inner = s := by
  have htrim := trim_embedded s
  have hafter : Text.after? opening (embedded s) = some (s ++ [Ascii.closeBrace]) := rfl
  unfold lone? at found
  simp only [htrim, hafter, List.getLast?_concat, if_true, List.dropLast_concat] at found
  split at found
  next => exact (Option.some.inj found).symm
  next => cases found

theorem parts_embedded {s : Text} {e : Expr} (h : parse s = .ok e) (n : Nat) :
    parts (n + 1) (embedded s) = .ok [e] := by
  have hrest : parts n [] = .ok [] := by
    cases n with
    | zero => rfl
    | succ n => rfl
  have hsplit := splitFormula?_parse h []
  rw [embedded_eq_cons, parts, ← embedded_eq_cons]
  · simp only [cut?_embedded, hsplit, h, hrest]
    rfl
  · simp

/-- An embedded formula is read as the formula, whichever way its end is found. -/
theorem parseTemplate_embedded {s : Text} {e : Expr} (h : parse s = .ok e) :
    parseTemplate (embedded s) = .ok (some e) := by
  have marked : Text.includes opening (embedded s) = true := rfl
  unfold parseTemplate
  rw [if_pos marked]
  cases found : lone? (embedded s) with
  | some inner =>
    rw [lone?_embedded found]
    simp only [h]
    rfl
  | none =>
    simp only [parts_embedded h]
    rfl

end Formula

namespace Definition

open Formula (embedded)
open Yaml (Node)

/-- A line with a formula as the value of its entry has the value put into quotes. -/
theorem quoteLine_embedded {s : Text} {e : Expr} (h : Formula.parse s = .ok e) :
    quoteLine (text "expression: " ++ embedded s) = Yaml.entrySource (embedded s) := by
  have hcut : Text.cut? Formula.opening (text "expression: " ++ embedded s) =
      some (text "expression: ", s ++ [Ascii.closeBrace]) := rfl
  have hstarts : startsScalar (text "expression: ") = true := by decide
  have hends : endsScalar [] = true := by decide
  have hsplit := Formula.splitBraces?_parse h []
  unfold quoteLine
  simp only [hcut, hstarts, hsplit, hends, if_true]
  simp [Yaml.entrySource, embedded]

theorem quoteFormulas_embedded {s : Text} {e : Expr} (printable : ∀ b ∈ s, Yaml.isPrintable b = true)
    (h : Formula.parse s = .ok e) :
    quoteFormulas (text "expression: " ++ embedded s) = Yaml.entrySource (embedded s) := by
  have hline : Ascii.newline ∉ text "expression: " ++ embedded s := by
    rw [List.mem_append, not_or]
    refine ⟨by decide, ?_⟩
    intro hmem
    exact absurd (Formula.isPrintable_embedded printable _ hmem) (by decide)
  rw [quoteFormulas, Text.splitAt_of_not_mem hline]
  exact quoteLine_embedded h

theorem readSource_embedded {s : Text} {e : Expr} (printable : ∀ b ∈ s, Yaml.isPrintable b = true)
    (h : Formula.parse s = .ok e) :
    readSource .definition (text "expression: " ++ embedded s) =
      .ok (Yaml.entryDocument (embedded s)) := by
  have hkey : (text "expression: ").length = 12 := by decide
  have hlength := Formula.length_le_of_parse h
  have hsize : ¬ maxSourceSize < (text "expression: " ++ embedded s).length := by
    simp only [List.length_append, hkey, embedded, Formula.opening, List.length_cons,
      List.length_nil, maxSourceSize, Formula.maxLength] at hlength ⊢
    omega
  unfold readSource
  rw [if_neg hsize, quoteFormulas_embedded printable h,
    Yaml.read_entrySource (Formula.isPrintable_embedded printable)]

/-- The expression of a definition that is one formula is the tree of the formula. -/
theorem parse_embedded_formula {s : Text} {e : Expr}
    (printable : ∀ b ∈ s, Yaml.isPrintable b = true) (h : Formula.parse s = .ok e) :
    parse (text "expression: " ++ embedded s) = .ok { body := .expression e } := by
  have hread := readSource_embedded printable h
  have htemplate := Formula.parseTemplate_embedded h
  have hparts (node : Node) : readParts {} [(.scalar 1 .str .plain (text "expression"), node)] =
      .ok { expression := some node } := rfl
  have hexpr : readRootExpr (Yaml.entryDocument (embedded s))
      (.scalar 1 .str .singleQuoted (embedded s)) = .ok e := by
    simp [readRootExpr, readExpr, scalarData, scalarExpr, stringExpr, htemplate]
  unfold parse
  rw [hread]
  refine bind_eq_ok.mpr ⟨_, rfl, ?_⟩
  refine bind_eq_ok.mpr ⟨_, hparts _, ?_⟩
  exact bind_eq_ok.mpr ⟨e, hexpr, rfl⟩

/-- A map with quotes, braces and the marks of entries, comments and formulas in a string. -/
def quotedMarks : Text := text "\x7bnote: \"it's #1: $\x7b\x7d\x7d\", of: x\x7d"

def quotedMarksTree : Expr :=
  .object [(text "note", .literal (.string (text "it's #1: $\x7b\x7d\x7d"))),
    (text "of", .field (text "x"))]

theorem quotedMarks_embedded :
    Formula.parse quotedMarks = .ok quotedMarksTree ∧
      parse (text "expression: " ++ embedded quotedMarks) =
        .ok { body := .expression quotedMarksTree } :=
  ⟨rfl, parse_embedded_formula (List.all_eq_true.mp (by decide)) rfl⟩

end Definition

end ScopedAggregation
