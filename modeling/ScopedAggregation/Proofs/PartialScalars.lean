import ScopedAggregation.Proofs.SourceQuoting

namespace ScopedAggregation.Definition

open Formula (embedded IsUnmarkedText BracedText)

/-- What stands on a line before its value: the indentation, the key of an entry, or the dash of an
item. -/
inductive IsLead : Text → Prop
  | indentation {blanks : Text} (h : ∀ b ∈ blanks, Text.isSpaceOrTab b = true) : IsLead blanks
  | entry (key : Text) : IsLead (key ++ [Ascii.colon, Ascii.space])
  | item {blanks : Text} (h : ∀ b ∈ blanks, Text.isSpaceOrTab b = true) :
    IsLead (blanks ++ [Ascii.minus, Ascii.space])

theorem IsLead.opensScalar {lead : Text} (h : IsLead lead) : OpensScalar lead := by
  have hspace : ∀ b ∈ [Ascii.space], Text.isSpaceOrTab b = true :=
    List.forall_mem_singleton.mpr rfl
  cases h with
  | indentation hblanks => exact ⟨[], lead, rfl, hblanks, .inl rfl⟩
  | entry key =>
    refine ⟨key ++ [Ascii.colon], [Ascii.space], by simp, hspace, .inr (.inl ?_)⟩
    exact List.getLast?_concat
  | @item blanks hblanks =>
    refine ⟨blanks ++ [Ascii.minus], [Ascii.space], by simp, hspace, .inr (.inr ?_)⟩
    exact List.getLast?_concat

theorem OpensScalar.append_blanks {before blanks : Text} (h : OpensScalar before)
    (hblanks : ∀ b ∈ blanks, Text.isSpaceOrTab b = true) : OpensScalar (before ++ blanks) := by
  obtain ⟨sign, spaces, rfl, hspaces, hsign⟩ := h
  refine ⟨sign, spaces ++ blanks, List.append_assoc .., ?_, hsign⟩
  intro b hb
  rcases List.mem_append.mp hb with hb | hb
  · exact hspaces b hb
  · exact hblanks b hb

/-- Behind a sign that is no blank a scalar can begin only if the sign is a colon or a dash. -/
theorem opensScalar_sign_iff {before blanks : Text} {sign : UInt8}
    (hsign : Text.isSpaceOrTab sign = false) (hblanks : ∀ b ∈ blanks, Text.isSpaceOrTab b = true) :
    OpensScalar (before ++ [sign] ++ blanks) ↔ sign = Ascii.colon ∨ sign = Ascii.minus := by
  have hdrop : Text.dropEndWhile Text.isSpaceOrTab (before ++ [sign] ++ blanks) = before ++ [sign] := by
    rw [Text.dropEndWhile_eq_iff]
    refine ⟨blanks, rfl, hblanks, ?_⟩
    intro b hb
    rw [List.getLast?_concat] at hb
    cases hb
    exact hsign
  rw [← startsScalar_iff]
  unfold startsScalar
  rw [hdrop]
  simp

/-- What leads to a value does not count: only the text of the value itself says whether a scalar can
begin behind it. -/
theorem IsLead.opensScalar_append {lead : Text} (h : IsLead lead) (before : Text) :
    OpensScalar (lead ++ before) ↔ OpensScalar before := by
  obtain ⟨blanks, hbefore, hblanks, hstop⟩ :=
    (@Text.dropEndWhile_eq_iff Text.isSpaceOrTab before _).mp rfl
  rcases List.eq_nil_or_concat (Text.dropEndWhile Text.isSpaceOrTab before) with
    hnil | ⟨start, sign, hsign⟩
  · rw [hnil, List.nil_append] at hbefore
    subst hbefore
    have hblank : OpensScalar before := ⟨[], before, rfl, hblanks, .inl rfl⟩
    exact iff_of_true (h.opensScalar.append_blanks hblanks) hblank
  · rw [hsign, List.concat_eq_append] at hbefore hstop
    have hink : Text.isSpaceOrTab sign = false := hstop sign List.getLast?_concat
    have hlead : lead ++ before = lead ++ start ++ [sign] ++ blanks := by
      rw [hbefore]
      simp only [List.append_assoc]
    rw [hlead, opensScalar_sign_iff hink hblanks, hbefore, opensScalar_sign_iff hink hblanks]

/-- A line is left as it is exactly if no scalar can begin where its first formula stands, or none can
end behind it. -/
theorem HasFormula.quoteLine_eq_self_iff {line before formula after : Text}
    (h : HasFormula line before formula after) :
    quoteLine line = line ↔ ¬ OpensScalar before ∨ ¬ ClosesLine after := by
  rw [h.quoteLine_eq, ← startsScalar_iff, ← endsScalar_iff, ← not_and_or]
  by_cases hscalar : startsScalar before = true ∧ endsScalar after = true
  · rw [if_pos hscalar]
    refine iff_of_false ?_ (not_not_intro hscalar)
    intro heq
    rw [h.parts, List.append_assoc, List.append_assoc] at heq
    -- The quote would have to be the dollar sign of the formula.
    have hquote := congrArg List.head? (List.append_cancel_left heq)
    cases hquote
  · rw [if_neg hscalar]
    exact iff_of_true rfl hscalar

/-- The value of a line stays as it was written exactly if the text before its formula holds more than
blanks and does not end in a colon or a dash, or if something other than white space and a comment stands
behind the formula. It plays no part on which line of which source the value stands. -/
theorem quoteFormulas_keeps_value_iff {source lead before formula after : Text} {i : Nat}
    (hlead : IsLead lead)
    (hline : (lines source)[i]? = some (lead ++ before ++ embedded formula ++ after))
    (hfirst : IsUnmarkedText (lead ++ before)) (hclosed : BracedText formula) :
    (lines (quoteFormulas source))[i]? = some (lead ++ before ++ embedded formula ++ after) ↔
      ¬ OpensScalar before ∨ ¬ ClosesLine after := by
  have hformula : HasFormula (lead ++ before ++ embedded formula ++ after) (lead ++ before) formula after :=
    ⟨rfl, hfirst, hclosed⟩
  rw [lines_quoteFormulas, List.getElem?_map, hline, Option.map_some, Option.some.injEq,
    hformula.quoteLine_eq_self_iff, hlead.opensScalar_append]

/-- A value with a formula in the middle. -/
def partlyPaid : Text := text "expression: paid $\x7blet(\x7bn: x\x7d, n * 2)\x7d of 3 # in all"

theorem partlyPaid_kept :
    (lines (text "input: [x]\n" ++ partlyPaid))[1]? = some partlyPaid ∧
      ¬ OpensScalar (text "paid ") ∧ ¬ ClosesLine (text " of 3 # in all") ∧
      (lines (quoteFormulas (text "input: [x]\n" ++ partlyPaid)))[1]? = some partlyPaid := by
  have hlead : IsLead (text "expression: ") := .entry (text "expression")
  have hclosed : BracedText (text "let(\x7bn: x\x7d, n * 2)") := by
    cases hparse : Formula.parse (text "let(\x7bn: x\x7d, n * 2)") with
    | ok e => exact (Formula.parse_nestedText hparse).braced
    | error fault =>
      have hread : (Formula.parse (text "let(\x7bn: x\x7d, n * 2)")).isOk = true := by decide +kernel
      rw [hparse] at hread
      cases hread
  have hopens : ¬ OpensScalar (text "paid ") := by
    rw [← startsScalar_iff]
    decide
  have hcloses : ¬ ClosesLine (text " of 3 # in all") := by
    rw [← endsScalar_iff]
    decide
  have hline : (lines (text "input: [x]\n" ++ partlyPaid))[1]? = some partlyPaid := rfl
  have hfirst : IsUnmarkedText (text "expression: " ++ text "paid ") := rfl
  have hiff : _ ↔ _ ∨ ¬ ClosesLine (text " of 3 # in all") :=
    quoteFormulas_keeps_value_iff hlead hline hfirst hclosed
  exact ⟨hline, hopens, hcloses, hiff.mpr (.inl hopens)⟩

/-- The strings that the expression of a definition joins. -/
def joinedStrings (definition : Definition) : List Text :=
  match definition.body with
  | .expression (.operator _ operands) => operands.filterMap fun
    | .literal (.string s) => some s
    | _ => none
  | _ => []

/-- A text that ends in a dash, a number sign without a blank before it, and a line of a block scalar:
the formula is quoted, and the quotes end up in the text, or what follows the formula is lost. -/
theorem partial_scalars_quoted :
    quoteFormulas (text "expression: total-$\x7bx\x7d") = text "expression: total-'$\x7bx\x7d'" ∧
      (parse (text "expression: total-$\x7bx\x7d")).toOption.map joinedStrings =
        some [text "total-'", text "'"] ∧
      quoteFormulas (text "expression: $\x7bx\x7d#tag") = text "expression: '$\x7bx\x7d'#tag" ∧
      (parse (text "expression: $\x7bx\x7d#tag")).toOption.map joinedStrings = some [] ∧
      quoteFormulas (text "expression: |\n  $\x7bx\x7d\n") = text "expression: |\n  '$\x7bx\x7d'\n" ∧
      (parse (text "expression: |\n  $\x7bx\x7d\n")).toOption.map joinedStrings =
        some [text "'", text "'\n"] := by
  refine ⟨by decide, ?_, by decide, ?_, by decide, ?_⟩
  all_goals decide +kernel

end ScopedAggregation.Definition
