import ScopedAggregation.Proofs.TemplateParts

namespace ScopedAggregation.Formula

open Text (IsBlank)

/-- The texts around a formula, joined with the tree of the formula. -/
def joinedTree (before : Text) (e : Expr) (after : Text) : Expr :=
  .operator (text "$concat") (textOperand before ++ e :: textOperand after)

theorem joinedTree_ne (before : Text) (e : Expr) (after : Text) : joinedTree before e after ≠ e := by
  intro heq
  have hmem : e ∈ textOperand before ++ e :: textOperand after := by simp
  have hlt := List.sizeOf_lt_of_mem hmem
  have hsize := congrArg sizeOf heq
  rw [joinedTree, Expr.operator.sizeOf_spec] at hsize
  omega

section

variable {s : Text} {e : Expr} {before after : Text}

theorem isBalanced_parse (h : parse s = .ok e) : isBalanced s = true := by
  have hbalanced := (parse_nestedText h).balanced 0 []
  rwa [List.append_nil] at hbalanced

theorem lone?_surrounded (h : parse s = .ok e) (hbefore : IsBlank before) (hafter : IsBlank after) :
    lone? (before ++ embedded s ++ after) = if Text.includes opening s then none else some s := by
  have htrim : Text.trim (before ++ embedded s ++ after) = embedded s := by
    rw [Text.trim_surrounded hbefore hafter, trim_embedded]
  have hrest : Text.after? opening (embedded s) = some (s ++ [Ascii.closeBrace]) := rfl
  unfold lone?
  simp only [htrim, hrest, List.getLast?_concat, if_true, List.dropLast_concat, isBalanced_parse h,
    Bool.true_and]
  cases Text.includes opening s with
  | true => rfl
  | false => rfl

/-- White space is text without a formula in it. -/
theorem isTemplate_surrounded (h : parse s = .ok e) (hbefore : IsBlank before)
    (hafter : IsBlank after) : IsTemplate before [⟨s, e, after⟩] := by
  have hmark := isUnmarkedText_of_notMem (blank_marks hbefore).1
  have hmark' := isUnmarkedText_of_notMem (blank_marks hafter).1
  exact ⟨hmark, List.forall_mem_singleton.mpr hmark', List.forall_mem_singleton.mpr h⟩

theorem templateTree_surrounded (hgiven : ¬ (before = [] ∧ after = [])) :
    templateTree before [⟨s, e, after⟩] = joinedTree before e after := by
  have hoperands : templateOperands before [⟨s, e, after⟩] =
      textOperand before ++ e :: textOperand after := by
    simp [templateOperands]
  cases before with
  | cons b before => rw [joinedTree, ← hoperands, templateTree]; simp
  | nil =>
    cases after with
    | nil => exact absurd ⟨rfl, rfl⟩ hgiven
    | cons b after => rw [joinedTree, ← hoperands, templateTree]; simp

theorem includes_surrounded (h : parse s = .ok e) (hbefore : IsBlank before)
    (hafter : IsBlank after) : Text.includes opening (before ++ embedded s ++ after) = true := by
  have hcut := cut?_text (isTemplate_surrounded h hbefore hafter).first
    (s ++ Ascii.closeBrace :: after)
  have htext : before ++ embedded s ++ after = before ++ opening ++ (s ++ Ascii.closeBrace :: after) := by
    simp [embedded]
  rw [Text.includes, htext, hcut]
  rfl

theorem parseTemplate_unmarked_formula (h : parse s = .ok e) (hbefore : IsBlank before)
    (hafter : IsBlank after) (unmarked : IsUnmarkedText s) :
    parseTemplate (before ++ embedded s ++ after) = .ok (some e) := by
  have hlone := lone?_surrounded h hbefore hafter
  rw [unmarked] at hlone
  unfold parseTemplate
  rw [if_pos (includes_surrounded h hbefore hafter), hlone]
  simp only [Bool.false_eq_true, if_false, h]
  rfl

theorem parseTemplate_marked_formula (h : parse s = .ok e) (hbefore : IsBlank before)
    (hafter : IsBlank after) (marked : ¬ IsUnmarkedText s) (hgiven : ¬ (before = [] ∧ after = [])) :
    parseTemplate (before ++ embedded s ++ after) = .ok (some (joinedTree before e after)) := by
  have hlone := lone?_surrounded h hbefore hafter
  rw [if_pos (by simpa [IsUnmarkedText] using marked)] at hlone
  have htext : before ++ embedded s ++ after = templateText before [⟨s, e, after⟩] := by
    simp [templateText]
  have hlength := length_le_templateText before [⟨s, e, after⟩]
  have hparts := parts_template (isTemplate_surrounded h hbefore hafter) (Nat.lt_succ_of_le hlength)
  unfold parseTemplate
  rw [if_pos (includes_surrounded h hbefore hafter), hlone, htext]
  simp only [hparts, Except.map]
  rw [joined_templateOperands (List.cons_ne_nil _ _), templateTree_surrounded hgiven]

end

/-- When white space around a formula changes nothing: exactly if no mark stands in the formula, or if
there is no white space. Otherwise the formula is joined to the white space. -/
theorem parseTemplate_surrounded_iff {s : Text} {e : Expr} (h : parse s = .ok e) {before after : Text}
    (hbefore : IsBlank before) (hafter : IsBlank after) :
    (parseTemplate (before ++ embedded s ++ after) = .ok (some e) ↔
      IsUnmarkedText s ∨ before = [] ∧ after = []) ∧
    (¬ (IsUnmarkedText s ∨ before = [] ∧ after = []) →
      parseTemplate (before ++ embedded s ++ after) = .ok (some (joinedTree before e after))) := by
  have hjoined : ¬ (IsUnmarkedText s ∨ before = [] ∧ after = []) →
      parseTemplate (before ++ embedded s ++ after) = .ok (some (joinedTree before e after)) := by
    intro hneither
    obtain ⟨marked, hgiven⟩ := not_or.mp hneither
    exact parseTemplate_marked_formula h hbefore hafter marked hgiven
  refine ⟨⟨?_, ?_⟩, hjoined⟩
  · intro hread
    by_contra hneither
    rw [hjoined hneither] at hread
    exact joinedTree_ne before e after (Option.some.inj (Except.ok.inj hread))
  · rintro (unmarked | ⟨rfl, rfl⟩)
    · exact parseTemplate_unmarked_formula h hbefore hafter unmarked
    · rw [List.nil_append, List.append_nil]
      exact parseTemplate_embedded h

/-- A comparison between a no-break space and a line break. -/
def spacedComparison : Text := text "size(tags) > 2"

def spacedComparisonTree : Expr :=
  .operator (text "$gt") [.operator (text "$size") [.field (text "tags")], .literal (.int 2)]

theorem spacedComparison_alone :
    parse spacedComparison = .ok spacedComparisonTree ∧ IsUnmarkedText spacedComparison ∧
      parseTemplate ([0xc2, 0xa0] ++ embedded spacedComparison ++ [Ascii.carriageReturn, Ascii.newline]) =
        .ok (some spacedComparisonTree) := by
  have hbefore : IsBlank [0xc2, 0xa0] := ⟨[.char (Char.ofNat 0xa0)], by decide, rfl⟩
  have hafter : IsBlank [Ascii.carriageReturn, Ascii.newline] :=
    ⟨[.char (Char.ofNat 0x0d), .char (Char.ofNat 0x0a)], by decide, rfl⟩
  have unmarked : IsUnmarkedText spacedComparison := rfl
  have hiff := (parseTemplate_surrounded_iff (s := spacedComparison) rfl hbefore hafter).1
  exact ⟨rfl, unmarked, hiff.mpr (.inl unmarked)⟩

/-- A string with the mark in it. -/
def markedString : Text := text "'a$\x7bb'"

def markedStringTree : Expr := .literal (.string (text "a$\x7bb"))

/-- Behind a single space the string is no longer read as itself. -/
theorem markedString_joined :
    parse markedString = .ok markedStringTree ∧ IsBlank [Ascii.space] ∧
      parseTemplate ([Ascii.space] ++ embedded markedString) =
        .ok (some (joinedTree [Ascii.space] markedStringTree [])) ∧
      parseTemplate ([Ascii.space] ++ embedded markedString) ≠ .ok (some markedStringTree) := by
  have hjoined : parseTemplate ([Ascii.space] ++ embedded markedString) =
      .ok (some (joinedTree [Ascii.space] markedStringTree [])) := rfl
  refine ⟨rfl, ⟨[.char ' '], by decide, rfl⟩, hjoined, ?_⟩
  rw [hjoined]
  intro heq
  exact joinedTree_ne _ _ _ (Option.some.inj (Except.ok.inj heq))

end ScopedAggregation.Formula
