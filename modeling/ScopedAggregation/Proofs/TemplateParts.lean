import ScopedAggregation.Proofs.EmbeddedFormula

namespace ScopedAggregation

namespace Text

theorem after?_eq_some {needle s rest : Text} : after? needle s = some rest ↔ s = needle ++ rest := by
  induction needle generalizing s with
  | nil => simp [after?]
  | cons a needle ih =>
    cases s with
    | nil => simp [after?]
    | cons b s =>
      rw [after?, List.cons_append, List.cons.injEq]
      by_cases hab : a = b
      · rw [if_pos hab, ih]
        simp [hab]
      · rw [if_neg hab]
        simp [Ne.symm hab]

end Text

namespace Formula

/-- A text in which no formula begins. -/
def IsUnmarkedText (s : Text) : Prop := Text.includes opening s = false

theorem after?_opening_text {b : UInt8} {s rest : Text} (h : IsUnmarkedText (b :: s)) :
    Text.after? opening (b :: (s ++ opening ++ rest)) = none := by
  cases hafter : Text.after? opening (b :: (s ++ opening ++ rest)) with
  | none => rfl
  | some r =>
    have heq := Text.after?_eq_some.mp hafter
    cases s with
    | nil => cases heq
    | cons c s =>
      -- The mark would lie in the text itself.
      cases heq
      cases h

theorem IsUnmarkedText.tail {b : UInt8} {s : Text} (h : IsUnmarkedText (b :: s)) :
    IsUnmarkedText s := by
  unfold IsUnmarkedText Text.includes at h
  rw [Text.cut?] at h
  split at h
  next => cases h
  next => simpa [IsUnmarkedText, Text.includes] using h

/-- The first mark is found behind a text without one. -/
theorem cut?_text {s : Text} (h : IsUnmarkedText s) (rest : Text) :
    Text.cut? opening (s ++ opening ++ rest) = some (s, rest) := by
  induction s with
  | nil => rfl
  | cons b s ih =>
    rw [List.cons_append, List.cons_append, Text.cut?, after?_opening_text h]
    dsimp only
    rw [ih h.tail]
    rfl

theorem isUnmarkedText_of_notMem {s : Text} (h : Ascii.dollar ∉ s) : IsUnmarkedText s := by
  induction s with
  | nil => rfl
  | cons b s ih =>
    rw [List.mem_cons, not_or] at h
    have hafter : Text.after? opening (b :: s) = none := if_neg h.1
    unfold IsUnmarkedText Text.includes
    rw [Text.cut?, hafter]
    simpa [IsUnmarkedText, Text.includes] using ih h.2

/-- A formula in a template, with the tree it stands for and the text behind it. -/
structure Piece where
  source : Text
  tree : Expr
  after : Text

/-- The text of a template. -/
def templateText (first : Text) (pieces : List Piece) : Text :=
  first ++ pieces.flatMap fun p => embedded p.source ++ p.after

theorem templateText_cons (first : Text) (p : Piece) (pieces : List Piece) :
    templateText first (p :: pieces) =
      first ++ opening ++ (p.source ++ Ascii.closeBrace :: templateText p.after pieces) := by
  simp [templateText, embedded]

/-- A text between formulas as an operand; there is none for an empty one. -/
def textOperand (s : Text) : List Expr := if s = [] then [] else [.literal (.string s)]

/-- The operands of a template: its texts and the trees of its formulas, in order. -/
def templateOperands (first : Text) (pieces : List Piece) : List Expr :=
  textOperand first ++ pieces.flatMap fun p => p.tree :: textOperand p.after

/-- The tree of a template: that of a formula that stands alone, or else all operands joined. -/
def templateTree (first : Text) (pieces : List Piece) : Expr :=
  match first, pieces with
  | [], [⟨_, tree, []⟩] => tree
  | first, pieces => .operator (text "$concat") (templateOperands first pieces)

/-- The texts of a template hold no mark, and its formulas are read as their trees. -/
structure IsTemplate (first : Text) (pieces : List Piece) : Prop where
  first : IsUnmarkedText first
  texts : ∀ p ∈ pieces, IsUnmarkedText p.after
  formulas : ∀ p ∈ pieces, parse p.source = .ok p.tree

theorem IsTemplate.cons {first : Text} {p : Piece} {pieces : List Piece}
    (h : IsTemplate first (p :: pieces)) : IsTemplate p.after pieces where
  first := h.texts p (by simp)
  texts := fun q hq => h.texts q (by simp [hq])
  formulas := fun q hq => h.formulas q (by simp [hq])

theorem parts_text {s : Text} (h : IsUnmarkedText s) {n : Nat} (hn : 0 < n) :
    parts n s = .ok (textOperand s) := by
  obtain ⟨m, rfl⟩ : ∃ m, n = m + 1 := ⟨n - 1, by omega⟩
  cases s with
  | nil => rfl
  | cons b s =>
    have hcut : Text.cut? opening (b :: s) = none := by
      simpa [IsUnmarkedText, Text.includes] using h
    simp only [parts, hcut]
    rfl

/-- The parts of a template are its operands. -/
theorem parts_template {first : Text} {pieces : List Piece} (h : IsTemplate first pieces) {n : Nat}
    (hn : pieces.length < n) :
    parts n (templateText first pieces) = .ok (templateOperands first pieces) := by
  induction pieces generalizing first n with
  | nil => simpa [templateText, templateOperands] using parts_text h.first hn
  | cons p pieces ih =>
    obtain ⟨m, rfl⟩ : ∃ m, n = m + 1 := ⟨n - 1, by omega⟩
    have hread := h.formulas p (by simp)
    have hcut := cut?_text h.first (p.source ++ Ascii.closeBrace :: templateText p.after pieces)
    have hsplit := splitFormula?_parse hread (templateText p.after pieces)
    have hrest := ih h.cons (n := m) (by simpa using hn)
    rw [← templateText_cons] at hcut
    have hgiven : templateText first (p :: pieces) ≠ [] := by simp [templateText_cons, opening]
    rw [parts, hcut]
    · simp only [hsplit, hread, hrest, ok_bind]
      by_cases hfirst : first = []
      · simp [hfirst, templateOperands, textOperand, pure, Except.pure]
      · simp [hfirst, templateOperands, textOperand, pure, Except.pure]
    · exact hgiven

theorem balancedFrom_quiet {b : UInt8} (h : isPlain b = true) (d : Nat) (rest : Text) :
    balancedFrom d none (b :: rest) = balancedFrom d none rest := by
  simp only [isPlain, Bool.and_eq_true, Bool.not_eq_true'] at h
  cases d <;> simp [balancedFrom, h]

theorem balancedFrom_quote {b : UInt8} (h : isQuote b = true) (d : Nat) (rest : Text) :
    balancedFrom d none (b :: rest) = balancedFrom d (some b) rest := by
  cases d <;> rw [balancedFrom, if_pos h]

theorem balancedFrom_opening {b : UInt8} (hquote : isQuote b = false) (h : isOpening b = true)
    (d : Nat) (rest : Text) :
    balancedFrom d none (b :: rest) = balancedFrom (d + 1) none rest := by
  cases d <;> rw [balancedFrom, if_neg (by simp [hquote]), if_pos h]

/-- A closing bracket closes the bracket opened last, of whatever kind that is. -/
theorem balancedFrom_closing {b : UInt8} (hquote : isQuote b = false) (hopen : isOpening b = false)
    (h : isClosing b = true) (d : Nat) (rest : Text) :
    balancedFrom (d + 1) none (b :: rest) = balancedFrom d none rest := by
  rw [balancedFrom, if_neg (by simp [hquote]), if_neg (by simp [hopen]), if_pos h]

theorem balancedFrom_knowsStrings (d : Nat) :
    KnowsStrings (fun _ r => r) (balancedFrom d) := by
  refine ⟨fun _ _ _ => rfl, ?_, ?_⟩
  · intro q b rest
    rw [balancedFrom]
  · intro q b rest hb
    rw [balancedFrom]
    intro _ _ hc
    exact absurd hc hb

/-- Nested text is balanced, so that only what follows it counts. -/
theorem NestedText.balanced {s : Text} (h : NestedText s) (d : Nat) (rest : Text) :
    balancedFrom d none (s ++ rest) = balancedFrom d none rest := by
  induction h generalizing d rest with
  | nil => rfl
  | plain hb => exact balancedFrom_quiet hb d rest
  | @string q _ _ _ hq hread =>
    have hstring := (balancedFrom_knowsStrings d).scan_string hq hread rest
    rw [List.cons_append, balancedFrom_quote hq, hstring]
  | append _ _ ihs iht => rw [List.append_assoc, ihs, iht]
  | @bracketed o c s hoc _ ih =>
    have hbrackets : isQuote o = false ∧ isOpening o = true ∧ isQuote c = false ∧
        isOpening c = false ∧ isClosing c = true := by
      unfold closes? at hoc
      split at hoc <;> cases hoc <;> decide
    obtain ⟨hquote, hopen, hquote', hopen', hclose⟩ := hbrackets
    rw [List.cons_append, balancedFrom_opening hquote hopen, List.append_assoc, ih,
      List.cons_append, List.nil_append, balancedFrom_closing hquote' hopen' hclose]

/-- Nothing that goes on behind the brace that closes a formula is balanced. -/
theorem not_isBalanced_behind {s : Text} {e : Expr} (h : parse s = .ok e) (rest : Text) :
    isBalanced (s ++ Ascii.closeBrace :: rest) = false := by
  rw [isBalanced, (parse_nestedText h).balanced]
  rfl

theorem lone?_eq_some {s inner : Text} (h : lone? s = some inner) :
    isBalanced inner = true ∧
      ∃ before after, s = before ++ opening ++ (inner ++ Ascii.closeBrace :: after) ∧
        Text.IsBlank before ∧ Text.IsBlank after := by
  obtain ⟨before, after, hs, hbefore, hafter⟩ := Text.trim_infix s
  unfold lone? at h
  dsimp only at h
  split at h
  next => cases h
  next rest hrest =>
    rw [Text.after?_eq_some] at hrest
    split at h
    next hlast =>
      split at h
      next hinner =>
        cases h
        rw [Bool.and_eq_true] at hinner
        have hclosed : rest = rest.dropLast ++ [Ascii.closeBrace] :=
          (List.dropLast_append_getLast? _ hlast).symm
        refine ⟨hinner.1, before, after, ?_, hbefore, hafter⟩
        calc s = before ++ (opening ++ rest) ++ after := by rw [← hrest]; exact hs
          _ = before ++ (opening ++ (rest.dropLast ++ [Ascii.closeBrace])) ++ after := by
            rw [← hclosed]
          _ = _ := by simp
      next => cases h
    next => cases h

/-- A text that is no more than white space holds neither a mark nor a brace. -/
theorem blank_marks {s : Text} (h : Text.IsBlank s) : Ascii.dollar ∉ s ∧ Ascii.closeBrace ∉ s :=
  ⟨h.notMem (by decide) (by decide), h.notMem (by decide) (by decide)⟩

/-- If a template is taken for a lone formula, it is one, white space aside. -/
theorem lone?_template {first inner : Text} {p : Piece} {pieces : List Piece}
    (h : IsTemplate first (p :: pieces))
    (found : lone? (templateText first (p :: pieces)) = some inner) :
    pieces = [] ∧ inner = p.source ∧ Text.IsBlank first ∧ Text.IsBlank p.after := by
  obtain ⟨hbalanced, before, after, htext, hbefore, hafter⟩ := lone?_eq_some found
  obtain ⟨hmark, -⟩ := blank_marks hbefore
  obtain ⟨hmark', hbrace⟩ := blank_marks hafter
  have hread := h.formulas p (by simp)
  -- Both readings find the first mark at the same place.
  have hcut := cut?_text h.first (p.source ++ Ascii.closeBrace :: templateText p.after pieces)
  have hcut' := cut?_text (isUnmarkedText_of_notMem hmark) (inner ++ Ascii.closeBrace :: after)
  rw [← templateText_cons, htext, hcut', Option.some.injEq, Prod.mk.injEq] at hcut
  obtain ⟨rfl, hrest⟩ := hcut
  have hends : inner = p.source ∧ after = templateText p.after pieces := by
    rcases List.append_eq_append_iff.mp hrest with ⟨mid, hsource, hmid⟩ | ⟨mid, hinner, hmid⟩
    · cases mid with
      | nil =>
        rw [List.append_nil] at hsource
        exact ⟨hsource.symm, by simpa using hmid⟩
      | cons b mid =>
        -- The brace of the formula would stand in white space.
        rw [List.cons_append, List.cons.injEq] at hmid
        exact absurd (by simp [hmid.2]) hbrace
    · cases mid with
      | nil =>
        rw [List.append_nil] at hinner
        exact ⟨hinner, by simpa using hmid.symm⟩
      | cons b mid =>
        rw [List.cons_append, List.cons.injEq] at hmid
        rw [hinner, ← hmid.1, not_isBalanced_behind hread] at hbalanced
        cases hbalanced
  obtain ⟨hinner, hblank⟩ := hends
  cases pieces with
  | nil =>
    have hlast : after = p.after := by simpa [templateText] using hblank
    exact ⟨rfl, hinner, hbefore, hlast ▸ hafter⟩
  | cons q pieces =>
    rw [hblank, templateText_cons] at hmark'
    exact absurd (by simp [opening]) hmark'

theorem length_le_templateText (first : Text) (pieces : List Piece) :
    pieces.length ≤ (templateText first pieces).length := by
  induction pieces generalizing first with
  | nil => exact Nat.zero_le _
  | cons p pieces ih =>
    have hrest := ih p.after
    rw [templateText_cons]
    simp only [List.length_append, List.length_cons, opening] at hrest ⊢
    omega

theorem joined_templateOperands {first : Text} {pieces : List Piece} (h : pieces ≠ []) :
    joined (templateOperands first pieces) = templateTree first pieces := by
  cases pieces with
  | nil => exact absurd rfl h
  | cons p pieces =>
    obtain ⟨source, tree, after⟩ := p
    cases first with
    | cons b first => rfl
    | nil =>
      cases pieces with
      | cons q pieces => cases after <;> rfl
      | nil => cases after <;> rfl

/-- A template is read as its formulas and the texts between them. Only a lone formula with white
space around it is read otherwise. -/
theorem parseTemplate_splits {first : Text} {pieces : List Piece} (h : IsTemplate first pieces)
    (some_formula : pieces ≠ [])
    (not_lone : ∀ p, pieces = [p] → Text.trim first = [] → Text.trim p.after = [] →
      first = [] ∧ p.after = []) :
    parseTemplate (templateText first pieces) = .ok (some (templateTree first pieces)) := by
  obtain ⟨p, pieces, rfl⟩ := List.exists_cons_of_ne_nil some_formula
  have hcut := cut?_text h.first (p.source ++ Ascii.closeBrace :: templateText p.after pieces)
  rw [← templateText_cons] at hcut
  unfold parseTemplate
  rw [if_pos (by simp [Text.includes, hcut])]
  cases hlone : lone? (templateText first (p :: pieces)) with
  | some inner =>
    obtain ⟨rfl, rfl, hfirst, hafter⟩ := lone?_template h hlone
    obtain ⟨hempty, hempty'⟩ := not_lone p rfl hfirst.trim_eq_nil hafter.trim_eq_nil
    have hread := h.formulas p (by simp)
    obtain ⟨source, tree, after⟩ := p
    subst hempty hempty'
    simp only [hread]
    rfl
  | none =>
    have hlength := length_le_templateText first (p :: pieces)
    simp only [parts_template h (Nat.lt_succ_of_le hlength), Except.map,
      joined_templateOperands some_formula]

/-- Two formulas, one with brackets, quotes and a mark in its strings, and texts with quotes, braces
and a lone dollar. -/
def markedPieces : List Piece :=
  [⟨text "concat('$\x7b(\x7d', \"it's\", x)",
      .operator (text "$concat") [.literal (.string (text "$\x7b(\x7d")),
        .literal (.string (text "it's")), .field (text "x")],
      text " 'costs\x7d $"⟩,
    ⟨text "\x7ba: [y]\x7d", .object [(text "a", .array [.field (text "y")])], []⟩]

theorem markedPieces_split :
    IsTemplate (text "\x7b\"") markedPieces ∧
      parseTemplate (templateText (text "\x7b\"") markedPieces) =
        .ok (some (templateTree (text "\x7b\"") markedPieces)) := by
  have htemplate : IsTemplate (text "\x7b\"") markedPieces := by
    refine ⟨rfl, ?_, ?_⟩
    · rw [markedPieces, List.forall_mem_cons, List.forall_mem_singleton]
      exact ⟨rfl, rfl⟩
    · rw [markedPieces, List.forall_mem_cons, List.forall_mem_singleton]
      exact ⟨rfl, rfl⟩
  exact ⟨htemplate, parseTemplate_splits htemplate (by simp [markedPieces]) (by simp [markedPieces])⟩

end Formula
end ScopedAggregation
