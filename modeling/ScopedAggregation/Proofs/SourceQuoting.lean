import ScopedAggregation.Proofs.TemplateParts

namespace ScopedAggregation

namespace Text

theorem splitAt_ne_nil (sep : UInt8) (s : Text) : splitAt sep s ≠ [] := by
  cases s with
  | nil => simp [splitAt]
  | cons b s =>
    rw [splitAt]
    split
    next => simp
    next => split <;> simp

theorem splitAt_append {sep : UInt8} {s : Text} (h : sep ∉ s) (t : Text) :
    splitAt sep (s ++ sep :: t) = s :: splitAt sep t := by
  induction s with
  | nil =>
    obtain ⟨piece, pieces, ht⟩ := List.exists_cons_of_ne_nil (splitAt_ne_nil sep t)
    rw [List.nil_append, splitAt, ht]
    exact if_pos rfl
  | cons b s ih =>
    rw [List.mem_cons, not_or] at h
    rw [List.cons_append, splitAt, ih h.2]
    exact if_neg (Ne.symm h.1)

theorem splitAt_join {sep : UInt8} {pieces : List Text} (given : pieces ≠ [])
    (h : ∀ s ∈ pieces, sep ∉ s) : splitAt sep (join [sep] pieces) = pieces := by
  induction pieces with
  | nil => exact absurd rfl given
  | cons s pieces ih =>
    obtain ⟨hs, hpieces⟩ := List.forall_mem_cons.mp h
    cases pieces with
    | nil => exact splitAt_of_not_mem hs
    | cons t pieces =>
      have hrest := ih (List.cons_ne_nil t pieces) hpieces
      rw [join, List.append_assoc, List.singleton_append, splitAt_append hs, hrest]

theorem notMem_of_splitAt {sep : UInt8} {s piece : Text} (h : piece ∈ splitAt sep s) :
    sep ∉ piece := by
  induction s generalizing piece with
  | nil =>
    cases List.mem_singleton.mp h
    exact List.not_mem_nil
  | cons b s ih =>
    obtain ⟨first, pieces, hs⟩ := List.exists_cons_of_ne_nil (splitAt_ne_nil sep s)
    rw [hs] at ih
    have hfirst : sep ∉ first := ih List.mem_cons_self
    rw [splitAt, hs] at h
    dsimp only at h
    split at h
    next =>
      rcases List.mem_cons.mp h with rfl | h
      · exact List.not_mem_nil
      · exact ih h
    next hb =>
      rcases List.mem_cons.mp h with rfl | h
      · rw [List.mem_cons, not_or]
        exact ⟨Ne.symm hb, hfirst⟩
      · exact ih (List.mem_cons_of_mem first h)

/-- What is dropped from the end, and where it stops. -/
theorem dropEndWhile_eq_iff {p : UInt8 → Bool} {s t : Text} :
    dropEndWhile p s = t ↔ ∃ dropped, s = t ++ dropped ∧ (∀ b ∈ dropped, p b = true) ∧
      ∀ b, t.getLast? = some b → p b = false := by
  constructor
  · rintro rfl
    refine ⟨(s.reverse.takeWhile p).reverse, ?_, ?_, ?_⟩
    · rw [dropEndWhile, ← List.reverse_append, List.takeWhile_append_dropWhile, List.reverse_reverse]
    · intro b hb
      exact List.mem_takeWhile_imp (List.mem_reverse.mp hb)
    · intro b hb
      rw [dropEndWhile, List.getLast?_reverse] at hb
      have hhead := List.head?_dropWhile_not p s.reverse
      rw [hb] at hhead
      simpa using hhead
  · rintro ⟨dropped, rfl, hdropped, hstop⟩
    have hreverse : ∀ b ∈ dropped.reverse, p b = true := fun b hb => hdropped b (List.mem_reverse.mp hb)
    rw [dropEndWhile, List.reverse_append, List.dropWhile_append_of_pos hreverse]
    rcases List.eq_nil_or_concat t with rfl | ⟨t, b, rfl⟩
    · rfl
    · have hb := hstop b (by simp)
      simp [hb]

theorem notMem_replaceByte {b old : UInt8} {new s : Text} (hs : b ∉ s) (hnew : b ∉ new) :
    b ∉ replaceByte old new s := by
  intro h
  obtain ⟨c, hc, hb⟩ := List.mem_flatMap.mp h
  split at hb
  · exact hnew hb
  · rw [List.mem_singleton.mp hb] at hs
    exact hs hc

/-- The text between single quotes, with every doubled quote read as one; a quote alone would end it. -/
def undoubled? : Text → Option Text
  | [] => some []
  | 0x27 :: 0x27 :: rest => (undoubled? rest).map (Ascii.singleQuote :: ·)
  | b :: rest => if b = Ascii.singleQuote then none else (undoubled? rest).map (b :: ·)

theorem replaceByte_cons (old b : UInt8) (new s : Text) :
    replaceByte old new (b :: s) = (if b = old then new else [b]) ++ replaceByte old new s := rfl

theorem undoubled?_doubled (s : Text) :
    undoubled? (replaceByte Ascii.singleQuote [Ascii.singleQuote, Ascii.singleQuote] s) = some s := by
  induction s with
  | nil => rfl
  | cons b s ih =>
    rw [replaceByte_cons]
    by_cases hb : b = Ascii.singleQuote
    · rw [if_pos hb, hb, List.cons_append, List.singleton_append, undoubled?, ih]
      rfl
    · rw [if_neg hb, List.singleton_append, undoubled?, if_neg hb, ih]
      · rfl
      · intro _ hquote
        exact absurd hquote hb

theorem undoubled?_eq_some {s t : Text} :
    undoubled? t = some s ↔
      t = replaceByte Ascii.singleQuote [Ascii.singleQuote, Ascii.singleQuote] s := by
  constructor
  · intro h
    fun_induction undoubled? t generalizing s with
    | case1 =>
      cases h
      rfl
    | case2 rest ih =>
      obtain ⟨u, hu, rfl⟩ := Option.map_eq_some_iff.mp h
      rw [replaceByte_cons, if_pos rfl, ← ih hu]
      rfl
    | case3 => cases h
    | case4 b rest _ hb ih =>
      obtain ⟨u, hu, rfl⟩ := Option.map_eq_some_iff.mp h
      rw [replaceByte_cons, if_neg hb, ← ih hu]
      rfl
  · rintro rfl
    exact undoubled?_doubled s

end Text

namespace Formula

theorem IsUnmarkedText.cons {b : UInt8} {s : Text} (h : IsUnmarkedText s)
    (hafter : ∀ rest, b :: s ≠ opening ++ rest) : IsUnmarkedText (b :: s) := by
  have hnone : Text.after? opening (b :: s) = none := by
    cases hcut : Text.after? opening (b :: s) with
    | none => rfl
    | some rest => exact absurd (Text.after?_eq_some.mp hcut) (hafter rest)
  unfold IsUnmarkedText Text.includes
  rw [Text.cut?, hnone]
  simpa [IsUnmarkedText, Text.includes] using h

theorem IsUnmarkedText.concat {s : Text} (h : IsUnmarkedText s) {b : UInt8}
    (hb : b ≠ Ascii.openBrace) : IsUnmarkedText (s ++ [b]) := by
  induction s with
  | nil =>
    refine IsUnmarkedText.cons rfl ?_
    intro rest heq
    cases heq
  | cons c s ih =>
    refine IsUnmarkedText.cons (ih h.tail) ?_
    intro rest heq
    cases s with
    | nil =>
      cases heq
      exact hb rfl
    | cons d s =>
      cases heq
      cases h

/-- The first mark of a text has no other one before it. -/
theorem cut?_opening {s before rest : Text} (h : Text.cut? opening s = some (before, rest)) :
    s = before ++ opening ++ rest ∧ IsUnmarkedText before := by
  induction s generalizing before with
  | nil => cases h
  | cons b s ih =>
    rw [Text.cut?] at h
    split at h
    next hafter =>
      cases h
      exact ⟨Text.after?_eq_some.mp hafter, rfl⟩
    next hafter =>
      obtain ⟨⟨t, r⟩, ht, heq⟩ := Option.map_eq_some_iff.mp h
      cases heq
      obtain ⟨rfl, hunmarked⟩ := ih ht
      refine ⟨rfl, hunmarked.cons ?_⟩
      intro more hmore
      have hearlier : Text.after? opening (b :: (t ++ opening ++ rest)) =
          some (more ++ opening ++ rest) := by
        rw [Text.after?_eq_some, ← List.append_assoc, ← List.append_assoc, ← hmore]
        rfl
      rw [hearlier] at hafter
      cases hafter

end Formula

namespace Definition

open Formula (embedded IsUnmarkedText BracedText)

/-- The lines of a source. -/
def lines (source : Text) : List Text := Text.splitAt Ascii.newline source

/-- The first formula of a line, with what stands before and behind it. Its end is the brace that
closes it. -/
structure HasFormula (line before formula after : Text) : Prop where
  parts : line = before ++ embedded formula ++ after
  first : IsUnmarkedText before
  closed : BracedText formula

/-- A scalar can begin behind the text: nothing but spaces and tabs lie between it and the start of the
line, or a colon or a dash. -/
def OpensScalar (before : Text) : Prop :=
  ∃ sign blanks, before = sign ++ blanks ∧ (∀ b ∈ blanks, Text.isSpaceOrTab b = true) ∧
    (sign = [] ∨ sign.getLast? = some Ascii.colon ∨ sign.getLast? = some Ascii.minus)

/-- Nothing but white space stands in the text, or a comment behind it. -/
def ClosesLine (after : Text) : Prop :=
  ∃ blank comment, after = blank ++ comment ∧ Text.IsBlank blank ∧
    (comment = [] ∨ comment.head? = some Ascii.hash)

theorem startsScalar_iff {before : Text} : startsScalar before = true ↔ OpensScalar before := by
  have hsign : ∀ b, b = Ascii.colon ∨ b = Ascii.minus → Text.isSpaceOrTab b = false := by
    rintro b (rfl | rfl) <;> decide
  unfold startsScalar OpensScalar
  simp only [Bool.or_eq_true, List.isEmpty_iff, decide_eq_true_eq, or_assoc]
  constructor
  · intro h
    obtain ⟨blanks, heq, hblanks, -⟩ :=
      (@Text.dropEndWhile_eq_iff Text.isSpaceOrTab before _).mp rfl
    exact ⟨_, blanks, heq, hblanks, h⟩
  · rintro ⟨sign, blanks, rfl, hblanks, h⟩
    have hstop : ∀ b, sign.getLast? = some b → Text.isSpaceOrTab b = false := by
      intro b hb
      rw [hb] at h
      rcases h with rfl | h | h
      · cases hb
      · exact hsign b (.inl (Option.some.inj h))
      · exact hsign b (.inr (Option.some.inj h))
    rw [Text.dropEndWhile_eq_iff.mpr ⟨blanks, rfl, hblanks, hstop⟩]
    exact h

theorem endsScalar_iff {after : Text} : endsScalar after = true ↔ ClosesLine after := by
  unfold endsScalar ClosesLine
  simp only [Bool.or_eq_true, List.isEmpty_iff, decide_eq_true_eq]
  constructor
  · intro h
    obtain ⟨blank, rest, heq, hblank, hrest⟩ := Text.trim_infix after
    rcases h with h | h
    · rw [h, List.append_nil] at heq
      exact ⟨blank ++ rest, [], by rw [List.append_nil]; exact heq, hblank.append hrest, .inl rfl⟩
    · refine ⟨blank, Text.trim after ++ rest, by rw [← List.append_assoc]; exact heq, hblank, .inr ?_⟩
      rw [List.head?_append, h]
      rfl
  · rintro ⟨blank, comment, rfl, hblank, hcomment⟩
    have htrim := Text.trim_surrounded hblank Text.isBlank_nil comment
    rw [List.append_nil] at htrim
    rw [htrim]
    rcases hcomment with rfl | hcomment
    · exact .inl rfl
    · obtain ⟨rest, rfl⟩ := List.head?_eq_some_iff.mp hcomment
      have hink : Text.isBlankByte Ascii.hash = false := by decide
      obtain ⟨t, -, htrimmed, -⟩ := Text.trim_cons (by decide) hink rest
      exact .inr (by rw [htrimmed]; rfl)

section

variable {line before formula after : Text}

theorem HasFormula.quoteLine_eq (h : HasFormula line before formula after) :
    quoteLine line =
      if startsScalar before = true ∧ endsScalar after = true then
        before ++ singleQuoted (embedded formula) ++ after
      else line := by
  have hcut := Formula.cut?_text h.first (formula ++ Ascii.closeBrace :: after)
  have hline : before ++ Formula.opening ++ (formula ++ Ascii.closeBrace :: after) = line := by
    rw [h.parts]
    simp [embedded]
  rw [hline] at hcut
  have hsplit := Formula.splitBraces?_braced h.closed after
  unfold quoteLine
  simp only [hcut, hsplit]
  cases startsScalar before with
  | false => simp
  | true =>
    cases endsScalar after with
    | false => simp
    | true => simp [embedded]

theorem exists_hasFormula (h : quoteLine line ≠ line) :
    ∃ before formula after, HasFormula line before formula after := by
  unfold quoteLine at h
  split at h
  next => exact absurd rfl h
  next before rest hcut =>
    obtain ⟨rfl, hfirst⟩ := Formula.cut?_opening hcut
    split at h
    next =>
      split at h
      next => exact absurd rfl h
      next inner after hsplit =>
        obtain ⟨formula, hclosed, -, rfl⟩ := Formula.splitBraces?_eq_some.mp hsplit
        exact ⟨before, formula, after, by simp [embedded], hfirst, hclosed⟩
    next => exact absurd rfl h

end

/-- The line has its first formula put into quotes. Between them each quote of the formula is written
twice. -/
def Quotes (line out : Text) : Prop :=
  ∃ before formula after content, HasFormula line before formula after ∧ OpensScalar before ∧
    ClosesLine after ∧
    out = before ++ [Ascii.singleQuote] ++ content ++ [Ascii.singleQuote] ++ after ∧
    Text.undoubled? content = some (embedded formula)

section

variable {line out : Text}

theorem quotes_quoteLine (h : quoteLine line ≠ line) : Quotes line (quoteLine line) := by
  obtain ⟨before, formula, after, hformula⟩ := exists_hasFormula h
  have heq := hformula.quoteLine_eq
  split at heq
  next hscalar =>
    refine ⟨before, formula, after, _, hformula, startsScalar_iff.mp hscalar.1,
      endsScalar_iff.mp hscalar.2, ?_, Text.undoubled?_doubled _⟩
    rw [heq, singleQuoted]
    simp only [List.append_assoc]
  next => exact absurd heq h

theorem Quotes.eq_quoteLine (h : Quotes line out) : out = quoteLine line := by
  obtain ⟨before, formula, after, content, hformula, hopens, hcloses, rfl, hcontent⟩ := h
  have hscalar := And.intro (startsScalar_iff.mpr hopens) (endsScalar_iff.mpr hcloses)
  rw [hformula.quoteLine_eq, if_pos hscalar, singleQuoted, Text.undoubled?_eq_some.mp hcontent]
  simp only [List.append_assoc]

/-- No scalar begins behind a quote. -/
theorem not_startsScalar_quote (before : Text) :
    startsScalar (before ++ [Ascii.singleQuote]) = false := by
  have hstop : Text.dropEndWhile Text.isSpaceOrTab (before ++ [Ascii.singleQuote]) =
      before ++ [Ascii.singleQuote] := by
    rw [Text.dropEndWhile_eq_iff]
    refine ⟨[], (List.append_nil _).symm, by simp, ?_⟩
    intro b hb
    rw [List.getLast?_concat] at hb
    cases hb
    decide
  unfold startsScalar
  rw [hstop]
  simp [Ascii.singleQuote, Ascii.colon, Ascii.minus]

/-- What is quoted is not quoted again: the quote now stands before the first mark of the line. -/
theorem quoteLine_quoteLine (line : Text) : quoteLine (quoteLine line) = quoteLine line := by
  by_cases h : quoteLine line = line
  · rw [h, h]
  · obtain ⟨before, formula, after, content, hformula, -, -, heq, hcontent⟩ := quotes_quoteLine h
    have hdoubled : content = Formula.opening ++
        Text.replaceByte Ascii.singleQuote [Ascii.singleQuote, Ascii.singleQuote]
          (formula ++ [Ascii.closeBrace]) := Text.undoubled?_eq_some.mp hcontent
    obtain ⟨rest, rfl⟩ : ∃ rest, content = Formula.opening ++ rest := ⟨_, hdoubled⟩
    have hunmarked := hformula.first.concat (show Ascii.singleQuote ≠ Ascii.openBrace by decide)
    have hcut := Formula.cut?_text hunmarked (rest ++ [Ascii.singleQuote] ++ after)
    have hmark : quoteLine line = before ++ [Ascii.singleQuote] ++ Formula.opening ++
        (rest ++ [Ascii.singleQuote] ++ after) := by
      rw [heq]
      simp only [List.append_assoc]
    rw [← hmark] at hcut
    rw [quoteLine, hcut]
    simp [not_startsScalar_quote]

theorem newline_notMem_quoteLine (h : Ascii.newline ∉ line) : Ascii.newline ∉ quoteLine line := by
  by_cases hkept : quoteLine line = line
  · rwa [hkept]
  · obtain ⟨before, formula, after, content, hformula, -, -, heq, hcontent⟩ := quotes_quoteLine hkept
    rw [hformula.parts] at h
    simp only [List.mem_append, not_or] at h
    obtain ⟨⟨hbefore, hembedded⟩, hafter⟩ := h
    have hinside : Ascii.newline ∉ content := by
      rw [Text.undoubled?_eq_some.mp hcontent]
      exact Text.notMem_replaceByte hembedded (by decide)
    have hquote : Ascii.newline ∉ [Ascii.singleQuote] := by decide
    rw [heq]
    simp only [List.mem_append, not_or]
    exact ⟨⟨⟨⟨hbefore, hquote⟩, hinside⟩, hquote⟩, hafter⟩

end

theorem lines_quoteFormulas (source : Text) :
    lines (quoteFormulas source) = (lines source).map quoteLine := by
  refine Text.splitAt_join ?_ ?_
  · intro h
    exact Text.splitAt_ne_nil _ source (List.map_eq_nil_iff.mp h)
  · intro out hout
    obtain ⟨line, hline, rfl⟩ := List.mem_map.mp hout
    exact newline_notMem_quoteLine (Text.notMem_of_splitAt hline)

/-- Quoting keeps the lines of a source one for one, quotes a formula wherever a line has one to be
quoted, and leaves all other lines and what is quoted already. -/
theorem quoteFormulas_adds_quotes (source : Text) :
    (lines (quoteFormulas source)).length = (lines source).length ∧
      List.Forall₂ (fun line out => Quotes line out ∨ out = line ∧ ∀ other, ¬Quotes line other)
        (lines source) (lines (quoteFormulas source)) ∧
      quoteFormulas (quoteFormulas source) = quoteFormulas source := by
  have hlines := lines_quoteFormulas source
  refine ⟨?_, ?_, ?_⟩
  · rw [hlines, List.length_map]
  · rw [hlines, List.forall₂_map_right_iff, List.forall₂_same]
    intro line _
    by_cases h : ∃ other, Quotes line other
    · obtain ⟨other, hother⟩ := h
      rw [← hother.eq_quoteLine]
      exact .inl hother
    · refine .inr ⟨?_, fun other hother => h ⟨other, hother⟩⟩
      by_contra hchanged
      exact h ⟨_, quotes_quoteLine hchanged⟩
  · have hagain : (lines (quoteFormulas source)).map quoteLine = lines (quoteFormulas source) := by
      rw [hlines, List.map_map]
      exact List.map_congr_left fun line _ => quoteLine_quoteLine line
    unfold quoteFormulas at hagain ⊢
    exact congrArg (Text.join [Ascii.newline]) (hagain.trans hlines)

end Definition

end ScopedAggregation
