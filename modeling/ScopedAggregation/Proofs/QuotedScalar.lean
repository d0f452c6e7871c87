import ScopedAggregation.Definition.Quoting
import ScopedAggregation.Proofs.DecimalNumerals
import ScopedAggregation.Yaml.Node

namespace ScopedAggregation.Yaml

/-- The characters with every single quote written twice. -/
def doubled (cs : List Char) : List Char :=
  cs.flatMap fun x => if x = apostrophe then [apostrophe, apostrophe] else [x]

theorem doubled_append (cs ds : List Char) : doubled (cs ++ ds) = doubled cs ++ doubled ds :=
  List.flatMap_append

theorem length_le_doubled (cs : List Char) : cs.length ≤ (doubled cs).length := by
  induction cs with
  | nil => simp
  | cons x cs ih =>
    have hx : 1 ≤ (if x = apostrophe then [apostrophe, apostrophe] else [x]).length := by
      split <;> simp
    have hcons : doubled (x :: cs) =
        (if x = apostrophe then [apostrophe, apostrophe] else [x]) ++ doubled cs := rfl
    rw [hcons, List.length_cons, List.length_append]
    omega

theorem doubled_plain {cs : List Char} (h : ∀ x ∈ cs, x ≠ apostrophe) : doubled cs = cs := by
  induction cs with
  | nil => rfl
  | cons x cs ih =>
    obtain ⟨hx, h⟩ := List.forall_mem_cons.mp h
    have hcons : doubled (x :: cs) =
        (if x = apostrophe then [apostrophe, apostrophe] else [x]) ++ doubled cs := rfl
    rw [hcons, if_neg hx, ih h]
    rfl

/-- The cursor stands before the characters, and not at the start of a line. -/
structure Cursor.Before (c : Cursor) (cs : List Char) : Prop where
  rest : c.rest = cs
  inLine : 0 < c.mark.column

theorem Cursor.Before.skipMany {n : Nat} {cs ds : List Char} {c : Cursor} (h : c.Before (cs ++ ds))
    (hn : cs.length = n) : (c.skipMany n).Before ds := by
  induction n generalizing cs c with
  | zero =>
    cases List.eq_nil_of_length_eq_zero hn
    exact h
  | succ n ih =>
    cases cs with
    | nil => cases hn
    | cons x cs =>
      have hskip : c.skip.Before (cs ++ ds) := by
        unfold Cursor.skip
        rw [h.rest]
        exact ⟨rfl, Nat.succ_pos _⟩
      exact ih hskip (Nat.succ.inj hn)

theorem Cursor.Before.skip {x : Char} {cs : List Char} {c : Cursor} (h : c.Before (x :: cs)) :
    c.skip.Before cs :=
  @skipMany 1 [x] cs c h rfl

theorem Cursor.Before.peek {x : Char} {cs : List Char} {c : Cursor} (h : c.Before (x :: cs)) :
    c.peek = some x := by
  rw [Cursor.peek, h.rest]
  rfl

/-- A character that is neither a blank nor a break. -/
def isInk (x : Char) : Bool := !isBlank x && !isBreak x

/-- Where a word of a quoted scalar ends: at the closing quote of the source, or at a blank. -/
inductive EndsWord : List Char → Prop
  | quote : EndsWord [apostrophe]
  | blank {cs : List Char} : EndsWord (' ' :: cs)

theorem readQuotedWord_doubled {word tail : List Char} (ink : ∀ x ∈ word, isInk x = true)
    (ends : EndsWord tail) {n : Nat} (hn : word.length < n) {acc : List Char} {c : Cursor}
    (h : c.Before (doubled word ++ tail)) :
    ∃ c', readQuotedWord true n acc c = some (word.reverse ++ acc, false, c') ∧ c'.Before tail := by
  induction word generalizing n acc c with
  | nil =>
    obtain ⟨n, rfl⟩ : ∃ m, n = m + 1 := ⟨n - 1, by omega⟩
    refine ⟨c, ?_, h⟩
    cases ends with
    | quote =>
      have hpeek : c.peek = some apostrophe := h.peek
      have hnext : c.peekAt 1 = none := by
        rw [Cursor.peekAt, h.rest]
        rfl
      have hink : (isBlank apostrophe || isBreak apostrophe) = false := by decide
      simp [readQuotedWord, hpeek, hnext, hink]
    | blank =>
      have hpeek : c.peek = some ' ' := h.peek
      have hblank : (isBlank ' ' || isBreak ' ') = true := by decide
      simp [readQuotedWord, hpeek, hblank]
  | cons x word ih =>
    obtain ⟨hx, ink⟩ := List.forall_mem_cons.mp ink
    obtain ⟨n, rfl⟩ : ∃ m, n = m + 1 := ⟨n - 1, by simp only [List.length_cons] at hn; omega⟩
    have hn' : word.length < n := by simpa using hn
    have hcons : doubled (x :: word) =
        (if x = apostrophe then [apostrophe, apostrophe] else [x]) ++ doubled word := rfl
    have hgap : (isBlank x || isBreak x) = false := by simpa [isInk] using hx
    by_cases hquote : x = apostrophe
    · rw [hcons, if_pos hquote, List.append_assoc] at h
      have hpeek : c.peek = some apostrophe := h.peek
      have hnext : c.peekAt 1 = some apostrophe := by
        rw [Cursor.peekAt, h.rest]
        rfl
      have hskip : (c.skipMany 2).Before (doubled word ++ tail) := h.skipMany rfl
      obtain ⟨c', hread, hbefore⟩ := @ih ink n hn' (apostrophe :: acc) _ hskip
      refine ⟨c', ?_, hbefore⟩
      rw [hquote] at hgap
      simp [readQuotedWord, hpeek, hnext, hgap, hread, hquote]
    · rw [hcons, if_neg hquote, List.append_assoc] at h
      have hpeek : c.peek = some x := h.peek
      obtain ⟨c', hread, hbefore⟩ := @ih ink n hn' (x :: acc) _ h.skip
      refine ⟨c', ?_, hbefore⟩
      simp [readQuotedWord, hpeek, hgap, hread, hquote]

/-- Blanks inside of a line are kept as they are. -/
theorem readGap_blanks {blanks tail : List Char} (given : blanks ≠ [])
    (hblanks : ∀ x ∈ blanks, isBlank x = true) {y : Char} (ink : isInk y = true) {n : Nat}
    {c : Cursor} (h : c.Before (blanks ++ y :: tail)) :
    ∃ c', readGap none (n + 2) {} c = some ({ blanks := blanks }, c') ∧ c'.Before (y :: tail) := by
  obtain ⟨x, rest, rfl⟩ : ∃ x rest, blanks = x :: rest := List.exists_cons_of_ne_nil given
  have hpeek : c.peek = some x := h.peek
  have hx : isBlank x = true := hblanks x (by simp)
  simp only [isInk, Bool.and_eq_true, Bool.not_eq_true'] at ink
  have hword : c.rest.takeWhile isBlank = x :: rest := by
    rw [h.rest, List.takeWhile_append_of_pos hblanks, List.takeWhile_cons_of_neg (by simp [ink.1])]
    simp
  refine ⟨c.skipMany (x :: rest).length, ?_, h.skipMany rfl⟩
  have hafter : (c.skipMany (x :: rest).length).peek = some y := (h.skipMany rfl).peek
  rw [readGap, hpeek]
  dsimp only
  rw [if_pos hx, if_neg (by simp), hword, readGap, hafter]
  dsimp only
  rw [if_neg (by simp [ink.1]), if_neg (by simp [ink.2])]

theorem Cursor.Before.atDocumentMark {cs : List Char} {c : Cursor} (h : c.Before cs) :
    c.atDocumentMark = false := by
  have hcolumn : c.mark.column ≠ 0 := Nat.ne_of_gt h.inLine
  simp [Cursor.atDocumentMark, hcolumn]

theorem Cursor.Before.isSome_peek {cs : List Char} {x : Char} {c : Cursor}
    (h : c.Before (cs ++ [x])) : c.peek.isNone = false := by
  obtain ⟨y, tail, heq⟩ := List.exists_cons_of_ne_nil
    (List.append_ne_nil_of_right_ne_nil cs (List.cons_ne_nil x []))
  rw [heq] at h
  rw [h.peek]
  rfl

/-- Behind blanks stands a character of the next word, or the closing quote. -/
theorem exists_ink {cs : List Char} (h : ∀ x, cs.head? = some x → isInk x = true) :
    ∃ y tail, doubled cs ++ [apostrophe] = y :: tail ∧ isInk y = true := by
  cases cs with
  | nil => exact ⟨apostrophe, [], rfl, by decide⟩
  | cons x cs =>
    have hcons : doubled (x :: cs) =
        (if x = apostrophe then [apostrophe, apostrophe] else [x]) ++ doubled cs := rfl
    rw [hcons]
    split
    next => exact ⟨apostrophe, _, rfl, by decide⟩
    next => exact ⟨x, _, rfl, h x rfl⟩

/-- A line: words with spaces between them. -/
inductive Line : List Char → Prop
  | last {word : List Char} (ink : ∀ x ∈ word, isInk x = true) : Line word
  | words {word spaces rest : List Char} (ink : ∀ x ∈ word, isInk x = true) (given : spaces ≠ [])
    (blank : ∀ x ∈ spaces, x = ' ') (next : ∀ x, rest.head? = some x → isInk x = true)
    (more : Line rest) : Line (word ++ (spaces ++ rest))

theorem line_of {cs : List Char} (h : ∀ x ∈ cs, x = ' ' ∨ isInk x = true) : Line cs := by
  induction cs with
  | nil => exact .last (by simp)
  | cons x cs ih =>
    obtain ⟨hx, h⟩ := List.forall_mem_cons.mp h
    have line := ih h
    rcases hx with rfl | hx
    · have hspace : ∀ x ∈ [' '], x = ' ' := by simp
      cases line with
      | last ink =>
        exact @Line.words [] [' '] cs (by simp) (by simp) hspace
          (fun y hy => ink y (List.mem_of_head? hy)) (.last ink)
      | @words word spaces rest ink given blank next more =>
        cases word with
        | nil =>
          exact @Line.words [] (' ' :: spaces) rest (by simp) (by simp)
            (List.forall_mem_cons.mpr ⟨rfl, blank⟩) next more
        | cons y word =>
          refine @Line.words [] [' '] _ (by simp) (by simp) hspace ?_
            (.words ink given blank next more)
          intro z hz
          cases Option.some.inj hz
          exact ink y (by simp)
    · cases line with
      | last ink => exact .last (List.forall_mem_cons.mpr ⟨hx, ink⟩)
      | words ink given blank next more =>
        exact .words (List.forall_mem_cons.mpr ⟨hx, ink⟩) given blank next more

/-- A quoted scalar on one line is read back. -/
theorem readQuoted_doubled {cs : List Char} (line : Line cs) {n : Nat} (hn : cs.length + 2 ≤ n)
    {pieces : List (List Char)} {c : Cursor} (h : c.Before (doubled cs ++ [apostrophe])) :
    ∃ c', readQuoted true n pieces c = some (pieces.reverse.flatten ++ cs, c') ∧ c'.Before [] := by
  -- A round reads one word and the spaces behind it.
  induction line generalizing n pieces c with
  | @last word ink =>
    obtain ⟨n, rfl⟩ : ∃ m, n = m + 1 := ⟨n - 1, by omega⟩
    have hpeek := h.isSome_peek
    obtain ⟨c₁, hread, h₁⟩ := @readQuotedWord_doubled word _ ink .quote (n + 1) (by omega) [] c h
    refine ⟨c₁.skip, ?_, h₁.skip⟩
    rw [readQuoted, h.atDocumentMark, hpeek, hread]
    simp [h₁.peek]
  | @words word spaces rest ink given blank next more ih =>
    obtain ⟨space, others, rfl⟩ := List.exists_cons_of_ne_nil given
    cases blank space (by simp)
    simp only [List.length_append, List.length_cons] at hn
    obtain ⟨n, rfl⟩ : ∃ m, n = m + 3 := ⟨n - 3, by omega⟩
    have hpeek := h.isSome_peek
    have hplain : doubled (' ' :: others) = ' ' :: others := by
      refine doubled_plain ?_
      rintro y hy rfl
      exact absurd (blank _ hy) (by decide)
    rw [doubled_append, doubled_append, hplain, List.append_assoc, List.append_assoc] at h
    obtain ⟨c₁, hread, h₁⟩ := @readQuotedWord_doubled word _ ink .blank (n + 3) (by omega) [] c h
    have hspace : c₁.peek = some ' ' := h₁.peek
    have hne : ' ' ≠ apostrophe := by decide
    obtain ⟨y, tail, hy, hink⟩ := exists_ink next
    have hblank : ∀ x ∈ ' ' :: others, isBlank x = true := by
      intro x hx
      rw [blank x hx]
      rfl
    have hgap : c₁.Before (' ' :: others ++ y :: tail) := hy ▸ h₁
    obtain ⟨c₂, hspaces, h₂⟩ := @readGap_blanks _ tail given hblank y hink n c₁ hgap
    obtain ⟨c₃, hrest, h₃⟩ :=
      @ih (n + 2) (by omega) ((' ' :: others) :: word :: pieces) c₂ (hy ▸ h₂)
    refine ⟨c₃, ?_, h₃⟩
    rw [readQuoted, h.atDocumentMark, hpeek, hread]
    simp only [Bool.or_self, Bool.false_eq_true, if_false, if_true, List.append_nil,
      List.reverse_reverse, hspace, Option.some.injEq, hne, hspaces, Gap.folded, hrest]
    simp

/-- The key of the entry. -/
def keyChars : List Char := ['e', 'x', 'p', 'r', 'e', 's', 's', 'i', 'o', 'n']

namespace Scanner

/-- Fetching a token that is neither the end nor a mark at the start of a line. -/
theorem fetch_content {fuel : Nat} {s after : Scanner} {x : Char}
    (skips : s.skipToToken fuel = after)
    (closes : after.closeTo after.cursor.mark.column s.cursor.mark = after)
    (next : after.cursor.peek = some x)
    (directive : (after.cursor.mark.column = 0 && x = '%') = false)
    (mark : after.cursor.atDocumentMark = false) :
    s.fetch fuel false = (after.fetchContent fuel x).map skipLineComment := by
  simp [fetch, skips, closes, next, directive, mark]

/-- Before the key. -/
def opened (cs : List Char) : Scanner :=
  { cursor := { rest := keyChars ++ ':' :: ' ' :: apostrophe :: cs }
    tokens := [⟨.streamStart, {}, {}⟩]
    count := 1 }

/-- Behind the key. -/
def keyed (cs : List Char) : Scanner :=
  { cursor := { rest := ':' :: ' ' :: apostrophe :: cs, mark := ⟨10, 0, 10⟩ }
    tokens := [⟨.scalar (encodeChars keyChars) .plain, {}, ⟨10, 0, 10⟩⟩, ⟨.streamStart, {}, {}⟩]
    count := 2
    keyAllowed := false
    keys := [⟨true, false, 1, {}⟩] }

/-- Behind the colon. -/
def valued (cs : List Char) : Scanner :=
  { cursor := { rest := ' ' :: apostrophe :: cs, mark := ⟨11, 0, 11⟩ }
    tokens := [⟨.value, ⟨10, 0, 10⟩, ⟨11, 0, 11⟩⟩,
      ⟨.scalar (encodeChars keyChars) .plain, {}, ⟨10, 0, 10⟩⟩, ⟨.key, {}, {}⟩,
      ⟨.blockMappingStart, {}, {}⟩, ⟨.streamStart, {}, {}⟩]
    count := 5
    indent := 0
    indents := [-1]
    keyAllowed := false
    keys := [⟨false, false, 1, {}⟩] }

theorem fetch_opened (n : Nat) (cs : List Char) :
    (opened cs).fetch (n + 1) false = some (keyed cs) := by
  have hplain : (opened cs).fetchPlain (n + 1) = some (keyed cs) := rfl
  have hindicator : isIndicator 'e' = false := by decide
  have hquote : 'e' ≠ apostrophe := by decide
  have hink : isBlank 'e' = false ∧ isBreak 'e' = false := by decide
  have hskip : (opened cs).skipToToken (n + 1) = opened cs := rfl
  have hcontent : (opened cs).fetchContent (n + 1) 'e' = some (keyed cs) := by
    simp [fetchContent, hindicator, hquote, hink, hplain]
  rw [fetch_content hskip rfl rfl rfl rfl, hcontent]
  rfl

theorem fetch_keyed (n : Nat) (cs : List Char) :
    (keyed cs).fetch (n + 1) false = some (valued cs) := by
  have hskip : (keyed cs).skipToToken (n + 1) = keyed cs := rfl
  have hcontent : (keyed cs).fetchContent (n + 1) ':' = (keyed cs).fetchValue := rfl
  have hvalue : (keyed cs).fetchValue = some (valued cs) := rfl
  rw [fetch_content hskip rfl rfl rfl rfl, hcontent, hvalue]
  rfl

/-- Behind the value. -/
def quoted (content : Text) (cursor : Cursor) : Scanner :=
  { valued [] with
    cursor := cursor
    tokens := ⟨.scalar content .singleQuoted, ⟨12, 0, 12⟩, cursor.mark⟩ :: (valued []).tokens
    count := 6 }

/-- Before the value. -/
def valuing (cs : List Char) : Scanner :=
  { valued cs with cursor := { rest := apostrophe :: cs, mark := ⟨12, 0, 12⟩ } }

theorem fetch_valued {cs : List Char} (line : Line cs) {n : Nat} (hn : cs.length + 2 ≤ n + 1) :
    ∃ c : Cursor, (valued (doubled cs ++ [apostrophe])).fetch (n + 1) false =
      some (quoted (encodeChars cs) c) ∧ c.Before [] := by
  have hbefore : (valuing (doubled cs ++ [apostrophe])).cursor.skip.Before
      (doubled cs ++ [apostrophe]) := ⟨rfl, Nat.succ_pos _⟩
  obtain ⟨c, hread, hc⟩ := @readQuoted_doubled cs line (n + 1) hn [] _ hbefore
  have hsave : (valuing (doubled cs ++ [apostrophe])).saveKey =
      some (valuing (doubled cs ++ [apostrophe])) := rfl
  have hquoted : (valuing (doubled cs ++ [apostrophe])).fetchQuoted (n + 1) true =
      some (quoted (encodeChars cs) c) := by
    unfold fetchQuoted
    rw [hsave]
    simp only [Option.bind_eq_bind, Option.bind_some, hread]
    rfl
  have hcontent : (valuing (doubled cs ++ [apostrophe])).fetchContent (n + 1) apostrophe =
      (valuing (doubled cs ++ [apostrophe])).fetchQuoted (n + 1) true := rfl
  have hskip : (valued (doubled cs ++ [apostrophe])).skipToToken (n + 1) =
      valuing (doubled cs ++ [apostrophe]) := rfl
  have hcomment : c.skipLineComment = c := by
    unfold Cursor.skipLineComment
    split
    next => rfl
    next => simp [hc.rest, Cursor.peekAt]
  refine ⟨c, ?_, hc⟩
  rw [fetch_content hskip rfl rfl rfl rfl, hcontent, hquoted]
  change some { quoted (encodeChars cs) c with cursor := c.skipLineComment } = _
  rw [hcomment]
  rfl

/-- Behind the end. -/
def ended (content : Text) (cursor : Cursor) : Scanner :=
  let mark : Mark := ⟨cursor.mark.index, cursor.mark.line + 1, 0⟩
  { cursor := { cursor with mark := mark }
    tokens := ⟨.streamEnd, mark, mark⟩ :: ⟨.blockEnd, mark, mark⟩ :: (quoted content cursor).tokens
    count := 8
    keyAllowed := false
    keys := [⟨false, false, 1, {}⟩] }

theorem fetch_quoted (n : Nat) (content : Text) {c : Cursor} (hc : c.Before []) :
    (quoted content c).fetch (n + 1) false = some (ended content c) := by
  obtain ⟨rest, mark, newlines⟩ := c
  obtain ⟨hrest, hcolumn⟩ := hc
  cases hrest
  have hskip : (quoted content ⟨[], mark, newlines⟩).skipToToken (n + 1) =
      quoted content ⟨[], mark, newlines⟩ := by
    simp [skipToToken, Cursor.peek, Cursor.skipWhile, Cursor.skipMany, Cursor.atBreak, quoted]
  have hclose : (quoted content ⟨[], mark, newlines⟩).closeTo mark.column mark =
      quoted content ⟨[], mark, newlines⟩ := by
    have hindent : ¬ (mark.column : Int) < 0 := by omega
    simp [closeTo, closeBlocks, quoted, valued, hindent]
  have hline : mark.column ≠ 0 := Nat.ne_of_gt hcolumn
  have hend : (quoted content ⟨[], mark, newlines⟩).fetchStreamEnd =
      some (ended content ⟨[], mark, newlines⟩) := by
    unfold fetchStreamEnd
    dsimp only [quoted]
    rw [if_neg hline]
    rfl
  unfold fetch
  rw [hskip]
  dsimp only [quoted] at hclose ⊢
  rw [hclose]
  exact hend

/-- All the tokens of the entry. -/
theorem fetchAll_opened {cs : List Char} (line : Line cs) {n : Nat} (hn : cs.length ≤ n) :
    ∃ c : Cursor, fetchAll false (n + 4) (opened (doubled cs ++ [apostrophe])) =
      (ended (encodeChars cs) c, true) := by
  obtain ⟨c, hvalue, hc⟩ := @fetch_valued cs line (n + 1) (by omega)
  refine ⟨c, ?_⟩
  rw [fetchAll, fetch_opened]
  change fetchAll false (n + 3) (keyed (doubled cs ++ [apostrophe])) = _
  rw [fetchAll, fetch_keyed]
  change fetchAll false (n + 2) (valued (doubled cs ++ [apostrophe])) = _
  rw [fetchAll, hvalue]
  change fetchAll false (n + 1) (quoted (encodeChars cs) c) = _
  rw [fetchAll, fetch_quoted n _ hc]
  rfl

end Scanner

/-- The tokens of the entry in order. -/
def entryTokens (content : Text) (stop last : Mark) : List Token :=
  [⟨.streamStart, {}, {}⟩, ⟨.blockMappingStart, {}, {}⟩, ⟨.key, {}, {}⟩,
    ⟨.scalar (encodeChars keyChars) .plain, {}, ⟨10, 0, 10⟩⟩, ⟨.value, ⟨10, 0, 10⟩, ⟨11, 0, 11⟩⟩,
    ⟨.scalar content .singleQuoted, ⟨12, 0, 12⟩, stop⟩, ⟨.blockEnd, last, last⟩,
    ⟨.streamEnd, last, last⟩]

/-- The document of the entry. -/
def entryDocument (content : Text) : Document where
  root := .mapping 1 [(.scalar 1 .str .plain (text "expression"),
    .scalar 1 .str .singleQuoted content)]

theorem readDocument_entryTokens (content : Text) (stop last : Mark) :
    (Composing.readDocument 40 { tokens := entryTokens content stop last, complete := true }).map
      (·.1) = some (some (entryDocument content)) := by
  rfl

open Utf8 (asciiChar)

/-- The bytes of printable ASCII characters. -/
def isPrintable (b : UInt8) : Bool := 0x20 ≤ b && b ≤ 0x7e

/-- What the characters of printable bytes are for the scanner. -/
theorem printable_char {b : UInt8} (h : isPrintable b = true) :
    isAllowed (asciiChar b).toNat = true ∧ (asciiChar b = ' ' ∨ isInk (asciiChar b) = true) ∧
      (asciiChar b = apostrophe → b = Ascii.singleQuote) := by
  have table : ∀ n < 0x7f, 0x20 ≤ n → isAllowed (Char.ofNat n).toNat = true ∧
      (Char.ofNat n = ' ' ∨ isInk (Char.ofNat n) = true) ∧
      (Char.ofNat n = apostrophe → n = 0x27) := by decide +kernel
  simp only [isPrintable, Bool.and_eq_true, decide_eq_true_eq, UInt8.le_iff_toNat_le] at h
  have hlow : 0x20 ≤ b.toNat := h.1
  have hhigh : b.toNat ≤ 0x7e := h.2
  obtain ⟨allowed, ink, quote⟩ := table b.toNat (by omega) hlow
  refine ⟨allowed, ink, ?_⟩
  intro hb
  exact UInt8.toNat_inj.mp (quote hb)

theorem isPrintable_ascii {s : Text} (h : ∀ b ∈ s, isPrintable b = true) : ∀ b ∈ s, b < 0x80 := by
  intro b hb
  have hprint := h b hb
  simp only [isPrintable, Bool.and_eq_true, decide_eq_true_eq, UInt8.le_iff_toNat_le] at hprint
  have hhigh : b.toNat ≤ 0x7e := hprint.2
  exact UInt8.lt_iff_toNat_lt.mpr (Nat.lt_of_le_of_lt hhigh (by decide))

theorem encodeChars_ascii {s : Text} (h : ∀ b ∈ s, b < 0x80) :
    encodeChars (s.map asciiChar) = s := by
  have hencode := Utf8.encode_decode s
  rw [Utf8.decode_ascii h, List.flatMap_map] at hencode
  rw [encodeChars, List.flatMap_map]
  exact hencode

theorem allowedUnits_printable {s : Text} (h : ∀ b ∈ s, isPrintable b = true) (pos : Nat) :
    ∃ units, allowedUnits pos (s.map fun b => .char (asciiChar b)) = (units, none) ∧
      units.map (·.2) = s.map asciiChar := by
  induction s generalizing pos with
  | nil => exact ⟨[], rfl, rfl⟩
  | cons b s ih =>
    obtain ⟨hb, h⟩ := List.forall_mem_cons.mp h
    obtain ⟨units, hunits, hchars⟩ := ih h (pos + (Utf8.encodeChar (asciiChar b)).length)
    refine ⟨(pos, asciiChar b) :: units, ?_, by simp [hchars]⟩
    simp [allowedUnits, (printable_char hb).1, hunits]

theorem ofSource_printable {s : Text} (h : ∀ b ∈ s, isPrintable b = true) :
    Input.ofSource s = ⟨s.map asciiChar, false⟩ := by
  unfold Input.ofSource
  split
  next => exact absurd (h 0xff (by simp)) (by decide)
  next => exact absurd (h 0xfe (by simp)) (by decide)
  next => exact absurd (h 0xef (by simp)) (by decide)
  next =>
    obtain ⟨units, hunits, hchars⟩ := allowedUnits_printable h 0
    rw [Utf8.decode_ascii (isPrintable_ascii h), ofRunes, hunits]
    simp [hchars]

theorem doubled_printable {s : Text} (h : ∀ b ∈ s, isPrintable b = true) :
    (Text.replaceByte Ascii.singleQuote [Ascii.singleQuote, Ascii.singleQuote] s).map asciiChar =
      doubled (s.map asciiChar) := by
  rw [Text.replaceByte, doubled, List.map_flatMap, List.flatMap_map]
  refine List.flatMap_congr fun b hb => ?_
  by_cases hquote : b = Ascii.singleQuote
  · subst hquote
    rfl
  · have hchar : asciiChar b ≠ apostrophe := fun heq => hquote ((printable_char (h b hb)).2.2 heq)
    rw [if_neg hquote, if_neg hchar]
    rfl

/-- A source with one entry, whose value is put into quotes. -/
def entrySource (s : Text) : Text := text "expression: " ++ Definition.singleQuoted s

theorem isPrintable_entrySource {s : Text} (h : ∀ b ∈ s, isPrintable b = true) :
    ∀ b ∈ entrySource s, isPrintable b = true := by
  have hquote : isPrintable Ascii.singleQuote = true := by decide
  have hkey : ∀ b ∈ text "expression: ", isPrintable b = true := List.all_eq_true.mp (by decide)
  refine List.forall_mem_append.mpr ⟨hkey, ?_⟩
  simp only [Definition.singleQuoted, List.mem_append, List.mem_singleton, Text.replaceByte,
    List.mem_flatMap]
  rintro b ((rfl | ⟨c, hc, hb⟩) | rfl)
  · exact hquote
  · split at hb
    next =>
      have hb' : b = Ascii.singleQuote := by simpa using hb
      rw [hb']
      exact hquote
    next =>
      cases List.mem_singleton.mp hb
      exact h b hc
  · exact hquote

/-- The characters of the entry. -/
theorem entrySource_chars {s : Text} (h : ∀ b ∈ s, isPrintable b = true) :
    (entrySource s).map asciiChar =
      keyChars ++ ':' :: ' ' :: apostrophe :: (doubled (s.map asciiChar) ++ [apostrophe]) := by
  have hkey : (text "expression: ").map asciiChar = keyChars ++ [':', ' '] := by decide
  have hquote : [Ascii.singleQuote].map asciiChar = [apostrophe] := by decide
  rw [entrySource, Definition.singleQuoted, List.map_append, List.map_append, List.map_append, hkey,
    doubled_printable h, hquote]
  simp

theorem line_printable {s : Text} (h : ∀ b ∈ s, isPrintable b = true) :
    Line (s.map asciiChar) := by
  refine line_of ?_
  intro x hx
  obtain ⟨b, hb, rfl⟩ := List.mem_map.mp hx
  exact (printable_char (h b hb)).2.1

theorem scan_entrySource {s : Text} (h : ∀ b ∈ s, isPrintable b = true) :
    ∃ stop last, scan (entrySource s) = (entryTokens s stop last, true) := by
  obtain ⟨c, hall⟩ := @Scanner.fetchAll_opened _ (line_printable h)
    ((doubled (s.map asciiChar)).length + 12) (by
      have := length_le_doubled (s.map asciiChar)
      omega)
  rw [encodeChars_ascii (isPrintable_ascii h)] at hall
  refine ⟨c.mark, ⟨c.mark.index, c.mark.line + 1, 0⟩, ?_⟩
  have given : (entrySource s).isEmpty = false := by
    rw [List.isEmpty_eq_false_iff]
    exact List.append_ne_nil_of_left_ne_nil (by decide) _
  have hfuel : ((entrySource s).map asciiChar).length + 2 =
      (doubled (s.map asciiChar)).length + 12 + 4 := by
    rw [entrySource_chars h]
    simp [keyChars]
  have hstart (cs : List Char) :
      ({ cursor := { rest := keyChars ++ ':' :: ' ' :: apostrophe :: cs } } : Scanner).push
        .streamStart {} {} = Scanner.opened cs := rfl
  have hended : (Scanner.ended s c).tokens.reverse =
      entryTokens s c.mark ⟨c.mark.index, c.mark.line + 1, 0⟩ := rfl
  unfold scan
  simp only [given, Bool.false_eq_true, if_false, ofSource_printable (isPrintable_entrySource h),
    hfuel]
  rw [entrySource_chars h, hstart, hall, hended]

/-- The value of the entry is read back. -/
theorem read_entrySource {s : Text} (h : ∀ b ∈ s, isPrintable b = true) :
    read (entrySource s) = .ok (some (entryDocument s)) := by
  obtain ⟨stop, last, hscan⟩ := scan_entrySource h
  obtain ⟨⟨document, state⟩, hread, hdocument⟩ :=
    Option.map_eq_some_iff.mp (readDocument_entryTokens s stop last)
  cases hdocument
  have hfuel : 4 * (entryTokens s stop last).length + 8 = 40 := rfl
  unfold read
  simp only [hscan, hfuel, hread]

end ScopedAggregation.Yaml
