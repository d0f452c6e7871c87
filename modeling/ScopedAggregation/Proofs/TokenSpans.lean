import ScopedAggregation.Proofs.FormulaNesting

namespace ScopedAggregation.Formula

/-- The bytes that are white space when each is read as the character of the same number. -/
def blankBytes : List UInt8 := [0x09, 0x0a, 0x0b, 0x0c, 0x0d, 0x20, 0x85, 0xa0]

theorem mem_blankBytes {b : UInt8} : b ∈ blankBytes ↔ Text.isBlankByte b = true := by
  have hlt : b.toNat < 256 := b.toNat_lt
  simp only [blankBytes, List.mem_cons, List.not_mem_nil, or_false, ← UInt8.toNat_inj,
    UInt8.reduceToNat, Text.isBlankByte, Text.isBlankPoint, Bool.or_eq_true, Bool.and_eq_true,
    decide_eq_true_eq]
  omega

def Lexeme.isVariable : Lexeme → Bool
  | .variable _ => true
  | _ => false

/-- How a word is written: as the text that it keeps, behind its sigil if it is a reference that is
written with one. -/
inductive Token.WrittenAs (t : Token) : Text → Prop
  | source (h : t.lexeme.isVariable = false) : WrittenAs t t.source
  | field (h : t.lexeme = .ident t.source) : WrittenAs t (Ascii.dollar :: t.source)
  | variable (h : t.lexeme = .variable t.source) :
    WrittenAs t (Ascii.dollar :: Ascii.dollar :: t.source)

section

variable {pos width : Nat} {b c : UInt8} {rest span : Text} {l : Lexeme} {t : Token}

theorem isVariable_readNumber (h : readNumber pos span = .ok l) : l.isVariable = false := by
  unfold readNumber at h
  split at h
  next =>
    split at h
    next => cases h; rfl
    next => cases h
  next =>
    split at h
    next => cases h; rfl
    next => cases h

theorem isVariable_pairSign? (h : pairSign? b c = some l) : l.isVariable = false := by
  unfold pairSign? at h
  split at h <;> cases h <;> rfl

theorem isVariable_sign? (h : sign? b = some l) : l.isVariable = false := by
  unfold sign? at h
  split at h <;> cases h <;> rfl

theorem isVariable_keyword (word : Text) :
    ((keywords.lookup word).getD (.ident word)).isVariable = false := by
  cases h : keywords.lookup word with
  | none => rfl
  | some l =>
    have htable : ∀ p ∈ keywords, p.2.isVariable = false := by decide
    obtain ⟨before, after, hsplit, -⟩ := List.lookup_eq_some_iff.mp h
    exact htable (word, l) (by simp [hsplit])

theorem ReadsWord.pos_eq (h : ReadsWord pos b rest t width) : t.pos = pos := by
  cases h <;> rfl

/-- The bytes that are taken for a word are those that it is written with. -/
theorem ReadsWord.writtenAs (h : ReadsWord pos b rest t width) :
    t.WrittenAs ((b :: rest).take width) := by
  cases h with
  | string => exact .source rfl
  | number hdigit hread =>
    have hspan : numberSpan false false (b :: rest) <+: b :: rest := numberSpan_prefix
    have htake := List.prefix_iff_eq_take.mp hspan
    rw [← htake]
    exact .source (isVariable_readNumber hread)
  | @field c tail name hname =>
    have hprefix : name <+: c :: tail := hname ▸ List.takeWhile_prefix _
    have htake := List.prefix_iff_eq_take.mp hprefix
    rw [Nat.add_comm, List.take_succ_cons, ← htake]
    exact .field rfl
  | @var c tail name hname =>
    have hprefix : name <+: c :: tail := hname ▸ List.takeWhile_prefix _
    have htake := List.prefix_iff_eq_take.mp hprefix
    rw [Nat.add_comm, List.take_succ_cons, List.take_succ_cons, ← htake]
    exact .variable rfl
  | pair hpair => exact .source (isVariable_pairSign? hpair)
  | sign hsign => exact .source (isVariable_sign? hsign)
  | @name _ _ word _ hword =>
    have htake := List.prefix_iff_eq_take.mp (hword ▸ List.takeWhile_prefix _)
    rw [← htake]
    exact .source (isVariable_keyword word)

end

/-- A step of reading: the word behind the white space at the beginning, or the end when there is none,
and how many bytes that takes. -/
def nextToken (pos : Nat) : Text → Except LexicalFault (Token × Nat)
  | [] => .ok (⟨.eof, [], pos⟩, 0)
  | b :: rest =>
    if Text.isBlankByte b then (nextToken (pos + 1) rest).map fun (t, n) => (t, n + 1)
    else tokenAt pos b rest

/-- Step after step until the end or a fault. There is no result when so many steps are too few. -/
def tokenLoop : Nat → Nat → Text → Option (Except LexicalFault (List Token))
  | 0, _, _ => none
  | steps + 1, pos, s =>
    match nextToken pos s with
    | .error e => some (.error e)
    | .ok (t, n) =>
      if t.lexeme = .eof then some (.ok [t])
      else (tokenLoop steps (pos + n) (s.drop n)).map (·.map (t :: ·))

/-- What a step finds: the end or a word, with white space before it. -/
inductive StepsTo (pos : Nat) : Text → Token → Nat → Prop
  | stop {gap : Text} (hgap : ∀ b ∈ gap, b ∈ blankBytes) :
    StepsTo pos gap ⟨.eof, [], pos + gap.length⟩ gap.length
  | word {gap span rest : Text} {t : Token} (hgap : ∀ b ∈ gap, b ∈ blankBytes) (given : span ≠ [])
    (notEnd : t.lexeme ≠ .eof) (hpos : t.pos = pos + gap.length) (written : t.WrittenAs span) :
    StepsTo pos (gap ++ span ++ rest) t (gap.length + span.length)

section

variable {pos n : Nat} {s : Text} {t : Token}

theorem stepsTo_of_tokenAt {b : UInt8} {rest : Text} (h : tokenAt pos b rest = .ok (t, n)) :
    StepsTo pos (b :: rest) t n := by
  have hreads := tokenAt_reads h
  have hat := hreads.wordAt
  have hlength : ((b :: rest).take n).length = n := List.length_take_of_le hat.within
  have given : (b :: rest).take n ≠ [] := by
    intro hnil
    have hzero : n = 0 := by rw [← hlength, hnil, List.length_nil]
    have hpositive := hat.positive
    omega
  have hstep : StepsTo pos ([] ++ (b :: rest).take n ++ (b :: rest).drop n) t
      (([] : Text).length + ((b :: rest).take n).length) :=
    .word (by simp) given hat.notEnd hreads.pos_eq hreads.writtenAs
  rwa [List.nil_append, List.take_append_drop, hlength, List.length_nil, Nat.zero_add] at hstep

theorem StepsTo.blank {b : UInt8} (hb : b ∈ blankBytes) (h : StepsTo (pos + 1) s t n) :
    StepsTo pos (b :: s) t (n + 1) := by
  cases h with
  | @stop gap hgap =>
    have hend : pos + 1 + s.length = pos + (b :: s).length := by
      rw [List.length_cons]
      omega
    rw [hend]
    exact .stop (List.forall_mem_cons.mpr ⟨hb, hgap⟩)
  | @word gap span rest t hgap given notEnd hpos written =>
    have hplace : t.pos = pos + (b :: gap).length := by
      rw [hpos, List.length_cons]
      omega
    have hcount : gap.length + span.length + 1 = (b :: gap).length + span.length := by
      rw [List.length_cons]
      omega
    rw [hcount, ← List.cons_append, ← List.cons_append]
    exact .word (List.forall_mem_cons.mpr ⟨hb, hgap⟩) given notEnd hplace written

theorem nextToken_steps (h : nextToken pos s = .ok (t, n)) : StepsTo pos s t n := by
  induction s generalizing pos n with
  | nil =>
    cases h
    exact .stop (by simp)
  | cons b rest ih =>
    rw [nextToken] at h
    split at h
    next hblank =>
      obtain ⟨⟨u, m⟩, hu, heq⟩ := map_eq_ok.mp h
      cases heq
      exact (ih hu).blank (mem_blankBytes.mpr hblank)
    next => exact stepsTo_of_tokenAt h

theorem StepsTo.consumes (h : StepsTo pos s t n) :
    n ≤ s.length ∧ (t.lexeme = .eof ∧ t.pos = pos + s.length ∨ t.lexeme ≠ .eof ∧ 0 < n) := by
  cases h with
  | stop => exact ⟨Nat.le_refl _, .inl ⟨rfl, rfl⟩⟩
  | @word gap span rest t _ given notEnd =>
    have hspan := List.length_pos_iff.mpr given
    refine ⟨?_, .inr ⟨notEnd, by omega⟩⟩
    simp only [List.length_append]
    omega

end

/-- The words of a text are those of its first step and of the steps after it. -/
theorem tokensAfter_eq_next (pos : Nat) (s : Text) :
    tokensAfter 0 pos s = (nextToken pos s).bind fun (t, n) =>
      if t.lexeme = .eof then .ok [t]
      else (tokensAfter 0 (pos + n) (s.drop n)).map (t :: ·) := by
  induction s generalizing pos with
  | nil => rfl
  | cons b rest ih =>
    rw [tokensAfter, nextToken]
    split
    next =>
      rw [ih (pos + 1)]
      cases hnext : nextToken (pos + 1) rest with
      | error e => rfl
      | ok found =>
        obtain ⟨t, n⟩ := found
        have hplace : pos + 1 + n = pos + (n + 1) := by omega
        simp only [Except.map, Except.bind, List.drop_succ_cons, hplace]
    next =>
      cases ht : tokenAt pos b rest with
      | error e => rfl
      | ok found =>
        obtain ⟨t, n⟩ := found
        have hat := (tokenAt_reads ht).wordAt
        have hpositive := hat.positive
        have hwithin : n - 1 ≤ rest.length := by
          have hle := hat.within
          rw [List.length_cons] at hle
          omega
        obtain ⟨m, rfl⟩ : ∃ m, n = m + 1 := ⟨n - 1, by omega⟩
        have hplace : pos + 1 + m = pos + (m + 1) := by omega
        rw [Nat.add_sub_cancel] at hwithin
        simp only [ok_bind, Except.bind, hat.notEnd, if_false, Nat.add_sub_cancel,
          tokensAfter_drop hwithin, List.drop_succ_cons, hplace]
        cases tokensAfter 0 (pos + (m + 1)) (rest.drop m) with
        | error e => rfl
        | ok ts => rfl

/-- There is a step for each byte and one for the end, so that the steps come to an end. -/
theorem tokenLoop_eq {steps : Nat} {s : Text} (h : s.length < steps) (pos : Nat) :
    tokenLoop steps pos s = some (tokensAfter 0 pos s) := by
  induction steps generalizing pos s with
  | zero => omega
  | succ steps ih =>
    rw [tokenLoop, tokensAfter_eq_next]
    cases hnext : nextToken pos s with
    | error e => rfl
    | ok found =>
      obtain ⟨t, n⟩ := found
      obtain ⟨hle, hend⟩ := (nextToken_steps hnext).consumes
      simp only [Except.bind]
      by_cases hstop : t.lexeme = .eof
      · rw [if_pos hstop, if_pos hstop]
      · have hpositive : 0 < n := (hend.resolve_left fun hh => hstop hh.1).2
        have hshorter : (s.drop n).length < steps := by
          rw [List.length_drop]
          omega
        rw [if_neg hstop, if_neg hstop, ih hshorter, Option.map_some]

/-- Words with their texts, laid out from a position on with white space before each of them and at
the end. -/
inductive Laid : Nat → Text → List (Token × Text) → Prop
  | stop {pos : Nat} {gap : Text} (hgap : ∀ b ∈ gap, b ∈ blankBytes) : Laid pos gap []
  | word {pos : Nat} {gap span rest : Text} {t : Token} {words : List (Token × Text)}
    (hgap : ∀ b ∈ gap, b ∈ blankBytes) (given : span ≠ []) (notEnd : t.lexeme ≠ .eof)
    (hpos : t.pos = pos + gap.length) (written : t.WrittenAs span)
    (hrest : Laid (pos + (gap.length + span.length)) rest words) :
    Laid pos (gap ++ span ++ rest) ((t, span) :: words)

theorem tokensAfter_laid {pos : Nat} {s : Text} {ts : List Token} (h : tokensAfter 0 pos s = .ok ts) :
    ∃ words, ts = words.map (·.1) ++ [⟨.eof, [], pos + s.length⟩] ∧ Laid pos s words := by
  -- A step takes several bytes at once, so the induction is on the length of what is left.
  induction hlength : s.length using Nat.strongRecOn generalizing pos s ts with
  | ind length ih =>
    rw [tokensAfter_eq_next] at h
    obtain ⟨⟨t, n⟩, hnext, h⟩ := bind_eq_ok.mp h
    have hstep := nextToken_steps hnext
    cases hstep with
    | stop hgap =>
      cases h
      exact ⟨[], by simp [hlength], .stop hgap⟩
    | @word gap span rest t hgap given notEnd hpos written =>
      obtain ⟨ts', hts, heq⟩ := map_eq_ok.mp (by simpa only [notEnd, if_false] using h)
      cases heq
      have hspan := List.length_pos_iff.mpr given
      have hdrop : (gap ++ span ++ rest).drop (gap.length + span.length) = rest := by
        rw [← List.length_append, List.drop_left]
      rw [hdrop] at hts
      simp only [List.length_append] at hlength
      obtain ⟨words, hwords, hlaid⟩ := ih rest.length (by omega) hts rfl
      have hend : pos + (gap.length + span.length) + rest.length = pos + length := by omega
      refine ⟨(t, span) :: words, ?_, .word hgap given notEnd hpos written hlaid⟩
      rw [hwords, hend]
      rfl

namespace Laid

variable {pos : Nat} {s : Text} {words : List (Token × Text)}

theorem word_of_mem (h : Laid pos s words) {w : Token × Text} (hw : w ∈ words) :
    w.2 ≠ [] ∧ w.1.lexeme ≠ .eof ∧ w.1.WrittenAs w.2 := by
  induction h with
  | stop => exact absurd hw List.not_mem_nil
  | word hgap given notEnd hpos written hrest ih =>
    rcases List.mem_cons.mp hw with rfl | hw
    · exact ⟨given, notEnd, written⟩
    · exact ih hw

theorem placed (h : Laid pos s words) {w : Token × Text} (hw : w ∈ words) :
    ∃ before after, s = before ++ w.2 ++ after ∧ w.1.pos = pos + before.length := by
  induction h with
  | stop => exact absurd hw List.not_mem_nil
  | @word pos gap span rest t words hgap given notEnd hpos written hrest ih =>
    rcases List.mem_cons.mp hw with rfl | hw
    · exact ⟨gap, rest, rfl, hpos⟩
    · obtain ⟨before, after, rfl, hplace⟩ := ih hw
      refine ⟨gap ++ span ++ before, after, by simp only [List.append_assoc], ?_⟩
      simp only [hplace, List.length_append]
      omega

theorem apart (h : Laid pos s words) :
    words.Pairwise fun w u => w.1.pos + w.2.length ≤ u.1.pos := by
  induction h with
  | stop => exact .nil
  | word hgap given notEnd hpos written hrest ih =>
    refine List.pairwise_cons.mpr ⟨fun u hu => ?_, ih⟩
    obtain ⟨before, after, -, hplace⟩ := hrest.placed hu
    dsimp only
    omega

/-- A byte that stands in no word is white space. -/
theorem blank (h : Laid pos s words) {i : Nat} {b : UInt8} (hb : s[i]? = some b)
    (outside : ∀ w ∈ words, ¬ (w.1.pos ≤ pos + i ∧ pos + i < w.1.pos + w.2.length)) :
    b ∈ blankBytes := by
  induction h generalizing i with
  | stop hgap => exact hgap b (List.mem_of_getElem? hb)
  | @word pos gap span rest t words hgap given notEnd hpos written hrest ih =>
    obtain ⟨hhere, hlater⟩ := List.forall_mem_cons.mp outside
    by_cases hi : i < gap.length
    · rw [List.append_assoc, List.getElem?_append_left hi] at hb
      exact hgap b (List.mem_of_getElem? hb)
    · have hbehind : (gap ++ span).length ≤ i := by
        rw [List.length_append]
        dsimp only at hhere
        omega
      rw [List.getElem?_append_right hbehind] at hb
      refine ih hb fun w hw => ?_
      have hplace : pos + (gap.length + span.length) + (i - (gap ++ span).length) = pos + i := by
        rw [List.length_append] at hbehind ⊢
        omega
      rw [hplace]
      exact hlater w hw

end Laid

/-- The words stand in the text one after another, each where its position says and written with bytes
of its own; all other bytes are white space. -/
structure Covers (s : Text) (words : List (Token × Text)) : Prop where
  given : ∀ w ∈ words, w.2 ≠ []
  notEnd : ∀ w ∈ words, w.1.lexeme ≠ .eof
  written : ∀ w ∈ words, w.1.WrittenAs w.2
  placed : ∀ w ∈ words, ∃ before after, s = before ++ w.2 ++ after ∧ w.1.pos = before.length
  apart : words.Pairwise fun w u => w.1.pos + w.2.length ≤ u.1.pos
  blank : ∀ i b, s[i]? = some b →
    (∀ w ∈ words, ¬ (w.1.pos ≤ i ∧ i < w.1.pos + w.2.length)) → b ∈ blankBytes

theorem Laid.covers {s : Text} {words : List (Token × Text)} (h : Laid 0 s words) :
    Covers s words where
  given _ hw := (h.word_of_mem hw).1
  notEnd _ hw := (h.word_of_mem hw).2.1
  written _ hw := (h.word_of_mem hw).2.2
  placed w hw := by simpa only [Nat.zero_add] using h.placed hw
  apart := h.apart
  blank i b hb outside := h.blank hb (by simpa only [Nat.zero_add] using outside)

/-- Reading ends after at most one step for each byte and one for the end, each of which fails, finds
the end of the text, or takes a byte at least. When no step fails, the words cover the text. -/
theorem tokenize_covers (s : Text) :
    tokenLoop (s.length + 1) 0 s = some (tokenize s) ∧
      (∀ pos rest t n, nextToken pos rest = .ok (t, n) →
        n ≤ rest.length ∧ (t.lexeme = .eof ∧ t.pos = pos + rest.length ∨ t.lexeme ≠ .eof ∧ 0 < n)) ∧
      ∀ ts, tokenize s = .ok ts →
        ∃ words, ts = words.map (·.1) ++ [⟨.eof, [], s.length⟩] ∧ Covers s words := by
  refine ⟨tokenLoop_eq (Nat.lt_succ_self _) 0, ?_, ?_⟩
  · intro pos rest t n hnext
    exact (nextToken_steps hnext).consumes
  · intro ts hts
    obtain ⟨words, hwords, hlaid⟩ := tokensAfter_laid hts
    rw [Nat.zero_add] at hwords
    exact ⟨words, hwords, hlaid.covers⟩

/-- References with a sigil of each kind, and white space that no ASCII text has. -/
def spacedReferences : Text :=
  text "\t$price>=$$limit" ++ [0xa0] ++ text "in['it\\'s']" ++ [0x85]

def spacedReferenceTokens : List Token := [
  ⟨.ident (text "price"), text "price", 1⟩, ⟨.greaterEqual, text ">=", 7⟩,
  ⟨.variable (text "limit"), text "limit", 9⟩, ⟨.inWord, text "in", 17⟩,
  ⟨.openBracket, [Ascii.openBracket], 19⟩, ⟨.string (text "it's"), text "'it\\'s'", 20⟩,
  ⟨.closeBracket, [Ascii.closeBracket], 27⟩, ⟨.eof, [], 29⟩]

theorem spacedReferences_covered :
    tokenize spacedReferences = .ok spacedReferenceTokens ∧
      ∃ words, spacedReferenceTokens = words.map (·.1) ++ [⟨.eof, [], spacedReferences.length⟩] ∧
        Covers spacedReferences words := by
  have htokens : tokenize spacedReferences = .ok spacedReferenceTokens := by rfl
  obtain ⟨-, -, hcovers⟩ := tokenize_covers spacedReferences
  exact ⟨htokens, hcovers _ htokens⟩

end ScopedAggregation.Formula
