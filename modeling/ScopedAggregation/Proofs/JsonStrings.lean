import ScopedAggregation.Proofs.JsonReading

namespace ScopedAggregation.Json

/-- The characters that have an escape of one letter: the quote, the backslash, and the controls for
backspace, form feed, line feed, carriage return and tab. -/
def letterEscapes : List (Nat × UInt8) :=
  [(0x22, 0x22), (0x5c, 0x5c), (0x08, 0x62), (0x0c, 0x66), (0x0a, 0x6e), (0x0d, 0x72), (0x09, 0x74)]

/-- The characters that are written by their number unless a letter stands for them: the controls, the
signs `<`, `>` and `&`, and the separators of lines and paragraphs. -/
def Numbered (n : Nat) : Prop := n < 0x20 ∨ n ∈ [0x3c, 0x3e, 0x26, 0x2028, 0x2029]

/-- The number of a character in four hexadecimal digits. -/
def fourDigits (n : Nat) : Text :=
  [n / 0x1000, n / 0x100, n / 0x10, n].map fun digit => Ascii.hexDigit (digit % 0x10)

/-- How a unit of a string is written between double quotes. -/
inductive WrittenAs : Rune → Text → Prop
  | letter {c : Char} {b : UInt8} (mem : (c.toNat, b) ∈ letterEscapes) :
    WrittenAs (.char c) [Ascii.backslash, b]
  | number {c : Char} (noLetter : c.toNat ∉ letterEscapes.map (·.1)) (numbered : Numbered c.toNat) :
    WrittenAs (.char c) (text "\\u" ++ fourDigits c.toNat)
  | itself {c : Char} (noLetter : c.toNat ∉ letterEscapes.map (·.1)) (plain : ¬ Numbered c.toNat) :
    WrittenAs (.char c) (Utf8.encodeChar c)
  | stray {b : UInt8} : WrittenAs (.stray b) (text "\\ufffd")

/-- The units of the string stand in order between double quotes. -/
def Quotes (s written : Text) : Prop :=
  ∃ parts, List.Forall₂ WrittenAs (Utf8.decode s) parts ∧
    written = [Ascii.doubleQuote] ++ parts.flatten ++ [Ascii.doubleQuote]

theorem hex_numbered {n : Nat} (h : Numbered n) : Text.hex 4 n = fourDigits n := by
  rcases h with h | h
  · interval_cases n <;> rfl
  · simp only [List.mem_cons, List.not_mem_nil, or_false] at h
    rcases h with rfl | rfl | rfl | rfl | rfl <;> rfl

theorem stringRune_letter {c : Char} {b : UInt8} (h : (c.toNat, b) ∈ letterEscapes) :
    stringRune (.char c) = [Ascii.backslash, b] := by
  simp only [letterEscapes, List.mem_cons, List.not_mem_nil, or_false, Prod.mk.injEq] at h
  rcases h with ⟨hc, rfl⟩ | ⟨hc, rfl⟩ | ⟨hc, rfl⟩ | ⟨hc, rfl⟩ | ⟨hc, rfl⟩ | ⟨hc, rfl⟩ | ⟨hc, rfl⟩ <;>
    (rw [stringRune, hc]; rfl)

theorem stringRune_noLetter {c : Char} (h : c.toNat ∉ letterEscapes.map (·.1)) :
    stringRune (.char c) =
      if c.toNat < 0x20 || c.toNat = 0x3c || c.toNat = 0x3e || c.toNat = 0x26 || c.toNat = 0x2028 ||
        c.toNat = 0x2029 then text "\\u" ++ Text.hex 4 c.toNat else Utf8.encodeChar c := by
  simp only [letterEscapes, List.map_cons, List.map_nil, List.mem_cons, List.not_mem_nil, or_false,
    not_or] at h
  obtain ⟨hquote, hslash, hback, hfeed, hline, hreturn, htab⟩ := h
  rw [stringRune]
  split <;> first | contradiction | rfl

theorem stringRune_number {c : Char} (noLetter : c.toNat ∉ letterEscapes.map (·.1))
    (numbered : Numbered c.toNat) : stringRune (.char c) = text "\\u" ++ fourDigits c.toNat := by
  rw [stringRune_noLetter noLetter, hex_numbered numbered, if_pos]
  simpa [Numbered, or_assoc] using numbered

theorem stringRune_itself {c : Char} (noLetter : c.toNat ∉ letterEscapes.map (·.1))
    (plain : ¬ Numbered c.toNat) : stringRune (.char c) = Utf8.encodeChar c := by
  rw [stringRune_noLetter noLetter, if_neg]
  simpa [Numbered, and_assoc] using plain

theorem writtenAs_iff {r : Rune} {written : Text} : WrittenAs r written ↔ stringRune r = written := by
  constructor
  · intro h
    cases h with
    | letter mem => exact stringRune_letter mem
    | number noLetter numbered => exact stringRune_number noLetter numbered
    | itself noLetter plain => exact stringRune_itself noLetter plain
    | stray => rfl
  · rintro rfl
    cases r with
    | stray b => exact .stray
    | char c =>
      by_cases letter : c.toNat ∈ letterEscapes.map (·.1)
      · obtain ⟨⟨n, b⟩, mem, hn⟩ := List.mem_map.mp letter
        cases hn
        rw [stringRune_letter mem]
        exact .letter mem
      · by_cases numbered : Numbered c.toNat
        · rw [stringRune_number letter numbered]
          exact .number letter numbered
        · rw [stringRune_itself letter numbered]
          exact .itself letter numbered

theorem quotes_iff {s written : Text} : Quotes s written ↔ written = string s := by
  have hparts : ∀ parts, List.Forall₂ WrittenAs (Utf8.decode s) parts ↔
      (Utf8.decode s).map stringRune = parts := by
    intro parts
    have heach : WrittenAs = fun r written => stringRune r = written :=
      funext fun r => funext fun written => propext writtenAs_iff
    rw [heach, ← List.forall₂_map_left_iff (R := (· = ·)), List.forall₂_eq_eq_eq]
  rw [string, List.flatMap_def]
  constructor
  · rintro ⟨parts, h, rfl⟩
    rw [(hparts parts).mp h]
  · rintro rfl
    exact ⟨_, (hparts _).mpr rfl, rfl⟩

/-- Two valid strings that begin the same text are the same string. -/
theorem string_append_inj {s t r u : Text} (hs : Utf8.isValid s = true) (ht : Utf8.isValid t = true)
    (h : string s ++ r = string t ++ u) : s = t ∧ r = u := by
  rw [string_append, string_append] at h
  have hread := congrArg readString (List.cons.inj h).2
  rw [readString_string hs, readString_string ht] at hread
  exact Prod.mk.inj (Option.some.inj hread)

end ScopedAggregation.Json
