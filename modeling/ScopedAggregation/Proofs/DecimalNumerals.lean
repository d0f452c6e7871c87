import ScopedAggregation.Number.Numeral
import ScopedAggregation.Proofs.Utf8Bytes
import ScopedAggregation.Value.Json
import Mathlib.Data.List.TakeWhile
import Mathlib.Tactic.IntervalCases

namespace ScopedAggregation

theorem digit_byte {d : Nat} (h : d < 10) :
    Ascii.isDigit d.digitChar.toUInt8 = true ∧ Ascii.digitValue d.digitChar.toUInt8 = d := by
  interval_cases d <;> decide

namespace Text

/-- The last digit stands behind the numeral of a tenth. -/
theorem ofNat_eq (n : Nat) :
    ofNat n = (if n < 10 then [] else ofNat (n / 10)) ++ [(n % 10).digitChar.toUInt8] := by
  unfold ofNat
  rw [Nat.toDigits_eq_if (by omega)]
  split
  next h => simp [Nat.mod_eq_of_lt h]
  next h => simp

theorem ofNat_ne_nil (n : Nat) : ofNat n ≠ [] := by
  rw [ofNat_eq]
  simp

theorem isDigit_of_mem_ofNat {n : Nat} {b : UInt8} (h : b ∈ ofNat n) : Ascii.isDigit b = true := by
  induction n using Nat.strongRecOn with
  | ind n ih =>
    rw [ofNat_eq] at h
    rcases List.mem_append.mp h with h | h
    · split at h
      next => simp at h
      next hn => exact ih (n / 10) (by omega) h
    · cases List.mem_singleton.mp h
      exact (digit_byte (by omega)).1

theorem digitsValue_append (ds : Text) (d : UInt8) :
    digitsValue (ds ++ [d]) = digitsValue ds * 10 + Ascii.digitValue d := by
  simp [digitsValue]

theorem digitsValue_ofNat (n : Nat) : digitsValue (ofNat n) = n := by
  induction n using Nat.strongRecOn with
  | ind n ih =>
    rw [ofNat_eq, digitsValue_append, (digit_byte (by omega)).2]
    split
    next h =>
      simp only [digitsValue, List.foldl_nil]
      omega
    next h =>
      rw [ih (n / 10) (by omega)]
      omega

theorem length_ofNat_le {n width : Nat} (positive : 0 < width) (h : n < 10 ^ width) :
    (ofNat n).length ≤ width := by
  induction width, positive using Nat.le_induction generalizing n with
  | base =>
    rw [ofNat_eq, if_pos (by omega)]
    simp
  | succ width _ ih =>
    rw [ofNat_eq]
    split
    next => simp
    next =>
      have tenth : n / 10 < 10 ^ width := Nat.div_lt_of_lt_mul (by rwa [Nat.pow_succ'] at h)
      simpa using ih tenth

end Text

namespace Utf8

/-- The character of a byte that stands for itself. -/
def asciiChar (b : UInt8) : Char := Char.ofNat b.toNat

theorem toNat_asciiChar {b : UInt8} (h : b < 0x80) : (asciiChar b).toNat = b.toNat := by
  have hb : b.toNat < 0x80 := UInt8.lt_iff_toNat_lt.mp h
  have hvalid : b.toNat.isValidChar := .inl (by omega)
  rw [asciiChar, Char.ofNat, dif_pos hvalid]
  rfl

theorem decode_ascii {s : Text} (h : ∀ b ∈ s, b < 0x80) :
    decode s = s.map fun b => .char (asciiChar b) := by
  unfold decode
  induction s with
  | nil => rfl
  | cons a s ih =>
    obtain ⟨ha, hs⟩ := List.forall_mem_cons.mp h
    simp only [decodeAfter, unitAt, ha, if_true, List.map_cons, ih hs, asciiChar]

end Utf8

namespace Numeral

/-- There is nothing to skip before a text that begins with an ASCII byte that is no white space. -/
theorem skipBlanks?_ascii {b : UInt8} {s : Text} (hbyte : b < 0x80)
    (hb : Text.isBlankPoint b.toNat = false) : skipBlanks? (b :: s) = some (b :: s) := by
  have hdecode : Utf8.decode (b :: s) = .char (Utf8.asciiChar b) :: Utf8.decode s := by
    simp only [Utf8.decode, Utf8.decodeAfter, Utf8.unitAt, hbyte, if_true, Utf8.asciiChar]
  have hchar : Text.isBlankPoint (Utf8.asciiChar b).toNat = false := by
    rw [Utf8.toNat_asciiChar hbyte]
    exact hb
  have hline : Utf8.asciiChar b ≠ '\n' := by
    intro heq
    rw [heq] at hchar
    cases hchar
  unfold skipBlanks?
  rw [hdecode, List.dropWhile_cons_of_neg (by simp [hchar])]
  dsimp only
  split
  next heq => exact absurd (Rune.char.inj (List.cons.inj heq).1) hline
  next => rw [← hdecode, Utf8.encode_decode]

/-- The bytes of numerals: digits and a sign before them. -/
def isNumeralByte (b : UInt8) : Bool := Ascii.isDigit b || b = Ascii.minus

theorem numeralByte_plain {b : UInt8} (h : isNumeralByte b = true) :
    b < 0x80 ∧ Text.isBlankPoint b.toNat = false := by
  have hrange : 45 ≤ b.toNat ∧ b.toNat ≤ 57 := by
    simp only [isNumeralByte, Ascii.isDigit, Bool.or_eq_true, Bool.and_eq_true, decide_eq_true_eq,
      UInt8.le_iff_toNat_le] at h
    rcases h with h | rfl
    · exact ⟨Nat.le_trans (by decide) h.1, h.2⟩
    · decide
  refine ⟨UInt8.lt_iff_toNat_lt.mpr (Nat.lt_of_le_of_lt hrange.2 (by decide)), ?_⟩
  simp only [Text.isBlankPoint, Bool.or_eq_false_iff, Bool.and_eq_false_iff, decide_eq_false_iff_not]
  omega

theorem skipBlanks?_numeral {s : Text} (hs : s ≠ []) (h : ∀ b ∈ s, isNumeralByte b = true) :
    skipBlanks? s = some s := by
  cases s with
  | nil => exact absurd rfl hs
  | cons b s =>
    obtain ⟨hbyte, hblank⟩ := numeralByte_plain (h b (by simp))
    exact skipBlanks?_ascii hbyte hblank

theorem isNumeralByte_of_mem_ofNat {n : Nat} {b : UInt8} (h : b ∈ Text.ofNat n) :
    isNumeralByte b = true := by
  simp [isNumeralByte, Text.isDigit_of_mem_ofNat h]

theorem isNumeralByte_of_mem_int {i : Int64} {b : UInt8} (h : b ∈ Json.int i) :
    isNumeralByte b = true := by
  unfold Json.int Text.ofInt at h
  split at h
  next => exact isNumeralByte_of_mem_ofNat h
  next =>
    rcases List.mem_cons.mp h with rfl | h
    · rfl
    · exact isNumeralByte_of_mem_ofNat h

theorem takeWhile_ofNat (n : Nat) : (Text.ofNat n).takeWhile Ascii.isDigit = Text.ofNat n :=
  List.takeWhile_eq_self_iff.mpr fun _ h => Text.isDigit_of_mem_ofNat h

/-- A numeral without a sign begins with a digit. -/
theorem ofNat_unsigned (n : Nat) :
    (Text.ofNat n).head? ≠ some Ascii.minus ∧ dropSign (Text.ofNat n) = Text.ofNat n := by
  cases h : Text.ofNat n with
  | nil => exact absurd h (Text.ofNat_ne_nil n)
  | cons b s =>
    have hb : Ascii.isDigit b = true := Text.isDigit_of_mem_ofNat (n := n) (by simp [h])
    have hplus : b ≠ 0x2b := by
      rintro rfl
      cases hb
    have hminus : b ≠ 0x2d := by
      rintro rfl
      cases hb
    refine ⟨by simpa using hminus, ?_⟩
    unfold dropSign
    split
    next heq =>
      cases heq
      exact absurd rfl hplus
    next heq =>
      cases heq
      exact absurd rfl hminus
    next => rfl

theorem scanInt?_ofNat {n : Nat} (h : isInt64 n = true) :
    scanInt? (Text.ofNat n) = some (Int64.ofInt n) := by
  have hskip := skipBlanks?_numeral (Text.ofNat_ne_nil n) fun b hb => isNumeralByte_of_mem_ofNat hb
  obtain ⟨hhead, hdrop⟩ := ofNat_unsigned n
  simp only [scanInt?, hskip, Option.bind_eq_bind, Option.bind_some, hdrop, takeWhile_ofNat,
    if_neg (Text.ofNat_ne_nil n), Text.digitsValue_ofNat, hhead, if_false, h,
    if_true]

theorem scanInt?_minus {n : Nat} (h : isInt64 (-n) = true) :
    scanInt? (Ascii.minus :: Text.ofNat n) = some (Int64.ofInt (-n)) := by
  have hskip : skipBlanks? (Ascii.minus :: Text.ofNat n) = some (Ascii.minus :: Text.ofNat n) := by
    refine skipBlanks?_numeral (by simp) (List.forall_mem_cons.mpr ⟨rfl, ?_⟩)
    exact fun b hb => isNumeralByte_of_mem_ofNat hb
  have hdrop : dropSign (Ascii.minus :: Text.ofNat n) = Text.ofNat n := rfl
  simp only [scanInt?, hskip, Option.bind_eq_bind, Option.bind_some, hdrop, takeWhile_ofNat,
    if_neg (Text.ofNat_ne_nil n), Text.digitsValue_ofNat, List.head?_cons, h, if_true]

theorem isInt64_toInt (i : Int64) : isInt64 i.toInt = true := by
  have hle := i.le_toInt
  have hlt := i.toInt_lt
  simp only [isInt64, int64Bound, Bool.and_eq_true, decide_eq_true_eq]
  omega

theorem toInt_ofInt_of_isInt64 {k : Int} (h : isInt64 k = true) : (Int64.ofInt k).toInt = k := by
  simp only [isInt64, int64Bound, Bool.and_eq_true, decide_eq_true_eq] at h
  exact Int64.toInt_ofInt_of_le (by omega) (by omega)

/-- The numeral of an integer is read as that integer. -/
theorem scanInt?_int (i : Int64) : scanInt? (Json.int i) = some i := by
  have hrange := isInt64_toInt i
  unfold Json.int
  cases hi : i.toInt with
  | ofNat n =>
    rw [hi] at hrange
    rw [Text.ofInt, scanInt?_ofNat hrange, ← Int64.ofInt_toInt i, hi]
    rfl
  | negSucc n =>
    rw [hi] at hrange
    have hneg : Int.negSucc n = -((n + 1 : Nat) : Int) := rfl
    rw [hneg] at hrange
    rw [Text.ofInt, scanInt?_minus hrange, ← Int64.ofInt_toInt i, hi, hneg]

end Numeral

end ScopedAggregation
