import ScopedAggregation.Text.Utf8
import Mathlib.Data.List.Basic

namespace ScopedAggregation.Utf8

theorem toNat_ofNat {n : Nat} (h : n.isValidChar) : (Char.ofNat n).val.toNat = n := by
  rw [Char.ofNat, dif_pos h]
  rfl

theorem ofNat_eq_byte {n : Nat} {b : UInt8} (h : n = b.toNat) : UInt8.ofNat n = b := by
  rw [h, UInt8.ofNat_toNat]

theorem isTail_iff {b : UInt8} : isTail b = true ↔ 0x80 ≤ b.toNat ∧ b.toNat ≤ 0xbf := by
  simp only [isTail, Bool.and_eq_true, decide_eq_true_eq, UInt8.le_iff_toNat_le]
  rfl

/-- The second byte keeps a three-byte sequence in range and clear of the surrogates. -/
theorem opensThree_range {a b : UInt8} (h : opensThree a b = true) :
    0xe0 ≤ a.toNat ∧ a.toNat ≤ 0xef ∧ 0x80 ≤ b.toNat ∧ b.toNat ≤ 0xbf ∧
      (a.toNat = 0xe0 → 0xa0 ≤ b.toNat) ∧ (a.toNat = 0xed → b.toNat ≤ 0x9f) := by
  simp only [opensThree, Bool.or_eq_true, Bool.and_eq_true, decide_eq_true_eq, isTail_iff,
    UInt8.le_iff_toNat_le, ← UInt8.toNat_inj, UInt8.reduceToNat] at h
  omega

theorem opensFour_range {a b : UInt8} (h : opensFour a b = true) :
    0xf0 ≤ a.toNat ∧ a.toNat ≤ 0xf4 ∧ 0x80 ≤ b.toNat ∧ b.toNat ≤ 0xbf ∧
      (a.toNat = 0xf0 → 0x90 ≤ b.toNat) ∧ (a.toNat = 0xf4 → b.toNat ≤ 0x8f) := by
  simp only [opensFour, Bool.or_eq_true, Bool.and_eq_true, decide_eq_true_eq, isTail_iff,
    UInt8.le_iff_toNat_le, ← UInt8.toNat_inj, UInt8.reduceToNat] at h
  omega

theorem encodeRune_one {a : UInt8} (ha : a.toNat < 0x80) :
    encodeRune (.char (Char.ofNat a.toNat)) = [a] := by
  have value := toNat_ofNat (n := a.toNat) (.inl (by omega))
  simp only [encodeRune, encodeChar, String.utf8EncodeChar, value]
  rw [if_pos (by omega), ofNat_eq_byte rfl]

theorem encodeRune_two {a b : UInt8} (ha : 0xc2 ≤ a.toNat ∧ a.toNat ≤ 0xdf)
    (hb : 0x80 ≤ b.toNat ∧ b.toNat ≤ 0xbf) : encodeRune (point a.toNat 32 [b]) = [a, b] := by
  have value := toNat_ofNat (n := a.toNat % 32 * 64 + b.toNat % 64) (.inl (by omega))
  simp only [encodeRune, point, encodeChar, String.utf8EncodeChar, List.foldl_cons, List.foldl_nil,
    value]
  rw [if_neg (by omega), if_pos (by omega), ofNat_eq_byte (by omega : _ = a.toNat),
    ofNat_eq_byte (by omega : _ = b.toNat)]

theorem encodeRune_three {a b c : UInt8} (hab : opensThree a b = true)
    (hc : 0x80 ≤ c.toNat ∧ c.toNat ≤ 0xbf) : encodeRune (point a.toNat 16 [b, c]) = [a, b, c] := by
  have range := opensThree_range hab
  have value := toNat_ofNat (n := (a.toNat % 16 * 64 + b.toNat % 64) * 64 + c.toNat % 64)
    (by unfold Nat.isValidChar; omega)
  simp only [encodeRune, point, encodeChar, String.utf8EncodeChar, List.foldl_cons, List.foldl_nil,
    value]
  rw [if_neg (by omega), if_neg (by omega), if_pos (by omega),
    ofNat_eq_byte (by omega : _ = a.toNat), ofNat_eq_byte (by omega : _ = b.toNat),
    ofNat_eq_byte (by omega : _ = c.toNat)]

theorem encodeRune_four {a b c d : UInt8} (hab : opensFour a b = true)
    (hc : 0x80 ≤ c.toNat ∧ c.toNat ≤ 0xbf) (hd : 0x80 ≤ d.toNat ∧ d.toNat ≤ 0xbf) :
    encodeRune (point a.toNat 8 [b, c, d]) = [a, b, c, d] := by
  have range := opensFour_range hab
  have value := toNat_ofNat
    (n := ((a.toNat % 8 * 64 + b.toNat % 64) * 64 + c.toNat % 64) * 64 + d.toNat % 64)
    (by unfold Nat.isValidChar; omega)
  simp only [encodeRune, point, encodeChar, String.utf8EncodeChar, List.foldl_cons, List.foldl_nil,
    value]
  rw [if_neg (by omega), if_neg (by omega), if_neg (by omega),
    ofNat_eq_byte (by omega : _ = a.toNat), ofNat_eq_byte (by omega : _ = b.toNat),
    ofNat_eq_byte (by omega : _ = c.toNat), ofNat_eq_byte (by omega : _ = d.toNat)]

/-- A unit is written as the bytes that it was read from. -/
theorem encodeRune_unitAt (a : UInt8) (rest : Text) :
    encodeRune (unitAt a rest).1 = a :: rest.take (unitAt a rest).2 := by
  unfold unitAt
  split
  next ha => exact encodeRune_one (UInt8.lt_iff_toNat_lt.mp ha)
  next =>
    split
    next => rfl
    next b rest =>
      split
      next h =>
        simp only [Bool.and_eq_true, decide_eq_true_eq, UInt8.le_iff_toNat_le, isTail_iff] at h
        exact encodeRune_two h.1 h.2
      next =>
        split
        next => rfl
        next c rest =>
          split
          next h =>
            rw [Bool.and_eq_true, isTail_iff] at h
            exact encodeRune_three h.1 h.2
          next =>
            split
            next => rfl
            next d rest =>
              split
              next h =>
                rw [Bool.and_eq_true, Bool.and_eq_true, isTail_iff, isTail_iff] at h
                exact encodeRune_four h.1.1 h.1.2 h.2
              next => rfl

/-- The bytes of a character beyond ASCII are all beyond ASCII. -/
theorem bytes_encodeChar {c : Char} {b : UInt8} (h : b ∈ encodeChar c) :
    0x80 ≤ b.toNat ∨ c.toNat = b.toNat := by
  have hval : c.val.toNat = c.toNat := rfl
  have byte : ∀ n, (UInt8.ofNat n).toNat = n % 256 := fun n => UInt8.toNat_ofNat'
  simp only [encodeChar, String.utf8EncodeChar, hval] at h
  split at h
  next =>
    cases List.mem_singleton.mp h
    rw [byte]
    omega
  next =>
    left
    split at h
    next =>
      simp only [List.mem_cons, List.not_mem_nil, or_false] at h
      rcases h with rfl | rfl <;> rw [byte] <;> omega
    next =>
      split at h
      next =>
        simp only [List.mem_cons, List.not_mem_nil, or_false] at h
        rcases h with rfl | rfl | rfl <;> rw [byte] <;> omega
      next =>
        simp only [List.mem_cons, List.not_mem_nil, or_false] at h
        rcases h with rfl | rfl | rfl | rfl <;> rw [byte] <;> omega

theorem encode_decodeAfter (skip : Nat) (s : Text) :
    (decodeAfter skip s).flatMap encodeRune = s.drop skip := by
  induction s generalizing skip with
  | nil => simp [decodeAfter]
  | cons a rest ih =>
    cases skip with
    | succ skip => simpa [decodeAfter] using ih skip
    | zero =>
      simp only [decodeAfter, List.flatMap_cons, ih, encodeRune_unitAt, List.cons_append,
        List.take_append_drop, List.drop_zero]

theorem encode_decode (s : Text) : (decode s).flatMap encodeRune = s := encode_decodeAfter 0 s

/-- What is written for the runes of a valid text is written for its characters. -/
theorem flatMap_decode {s : Text} (h : isValid s = true) (f : Rune → Text) :
    (decode s).flatMap f = (toChars s).flatMap fun c => f (.char c) := by
  rw [toChars, List.flatMap_map]
  refine List.flatMap_congr fun r hr => ?_
  have valid := List.all_eq_true.mp h r hr
  cases r with
  | char c => rfl
  | stray b => cases valid

/-- A valid text is written as its characters. -/
theorem encode_toChars {s : Text} (h : isValid s = true) : (toChars s).flatMap encodeChar = s :=
  calc (toChars s).flatMap encodeChar
    _ = (decode s).flatMap encodeRune := (flatMap_decode h encodeRune).symm
    _ = s := encode_decode s

theorem encodeChar_lead (c : Char) : ∃ a t, encodeChar c = a :: t ∧ isTail a = false := by
  have byte : ∀ n, (UInt8.ofNat n).toNat = n % 256 := fun n => UInt8.toNat_ofNat'
  have lead : ∀ n, ¬ (0x80 ≤ n % 256 ∧ n % 256 ≤ 0xbf) → isTail (UInt8.ofNat n) = false := by
    intro n hn
    rw [← Bool.not_eq_true, isTail_iff, byte]
    exact hn
  simp only [encodeChar, String.utf8EncodeChar]
  split
  next => exact ⟨_, _, rfl, lead _ (by omega)⟩
  next =>
    split
    next => exact ⟨_, _, rfl, lead _ (by omega)⟩
    next =>
      split
      next => exact ⟨_, _, rfl, lead _ (by omega)⟩
      next => exact ⟨_, _, rfl, lead _ (by omega)⟩

theorem not_opens {a b : UInt8} (h : isTail b = false) :
    opensThree a b = false ∧ opensFour a b = false := by
  rw [← Bool.not_eq_true, isTail_iff] at h
  constructor
  · rw [← Bool.not_eq_true]
    intro hopens
    have range := opensThree_range hopens
    omega
  · rw [← Bool.not_eq_true]
    intro hopens
    have range := opensFour_range hopens
    omega

theorem unitAt_width (a : UInt8) (s : Text) : (unitAt a s).2 ≤ s.length := by
  unfold unitAt
  split
  next => exact Nat.zero_le _
  next =>
    split
    next => exact Nat.zero_le _
    next =>
      split
      next => simp
      next =>
        split
        next => exact Nat.zero_le _
        next =>
          split
          next => simp
          next =>
            split
            next => exact Nat.zero_le _
            next =>
              split
              next => simp
              next => exact Nat.zero_le _

/-- A unit ends before the next byte that is no continuation byte. -/
theorem unitAt_append {b : UInt8} (h : isTail b = false) (a : UInt8) (s t : Text) :
    unitAt a (s ++ b :: t) = unitAt a s := by
  unfold unitAt
  split
  next => rfl
  next =>
    rcases s with _ | ⟨c, _ | ⟨d, _ | ⟨e, s⟩⟩⟩
    · obtain ⟨hthree, hfour⟩ := @not_opens a b h
      rcases t with _ | ⟨u, _ | ⟨v, t⟩⟩ <;> simp [h, hthree, hfour]
    · cases t <;> simp [h]
    · simp [h]
    · rfl

theorem decodeAfter_append {b : UInt8} (h : isTail b = false) {skip : Nat} {s : Text}
    (hskip : skip ≤ s.length) (t : Text) :
    decodeAfter skip (s ++ b :: t) = decodeAfter skip s ++ decode (b :: t) := by
  induction s generalizing skip with
  | nil =>
    cases Nat.le_zero.mp hskip
    rfl
  | cons a s ih =>
    cases skip with
    | succ skip => exact ih (Nat.le_of_succ_le_succ hskip)
    | zero =>
      have hrest := ih (unitAt_width a s)
      rw [List.cons_append, decodeAfter, unitAt_append h, decodeAfter, List.cons_append]
      exact congrArg _ hrest

/-- Decoding splits before every byte that is no continuation byte. -/
theorem decode_append {b : UInt8} (h : isTail b = false) (s t : Text) :
    decode (s ++ b :: t) = decode s ++ decode (b :: t) :=
  decodeAfter_append h (Nat.zero_le _) t

end ScopedAggregation.Utf8
