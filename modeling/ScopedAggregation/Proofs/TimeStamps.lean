import ScopedAggregation.Proofs.DecimalNumerals
import ScopedAggregation.Proofs.Calendar

namespace ScopedAggregation

namespace Text

theorem digitsValue_zeros (k : Nat) (ds : Text) :
    digitsValue (List.replicate k Ascii.zero ++ ds) = digitsValue ds := by
  have zeros : (List.replicate k Ascii.zero).foldl (fun n d => n * 10 + Ascii.digitValue d) 0 = 0 := by
    induction k with
    | zero => rfl
    | succ k ih => simpa [List.replicate_succ, Ascii.digitValue, Ascii.zero] using ih
  rw [digitsValue, List.foldl_append, zeros, digitsValue]

/-- Only such bytes are dropped from the end. -/
theorem dropEndWhile_append (b : UInt8) (s : Text) :
    ∃ k, s = dropEndWhile (· = b) s ++ List.replicate k b := by
  have dropped : s.reverse.takeWhile (· = b) =
      List.replicate (s.reverse.takeWhile (· = b)).length b := by
    refine List.eq_replicate_of_mem fun a ha => ?_
    simpa using List.mem_takeWhile_imp ha
  refine ⟨(s.reverse.takeWhile (· = b)).length, ?_⟩
  rw [dropEndWhile, ← List.reverse_replicate, ← dropped, ← List.reverse_append,
    List.takeWhile_append_dropWhile, List.reverse_reverse]

end Text

namespace Instant

open Calendar (Date)

/-- Digits of the given number that denote a number. -/
structure IsNumeral (width n : Nat) (ds : Text) : Prop where
  length_eq : ds.length = width
  digits : ∀ b ∈ ds, Ascii.isDigit b = true
  value : Text.digitsValue ds = n

theorem isNumeral_padded {width n : Nat} (positive : 0 < width) (h : n < 10 ^ width) :
    IsNumeral width n (padded width n) where
  length_eq := by
    have := Text.length_ofNat_le positive h
    simp only [padded, List.length_append, List.length_replicate]
    omega
  digits := by
    intro b hb
    rcases List.mem_append.mp hb with hb | hb
    · rw [List.eq_of_mem_replicate hb]
      decide
    · exact Text.isDigit_of_mem_ofNat hb
  value := by rw [padded, Text.digitsValue_zeros, Text.digitsValue_ofNat]

theorem readPair_numeral {n : Nat} {ds : Text} (h : IsNumeral 2 n ds) (fixed : Bool) (rest : Text) :
    readPair fixed (ds ++ rest) = some (n, rest) := by
  obtain ⟨a, b, rfl⟩ := List.length_eq_two.mp h.length_eq
  have ha := h.digits a (by simp)
  have hb := h.digits b (by simp)
  have value := h.value
  simp only [Text.digitsValue, List.foldl_cons, List.foldl_nil, Nat.zero_mul, Nat.zero_add] at value
  simp [readPair, ha, hb, value]

theorem expect_cons (b : UInt8) (rest : Text) : expect b (b :: rest) = some rest := if_pos rfl

theorem readDate_numerals {d : Date} {year month day : Text} (valid : d.isValid = true)
    (positive : 0 ≤ d.year) (hyear : IsNumeral 4 d.year.toNat year) (hmonth : IsNumeral 2 d.month month)
    (hday : IsNumeral 2 d.day day) (rest : Text) :
    readDate true (year ++ Ascii.minus :: (month ++ Ascii.minus :: (day ++ rest))) =
      some (d, rest) := by
  have taken : ∀ more, (year ++ more).take 4 = year := fun _ => List.take_left' hyear.length_eq
  have left : ∀ more, (year ++ more).drop 4 = more := fun _ => List.drop_left' hyear.length_eq
  have shown : (⟨(d.year.toNat : Int), d.month, d.day⟩ : Date) = d := by
    rw [Int.toNat_of_nonneg positive]
  simp only [readDate, taken, left, hyear.length_eq, List.all_eq_true.mpr hyear.digits, ne_eq,
    not_true_eq_false, decide_false, Bool.not_true, Bool.or_self, Bool.false_eq_true, if_false,
    Option.bind_eq_bind, Option.bind_some, expect_cons, readPair_numeral hmonth,
    readPair_numeral hday, hyear.value, shown, valid, if_true]

theorem readFraction_digits {ds : Text} (h : ∀ b ∈ ds, Ascii.isDigit b = true) :
    readFraction ((if ds.isEmpty then [] else Ascii.dot :: ds) ++ [0x5a]) = (ds, [0x5a]) := by
  cases ds with
  | nil => rfl
  | cons d ds =>
    obtain ⟨hd, hds⟩ := List.forall_mem_cons.mp h
    have taken : (ds ++ [0x5a]).takeWhile Ascii.isDigit = ds := by
      rw [List.takeWhile_append_of_pos hds]
      simp [Ascii.isDigit]
    have left : (ds ++ [0x5a]).dropWhile Ascii.isDigit = [0x5a] := by
      rw [List.dropWhile_append_of_pos hds]
      rfl
    simp [readFraction, hd, taken, left]

/-- The zeros that a fraction is written without are taken as read. -/
theorem fraction_filled {n : Nat} {ds : Text} (h : IsNumeral 9 n ds) :
    Text.digitsValue
      ((Text.dropEndWhile (· = Ascii.zero) ds ++ List.replicate 9 Ascii.zero).take 9) = n := by
  obtain ⟨k, hk⟩ := Text.dropEndWhile_append Ascii.zero ds
  generalize Text.dropEndWhile (· = Ascii.zero) ds = kept at hk ⊢
  have length := h.length_eq
  rw [hk, List.length_append, List.length_replicate] at length
  have filled : (kept ++ List.replicate 9 Ascii.zero).take 9 = ds := by
    rw [List.take_append, List.take_of_length_le (by omega), List.take_replicate, hk]
    congr 2
    omega
  rw [filled, h.value]

theorem readClock_numerals {hour minute second fraction : Nat} {h m s f digits : Text}
    (hhour : IsNumeral 2 hour h) (hminute : IsNumeral 2 minute m) (hsecond : IsNumeral 2 second s)
    (hfraction : IsNumeral 9 fraction f) (hdigits : Text.dropEndWhile (· = Ascii.zero) f = digits)
    (range : hour < 24 ∧ minute < 60 ∧ second < 60) :
    readClock true (h ++ Ascii.colon :: (m ++ Ascii.colon ::
        (s ++ ((if digits.isEmpty then [] else Ascii.dot :: digits) ++ [0x5a])))) =
      some (((hour * 60 + minute) * 60 + second) * 1000000000 + fraction, [0x5a]) := by
  have filled := fraction_filled hfraction
  rw [hdigits] at filled
  have kept : ∀ b ∈ digits, Ascii.isDigit b = true := by
    intro b hb
    obtain ⟨k, hk⟩ := Text.dropEndWhile_append Ascii.zero f
    rw [hdigits] at hk
    exact hfraction.digits b (by rw [hk]; exact List.mem_append_left _ hb)
  simp only [readClock, Option.bind_eq_bind, Option.bind_some, expect_cons, readPair_numeral hhour,
    readPair_numeral hminute, readPair_numeral hsecond, readFraction_digits kept, filled, range,
    decide_true, Bool.and_self, if_true]

theorem nanos_eq (t : Instant) : t.nanos = t.seconds * 1000000000 + t.fraction ∧
    t.fraction < 10 ^ 9 := by
  have floor : t.seconds = t.nanos / 1000000000 := Int.fdiv_eq_ediv_of_nonneg _ (by decide)
  simp only [fraction, floor]
  omega

theorem seconds_eq (t : Instant) : t.seconds = t.seconds.fdiv 86400 * 86400 + t.secondOfDay ∧
    t.secondOfDay < 86400 := by
  have floor : t.seconds.fdiv 86400 = t.seconds / 86400 := Int.fdiv_eq_ediv_of_nonneg _ (by decide)
  simp only [secondOfDay, floor]
  omega

theorem isValid_range {d : Date} (h : d.isValid = true) : d.month < 10 ^ 2 ∧ d.day < 10 ^ 2 := by
  have most : Calendar.daysIn d.month d.year ≤ 31 := by
    unfold Calendar.daysIn
    split
    · split <;> decide
    · split <;> decide
  simp only [Date.isValid, Bool.and_eq_true, decide_eq_true_eq] at h
  omega

/-- A moment is read back from its exact stamp. -/
theorem read_exactStamp {t : Instant} (h : t.hasStamp = true) : read t.exactStamp = some t := by
  simp only [hasStamp, Bool.and_eq_true, decide_eq_true_eq] at h
  have valid : t.date.isValid = true := Calendar.isValid_ofDays _
  obtain ⟨hmonth, hday⟩ := isValid_range valid
  obtain ⟨hnanos, hfraction⟩ := t.nanos_eq
  obtain ⟨hseconds, hsecond⟩ := t.seconds_eq
  have pair : ∀ n, n < 10 ^ 2 → IsNumeral 2 n (padded 2 n) := fun n => isNumeral_padded (by decide)
  have year : writeYear t.date.year = padded 4 t.date.year.toNat := if_neg (by omega)
  have date := readDate_numerals valid h.1 (isNumeral_padded (by decide) (by omega))
    (pair _ hmonth) (pair _ hday)
  have clock := readClock_numerals (pair (t.secondOfDay / 3600) (by omega))
    (pair (t.secondOfDay / 60 % 60) (by omega)) (pair (t.secondOfDay % 60) (by omega))
    (isNumeral_padded (by decide) hfraction) rfl (by omega)
  have days : t.date.toDays - Calendar.epochDays = t.seconds.fdiv 86400 := by
    rw [Instant.date, Calendar.toDays_ofDays]
    omega
  simp only [read, exactStamp, write, year, List.append_assoc, List.cons_append,
    List.nil_append, date, Option.bind_eq_bind, Option.bind_some, expect_cons, clock, readZone, days]
  refine congrArg (fun n => some (Instant.mk n)) ?_
  omega

end Instant

end ScopedAggregation
