import Mathlib.Algebra.Field.Rat
import Mathlib.Data.List.TakeWhile
import ScopedAggregation.Proofs.DecimalNumerals
import ScopedAggregation.Value.Plain
import ScopedAggregation.Yaml.Tag

namespace ScopedAggregation

/-- A run of elements of one kind ends where another kind begins. -/
theorem span_run {α : Type} {p : α → Bool} {w t : List α} (hw : ∀ b ∈ w, p b = true)
    (ht : ∀ b ∈ t.head?, p b = false) :
    (w ++ t).takeWhile p = w ∧ (w ++ t).dropWhile p = t := by
  rw [List.takeWhile_append_of_pos hw, List.dropWhile_append_of_pos hw]
  cases t with
  | nil => simp
  | cons b t =>
    have hb : p b = false := ht b rfl
    simp [hb]

/-- Every list begins with such a run. -/
theorem exists_span {α : Type} (p : α → Bool) (s : List α) :
    ∃ w t, s = w ++ t ∧ (∀ b ∈ w, p b = true) ∧ ∀ b ∈ t.head?, p b = false := by
  refine ⟨s.takeWhile p, s.dropWhile p, List.takeWhile_append_dropWhile.symm,
    fun b hb => List.mem_takeWhile_imp hb, ?_⟩
  intro b hb
  have hstop := List.head?_dropWhile_not p s
  rwa [Option.mem_def.mp hb] at hstop

theorem span_unique {α : Type} {p : α → Bool} {w t w' t' : List α} (hw : ∀ b ∈ w, p b = true)
    (ht : ∀ b ∈ t.head?, p b = false) (hw' : ∀ b ∈ w', p b = true)
    (ht' : ∀ b ∈ t'.head?, p b = false) (heq : w ++ t = w' ++ t') : w = w' ∧ t = t' := by
  obtain ⟨htake, hdrop⟩ := span_run hw ht
  obtain ⟨htake', hdrop'⟩ := span_run hw' ht'
  exact ⟨htake.symm.trans (heq ▸ htake'), hdrop.symm.trans (heq ▸ hdrop')⟩

namespace Yaml

open Numeral (digitValue? dropSign)

/-- A number as numerals give it: `± significand * 10 ^ exponent`, or a special one. -/
inductive Number where
  | finite (negative : Bool) (significand : Nat) (exponent : Int)
  | infinite (negative : Bool)
  | nan
deriving DecidableEq

/-- The double nearest to the number. -/
def Number.toDouble : Number → Double
  | .finite negative m e => Double.ofMagnitude negative (BinaryFormat.double.ofDecimal m e)
  | .infinite negative => Double.ofMagnitude negative .infinite
  | .nan => Double.nan

/-- The data holds the number: an integer is equal to it, a double is nearest to it. -/
def Number.HeldBy : Number → Plain → Prop
  | .finite negative m e, .int i => (i.toInt : ℚ) = (if negative then -(m : ℚ) else m) * 10 ^ e
  | v, .double x => x = v.toDouble
  | _, _ => False

/-- The text without its underscores. -/
def bare (s : Text) : Text := s.filter (· ≠ Ascii.underscore)

def isNegative (s : Text) : Bool := s.head? = some Ascii.minus

/-- A digit of the base. -/
def IsDigitOf (base : Nat) (b : UInt8) : Prop := ∃ d, digitValue? b = some d ∧ d < base

/-- The number that digits stand for behind others of the value `n`. -/
def valueFrom (base n : Nat) (ds : Text) : Nat :=
  ds.foldl (fun n b => n * base + (digitValue? b).getD 0) n

abbrev valueOf (base : Nat) (ds : Text) : Nat := valueFrom base 0 ds

/-- The letters that name a base behind a zero. -/
inductive NamesBase : UInt8 → Nat → Prop
  | binary {b : UInt8} (h : Ascii.lower b = 0x62) : NamesBase b 2
  | octal {b : UInt8} (h : Ascii.lower b = 0x6f) : NamesBase b 8
  | hexadecimal {b : UInt8} (h : Ascii.lower b = 0x78) : NamesBase b 16

/-- Whole numerals without a sign. A leading zero makes a numeral octal. -/
inductive WholeNumeral : Text → Nat → Prop
  | decimal {ds : Text} (given : ds ≠ []) (nonzero : ds.head? ≠ some Ascii.zero)
    (digits : ∀ b ∈ ds, IsDigitOf 10 b) : WholeNumeral ds (valueOf 10 ds)
  | octal {ds : Text} (digits : ∀ b ∈ ds, IsDigitOf 8 b) :
    WholeNumeral (Ascii.zero :: ds) (valueOf 8 ds)
  | marked {mark : UInt8} {base : Nat} {ds : Text} (named : NamesBase mark base) (given : ds ≠ [])
    (digits : ∀ b ∈ ds, IsDigitOf base b) : WholeNumeral (Ascii.zero :: mark :: ds) (valueOf base ds)

/-- The number fits into 64 bits behind the sign of the text, or unsigned if it has none. -/
def Fits (s : Text) (n : Nat) : Prop :=
  if isNegative s then n ≤ int64Bound
  else if s.head? = some Ascii.plus then n < int64Bound
  else n < 2 * int64Bound

/-- The text is a whole numeral of 64 bits. -/
def IsWhole (s : Text) : Prop := ∃ n, WholeNumeral (dropSign s) n ∧ Fits s n

/-- The exponent at the end of a decimal numeral. From ten thousand on its digits do not count. -/
inductive ExponentPart : Text → Int → Prop
  | none : ExponentPart [] 0
  | some {mark : UInt8} {t : Text} (letter : Ascii.lower mark = 0x65) (given : dropSign t ≠ [])
    (digits : ∀ b ∈ dropSign t, IsDigitOf 10 b) :
    ExponentPart (mark :: t) (if isNegative t then -((Numeral.exponentDigits 0 (dropSign t)).1 : Int)
      else (Numeral.exponentDigits 0 (dropSign t)).1)

/-- Decimal numerals without a sign: significand and exponent. -/
inductive DecimalNumeral : Text → Nat → Int → Prop
  | integral {whole tail : Text} {e : Int} (given : whole ≠ [])
    (digits : ∀ b ∈ whole, IsDigitOf 10 b) (exponent : ExponentPart tail e) :
    DecimalNumeral (whole ++ tail) (valueOf 10 whole) e
  | pointed {whole fraction tail : Text} {e : Int} (given : whole ++ fraction ≠ [])
    (digits : ∀ b ∈ whole ++ fraction, IsDigitOf 10 b) (exponent : ExponentPart tail e) :
    DecimalNumeral (whole ++ Ascii.dot :: (fraction ++ tail)) (valueOf 10 (whole ++ fraction))
      (e - fraction.length)

/-- The text begins with a digit or a sign. -/
def LeadsNumber (s : Text) : Prop :=
  ∃ b t, s = b :: t ∧ (Ascii.isDigit b = true ∨ b = Ascii.plus ∨ b = Ascii.minus)

/-- The words for infinity, for its negative, and for what is no number. -/
def numberWords : List (Text × Number) :=
  ([".inf", ".Inf", ".INF", "+.inf", "+.Inf", "+.INF"].map fun w => (text w, .infinite false)) ++
    (["-.inf", "-.Inf", "-.INF"].map fun w => (text w, .infinite true)) ++
    ([".nan", ".NaN", ".NAN"].map fun w => (text w, .nan))

abbrev IsWord (s : Text) : Prop := s ∈ numberWords.map Prod.fst

/-- A sign may stand behind the mark of a base. -/
structure IsSignedDigits (mark : UInt8) (base : Nat) (s : Text) (sign : UInt8) (t : Text) : Prop where
  eq : s = Ascii.zero :: mark :: sign :: t
  signed : sign = Ascii.plus ∨ sign = Ascii.minus
  given : t ≠ []
  digits : ∀ b ∈ t, IsDigitOf base b
  fits : Fits (sign :: t) (valueOf base t)

/-- The number that a text denotes, a whole one or a floating-point one. -/
inductive Denotes : Text → ScalarKind → Number → Prop
  | whole {s : Text} {n : Nat} (leads : LeadsNumber s) (h : WholeNumeral (dropSign (bare s)) n)
    (fits : Fits (bare s) n) : Denotes s .int (.finite (isNegative (bare s)) n 0)
  | binaryDigits {s t : Text} {sign : UInt8} (leads : LeadsNumber s)
    (h : IsSignedDigits 0x62 2 (bare s) sign t) :
    Denotes s .int (.finite (sign = Ascii.minus) (valueOf 2 t) 0)
  | octalDigits {s t : Text} {sign : UInt8} (leads : LeadsNumber s)
    (h : IsSignedDigits 0x6f 8 (bare s) sign t) :
    Denotes s .int (.finite (sign = Ascii.minus) (valueOf 8 t) 0)
  | decimal {s : Text} {m : Nat} {e : Int} (leads : LeadsNumber s) (other : ¬ IsWhole (bare s))
    (h : DecimalNumeral (dropSign (bare s)) m e)
    (finite : BinaryFormat.double.ofDecimal m e ≠ .infinite) :
    Denotes s .float (.finite (isNegative (bare s)) m e)
  | pointed {s t : Text} {m : Nat} {e : Int} (leads : s = Ascii.dot :: t)
    (fits : Ascii.underscore ∈ s → Numeral.underscoresFit s = true) (h : DecimalNumeral (bare s) m e)
    (finite : BinaryFormat.double.ofDecimal m e ≠ .infinite) : Denotes s .float (.finite false m e)
  | word {s : Text} {v : Number} (h : (s, v) ∈ numberWords) : Denotes s .float v

section Digits

variable {base n : Nat} {b : UInt8} {ds : Text}

@[simp] theorem valueFrom_nil : valueFrom base n [] = n := rfl

theorem valueFrom_cons {d : Nat} (h : digitValue? b = some d) :
    valueFrom base n (b :: ds) = valueFrom base (n * base + d) ds := by
  rw [valueFrom, List.foldl_cons, h]
  rfl

theorem digitValue?_of_isDigit (h : Ascii.isDigit b = true) :
    digitValue? b = some (Ascii.digitValue b) := if_pos h

theorem isDigit_iff : Ascii.isDigit b = true ↔ IsDigitOf 10 b := by
  unfold IsDigitOf digitValue?
  constructor
  · intro h
    refine ⟨b.toNat - 0x30, if_pos h, ?_⟩
    simp only [Ascii.isDigit, Bool.and_eq_true, decide_eq_true_eq, UInt8.le_iff_toNat_le] at h
    have hle : b.toNat ≤ 57 := h.2
    omega
  · rintro ⟨d, hd, hlt⟩
    split at hd
    next h => exact h
    next =>
      split at hd
      next =>
        cases hd
        omega
      next => cases hd

theorem IsDigitOf.mono {other : Nat} (h : IsDigitOf base b) (hle : base ≤ other) :
    IsDigitOf other b := by
  obtain ⟨d, hd, hlt⟩ := h
  exact ⟨d, hd, by omega⟩

/-- A byte that is no digit of any base. -/
theorem not_isDigitOf (h : digitValue? b = none) : ¬ IsDigitOf base b := by
  rintro ⟨d, hd, -⟩
  rw [h] at hd
  cases hd

theorem le_valueFrom (hbase : 0 < base) : n ≤ valueFrom base n ds := by
  induction ds generalizing n with
  | nil => exact Nat.le_refl n
  | cons b ds ih =>
    refine Nat.le_trans ?_ ih
    exact Nat.le_trans (Nat.le_mul_of_pos_right n hbase) (Nat.le_add_right _ _)

/-- The value of decimal digits. -/
theorem valueOf_ten (h : ∀ b ∈ ds, Ascii.isDigit b = true) : valueOf 10 ds = Text.digitsValue ds := by
  refine List.foldl_ext _ _ _ ?_
  intro n b hb
  rw [digitValue?_of_isDigit (h b hb), Option.getD_some]

end Digits

section Bare

variable {s t : Text} {b : UInt8}

theorem bare_append : bare (s ++ t) = bare s ++ bare t := List.filter_append s t

theorem bare_cons (h : b ≠ Ascii.underscore) : bare (b :: s) = b :: bare s :=
  List.filter_cons_of_pos (by simpa using h)

theorem bare_underscore : bare (Ascii.underscore :: s) = bare s := rfl

theorem bare_eq_self (h : Ascii.underscore ∉ s) : bare s = s := by
  refine List.filter_eq_self.mpr ?_
  intro b hb
  refine decide_eq_true ?_
  rintro rfl
  exact h hb

theorem mem_bare : b ∈ bare s ↔ b ∈ s ∧ b ≠ Ascii.underscore := by
  simp [bare]

theorem not_mem_bare : Ascii.underscore ∉ bare s := fun h => (mem_bare.mp h).2 rfl

theorem bare_bare : bare (bare s) = bare s :=
  bare_eq_self not_mem_bare

theorem dropSign_unsigned (hplus : b ≠ Ascii.plus) (hminus : b ≠ Ascii.minus) :
    dropSign (b :: s) = b :: s := by
  unfold dropSign
  split
  next heq => exact absurd (List.cons.inj heq).1 hplus
  next heq => exact absurd (List.cons.inj heq).1 hminus
  next => rfl

/-- A text is a sign, or none, and what is left of it. -/
theorem sign_or (s : Text) :
    (∃ sign, (sign = Ascii.plus ∨ sign = Ascii.minus) ∧ s = sign :: dropSign s) ∨ dropSign s = s := by
  unfold dropSign
  split
  · exact .inl ⟨0x2b, .inl rfl, rfl⟩
  · exact .inl ⟨0x2d, .inr rfl, rfl⟩
  · exact .inr rfl

theorem dropSign_of_unsigned (hminus : ¬ isNegative s = true) (hplus : s.head? ≠ some Ascii.plus) :
    dropSign s = s := by
  cases s with
  | nil => rfl
  | cons b s => exact dropSign_unsigned (by simpa using hplus) (by simpa [isNegative] using hminus)

theorem dropSign_suffix (s : Text) : dropSign s <:+ s := by
  rcases sign_or s with ⟨sign, -, heq⟩ | heq
  · exact ⟨[sign], heq.symm⟩
  · exact ⟨[], heq⟩

/-- Underscores may go before the sign or after it, if none leads. -/
theorem bare_dropSign (h : s.head? ≠ some Ascii.underscore) :
    bare (dropSign s) = dropSign (bare s) := by
  cases s with
  | nil => rfl
  | cons b s =>
    have hb : b ≠ Ascii.underscore := by simpa using h
    rw [bare_cons hb]
    by_cases hplus : b = Ascii.plus
    · rw [hplus]
      rfl
    by_cases hminus : b = Ascii.minus
    · rw [hminus]
      rfl
    rw [dropSign_unsigned hplus hminus, dropSign_unsigned hplus hminus, bare_cons hb]

theorem isNegative_bare (h : s.head? ≠ some Ascii.underscore) :
    isNegative (bare s) = isNegative s := by
  cases s with
  | nil => rfl
  | cons b s =>
    rw [bare_cons (by simpa using h)]
    rfl

end Bare

section Decimal

variable {u tail : Text} {m m' : Nat} {e e' : Int}

theorem isDigit_of_digits {ds : Text} (h : ∀ b ∈ ds, IsDigitOf 10 b) :
    ∀ b ∈ ds, Ascii.isDigit b = true :=
  fun b hb => isDigit_iff.mpr (h b hb)

/-- A letter is no digit, in either case. -/
theorem isDigit_lower (b : UInt8) : Ascii.isDigit (Ascii.lower b) = Ascii.isDigit b := by
  unfold Ascii.lower
  split
  next h =>
    simp only [Ascii.isUpper, Bool.and_eq_true, decide_eq_true_eq, UInt8.le_iff_toNat_le] at h
    have hlow : 65 ≤ b.toNat := h.1
    have hhigh : b.toNat ≤ 90 := h.2
    have hsum : (b + 0x20).toNat = b.toNat + 32 := by
      rw [UInt8.toNat_add]
      exact Nat.mod_eq_of_lt (by simp; omega)
    have hnine : (0x39 : UInt8).toNat = 57 := rfl
    simp only [Ascii.isDigit, UInt8.le_iff_toNat_le, hsum, hnine]
    have habove : ¬ b.toNat ≤ 57 := by omega
    have hlower : ¬ b.toNat + 32 ≤ 57 := by omega
    simp [habove, hlower]
  next => rfl

theorem not_isDigit_of_mark {b c : UInt8} (h : Ascii.lower b = c) (hc : Ascii.isDigit c = false) :
    Ascii.isDigit b = false := by
  rw [← isDigit_lower, h, hc]

theorem ExponentPart.head (h : ExponentPart tail e) :
    ∀ b ∈ tail.head?, Ascii.isDigit b = false ∧ b ≠ Ascii.dot ∧ b ≠ Ascii.underscore := by
  cases h with
  | none => simp
  | @some mark t letter =>
    have hplain : ∀ c, Ascii.lower c ≠ 0x65 → mark ≠ c := by
      rintro c hc rfl
      exact hc letter
    intro b hb
    cases Option.some.inj hb
    exact ⟨not_isDigit_of_mark letter rfl, hplain _ (by decide), hplain _ (by decide)⟩

theorem ExponentPart.unique (h : ExponentPart tail e) (h' : ExponentPart tail e') : e = e' := by
  cases h with
  | none =>
    cases h'
    rfl
  | some =>
    cases h'
    rfl

/-- A decimal numeral has one significand and one exponent. -/
theorem DecimalNumeral.unique (h : DecimalNumeral u m e) (h' : DecimalNumeral u m' e') :
    m = m' ∧ e = e' := by
  have hdot : ∀ (t : Text), ∀ b ∈ (Ascii.dot :: t).head?, Ascii.isDigit b = false := by
    intro t b hb
    cases Option.some.inj hb
    rfl
  generalize hu : u = u' at h'
  cases h with
  | integral _ digits exponent =>
    have hdigits := isDigit_of_digits digits
    cases h' with
    | integral _ digits' exponent' =>
      obtain ⟨rfl, rfl⟩ := span_unique hdigits (fun b hb => (exponent.head b hb).1)
        (isDigit_of_digits digits') (fun b hb => (exponent'.head b hb).1) hu
      exact ⟨rfl, exponent.unique exponent'⟩
    | @pointed whole fraction _ _ _ digits' =>
      have hdigits' := isDigit_of_digits fun b hb => digits' b (List.mem_append_left fraction hb)
      obtain ⟨-, rfl⟩ := span_unique hdigits (fun b hb => (exponent.head b hb).1) hdigits'
        (hdot _) hu
      exact absurd rfl (exponent.head Ascii.dot rfl).2.1
  | @pointed _ fraction _ _ _ digits exponent =>
    have hdigits := isDigit_of_digits fun b hb => digits b (List.mem_append_left fraction hb)
    have hfraction := isDigit_of_digits fun b hb => digits b (List.mem_append_right _ hb)
    cases h' with
    | integral _ digits' exponent' =>
      obtain ⟨-, rfl⟩ := span_unique hdigits (hdot _) (isDigit_of_digits digits')
        (fun b hb => (exponent'.head b hb).1) hu
      exact absurd rfl (exponent'.head Ascii.dot rfl).2.1
    | @pointed _ fraction' _ _ _ digits' exponent' =>
      have hdigits' := isDigit_of_digits fun b hb => digits' b (List.mem_append_left fraction' hb)
      have hfraction' := isDigit_of_digits fun b hb => digits' b (List.mem_append_right _ hb)
      obtain ⟨rfl, hrest⟩ := span_unique hdigits (hdot _) hdigits' (hdot _) hu
      obtain ⟨rfl, rfl⟩ := span_unique hfraction (fun b hb => (exponent.head b hb).1) hfraction'
        (fun b hb => (exponent'.head b hb).1) (List.cons.inj hrest).2
      rw [exponent.unique exponent']
      exact ⟨rfl, rfl⟩

/-- A decimal numeral begins with a digit or with its point. -/
theorem DecimalNumeral.head (h : DecimalNumeral u m e) :
    ∃ b t, u = b :: t ∧ (Ascii.isDigit b = true ∨ b = Ascii.dot) := by
  cases h with
  | @integral whole tail _ given digits =>
    cases whole with
    | nil => exact absurd rfl given
    | cons b w => exact ⟨b, w ++ tail, rfl, .inl (isDigit_iff.mpr (digits b (by simp)))⟩
  | @pointed whole fraction tail _ given digits =>
    cases whole with
    | nil => exact ⟨Ascii.dot, _, rfl, .inr rfl⟩
    | cons b w => exact ⟨b, _, rfl, .inl (isDigit_iff.mpr (digits b (by simp)))⟩

/-- The bytes of decimal numerals. -/
def IsDecimalByte (b : UInt8) : Prop :=
  Ascii.isDigit b = true ∨ b = Ascii.dot ∨ Ascii.lower b = 0x65 ∨ b = Ascii.plus ∨ b = Ascii.minus

instance (b : UInt8) : Decidable (IsDecimalByte b) := by
  unfold IsDecimalByte
  infer_instance

theorem forall_mem_of_dropSign {p : UInt8 → Prop} {s : Text} (hplus : p Ascii.plus)
    (hminus : p Ascii.minus) (h : ∀ b ∈ dropSign s, p b) : ∀ b ∈ s, p b := by
  rcases sign_or s with ⟨sign, hsign, heq⟩ | heq
  · intro b hb
    rw [heq] at hb
    rcases List.mem_cons.mp hb with rfl | hb
    · rcases hsign with rfl | rfl
      · exact hplus
      · exact hminus
    · exact h b hb
  · rwa [heq] at h

theorem ExponentPart.bytes (h : ExponentPart tail e) : ∀ b ∈ tail, IsDecimalByte b := by
  cases h with
  | none => simp
  | some letter _ digits =>
    refine List.forall_mem_cons.mpr ⟨.inr (.inr (.inl letter)), ?_⟩
    refine forall_mem_of_dropSign (.inr (.inr (.inr (.inl rfl)))) (.inr (.inr (.inr (.inr rfl)))) ?_
    exact fun b hb => .inl (isDigit_iff.mpr (digits b hb))

theorem DecimalNumeral.bytes (h : DecimalNumeral u m e) : ∀ b ∈ u, IsDecimalByte b := by
  cases h with
  | integral _ digits exponent =>
    exact List.forall_mem_append.mpr
      ⟨fun b hb => .inl (isDigit_iff.mpr (digits b hb)), exponent.bytes⟩
  | @pointed whole fraction _ _ _ digits exponent =>
    have hdigits : ∀ b ∈ whole ++ fraction, IsDecimalByte b :=
      fun b hb => .inl (isDigit_iff.mpr (digits b hb))
    obtain ⟨hwhole, hfraction⟩ := List.forall_mem_append.mp hdigits
    refine List.forall_mem_append.mpr ⟨hwhole, List.forall_mem_cons.mpr ⟨.inr (.inl rfl), ?_⟩⟩
    exact List.forall_mem_append.mpr ⟨hfraction, exponent.bytes⟩

end Decimal

section Whole

variable {u : Text} {n : Nat} {b : UInt8}

theorem NamesBase.base_pos {base : Nat} (h : NamesBase b base) : 0 < base ∧ base ≤ 16 := by
  cases h <;> decide

theorem NamesBase.not_decimal {base : Nat} (h : NamesBase b base) : ¬ IsDecimalByte b := by
  have hmark : Ascii.lower b = 0x62 ∨ Ascii.lower b = 0x6f ∨ Ascii.lower b = 0x78 := by
    cases h with
    | binary h => exact .inl h
    | octal h => exact .inr (.inl h)
    | hexadecimal h => exact .inr (.inr h)
  rintro (hdigit | rfl | hletter | rfl | rfl)
  · rw [← isDigit_lower] at hdigit
    rcases hmark with h | h | h
    all_goals
      rw [h] at hdigit
      cases hdigit
  · revert hmark
    decide
  · rw [hletter] at hmark
    revert hmark
    decide
  · revert hmark
    decide
  · revert hmark
    decide

/-- A whole numeral begins with a digit. -/
theorem WholeNumeral.head (h : WholeNumeral u n) : ∃ b t, u = b :: t ∧ Ascii.isDigit b = true := by
  cases h with
  | decimal given _ digits =>
    cases u with
    | nil => exact absurd rfl given
    | cons b t => exact ⟨b, t, rfl, isDigit_iff.mpr (digits b (by simp))⟩
  | octal => exact ⟨_, _, rfl, rfl⟩
  | marked => exact ⟨_, _, rfl, rfl⟩

/-- A whole numeral that is no decimal one names its base by a letter. -/
theorem WholeNumeral.digits_or_marked (h : WholeNumeral u n) :
    (∀ b ∈ u, Ascii.isDigit b = true) ∨
      ∃ mark base ds, NamesBase mark base ∧ u = Ascii.zero :: mark :: ds := by
  cases h with
  | decimal _ _ digits => exact .inl (isDigit_of_digits digits)
  | octal digits =>
    refine .inl (List.forall_mem_cons.mpr ⟨rfl, ?_⟩)
    exact isDigit_of_digits fun b hb => (digits b hb).mono (by decide)
  | @marked mark base ds named => exact .inr ⟨mark, base, ds, named, rfl⟩

end Whole

end Yaml

end ScopedAggregation
