import ScopedAggregation.Proofs.NumberGrammar
import ScopedAggregation.Proofs.Success

namespace ScopedAggregation

namespace BinaryFormat

theorem le_of_infinite {f : BinaryFormat} {rounded : Nat × Int}
    (h : (if f.maxExponent < rounded.2 then Magnitude.infinite else .finite rounded.1 rounded.2) =
      .infinite) : f.maxExponent < rounded.2 := by
  split at h
  next hover => exact hover
  next => cases h

/-- Only a ratio of about the largest exponent is rounded to infinity. -/
theorem round_infinite {f : BinaryFormat} {num den : Nat} (h : f.round num den = .infinite) :
    f.maxExponent < max ((num.log2 : Int) - den.log2 - f.precision) f.minExponent + 1 + 1 := by
  have hcarry : ∀ (c : Prop) [Decidable c] (m m' : Nat) (e : Int),
      (if c then (m, e + 1) else (m', e)).2 ≤ e + 1 := by
    intro c _ m m' e
    split
    · exact Int.le_refl _
    · exact Int.le_add_one (Int.le_refl e)
  have hstep : ∀ (c : Prop) [Decidable c] (low : Int), (if c then low + 1 else low) ≤ low + 1 := by
    intro c _ low
    split
    · exact Int.le_refl _
    · exact Int.le_add_one (Int.le_refl low)
  unfold round at h
  split at h
  next => cases h
  next =>
    have hover := le_of_infinite h
    dsimp only at hover
    exact Int.lt_of_lt_of_le hover ((hcarry _ _ _ _).trans (Int.add_le_add_right (hstep _ _) 1))

/-- A whole number of 64 bits is not too large for a double. -/
theorem ofDecimal_whole {n : Nat} (h : n < 2 * int64Bound) : double.ofDecimal n 0 ≠ .infinite := by
  intro heq
  unfold ofDecimal at heq
  dsimp only at heq
  split at heq
  next => cases heq
  next hn =>
    have hlog : n.log2 < 64 := (Nat.log2_lt hn).mpr h
    split at heq
    next hdecade => omega
    next =>
      split at heq
      next => cases heq
      next =>
        have hratio : decimalRatio n 0 = (n, 1) := by simp [decimalRatio, tenPow]
        rw [hratio] at heq
        have hround := round_infinite heq
        have hone : Nat.log2 1 = 0 := by decide
        simp only [double, hone] at hround
        omega
end BinaryFormat

namespace Numeral

open Yaml

section Digits

variable {base limit n k : Nat} {s ds rest : Text} {acc sig : Significand}

theorem accumulate_cons {underscores : Bool} {b : UInt8} {d : Nat} (hb : b ≠ Ascii.underscore)
    (hd : digitValue? b = some d) (hlt : d < base) :
    accumulate base limit underscores n (b :: s) =
      if limit < n * base + d then .error .outOfRange
      else accumulate base limit underscores (n * base + d) s := by
  rw [accumulate, decide_eq_false hb, Bool.and_false, if_neg Bool.false_ne_true, hd]
  dsimp only
  rw [if_neg (by omega)]

/-- Digits are added up unless they pass the limit. -/
theorem accumulate_eq_ok {underscores : Bool} (hbase : 0 < base) (hn : n ≤ limit)
    (hs : Ascii.underscore ∉ s) :
    accumulate base limit underscores n s = .ok k ↔
      (∀ b ∈ s, IsDigitOf base b) ∧ valueFrom base n s = k ∧ k ≤ limit := by
  induction s generalizing n with
  | nil =>
    simp only [accumulate, Except.ok.injEq, valueFrom_nil]
    constructor
    · rintro rfl
      exact ⟨by simp, rfl, hn⟩
    · exact fun h => h.2.1
  | cons b s ih =>
    have hb : b ≠ Ascii.underscore := Ne.symm (List.ne_of_not_mem_cons hs)
    have hs : Ascii.underscore ∉ s := List.not_mem_of_not_mem_cons hs
    by_cases hdigit : IsDigitOf base b
    · obtain ⟨d, hd, hlt⟩ := hdigit
      rw [accumulate_cons hb hd hlt, valueFrom_cons hd, List.forall_mem_cons]
      by_cases hover : limit < n * base + d
      · rw [if_pos hover]
        constructor
        · exact fun h => nomatch h
        · rintro ⟨-, rfl, hle⟩
          have := @le_valueFrom base (n * base + d) s hbase
          omega
      · rw [if_neg hover, ih (by omega) hs]
        have hfirst : IsDigitOf base b := ⟨d, hd, hlt⟩
        simp only [hfirst, true_and]
    · constructor
      · intro h
        exfalso
        rw [accumulate, decide_eq_false hb, Bool.and_false, if_neg Bool.false_ne_true] at h
        split at h
        next => cases h
        next d hd =>
          rw [if_pos (Nat.le_of_not_lt fun hlt => hdigit ⟨d, hd, hlt⟩)] at h
          cases h
      · exact fun h => absurd (h.1 b List.mem_cons_self) hdigit

end Digits

section Whole

variable {n : Nat} {s : Text} {b : UInt8}

theorem detectBase_unmarked (h : s.head? ≠ some Ascii.zero) : detectBase s = (10, s) := by
  unfold detectBase
  split
  next => exact absurd rfl h
  next => exact absurd rfl h
  next => rfl

theorem detectBase_marked {mark c : UInt8} {base : Nat} {rest : Text} (named : NamesBase mark base) :
    detectBase (Ascii.zero :: mark :: c :: rest) = (base, c :: rest) := by
  cases named with
  | binary h => simp [detectBase, h]
  | octal h => simp [detectBase, h]
  | hexadecimal h => simp [detectBase, h]

/-- A leading zero names base eight, unless a mark stands behind it. -/
theorem detectBase_zero (s : Text) : detectBase (Ascii.zero :: s) = (8, s) ∨
    ∃ mark base c rest, NamesBase mark base ∧ s = mark :: c :: rest ∧
      detectBase (Ascii.zero :: s) = (base, c :: rest) := by
  cases s with
  | nil => exact .inl rfl
  | cons mark s =>
    cases s with
    | nil => exact .inl rfl
    | cons c rest =>
      have marked : ∀ base, NamesBase mark base → ∃ mark' base c' rest', NamesBase mark' base ∧
          mark :: c :: rest = mark' :: c' :: rest' ∧
          detectBase (Ascii.zero :: mark :: c :: rest) = (base, c' :: rest') :=
        fun base named => ⟨mark, base, c, rest, named, rfl, detectBase_marked named⟩
      by_cases hbinary : Ascii.lower mark = 0x62
      · exact .inr (marked 2 (.binary hbinary))
      by_cases hoctal : Ascii.lower mark = 0x6f
      · exact .inr (marked 8 (.octal hoctal))
      by_cases hhex : Ascii.lower mark = 0x78
      · exact .inr (marked 16 (.hexadecimal hhex))
      · exact .inl (by simp [detectBase, hbinary, hoctal, hhex])

/-- A whole numeral is made of digits of the base that its first bytes name. -/
theorem wholeNumeral_iff : WholeNumeral s n ↔ s ≠ [] ∧
    (∀ b ∈ (detectBase s).2, IsDigitOf (detectBase s).1 b) ∧
      valueOf (detectBase s).1 (detectBase s).2 = n := by
  constructor
  · intro h
    cases h with
    | decimal given nonzero digits =>
      rw [detectBase_unmarked nonzero]
      exact ⟨given, digits, rfl⟩
    | @octal ds digits =>
      rcases detectBase_zero ds with hbase | ⟨mark, base, c, rest, named, rfl, -⟩
      · rw [hbase]
        exact ⟨List.cons_ne_nil _ _, digits, rfl⟩
      · have hmark := (digits mark List.mem_cons_self).mono (show 8 ≤ 10 by decide)
        exact absurd (.inl (isDigit_iff.mpr hmark)) named.not_decimal
    | @marked mark base ds named given digits =>
      obtain ⟨c, rest, rfl⟩ := List.exists_cons_of_ne_nil given
      rw [detectBase_marked named]
      exact ⟨List.cons_ne_nil _ _, digits, rfl⟩
  · rintro ⟨given, digits, rfl⟩
    by_cases hzero : s.head? = some Ascii.zero
    · obtain ⟨b, ds, rfl⟩ := List.exists_cons_of_ne_nil given
      cases Option.some.inj hzero
      rcases detectBase_zero ds with hbase | ⟨mark, base, c, rest, named, rfl, hbase⟩
      · rw [hbase] at digits ⊢
        exact .octal digits
      · rw [hbase] at digits ⊢
        exact .marked named (List.cons_ne_nil _ _) digits
    · rw [detectBase_unmarked hzero] at digits ⊢
      exact .decimal given hzero digits

/-- A whole numeral has one value. -/
theorem wholeNumeral_unique {k : Nat} (h : WholeNumeral s n) (h' : WholeNumeral s k) : n = k :=
  (wholeNumeral_iff.mp h).2.2.symm.trans (wholeNumeral_iff.mp h').2.2

theorem detectBase_pos (s : Text) : 0 < (detectBase s).1 := by
  by_cases hzero : s.head? = some Ascii.zero
  · obtain ⟨ds, rfl⟩ : ∃ ds, s = Ascii.zero :: ds := List.head?_eq_some_iff.mp hzero
    rcases detectBase_zero ds with hbase | ⟨mark, base, c, rest, named, -, hbase⟩
    · rw [hbase]
      exact Nat.succ_pos 7
    · rw [hbase]
      exact named.base_pos.1
  · rw [detectBase_unmarked hzero]
    exact Nat.succ_pos 9

theorem detectBase_subset (s : Text) : (detectBase s).2 ⊆ s := by
  by_cases hzero : s.head? = some Ascii.zero
  · obtain ⟨ds, rfl⟩ : ∃ ds, s = Ascii.zero :: ds := List.head?_eq_some_iff.mp hzero
    rcases detectBase_zero ds with hbase | ⟨mark, base, c, rest, -, rfl, hbase⟩
    · rw [hbase]
      exact List.subset_cons_self _ _
    · rw [hbase]
      exact fun b hb => List.mem_cons_of_mem _ (List.mem_cons_of_mem _ hb)
  · rw [detectBase_unmarked hzero]
    exact List.Subset.refl s

theorem any_underscore (s : Text) :
    (s.any fun b => b = Ascii.underscore) = decide (Ascii.underscore ∈ s) := by
  rw [Bool.eq_iff_iff]
  simp

/-- Whole numerals of 64 bits are read, and nothing else is. -/
theorem readNat_eq_ok (hs : Ascii.underscore ∉ s) :
    readNat none s = .ok n ↔ WholeNumeral s n ∧ n < 2 * int64Bound := by
  rw [wholeNumeral_iff]
  unfold readNat
  by_cases hnil : s = []
  · rw [if_pos hnil]
    simp [hnil]
  · have hdigits : Ascii.underscore ∉ (detectBase s).2 := fun h => hs (detectBase_subset s h)
    have hadd := @accumulate_eq_ok _ 0xffffffffffffffff 0 n _ true (detectBase_pos s)
      (Nat.zero_le _) hdigits
    have hlimit : n ≤ 0xffffffffffffffff ↔ n < 2 * int64Bound := by
      simp only [int64Bound]
      omega
    rw [if_neg hnil, any_underscore, decide_eq_false hs]
    simp only [Bool.false_and, Bool.false_eq_true, if_false, bind_pure]
    rw [hadd, hlimit, and_assoc, and_iff_right hnil, and_assoc]

/-- The number fits into 64 bits with the sign of the text. -/
def FitsSigned (s : Text) (n : Nat) : Prop :=
  if isNegative s then n ≤ int64Bound else n < int64Bound

/-- A signed number is read behind its sign. -/
theorem readInt_isOk {base : Option Nat} :
    (readInt base s).isOk = true ↔ ∃ n, readNat base (dropSign s) = .ok n ∧ FitsSigned s n := by
  unfold readInt FitsSigned isNegative
  cases readNat base (dropSign s) with
  | error e => simp [Except.isOk, Except.toBool]
  | ok n =>
    simp only [ok_bind, Except.ok.injEq, exists_eq_left', decide_eq_true_eq]
    split
    next =>
      split
      next hover => simpa [Except.isOk, Except.toBool] using hover
      next hover => simpa [Except.isOk, Except.toBool, pure, Except.pure] using hover
    next =>
      split
      next hover => simpa [Except.isOk, Except.toBool] using hover
      next hover => simpa [Except.isOk, Except.toBool, pure, Except.pure] using hover

theorem readNat_some_eq_ok {base : Nat} (hbase : 0 < base) (hs : Ascii.underscore ∉ s) :
    readNat (some base) s = .ok n ↔
      s ≠ [] ∧ (∀ b ∈ s, IsDigitOf base b) ∧ valueOf base s = n ∧ n < 2 * int64Bound := by
  unfold readNat
  have hlimit : n ≤ 0xffffffffffffffff ↔ n < 2 * int64Bound := by
    simp only [int64Bound]
    omega
  by_cases hnil : s = []
  · rw [if_pos hnil]
    simp [hnil]
  · rw [if_neg hnil, and_iff_right hnil, ← hlimit]
    exact accumulate_eq_ok hbase (Nat.zero_le _) hs

end Whole

section Significand

variable {base : Nat} {b : UInt8} {s t ds rest : Text} {acc sig : Significand}

/-- The significand with further decimal digits. -/
def Significand.withDigits (acc : Significand) (ds : Text) : Significand :=
  { acc with
    value := valueFrom 10 acc.value ds
    fraction := if acc.seenPoint then acc.fraction + ds.length else acc.fraction
    seenDigit := acc.seenDigit || !ds.isEmpty }

theorem withDigits_nil : acc.withDigits [] = acc := by
  simp [Significand.withDigits]

theorem withDigits_cons :
    acc.withDigits (b :: ds) = (acc.withDigits [b]).withDigits ds := by
  unfold Significand.withDigits
  cases acc.seenPoint with
  | false => simp [valueFrom]
  | true =>
    simp [valueFrom]
    omega

theorem readSignificand_digit (hb : IsDigitOf 10 b) :
    readSignificand 10 acc (b :: s) = readSignificand 10 (acc.withDigits [b]) s := by
  obtain ⟨d, hd, hlt⟩ := hb
  have hunderscore : b ≠ Ascii.underscore := by
    rintro rfl
    cases hd
  have hdot : b ≠ Ascii.dot := by
    rintro rfl
    cases hd
  rw [readSignificand, if_neg hunderscore, if_neg hdot, hd]
  dsimp only
  rw [if_neg (by omega)]
  simp [Significand.withDigits, valueFrom_cons hd]

theorem readSignificand_digits (h : ∀ b ∈ ds, IsDigitOf 10 b) :
    readSignificand 10 acc (ds ++ s) = readSignificand 10 (acc.withDigits ds) s := by
  induction ds generalizing acc with
  | nil => rw [withDigits_nil, List.nil_append]
  | cons b ds ih =>
    rw [List.cons_append, readSignificand_digit (h b List.mem_cons_self),
      ih fun c hc => h c (List.mem_cons_of_mem b hc), ← withDigits_cons]

/-- Digits are read, without their underscores, and behind a first point further ones. -/
theorem readSignificand_reads (h : readSignificand 10 acc s = (sig, rest)) :
    rest.head? ≠ some Ascii.underscore ∧ ∃ ds, (∀ b ∈ ds, IsDigitOf 10 b) ∧
      (bare s = ds ++ bare rest ∧ sig = acc.withDigits ds ∨
        acc.seenPoint = false ∧ ∃ fraction, (∀ b ∈ fraction, IsDigitOf 10 b) ∧
          bare s = ds ++ Ascii.dot :: (fraction ++ bare rest) ∧
          sig = { acc.withDigits ds with seenPoint := true }.withDigits fraction) := by
  induction s generalizing acc with
  | nil =>
    cases h
    exact ⟨by simp, [], by simp, .inl ⟨rfl, withDigits_nil.symm⟩⟩
  | cons b s ih =>
    have stops : b ≠ Ascii.underscore → (acc, b :: s) = (sig, rest) →
        rest.head? ≠ some Ascii.underscore ∧ bare (b :: s) = [] ++ bare rest ∧
          sig = acc.withDigits [] := by
      rintro hb heq
      cases heq
      exact ⟨by simpa using hb, rfl, withDigits_nil.symm⟩
    by_cases hunderscore : b = Ascii.underscore
    · subst hunderscore
      exact ih h
    by_cases hdot : b = Ascii.dot
    · rw [readSignificand, if_neg hunderscore, if_pos hdot] at h
      by_cases hseen : acc.seenPoint = true
      · rw [if_pos hseen] at h
        obtain ⟨hrest, hbare, hsig⟩ := stops hunderscore h
        exact ⟨hrest, [], by simp, .inl ⟨hbare, hsig⟩⟩
      · rw [if_neg hseen] at h
        obtain ⟨hrest, fraction, digits, ⟨hbare, hsig⟩ | ⟨hfalse, -⟩⟩ := ih h
        · refine ⟨hrest, [], by simp, .inr ⟨by simpa using hseen, fraction, digits, ?_, ?_⟩⟩
          · rw [bare_cons hunderscore, hbare, hdot, List.nil_append]
          · rw [hsig, withDigits_nil]
        · cases hfalse
    by_cases hdigit : IsDigitOf 10 b
    · rw [readSignificand_digit hdigit] at h
      obtain ⟨hrest, ds, digits, hread⟩ := ih h
      refine ⟨hrest, b :: ds, List.forall_mem_cons.mpr ⟨hdigit, digits⟩, ?_⟩
      rw [bare_cons hunderscore, withDigits_cons]
      rcases hread with ⟨hbare, hsig⟩ | ⟨hseen, fraction, hfraction, hbare, hsig⟩
      · exact .inl ⟨by rw [hbare, List.cons_append], hsig⟩
      · exact .inr ⟨hseen, fraction, hfraction, by rw [hbare, List.cons_append], hsig⟩
    · rw [readSignificand, if_neg hunderscore, if_neg hdot] at h
      have hstop : (acc, b :: s) = (sig, rest) := by
        split at h
        next => exact h
        next d hd =>
          rwa [if_pos (Nat.le_of_not_lt fun hlt => hdigit ⟨d, hd, hlt⟩)] at h
      obtain ⟨hrest, hbare, hsig⟩ := stops hunderscore hstop
      exact ⟨hrest, [], by simp, .inl ⟨hbare, hsig⟩⟩

/-- What is not read is the end of the text. -/
theorem readSignificand_suffix : (readSignificand base acc s).2 <:+ s := by
  induction s generalizing acc with
  | nil => exact List.suffix_refl []
  | cons b s ih =>
    have hcons : ∀ acc, (readSignificand base acc s).2 <:+ b :: s :=
      fun acc => ih.trans (List.suffix_cons b s)
    unfold readSignificand
    split
    · exact hcons acc
    split
    · split
      · exact List.suffix_refl _
      · exact hcons _
    split
    · exact List.suffix_refl _
    · split
      · exact List.suffix_refl _
      · exact hcons _

end Significand

section Exponent

variable {n k : Nat} {e : Int} {b : UInt8} {s t ds : Text}

/-- The digits of an exponent are read with underscores among them. -/
theorem exponentDigits_bare (h : ∀ b ∈ bare s, IsDigitOf 10 b) :
    exponentDigits n s = ((exponentDigits n (bare s)).1, []) := by
  induction s generalizing n with
  | nil => rfl
  | cons b s ih =>
    by_cases hb : b = Ascii.underscore
    · subst hb
      rw [bare_underscore] at h ⊢
      exact ih h
    · rw [bare_cons hb] at h ⊢
      obtain ⟨hdigit, hs⟩ := List.forall_mem_cons.mp h
      rw [exponentDigits, if_pos (isDigit_iff.mpr hdigit), ih hs, exponentDigits,
        if_pos (isDigit_iff.mpr hdigit)]

theorem exponentDigits_reads (h : exponentDigits n s = (k, [])) :
    (∀ b ∈ bare s, IsDigitOf 10 b) ∧ (exponentDigits n (bare s)).1 = k := by
  induction s generalizing n with
  | nil =>
    cases h
    exact ⟨by simp [bare], rfl⟩
  | cons b s ih =>
    rw [exponentDigits] at h
    split at h
    next hdigit =>
      have hb : b ≠ Ascii.underscore := by
        rintro rfl
        cases hdigit
      obtain ⟨digits, hvalue⟩ := ih h
      rw [bare_cons hb, exponentDigits, if_pos hdigit]
      exact ⟨List.forall_mem_cons.mpr ⟨isDigit_iff.mp hdigit, digits⟩, hvalue⟩
    next =>
      split at h
      next hb =>
        rw [hb, bare_underscore]
        exact ih h
      next => cases h

theorem readExponent?_reads (hb : Ascii.lower b = 0x65) (h : readExponent? t = some (e, [])) :
    ExponentPart (b :: bare t) e := by
  unfold readExponent? at h
  dsimp only at h
  split at h
  next => cases h
  next c ds hdigits =>
    split at h
    next hdigit =>
      have hc : c ≠ Ascii.underscore := by
        rintro rfl
        cases hdigit
      have hhead : t.head? ≠ some Ascii.underscore := by
        intro heq
        cases t with
        | nil => cases heq
        | cons a t =>
          cases Option.some.inj heq
          exact hc (List.cons.inj hdigits).1.symm
      obtain ⟨rfl, hrest⟩ := Prod.mk.inj (Option.some.inj h)
      obtain ⟨digits, hvalue⟩ := exponentDigits_reads (Prod.ext_iff.mpr ⟨rfl, hrest⟩)
      have hnegative : isNegative (bare t) = isNegative t := isNegative_bare hhead
      have hdrop : dropSign (bare t) = bare (dropSign t) := (bare_dropSign hhead).symm
      have hgiven : dropSign (bare t) ≠ [] := by
        rw [hdrop, hdigits, bare_cons hc]
        exact List.cons_ne_nil c _
      have hpart := ExponentPart.some hb hgiven (hdrop ▸ digits)
      rw [hdrop, hvalue, hnegative] at hpart
      simpa only [isNegative, decide_eq_true_eq] using hpart
    next => cases h

/-- Where underscores stand between digits, none stands behind another byte. -/
theorem underscoresFrom_other {hex : Bool} (h : underscoresFrom hex .other s = true) :
    s.head? ≠ some Ascii.underscore := by
  intro heq
  obtain ⟨t, rfl⟩ := List.head?_eq_some_iff.mp heq
  cases hex <;> cases h

theorem underscoresFrom_step (hdigit : Ascii.isDigit b = false) (hb : b ≠ Ascii.underscore)
    {before : Before} (h : underscoresFrom false before (b :: s) = true) :
    underscoresFrom false .other s = true := by
  rw [underscoresFrom, hdigit, if_neg (by simp), if_neg hb] at h
  split at h
  next => cases h
  next => exact h

theorem underscoresFrom_suffix (hdigit : Ascii.isDigit b = false) (hb : b ≠ Ascii.underscore)
    {before : Before} (h : underscoresFrom false before (t ++ b :: s) = true) :
    underscoresFrom false .other s = true := by
  induction t generalizing before with
  | nil => exact underscoresFrom_step hdigit hb h
  | cons c t ih =>
    rw [List.cons_append, underscoresFrom] at h
    split at h
    next => exact ih h
    next =>
      split at h
      next =>
        split at h
        next => exact ih h
        next => cases h
      next =>
        split at h
        next => cases h
        next => exact ih h

theorem underscoresFrom_dropSign (h : underscoresFrom false .other s = true) :
    underscoresFrom false .other (dropSign s) = true := by
  rcases sign_or s with ⟨sign, hsign, heq⟩ | heq
  · rw [heq] at h
    rcases hsign with rfl | rfl
    · exact underscoresFrom_step rfl (by decide) h
    · exact underscoresFrom_step rfl (by decide) h
  · rwa [heq]

theorem readExponent?_of_part (hfit : underscoresFrom false .other t = true)
    (h : ExponentPart (b :: bare t) e) : readExponent? t = some (e, []) := by
  cases h with
  | some letter given digits =>
    have hhead := underscoresFrom_other hfit
    rw [isNegative_bare hhead, ← bare_dropSign hhead]
    rw [← bare_dropSign hhead] at given digits
    have hfirst := underscoresFrom_other (underscoresFrom_dropSign hfit)
    have hread : exponentDigits 0 (dropSign t) = _ := exponentDigits_bare digits
    unfold readExponent?
    dsimp only
    rw [hread]
    cases hdrop : dropSign t with
    | nil =>
      rw [hdrop] at given
      exact absurd rfl given
    | cons c ds =>
      rw [hdrop] at digits hfirst
      have hc : c ≠ Ascii.underscore := by simpa using hfirst
      rw [bare_cons hc] at digits
      dsimp only
      rw [if_pos (isDigit_iff.mpr (digits c List.mem_cons_self))]
      simp only [isNegative, decide_eq_true_eq]

end Exponent

section Magnitude

variable {f : BinaryFormat} {x : Magnitude} {m : Nat} {e : Int} {s t : Text} {sig : Significand}

/-- How the exponent is read that stands behind a significand. -/
def exponentAfter (mark : UInt8) (rest : Text) : Option (Option Int) :=
  match rest with
  | [] => some none
  | b :: rest =>
    if Ascii.lower b = mark then
      match readExponent? rest with
      | some (e, []) => some (some e)
      | _ => none
    else none

theorem exponentAfter_reads {exponent : Option Int} (hrest : t.head? ≠ some Ascii.underscore)
    (h : exponentAfter 0x65 t = some exponent) : ExponentPart (bare t) (exponent.getD 0) := by
  unfold exponentAfter at h
  split at h
  next =>
    cases h
    exact .none
  next b t =>
    have hb : b ≠ Ascii.underscore := by simpa using hrest
    split at h
    next hletter =>
      split at h
      next e hread =>
        cases h
        rw [bare_cons hb]
        exact readExponent?_reads hletter hread
      next => cases h
    next => cases h

theorem exponentAfter_of_part (hrest : t.head? ≠ some Ascii.underscore)
    (hfit : ∀ b u, t = b :: u → Ascii.isDigit b = false → underscoresFrom false .other u = true)
    (h : ExponentPart (bare t) e) :
    ∃ exponent, exponentAfter 0x65 t = some exponent ∧ exponent.getD 0 = e := by
  cases t with
  | nil =>
    cases h
    exact ⟨none, rfl, rfl⟩
  | cons b t =>
    rw [bare_cons (by simpa using hrest)] at h
    have hletter : Ascii.lower b = 0x65 := by
      cases h with
      | some letter => exact letter
    refine ⟨some e, ?_, rfl⟩
    rw [exponentAfter, if_pos hletter,
      readExponent?_of_part (hfit b t rfl (not_isDigit_of_mark hletter rfl)) h]

/-- A text with no hexadecimal mark is read as a decimal significand and an exponent. -/
theorem readMagnitude_eq (hhex : hexDigits? s = none)
    (hread : readSignificand 10 {} s = (sig, t)) :
    readMagnitude f s = if sig.seenDigit = true then
      match exponentAfter 0x65 t with
      | none => .error .malformed
      | some exponent => .ok (f.ofDecimal sig.value (exponent.getD 0 - sig.fraction))
    else .error .malformed := by
  unfold readMagnitude exponentAfter
  rw [hhex]
  dsimp only
  rw [hread]
  dsimp only
  cases sig.seenDigit with
  | false => rfl
  | true =>
    rw [if_neg (by decide), if_pos rfl]
    cases t with
    | nil => simp
    | cons b rest =>
      dsimp only
      by_cases hletter : Ascii.lower b = 0x65
      · simp only [if_pos hletter]
        cases readExponent? rest with
        | none => rfl
        | some written =>
          obtain ⟨e, left⟩ := written
          cases left with
          | nil =>
            dsimp only
            rw [if_neg (by decide)]
            rfl
          | cons _ _ => rfl
      · simp only [if_neg hletter]

/-- What is read without a hexadecimal mark is a decimal numeral up to underscores. -/
theorem readMagnitude_reads (hhex : hexDigits? s = none) (h : readMagnitude f s = .ok x) :
    ∃ m e, DecimalNumeral (bare s) m e ∧ x = f.ofDecimal m e := by
  cases hread : readSignificand 10 {} s with
  | mk sig rest =>
    rw [readMagnitude_eq hhex hread] at h
    split at h
    next hseen =>
      split at h
      next => cases h
      next exponent hexponent =>
        cases h
        obtain ⟨hrest, ds, digits, hsig⟩ := readSignificand_reads hread
        have hpart := exponentAfter_reads hrest hexponent
        rcases hsig with ⟨hbare, rfl⟩ | ⟨-, fraction, hfraction, hbare, rfl⟩
        · have hgiven : ds ≠ [] := by
            rintro rfl
            cases hseen
          have hdecimal := DecimalNumeral.integral hgiven digits hpart
          rw [← hbare] at hdecimal
          refine ⟨_, _, hdecimal, ?_⟩
          simp [Significand.withDigits]
        · have hgiven : ds ++ fraction ≠ [] := by
            intro hnil
            obtain ⟨rfl, rfl⟩ := List.append_eq_nil_iff.mp hnil
            cases hseen
          have hdecimal := DecimalNumeral.pointed hgiven
            (List.forall_mem_append.mpr ⟨digits, hfraction⟩) hpart
          rw [← hbare] at hdecimal
          refine ⟨_, _, hdecimal, ?_⟩
          simp [Significand.withDigits, valueFrom, List.foldl_append]
    next => cases h

theorem readSignificand_stops (h : ExponentPart t e) (acc : Significand) :
    readSignificand 10 acc t = (acc, t) := by
  cases t with
  | nil => rfl
  | cons b t =>
    obtain ⟨hdigit, hdot, hunderscore⟩ := h.head b rfl
    rw [readSignificand, if_neg hunderscore, if_neg hdot]
    split
    next => rfl
    next d hd =>
      refine if_pos (Nat.le_of_not_lt fun hlt => ?_)
      rw [isDigit_iff.mpr ⟨d, hd, hlt⟩] at hdigit
      cases hdigit

/-- The significand of a decimal numeral. -/
theorem readSignificand_of_decimal (h : DecimalNumeral s m e) :
    ∃ sig tail e', readSignificand 10 {} s = (sig, tail) ∧ ExponentPart tail e' ∧
      sig.seenDigit = true ∧ sig.value = m ∧ e' - sig.fraction = e := by
  cases h with
  | @integral whole tail _ given digits part =>
    refine ⟨Significand.withDigits {} whole, tail, e, ?_, part, ?_, rfl, ?_⟩
    · rw [readSignificand_digits digits, readSignificand_stops part]
    · simp [Significand.withDigits, given]
    · simp [Significand.withDigits]
  | @pointed whole fraction tail e given digits part =>
    obtain ⟨hwhole, hfraction⟩ := List.forall_mem_append.mp digits
    refine ⟨{ Significand.withDigits {} whole with seenPoint := true }.withDigits fraction, tail, e,
      ?_, part, ?_, ?_, ?_⟩
    · rw [readSignificand_digits hwhole, readSignificand, if_neg (by decide), if_pos rfl,
        if_neg (by simp [Significand.withDigits]), readSignificand_digits hfraction,
        readSignificand_stops part]
    · simp only [ne_eq, List.append_eq_nil_iff, not_and_or] at given
      simpa [Significand.withDigits] using given
    · simp [Significand.withDigits, valueFrom, List.foldl_append]
    · simp [Significand.withDigits]

/-- Underscores make no difference to a significand. -/
theorem readSignificand_bare (acc : Significand) : readSignificand 10 acc (bare s) =
    ((readSignificand 10 acc s).1, bare (readSignificand 10 acc s).2) := by
  induction s generalizing acc with
  | nil => rfl
  | cons b s ih =>
    by_cases hb : b = Ascii.underscore
    · subst hb
      exact ih acc
    rw [bare_cons hb, readSignificand, if_neg hb, readSignificand, if_neg hb]
    by_cases hdot : b = Ascii.dot
    · rw [if_pos hdot, if_pos hdot]
      split
      next => rw [bare_cons hb]
      next => exact ih _
    rw [if_neg hdot, if_neg hdot]
    split
    next => rw [bare_cons hb]
    next =>
      split
      next => rw [bare_cons hb]
      next => exact ih _

/-- Every decimal numeral is read, with underscores between its digits. -/
theorem readMagnitude_of_decimal (hhex : hexDigits? s = none)
    (hfit : underscoresFrom false .start s = true) (h : DecimalNumeral (bare s) m e) :
    readMagnitude f s = .ok (f.ofDecimal m e) := by
  obtain ⟨sig, tail, e', hread, part, hseen, rfl, rfl⟩ := readSignificand_of_decimal h
  cases hs : readSignificand 10 {} s with
  | mk sig' rest =>
    have hrest := (readSignificand_reads hs).1
    obtain ⟨t, ht⟩ : rest <:+ s := by
      have := @readSignificand_suffix 10 s {}
      rwa [hs] at this
    rw [readSignificand_bare, hs] at hread
    obtain ⟨rfl, rfl⟩ := Prod.mk.inj hread
    have hafter : ∀ b u, rest = b :: u → Ascii.isDigit b = false →
        underscoresFrom false .other u = true := by
      rintro b u rfl hdigit
      rw [← ht] at hfit
      exact underscoresFrom_suffix hdigit (by simpa using hrest) hfit
    obtain ⟨exponent, hexponent, rfl⟩ := exponentAfter_of_part hrest hafter part
    rw [readMagnitude_eq hhex hs, if_pos hseen, hexponent]

/-- A hexadecimal numeral has a binary exponent. -/
theorem mem_of_readMagnitude_hex {ds : Text} (hhex : hexDigits? s = some ds)
    (h : readMagnitude f s = .ok x) : ∃ b ∈ s, Ascii.lower b = 0x70 := by
  have hsub : ds ⊆ s := by
    unfold hexDigits? at hhex
    split at hhex
    next mark c rest =>
      split at hhex
      next =>
        cases hhex
        exact fun b hb => List.mem_cons_of_mem _ (List.mem_cons_of_mem _ hb)
      next => cases hhex
    next => cases hhex
  unfold readMagnitude at h
  rw [hhex] at h
  dsimp only at h
  have hrest : (readSignificand 16 {} ds).2 <:+ ds := readSignificand_suffix
  split at h
  next => cases h
  next =>
    split at h
    next => cases h
    next => cases h
    next e hexponent =>
      split at hexponent
      next => cases hexponent
      next b rest hcons =>
        split at hexponent
        next hmark =>
          have hb : b ∈ (readSignificand 16 {} ds).2 := by
            rw [hcons]
            exact List.mem_cons_self
          exact ⟨b, hsub (hrest.subset hb), hmark⟩
        next => cases hexponent

/-- Neither the letter n, which every word for a number has, nor p, the mark of binary exponents. -/
def IsWordless (s : Text) : Prop := ∀ b ∈ s, Ascii.lower b ≠ 0x6e ∧ Ascii.lower b ≠ 0x70

theorem special?_eq_none (h : IsWordless s) : special? s = none := by
  have hword : ∀ w : Text, 0x6e ∈ w → Text.lower (dropSign s) ≠ w := by
    rintro w hw rfl
    obtain ⟨b, hb, hlower⟩ := List.mem_map.mp hw
    have hsub : b ∈ s := by
      rcases sign_or s with ⟨sign, -, heq⟩ | heq
      · rw [heq]
        exact List.mem_cons_of_mem sign hb
      · rwa [heq] at hb
    exact (h b hsub).1 hlower
  unfold special?
  simp [hword (text "inf") (by decide), hword (text "infinity") (by decide),
    hword (text "nan") (by decide)]

/-- What is read of a text that is no word and has no hexadecimal mark is a decimal numeral up to
underscores. -/
theorem readDouble_reads {d : Double} (hspecial : special? s = none)
    (hhex : hexDigits? (dropSign s) = none) (h : readDouble s = .ok d) :
    (Ascii.underscore ∈ s → underscoresFit s = true) ∧
      ∃ m e, DecimalNumeral (bare (dropSign s)) m e ∧
        BinaryFormat.double.ofDecimal m e ≠ .infinite ∧
        d = (Number.finite (isNegative s) m e).toDouble := by
  unfold readDouble at h
  rw [hspecial] at h
  obtain ⟨⟨negative, x⟩, hsigned, rfl⟩ := map_eq_ok.mp h
  unfold readSigned at hsigned
  rw [any_underscore] at hsigned
  split at hsigned
  next => cases hsigned
  next hfit =>
    obtain ⟨y, hmagnitude, hy⟩ := bind_eq_ok.mp hsigned
    split at hy
    next => cases hy
    next hfinite =>
      cases hy
      obtain ⟨m, e, hdecimal, rfl⟩ := readMagnitude_reads hhex hmagnitude
      exact ⟨by simpa using hfit, m, e, hdecimal, hfinite, rfl⟩

/-- Without a binary exponent nothing is read behind a hexadecimal mark. -/
theorem hexDigits?_of_wordless {d : Double} (hs : IsWordless s) (h : readDouble s = .ok d) :
    hexDigits? (dropSign s) = none := by
  cases hhex : hexDigits? (dropSign s) with
  | none => rfl
  | some ds =>
    unfold readDouble at h
    rw [special?_eq_none hs] at h
    obtain ⟨signed, hsigned, -⟩ := map_eq_ok.mp h
    unfold readSigned at hsigned
    split at hsigned
    next => cases hsigned
    next =>
      obtain ⟨x, hmagnitude, -⟩ := bind_eq_ok.mp hsigned
      obtain ⟨b, hb, hmark⟩ := mem_of_readMagnitude_hex hhex hmagnitude
      exact absurd hmark (hs b ((dropSign_suffix s).subset hb)).2

theorem underscoresFrom_of_notMem (h : Ascii.underscore ∉ s) {before : Before}
    (hbefore : before ≠ .underscore) : underscoresFrom false before s = true := by
  induction s generalizing before with
  | nil => simpa [underscoresFrom] using hbefore
  | cons b s ih =>
    have hb : b ≠ Ascii.underscore := Ne.symm (List.ne_of_not_mem_cons h)
    have hs := List.not_mem_of_not_mem_cons h
    rw [underscoresFrom, if_neg hb, if_neg hbefore]
    split
    next => exact ih hs (by decide)
    next => exact ih hs (by decide)

/-- No byte of a decimal numeral names a base. -/
theorem not_namesBase {b : UInt8} {base : Nat} (h : DecimalNumeral (bare s) m e) (hb : b ∈ s) :
    ¬ NamesBase b base := by
  intro named
  have hunderscore : b ≠ Ascii.underscore := by
    rintro rfl
    generalize hc : Ascii.underscore = c at named
    cases named with
    | binary hlower => exact absurd (hc ▸ hlower) (by decide)
    | octal hlower => exact absurd (hc ▸ hlower) (by decide)
    | hexadecimal hlower => exact absurd (hc ▸ hlower) (by decide)
  exact named.not_decimal (h.bytes b (mem_bare.mpr ⟨hb, hunderscore⟩))

theorem underscoresFit_decimal (h : DecimalNumeral (bare (dropSign s)) m e) :
    underscoresFit s = underscoresFrom false .start (dropSign s) := by
  have unmarked : ∀ b rest, baseMark? (dropSign s) = some (b, rest) →
      b ≠ 0x62 ∧ b ≠ 0x6f ∧ b ≠ 0x78 := by
    intro b rest heq
    unfold baseMark? at heq
    split at heq
    next mark rest' hcons =>
      have hmark : mark ∈ dropSign s := by
        rw [hcons]
        simp
      cases heq
      have hnot := fun {base} => @not_namesBase _ _ _ _ base h hmark
      exact ⟨fun hb => hnot (.binary hb), fun hb => hnot (.octal hb), fun hb => hnot (.hexadecimal hb)⟩
    next => cases heq
  unfold underscoresFit
  dsimp only
  split
  next heq => exact absurd rfl (unmarked _ _ heq).1
  next heq => exact absurd rfl (unmarked _ _ heq).2.1
  next heq => exact absurd rfl (unmarked _ _ heq).2.2
  next => rfl

/-- Every decimal numeral is read that is not too large. -/
theorem readDouble_of_decimal (hs : IsWordless s)
    (hfit : Ascii.underscore ∈ s → underscoresFit s = true)
    (h : DecimalNumeral (bare (dropSign s)) m e)
    (finite : BinaryFormat.double.ofDecimal m e ≠ .infinite) :
    readDouble s = .ok (Number.finite (isNegative s) m e).toDouble := by
  have hhex : hexDigits? (dropSign s) = none := by
    unfold hexDigits?
    split
    next mark c rest hcons =>
      have hmark : mark ∈ dropSign s := by
        rw [hcons]
        simp
      rw [if_neg fun hlower => not_namesBase h hmark (.hexadecimal hlower)]
    next => rfl
  have hbetween : underscoresFrom false .start (dropSign s) = true := by
    by_cases hmem : Ascii.underscore ∈ s
    · rw [← underscoresFit_decimal h]
      exact hfit hmem
    · exact underscoresFrom_of_notMem (fun hb => hmem ((dropSign_suffix s).subset hb)) (by decide)
  have hread : readMagnitude .double (dropSign s) = _ := readMagnitude_of_decimal hhex hbetween h
  have hplain : ¬ ((decide (Ascii.underscore ∈ s) && !underscoresFit s) = true) := by
    simpa using hfit
  unfold readDouble readSigned
  rw [special?_eq_none hs, any_underscore, if_neg hplain, hread, ok_bind, if_neg finite]
  rfl

end Magnitude

end Numeral

end ScopedAggregation
