import ScopedAggregation.Proofs.NumeralReading
import ScopedAggregation.Proofs.TemplateParts

namespace ScopedAggregation.Yaml

open Numeral (readNat readInt readDouble dropSign)

variable {s t u tail : Text} {m n : Nat} {e : Int} {b : UInt8}

section Whole

theorem WholeNumeral.unsigned (h : WholeNumeral s n) : dropSign s = s ∧ isNegative s = false ∧
    s.head? ≠ some Ascii.plus := by
  obtain ⟨b, t, rfl, hb⟩ := h.head
  have hplus : b ≠ Ascii.plus := by
    rintro rfl
    cases hb
  have hminus : b ≠ Ascii.minus := by
    rintro rfl
    cases hb
  exact ⟨dropSign_unsigned hplus hminus, by simpa [isNegative] using hminus, by simpa using hplus⟩

theorem Fits.bound (h : Fits s n) : n < 2 * int64Bound := by
  unfold Fits at h
  simp only [int64Bound] at h ⊢
  split at h
  next => omega
  next =>
    split at h
    next => omega
    next => exact h

theorem Fits.mono (h : Fits s n) (hle : m ≤ n) : Fits s m := by
  unfold Fits at h ⊢
  split at h
  next hneg =>
    rw [if_pos hneg]
    exact Nat.le_trans hle h
  next hneg =>
    rw [if_neg hneg]
    split at h
    next hplus =>
      rw [if_pos hplus]
      exact Nat.lt_of_le_of_lt hle h
    next hplus =>
      rw [if_neg hplus]
      exact Nat.lt_of_le_of_lt hle h

/-- A text without underscores is a whole number exactly if it is a whole numeral of 64 bits. -/
theorem isWhole_iff (hs : Ascii.underscore ∉ s) : isWhole none s = true ↔ IsWhole s := by
  have hdrop : Ascii.underscore ∉ dropSign s := fun h => hs ((dropSign_suffix s).subset h)
  unfold isWhole
  rw [Bool.or_eq_true, Numeral.readInt_isOk]
  constructor
  · rintro (⟨n, hread, hfits⟩ | hread)
    · obtain ⟨h, hbound⟩ := (Numeral.readNat_eq_ok hdrop).mp hread
      refine ⟨n, h, ?_⟩
      unfold Numeral.FitsSigned at hfits
      unfold Fits
      split
      next hneg => rwa [if_pos hneg] at hfits
      next hneg =>
        split
        next => rwa [if_neg hneg] at hfits
        next => exact hbound
    · obtain ⟨n, hread⟩ := isOk_iff.mp hread
      obtain ⟨h, hbound⟩ := (Numeral.readNat_eq_ok hs).mp hread
      obtain ⟨hsame, hneg, hplus⟩ := h.unsigned
      refine ⟨n, by rwa [hsame], ?_⟩
      rw [Fits, hneg, if_neg Bool.false_ne_true, if_neg hplus]
      exact hbound
  · rintro ⟨n, h, hfits⟩
    have hread := (Numeral.readNat_eq_ok hdrop).mpr ⟨h, hfits.bound⟩
    by_cases hneg : isNegative s = true
    · refine .inl ⟨n, hread, ?_⟩
      rw [Fits, if_pos hneg] at hfits
      rwa [Numeral.FitsSigned, if_pos hneg]
    by_cases hplus : s.head? = some Ascii.plus
    · refine .inl ⟨n, hread, ?_⟩
      rw [Fits, if_neg hneg, if_pos hplus] at hfits
      rwa [Numeral.FitsSigned, if_neg hneg]
    · rw [dropSign_of_unsigned hneg hplus] at hread
      exact .inr (isOk_iff.mpr ⟨n, hread⟩)

theorem isWhole_of_marked {mark : UInt8} {base : Nat} (named : NamesBase mark base) (given : t ≠ [])
    (digits : ∀ b ∈ t, IsDigitOf base b) (bound : valueOf base t < 2 * int64Bound) :
    IsWhole (Ascii.zero :: mark :: t) :=
  ⟨_, .marked named given digits, bound⟩

theorem fits_signed {sign : UInt8} (signed : sign = Ascii.plus ∨ sign = Ascii.minus) :
    Fits (sign :: t) n ↔ Numeral.FitsSigned (sign :: t) n := by
  unfold Fits Numeral.FitsSigned
  rcases signed with rfl | rfl
  · exact Iff.rfl
  · exact Iff.rfl

/-- What is a whole number behind a mark is one as it stands, or has its sign there. -/
theorem isMarkedWhole_reads {word : String} {mark : UInt8} {base : Nat}
    (hword : text word = [Ascii.zero, mark])
    (hminus : text ("-" ++ word) = [Ascii.minus, Ascii.zero, mark]) (named : NamesBase mark base)
    (hs : Ascii.underscore ∉ s) (h : isMarkedWhole word base s = true) :
    IsWhole s ∨ ∃ sign t, IsSignedDigits mark base s sign t := by
  have hbase := named.base_pos.1
  unfold isMarkedWhole at h
  rw [hword, hminus] at h
  split at h
  next ds hafter =>
    obtain rfl : s = Ascii.zero :: mark :: ds := Text.after?_eq_some.mp hafter
    have hds : Ascii.underscore ∉ ds :=
      fun hb => hs (List.mem_cons_of_mem _ (List.mem_cons_of_mem _ hb))
    have unsigned : ∀ n, readNat (some base) ds = .ok n → IsWhole (Ascii.zero :: mark :: ds) := by
      intro n hread
      obtain ⟨given, digits, rfl, bound⟩ := (Numeral.readNat_some_eq_ok hbase hds).mp hread
      exact isWhole_of_marked named given digits bound
    unfold isWhole at h
    rw [Bool.or_eq_true, Numeral.readInt_isOk, isOk_iff] at h
    rcases h with ⟨n, hread, hfits⟩ | ⟨n, hread⟩
    · rcases sign_or ds with ⟨sign, signed, heq⟩ | heq
      · have hdrop : Ascii.underscore ∉ dropSign ds := fun hb => hds ((dropSign_suffix ds).subset hb)
        obtain ⟨given, digits, rfl, -⟩ := (Numeral.readNat_some_eq_ok hbase hdrop).mp hread
        refine .inr ⟨sign, dropSign ds, by rw [← heq], signed, given, digits, ?_⟩
        rwa [fits_signed signed, ← heq]
      · rw [heq] at hread
        exact .inl (unsigned n hread)
    · exact .inl (unsigned n hread)
  next =>
    split at h
    next ds hafter =>
      obtain rfl : s = Ascii.minus :: Ascii.zero :: mark :: ds := Text.after?_eq_some.mp hafter
      have hds : Ascii.underscore ∉ ds := fun hb =>
        hs (List.mem_cons_of_mem _ (List.mem_cons_of_mem _ (List.mem_cons_of_mem _ hb)))
      obtain ⟨n, hread, hfits⟩ := Numeral.readInt_isOk.mp h
      obtain ⟨given, digits, rfl, -⟩ := (Numeral.readNat_some_eq_ok hbase hds).mp hread
      exact .inl ⟨_, .marked named given digits, hfits⟩
    next => cases h

theorem IsSignedDigits.isMarkedWhole {word : String} {mark sign : UInt8} {base : Nat}
    (hword : text word = [Ascii.zero, mark]) (named : NamesBase mark base)
    (hs : Ascii.underscore ∉ s) (h : IsSignedDigits mark base s sign t) :
    isMarkedWhole word base s = true := by
  obtain ⟨rfl, signed, given, digits, fits⟩ := h
  have hafter : Text.after? (text word) (Ascii.zero :: mark :: sign :: t) = some (sign :: t) := by
    rw [hword]
    exact Text.after?_eq_some.mpr rfl
  have ht : Ascii.underscore ∉ t := by
    intro hb
    exact hs (List.mem_cons_of_mem _ (List.mem_cons_of_mem _ (List.mem_cons_of_mem _ hb)))
  have hdrop : dropSign (sign :: t) = t := by
    rcases signed with rfl | rfl
    · rfl
    · rfl
  have hread : readNat (some base) (dropSign (sign :: t)) = .ok (valueOf base t) := by
    rw [hdrop]
    exact (Numeral.readNat_some_eq_ok named.base_pos.1 ht).mpr ⟨given, digits, rfl, fits.bound⟩
  unfold Yaml.isMarkedWhole
  rw [hafter]
  unfold isWhole
  rw [Bool.or_eq_true, Numeral.readInt_isOk]
  exact .inl ⟨_, hread, (fits_signed signed).mp fits⟩

end Whole

section Decimal

/-- How a decimal numeral ends behind its digits. -/
def endsInExponent (s : Text) : Bool :=
  match s with
  | [] => true
  | e :: r => Ascii.lower e = 0x65 && !(dropSign r).isEmpty && (dropSign r).all Ascii.isDigit

theorem endsInExponent_iff : endsInExponent s = true ↔ ∃ e, ExponentPart s e := by
  cases s with
  | nil => exact ⟨fun _ => ⟨0, .none⟩, fun _ => rfl⟩
  | cons mark r =>
    simp only [endsInExponent, Bool.and_eq_true, decide_eq_true_eq, Bool.not_eq_true',
      List.isEmpty_eq_false_iff, List.all_eq_true]
    constructor
    · rintro ⟨⟨letter, given⟩, digits⟩
      exact ⟨_, .some letter given fun b hb => isDigit_iff.mp (digits b hb)⟩
    · rintro ⟨e, part⟩
      cases part with
      | some letter given digits =>
        exact ⟨⟨letter, given⟩, isDigit_of_digits digits⟩

variable {whole fraction : Text}

theorem isDecimalFloat_integral (hs : dropSign s = whole ++ tail)
    (digits : ∀ b ∈ whole, Ascii.isDigit b = true)
    (htail : ∀ b ∈ tail.head?, Ascii.isDigit b = false ∧ b ≠ Ascii.dot) :
    isDecimalFloat s = (!whole.isEmpty && endsInExponent tail) := by
  obtain ⟨htake, hdrop⟩ := span_run digits fun b hb => (htail b hb).1
  unfold isDecimalFloat
  dsimp only
  rw [hs, htake, hdrop]
  cases tail with
  | nil => simp [endsInExponent]
  | cons b t =>
    have hdot := (htail b rfl).2
    split
    next heq => exact absurd (List.cons.inj heq).1 hdot
    next => simp [endsInExponent]

theorem isDecimalFloat_pointed (hs : dropSign s = whole ++ Ascii.dot :: (fraction ++ tail))
    (digits : ∀ b ∈ whole, Ascii.isDigit b = true) (further : ∀ b ∈ fraction, Ascii.isDigit b = true)
    (htail : ∀ b ∈ tail.head?, Ascii.isDigit b = false) :
    isDecimalFloat s = ((!whole.isEmpty || !fraction.isEmpty) && endsInExponent tail) := by
  have hdot : ∀ b ∈ (Ascii.dot :: (fraction ++ tail)).head?, Ascii.isDigit b = false := by
    intro b hb
    cases Option.some.inj hb
    rfl
  obtain ⟨htake, hdrop⟩ := span_run digits hdot
  obtain ⟨htake', hdrop'⟩ := span_run further htail
  unfold isDecimalFloat
  dsimp only
  rw [hs, htake, hdrop]
  split
  next heq =>
    obtain rfl := (List.cons.inj heq).2
    rw [htake', hdrop']
    cases tail with
    | nil => simp [endsInExponent]
    | cons b t => simp [endsInExponent]
  next hne => exact absurd rfl (hne _)

/-- A decimal numeral is digits, further ones behind a point, and an exponent. -/
theorem isDecimalFloat_iff : isDecimalFloat s = true ↔ ∃ m e, DecimalNumeral (dropSign s) m e := by
  constructor
  · intro h
    obtain ⟨whole, rest, hs, digits, hrest⟩ := exists_span Ascii.isDigit (dropSign s)
    have hwhole : ∀ b ∈ whole, IsDigitOf 10 b := fun b hb => isDigit_iff.mp (digits b hb)
    by_cases hdot : rest.head? = some Ascii.dot
    · obtain ⟨r, rfl⟩ := List.head?_eq_some_iff.mp hdot
      obtain ⟨fraction, tail, rfl, further, htail⟩ := exists_span Ascii.isDigit r
      rw [isDecimalFloat_pointed hs digits further htail, Bool.and_eq_true, endsInExponent_iff] at h
      obtain ⟨given, e, part⟩ := h
      have hfraction : ∀ b ∈ fraction, IsDigitOf 10 b := fun b hb => isDigit_iff.mp (further b hb)
      have hgiven : whole ++ fraction ≠ [] := by
        rintro hnil
        obtain ⟨rfl, rfl⟩ := List.append_eq_nil_iff.mp hnil
        cases given
      rw [hs]
      exact ⟨_, _, .pointed hgiven (List.forall_mem_append.mpr ⟨hwhole, hfraction⟩) part⟩
    · have hstop : ∀ b ∈ rest.head?, Ascii.isDigit b = false ∧ b ≠ Ascii.dot := by
        intro b hb
        refine ⟨hrest b hb, ?_⟩
        rintro rfl
        exact hdot hb
      rw [isDecimalFloat_integral hs digits hstop, Bool.and_eq_true, endsInExponent_iff] at h
      obtain ⟨given, e, part⟩ := h
      have hgiven : whole ≠ [] := by
        rintro rfl
        cases given
      rw [hs]
      exact ⟨_, _, .integral hgiven hwhole part⟩
  · rintro ⟨m, e, h⟩
    generalize hu : dropSign s = u at h
    cases h with
    | integral given digits part =>
      have hends := endsInExponent_iff.mpr ⟨_, part⟩
      rw [isDecimalFloat_integral hu (isDigit_of_digits digits)
        fun b hb => ⟨(part.head b hb).1, (part.head b hb).2.1⟩, hends]
      simpa using given
    | pointed given digits part =>
      have hends := endsInExponent_iff.mpr ⟨_, part⟩
      obtain ⟨hwhole, hfraction⟩ := List.forall_mem_append.mp (isDigit_of_digits digits)
      rw [isDecimalFloat_pointed hu hwhole hfraction fun b hb => (part.head b hb).1, hends]
      simp only [ne_eq, List.append_eq_nil_iff, not_and_or] at given
      simpa using given

theorem wordless_of_decimalByte (h : IsDecimalByte b) :
    Ascii.lower b ≠ 0x6e ∧ Ascii.lower b ≠ 0x70 := by
  rcases h with hdigit | rfl | hletter | rfl | rfl
  · rw [← isDigit_lower] at hdigit
    constructor
    · intro heq
      rw [heq] at hdigit
      cases hdigit
    · intro heq
      rw [heq] at hdigit
      cases hdigit
  · decide
  · rw [hletter]
    decide
  · decide
  · decide

/-- Signs and underscores belong to no word. -/
theorem isWordless_of_bare (h : Numeral.IsWordless (dropSign (bare s))) : Numeral.IsWordless s := by
  have hbare : Numeral.IsWordless (bare s) := forall_mem_of_dropSign (by decide) (by decide) h
  intro b hb
  by_cases hunderscore : b = Ascii.underscore
  · subst hunderscore
    decide
  · exact hbare b (mem_bare.mpr ⟨hb, hunderscore⟩)

theorem DecimalNumeral.isWordless (h : DecimalNumeral (dropSign (bare s)) m e) :
    Numeral.IsWordless s :=
  isWordless_of_bare fun b hb => wordless_of_decimalByte (h.bytes b hb)

end Decimal

section Dates

/-- The text begins with digits and a hyphen behind them. -/
def BeginsDated (s : Text) : Prop :=
  ∃ b c ds t, s = b :: c :: ds ++ Ascii.minus :: t ∧ ∀ d ∈ b :: c :: ds, Ascii.isDigit d = true

theorem BeginsDated.bare (h : BeginsDated s) : BeginsDated (bare s) := by
  obtain ⟨b, c, ds, t, rfl, digits⟩ := h
  have hsame : Yaml.bare (b :: c :: ds) = b :: c :: ds := by
    refine bare_eq_self fun hb => ?_
    cases digits _ hb
  exact ⟨b, c, ds, Yaml.bare t, by rw [bare_append, hsame, bare_cons (by decide)], digits⟩

theorem BeginsDated.dropSign_eq (h : BeginsDated s) : dropSign s = s := by
  obtain ⟨b, c, ds, t, rfl, digits⟩ := h
  have hb := digits b List.mem_cons_self
  refine dropSign_unsigned ?_ ?_
  · rintro rfl
    cases hb
  · rintro rfl
    cases hb

theorem isTimestamp_dated (h : isTimestamp s = true) : BeginsDated s := by
  unfold isTimestamp at h
  cases hdate : Instant.readDate false s with
  | none =>
    rw [hdate] at h
    cases h
  | some read =>
    unfold Instant.readDate at hdate
    dsimp only at hdate
    split at hdate
    next => cases hdate
    next hyear =>
      simp only [Bool.or_eq_true, decide_eq_true_eq, Bool.not_eq_true', not_or, Decidable.not_not,
        Bool.not_eq_false, List.all_eq_true] at hyear
      obtain ⟨hlength, digits⟩ := hyear
      obtain ⟨rest, hexpect, -⟩ := Option.bind_eq_some_iff.mp hdate
      rcases s with _ | ⟨a, _ | ⟨b, _ | ⟨c, _ | ⟨d, t⟩⟩⟩⟩
      any_goals cases hlength
      rw [List.drop_succ_cons, List.drop_succ_cons, List.drop_succ_cons, List.drop_succ_cons,
        List.drop_zero] at hexpect
      unfold Instant.expect at hexpect
      split at hexpect
      next hyphen t =>
        split at hexpect
        next hminus => exact ⟨a, b, [c, d], t, by rw [hminus]; rfl, digits⟩
        next => cases hexpect
      next => cases hexpect

theorem BeginsDated.not_whole (h : BeginsDated s) : ¬ WholeNumeral s n := by
  obtain ⟨b, c, ds, t, rfl, digits⟩ := h
  intro hwhole
  rcases hwhole.digits_or_marked with hall | ⟨mark, base, rest, named, heq⟩
  · cases hall Ascii.minus (by simp)
  · have hmark : c = mark := (List.cons.inj (List.cons.inj heq).2).1
    exact named.not_decimal (.inl (hmark ▸ digits c (by simp)))

theorem BeginsDated.not_decimal (h : BeginsDated s) : ¬ DecimalNumeral s m e := by
  obtain ⟨b, c, ds, t, hs, digits⟩ := h
  have hhyphen : ∀ d ∈ (Ascii.minus :: t).head?, Ascii.isDigit d = false := by
    intro d hd
    cases Option.some.inj hd
    rfl
  intro hdecimal
  cases hdecimal with
  | integral _ further part =>
    obtain ⟨-, rfl⟩ := span_unique (isDigit_of_digits further) (fun b hb => (part.head b hb).1) digits
      hhyphen hs
    cases part with
    | some letter => cases letter
  | @pointed whole fraction _ _ _ further =>
    have hwhole := isDigit_of_digits fun b hb => further b (List.mem_append_left fraction hb)
    obtain ⟨-, hrest⟩ := span_unique hwhole
      (fun d hd => by cases Option.some.inj hd; rfl) digits hhyphen hs
    cases (List.cons.inj hrest).1

theorem isWord_of_mem {v : Number} (h : (s, v) ∈ numberWords) : IsWord s :=
  List.mem_map_of_mem h

theorem word_head : ∀ s, IsWord s →
    s.head? = some Ascii.dot ∨ s.head? = some Ascii.plus ∨ s.head? = some Ascii.minus := by
  decide

/-- No date denotes a number. -/
theorem BeginsDated.not_denotes (h : BeginsDated s) {kind : ScalarKind} {v : Number} :
    ¬ Denotes s kind v := by
  have hbare := h.bare
  have hdrop := hbare.dropSign_eq
  have hsigned : ∀ {mark base sign t}, Ascii.isDigit mark = false →
      ¬ IsSignedDigits mark base (Yaml.bare s) sign t := by
    rintro mark base sign t hmark ⟨heq, -⟩
    obtain ⟨b, c, ds, u, hs, digits⟩ := hbare
    rw [hs] at heq
    have hc := digits c (by simp)
    rw [(List.cons.inj (List.cons.inj heq).2).1, hmark] at hc
    cases hc
  have hword : ¬ IsWord s := by
    intro hmem
    obtain ⟨b, c, ds, t, rfl, digits⟩ := h
    have hb := digits b List.mem_cons_self
    rcases word_head _ hmem with heq | heq | heq
    all_goals
      rw [Option.some.inj heq] at hb
      cases hb
  intro hdenotes
  cases hdenotes with
  | whole _ hwhole => exact hbare.not_whole (hdrop ▸ hwhole)
  | decimal _ _ hdecimal => exact hbare.not_decimal (hdrop ▸ hdecimal)
  | pointed leads =>
    obtain ⟨b, c, ds, t, rfl, digits⟩ := h
    have hb := digits b List.mem_cons_self
    rw [(List.cons.inj leads).1] at hb
    cases hb
  | binaryDigits _ hds => exact hsigned rfl hds
  | octalDigits _ hds => exact hsigned rfl hds
  | word h => exact hword (isWord_of_mem h)

end Dates

section Kinds

theorem IsWord.denotes (h : IsWord s) : ∃ v, Denotes s .float v := by
  obtain ⟨⟨s, v⟩, hmem, rfl⟩ := List.mem_map.mp h
  exact ⟨v, .word hmem⟩

theorem LeadsNumber.head_ne (h : LeadsNumber s)
    (hb : Ascii.isDigit b = false ∧ b ≠ Ascii.plus ∧ b ≠ Ascii.minus) : s.head? ≠ some b := by
  obtain ⟨c, t, rfl, hc⟩ := h
  intro heq
  cases Option.some.inj heq
  rcases hc with hc | hc | hc
  · rw [hb.1] at hc
    cases hc
  · exact hb.2.1 hc
  · exact hb.2.2 hc

theorem LeadsNumber.bare_dropSign (h : LeadsNumber s) :
    bare (dropSign (bare s)) = dropSign (bare s) := by
  rw [← Yaml.bare_dropSign (h.head_ne (by decide)), bare_bare]

/-- A numeral is taken for a floating-point one if it is decimal and not too large. -/
theorem decimalFloat_iff (leads : LeadsNumber s) :
    (isDecimalFloat (bare s) && (readDouble (bare s)).isOk) = true ↔
      ∃ m e, DecimalNumeral (dropSign (bare s)) m e ∧
        BinaryFormat.double.ofDecimal m e ≠ .infinite := by
  have hdrop := leads.bare_dropSign
  have hwordless : ∀ {m e}, DecimalNumeral (dropSign (bare s)) m e → Numeral.IsWordless (bare s) := by
    intro m e hdecimal
    rw [← bare_bare] at hdecimal
    exact hdecimal.isWordless
  rw [Bool.and_eq_true, isDecimalFloat_iff, isOk_iff]
  constructor
  · rintro ⟨⟨m, e, hdecimal⟩, d, hread⟩
    have hs := hwordless hdecimal
    obtain ⟨-, m', e', hdecimal', hfinite, -⟩ := Numeral.readDouble_reads
      (Numeral.special?_eq_none hs) (Numeral.hexDigits?_of_wordless hs hread) hread
    rw [hdrop] at hdecimal'
    exact ⟨m', e', hdecimal', hfinite⟩
  · rintro ⟨m, e, hdecimal, hfinite⟩
    have hbody := hdecimal
    rw [← hdrop] at hbody
    have hread := Numeral.readDouble_of_decimal (hwordless hdecimal) (fun h => absurd h not_mem_bare)
      hbody hfinite
    exact ⟨⟨m, e, hdecimal⟩, _, hread⟩

theorem numeralKind_eq (s : Text) : numeralKind s =
    if isTimestamp s then .other
    else if isWhole none (bare s) then .int
    else if isDecimalFloat (bare s) && (readDouble (bare s)).isOk then .float
    else if isMarkedWhole "0b" 2 (bare s) || isMarkedWhole "0o" 8 (bare s) then .int
    else .str := rfl

theorem IsSignedDigits.not_whole {mark sign : UInt8} {base : Nat}
    (h : IsSignedDigits mark base s sign t) : ¬ IsWhole s := by
  obtain ⟨rfl, signed, -⟩ := h
  have hsign : ∀ base, ¬ IsDigitOf base sign := by
    intro base
    refine not_isDigitOf ?_
    rcases signed with rfl | rfl
    · rfl
    · rfl
  rintro ⟨n, h, -⟩
  change WholeNumeral (Ascii.zero :: mark :: sign :: t) n at h
  cases h with
  | decimal _ nonzero => exact nonzero rfl
  | octal digits => exact hsign 8 (digits sign (by simp))
  | marked _ _ digits => exact hsign _ (digits sign (by simp))

theorem IsSignedDigits.not_decimal {mark sign : UInt8} {base : Nat} (named : NamesBase mark base)
    (h : IsSignedDigits mark base s sign t) : ¬ DecimalNumeral (dropSign s) m e := by
  obtain ⟨rfl, -⟩ := h
  have hmark : mark ∈ dropSign (Ascii.zero :: mark :: sign :: t) :=
    List.mem_cons_of_mem Ascii.zero List.mem_cons_self
  exact fun hdecimal => named.not_decimal (hdecimal.bytes mark hmark)

/-- What is taken for a number denotes one of that kind. -/
theorem numeralKind_reads (leads : LeadsNumber s) {kind : ScalarKind}
    (number : kind = .int ∨ kind = .float) (hkind : numeralKind s = kind) :
    ∃ v, Denotes s kind v := by
  have hwhole := isWhole_iff (@not_mem_bare s)
  rw [numeralKind_eq] at hkind
  split at hkind
  next =>
    subst hkind
    simp at number
  split at hkind
  next h =>
    obtain ⟨n, hn, fits⟩ := hwhole.mp h
    subst hkind
    exact ⟨_, .whole leads hn fits⟩
  next hother =>
    rw [hwhole] at hother
    split at hkind
    next h =>
      obtain ⟨m, e, hdecimal, hfinite⟩ := (decimalFloat_iff leads).mp h
      subst hkind
      exact ⟨_, .decimal leads hother hdecimal hfinite⟩
    next =>
      split at hkind
      next h =>
        rcases Bool.or_eq_true_iff.mp h with h | h
        · rcases isMarkedWhole_reads rfl rfl (.binary rfl) not_mem_bare h with h | ⟨sign, t, h⟩
          · exact absurd h hother
          · subst hkind
            exact ⟨_, .binaryDigits leads h⟩
        · rcases isMarkedWhole_reads rfl rfl (.octal rfl) not_mem_bare h with h | ⟨sign, t, h⟩
          · exact absurd h hother
          · subst hkind
            exact ⟨_, .octalDigits leads h⟩
      next =>
        subst hkind
        simp at number

/-- A text that denotes a number behind a digit or a sign is taken for one of that kind. -/
theorem Denotes.numeralKind {kind : ScalarKind} {v : Number} (h : Denotes s kind v)
    (leads : LeadsNumber s) (hword : ¬ IsWord s) : numeralKind s = kind := by
  have hwhole := isWhole_iff (@not_mem_bare s)
  have hfloat := decimalFloat_iff leads
  have hdate : ¬ isTimestamp s = true := fun hdate => (isTimestamp_dated hdate).not_denotes h
  have signed : ∀ {mark base sign t}, NamesBase mark base →
      IsSignedDigits mark base (bare s) sign t → ¬ isWhole none (bare s) = true ∧
        ¬ (isDecimalFloat (bare s) && (readDouble (bare s)).isOk) = true := by
    intro mark base sign t named h
    rw [hwhole, hfloat]
    exact ⟨h.not_whole, fun ⟨_, _, hdecimal, _⟩ => h.not_decimal named hdecimal⟩
  rw [numeralKind_eq, if_neg hdate]
  cases h with
  | whole _ hn fits => rw [if_pos (hwhole.mpr ⟨_, hn, fits⟩)]
  | binaryDigits _ h =>
    obtain ⟨hnot, hplain⟩ := signed (.binary rfl) h
    rw [if_neg hnot, if_neg hplain, h.isMarkedWhole rfl (.binary rfl) not_mem_bare, Bool.true_or,
      if_pos rfl]
  | octalDigits _ h =>
    obtain ⟨hnot, hplain⟩ := signed (.octal rfl) h
    rw [if_neg hnot, if_neg hplain, h.isMarkedWhole rfl (.octal rfl) not_mem_bare, Bool.or_true,
      if_pos rfl]
  | decimal _ other hdecimal hfinite =>
    rw [if_neg (hwhole.not.mpr other), if_pos (hfloat.mpr ⟨_, _, hdecimal, hfinite⟩)]
  | pointed hdot =>
    rw [hdot] at leads
    exact absurd rfl (leads.head_ne (by decide))
  | word h => exact absurd (isWord_of_mem h) hword

/-- A text that denotes a number begins like one. -/
theorem Denotes.head {kind : ScalarKind} {v : Number} (h : Denotes s kind v) :
    LeadsNumber s ∨ ∃ t, s = Ascii.dot :: t := by
  have hsign : ∀ s, IsWord s → LeadsNumber s ∨ ∃ t, s = Ascii.dot :: t := by
    intro s hword
    rcases word_head s hword with h | h | h
    · exact .inr (List.head?_eq_some_iff.mp h)
    · obtain ⟨t, rfl⟩ := List.head?_eq_some_iff.mp h
      exact .inl ⟨_, t, rfl, .inr (.inl rfl)⟩
    · obtain ⟨t, rfl⟩ := List.head?_eq_some_iff.mp h
      exact .inl ⟨_, t, rfl, .inr (.inr rfl)⟩
  cases h with
  | whole leads => exact .inl leads
  | decimal leads => exact .inl leads
  | pointed leads => exact .inr ⟨_, leads⟩
  | binaryDigits leads => exact .inl leads
  | octalDigits leads => exact .inl leads
  | word h => exact hsign s (isWord_of_mem h)

/-- The words of other kinds. -/
def otherWords : List Text :=
  ["true", "True", "TRUE", "false", "False", "FALSE", "", "~", "null", "Null", "NULL", "<<"].map text

theorem plainKind_of_word : ∀ s, IsWord s → plainKind s = .float := by
  decide

theorem plainKind_of_other : ∀ s ∈ otherWords, plainKind s ≠ .int ∧ plainKind s ≠ .float := by
  decide

theorem head_of_other : ∀ s ∈ otherWords, ∀ b ∈ s.head?,
    (Ascii.isDigit b = false ∧ b ≠ Ascii.plus ∧ b ≠ Ascii.minus) ∧ b ≠ Ascii.dot := by
  decide +kernel

theorem not_denotes_other (h : s ∈ otherWords) {kind : ScalarKind} {v : Number} :
    ¬ Denotes s kind v := by
  intro hdenotes
  rcases hdenotes.head with leads | ⟨t, rfl⟩
  · obtain ⟨b, t, rfl, -⟩ := id leads
    exact leads.head_ne (head_of_other _ h b rfl).1 rfl
  · exact (head_of_other _ h Ascii.dot rfl).2 rfl

theorem wordKind?_eq_none (hword : ¬ IsWord s) (hother : s ∉ otherWords) : wordKind? s = none := by
  have hnone : ∀ words : List String, (∀ w ∈ words, IsWord (text w) ∨ text w ∈ otherWords) →
      ¬ (words.any fun w => decide (text w = s)) = true := by
    intro words hwords hany
    obtain ⟨w, hw, heq⟩ := List.any_eq_true.mp hany
    obtain rfl := of_decide_eq_true heq
    exact (hwords w hw).elim hword hother
  unfold wordKind?
  dsimp only
  rw [if_neg (hnone _ (by decide)), if_neg (hnone _ (by decide)), if_neg (hnone _ (by decide))]

/-- Texts that begin with a point are taken for numbers if they denote one. -/
theorem readDouble_pointed (hword : ¬ IsWord (Ascii.dot :: t)) :
    (readDouble (Ascii.dot :: t)).isOk = true ↔ ∃ v, Denotes (Ascii.dot :: t) .float v := by
  rw [isOk_iff]
  constructor
  · rintro ⟨d, hread⟩
    have hspecial : Numeral.special? (Ascii.dot :: t) = none := rfl
    obtain ⟨fits, m, e, hdecimal, hfinite, -⟩ := Numeral.readDouble_reads hspecial rfl hread
    exact ⟨_, .pointed rfl fits hdecimal hfinite⟩
  · rintro ⟨v, hdenotes⟩
    cases hdenotes with
    | decimal leads => exact absurd rfl (leads.head_ne (by decide))
    | pointed _ fits hdecimal hfinite =>
      have hwordless := @DecimalNumeral.isWordless (Ascii.dot :: t) _ _ hdecimal
      exact ⟨_, Numeral.readDouble_of_decimal hwordless fits hdecimal hfinite⟩
    | word h => exact absurd (isWord_of_mem h) hword

theorem Denotes.leads_of_int {v : Number} (h : Denotes s .int v) : LeadsNumber s := by
  cases h with
  | whole leads => exact leads
  | binaryDigits leads => exact leads
  | octalDigits leads => exact leads

theorem head_dropSign_word : ∀ s, IsWord s → (dropSign (bare s)).head? = some Ascii.dot := by
  decide

theorem IsWord.not_int {v : Number} (h : IsWord s) : ¬ Denotes s .int v := by
  have hdot := head_dropSign_word s h
  have hsigned : ∀ {mark base sign t}, ¬ IsSignedDigits mark base (bare s) sign t := by
    rintro mark base sign t ⟨heq, -⟩
    rw [heq] at hdot
    cases hdot
  intro hdenotes
  cases hdenotes with
  | whole _ hn =>
    obtain ⟨b, t, heq, hb⟩ := hn.head
    rw [heq] at hdot
    cases Option.some.inj hdot
    cases hb
  | binaryDigits _ hds => exact hsigned hds
  | octalDigits _ hds => exact hsigned hds

/-- A plain scalar is taken for a number exactly if its text denotes one of that kind. -/
theorem plainKind_iff_denotes {kind : ScalarKind} (number : kind = .int ∨ kind = .float) :
    plainKind s = kind ↔ ∃ v, Denotes s kind v := by
  by_cases hword : IsWord s
  · rw [plainKind_of_word s hword]
    rcases number with rfl | rfl
    · exact iff_of_false (by simp) fun ⟨v, h⟩ => hword.not_int h
    · exact iff_of_true rfl hword.denotes
  by_cases hother : s ∈ otherWords
  · refine iff_of_false ?_ fun ⟨v, h⟩ => not_denotes_other hother h
    rintro rfl
    exact number.elim (plainKind_of_other s hother).1 (plainKind_of_other s hother).2
  have hmerge : s ≠ text "<<" := by
    rintro rfl
    exact hother (by decide)
  unfold plainKind
  rw [if_neg hmerge, wordKind?_eq_none hword hother]
  dsimp only
  cases s with
  | nil => exact absurd (by decide) hother
  | cons b t =>
    dsimp only
    split
    next hlead =>
      have leads : LeadsNumber (b :: t) := ⟨b, t, rfl, by simpa [or_assoc] using hlead⟩
      exact ⟨numeralKind_reads leads number, fun ⟨_, h⟩ => h.numeralKind leads hword⟩
    next hlead =>
      have hleads : ¬ LeadsNumber (b :: t) := by
        rintro ⟨c, u, heq, hc⟩
        obtain ⟨rfl, rfl⟩ := List.cons.inj heq
        exact hlead (by simpa [or_assoc] using hc)
      split
      next hdot =>
        obtain ⟨hb, hread⟩ := Bool.and_eq_true_iff.mp hdot
        obtain rfl := of_decide_eq_true hb
        have hpointed := (readDouble_pointed hword).mp hread
        rcases number with rfl | rfl
        · exact iff_of_false (by simp) fun ⟨v, h⟩ => hleads h.leads_of_int
        · exact iff_of_true rfl hpointed
      next hdot =>
        refine iff_of_false ?_ ?_
        · rintro rfl
          simp at number
        · rintro ⟨v, hdenotes⟩
          rcases hdenotes.head with leads | ⟨u, heq⟩
          · exact hleads leads
          · obtain ⟨rfl, rfl⟩ := List.cons.inj heq
            rcases number with rfl | rfl
            · exact hleads hdenotes.leads_of_int
            · have hread := (readDouble_pointed hword).mpr ⟨v, hdenotes⟩
              exact hdot (by rw [hread]; rfl)

theorem IsDigitOf.wordless {base : Nat} (h : IsDigitOf base b) (hbase : base ≤ 16) :
    Ascii.lower b ≠ 0x6e ∧ Ascii.lower b ≠ 0x70 := by
  obtain ⟨d, hd, hlt⟩ := h
  have hletter : ∀ c : UInt8, 0x6e ≤ c.toNat → Ascii.isDigit c = false → Ascii.lower b ≠ c := by
    rintro c hc hdigit rfl
    rw [isDigit_lower] at hdigit
    unfold Numeral.digitValue? at hd
    rw [hdigit, if_neg Bool.false_ne_true] at hd
    split at hd
    next =>
      cases hd
      omega
    next => cases hd
  exact ⟨hletter 0x6e (by decide) rfl, hletter 0x70 (by decide) rfl⟩

theorem NamesBase.wordless {base : Nat} (h : NamesBase b base) :
    Ascii.lower b ≠ 0x6e ∧ Ascii.lower b ≠ 0x70 := by
  cases h with
  | binary h => simp [h]
  | octal h => simp [h]
  | hexadecimal h => simp [h]

theorem WholeNumeral.isWordless (h : WholeNumeral s n) : Numeral.IsWordless s := by
  cases h with
  | decimal _ _ digits => exact fun b hb => (digits b hb).wordless (by decide)
  | octal digits =>
    exact List.forall_mem_cons.mpr ⟨by decide, fun b hb => (digits b hb).wordless (by decide)⟩
  | marked named _ digits =>
    exact List.forall_mem_cons.mpr ⟨by decide, List.forall_mem_cons.mpr
      ⟨named.wordless, fun b hb => (digits b hb).wordless named.base_pos.2⟩⟩

theorem IsSignedDigits.isWordless {mark sign : UInt8} {base : Nat} (named : NamesBase mark base)
    (h : IsSignedDigits mark base (bare s) sign t) : Numeral.IsWordless s := by
  refine isWordless_of_bare ?_
  obtain ⟨heq, signed, -, digits, -⟩ := h
  rw [heq]
  have hsign : Ascii.lower sign ≠ 0x6e ∧ Ascii.lower sign ≠ 0x70 := by
    rcases signed with rfl | rfl
    · decide
    · decide
  exact List.forall_mem_cons.mpr ⟨by decide, List.forall_mem_cons.mpr ⟨named.wordless,
    List.forall_mem_cons.mpr ⟨hsign, fun b hb => (digits b hb).wordless named.base_pos.2⟩⟩⟩

/-- A text that denotes a number is one of the words or has no letter of theirs. -/
theorem Denotes.isWordless {kind : ScalarKind} {v : Number} (h : Denotes s kind v) :
    IsWord s ∨ Numeral.IsWordless s := by
  cases h with
  | whole _ hn => exact .inr (isWordless_of_bare hn.isWordless)
  | binaryDigits _ hds => exact .inr (hds.isWordless (.binary rfl))
  | octalDigits _ hds => exact .inr (hds.isWordless (.octal rfl))
  | decimal _ _ hdecimal => exact .inr hdecimal.isWordless
  | pointed leads _ hdecimal =>
    subst leads
    exact .inr (@DecimalNumeral.isWordless (Ascii.dot :: _) _ _ hdecimal)
  | word h => exact .inl (isWord_of_mem h)

end Kinds

end ScopedAggregation.Yaml
