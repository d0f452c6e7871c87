import Mathlib.Data.List.Induction
import ScopedAggregation.Definition.Scalar
import ScopedAggregation.Proofs.NumeralScanning
import ScopedAggregation.Proofs.OperatorCalls

namespace ScopedAggregation.Definition

open Yaml Numeral

/-- A sign, if any, and the digits behind it. -/
def intToken (s : Text) : Text :=
  (accept (text "+-") ([], s)).1 ++ (dropSign s).takeWhile Ascii.isDigit

/-- The part of the text that a number is read from. -/
def scanned (s : Text) : Plain → Text
  | .int _ => intToken ((skipBlanks? s).getD [])
  | .double _ => doubleToken ((skipBlanks? s).getD [])
  | _ => []

def IsNumber : Plain → Prop
  | .int _ => True
  | .double _ => True
  | _ => False

/-- Nothing of the text is left out, and the number is the one that the text denotes. -/
structure ReadWhole (s : Text) (x : Plain) : Prop where
  complete : scanned s x = s
  denoted : ∃ kind v, Denotes s kind v ∧ v.HeldBy x

/-- The text is written in decimal: an integer as digits behind a sign, a double as a numeral with
underscores. A leading zero makes digits octal; then they have to give the same number. -/
def IsDecimal (s : Text) : Plain → Prop
  | .int _ => dropSign s ≠ [] ∧ (∀ b ∈ dropSign s, Ascii.isDigit b = true) ∧
    ∀ ds, dropSign s = Ascii.zero :: ds → (∀ b ∈ ds, IsDigitOf 8 b) → valueOf 8 ds < 8
  | .double x => (LeadsNumber s ∨ s.head? = some Ascii.dot) ∧
    (∃ m e, DecimalNumeral (dropSign (bare s)) m e) ∧
    ∀ ds, dropSign (bare s) = Ascii.zero :: ds → (∀ b ∈ ds, IsDigitOf 8 b) →
      Fits (bare s) (valueOf 8 ds) →
      (Number.finite (isNegative s) (valueOf 8 ds) 0).HeldBy (.double x)
  | _ => False

/-- As an octal numeral, if it is one, the text has the same number. -/
def OctalAgrees (s : Text) (x : Plain) : Prop :=
  ∀ ds, dropSign (bare s) = Ascii.zero :: ds → (∀ b ∈ ds, IsDigitOf 8 b) →
    Fits (bare s) (valueOf 8 ds) → (Number.finite (isNegative s) (valueOf 8 ds) 0).HeldBy x

section Octal

variable {ds : Text}

theorem valueOf_append (base : Nat) (b : UInt8) :
    valueOf base (ds ++ [b]) = valueOf base ds * base + (digitValue? b).getD 0 := by
  simp [valueFrom, List.foldl_append]

theorem valueOf_zero (base : Nat) : valueOf base (Ascii.zero :: ds) = valueOf base ds := by
  rw [valueOf, valueFrom_cons (show digitValue? Ascii.zero = some 0 from rfl), Nat.zero_mul]

/-- Digits are worth less in base eight, unless there is only one that counts. -/
theorem valueOf_eight (digits : ∀ b ∈ ds, IsDigitOf 8 b) :
    valueOf 8 ds ≤ valueOf 10 ds ∧ (valueOf 8 ds = valueOf 10 ds ↔ valueOf 8 ds < 8) := by
  induction ds using List.reverseRecOn with
  | nil => exact ⟨Nat.le_refl 0, by simp⟩
  | append_singleton ds b ih =>
    obtain ⟨hds, hb⟩ := List.forall_mem_append.mp digits
    obtain ⟨hle, heq⟩ := ih hds
    obtain ⟨d, hd, hlt⟩ := hb b (List.mem_singleton.mpr rfl)
    rw [valueOf_append, valueOf_append, hd, Option.getD_some]
    omega

end Octal

/-- A number is the one that is scanned from the text. -/
def IsScanned (s : Text) : Plain → Prop
  | .int i => scanInt? s = some i
  | .double d => scanDouble? s = some d
  | _ => True

theorem isScanned_detect (s : Text) : IsScanned s (detect s) := by
  unfold detect
  dsimp only
  split
  next => trivial
  split
  next => trivial
  split
  next => trivial
  split
  next hint =>
    split
    next => exact hint
    split
    next hdouble =>
      split
      next => exact hdouble
      next => trivial
    next => trivial
  next hdouble =>
    split
    next => exact hdouble
    next => trivial
  next => trivial

/-- A number is scanned from the text whatever kind the scalar is of. -/
theorem isScanned_data (kind : ScalarKind) (style : ScalarStyle) (s : Text) :
    IsScanned s (scalarData kind style s) := by
  unfold scalarData
  split
  next => trivial
  cases kind with
  | null | bool | str => trivial
  | other => exact isScanned_detect s
  | int =>
    dsimp only
    split
    next hint => exact hint
    next => exact isScanned_detect s
  | float =>
    dsimp only
    split
    next hdouble => exact hdouble
    next => exact isScanned_detect s

section Whole

variable {kind : ScalarKind} {s t ds : Text} {x : Plain} {v : Number} {m n : Nat} {e : Int}
  {i : Int64} {d : Double}

theorem skipBlanks?_of_head (h : LeadsNumber s ∨ s.head? = some Ascii.dot) :
    skipBlanks? s = some s := by
  obtain ⟨b, t, rfl, hb⟩ : ∃ b t, s = b :: t ∧
      (b = Ascii.dot ∨ b = Ascii.plus ∨ isNumeralByte b = true) := by
    rcases h with ⟨b, t, rfl, hb | hb | hb⟩ | h
    · exact ⟨b, t, rfl, .inr (.inr (by simp [isNumeralByte, hb]))⟩
    · exact ⟨b, t, rfl, .inr (.inl hb)⟩
    · exact ⟨b, t, rfl, .inr (.inr (by simp [isNumeralByte, hb]))⟩
    · obtain ⟨t, rfl⟩ := List.head?_eq_some_iff.mp h
      exact ⟨Ascii.dot, t, rfl, .inl rfl⟩
  rcases hb with rfl | rfl | hb
  · exact skipBlanks?_ascii (by decide) (by decide)
  · exact skipBlanks?_ascii (by decide) (by decide)
  · obtain ⟨hbyte, hblank⟩ := numeralByte_plain hb
    exact skipBlanks?_ascii hbyte hblank

theorem skipBlanks?_of_denotes (h : Denotes s kind v) : skipBlanks? s = some s := by
  refine skipBlanks?_of_head ?_
  rcases h.head with leads | ⟨t, rfl⟩
  · exact .inl leads
  · exact .inr rfl

theorem intToken_eq_iff : intToken s = s ↔ ∀ b ∈ dropSign s, Ascii.isDigit b = true := by
  obtain ⟨sg, hs, hsign⟩ := accept_sign s
  have hsplit : intToken s = s ↔ sg ++ (dropSign s).takeWhile Ascii.isDigit = sg ++ dropSign s := by
    rw [← hs, intToken, hsign]
  rw [hsplit, List.append_cancel_left_eq, List.takeWhile_eq_self_iff]

/-- An octal numeral denotes no other number. -/
theorem denotes_octal (h : Denotes s kind v) (hoctal : dropSign (bare s) = Ascii.zero :: ds)
    (digits : ∀ b ∈ ds, IsDigitOf 8 b) (fits : Fits (bare s) (valueOf 8 ds)) :
    v = .finite (isNegative s) (valueOf 8 ds) 0 := by
  have hwhole : WholeNumeral (dropSign (bare s)) (valueOf 8 ds) := by
    rw [hoctal]
    exact .octal digits
  have hword : ¬ IsWord s := by
    intro hword
    have hdot := head_dropSign_word s hword
    rw [hoctal] at hdot
    cases hdot
  have hmark : ∀ {mark base sign t}, NamesBase mark base →
      ¬ IsSignedDigits mark base (bare s) sign t := fun _ h => h.not_whole ⟨_, hwhole, fits⟩
  cases h with
  | whole leads hn =>
    rw [isNegative_bare (leads.head_ne (by decide)), wholeNumeral_unique hn hwhole]
  | binaryDigits _ h => exact (hmark (.binary rfl) h).elim
  | octalDigits _ h => exact (hmark (.octal rfl) h).elim
  | decimal _ other => exact absurd ⟨_, hwhole, fits⟩ other
  | pointed leads =>
    rw [leads, bare_cons (by decide)] at hoctal
    cases hoctal
  | word h => exact absurd (isWord_of_mem h) hword

/-- A numeral of digits that is whole is decimal, or octal with a leading zero. -/
theorem whole_of_decimal {u : Text} (hwhole : WholeNumeral u n) (hdecimal : DecimalNumeral u m e) :
    (m = n ∧ e = 0) ∨ ∃ ds, u = Ascii.zero :: ds ∧ (∀ b ∈ ds, IsDigitOf 8 b) ∧ n = valueOf 8 ds := by
  cases hwhole with
  | decimal given _ digits =>
    have hsame := DecimalNumeral.integral given digits .none
    rw [List.append_nil] at hsame
    exact .inl (hdecimal.unique hsame)
  | octal digits => exact .inr ⟨_, rfl, digits, rfl⟩
  | @marked mark _ ds named =>
    exact absurd (hdecimal.bytes mark (by simp)) named.not_decimal

/-- A text in decimal denotes its decimal number, if a leading zero makes no difference. -/
theorem exists_denotes (hspelled : LeadsNumber s ∨ s.head? = some Ascii.dot)
    (hdecimal : DecimalNumeral (dropSign (bare s)) m e)
    (fits : Ascii.underscore ∈ s → underscoresFit s = true)
    (finite : BinaryFormat.double.ofDecimal m e ≠ .infinite)
    (held : (Number.finite (isNegative s) m e).HeldBy x) (hoctal : OctalAgrees s x) :
    ∃ kind v, Denotes s kind v ∧ v.HeldBy x := by
  rcases hspelled with leads | hdot
  · have hneg : isNegative (bare s) = isNegative s := isNegative_bare (leads.head_ne (by decide))
    by_cases hwhole : IsWhole (bare s)
    · obtain ⟨n, hn, hfits⟩ := hwhole
      refine ⟨_, _, .whole leads hn hfits, ?_⟩
      rw [hneg]
      rcases whole_of_decimal hn hdecimal with ⟨rfl, rfl⟩ | ⟨ds, heq, digits, rfl⟩
      · exact held
      · exact hoctal ds heq digits hfits
    · refine ⟨_, _, .decimal leads hwhole hdecimal finite, ?_⟩
      rwa [hneg]
  · obtain ⟨t, rfl⟩ := List.head?_eq_some_iff.mp hdot
    rw [bare_cons (by decide)] at hdecimal
    have hdecimal' : DecimalNumeral (bare (Ascii.dot :: t)) m e := by
      rw [bare_cons (by decide)]
      exact hdecimal
    exact ⟨_, _, .pointed rfl fits hdecimal' finite, held⟩

theorem toInt_held (leads : LeadsNumber s) (digits : ∀ b ∈ dropSign s, Ascii.isDigit b = true)
    (hscan : scanInt? s = some i) :
    (Number.finite (isNegative s) (valueOf 10 (dropSign s)) 0).HeldBy (.int i) ∧
      Fits s (valueOf 10 (dropSign s)) := by
  obtain ⟨-, hvalue⟩ := scanInt?_reads (skipBlanks?_of_head (.inl leads)) hscan
  rw [List.takeWhile_eq_self_iff.mpr digits, ← valueOf_ten digits] at hvalue
  have hle := i.le_toInt
  have hlt := i.toInt_lt
  change (i.toInt : ℚ) = (if isNegative s = true then _ else _) * 10 ^ (0 : Int) ∧ _
  rw [hvalue] at hle hlt ⊢
  unfold Fits
  simp only [int64Bound]
  cases hneg : isNegative s with
  | true =>
    rw [hneg, if_pos rfl] at hle
    refine ⟨by simp, ?_⟩
    rw [if_pos rfl]
    omega
  | false =>
    rw [hneg, if_neg Bool.false_ne_true] at hlt
    refine ⟨by simp, ?_⟩
    rw [if_neg Bool.false_ne_true]
    split
    · omega
    · omega

/-- An integer holds one number behind a sign. -/
theorem held_unique {negative : Bool} (h : (Number.finite negative m 0).HeldBy (.int i))
    (h' : (Number.finite negative n 0).HeldBy (.int i)) : m = n := by
  have heq := Eq.trans (Eq.symm h) h'
  cases negative with
  | true => simpa using heq
  | false => simpa using heq

/-- Of an integer a leading zero keeps the number if only the last digit counts. -/
theorem octalAgrees_iff (leads : LeadsNumber s) (digits : ∀ b ∈ dropSign s, Ascii.isDigit b = true)
    (hbare : bare s = s) (hscan : scanInt? s = some i) : OctalAgrees s (.int i) ↔
      ∀ ds, dropSign s = Ascii.zero :: ds → (∀ b ∈ ds, IsDigitOf 8 b) → valueOf 8 ds < 8 := by
  obtain ⟨held, fits⟩ := toInt_held leads digits hscan
  unfold OctalAgrees
  rw [hbare]
  constructor
  · intro h ds heq octal
    obtain ⟨hle, hsame⟩ := valueOf_eight octal
    rw [heq, valueOf_zero] at held fits
    exact hsame.mp (held_unique (h ds heq octal (fits.mono hle)) held)
  · intro h ds heq octal _
    rw [(valueOf_eight octal).2.mpr (h ds heq octal), ← valueOf_zero, ← heq]
    exact held

theorem scanDouble?_of_word : ∀ s, IsWord s → scanDouble? s = none := by
  decide +kernel

theorem bare_of_digits (digits : ∀ b ∈ dropSign s, Ascii.isDigit b = true) : bare s = s := by
  have hplain : ∀ b ∈ s, b ≠ Ascii.underscore := by
    refine forall_mem_of_dropSign (by decide) (by decide) ?_
    rintro b hb rfl
    cases digits _ hb
  exact bare_eq_self fun hmem => hplain _ hmem rfl

theorem ReadWhole.octalAgrees (h : ReadWhole s x) : OctalAgrees s x := by
  obtain ⟨-, kind, v, hdenotes, held⟩ := h
  intro ds hoctal digits fits
  rwa [← denotes_octal hdenotes hoctal digits fits]

theorem leads_of_digits (given : dropSign s ≠ [])
    (digits : ∀ b ∈ dropSign s, Ascii.isDigit b = true) : LeadsNumber s := by
  rcases sign_or s with ⟨sign, signed, heq⟩ | heq
  · exact ⟨sign, dropSign s, heq, .inr signed⟩
  · rw [heq] at given digits
    obtain ⟨b, t, rfl⟩ := List.exists_cons_of_ne_nil given
    exact ⟨b, t, rfl, .inl (digits b List.mem_cons_self)⟩

theorem ReadWhole.isDecimal_int (hscan : scanInt? s = some i) (h : ReadWhole s (.int i)) :
    IsDecimal s (.int i) := by
  have hoctal := h.octalAgrees
  obtain ⟨hcomplete, kind, v, hdenotes, -⟩ := h
  have hskip := skipBlanks?_of_denotes hdenotes
  simp only [scanned, hskip, Option.getD_some] at hcomplete
  have digits := intToken_eq_iff.mp hcomplete
  have given : dropSign s ≠ [] := by
    intro hnil
    have hdigits := (scanInt?_reads hskip hscan).1
    rw [hnil] at hdigits
    exact hdigits rfl
  exact ⟨given, digits,
    (octalAgrees_iff (leads_of_digits given digits) digits (bare_of_digits digits) hscan).mp hoctal⟩

theorem ReadWhole.isDecimal_double (hscan : scanDouble? s = some d) (h : ReadWhole s (.double d)) :
    IsDecimal s (.double d) := by
  have hoctal := h.octalAgrees
  obtain ⟨hcomplete, kind, v, hdenotes, -⟩ := h
  have hskip := skipBlanks?_of_denotes hdenotes
  simp only [scanned, hskip, Option.getD_some] at hcomplete
  rcases hdenotes.isWordless with hword | hs
  · rw [scanDouble?_of_word s hword] at hscan
    cases hscan
  · have hread := scanDouble?_wordless hskip hs hscan
    rw [hcomplete] at hread
    obtain ⟨-, m, e, hdecimal, -⟩ :=
      readDouble_reads (special?_eq_none hs) (hexDigits?_of_wordless hs hread) hread
    rcases hdenotes.head with leads | ⟨t, rfl⟩
    · rw [bare_dropSign (leads.head_ne (by decide))] at hdecimal
      exact ⟨.inl leads, ⟨m, e, hdecimal⟩, hoctal⟩
    · rw [@bare_dropSign (Ascii.dot :: t) (show some Ascii.dot ≠ _ by decide)] at hdecimal
      exact ⟨.inr rfl, ⟨m, e, hdecimal⟩, hoctal⟩

theorem IsDecimal.readWhole_int (hscan : scanInt? s = some i) (h : IsDecimal s (.int i)) :
    ReadWhole s (.int i) := by
  obtain ⟨given, digits, hzero⟩ := h
  have leads := leads_of_digits given digits
  have hbare := bare_of_digits digits
  have hskip := skipBlanks?_of_head (.inl leads)
  obtain ⟨held, fits⟩ := toInt_held leads digits hscan
  have hoctal := (octalAgrees_iff leads digits hbare hscan).mpr hzero
  have hdecimal : DecimalNumeral (dropSign (bare s)) (valueOf 10 (dropSign s)) 0 := by
    rw [hbare]
    have hsame := DecimalNumeral.integral given (fun b hb => isDigit_iff.mp (digits b hb)) .none
    rwa [List.append_nil] at hsame
  have hspaced : Ascii.underscore ∈ s → underscoresFit s = true := by
    intro hmem
    rw [← hbare] at hmem
    exact absurd rfl (mem_bare.mp hmem).2
  refine ⟨?_, exists_denotes (.inl leads) hdecimal hspaced (BinaryFormat.ofDecimal_whole fits.bound)
    held hoctal⟩
  simp only [scanned, hskip, Option.getD_some]
  exact intToken_eq_iff.mpr digits

theorem IsDecimal.readWhole_double (hscan : scanDouble? s = some d) (h : IsDecimal s (.double d)) :
    ReadWhole s (.double d) := by
  obtain ⟨hspelled, ⟨m, e, hdecimal⟩, hoctal⟩ := h
  have hskip := skipBlanks?_of_head hspelled
  have hhead : s.head? ≠ some Ascii.underscore := by
    rcases hspelled with leads | hdot
    · exact leads.head_ne (by decide)
    · rw [hdot]
      decide
  have hbody := hdecimal
  rw [← bare_dropSign hhead] at hbody
  obtain ⟨hwhole, fits, finite, hvalue⟩ := scanDouble?_decimal hskip hbody hscan
  refine ⟨?_, exists_denotes hspelled hdecimal fits finite hvalue hoctal⟩
  simp only [scanned, hskip, Option.getD_some]
  exact hwhole

/-- A double is read whole from every text that is taken for a floating-point number. -/
theorem readWhole_float (hscan : scanDouble? s = some d) (hkind : plainKind s = .float) :
    ReadWhole s (.double d) := by
  obtain ⟨v, hdenotes⟩ := (plainKind_iff_denotes (.inr rfl)).mp hkind
  have hword : ¬ IsWord s := by
    intro hword
    rw [scanDouble?_of_word s hword] at hscan
    cases hscan
  cases hdenotes with
  | decimal leads other hdecimal =>
    have hoctal : OctalAgrees s (.double d) :=
      fun ds heq digits fits => absurd ⟨_, heq ▸ .octal digits, fits⟩ other
    exact IsDecimal.readWhole_double hscan ⟨.inl leads, ⟨_, _, hdecimal⟩, hoctal⟩
  | @pointed t _ _ leads _ hdecimal =>
    subst leads
    have hoctal : OctalAgrees (Ascii.dot :: t) (.double d) := fun ds heq => nomatch heq
    exact IsDecimal.readWhole_double hscan ⟨.inr rfl, ⟨_, _, hdecimal⟩, hoctal⟩
  | word h => exact absurd (isWord_of_mem h) hword

/-- Whether the number of a scalar is that of its whole text. Exactly if the text is written in
decimal and a leading zero makes no difference; so it is for every double of a text that is taken for
a floating-point number, and never for a date. -/
theorem number_read_whole_iff (read : scalarData kind style s = x) (number : IsNumber x) :
    (ReadWhole s x ↔ IsDecimal s x) ∧
      (∀ d, x = .double d → plainKind s = .float → ReadWhole s x) ∧
      (isTimestamp s = true → ¬ ReadWhole s x) := by
  have hdate : isTimestamp s = true → ¬ ReadWhole s x := by
    rintro hdate ⟨-, kind, v, hdenotes, -⟩
    exact (isTimestamp_dated hdate).not_denotes hdenotes
  have hscanned : IsScanned s x := read ▸ isScanned_data kind style s
  cases x with
  | int i =>
    have hscan : scanInt? s = some i := hscanned
    refine ⟨⟨fun h => h.isDecimal_int hscan, fun h => h.readWhole_int hscan⟩, ?_, hdate⟩
    intro d hd
    cases hd
  | double d =>
    have hscan : scanDouble? s = some d := hscanned
    refine ⟨⟨fun h => h.isDecimal_double hscan, fun h => h.readWhole_double hscan⟩, ?_, hdate⟩
    intro _ _ hkind
    exact readWhole_float hscan hkind
  | _ => exact number.elim

end Whole

/-- A number with an underscore between its digits. -/
def spacedNumber : Text := text "1_000.5"

theorem spacedNumber_read_whole :
    ∃ d, scalarData .float .plain spacedNumber = .double d ∧ plainKind spacedNumber = .float ∧
      ReadWhole spacedNumber (.double d) := by
  have hscan : scanDouble? spacedNumber = some ⟨0x408f440000000000⟩ := by decide +kernel
  have hkind : plainKind spacedNumber = .float := by decide +kernel
  have read : scalarData .float .plain spacedNumber = .double ⟨0x408f440000000000⟩ := by
    simp [scalarData, hscan]
  exact ⟨_, read, hkind, (number_read_whole_iff read trivial).2.1 _ rfl hkind⟩

/-- A number in base sixteen. -/
def hexadecimalNumber : Text := text "0x10"

theorem hexadecimalNumber_denotes : Denotes hexadecimalNumber .int (.finite false 16 0) := by
  have digits : ∀ b ∈ ([0x31, 0x30] : Text), IsDigitOf 16 b := by
    intro b hb
    rcases List.mem_pair.mp hb with rfl | rfl
    · exact ⟨1, rfl, by decide⟩
    · exact ⟨0, rfl, by decide⟩
  have named : NamesBase 0x78 16 := .hexadecimal rfl
  have hwhole := WholeNumeral.marked named (List.cons_ne_nil 0x31 _) digits
  exact .whole ⟨Ascii.zero, _, rfl, .inl rfl⟩ hwhole (show 16 < 2 * int64Bound by decide)

/-- The mark of the base ends the scan, and what is read is the zero before it. -/
theorem hexadecimalNumber_cut_off :
    (∃ input e last, parse (text "expression: " ++ hexadecimalNumber) = .ok ⟨input, .expression e⟩ ∧
      compile {} ⟨input, .expression e⟩ [] = (.ok (.int 0), last)) ∧
      scalarData (scalarKind none .plain hexadecimalNumber) .plain hexadecimalNumber = .int 0 ∧
      Denotes hexadecimalNumber .int (.finite false 16 0) ∧
      ¬ (Number.finite false 16 0).HeldBy (.int 0) ∧ ¬ ReadWhole hexadecimalNumber (.int 0) := by
  refine ⟨?_, ?_, hexadecimalNumber_denotes, ?_, ?_⟩
  · obtain ⟨input, e, v, last, parsed, compiled, hcheck⟩ :=
      @exists_of_compilesTo (fun _ v => decide (v.asInt.toOption = some 0))
        (text "expression: " ++ hexadecimalNumber) (by decide +kernel)
    obtain rfl := Value.eq_int_of_asInt (of_decide_eq_true hcheck)
    exact ⟨input, e, last, parsed, compiled⟩
  · have hkind : scalarKind none .plain hexadecimalNumber = .int := by decide +kernel
    have hscan : scanInt? hexadecimalNumber = some 0 := by decide +kernel
    rw [hkind]
    simp [scalarData, hscan]
  · intro held
    have hzero : (Number.finite false 0 0).HeldBy (.int 0) := by simp [Number.HeldBy]
    cases held_unique held hzero
  · intro h
    exact absurd h.complete (by decide +kernel)

end ScopedAggregation.Definition
