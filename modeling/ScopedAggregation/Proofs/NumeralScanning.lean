import ScopedAggregation.Proofs.NumberKinds

namespace ScopedAggregation.Numeral

open Yaml

section Sets

variable {set taken s t w rest : Text} {b : UInt8} {st st' : Text × Text}

theorem accept_taken (h : set.any (fun c => c = b) = true) :
    accept set (taken, b :: s) = (taken ++ [b], s) := by
  rw [accept, if_pos h]

theorem accept_refused (h : ∀ b ∈ s.head?, set.any (fun c => c = b) = false) :
    accept set (taken, s) = (taken, s) := by
  cases s with
  | nil => rfl
  | cons b s => rw [accept, h b rfl, if_neg Bool.false_ne_true]

theorem took_append : took (taken, s) (taken ++ [b], t) = true := by
  simp [took]

theorem took_self : took st st = false := by
  simp [took]

theorem acceptAll_run (hw : ∀ b ∈ w, set.any (fun c => c = b) = true)
    (hrest : ∀ b ∈ rest.head?, set.any (fun c => c = b) = false) :
    acceptAll set (taken, w ++ rest) = (taken ++ w, rest) := by
  obtain ⟨htake, hdrop⟩ := @span_run _ (fun b => set.any fun c => c = b) _ _ hw hrest
  rw [acceptAll, htake, hdrop]

/-- Nothing gets lost between what is taken and what is left. -/
def Joined (st st' : Text × Text) : Prop := st'.1 ++ st'.2 = st.1 ++ st.2

theorem accept_joined (set : Text) (st : Text × Text) : Joined st (accept set st) := by
  obtain ⟨taken, s⟩ := st
  cases s with
  | nil => exact rfl
  | cons b s =>
    rw [accept]
    split
    next => simp [Joined]
    next => exact rfl

theorem acceptAll_joined (set : Text) (st : Text × Text) : Joined st (acceptAll set st) := by
  obtain ⟨taken, s⟩ := st
  simp [Joined, acceptAll, List.takeWhile_append_dropWhile]

theorem Joined.trans {st'' : Text × Text} (h : Joined st st') (h' : Joined st' st'') :
    Joined st st'' :=
  Eq.trans h' h

theorem acceptWord_joined (sets : List Text) (st : Text × Text) :
    Joined st (acceptWord sets st).2 := by
  induction sets generalizing st with
  | nil => exact rfl
  | cons set sets ih =>
    unfold acceptWord
    dsimp only
    split
    next => exact (accept_joined set st).trans (ih _)
    next => exact accept_joined set st

theorem Joined.begins (h : Joined ([], s) st) : st.1 <+: s := ⟨st.2, h⟩

end Sets

section Token

variable {taken s t w rest : Text} {b : UInt8}

/-- What looks like an exponent behind a number. -/
def exponentToken (st : Text × Text) : Text × Text :=
  let marked := accept (text "eEpP") st
  if took st marked then acceptAll (text "0123456789_") (accept (text "+-") marked) else marked

/-- What looks like a point, digits behind it and an exponent. -/
def fractionToken (st : Text × Text) : Text × Text :=
  let dotted := accept (text ".") st
  exponentToken (if took st dotted then acceptAll (text "0123456789_") dotted else dotted)

/-- A text that begins with no word and no hexadecimal mark is scanned as sign, digits, point, digits
and exponent. -/
theorem doubleToken_eq
    (hnan : (acceptWord [text "nN", text "aA", text "nN"] ([], s)) = (false, ([], s)))
    (hinf : acceptWord [text "iI", text "nN", text "fF"] (accept (text "+-") ([], s)) =
      (false, accept (text "+-") ([], s)))
    {st : Text × Text}
    (hhex : acceptWord [text "0", text "xX"] (accept (text "+-") ([], s)) = (false, st)) :
    doubleToken s = (fractionToken (acceptAll (text "0123456789_") st)).1 := by
  unfold doubleToken
  rw [hnan]
  dsimp only
  rw [if_neg Bool.false_ne_true, hinf]
  dsimp only
  rw [if_neg Bool.false_ne_true, hhex]
  dsimp only
  rw [if_neg Bool.false_ne_true, if_neg Bool.false_ne_true]
  unfold fractionToken exponentToken
  dsimp only
  split
  · split
    · rfl
    · rfl
  · split
    · rfl
    · rfl

/-- What is scanned is a beginning of the text. -/
theorem doubleToken_begins (s : Text) : doubleToken s <+: s := by
  have hnan : Joined ([], s) _ := acceptWord_joined [text "nN", text "aA", text "nN"] ([], s)
  unfold doubleToken
  dsimp only
  split
  · exact hnan.begins
  have hinf := hnan.trans ((accept_joined (text "+-") _).trans
    (acceptWord_joined [text "iI", text "nN", text "fF"] _))
  split
  · exact hinf.begins
  have hhex := hinf.trans (acceptWord_joined [text "0", text "xX"] _)
  generalize (acceptWord [text "0", text "xX"] _) = marked at hhex ⊢
  generalize (if marked.1 = true then text "0123456789aAbBcCdDeEfF_" else text "0123456789_") = digits
  generalize (if marked.1 = true then text "pP" else text "eEpP") = mark
  have hdigits := hhex.trans (acceptAll_joined digits _)
  have hdotted := hdigits.trans (accept_joined (text ".") _)
  generalize accept (text ".") (acceptAll digits marked.2) = dotted at hdotted ⊢
  have hfraction : Joined ([], s) (if took (acceptAll digits marked.2) dotted = true then
      acceptAll digits dotted else dotted) := by
    split
    · exact hdotted.trans (acceptAll_joined digits _)
    · exact hdotted
  generalize (if took (acceptAll digits marked.2) dotted = true then
    acceptAll digits dotted else dotted) = fraction at hfraction ⊢
  have hmarked := hfraction.trans (accept_joined mark _)
  split
  · exact (hmarked.trans ((accept_joined (text "+-") _).trans (acceptAll_joined _ _))).begins
  · exact hmarked.begins

end Token

section Bytes

variable {set taken s w : Text} {sets : List Text} {b : UInt8}

/-- Digits and underscores. -/
def isRunByte (b : UInt8) : Bool := Ascii.isDigit b || b = Ascii.underscore

/-- Two classes of bytes are the same if a table says so. -/
theorem class_eq {p q : UInt8 → Bool}
    (htable : ((List.range 256).all fun n => p (UInt8.ofNat n) == q (UInt8.ofNat n)) = true)
    (b : UInt8) : p b = q b := by
  have hb := List.all_eq_true.mp htable b.toNat (List.mem_range.mpr b.toNat_lt)
  rw [UInt8.ofNat_toNat] at hb
  exact eq_of_beq hb

theorem digitSet_any (b : UInt8) : (text "0123456789_").any (fun c => c = b) = isRunByte b :=
  @class_eq (fun b => (text "0123456789_").any fun c => c = b) isRunByte (by decide +kernel) b

theorem markSet_any (b : UInt8) : (text "eEpP").any (fun c => c = b) =
    (decide (Ascii.lower b = 0x65) || decide (Ascii.lower b = 0x70)) :=
  @class_eq (fun b => (text "eEpP").any fun c => c = b)
    (fun b => decide (Ascii.lower b = 0x65) || decide (Ascii.lower b = 0x70)) (by decide +kernel) b

theorem signSet_any (b : UInt8) : (text "+-").any (fun c => c = b) =
    (decide (b = Ascii.plus) || decide (b = Ascii.minus)) := by
  change ([Ascii.plus, Ascii.minus] : Text).any _ = _
  simp [eq_comm]

theorem acceptDigits_run (hw : ∀ b ∈ w, isRunByte b = true)
    (hs : ∀ b ∈ s.head?, isRunByte b = false) :
    acceptAll (text "0123456789_") (taken, w ++ s) = (taken ++ w, s) := by
  refine acceptAll_run (fun b hb => ?_) fun b hb => ?_
  · rw [digitSet_any]
    exact hw b hb
  · rw [digitSet_any]
    exact hs b hb

theorem acceptWord_refused (h : ∀ b ∈ s.head?, set.any (fun c => c = b) = false) :
    acceptWord (set :: sets) (taken, s) = (false, (taken, s)) := by
  rw [acceptWord, accept_refused h, took_self, if_neg Bool.false_ne_true]

/-- The bytes of decimal numerals with underscores. -/
def IsSpacedByte (b : UInt8) : Prop := IsDecimalByte b ∨ b = Ascii.underscore

instance (b : UInt8) : Decidable (IsSpacedByte b) := by
  unfold IsSpacedByte
  infer_instance

/-- A letter of another word is refused. -/
theorem refused_of_spaced (hset : ∀ c ∈ set, ¬ IsSpacedByte c) (hs : ∀ b ∈ s, IsSpacedByte b) :
    ∀ b ∈ s.head?, set.any (fun c => c = b) = false := by
  intro b hb
  rw [List.any_eq_false]
  intro c hc heq
  have hmem : b ∈ s := List.mem_of_mem_head? hb
  exact hset c hc (of_decide_eq_true heq ▸ hs b hmem)

theorem spaced_of_decimal {m : Nat} {e : Int} (h : DecimalNumeral (bare s) m e) :
    ∀ b ∈ s, IsSpacedByte b := by
  intro b hb
  by_cases hunderscore : b = Ascii.underscore
  · exact .inr hunderscore
  · exact .inl (h.bytes b (mem_bare.mpr ⟨hb, hunderscore⟩))

theorem spaced_of_signed {m : Nat} {e : Int} (h : DecimalNumeral (bare (dropSign s)) m e) :
    ∀ b ∈ s, IsSpacedByte b :=
  forall_mem_of_dropSign (by decide) (by decide) (spaced_of_decimal h)

theorem isDigit_of_run (hw : ∀ b ∈ w, isRunByte b = true) : ∀ b ∈ bare w, Ascii.isDigit b = true := by
  intro b hb
  obtain ⟨hmem, hunderscore⟩ := mem_bare.mp hb
  simpa [isRunByte, hunderscore] using hw b hmem

theorem ne_underscore_of_stop (hb : isRunByte b = false) : b ≠ Ascii.underscore := by
  rintro rfl
  cases hb

theorem head_bare_of_stop (hs : ∀ b ∈ s.head?, isRunByte b = false) :
    (bare s).head? = s.head? ∧ ∀ b ∈ (bare s).head?, Ascii.isDigit b = false := by
  cases s with
  | nil => simp [bare]
  | cons b s =>
    have hb := hs b rfl
    rw [bare_cons (ne_underscore_of_stop hb)]
    refine ⟨rfl, ?_⟩
    intro c hc
    cases Option.some.inj hc
    exact (Bool.or_eq_false_iff.mp hb).1

end Bytes

section Decimal

variable {taken s t u w rest : Text} {mark : UInt8} {m : Nat} {e : Int}

/-- What is scanned is the whole text, or there is an underscore behind the mark of its exponent. -/
def ScansTo (token s : Text) : Prop :=
  token = s ∨ ∃ t mark r, Ascii.lower mark = 0x65 ∧ token = t ++ mark :: Ascii.underscore :: r

theorem run_of_digits (h : ∀ b ∈ bare w, IsDigitOf 10 b) : ∀ b ∈ w, isRunByte b = true := by
  intro b hb
  unfold isRunByte
  by_cases hunderscore : b = Ascii.underscore
  · simp [hunderscore]
  · rw [isDigit_iff.mpr (h b (mem_bare.mpr ⟨hb, hunderscore⟩)), Bool.true_or]

theorem accept_signed {b : UInt8} (hsign : b = Ascii.plus ∨ b = Ascii.minus) :
    accept (text "+-") (taken, b :: s) = (taken ++ [b], s) := by
  refine accept_taken ?_
  rw [signSet_any]
  simpa using hsign

theorem accept_unsigned {b : UInt8} (hplus : b ≠ Ascii.plus) (hminus : b ≠ Ascii.minus) :
    accept (text "+-") (taken, b :: s) = (taken, b :: s) := by
  refine accept_refused fun c hc => ?_
  cases Option.some.inj hc
  rw [signSet_any]
  simp [hplus, hminus]

/-- A sign, if any, and the digits behind it. -/
theorem acceptSigned (digits : ∀ b ∈ bare (dropSign t), IsDigitOf 10 b) :
    acceptAll (text "0123456789_") (accept (text "+-") (taken, t)) = (taken ++ t, []) := by
  have hrun := run_of_digits digits
  cases t with
  | nil => simp [accept, acceptAll]
  | cons b r =>
    by_cases hsign : b = Ascii.plus ∨ b = Ascii.minus
    · have hdrop : dropSign (b :: r) = r := by
        rcases hsign with rfl | rfl
        · rfl
        · rfl
      have hall := @acceptDigits_run (taken ++ [b]) [] r (hdrop ▸ hrun) (by simp)
      rw [List.append_nil] at hall
      rw [accept_signed hsign, hall, List.append_assoc, List.singleton_append]
    · obtain ⟨hplus, hminus⟩ := not_or.mp hsign
      rw [dropSign_unsigned hplus hminus] at hrun
      have hall := @acceptDigits_run taken [] (b :: r) hrun (by simp)
      rw [List.append_nil] at hall
      rw [accept_unsigned hplus hminus, hall]

theorem exponentToken_part (hstop : ∀ b ∈ t.head?, isRunByte b = false)
    (h : ExponentPart (bare t) e) : ScansTo (exponentToken (taken, t)).1 (taken ++ t) := by
  cases t with
  | nil => exact .inl (by simp [exponentToken, accept, took])
  | cons mark r =>
    rw [bare_cons (ne_underscore_of_stop (hstop mark rfl))] at h
    cases h with
    | some letter given digits =>
      have hmark : (text "eEpP").any (fun c => c = mark) = true := by
        rw [markSet_any, letter]
        rfl
      unfold exponentToken
      rw [accept_taken hmark]
      dsimp only
      rw [took_append, if_pos rfl]
      by_cases hhead : r.head? = some Ascii.underscore
      · obtain ⟨r, rfl⟩ := List.head?_eq_some_iff.mp hhead
        rw [accept_unsigned (by decide) (by decide), acceptAll, List.takeWhile_cons_of_pos (by rfl),
          List.append_assoc, List.singleton_append]
        exact .inr ⟨taken, mark, _, letter, rfl⟩
      · rw [← bare_dropSign hhead] at digits
        rw [acceptSigned digits]
        exact .inl (by simp)

/-- The digits in front of the rest of a numeral are those of the numeral. -/
theorem rest_unique {whole tail : Text} (hw : ∀ b ∈ w, isRunByte b = true)
    (hrest : ∀ b ∈ rest.head?, isRunByte b = false) (digits : ∀ b ∈ whole, IsDigitOf 10 b)
    (htail : ∀ b ∈ tail.head?, Ascii.isDigit b = false) (heq : bare (w ++ rest) = whole ++ tail) :
    bare rest = tail := by
  rw [bare_append] at heq
  exact (span_unique (isDigit_of_run hw) (head_bare_of_stop hrest).2 (isDigit_of_digits digits) htail
    heq).2

theorem fractionToken_part (hw : ∀ b ∈ w, isRunByte b = true)
    (hrest : ∀ b ∈ rest.head?, isRunByte b = false) (h : DecimalNumeral (bare (w ++ rest)) m e) :
    ScansTo (fractionToken (taken, rest)).1 (taken ++ rest) := by
  generalize hbare : bare (w ++ rest) = u at h
  cases h with
  | integral _ digits part =>
    have htail := rest_unique hw hrest digits (fun b hb => (part.head b hb).1) hbare
    rw [← htail] at part
    have hdot : ∀ b ∈ rest.head?, (text ".").any (fun c => c = b) = false := by
      intro b hb
      rw [← (head_bare_of_stop hrest).1] at hb
      have hne := (part.head b hb).2.1
      change ([Ascii.dot] : Text).any _ = _
      simpa using hne.symm
    unfold fractionToken
    rw [accept_refused hdot]
    dsimp only
    rw [took_self, if_neg Bool.false_ne_true]
    exact exponentToken_part hrest part
  | @pointed whole fraction tail _ _ digits part =>
    obtain ⟨hwhole, hfraction⟩ := List.forall_mem_append.mp digits
    have htail := rest_unique hw hrest hwhole
      (fun b hb => by cases Option.some.inj hb; rfl) hbare
    have hhead : rest.head? = some Ascii.dot := by
      rw [← (head_bare_of_stop hrest).1, htail]
      rfl
    obtain ⟨r, rfl⟩ := List.head?_eq_some_iff.mp hhead
    rw [bare_cons (by decide)] at htail
    obtain ⟨f, rest', rfl, hf, hrest'⟩ := exists_span isRunByte r
    have hpart := rest_unique hf hrest' hfraction (fun b hb => (part.head b hb).1)
      (List.cons.inj htail).2
    rw [← hpart] at part
    have hscan := @exponentToken_part (taken ++ [Ascii.dot] ++ f) rest' _ hrest' part
    unfold fractionToken
    rw [accept_taken (show (text ".").any (fun c => c = Ascii.dot) = true from rfl)]
    dsimp only
    rw [took_append, if_pos rfl, acceptDigits_run hf hrest']
    simpa only [List.append_assoc, List.cons_append, List.nil_append] using hscan

/-- The sign of a text is accepted. -/
theorem accept_sign (s : Text) :
    ∃ sg, s = sg ++ dropSign s ∧ accept (text "+-") ([], s) = (sg, dropSign s) := by
  cases s with
  | nil => exact ⟨[], rfl, rfl⟩
  | cons b s =>
    by_cases hsign : b = Ascii.plus ∨ b = Ascii.minus
    · refine ⟨[b], ?_⟩
      rcases hsign with rfl | rfl
      · exact ⟨rfl, rfl⟩
      · exact ⟨rfl, rfl⟩
    · obtain ⟨hplus, hminus⟩ := not_or.mp hsign
      rw [dropSign_unsigned hplus hminus]
      exact ⟨[], rfl, accept_unsigned hplus hminus⟩

/-- A leading zero is accepted before other digits, if no hexadecimal mark stands behind it. -/
theorem acceptZero (hu : ∀ b ∈ u, IsSpacedByte b) :
    ∃ z u', u = z ++ u' ∧ (∀ b ∈ z, isRunByte b = true) ∧
      acceptWord [text "0", text "xX"] (taken, u) = (false, (taken ++ z, u')) := by
  by_cases hzero : u.head? = some Ascii.zero
  · obtain ⟨u', rfl⟩ := List.head?_eq_some_iff.mp hzero
    have hx := @refused_of_spaced (text "xX") u' (by decide +kernel)
      fun b hb => hu b (List.mem_cons_of_mem Ascii.zero hb)
    refine ⟨[Ascii.zero], u', rfl, by decide +kernel, ?_⟩
    rw [acceptWord, accept_taken (show (text "0").any (fun c => c = Ascii.zero) = true from rfl),
      took_append, if_pos rfl]
    exact acceptWord_refused hx
  · refine ⟨[], u, rfl, by simp, ?_⟩
    rw [List.append_nil]
    refine acceptWord_refused fun b hb => ?_
    have hne : Ascii.zero ≠ b := by
      rintro rfl
      exact hzero hb
    change ([Ascii.zero] : Text).any _ = _
    simpa using hne

/-- Of a decimal numeral nothing is left, unless an underscore stands behind the mark of its
exponent. -/
theorem doubleToken_decimal (h : DecimalNumeral (bare (dropSign s)) m e) :
    ScansTo (doubleToken s) s := by
  have hspaced := spaced_of_decimal h
  have hall := spaced_of_signed h
  obtain ⟨sg, hs, hsign⟩ := accept_sign s
  obtain ⟨z, u', hu, hz, hzero⟩ := @acceptZero sg _ hspaced
  obtain ⟨w, rest, rfl, hw, hrest⟩ := exists_span isRunByte u'
  have hnan : acceptWord [text "nN", text "aA", text "nN"] ([], s) = (false, ([], s)) :=
    acceptWord_refused (refused_of_spaced (by decide +kernel) hall)
  have hinf : acceptWord [text "iI", text "nN", text "fF"] (sg, dropSign s) =
      (false, (sg, dropSign s)) :=
    acceptWord_refused (refused_of_spaced (by decide +kernel) hspaced)
  have hrun : ∀ b ∈ z ++ w, isRunByte b = true := List.forall_mem_append.mpr ⟨hz, hw⟩
  rw [hu, ← List.append_assoc] at h
  have hscan := @fractionToken_part (sg ++ z ++ w) _ _ _ _ hrun hrest h
  rw [doubleToken_eq hnan (by rw [hsign, hinf]) (by rw [hsign, hzero]), acceptDigits_run hw hrest]
  have hjoin : sg ++ z ++ w ++ rest = s := by
    rw [hs, hu]
    simp
  rwa [hjoin] at hscan

end Decimal

section Scanned

variable {s t x : Text} {d : Double} {m : Nat} {e : Int} {b : UInt8}

theorem cut?_of_notMem (h : b ∉ s) : Text.cut? [b] s = none := by
  induction s with
  | nil => rfl
  | cons c s ih =>
    have hne : b ≠ c := List.ne_of_not_mem_cons h
    rw [Text.cut?, Text.after?, if_neg hne]
    dsimp only
    rw [ih (List.not_mem_of_not_mem_cons h)]
    rfl

/-- What is scanned of a text without words is read as it stands. -/
theorem scanDouble?_wordless (hskip : skipBlanks? s = some s) (hs : IsWordless s)
    (h : scanDouble? s = some d) : readDouble (doubleToken s) = .ok d := by
  have hmem : 0x70 ∉ doubleToken s :=
    fun hb => (hs 0x70 ((doubleToken_begins s).subset hb)).2 rfl
  unfold scanDouble? at h
  rw [hskip] at h
  simp only [Option.bind_eq_bind, Option.bind_some] at h
  split at h
  next => cases h
  next =>
    rw [show text "p" = [0x70] from rfl, cut?_of_notMem hmem] at h
    exact toOption_eq_some h

theorem dropSign_append (hx : ∀ b ∈ x.head?, b ≠ Ascii.plus ∧ b ≠ Ascii.minus) :
    dropSign (t ++ x) = dropSign t ++ x := by
  cases t with
  | nil =>
    cases x with
    | nil => rfl
    | cons b x => exact dropSign_unsigned (hx b rfl).1 (hx b rfl).2
  | cons b t =>
    by_cases hplus : b = Ascii.plus
    · rw [hplus]
      rfl
    by_cases hminus : b = Ascii.minus
    · rw [hminus]
      rfl
    rw [List.cons_append, dropSign_unsigned hplus hminus, dropSign_unsigned hplus hminus,
      List.cons_append]

/-- No number has an underscore behind the mark of its exponent. -/
theorem readDouble_unspaced {mark : UInt8} {r : Text} (letter : Ascii.lower mark = 0x65)
    (hs : IsWordless (t ++ mark :: Ascii.underscore :: r))
    (h : readDouble (t ++ mark :: Ascii.underscore :: r) = .ok d) : False := by
  have hmark : ∀ c, Ascii.lower c ≠ 0x65 → mark ≠ c := by
    rintro c hc rfl
    exact hc letter
  obtain ⟨fits, m, e, hdecimal, -⟩ :=
    readDouble_reads (special?_eq_none hs) (hexDigits?_of_wordless hs h) h
  have hfit := fits (by simp)
  have hdrop : dropSign (t ++ mark :: Ascii.underscore :: r) =
      dropSign t ++ mark :: Ascii.underscore :: r := by
    refine dropSign_append fun b hb => ?_
    cases Option.some.inj hb
    exact ⟨hmark _ (by decide), hmark _ (by decide)⟩
  rw [underscoresFit_decimal hdecimal, hdrop] at hfit
  have hother := underscoresFrom_suffix (not_isDigit_of_mark letter rfl) (hmark _ (by decide)) hfit
  exact underscoresFrom_other hother rfl

/-- A decimal numeral is scanned as a whole and for its own number. -/
theorem scanDouble?_decimal (hskip : skipBlanks? s = some s)
    (hdecimal : DecimalNumeral (bare (dropSign s)) m e) (h : scanDouble? s = some d) :
    doubleToken s = s ∧ (Ascii.underscore ∈ s → underscoresFit s = true) ∧
      BinaryFormat.double.ofDecimal m e ≠ .infinite ∧
      d = (Number.finite (isNegative s) m e).toDouble := by
  have hs : IsWordless s := by
    intro b hb
    rcases spaced_of_signed hdecimal b hb with hb | rfl
    · exact wordless_of_decimalByte hb
    · decide
  have hread := scanDouble?_wordless hskip hs h
  rcases doubleToken_decimal hdecimal with hwhole | ⟨t, mark, r, letter, heq⟩
  · rw [hwhole] at hread
    obtain ⟨fits, m', e', hdecimal', finite, hvalue⟩ :=
      readDouble_reads (special?_eq_none hs) (hexDigits?_of_wordless hs hread) hread
    obtain ⟨rfl, rfl⟩ := hdecimal.unique hdecimal'
    exact ⟨hwhole, fits, finite, hvalue⟩
  · have htoken : IsWordless (doubleToken s) := fun b hb => hs b ((doubleToken_begins s).subset hb)
    rw [heq] at hread htoken
    exact (readDouble_unspaced letter htoken hread).elim

theorem toInt_of_isInt64 {k : Int} {i : Int64}
    (h : (if isInt64 k = true then some (Int64.ofInt k) else none) = some i) : i.toInt = k := by
  split at h
  next hrange =>
    cases h
    exact toInt_ofInt_of_isInt64 hrange
  next => cases h

/-- An integer is scanned from the digits behind the sign. -/
theorem scanInt?_reads {i : Int64} (hskip : skipBlanks? s = some s) (h : scanInt? s = some i) :
    (dropSign s).takeWhile Ascii.isDigit ≠ [] ∧
      i.toInt = if isNegative s then -(Text.digitsValue ((dropSign s).takeWhile Ascii.isDigit) : Int)
        else Text.digitsValue ((dropSign s).takeWhile Ascii.isDigit) := by
  unfold scanInt? at h
  rw [hskip] at h
  dsimp only [Option.bind_eq_bind, Option.bind_some] at h
  split at h
  next => cases h
  next hdigits =>
    refine ⟨hdigits, ?_⟩
    rw [toInt_of_isInt64 h]
    simp only [isNegative, decide_eq_true_eq]

end Scanned

end ScopedAggregation.Numeral
