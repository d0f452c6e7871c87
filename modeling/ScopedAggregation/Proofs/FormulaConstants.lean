import ScopedAggregation.Proofs.DecimalNumerals
import ScopedAggregation.Proofs.FormulaNesting
import ScopedAggregation.Proofs.NumeralReading
import ScopedAggregation.Proofs.RenderSuccess
import ScopedAggregation.Proofs.ValueTree

namespace ScopedAggregation

theorem Compiler.compile_literal (limit : Int) (v : Value) (ctx : Context) :
    ((ofLimit limit).compile (some (.literal v)) ctx).1 = .ok (renderLiteral v) := by
  have hlimit : 0 < (ofLimit limit).maxDepth := by
    unfold ofLimit
    split
    next => decide
    next => show 0 < limit.toNat; omega
  exact compile_eq_ok.mpr ⟨.literal v, rfl, nofun, Expr.rendersTo_literal.mpr ⟨hlimit, rfl⟩⟩

namespace Formula

section

variable {pos : Nat} {b : UInt8} {s rest : Text} {t : Token}

/-- Behind a word that reaches to the end of the text there is only the end. -/
theorem tokensAfter_last (hblank : Text.isBlankByte b = false)
    (h : tokenAt pos b rest = .ok (t, rest.length + 1)) :
    tokensAfter 0 pos (b :: rest) = .ok [t, ⟨.eof, [], pos + (rest.length + 1)⟩] := by
  have hend : tokensAfter rest.length (pos + 1) rest =
      .ok [⟨.eof, [], pos + (rest.length + 1)⟩] := by
    have hpos : pos + 1 + rest.length = pos + (rest.length + 1) := by omega
    rw [tokensAfter_drop (Nat.le_refl _), List.drop_length, hpos]
    rfl
  rw [tokensAfter, hblank, if_neg Bool.false_ne_true, h, ok_bind]
  dsimp only
  rw [Nat.add_sub_cancel, hend]
  rfl

theorem parse_of_tokenize {ts : List Token} (hlength : s.length ≤ maxLength)
    (htokens : tokenize s = .ok ts) : parse s = parseTokens ts := by
  unfold parse
  rw [if_neg (by omega), htokens]

/-- Each word of a text but its end is read at some place of the text. -/
theorem mem_tokensAfter {skip : Nat} {ts : List Token} (h : tokensAfter skip pos s = .ok ts)
    (ht : t ∈ ts) : t.lexeme = .eof ∨ ∃ pos b rest width, tokenAt pos b rest = .ok (t, width) := by
  induction s generalizing skip pos ts with
  | nil =>
    cases skip <;> cases h <;>
      · rw [List.mem_singleton.mp ht]
        exact .inl rfl
  | cons b rest ih =>
    cases skip with
    | succ skip => exact ih h ht
    | zero =>
      rw [tokensAfter] at h
      split at h
      next => exact ih h ht
      next =>
        obtain ⟨⟨t', width⟩, hread, h⟩ := bind_eq_ok.mp h
        obtain ⟨ts', hts, h⟩ := bind_eq_ok.mp h
        cases h
        rcases List.mem_cons.mp ht with rfl | ht
        · exact .inr ⟨pos, b, rest, width, hread⟩
        · exact ih hts ht

end

section Strings

variable {q : UInt8} (hq : isQuote q = true)

/-- A byte as it is written between quotes `q`. -/
def escapedByte (q b : UInt8) : Text :=
  if b = Ascii.backslash ∨ b = q then [Ascii.backslash, b] else [b]

/-- A string between quotes `q`. -/
def stringLiteral (q : UInt8) (s : Text) : Text := q :: (s.flatMap (escapedByte q) ++ [q])

include hq

theorem escaped_of_marked {b : UInt8} (h : b = Ascii.backslash ∨ b = q) : escaped b = [b] := by
  simp only [isQuote, Bool.or_eq_true, decide_eq_true_eq] at hq
  have hmarks : b = Ascii.backslash ∨ b = Ascii.doubleQuote ∨ b = Ascii.singleQuote := by
    rcases h with hb | hb
    · exact .inl hb
    · exact .inr (hb ▸ hq)
  rcases hmarks with rfl | rfl | rfl <;> rfl

/-- Reading a string undoes the escapes byte by byte, and stops at the first quote without one. -/
theorem readString?_escaped (s rest : Text) :
    readString? q (s.flatMap (escapedByte q) ++ q :: rest) =
      some (s, (s.flatMap (escapedByte q)).length + 1) := by
  have hquote : q ≠ Ascii.backslash := ne_backslash_of_isQuote hq
  have hplain : ∀ (b : UInt8) (t : Text), b ≠ Ascii.backslash → readString? q (b :: t) =
      if b = q then some ([], 1)
      else (readString? q t).map fun r => (b :: r.1, r.2 + 1) := by
    intro b t hb
    rw [readString?]
    intro _ _ hc
    exact absurd hc hb
  induction s with
  | nil =>
    rw [List.flatMap_nil, List.nil_append, hplain q rest hquote, if_pos rfl]
    rfl
  | cons b s ih =>
    rw [List.flatMap_cons, List.append_assoc]
    by_cases hb : b = Ascii.backslash ∨ b = q
    · have hpair : escapedByte q b = [Ascii.backslash, b] := if_pos hb
      rw [hpair, List.cons_append, List.cons_append, List.nil_append, readString?, ih,
        Option.map_some, escaped_of_marked hq hb]
      rw [List.length_append]
      simp only [List.length_cons, List.length_nil, List.singleton_append]
      congr 2
      omega
    · have hsingle : escapedByte q b = [b] := if_neg hb
      obtain ⟨hback, hne⟩ := not_or.mp hb
      rw [hsingle, List.singleton_append, hplain b _ hback, if_neg hne, ih, Option.map_some,
        List.singleton_append, List.length_cons]

theorem tokenize_stringLiteral (s : Text) :
    tokenize (stringLiteral q s) =
      .ok [⟨.string s, stringLiteral q s, 0⟩, ⟨.eof, [], (stringLiteral q s).length⟩] := by
  have hblank : Text.isBlankByte q = false := by
    simp only [isQuote, Bool.or_eq_true, decide_eq_true_eq] at hq
    rcases hq with rfl | rfl <;> decide
  have hread := readString?_escaped hq s []
  have htoken : tokenAt 0 q (s.flatMap (escapedByte q) ++ [q]) =
      .ok (⟨.string s, stringLiteral q s, 0⟩, (s.flatMap (escapedByte q) ++ [q]).length + 1) := by
    have hall : (stringLiteral q s).take ((s.flatMap (escapedByte q)).length + 1 + 1) =
        stringLiteral q s := by
      apply List.take_of_length_le
      simp [stringLiteral]
    have hcond : (q = Ascii.doubleQuote || q = Ascii.singleQuote) = true := hq
    rw [tokenAt, if_pos hcond, hread]
    dsimp only
    rw [← stringLiteral, hall, List.length_append, List.length_singleton]
  have hlast := tokensAfter_last hblank htoken
  rw [Nat.zero_add] at hlast
  exact hlast

/-- A string between quotes is one word, which has the string for its value, and as a formula it stands
for the string: compiled it is the string, or a literal one where a reader would take it for a
reference. -/
theorem string_literal_read (s : Text) :
    tokenize (stringLiteral q s) =
      .ok [⟨.string s, stringLiteral q s, 0⟩, ⟨.eof, [], (stringLiteral q s).length⟩] ∧
    ((stringLiteral q s).length ≤ maxLength →
      parse (stringLiteral q s) = .ok (.literal (.string s)) ∧
      ∀ limit ctx, ((Compiler.ofLimit limit).compile (some (.literal (.string s))) ctx).1 =
        .ok (if s.head? = some Ascii.dollar then Value.doc (text "$literal") (.string s)
          else .string s)) := by
  have htokens := tokenize_stringLiteral hq s
  refine ⟨htokens, fun hlength => ⟨?_, ?_⟩⟩
  · rw [parse_of_tokenize hlength htokens]
    rfl
  · intro limit ctx
    have hreference : isReference s = true ↔ s.head? = some Ascii.dollar := by
      cases s with
      | nil => decide
      | cons b s => rw [isReference_cons, List.head?_cons, Option.some.injEq]
    rw [Compiler.compile_literal, renderLiteral, Value.holdsReference]
    simp only [hreference]

end Strings

/-- A text with an escape, both quotes, a backslash at its end and a byte that is no UTF-8. -/
def escapedMarks : Text := text "$a\\n\"'" ++ [0xff, Ascii.backslash]

theorem escapedMarks_read :
    isQuote Ascii.singleQuote = true ∧ (stringLiteral Ascii.singleQuote escapedMarks).length ≤ maxLength ∧
      stringLiteral Ascii.singleQuote escapedMarks =
        text "'$a\\\\n\"\\'" ++ [0xff] ++ text "\\\\'" ∧
      parse (stringLiteral Ascii.singleQuote escapedMarks) = .ok (.literal (.string escapedMarks)) := by
  have hlength : (stringLiteral Ascii.singleQuote escapedMarks).length ≤ maxLength := by decide
  have hread := (string_literal_read (q := Ascii.singleQuote) (by decide) escapedMarks).2 hlength
  exact ⟨by decide, hlength, by decide, hread.1⟩

section Integers

variable {n pos width : Nat} {b : UInt8} {ds rest : Text}

theorem numberSpan_digits (h : ∀ b ∈ ds, Ascii.isDigit b = true) (seenPoint afterMark : Bool) :
    numberSpan seenPoint afterMark ds = ds := by
  induction ds generalizing afterMark with
  | nil => rfl
  | cons b ds ih =>
    obtain ⟨hb, hds⟩ := List.forall_mem_cons.mp h
    rw [numberSpan, if_pos hb, ih hds]

/-- Digits are read as their number if it is small enough. -/
theorem readInt_digits {i : Int} (h : ∀ b ∈ ds, Ascii.isDigit b = true) :
    Numeral.readInt (some 10) ds = .ok i ↔
      ds ≠ [] ∧ i = Text.digitsValue ds ∧ Text.digitsValue ds < int64Bound := by
  have hunsigned : ∀ c, Ascii.isDigit c = false → c ∉ ds := by
    intro c hc hmem
    rw [h c hmem] at hc
    cases hc
  have hminus : ds.head? ≠ some Ascii.minus := by
    intro heq
    exact hunsigned Ascii.minus (by decide) (List.mem_of_mem_head? heq)
  have hplus : ds.head? ≠ some Ascii.plus := by
    intro heq
    exact hunsigned Ascii.plus (by decide) (List.mem_of_mem_head? heq)
  have hdrop : Numeral.dropSign ds = ds :=
    Yaml.dropSign_of_unsigned (by simpa [Yaml.isNegative] using hminus) hplus
  have hread : ∀ m, Numeral.readNat (some 10) ds = .ok m ↔
      ds ≠ [] ∧ Text.digitsValue ds = m ∧ m < 2 * int64Bound := by
    intro m
    have hdigits : ∀ b ∈ ds, Yaml.IsDigitOf 10 b := fun b hb => Yaml.isDigit_iff.mp (h b hb)
    rw [Numeral.readNat_some_eq_ok (by decide) (hunsigned Ascii.underscore (by decide)),
      Yaml.valueOf_ten h]
    exact and_congr_right fun _ => and_iff_right hdigits
  unfold Numeral.readInt
  rw [hdrop]
  simp only [hminus, if_false]
  constructor
  · intro hok
    obtain ⟨m, hm, hok⟩ := bind_eq_ok.mp hok
    obtain ⟨given, hvalue, -⟩ := (hread m).mp hm
    split at hok
    next => cases hok
    next hbound =>
      cases hok
      exact ⟨given, by rw [hvalue], by omega⟩
  · rintro ⟨given, rfl, hbound⟩
    have hm := (hread (Text.digitsValue ds)).mpr ⟨given, rfl, by omega⟩
    rw [hm, ok_bind, if_neg (by omega)]
    rfl

theorem readNumber_digits (pos : Nat) (given : ds ≠ []) (h : ∀ b ∈ ds, Ascii.isDigit b = true) :
    readNumber pos ds =
      if Text.digitsValue ds < int64Bound then .ok (.int (Int64.ofInt (Text.digitsValue ds)))
      else .error (.badInteger ds pos) := by
  unfold readNumber
  rw [if_pos (List.all_eq_true.mpr h)]
  split
  next i hi =>
    obtain ⟨-, rfl, hbound⟩ := (readInt_digits h).mp hi
    rw [if_pos hbound]
  next e he =>
    rw [if_neg]
    intro hbound
    rw [(readInt_digits h).mpr ⟨given, rfl, hbound⟩] at he
    cases he

theorem tokensAfter_digits (pos : Nat) (given : ds ≠ []) (h : ∀ b ∈ ds, Ascii.isDigit b = true) :
    tokensAfter 0 pos ds =
      if Text.digitsValue ds < int64Bound then
        .ok [⟨.int (Int64.ofInt (Text.digitsValue ds)), ds, pos⟩, ⟨.eof, [], pos + ds.length⟩]
      else .error (.badInteger ds pos) := by
  have hnumber := readNumber_digits pos given h
  cases ds with
  | nil => exact absurd rfl given
  | cons b rest =>
    have hb : Ascii.isDigit b = true := h b List.mem_cons_self
    have hblank : Text.isBlankByte b = false :=
      (Numeral.numeralByte_plain (by simp [Numeral.isNumeralByte, hb])).2
    have hquote : (b = Ascii.doubleQuote || b = Ascii.singleQuote) = false := by
      rw [Bool.or_eq_false_iff, decide_eq_false_iff_not, decide_eq_false_iff_not]
      constructor
      · rintro rfl
        cases hb
      · rintro rfl
        cases hb
    have htoken : tokenAt pos b rest =
        (readNumber pos (b :: rest)).map fun l => (⟨l, b :: rest, pos⟩, rest.length + 1) := by
      rw [tokenAt, hquote, if_neg Bool.false_ne_true, if_pos hb, numberSpan_digits h]
      rfl
    rw [hnumber] at htoken
    split
    next hbound =>
      rw [if_pos hbound] at htoken
      exact tokensAfter_last hblank htoken
    next hbound =>
      rw [if_neg hbound] at htoken
      rw [tokensAfter, hblank, if_neg Bool.false_ne_true, htoken]
      rfl

/-- A minus sign is a word of its own, also before digits. -/
theorem tokensAfter_minus (pos : Nat) (s : Text) :
    tokensAfter 0 pos (Ascii.minus :: s) =
      (tokensAfter 0 (pos + 1) s).map fun ts => ⟨.minus, [Ascii.minus], pos⟩ :: ts := by
  have hpair : s.head?.bind (pairSign? Ascii.minus) = none := by
    cases s with
    | nil => rfl
    | cons c s => rfl
  have htoken : tokenAt pos Ascii.minus s = .ok (⟨.minus, [Ascii.minus], pos⟩, 1) := by
    rw [tokenAt, if_neg (by decide), if_neg (by decide), if_neg (by decide), hpair]
    rfl
  rw [tokensAfter, if_neg (by decide), htoken, ok_bind]
  dsimp only
  cases tokensAfter (1 - 1) (pos + 1) s with
  | error e => rfl
  | ok ts => rfl

theorem length_ofNat_le_twenty (hn : n ≤ int64Bound) : (Text.ofNat n).length ≤ 20 :=
  Text.length_ofNat_le (by decide) (by simp only [int64Bound] at hn; omega)

theorem parse_ofNat (hn : n < int64Bound) :
    parse (Text.ofNat n) = .ok (.literal (.int (Int64.ofInt n))) := by
  have hlength := length_ofNat_le_twenty (Nat.le_of_lt hn)
  have htokens := tokensAfter_digits 0 (Text.ofNat_ne_nil n) fun _ => Text.isDigit_of_mem_ofNat
  rw [Text.digitsValue_ofNat, if_pos hn] at htokens
  rw [parse_of_tokenize (Nat.le_trans hlength (by decide)) htokens]
  rfl

/-- Behind a sign the numeral is read first, and the sign is applied to the number. -/
theorem parse_minus_ofNat (hn : n ≤ int64Bound) :
    parse (Ascii.minus :: Text.ofNat n) =
      if n < int64Bound then .ok (.literal (.int (-Int64.ofInt n)))
      else .error (.lexical (.badInteger (Text.ofNat n) 1)) := by
  have hlength : (Ascii.minus :: Text.ofNat n).length ≤ maxLength := by
    have hdigits := length_ofNat_le_twenty hn
    show (Text.ofNat n).length + 1 ≤ 4096
    omega
  have htokens := tokensAfter_digits 1 (Text.ofNat_ne_nil n) fun _ => Text.isDigit_of_mem_ofNat
  have hminus : tokenize (Ascii.minus :: Text.ofNat n) = _ := tokensAfter_minus 0 (Text.ofNat n)
  rw [htokens, Text.digitsValue_ofNat] at hminus
  split
  next hbound =>
    rw [if_pos hbound] at hminus
    rw [parse_of_tokenize hlength hminus]
    rfl
  next hbound =>
    rw [if_neg hbound] at hminus
    unfold parse
    rw [if_neg (by omega), hminus]
    rfl

theorem toInt_ofInt_small (hn : n < int64Bound) : (Int64.ofInt n).toInt = n :=
  Int64.toInt_ofInt_of_le (by omega) (by simp only [int64Bound] at hn; omega)

theorem readNumber_int {span : Text} {m : Int64} (h : readNumber pos span = .ok (.int m)) :
    0 ≤ m.toInt := by
  unfold readNumber at h
  split at h
  next hdigits =>
    split at h
    next i hi =>
      cases h
      obtain ⟨-, rfl, hbound⟩ := (readInt_digits (List.all_eq_true.mp hdigits)).mp hi
      have hvalue := toInt_ofInt_small hbound
      omega
    next => cases h
  next =>
    split at h
    next => cases h
    next => cases h

/-- An integer among the words of a text is not negative. -/
theorem ReadsWord.int_nonneg {t : Token} {m : Int64} (h : ReadsWord pos b rest t width)
    (hint : t.lexeme = .int m) : 0 ≤ m.toInt := by
  cases h with
  | number _ hread => exact readNumber_int (hread.trans (congrArg _ hint))
  | string => cases hint
  | field => cases hint
  | var => cases hint
  | pair hpair =>
    cases hint
    unfold pairSign? at hpair
    split at hpair <;> cases hpair
  | sign hsign =>
    cases hint
    unfold sign? at hsign
    split at hsign <;> cases hsign
  | @name _ _ word =>
    have table : ∀ p ∈ keywords, p.2.classIndex ≠ 0 := by decide
    cases hlookup : keywords.lookup word with
    | none => rw [hlookup] at hint; cases hint
    | some l =>
      obtain ⟨before, after, hsplit, -⟩ := List.lookup_eq_some_iff.mp hlookup
      rw [hlookup] at hint
      have hclass := table (word, l) (by simp [hsplit])
      rw [show l = .int m from hint] at hclass
      exact absurd rfl hclass

/-- So a sign can be applied to it without a loss. -/
theorem toInt_neg_of_nonneg {m : Int64} (h : 0 ≤ m.toInt) : (-m).toInt = -m.toInt := by
  have hlt := m.toInt_lt
  have hneg : -m = Int64.ofInt (-m.toInt) := by rw [Int64.ofInt_neg, Int64.ofInt_toInt]
  rw [hneg]
  exact Int64.toInt_ofInt_of_le (by omega) (by omega)

end Integers

theorem parse_leastInteger : parse (Text.ofInt Int64.minValue.toInt) =
    .error (.lexical (.badInteger (text "9223372036854775808") 1)) := by
  have hnumeral : Text.ofInt Int64.minValue.toInt = Ascii.minus :: Text.ofNat int64Bound := by decide
  have hdigits : Text.ofNat int64Bound = text "9223372036854775808" := by decide
  rw [hnumeral, parse_minus_ofNat (Nat.le_refl _), if_neg (Nat.lt_irrefl _), hdigits]

theorem parse_otherInteger {n : Int64} (hn : n ≠ Int64.minValue) :
    parse (Text.ofInt n.toInt) = .ok (.literal (.int n)) := by
  have hle := n.le_toInt
  have hlt := n.toInt_lt
  have hleast : n.toInt ≠ Int64.minValue.toInt := fun h => hn (Int64.toInt_inj.mp h)
  rw [Int64.toInt_minValue] at hleast
  cases hi : n.toInt with
  | ofNat k =>
    have hk : (k : Int) = n.toInt := hi.symm
    have hbound : k < int64Bound := by simp only [int64Bound]; omega
    have hvalue : Int64.ofInt k = n := by rw [hk, Int64.ofInt_toInt]
    rw [Text.ofInt, parse_ofNat hbound, hvalue]
  | negSucc k =>
    have hk : -((k + 1 : Nat) : Int) = n.toInt := hi.symm
    have hbound : k + 1 < int64Bound := by simp only [int64Bound]; omega
    have hvalue : -Int64.ofInt (k + 1 : Nat) = n := by rw [← Int64.ofInt_neg, hk, Int64.ofInt_toInt]
    rw [Text.ofInt, parse_minus_ofNat (Nat.le_of_lt hbound), if_pos hbound, hvalue]

/-- Every integer but the least is read from its numeral, compiles to itself and is written with that
numeral again. The least one is not read, since without the sign its digits are too large. In every
text a sign before an integer is applied without overflow. -/
theorem integer_formula_read (n : Int64) :
    parse (Text.ofInt n.toInt) =
      (if n = Int64.minValue then .error (.lexical (.badInteger (text "9223372036854775808") 1))
        else .ok (.literal (.int n))) ∧
    (∀ limit ctx, ((Compiler.ofLimit limit).compile (some (.literal (.int n))) ctx).1 = .ok (.int n)) ∧
    (Value.int n).encode = .ok (Text.ofInt n.toInt) ∧
    ∀ s ts t m, tokenize s = .ok ts → t ∈ ts → t.lexeme = .int m → (-m).toInt = -m.toInt := by
  refine ⟨?_, ?_, rfl, ?_⟩
  · split
    next hn => rw [hn, parse_leastInteger]
    next hn => exact parse_otherInteger hn
  · intro limit ctx
    rw [Compiler.compile_literal]
    rfl
  · intro s ts t m hts ht hint
    rcases mem_tokensAfter hts ht with hend | ⟨pos, b, rest, width, hread⟩
    · rw [hend] at hint
      cases hint
    · exact toInt_neg_of_nonneg ((tokenAt_reads hread).int_nonneg hint)

/-- The integer next to the least one. -/
def lowInteger : Int64 := -9223372036854775807

theorem lowInteger_read :
    Text.ofInt lowInteger.toInt = text "-9223372036854775807" ∧
      parse (text "-9223372036854775807") = .ok (.literal (.int lowInteger)) ∧
      lowInteger.toInt = -(9223372036854775807 : Int64).toInt := by
  have htokens : tokenize (text "-9223372036854775807") =
      .ok [⟨.minus, text "-", 0⟩, ⟨.int 9223372036854775807, text "9223372036854775807", 1⟩,
        ⟨.eof, [], 20⟩] := by decide
  have hread := integer_formula_read lowInteger
  have hfold := hread.2.2.2 _ _ _ 9223372036854775807 htokens
    (List.mem_cons_of_mem _ List.mem_cons_self) rfl
  exact ⟨by decide, hread.1, hfold⟩

/-- The least integer has a numeral as a value, but not as a formula. -/
theorem leastInteger_not_read :
    (Value.int Int64.minValue).encode = .ok (text "-9223372036854775808") ∧
      ∀ e, parse (text "-9223372036854775808") ≠ .ok e := by
  have hread : parse (text "-9223372036854775808") =
      .error (.lexical (.badInteger (text "9223372036854775808") 1)) := parse_leastInteger
  refine ⟨by decide, fun e he => ?_⟩
  rw [hread] at he
  cases he

end Formula

end ScopedAggregation
