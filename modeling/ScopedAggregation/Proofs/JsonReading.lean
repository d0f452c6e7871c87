import ScopedAggregation.Proofs.Utf8Bytes
import ScopedAggregation.Store.Record
import Mathlib.Data.List.Forall2
import Mathlib.Tactic.IntervalCases

namespace ScopedAggregation.Json

/-- A byte that stands for itself inside a string. -/
def isPlainByte (b : UInt8) : Bool := 0x20 ≤ b && b ≠ 0x22 && b ≠ 0x5c

theorem readStringFrom_plainByte {b : UInt8} (h : isPlainByte b = true) (n : Nat) (t : Text) :
    readStringFrom (n + 1) (b :: t) = (readStringFrom n t).map fun p => (b :: p.1, p.2) := by
  simp only [isPlainByte, Bool.and_eq_true, decide_eq_true_eq] at h
  obtain ⟨⟨hlow, hquote⟩, hslash⟩ := h
  have hcontrol : ¬ b < 0x20 := by simpa using hlow
  have hescape : b ≠ Ascii.backslash := hslash
  rw [readStringFrom]
  · simp only [hcontrol, hescape, decide_false, Bool.or_self, Bool.false_eq_true, if_false]
    cases readStringFrom n t with
    | none => rfl
    | some p => rfl
  · exact hquote
  · exact fun _ hb => absurd hb hslash
  · exact fun _ _ hb => absurd hb hslash

theorem readStringFrom_plain {bs : Text} (h : ∀ b ∈ bs, isPlainByte b = true) (n : Nat) (t : Text) :
    readStringFrom (n + bs.length) (bs ++ t) =
      (readStringFrom n t).map fun p => (bs ++ p.1, p.2) := by
  induction bs with
  | nil => cases hr : readStringFrom n t <;> simp [hr]
  | cons b bs ih =>
    obtain ⟨hb, hbs⟩ := List.forall_mem_cons.mp h
    rw [List.length_cons, ← Nat.add_assoc, List.cons_append, readStringFrom_plainByte hb, ih hbs,
      Option.map_map]
    rfl

/-- A character that is written without an escape is written with bytes that stand for
themselves. -/
theorem isPlainByte_encodeChar {c : Char} (hlow : 0x20 ≤ c.toNat) (hquote : c.toNat ≠ 0x22)
    (hslash : c.toNat ≠ 0x5c) : ∀ b ∈ Utf8.encodeChar c, isPlainByte b = true := by
  intro b hb
  have bytes := Utf8.bytes_encodeChar hb
  simp only [isPlainByte, Bool.and_eq_true, decide_eq_true_eq, UInt8.le_iff_toNat_le, ne_eq,
    ← UInt8.toNat_inj, UInt8.reduceToNat]
  omega

theorem readHex4_hex {n : Nat}
    (h : n < 0x20 ∨ n = 0x3c ∨ n = 0x3e ∨ n = 0x26 ∨ n = 0x2028 ∨ n = 0x2029) (t : Text) :
    readHex4 (Text.hex 4 n ++ t) = some (n, t) := by
  rcases h with h | rfl | rfl | rfl | rfl | rfl
  · interval_cases n <;> rfl
  all_goals rfl

theorem joinHalves_character {n : Nat} (h : n < 0xd800) (t : Text) :
    joinHalves n t = (Char.ofNat n, t) := by
  have high : isHighHalf n = false := by simp [isHighHalf]; omega
  have low : isLowHalf n = false := by simp [isLowHalf]; omega
  simp [joinHalves, high, low]

theorem readStringFrom_escape {b c : UInt8} (hb : b ≠ 0x75) (h : shortEscape? b = some c) (n : Nat)
    (t : Text) :
    readStringFrom (n + 1) (0x5c :: b :: t) =
      (readStringFrom n t).map fun p => (c :: p.1, p.2) := by
  rw [readStringFrom]
  · rw [h]
    cases readStringFrom n t with
    | none => simp
    | some p => simp
  · exact hb

theorem readStringFrom_numbered {k : Nat}
    (h : k < 0x20 ∨ k = 0x3c ∨ k = 0x3e ∨ k = 0x26 ∨ k = 0x2028 ∨ k = 0x2029) (n : Nat) (t : Text) :
    readStringFrom (n + 1) (text "\\u" ++ Text.hex 4 k ++ t) =
      (readStringFrom n t).map fun p => (Utf8.encodeChar (Char.ofNat k) ++ p.1, p.2) := by
  have mark : text "\\u" ++ Text.hex 4 k ++ t = 0x5c :: 0x75 :: (Text.hex 4 k ++ t) := rfl
  rw [mark, readStringFrom, readHex4_hex h, Option.bind_eq_bind, Option.bind_some]
  simp only
  rw [joinHalves_character (by omega)]
  cases readStringFrom n t with
  | none => simp
  | some p => simp

/-- Reading gets past `written` to the bytes `bs` with at most as many steps as it has bytes. -/
def Passes (written bs : Text) : Prop :=
  ∀ n t, written.length ≤ n → ∃ m, n ≤ m + written.length ∧
    readStringFrom n (written ++ t) = (readStringFrom m t).map fun p => (bs ++ p.1, p.2)

theorem Passes.of_step {written bs : Text} (hne : written ≠ [])
    (h : ∀ n t, readStringFrom (n + 1) (written ++ t) =
      (readStringFrom n t).map fun p => (bs ++ p.1, p.2)) : Passes written bs := by
  intro n t hn
  have hpos := List.length_pos_of_ne_nil hne
  refine ⟨n - 1, by omega, ?_⟩
  rw [← h, Nat.sub_add_cancel (by omega)]

theorem Passes.of_plain {bs : Text} (h : ∀ b ∈ bs, isPlainByte b = true) : Passes bs bs := by
  intro n t hn
  refine ⟨n - bs.length, by omega, ?_⟩
  rw [← readStringFrom_plain h, Nat.sub_add_cancel hn]

theorem passes_char (c : Char) : Passes (stringRune (.char c)) (Utf8.encodeChar c) := by
  have short : ∀ (k : Nat) (b d : UInt8), c.toNat = k → b ≠ 0x75 → shortEscape? b = some d →
      Utf8.encodeChar (Char.ofNat k) = [d] → Passes [0x5c, b] (Utf8.encodeChar c) := by
    intro k b d hk hb hd he
    rw [← Char.ofNat_toNat c, hk, he]
    exact .of_step (by simp) (readStringFrom_escape hb hd)
  simp only [stringRune]
  split
  next hc => exact short 0x22 0x22 0x22 hc (by decide) rfl (by decide)
  next hc => exact short 0x5c 0x5c 0x5c hc (by decide) rfl (by decide)
  next hc => exact short 0x08 0x62 0x08 hc (by decide) rfl (by decide)
  next hc => exact short 0x0c 0x66 0x0c hc (by decide) rfl (by decide)
  next hc => exact short 0x0a 0x6e 0x0a hc (by decide) rfl (by decide)
  next hc => exact short 0x0d 0x72 0x0d hc (by decide) rfl (by decide)
  next hc => exact short 0x09 0x74 0x09 hc (by decide) rfl (by decide)
  next hquote hslash _ _ _ _ _ =>
    split
    next hn =>
      simp only [Bool.or_eq_true, decide_eq_true_eq, or_assoc] at hn
      refine .of_step (List.append_ne_nil_of_left_ne_nil (by decide) _) ?_
      have numbered := readStringFrom_numbered hn
      rwa [Char.ofNat_toNat] at numbered
    next hn =>
      simp only [Bool.or_eq_true, decide_eq_true_eq, not_or, not_lt] at hn
      exact .of_plain (isPlainByte_encodeChar hn.1.1.1.1.1 hquote hslash)

theorem readStringFrom_chars (cs : List Char) (rest : Text) {n : Nat}
    (h : (cs.flatMap fun c => stringRune (.char c)).length < n) :
    readStringFrom n ((cs.flatMap fun c => stringRune (.char c)) ++ Ascii.doubleQuote :: rest) =
      some (cs.flatMap Utf8.encodeChar, rest) := by
  induction cs generalizing n with
  | nil =>
    obtain ⟨m, rfl⟩ := Nat.exists_eq_succ_of_ne_zero (Nat.ne_of_gt h)
    rfl
  | cons c cs ih =>
    simp only [List.flatMap_cons, List.length_append] at h
    obtain ⟨m, hm, hread⟩ := passes_char c n
      ((cs.flatMap fun c => stringRune (.char c)) ++ Ascii.doubleQuote :: rest) (by omega)
    rw [List.flatMap_cons, List.append_assoc, hread, ih (by omega)]
    rfl

/-- A valid text is read back from between its quotes. -/
theorem readString_string {s : Text} (valid : Utf8.isValid s = true) (rest : Text) :
    readString ((Utf8.decode s).flatMap stringRune ++ Ascii.doubleQuote :: rest) = some (s, rest) := by
  have bytes := Utf8.encode_toChars valid
  unfold readString
  rw [Utf8.flatMap_decode valid, readStringFrom_chars _ rest (by rw [List.length_append]; omega), bytes]
  simp [bytes]

/-- The text is read as the tree wherever it stands, with as many steps as it has bytes. -/
def ReadsAs (depth : Nat) (t : Text) (tree : Tree) : Prop :=
  ∀ n rest, t.length ≤ n → readValue depth n (t ++ rest) = some (tree, rest)

theorem skipSpace_cons {b : UInt8} (h : isSpace b = false) (t : Text) :
    skipSpace (b :: t) = b :: t := by
  rw [skipSpace, List.dropWhile_cons_of_neg (by simp [h])]

theorem string_append (s rest : Text) :
    string s ++ rest =
      Ascii.doubleQuote :: ((Utf8.decode s).flatMap stringRune ++ Ascii.doubleQuote :: rest) := by
  simp [string]

theorem readsAs_string (depth : Nat) {s : Text} (valid : Utf8.isValid s = true) :
    ReadsAs depth (string s) (.string s) := by
  intro n rest hn
  have hpos : 0 < n := by
    simp only [string, List.length_append, List.length_singleton] at hn
    omega
  obtain ⟨m, rfl⟩ := Nat.exists_eq_succ_of_ne_zero (Nat.ne_of_gt hpos)
  rw [string_append, readValue, skipSpace_cons rfl]
  simp only [readString_string valid, Option.map_some]

theorem readKey_string {key : Text} (valid : Utf8.isValid key = true) (rest : Text) :
    readKey (string key ++ [Ascii.colon] ++ rest) = some (key, rest) := by
  have colon : skipSpace ([Ascii.colon] ++ rest) = 0x3a :: rest := skipSpace_cons rfl rest
  rw [List.append_assoc, string_append, readKey, skipSpace_cons rfl]
  simp only [readString_string valid, Option.bind_eq_bind, Option.bind_some, colon]

/-- A member is written with a valid key and a text that is read as its tree. -/
def MemberReadsAs (depth : Nat) (m : Text × Text) (member : Text × Tree) : Prop :=
  member.1 = m.1 ∧ Utf8.isValid m.1 = true ∧ ReadsAs depth m.2 member.2

/-- The text of a member. -/
def memberText (m : Text × Text) : Text := string m.1 ++ [Ascii.colon] ++ m.2

/-- A member is followed by another one or by the end of the object. -/
theorem readMembers_member {depth : Nat} {m : Text × Text} {member : Text × Tree}
    (h : MemberReadsAs depth m member) (before : List (Text × Tree)) {n : Nat}
    (hn : (memberText m).length ≤ n) (rest : Text) :
    readMembers depth before (n + 1) (memberText m ++ Ascii.comma :: rest) =
        readMembers depth (member :: before) n rest ∧
      readMembers depth before (n + 1) (memberText m ++ Ascii.closeBrace :: rest) =
        some ((member :: before).reverse, rest) := by
  obtain ⟨key, value⟩ := m
  obtain ⟨key', tree⟩ := member
  obtain ⟨rfl, valid, reads⟩ := h
  have hlen : value.length ≤ n := by
    simp only [memberText, List.length_append] at hn
    omega
  have comma : skipSpace (Ascii.comma :: rest) = 0x2c :: rest := skipSpace_cons rfl rest
  have brace : skipSpace (Ascii.closeBrace :: rest) = 0x7d :: rest := skipSpace_cons rfl rest
  constructor
  · rw [readMembers, memberText, List.append_assoc, readKey_string valid]
    simp only [reads n _ hlen, comma]
  · rw [readMembers, memberText, List.append_assoc, readKey_string valid]
    simp only [reads n _ hlen, brace]

theorem readMembers_join {depth : Nat} {ms : List (Text × Text)} {members : List (Text × Tree)}
    (h : List.Forall₂ (MemberReadsAs depth) ms members) (hne : ms ≠ [])
    (before : List (Text × Tree)) {n : Nat} (rest : Text)
    (hn : (Text.join [Ascii.comma] (ms.map memberText)).length < n) :
    readMembers depth before n
        (Text.join [Ascii.comma] (ms.map memberText) ++ Ascii.closeBrace :: rest) =
      some (before.reverse ++ members, rest) := by
  induction h generalizing before n with
  | nil => exact absurd rfl hne
  | @cons m member ms members hm hms ih =>
    obtain ⟨k, rfl⟩ := Nat.exists_eq_succ_of_ne_zero (Nat.ne_of_gt (Nat.zero_lt_of_lt hn))
    cases hms with
    | nil =>
      simp only [List.map_cons, List.map_nil, Text.join] at hn ⊢
      rw [(readMembers_member hm _ (by omega) rest).2]
      simp
    | @cons m' member' ms members hm' hms =>
      simp only [List.map_cons, Text.join, List.append_assoc, List.length_append,
        List.singleton_append, List.length_cons] at hn ih ⊢
      rw [List.cons_append, (readMembers_member hm _ (by omega) _).1,
        ih (by simp) (member :: before) (by omega)]
      simp

/-- An object is read as the object of what its members are read as. -/
theorem readsAs_object {depth : Nat} {ms : List (Text × Text)} {members : List (Text × Tree)}
    (h : List.Forall₂ (MemberReadsAs depth) ms members) :
    ReadsAs (depth + 1) (object ms) (.object members) := by
  intro n rest hn
  have shape : object ms = Ascii.openBrace ::
      (Text.join [Ascii.comma] (ms.map memberText) ++ [Ascii.closeBrace]) := rfl
  have length : (object ms).length =
      (Text.join [Ascii.comma] (ms.map memberText)).length + 2 := by
    rw [shape, List.length_cons, List.length_append, List.length_singleton]
  rw [length] at hn
  obtain ⟨k, rfl⟩ := Nat.exists_eq_succ_of_ne_zero (n := n) (by omega)
  rw [shape, List.cons_append, List.append_assoc, readValue, skipSpace_cons rfl]
  simp only [Nat.add_one_ne_zero, if_false, Nat.add_sub_cancel, List.singleton_append]
  cases h with
  | nil => rfl
  | @cons m member ms members hm hms =>
    -- A first member begins with a quote, so this is no empty object.
    have first : ∃ more, Text.join [Ascii.comma] ((m :: ms).map memberText) ++
        Ascii.closeBrace :: rest = Ascii.doubleQuote :: more := by
      cases ms <;> simp [Text.join, memberText, string]
    have reads := readMembers_join (.cons hm hms) (by simp) [] (n := k) rest (by omega)
    obtain ⟨more, hmore⟩ := first
    rw [hmore] at reads ⊢
    rw [skipSpace_cons rfl]
    change (readMembers depth [] k (Ascii.doubleQuote :: more)).map _ = _
    rw [reads]
    rfl

theorem ReadsAs.read {s : Text} {tree : Tree} (h : ReadsAs maxDepth s tree) :
    Tree.read s = some tree := by
  have whole := h (s.length + 1) [] (by omega)
  rw [List.append_nil] at whole
  simp [Tree.read, whole, skipSpace]

end ScopedAggregation.Json
