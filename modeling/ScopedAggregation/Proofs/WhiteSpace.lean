import Mathlib.Data.List.TakeWhile
import Mathlib.Tactic.IntervalCases
import ScopedAggregation.Proofs.Utf8Bytes
import ScopedAggregation.Text.Blank

namespace ScopedAggregation.Text

/-- A text of white space, as it is written. -/
def IsBlank (s : Text) : Prop :=
  ∃ rs : List Rune, (∀ r ∈ rs, isBlankRune r = true) ∧ s = rs.flatMap Utf8.encodeRune

/-- Trimming takes white space from both ends. -/
theorem trim_infix (s : Text) :
    ∃ before after, s = before ++ trim s ++ after ∧ IsBlank before ∧ IsBlank after := by
  let runes := Utf8.decode s
  let middle := runes.dropWhile isBlankRune
  let ending := (middle.reverse.takeWhile isBlankRune).reverse
  have hmiddle : (middle.reverse.dropWhile isBlankRune).reverse ++ ending = middle := by
    rw [← List.reverse_append, List.takeWhile_append_dropWhile, List.reverse_reverse]
  have hrunes : runes.takeWhile isBlankRune ++
      ((middle.reverse.dropWhile isBlankRune).reverse ++ ending) = runes := by
    rw [hmiddle, List.takeWhile_append_dropWhile]
  refine ⟨(runes.takeWhile isBlankRune).flatMap Utf8.encodeRune, ending.flatMap Utf8.encodeRune,
    ?_, ⟨_, fun r hr => List.mem_takeWhile_imp hr, rfl⟩, ⟨_, fun r hr => ?_, rfl⟩⟩
  · have hencode := congrArg (List.flatMap Utf8.encodeRune) hrunes
    rw [Utf8.encode_decode, List.flatMap_append, List.flatMap_append, ← List.append_assoc] at hencode
    exact hencode.symm
  · exact List.mem_takeWhile_imp (List.mem_reverse.mp hr)

/-- An ASCII byte that is no white space does not stand in white space. -/
theorem IsBlank.notMem {s : Text} (h : IsBlank s) {b : UInt8} (hb : b < 0x80)
    (hink : isBlankByte b = false) : b ∉ s := by
  obtain ⟨rs, hrs, rfl⟩ := h
  intro hmem
  obtain ⟨r, hr, hbr⟩ := List.mem_flatMap.mp hmem
  have hblank := hrs r hr
  cases r with
  | stray c => cases hblank
  | char c =>
    have hlt : b.toNat < 0x80 := UInt8.lt_iff_toNat_lt.mp hb
    rcases Utf8.bytes_encodeChar hbr with hhigh | hsame
    · omega
    · have hpoint : isBlankPoint c.toNat = true := hblank
      rw [hsame] at hpoint
      rw [isBlankByte, hpoint] at hink
      cases hink

theorem decode_blank {r : Rune} (h : isBlankRune r = true) (rest : Text) :
    Utf8.decode (Utf8.encodeRune r ++ rest) = r :: Utf8.decode rest := by
  cases r with
  | stray b => cases h
  | char c =>
    have hpoint : isBlankPoint c.toNat = true := h
    have hc : c = Char.ofNat c.toNat := (Char.ofNat_toNat c).symm
    generalize c.toNat = n at hpoint hc
    subst hc
    -- The characters of white space are few enough to look at each.
    simp only [isBlankPoint, Bool.or_eq_true, Bool.and_eq_true, decide_eq_true_eq, or_assoc] at hpoint
    rcases hpoint with ⟨hle, hge⟩ | rfl | rfl | rfl | rfl | ⟨hle, hge⟩ | rfl | rfl | rfl | rfl | rfl
    · interval_cases n <;> rfl
    · rfl
    · rfl
    · rfl
    · rfl
    · interval_cases n <;> rfl
    all_goals rfl

theorem decode_blanks {rs : List Rune} (h : ∀ r ∈ rs, isBlankRune r = true) (rest : Text) :
    Utf8.decode (rs.flatMap Utf8.encodeRune ++ rest) = rs ++ Utf8.decode rest := by
  induction rs with
  | nil => rfl
  | cons r rs ih =>
    obtain ⟨hr, hrs⟩ := List.forall_mem_cons.mp h
    rw [List.flatMap_cons, List.append_assoc, decode_blank hr, ih hrs]
    rfl

theorem decode_append_blanks (s : Text) {rs : List Rune} (h : ∀ r ∈ rs, isBlankRune r = true) :
    Utf8.decode (s ++ rs.flatMap Utf8.encodeRune) = Utf8.decode s ++ rs := by
  have hblanks : Utf8.decode (rs.flatMap Utf8.encodeRune) = rs := by
    have hdecode := decode_blanks h []
    have hnil : Utf8.decode [] = [] := rfl
    rwa [hnil, List.append_nil, List.append_nil] at hdecode
  cases rs with
  | nil => simp
  | cons r rs =>
    cases r with
    | stray b => cases h _ List.mem_cons_self
    | char c =>
      obtain ⟨a, t, hc, ha⟩ := Utf8.encodeChar_lead c
      have hcons : (Rune.char c :: rs).flatMap Utf8.encodeRune =
          a :: (t ++ rs.flatMap Utf8.encodeRune) := by
        rw [List.flatMap_cons, Utf8.encodeRune, hc, List.cons_append]
      rw [hcons] at hblanks ⊢
      rw [Utf8.decode_append ha, hblanks]

/-- White space around a text is trimmed with what the text has itself. -/
theorem trim_surrounded {before after : Text} (hbefore : IsBlank before) (hafter : IsBlank after)
    (s : Text) : trim (before ++ s ++ after) = trim s := by
  obtain ⟨rs, hrs, rfl⟩ := hbefore
  obtain ⟨us, hus, rfl⟩ := hafter
  have hdecode : Utf8.decode (rs.flatMap Utf8.encodeRune ++ s ++ us.flatMap Utf8.encodeRune) =
      rs ++ (Utf8.decode s ++ us) := by
    rw [List.append_assoc, decode_blanks hrs, decode_append_blanks s hus]
  have hreverse : ∀ u ∈ us.reverse, isBlankRune u = true := fun u hu => hus u (List.mem_reverse.mp hu)
  unfold trim
  rw [hdecode, List.dropWhile_append_of_pos hrs, List.dropWhile_append]
  split
  next hnone =>
    have hall : us.dropWhile isBlankRune = [] := List.dropWhile_eq_nil_iff.mpr hus
    rw [hall, List.isEmpty_iff.mp hnone]
  next =>
    dsimp only
    rw [List.reverse_append, List.dropWhile_append_of_pos hreverse]

theorem IsBlank.append {s t : Text} (hs : IsBlank s) (ht : IsBlank t) : IsBlank (s ++ t) := by
  obtain ⟨rs, hrs, rfl⟩ := hs
  obtain ⟨us, hus, rfl⟩ := ht
  exact ⟨rs ++ us, List.forall_mem_append.mpr ⟨hrs, hus⟩, by rw [List.flatMap_append]⟩

theorem isBlank_nil : IsBlank [] := ⟨[], by simp, rfl⟩

theorem IsBlank.trim_eq_nil {s : Text} (h : IsBlank s) : trim s = [] := by
  have htrim := trim_surrounded h isBlank_nil []
  rwa [List.append_nil, List.append_nil] at htrim

/-- What is trimmed begins where the ink begins. -/
theorem trim_cons {a : UInt8} (ha : a < 0x80) (hink : isBlankByte a = false) (m : Text) :
    ∃ t after, trim (a :: m) = a :: t ∧ a :: m = a :: t ++ after ∧ IsBlank after := by
  obtain ⟨before, after, htrim, hbefore, hafter⟩ := trim_infix (a :: m)
  have hnone : before = [] := by
    cases before with
    | nil => rfl
    | cons b before =>
      obtain ⟨rfl, -⟩ := List.cons.inj htrim
      exact absurd List.mem_cons_self (hbefore.notMem ha hink)
  subst hnone
  rw [List.nil_append] at htrim
  cases ht : trim (a :: m) with
  | nil =>
    rw [ht, List.nil_append] at htrim
    exact absurd (htrim ▸ List.mem_cons_self) (hafter.notMem ha hink)
  | cons b t =>
    rw [ht] at htrim
    cases htrim
    exact ⟨t, after, rfl, rfl, hafter⟩

/-- Nothing is trimmed from a text that begins and ends with ink. -/
theorem trim_inked {a z : UInt8} (ha : a < 0x80) (hz : z < 0x80) (hink : isBlankByte a = false)
    (hink' : isBlankByte z = false) (m : Text) : trim (a :: (m ++ [z])) = a :: (m ++ [z]) := by
  obtain ⟨t, after, htrim, heq, hafter⟩ := trim_cons ha hink (m ++ [z])
  rcases List.eq_nil_or_concat after with rfl | ⟨after, y, rfl⟩
  · rw [htrim, heq, List.append_nil]
  · have hlast : a :: m ++ [z] = (a :: t ++ after) ++ [y] := by simpa using heq
    cases (List.append_inj' hlast rfl).2
    exact absurd (by simp) (hafter.notMem hz hink')

end ScopedAggregation.Text
