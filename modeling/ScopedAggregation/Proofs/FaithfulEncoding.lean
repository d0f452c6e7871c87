import ScopedAggregation.Proofs.DecimalNumerals
import ScopedAggregation.Proofs.EncodedValues

namespace ScopedAggregation

namespace Value

/-- No double, and no byte outside the characters of a string or key. -/
def isExact : Value → Bool
  | .double _ => false
  | .string s => Utf8.isValid s
  | .document entries => entries.all fun q => Utf8.isValid q.1
  | _ => true

theorem isExact_document {entries : List (Text × Value)} :
    (Value.document entries).isExact = true ↔ ∀ q ∈ entries, Utf8.isValid q.1 = true := by
  rw [isExact, List.all_eq_true]

theorem not_holdsDouble {v : Value} (hexact : v.all isExact = true) {x : Double} :
    ¬ v.HoldsDouble x := by
  intro holds
  induction holds with
  | here => cases hexact
  | item mem _ ih => exact ih ((all_list.mp hexact).2 _ mem)
  | entry mem _ ih => exact ih ((all_document.mp hexact).2 _ mem)

theorem exists_encode {v : Value} (hexact : v.all isExact = true) : ∃ t, v.encode = .ok t := by
  cases h : v.encode with
  | ok t => exact ⟨t, rfl⟩
  | error e => exact absurd (holdsDouble_of_error h).1 (not_holdsDouble hexact)

theorem equalLists_iff {vs : List Value} (h : ∀ v ∈ vs, ∀ w, v.equal w = true ↔ v = w)
    (ws : List Value) : equalLists vs ws = true ↔ vs = ws := by
  induction vs generalizing ws with
  | nil => cases ws <;> simp [equalLists]
  | cons v vs ih =>
    obtain ⟨hv, hvs⟩ := List.forall_mem_cons.mp h
    cases ws with
    | nil => simp [equalLists]
    | cons w ws => rw [equalLists, Bool.and_eq_true, hv, ih hvs, List.cons.injEq]

theorem equalEntries_iff {es : List (Text × Value)}
    (h : ∀ q ∈ es, ∀ w, q.2.equal w = true ↔ q.2 = w) (fs : List (Text × Value)) :
    equalEntries es fs = true ↔ es = fs := by
  induction es generalizing fs with
  | nil => cases fs <;> simp [equalEntries]
  | cons p es ih =>
    obtain ⟨hp, hes⟩ := List.forall_mem_cons.mp h
    cases fs with
    | nil => simp [equalEntries]
    | cons q fs =>
      rw [equalEntries, Bool.and_eq_true, Bool.and_eq_true, hp, ih hes, decide_eq_true_eq,
        List.cons.injEq, Prod.ext_iff]

/-- Values without doubles are equal only if they are the same. -/
theorem equal_iff_eq {v w : Value} (hexact : v.all isExact = true) : v.equal w = true ↔ v = w := by
  induction v using memberInduction generalizing w with
  | null => cases w <;> simp [equal]
  | bool b => cases w <;> simp [equal]
  | int i => cases w <;> simp [equal]
  | string s => cases w <;> simp [equal]
  | double x => cases hexact
  | list items ih =>
    have hitems := (all_list.mp hexact).2
    cases w with
    | list ws =>
      rw [equal, equalLists_iff fun v hv w => ih v hv (hitems v hv), list.injEq]
    | _ => simp [equal]
  | document entries ih =>
    have hentries := (all_document.mp hexact).2
    cases w with
    | document fs =>
      rw [equal, equalEntries_iff fun q hq w => ih q hq (hentries q hq), document.injEq]
    | _ => simp [equal]

end Value

/-- No numeral goes on at the beginning of the text. -/
def EndsNumeral (s : Text) : Prop := ∀ b ∈ s.head?, Numeral.isNumeralByte b = false

theorem endsNumeral_cons {b : UInt8} (h : Numeral.isNumeralByte b = false) (s : Text) :
    EndsNumeral (b :: s) := by
  intro c hc
  cases hc
  exact h

/-- Behind an integer that ends where its numeral does, the text can only go on in one way. -/
theorem Json.int_append_inj {i j : Int64} {r s : Text} (hr : EndsNumeral r) (hs : EndsNumeral s)
    (h : Json.int i ++ r = Json.int j ++ s) : i = j ∧ r = s := by
  have hnumeral : ∀ (k : Int64) {u : Text}, EndsNumeral u →
      (Json.int k ++ u).takeWhile Numeral.isNumeralByte = Json.int k := by
    intro k u hu
    have hnone : u.takeWhile Numeral.isNumeralByte = [] := by
      cases u with
      | nil => rfl
      | cons b u => exact List.takeWhile_cons_of_neg (by simp [hu b rfl])
    rw [List.takeWhile_append_of_pos fun b hb => Numeral.isNumeralByte_of_mem_int hb, hnone,
      List.append_nil]
  have hsame : Json.int i = Json.int j := by
    have htaken := congrArg (List.takeWhile Numeral.isNumeralByte) h
    rwa [hnumeral i hr, hnumeral j hs] at htaken
  have hread := congrArg Numeral.scanInt? hsame
  rw [Numeral.scanInt?_int, Numeral.scanInt?_int] at hread
  rw [hsame] at h
  exact ⟨Option.some.inj hread, List.append_cancel_left h⟩

section Separation

variable {α : Type} {enc : α → Except EncodeError Text}

/-- Where one text begins with those of two things, and no numeral goes on behind either, they are the
same thing and what follows is the same. -/
def Separates (enc : α → Except EncodeError Text) (x y : α) : Prop :=
  ∀ p q r s, enc x = .ok p → enc y = .ok q → EndsNumeral r → EndsNumeral s → p ++ r = q ++ s →
    x = y ∧ r = s

/-- What follows the first part: the sign that closes the list, or a comma and the other parts. -/
def following (close : UInt8) (r : Text) : List Text → Text
  | [] => close :: r
  | p :: ps => Ascii.comma :: (Text.join [Ascii.comma] (p :: ps) ++ close :: r)

theorem join_following (close : UInt8) (r p : Text) (ps : List Text) :
    Text.join [Ascii.comma] (p :: ps) ++ close :: r = p ++ following close r ps := by
  cases ps <;> simp [Text.join, following]

theorem endsNumeral_following {close : UInt8} (ends : Numeral.isNumeralByte close = false) (r : Text)
    (ps : List Text) : EndsNumeral (following close r ps) := by
  cases ps with
  | nil => exact endsNumeral_cons ends r
  | cons => exact endsNumeral_cons rfl _

theorem join_eq_of_following {close : UInt8} (noComma : close ≠ Ascii.comma) {r s : Text}
    {ps qs : List Text} (h : following close r ps = following close s qs) :
    Text.join [Ascii.comma] ps ++ close :: r = Text.join [Ascii.comma] qs ++ close :: s := by
  cases ps with
  | nil =>
    cases qs with
    | nil => exact h
    | cons => exact absurd (List.cons.inj h).1 noComma
  | cons =>
    cases qs with
    | nil => exact absurd (List.cons.inj h).1.symm noComma
    | cons => exact (List.cons.inj h).2

/-- A thing whose text does not begin with the sign that closes a list. -/
def StartsBeside (enc : α → Except EncodeError Text) (close : UInt8) (x : α) : Prop :=
  ∀ p, enc x = .ok p → ∃ b ∈ p.head?, b ≠ close

theorem join_ne_close {close : UInt8} {x : α} {p : Text} (starts : StartsBeside enc close x)
    (hx : enc x = .ok p) (ps : List Text) (r s : Text) :
    Text.join [Ascii.comma] (p :: ps) ++ close :: r ≠ close :: s := by
  obtain ⟨b, hb, hne⟩ := starts p hx
  intro h
  rw [join_following] at h
  cases p with
  | nil => cases hb
  | cons c p =>
    cases hb
    exact hne (List.cons.inj h).1

/-- Lists of things that are separated from each other are separated up to the sign that closes
them. -/
theorem join_separates {close : UInt8} (ends : Numeral.isNumeralByte close = false)
    (noComma : close ≠ Ascii.comma) {xs ys : List α} {ps qs : List Text}
    (hps : List.Forall₂ (fun x p => enc x = .ok p) xs ps)
    (hqs : List.Forall₂ (fun y q => enc y = .ok q) ys qs)
    (hxs : ∀ x ∈ xs, StartsBeside enc close x) (hys : ∀ y ∈ ys, StartsBeside enc close y)
    (separates : ∀ x ∈ xs, ∀ y ∈ ys, Separates enc x y) {r s : Text}
    (h : Text.join [Ascii.comma] ps ++ close :: r = Text.join [Ascii.comma] qs ++ close :: s) :
    xs = ys ∧ r = s := by
  induction hps generalizing ys qs with
  | nil =>
    cases hqs with
    | nil => exact ⟨rfl, (List.cons.inj h).2⟩
    | cons hy => exact absurd h.symm (join_ne_close (hys _ (by simp)) hy _ _ _)
  | @cons x p xs ps hx hps ih =>
    cases hqs with
    | nil => exact absurd h (join_ne_close (hxs _ (by simp)) hx _ _ _)
    | @cons y q ys qs hy hqs =>
      rw [join_following, join_following] at h
      obtain ⟨hxy, hrest⟩ := separates x (by simp) y (by simp) p q _ _ hx hy
        (endsNumeral_following ends r ps) (endsNumeral_following ends s qs) h
      have hjoined := join_eq_of_following noComma hrest
      obtain ⟨rfl, rfl⟩ := ih hqs (List.forall_mem_cons.mp hxs).2 (List.forall_mem_cons.mp hys).2
        (fun x hx y hy => separates x (List.mem_cons_of_mem _ hx) y (List.mem_cons_of_mem _ hy)) hjoined
      exact ⟨by rw [hxy], rfl⟩

theorem enclosed_append (left close : UInt8) (parts : List Text) (r : Text) :
    Json.enclosed left close parts ++ r =
      left :: (Text.join [Ascii.comma] parts ++ close :: r) := by
  simp [Json.enclosed]

end Separation

namespace Value

/-- The kind of value whose text begins with the byte, doubles apart. -/
def leadKind? (b : UInt8) : Option ValueKind :=
  if b = 0x6e then some .null
  else if b = 0x74 || b = 0x66 then some .bool
  else if b = Ascii.doubleQuote then some .string
  else if b = Ascii.openBracket then some .list
  else if b = Ascii.openBrace then some .document
  else if Numeral.isNumeralByte b then some .int
  else none

theorem leadKind?_numeral {b : UInt8} (h : Numeral.isNumeralByte b = true) :
    leadKind? b = some .int := by
  have hplain : ∀ c : UInt8, Numeral.isNumeralByte c = false → b ≠ c := by
    rintro c hc rfl
    rw [h] at hc
    cases hc
  rw [leadKind?, if_neg (hplain _ rfl), if_neg, if_neg (hplain _ rfl), if_neg (hplain _ rfl),
    if_neg (hplain _ rfl), if_pos h]
  simp [hplain 0x74 rfl, hplain 0x66 rfl]

theorem encode_head {v : Value} (hexact : v.all isExact = true) {p : Text} (h : v.encode = .ok p) :
    ∃ b ∈ p.head?, leadKind? b = some v.kind := by
  cases v with
  | null =>
    cases h
    exact ⟨0x6e, rfl, rfl⟩
  | bool b =>
    cases h
    cases b
    · exact ⟨0x66, rfl, rfl⟩
    · exact ⟨0x74, rfl, rfl⟩
  | int i =>
    cases h
    cases hi : Json.int i with
    | nil =>
      have hread := Numeral.scanInt?_int i
      rw [hi] at hread
      cases hread
    | cons b t =>
      exact ⟨b, rfl, leadKind?_numeral (Numeral.isNumeralByte_of_mem_int (i := i) (by simp [hi]))⟩
  | double => cases hexact
  | string s =>
    cases h
    exact ⟨Ascii.doubleQuote, rfl, rfl⟩
  | list items =>
    obtain ⟨parts, -, rfl⟩ := encode_list_eq_ok.mp h
    exact ⟨Ascii.openBracket, rfl, rfl⟩
  | document entries =>
    obtain ⟨parts, -, rfl⟩ := encode_document_eq_ok.mp h
    exact ⟨Ascii.openBrace, rfl, rfl⟩

theorem kind_eq_of_append {v w : Value} (hv : v.all isExact = true) (hw : w.all isExact = true)
    {p q r s : Text} (hp : v.encode = .ok p) (hq : w.encode = .ok q) (h : p ++ r = q ++ s) :
    v.kind = w.kind := by
  obtain ⟨b, hb, hbkind⟩ := encode_head hv hp
  obtain ⟨c, hc, hckind⟩ := encode_head hw hq
  cases p with
  | nil => cases hb
  | cons d p =>
    cases q with
    | nil => cases hc
    | cons e q =>
      cases hb
      cases hc
      rw [(List.cons.inj h).1, hckind] at hbkind
      exact (Option.some.inj hbkind).symm

theorem separates_of_kind {v w : Value} (hv : v.all isExact = true) (hw : w.all isExact = true)
    (h : v.kind = w.kind → Separates encode v w) : Separates encode v w := by
  intro p q r s hp hq hr hs heq
  have hkind := kind_eq_of_append hv hw hp hq heq
  exact h hkind p q r s hp hq hr hs heq

theorem member_separates {p q : Text × Value} (hp : Utf8.isValid p.1 = true)
    (hq : Utf8.isValid q.1 = true) (h : Separates encode p.2 q.2) : Separates encodeMember p q := by
  intro t u r s ht hu hr hs heq
  obtain ⟨part, hpart, rfl⟩ := map_eq_ok.mp ht
  obtain ⟨part', hpart', rfl⟩ := map_eq_ok.mp hu
  simp only [List.append_assoc] at heq
  obtain ⟨hkey, hrest⟩ := Json.string_append_inj hp hq heq
  obtain ⟨hvalue, hsame⟩ := h part part' r s hpart hpart' hr hs (List.append_cancel_left hrest)
  exact ⟨Prod.ext hkey hvalue, hsame⟩

theorem startsBeside_encode {v : Value} (hexact : v.all isExact = true) :
    StartsBeside encode Ascii.closeBracket v := by
  intro p hp
  obtain ⟨b, hb, hkind⟩ := encode_head hexact hp
  refine ⟨b, hb, ?_⟩
  rintro rfl
  cases hkind

theorem startsBeside_encodeMember (q : Text × Value) :
    StartsBeside encodeMember Ascii.closeBrace q := by
  intro p hp
  obtain ⟨part, -, rfl⟩ := map_eq_ok.mp hp
  exact ⟨Ascii.doubleQuote, rfl, by decide⟩

theorem list_separates {vs ws : List Value} (hvs : ∀ v ∈ vs, v.all isExact = true)
    (hws : ∀ w ∈ ws, w.all isExact = true) (h : ∀ v ∈ vs, ∀ w ∈ ws, Separates encode v w) :
    Separates encode (.list vs) (.list ws) := by
  intro p q r s hp hq _ _ heq
  obtain ⟨ps, hps, rfl⟩ := encode_list_eq_ok.mp hp
  obtain ⟨qs, hqs, rfl⟩ := encode_list_eq_ok.mp hq
  rw [enclosed_append, enclosed_append] at heq
  obtain ⟨rfl, hrest⟩ := join_separates rfl (by decide) hps hqs
    (fun v hv => startsBeside_encode (hvs v hv)) (fun w hw => startsBeside_encode (hws w hw)) h
    (List.cons.inj heq).2
  exact ⟨rfl, hrest⟩

theorem document_separates {es fs : List (Text × Value)} (hes : ∀ p ∈ es, Utf8.isValid p.1 = true)
    (hfs : ∀ q ∈ fs, Utf8.isValid q.1 = true) (h : ∀ p ∈ es, ∀ q ∈ fs, Separates encode p.2 q.2) :
    Separates encode (.document es) (.document fs) := by
  intro p q r s hp hq _ _ heq
  obtain ⟨ps, hps, rfl⟩ := encode_document_eq_ok.mp hp
  obtain ⟨qs, hqs, rfl⟩ := encode_document_eq_ok.mp hq
  rw [enclosed_append, enclosed_append] at heq
  obtain ⟨rfl, hrest⟩ := join_separates rfl (by decide) hps hqs
    (fun p _ => startsBeside_encodeMember p) (fun q _ => startsBeside_encodeMember q)
    (fun p hp q hq => member_separates (hes p hp) (hfs q hq) (h p hp q hq)) (List.cons.inj heq).2
  exact ⟨rfl, hrest⟩

theorem encode_separates {v w : Value} (hv : v.all isExact = true) (hw : w.all isExact = true) :
    Separates encode v w := by
  induction v using memberInduction generalizing w with
  | null =>
    refine separates_of_kind hv hw fun hkind => ?_
    cases w with
    | null =>
      intro p q r s hp hq _ _ h
      cases hp
      cases hq
      exact ⟨rfl, List.append_cancel_left h⟩
    | _ => cases hkind
  | bool b =>
    refine separates_of_kind hv hw fun hkind => ?_
    cases w with
    | bool c =>
      intro p q r s hp hq _ _ h
      cases hp
      cases hq
      cases b <;> cases c
      · exact ⟨rfl, List.append_cancel_left h⟩
      · cases (List.cons.inj h).1
      · cases (List.cons.inj h).1
      · exact ⟨rfl, List.append_cancel_left h⟩
    | _ => cases hkind
  | int i =>
    refine separates_of_kind hv hw fun hkind => ?_
    cases w with
    | int j =>
      intro p q r s hp hq hr hs h
      cases hp
      cases hq
      obtain ⟨rfl, hrest⟩ := Json.int_append_inj hr hs h
      exact ⟨rfl, hrest⟩
    | _ => cases hkind
  | double => cases hv
  | string t =>
    refine separates_of_kind hv hw fun hkind => ?_
    cases w with
    | string u =>
      intro p q r s hp hq _ _ h
      cases hp
      cases hq
      obtain ⟨rfl, hrest⟩ := Json.string_append_inj hv hw h
      exact ⟨rfl, hrest⟩
    | _ => cases hkind
  | list items ih =>
    refine separates_of_kind hv hw fun hkind => ?_
    cases w with
    | list others =>
      have hitems := (all_list.mp hv).2
      have hothers := (all_list.mp hw).2
      apply list_separates hitems hothers
      exact fun v hv w hw => ih v hv (hitems v hv) (hothers w hw)
    | _ => cases hkind
  | document entries ih =>
    refine separates_of_kind hv hw fun hkind => ?_
    cases w with
    | document others =>
      obtain ⟨hkeys, hentries⟩ := all_document.mp hv
      obtain ⟨hotherKeys, hothers⟩ := all_document.mp hw
      rw [isExact_document] at hkeys hotherKeys
      apply document_separates hkeys hotherKeys
      exact fun m hm n hn => ih m hm (hentries m hm) (hothers n hn)
    | _ => cases hkind

/-- Values without doubles, whose strings and keys are valid, have a text each, and the same one only
if they are equal. Only a double that is not finite, however deep it stands, leaves a value without a
text. Strings and the keys of documents are written between quotes, with their escapes. -/
theorem encode_faithful :
    (∀ a b : Value, a.all isExact = true → b.all isExact = true →
      ∃ s t, a.encode = .ok s ∧ b.encode = .ok t ∧ (s = t ↔ a.equal b = true)) ∧
      (∀ v : Value, (∃ e, v.encode = .error e) ↔ ∃ x, v.HoldsDouble x ∧ x.isFinite = false) ∧
      (∀ s written, (Value.string s).encode = .ok written ↔ Json.Quotes s written) ∧
      ∀ entries written, (Value.document entries).encode = .ok written ↔
        ∃ members, List.Forall₂ IsMember entries members ∧
          Json.enclosed Ascii.openBrace Ascii.closeBrace members = written := by
  refine ⟨fun a b ha hb => ?_, fun v => encode_fails_iff, fun s written => ?_,
    fun entries written => encode_document_eq_member⟩
  · obtain ⟨s, hs⟩ := exists_encode ha
    obtain ⟨t, ht⟩ := exists_encode hb
    refine ⟨s, t, hs, ht, ?_⟩
    rw [equal_iff_eq ha]
    constructor
    · rintro rfl
      have hends : EndsNumeral [] := fun b hb => by cases hb
      exact (encode_separates ha hb s s [] [] hs ht hends hends rfl).1
    · rintro rfl
      rw [hs] at ht
      exact Except.ok.inj ht
  · rw [Json.quotes_iff, encode, Except.ok.injEq, eq_comm]

/-- A list of one string, which holds the signs that would stand between two. -/
def oneString : Value := .doc (text "k") (.list [.string (text "a\",\"b")])

def twoStrings : Value := .doc (text "k") (.list [.string (text "a"), .string (text "b")])

theorem oneString_encoded_apart : oneString.all isExact = true ∧ twoStrings.all isExact = true ∧
    oneString.encode ≠ twoStrings.encode := by
  have hone : oneString.all isExact = true := by decide
  have htwo : twoStrings.all isExact = true := by decide
  obtain ⟨s, t, hs, ht, hsame⟩ := encode_faithful.1 oneString twoStrings hone htwo
  have hdiffer : ¬ oneString.equal twoStrings = true := by decide
  refine ⟨hone, htwo, fun h => ?_⟩
  rw [hs, ht, Except.ok.injEq] at h
  exact hdiffer (hsame.mp h)

end Value

end ScopedAggregation
