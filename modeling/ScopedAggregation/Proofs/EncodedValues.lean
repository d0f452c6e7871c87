import ScopedAggregation.Proofs.JsonStrings
import ScopedAggregation.Proofs.Success
import ScopedAggregation.Proofs.ValueTree

namespace ScopedAggregation

/-- Parts between a sign that opens and one that closes, with commas between them. -/
def Json.enclosed (left close : UInt8) (parts : List Text) : Text :=
  [left] ++ Text.join [Ascii.comma] parts ++ [close]

namespace Value

/-- The member of a document that an entry is written as. -/
def encodeMember (q : Text × Value) : Except EncodeError Text :=
  q.2.encode.map fun part => Json.string q.1 ++ [Ascii.colon] ++ part

theorem encodeItems_eq_mapM (items : List Value) : encodeItems items = items.mapM encode := by
  induction items with
  | nil => rfl
  | cons v vs ih => rw [encodeItems, ih, List.mapM_cons]

theorem encodeEntries_eq_mapM (entries : List (Text × Value)) :
    encodeEntries entries = entries.mapM encodeMember := by
  induction entries with
  | nil => rfl
  | cons q es ih =>
    rw [encodeEntries, ih, List.mapM_cons, encodeMember]
    cases q.2.encode <;> rfl

theorem encode_list (items : List Value) : (Value.list items).encode =
    (items.mapM encode).map (Json.enclosed Ascii.openBracket Ascii.closeBracket) := by
  rw [encode, encodeItems_eq_mapM]
  cases items.mapM encode <;> rfl

theorem encode_document (entries : List (Text × Value)) :
    (Value.document entries).encode =
      (entries.mapM encodeMember).map (Json.enclosed Ascii.openBrace Ascii.closeBrace) := by
  rw [encode, encodeEntries_eq_mapM]
  cases entries.mapM encodeMember <;> rfl

theorem encode_list_eq_ok {items : List Value} {t : Text} : (Value.list items).encode = .ok t ↔
    ∃ parts, List.Forall₂ (fun v part => v.encode = .ok part) items parts ∧
      Json.enclosed Ascii.openBracket Ascii.closeBracket parts = t := by
  simp only [encode_list, map_eq_ok, mapM_eq_ok]

theorem encode_document_eq_ok {entries : List (Text × Value)} {t : Text} :
    (Value.document entries).encode = .ok t ↔
      ∃ parts, List.Forall₂ (fun q part => encodeMember q = .ok part) entries parts ∧
        Json.enclosed Ascii.openBrace Ascii.closeBrace parts = t := by
  simp only [encode_document, map_eq_ok, mapM_eq_ok]

/-- A double that stands in a value at some depth. -/
inductive HoldsDouble : Value → Double → Prop
  | here {x : Double} : HoldsDouble (.double x) x
  | item {items : List Value} {v : Value} {x : Double} (mem : v ∈ items) (inside : HoldsDouble v x) :
    HoldsDouble (.list items) x
  | entry {entries : List (Text × Value)} {q : Text × Value} {x : Double} (mem : q ∈ entries)
    (inside : HoldsDouble q.2 x) : HoldsDouble (.document entries) x

/-- The error names a double of the value that is not finite. -/
theorem holdsDouble_of_error {v : Value} {e : EncodeError} (h : v.encode = .error e) :
    v.HoldsDouble e.double ∧ e.double.isFinite = false := by
  induction v using memberInduction with
  | null | bool | int | string => cases h
  | double x =>
    rw [encode] at h
    split at h
    next => cases h
    next infinite =>
      cases h
      exact ⟨.here, Bool.not_eq_true _ ▸ infinite⟩
  | list items ih =>
    rw [encode_list, map_eq_error] at h
    obtain ⟨v, hv, he⟩ := mapM_eq_error h
    obtain ⟨inside, infinite⟩ := ih v hv he
    exact ⟨.item hv inside, infinite⟩
  | document entries ih =>
    rw [encode_document, map_eq_error] at h
    obtain ⟨q, hq, he⟩ := mapM_eq_error h
    rw [encodeMember, map_eq_error] at he
    obtain ⟨inside, infinite⟩ := ih q hq he
    exact ⟨.entry hq inside, infinite⟩

theorem isFinite_of_encode {v : Value} {t : Text} (h : v.encode = .ok t) {x : Double}
    (holds : v.HoldsDouble x) : x.isFinite = true := by
  induction holds generalizing t with
  | here =>
    rw [encode] at h
    split at h
    next finite => exact finite
    next => cases h
  | item mem _ ih =>
    obtain ⟨parts, hparts, -⟩ := encode_list_eq_ok.mp h
    obtain ⟨part, -, hpart⟩ := forall₂_mem_left hparts mem
    exact ih hpart
  | entry mem _ ih =>
    obtain ⟨parts, hparts, -⟩ := encode_document_eq_ok.mp h
    obtain ⟨part, -, hpart⟩ := forall₂_mem_left hparts mem
    obtain ⟨inner, hinner, -⟩ := map_eq_ok.mp hpart
    exact ih hinner

theorem encode_fails_iff {v : Value} :
    (∃ e, v.encode = .error e) ↔ ∃ x, v.HoldsDouble x ∧ x.isFinite = false := by
  constructor
  · rintro ⟨e, he⟩
    exact ⟨e.double, holdsDouble_of_error he⟩
  · rintro ⟨x, holds, infinite⟩
    cases h : v.encode with
    | error e => exact ⟨e, rfl⟩
    | ok t =>
      rw [isFinite_of_encode h holds] at infinite
      cases infinite

/-- A member of a document: the key between quotes, a colon and the text of the value. -/
def IsMember (q : Text × Value) (written : Text) : Prop :=
  ∃ key part, Json.Quotes q.1 key ∧ q.2.encode = .ok part ∧ key ++ [Ascii.colon] ++ part = written

theorem encodeMember_eq_ok {q : Text × Value} {written : Text} :
    encodeMember q = .ok written ↔ IsMember q written := by
  simp only [encodeMember, map_eq_ok, IsMember, Json.quotes_iff, exists_and_left, exists_eq_left]

theorem encode_document_eq_member {entries : List (Text × Value)} {written : Text} :
    (Value.document entries).encode = .ok written ↔
      ∃ members, List.Forall₂ IsMember entries members ∧
        Json.enclosed Ascii.openBrace Ascii.closeBrace members = written := by
  simp only [encode_document_eq_ok, encodeMember_eq_ok]

end Value

end ScopedAggregation
