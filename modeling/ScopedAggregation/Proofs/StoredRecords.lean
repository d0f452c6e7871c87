import ScopedAggregation.Proofs.JsonReading
import ScopedAggregation.Proofs.TableOrder
import ScopedAggregation.Proofs.TimeStamps
import ScopedAggregation.Store.Error

namespace ScopedAggregation

namespace Utf8

theorem isValid_of_ascii {s : Text} (h : ∀ b ∈ s, b < 0x80) : isValid s = true := by
  rw [isValid, decode_ascii h]
  simp

end Utf8

theorem ascii_of_isDigit {b : UInt8} (h : Ascii.isDigit b = true) : b < 0x80 := by
  simp only [Ascii.isDigit, Bool.and_eq_true, decide_eq_true_eq] at h
  exact Nat.lt_of_le_of_lt h.2 (by decide)

namespace Instant

theorem ascii_padded {width n : Nat} : ∀ b ∈ padded width n, b < 0x80 := by
  intro b hb
  rcases List.mem_append.mp hb with hb | hb
  · rw [List.eq_of_mem_replicate hb]
    decide
  · exact ascii_of_isDigit (Text.isDigit_of_mem_ofNat hb)

theorem ascii_write {mark : UInt8} (hmark : mark < 0x80) (t : Instant) :
    ∀ b ∈ t.write mark, b < 0x80 := by
  have year : ∀ y, ∀ b ∈ writeYear y, b < 0x80 := by
    intro y
    unfold writeYear
    split
    next => exact List.forall_mem_cons.mpr ⟨by decide, ascii_padded⟩
    next => exact ascii_padded
  have single : ∀ a : UInt8, a < 0x80 → ∀ b ∈ [a], b < 0x80 := by simp
  have minus := single Ascii.minus (by decide)
  have colon := single Ascii.colon (by decide)
  simp only [write, List.forall_mem_append]
  exact ⟨⟨⟨⟨⟨⟨⟨⟨⟨⟨year _, minus⟩, ascii_padded⟩, minus⟩, ascii_padded⟩, single mark hmark⟩,
    ascii_padded⟩, colon⟩, ascii_padded⟩, colon⟩, ascii_padded⟩

theorem isValid_exactStamp (t : Instant) : Utf8.isValid t.exactStamp = true := by
  refine Utf8.isValid_of_ascii (List.forall_mem_append.mpr ⟨List.forall_mem_append.mpr ⟨?_, ?_⟩, ?_⟩)
  · exact ascii_write (by decide) t
  · obtain ⟨k, hk⟩ := Text.dropEndWhile_append Ascii.zero (padded 9 t.fraction)
    have digits : ∀ b ∈ Text.dropEndWhile (· = Ascii.zero) (padded 9 t.fraction), b < 0x80 :=
      fun b hb => ascii_padded b (by rw [hk]; exact List.mem_append_left _ hb)
    split
    next => simp
    next => exact List.forall_mem_cons.mpr ⟨by decide, digits⟩
  · simp only [List.mem_singleton, forall_eq]
    decide

end Instant

namespace DefinitionName

/-- Only characters stand in a name. -/
theorem isValid_of_check {name : Text} (h : check name = .ok ()) : Utf8.isValid name = true := by
  unfold check at h
  split at h
  next => cases h
  next =>
    split at h
    next => cases h
    next hnone =>
      rw [Utf8.isValid, List.all_eq_true]
      intro r hr
      cases r with
      | char c => rfl
      | stray b =>
        cases hs : Utf8.decode name with
        | nil => simp [hs] at hr
        | cons first rest =>
          rw [hs] at hr hnone
          simp only [offender?] at hnone
          split at hnone
          next hfirst =>
            rcases List.mem_cons.mp hr with rfl | hr
            · cases hfirst
            · have := List.find?_eq_none.mp hnone _ hr
              simp [isPart] at this
          next => cases hnone

end DefinitionName

/-- Labels that a record can hold: a table of valid texts. -/
def Labels.IsStorable (l : Labels) : Prop :=
  ∀ t, l = some t → t.IsSorted ∧ ∀ p ∈ t, Utf8.isValid p.1 = true ∧ Utf8.isValid p.2 = true

namespace StoredDefinition

/-- The definition with no labels in place of empty ones. -/
def tidy (d : StoredDefinition) : StoredDefinition :=
  { d with labels := if d.labels = some [] then none else d.labels }

/-- What a record can hold: valid texts, and times that have a form. -/
structure IsStorable (d : StoredDefinition) : Prop where
  name : Utf8.isValid d.name = true
  description : Utf8.isValid d.description = true
  source : Utf8.isValid d.source = true
  revision : Utf8.isValid d.revision = true
  created : d.created.hasStamp = true
  updated : d.updated.hasStamp = true
  labels : d.labels.IsStorable

theorem tidy_tidy (d : StoredDefinition) : d.tidy.tidy = d.tidy := by
  simp [tidy]

theorem labelMember_tidy (d : StoredDefinition) : labelMember d.tidy.labels = labelMember d.labels := by
  unfold tidy
  split
  next h => simp [h, labelMember]
  next => rfl

/-- Empty labels leave no trace in a record. -/
theorem encode_tidy (d : StoredDefinition) : d.tidy.encode = d.encode := by
  rw [encode, labelMember_tidy]
  rfl

theorem IsStorable.tidy {d : StoredDefinition} (h : d.IsStorable) : d.tidy.IsStorable where
  name := h.name
  description := h.description
  source := h.source
  revision := h.revision
  created := h.created
  updated := h.updated
  labels t ht := by
    simp only [StoredDefinition.tidy] at ht
    split at ht
    next => cases ht
    next => exact h.labels t ht

/-- What a description is read as. -/
def descriptionTree (s : Text) : List (Text × Json.Tree) :=
  if s.isEmpty then [] else [(text "description", .string s)]

def labelTree : Labels → List (Text × Json.Tree)
  | some (x :: t) => [(text "labels", .object ((x :: t).map fun p => (p.1, .string p.2)))]
  | _ => []

/-- What a record is read as. -/
def recordTrees (d : StoredDefinition) : List (Text × Json.Tree) :=
  [(text "name", .string d.name)] ++ descriptionTree d.description
    ++ [(text "source", .string d.source), (text "revisionId", .string d.revision),
      (text "createTime", .string d.created.exactStamp),
      (text "updateTime", .string d.updated.exactStamp)]
    ++ labelTree d.labels

theorem member_reads {depth : Nat} {key : String} {s : Text} (hkey : Utf8.isValid (text key) = true)
    (valid : Utf8.isValid s = true) :
    Json.MemberReadsAs depth (text key, Json.string s) (text key, .string s) :=
  ⟨rfl, hkey, Json.readsAs_string depth valid⟩

theorem description_reads {depth : Nat} {s : Text} (valid : Utf8.isValid s = true) :
    List.Forall₂ (Json.MemberReadsAs depth) (unlessEmpty "description" s) (descriptionTree s) := by
  unfold unlessEmpty descriptionTree
  split
  next => exact .nil
  next => exact .cons (member_reads (by decide) valid) .nil

theorem labels_read {depth : Nat} {t : Table Text}
    (valid : ∀ p ∈ t, Utf8.isValid p.1 = true ∧ Utf8.isValid p.2 = true) :
    Json.ReadsAs (depth + 1) (Json.labels t) (.object (t.map fun p => (p.1, .string p.2))) := by
  refine Json.readsAs_object ?_
  rw [List.forall₂_map_left_iff, List.forall₂_map_right_iff, List.forall₂_same]
  exact fun p hp => ⟨rfl, (valid p hp).1, Json.readsAs_string depth (valid p hp).2⟩

theorem labelMember_reads {depth : Nat} {l : Labels}
    (valid : ∀ t, l = some t → ∀ p ∈ t, Utf8.isValid p.1 = true ∧ Utf8.isValid p.2 = true) :
    List.Forall₂ (Json.MemberReadsAs (depth + 1)) (labelMember l) (labelTree l) := by
  rcases l with _ | _ | ⟨x, t⟩
  · exact .nil
  · exact .nil
  · exact .cons ⟨rfl, (by decide : Utf8.isValid (text "labels") = true), labels_read (valid _ rfl)⟩
      .nil

theorem read_encode {d : StoredDefinition} (h : d.IsStorable) :
    Json.Tree.read d.encode = some (.object d.recordTrees) := by
  refine Json.ReadsAs.read (@Json.readsAs_object 9999 _ _ ?_)
  refine List.rel_append (List.rel_append (List.rel_append ?_ ?_) ?_) ?_
  · exact .cons (member_reads (by decide) h.name) .nil
  · exact description_reads h.description
  · exact .cons (member_reads (by decide) h.source) <|
      .cons (member_reads (by decide) h.revision) <|
      .cons (member_reads (by decide) d.created.isValid_exactStamp) <|
      .cons (member_reads (by decide) d.updated.isValid_exactStamp) .nil
  · exact labelMember_reads fun t ht => (h.labels t ht).2

theorem setMembers_append (d : StoredDefinition) (xs ys : List (Text × Json.Tree)) :
    d.setMembers (xs ++ ys) = (d.setMembers xs).bind fun d => d.setMembers ys := by
  induction xs generalizing d with
  | nil => rfl
  | cons x xs ih =>
    obtain ⟨k, v⟩ := x
    simp only [List.cons_append, setMembers]
    cases d.setMember k v with
    | none => rfl
    | some e => exact ih e

theorem setMembers_description {d : StoredDefinition} (h : d.description = []) (s : Text) :
    d.setMembers (descriptionTree s) = some { d with description := s } := by
  unfold descriptionTree
  split
  next hs => rw [List.isEmpty_iff.mp hs, ← h, setMembers]
  next => rfl

theorem setMember_source (d : StoredDefinition) (s : Text) :
    d.setMember (text "source") (.string s) = some { d with source := s } := rfl

theorem setMember_revision (d : StoredDefinition) (s : Text) :
    d.setMember (text "revisionId") (.string s) = some { d with revision := s } := rfl

theorem setMember_created (d : StoredDefinition) {t : Instant} (h : t.hasStamp = true) :
    d.setMember (text "createTime") (.string t.exactStamp) = some { d with created := t } := by
  have member : d.setMember (text "createTime") (.string t.exactStamp) =
      (Instant.read t.exactStamp).map fun t => { d with created := t } := rfl
  rw [member, Instant.read_exactStamp h, Option.map_some]

theorem setMember_updated (d : StoredDefinition) {t : Instant} (h : t.hasStamp = true) :
    d.setMember (text "updateTime") (.string t.exactStamp) = some { d with updated := t } := by
  have member : d.setMember (text "updateTime") (.string t.exactStamp) =
      (Instant.read t.exactStamp).map fun t => { d with updated := t } := rfl
  rw [member, Instant.read_exactStamp h, Option.map_some]

theorem addLabels_strings (t acc : Table Text) :
    Json.addLabels acc (t.map fun p => (p.1, .string p.2)) =
      some (t.foldl (fun acc p => acc.insert p.1 p.2) acc) := by
  induction t generalizing acc with
  | nil => rfl
  | cons p t ih => exact ih _

theorem setMembers_labels {d : StoredDefinition} (h : d.labels = none) {l : Labels}
    (sorted : ∀ t, l = some t → t.IsSorted) :
    d.setMembers (labelTree l) = some { d with labels := if l = some [] then none else l } := by
  rcases l with _ | _ | ⟨x, t⟩
  · simp [labelTree, setMembers, ← h]
  · simp [labelTree, setMembers, ← h]
  · have read := addLabels_strings (x :: t) []
    have same : (x :: t).foldl (fun acc p => Table.insert p.1 p.2 acc) [] = x :: t :=
      Table.ofList_of_sorted (sorted _ rfl)
    rw [same] at read
    have labels : d.setMember (text "labels") (.object ((x :: t).map fun p => (p.1, .string p.2))) =
        ((Json.addLabels (d.labels.getD []) ((x :: t).map fun p => (p.1, .string p.2))).map some).map
          fun l => { d with labels := l } := rfl
    rw [labelTree, setMembers, labels, h, Option.getD_none, read]
    rfl

/-- A record is decoded as the definition it was written for. -/
theorem decode_encode {d : StoredDefinition} (h : d.IsStorable) : decode d.encode = some d.tidy := by
  have named : ({} : StoredDefinition).setMembers [(text "name", .string d.name)] =
      some { name := d.name } := rfl
  rw [decode, read_encode h]
  -- Members that a record leaves out are empty in the definition that decoding begins with.
  simp only [recordTrees, setMembers_append, named, Option.bind_some]
  rw [setMembers_description rfl, Option.bind_some]
  simp only [setMembers, setMember_source, setMember_revision, setMember_created _ h.created,
    setMember_updated _ h.updated, Option.bind_some]
  rw [setMembers_labels rfl fun t ht => (h.labels t ht).1]
  rfl

end StoredDefinition

end ScopedAggregation
