import Mathlib.Data.List.Induction
import ScopedAggregation.Proofs.DocumentNodes

namespace ScopedAggregation

namespace Table

variable {α β : Type}

theorem perm_insert {name : Text} {x : α} {t : Table α} (h : name ∉ t.map (·.1)) :
    (insert name x t).Perm ((name, x) :: t) := by
  induction t with
  | nil => exact .refl _
  | cons q t ih =>
    obtain ⟨k, y⟩ := q
    rw [List.map_cons, List.mem_cons, not_or] at h
    rw [insert, if_neg (Ne.symm h.1)]
    split
    next => exact .refl _
    next => exact ((ih h.2).cons _).trans (.swap _ _ _)

theorem ofList_append (entries : List (Text × α)) (p : Text × α) :
    ofList (entries ++ [p]) = insert p.1 p.2 (ofList entries) := by
  rw [ofList, List.foldl_append]
  rfl

theorem perm_ofList {entries : List (Text × α)} (h : (entries.map (·.1)).Nodup) :
    (ofList entries).Perm entries := by
  induction entries using List.reverseRecOn with
  | nil => exact .refl _
  | append_singleton entries p ih =>
    rw [List.map_append, List.nodup_append] at h
    obtain ⟨hentries, -, happart⟩ := h
    have hperm := ih hentries
    have hfresh : p.1 ∉ (ofList entries).map (·.1) := by
      intro hmem
      have hmem' := (hperm.map _).mem_iff.mp hmem
      exact happart p.1 hmem' p.1 (List.mem_singleton.mpr rfl) rfl
    rw [ofList_append]
    have hinsert := perm_insert (x := p.2) hfresh
    exact (hinsert.trans (hperm.cons p)).trans (List.perm_append_singleton p entries).symm

theorem isSorted_ofList (entries : List (Text × α)) : IsSorted (ofList entries) := by
  induction entries using List.reverseRecOn with
  | nil => exact .nil
  | append_singleton entries p ih =>
    rw [ofList_append]
    exact ih.insert p.1 p.2

theorem mem_of_mem_ofList {entries : List (Text × α)} {p : Text × α} (h : p ∈ ofList entries) :
    p ∈ entries := by
  induction entries using List.reverseRecOn with
  | nil => exact h
  | append_singleton entries q ih =>
    rw [ofList_append] at h
    rw [List.mem_append, List.mem_singleton]
    exact (mem_insert h).symm.imp ih id

theorem insert_map (f : α → β) (name : Text) (x : α) (t : Table α) :
    insert name (f x) (t.map fun q => (q.1, f q.2)) = (insert name x t).map fun q => (q.1, f q.2) := by
  induction t with
  | nil => rfl
  | cons q t ih =>
    obtain ⟨k, y⟩ := q
    rw [List.map_cons, insert, insert]
    split
    next => rfl
    next =>
      split
      next => rfl
      next => rw [ih, List.map_cons]

theorem ofList_map (f : α → β) (entries : List (Text × α)) :
    ofList (entries.map fun q => (q.1, f q.2)) = (ofList entries).map fun q => (q.1, f q.2) := by
  induction entries using List.reverseRecOn with
  | nil => rfl
  | append_singleton entries p ih =>
    rw [List.map_append, List.map_singleton, ofList_append, ofList_append, ih]
    exact insert_map f p.1 p.2 (ofList entries)

theorem ofList_ofList (entries : List (Text × α)) : ofList (ofList entries) = ofList entries :=
  ofList_of_sorted (isSorted_ofList entries)

end Table

theorem Plain.toEntries_eq_map (entries : List (Text × Plain)) :
    toEntries entries = entries.map fun q => (q.1, q.2.toValue) := by
  induction entries with
  | nil => rfl
  | cons q entries ih => rw [toEntries, ih, List.map_cons]

namespace Value

/-- The same value but for the order of the entries of documents. -/
inductive Rearranged : Value → Value → Prop
  | refl (v : Value) : Rearranged v v
  | list {vs ws : List Value} (items : List.Forall₂ Rearranged vs ws) : Rearranged (.list vs) (.list ws)
  | document {es fs gs : List (Text × Value)} (keys : es.map (·.1) = fs.map (·.1))
    (values : List.Forall₂ Rearranged (es.map (·.2)) (fs.map (·.2))) (order : fs.Perm gs) :
    Rearranged (.document es) (.document gs)

/-- No key stands twice in a document. -/
def hasDistinctKeys : Value → Bool
  | .document entries => (entries.map (·.1)).Nodup
  | _ => true

/-- A text that is a string or a key in a value. -/
inductive Contains : Value → Text → Prop
  | string {s : Text} : Contains (.string s) s
  | item {items : List Value} {v : Value} {s : Text} (mem : v ∈ items) (inside : Contains v s) :
    Contains (.list items) s
  | key {entries : List (Text × Value)} {q : Text × Value} (mem : q ∈ entries) :
    Contains (.document entries) q.1
  | entry {entries : List (Text × Value)} {q : Text × Value} {s : Text} (mem : q ∈ entries)
    (inside : Contains q.2 s) : Contains (.document entries) s

theorem holdsReference_eq_false {v : Value} :
    v.holdsReference = false ↔ ∀ s, v.Contains s → isReference s = false := by
  induction v using memberInduction with
  | null | bool | int | double => exact ⟨fun _ s h => (nomatch h), fun _ => rfl⟩
  | string s =>
    constructor
    · intro h t ht
      cases ht
      exact h
    · exact fun h => h s .string
  | list items ih =>
    rw [holdsReference, holdsReferenceItems_eq_false]
    constructor
    · intro h s hs
      cases hs with
      | @item _ v _ mem inside => exact (ih v mem).mp (h v mem) s inside
    · exact fun h v hv => (ih v hv).mpr fun s hs => h s (.item hv hs)
  | document entries ih =>
    rw [holdsReference, holdsReferenceEntries_eq_false]
    constructor
    · intro h s hs
      cases hs with
      | @key _ q mem => exact (h q mem).1
      | @entry _ q _ mem inside => exact (ih q mem).mp (h q mem).2 s inside
    · intro h q hq
      exact ⟨h q.1 (.key hq), (ih q hq).mpr fun s hs => h s (.entry hq hs)⟩

mutual

/-- The value with the keys of every document in increasing order. -/
def sortKeys : Value → Value
  | .list items => .list (sortKeysOfItems items)
  | .document entries => .document (Table.ofList (sortKeysOfEntries entries))
  | v => v

def sortKeysOfItems : List Value → List Value
  | [] => []
  | v :: vs => v.sortKeys :: sortKeysOfItems vs

def sortKeysOfEntries : List (Text × Value) → List (Text × Value)
  | [] => []
  | (k, v) :: es => (k, v.sortKeys) :: sortKeysOfEntries es

end

theorem sortKeys_list (items : List Value) :
    (Value.list items).sortKeys = .list (items.map sortKeys) := by
  have hitems : sortKeysOfItems items = items.map sortKeys := by
    induction items with
    | nil => rfl
    | cons v vs ih => rw [sortKeysOfItems, ih, List.map_cons]
  rw [sortKeys, hitems]

theorem sortKeys_document (entries : List (Text × Value)) : (Value.document entries).sortKeys =
    .document (Table.ofList (entries.map fun q => (q.1, q.2.sortKeys))) := by
  have hentries : sortKeysOfEntries entries = entries.map fun q => (q.1, q.2.sortKeys) := by
    induction entries with
    | nil => rfl
    | cons q es ih => rw [sortKeysOfEntries, ih, List.map_cons]
  rw [sortKeys, hentries]

theorem keys_sortKeys (entries : List (Text × Value)) :
    (entries.map fun q => (q.1, q.2.sortKeys)).map (·.1) = entries.map (·.1) := by
  rw [List.map_map]
  rfl

theorem isSortedNode_document {entries : List (Text × Value)} :
    (Value.document entries).isSortedNode = true ↔ Table.IsSorted entries := by
  rw [isSortedNode, decide_eq_true_eq]
  rfl

theorem isSorted_sortKeys (v : Value) : v.sortKeys.all isSortedNode = true := by
  induction v using memberInduction with
  | null | bool | int | double | string => rfl
  | list items ih =>
    rw [sortKeys_list, all_list]
    exact ⟨rfl, List.forall_mem_map.mpr ih⟩
  | document entries ih =>
    rw [sortKeys_document, all_document]
    refine ⟨isSortedNode_document.mpr (Table.isSorted_ofList _), ?_⟩
    intro q hq
    obtain ⟨p, hp, rfl⟩ := List.mem_map.mp (Table.mem_of_mem_ofList hq)
    exact ih p hp

theorem sortKeys_of_sorted {v : Value} (h : v.all isSortedNode = true) : v.sortKeys = v := by
  induction v using memberInduction with
  | null | bool | int | double | string => rfl
  | list items ih =>
    have hitems := (all_list.mp h).2
    have hsame : items.map sortKeys = items.map id :=
      List.map_congr_left fun v hv => ih v hv (hitems v hv)
    rw [sortKeys_list, hsame, List.map_id]
  | document entries ih =>
    obtain ⟨hkeys, hentries⟩ := all_document.mp h
    have hsame : entries.map (fun q => (q.1, q.2.sortKeys)) = entries.map id :=
      List.map_congr_left fun q hq => Prod.ext rfl (ih q hq (hentries q hq))
    rw [sortKeys_document, hsame, List.map_id, Table.ofList_of_sorted (isSortedNode_document.mp hkeys)]

theorem sortKeys_eq_self_iff {v : Value} : v.sortKeys = v ↔ v.all isSortedNode = true := by
  refine ⟨fun h => ?_, sortKeys_of_sorted⟩
  have hsorted := v.isSorted_sortKeys
  rwa [h] at hsorted

theorem perm_sortKeys {entries : List (Text × Value)} (h : (Value.document entries).hasDistinctKeys = true) :
    (entries.map fun q => (q.1, q.2.sortKeys)).Perm
      (Table.ofList (entries.map fun q => (q.1, q.2.sortKeys))) := by
  apply List.Perm.symm
  apply Table.perm_ofList
  rw [keys_sortKeys]
  simpa [hasDistinctKeys] using h

/-- Sorting the keys loses their order only. -/
theorem rearranged_sortKeys {v : Value} (distinct : v.all hasDistinctKeys = true) :
    v.Rearranged v.sortKeys := by
  induction v using memberInduction with
  | null | bool | int | double | string => exact .refl _
  | list items ih =>
    have hitems := (all_list.mp distinct).2
    rw [sortKeys_list]
    apply Rearranged.list
    rw [List.forall₂_map_right_iff, List.forall₂_same]
    exact fun v hv => ih v hv (hitems v hv)
  | document entries ih =>
    obtain ⟨hkeys, hentries⟩ := all_document.mp distinct
    rw [sortKeys_document]
    refine .document (keys_sortKeys entries).symm ?_ (perm_sortKeys hkeys)
    rw [List.map_map, List.forall₂_map_left_iff, List.forall₂_map_right_iff, List.forall₂_same]
    exact fun q hq => ih q hq (hentries q hq)

theorem holdsReference_sortKeys {v : Value} (distinct : v.all hasDistinctKeys = true) :
    v.sortKeys.holdsReference = v.holdsReference := by
  induction v using memberInduction with
  | null | bool | int | double | string => rfl
  | list items ih =>
    have hitems := (all_list.mp distinct).2
    have hsame : ∀ v ∈ items, v.sortKeys.holdsReference = false ↔ v.holdsReference = false :=
      fun v hv => by rw [ih v hv (hitems v hv)]
    rw [sortKeys_list, Bool.eq_iff_iff, ← not_iff_not, Bool.not_eq_true, Bool.not_eq_true,
      holdsReference, holdsReference, holdsReferenceItems_eq_false, holdsReferenceItems_eq_false,
      List.forall_mem_map]
    exact forall₂_congr hsame
  | document entries ih =>
    obtain ⟨hkeys, hentries⟩ := all_document.mp distinct
    have hmem : ∀ q, q ∈ Table.ofList _ ↔ q ∈ _ := fun q => (perm_sortKeys hkeys).symm.mem_iff
    rw [sortKeys_document, Bool.eq_iff_iff, ← not_iff_not, Bool.not_eq_true, Bool.not_eq_true,
      holdsReference, holdsReference, holdsReferenceEntries_eq_false, holdsReferenceEntries_eq_false]
    simp only [hmem, List.forall_mem_map]
    exact forall₂_congr fun q hq => by rw [ih q hq (hentries q hq)]

end Value

/-- The document stands for the value: it is the value, or marks it as literal if a text in it begins
with a sigil. -/
def Value.IsShownAs (v doc : Value) : Prop :=
  ((∀ s, v.Contains s → isReference s = false) ∧ doc = v) ∨
    ((∃ s, v.Contains s ∧ isReference s = true) ∧ doc = Value.doc (text "$literal") v)

theorem Value.isShownAs_iff {v doc : Value} : v.IsShownAs doc ↔ doc = renderLiteral v := by
  by_cases plain : ∀ s, v.Contains s → isReference s = false
  · have hnone : ¬ ∃ s, v.Contains s ∧ isReference s = true := by
      rintro ⟨s, hs, hreference⟩
      rw [plain s hs] at hreference
      cases hreference
    have hplain : ¬ v.holdsReference = true := by
      rw [holdsReference_eq_false.mpr plain]
      exact Bool.false_ne_true
    rw [renderLiteral, if_neg hplain]
    simp only [IsShownAs, hnone, false_and, or_false, and_iff_right plain]
  · have hsome : ∃ s, v.Contains s ∧ isReference s = true := by
      push Not at plain
      simpa only [Bool.not_eq_false] using plain
    have hmarked : v.holdsReference = true := by
      by_contra h
      exact plain (holdsReference_eq_false.mp (Bool.not_eq_true _ ▸ h))
    rw [renderLiteral, if_pos hmarked]
    simp only [IsShownAs, plain, hsome, false_and, false_or, true_and]

/-- The document of a value with its keys sorted stands for the value itself only if they are sorted
there. -/
theorem Value.isShownAs_sortKeys_iff {v : Value} (distinct : v.all hasDistinctKeys = true) :
    v.IsShownAs (renderLiteral v.sortKeys) ↔ v.all isSortedNode = true := by
  rw [isShownAs_iff, ← sortKeys_eq_self_iff, renderLiteral, renderLiteral, holdsReference_sortKeys distinct]
  split
  next =>
    constructor
    · intro h
      simpa [Value.doc] using h
    · intro h
      rw [h]
  next => exact Iff.rfl

end ScopedAggregation
