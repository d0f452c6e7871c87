import Mathlib.Data.List.Sort
import ScopedAggregation.Proofs.DecimalNumerals
import ScopedAggregation.Proofs.KeyOrder

namespace ScopedAggregation

theorem Table.eq_of_perm {α : Type} {s t : Table α} (hperm : s.Perm t) (hs : Table.IsSorted s)
    (ht : Table.IsSorted t) : s = t := by
  have hpairs : ∀ {u : Table α}, Table.IsSorted u → u.Pairwise fun p q => Text.lt p.1 q.1 = true :=
    fun hu => List.pairwise_map.mp hu
  refine hperm.eq_of_pairwise (fun p q _ _ hpq hqp => ?_) (hpairs hs) (hpairs ht)
  exact absurd rfl (Text.ne_of_lt (Text.lt_trans hpq hqp))

theorem Double.toInt64?_eq_some {x : Double} {i : Int64} : x.toInt64? = some i ↔
    x.whole? = some i.toInt ∨ x.whole? = some (int64Bound : Int) ∧ i = pastInt64 := by
  rw [toInt64?]
  cases x.whole? with
  | none => simp
  | some k =>
    simp only [Option.some.injEq]
    by_cases hk : isInt64 k = true
    · have hpast : k ≠ int64Bound := by
        rintro rfl
        cases hk
      rw [if_pos hk, Option.some.injEq]
      simp only [hpast, false_and, or_false]
      constructor
      · rintro rfl
        exact (Numeral.toInt_ofInt_of_isInt64 hk).symm
      · rintro rfl
        exact Int64.ofInt_toInt i
    · have hother : k ≠ i.toInt := by
        rintro rfl
        exact hk (Numeral.isInt64_toInt i)
      rw [if_neg hk]
      simp only [hother, false_or]
      by_cases hpast : k = int64Bound
      · rw [if_pos hpast, Option.some.injEq, eq_comm]
        exact (and_iff_right hpast).symm
      · rw [if_neg hpast]
        simp only [reduceCtorEq, hpast, false_and]

namespace Plain

/-- A double becomes the integer that it is, and `2 ^ 63`, which no integer of 64 bits is, becomes one
as well. -/
theorem toValue_double_eq_int {x : Double} {i : Int64} : (Plain.double x).toValue = .int i ↔
    x.whole? = some i.toInt ∨ x.whole? = some (int64Bound : Int) ∧ i = Double.pastInt64 := by
  rw [toValue, Value.ofDouble, ← Double.toInt64?_eq_some]
  cases x.toInt64? <;> simp

example : (Plain.double ⟨0x43e0000000000000⟩).toValue = .int (-0x8000000000000000) := rfl

theorem toValue_list (items : List Plain) : (Plain.list items).toValue = .list (items.map toValue) := by
  have hitems : toValues items = items.map toValue := by
    induction items with
    | nil => rfl
    | cons p ps ih => rw [toValues, ih, List.map_cons]
  rw [toValue, hitems]

theorem toValue_map (entries : List (Text × Plain)) : (Plain.map entries).toValue =
    .document (Table.ofList (entries.map fun q => (q.1, q.2.toValue))) := by
  rw [toValue, toEntries_eq_map]

end Plain

namespace Value

theorem toPlain_list (items : List Value) : (Value.list items).toPlain = .list (items.map toPlain) := by
  have hitems : toPlains items = items.map toPlain := by
    induction items with
    | nil => rfl
    | cons v vs ih => rw [toPlains, ih, List.map_cons]
  rw [toPlain, hitems]

theorem toPlain_document (entries : List (Text × Value)) : (Value.document entries).toPlain =
    .map (Table.ofList (entries.map fun q => (q.1, q.2.toPlain))) := by
  have hentries : toPlainEntries entries = entries.map fun q => (q.1, q.2.toPlain) := by
    induction entries with
    | nil => rfl
    | cons q es ih => rw [toPlainEntries, ih, List.map_cons]
  rw [toPlain, hentries]

/-- There and back, only the keys are sorted. -/
theorem toValue_toPlain {v : Value} (noDouble : v.all (fun w => w.kind ≠ .double) = true) :
    v.toPlain.toValue = v.sortKeys := by
  induction v using memberInduction with
  | null | bool | int | string => rfl
  | double => simp [all, kind] at noDouble
  | list items ih =>
    have hitems := (all_list.mp noDouble).2
    rw [toPlain_list, Plain.toValue_list, sortKeys_list, List.map_map]
    exact congrArg _ (List.map_congr_left fun v hv => ih v hv (hitems v hv))
  | document entries ih =>
    have hentries := (all_document.mp noDouble).2
    have hsame : (entries.map fun q => (q.1, q.2.toPlain.toValue)) =
        entries.map fun q => (q.1, q.2.sortKeys) :=
      List.map_congr_left fun q hq => Prod.ext rfl (ih q hq (hentries q hq))
    rw [toPlain_document, Plain.toValue_map, ← Table.ofList_map, Table.ofList_ofList, List.map_map,
      sortKeys_document]
    exact congrArg (fun es => document (Table.ofList es)) hsame

/-- There is one way only to sort the keys. -/
theorem Rearranged.eq_sortKeys {v w : Value} (h : v.Rearranged w)
    (sorted : w.all isSortedNode = true) : w = v.sortKeys := by
  induction v using memberInduction generalizing w with
  | null | bool | int | double | string =>
    cases h
    rfl
  | list items ih =>
    cases h with
    | refl => exact (sortKeys_of_sorted sorted).symm
    | @list _ ws parts =>
      have hws := (all_list.mp sorted).2
      have hparts : List.Forall₂ (fun v w => v.sortKeys = w) items ws := by
        have hsorted := forall₂_imp_of_mem parts (S := fun v w => v.Rearranged w ∧ w.all isSortedNode = true)
          fun _ w hw hvw => ⟨hvw, hws w hw⟩
        exact forall₂_imp_of_mem_left hsorted fun v hv w hvw => (ih v hv hvw.1 hvw.2).symm
      have hall : items.map sortKeys = ws := by
        rw [forall₂_map_eq (g := id) hparts fun _ _ hvw => hvw, List.map_id]
      rw [sortKeys_list, hall]
  | document entries ih =>
    cases h with
    | refl => exact (sortKeys_of_sorted sorted).symm
    | @document _ fs gs keys values order =>
      obtain ⟨hnode, hgs⟩ := all_document.mp sorted
      have hsortedGs := isSortedNode_document.mp hnode
      have hpairs := forall₂_of_parts (List.forall₂_eq_eq_eq ▸ keys) values
      have hentries : List.Forall₂ (fun p q => (p.1, p.2.sortKeys) = q) entries fs := by
        have hsorted := forall₂_imp_of_mem hpairs
          (S := fun p q => (p.1 = q.1 ∧ p.2.Rearranged q.2) ∧ q.2.all isSortedNode = true)
          fun _ q hq hpq => ⟨hpq, hgs q (order.mem_iff.mp hq)⟩
        exact forall₂_imp_of_mem_left hsorted fun p hp q hpq =>
          Prod.ext hpq.1.1 (ih p hp hpq.1.2 hpq.2).symm
      have hall : (entries.map fun p => (p.1, p.2.sortKeys)) = fs := by
        rw [forall₂_map_eq (g := id) hentries fun _ _ hpq => hpq, List.map_id]
      have hnodup : (fs.map (·.1)).Nodup := by
        have hdistinct : (gs.map (·.1)).Nodup := hsortedGs.imp Text.ne_of_lt
        exact (order.map _).nodup_iff.mpr hdistinct
      have hsame := Table.eq_of_perm ((Table.perm_ofList hnodup).trans order)
        (Table.isSorted_ofList fs) hsortedGs
      rw [sortKeys_document, hall, hsame]

theorem sortKeys_eq_iff {v w : Value} (distinct : v.all hasDistinctKeys = true) :
    v.sortKeys = w ↔ v.Rearranged w ∧ w.all isSortedNode = true := by
  constructor
  · rintro rfl
    exact ⟨rearranged_sortKeys distinct, v.isSorted_sortKeys⟩
  · rintro ⟨hrearranged, sorted⟩
    exact (hrearranged.eq_sortKeys sorted).symm

end Value

namespace Plain

/-- Data of truth values, integers, strings, lists and maps. The entries of a map stand in the order of
their keys, since it has no order of its own. -/
inductive IsData : Plain → Prop
  | null : IsData .null
  | bool {b : Bool} : IsData (.bool b)
  | string {s : Text} : IsData (.string s)
  | int {i : Int64} : IsData (.int i)
  | list {items : List Plain} (h : ∀ p ∈ items, IsData p) : IsData (.list items)
  | map {entries : List (Text × Plain)} (sorted : Table.IsSorted entries)
    (h : ∀ q ∈ entries, IsData q.2) : IsData (.map entries)

theorem isData_toPlain {v : Value} (noDouble : v.all (fun w => w.kind ≠ .double) = true) :
    v.toPlain.IsData := by
  induction v using Value.memberInduction with
  | null => exact .null
  | bool b => exact .bool
  | int i => exact .int
  | double => simp [Value.all, Value.kind] at noDouble
  | string s => exact .string
  | list items ih =>
    have hitems := (Value.all_list.mp noDouble).2
    rw [Value.toPlain_list]
    exact .list (List.forall_mem_map.mpr fun v hv => ih v hv (hitems v hv))
  | document entries ih =>
    have hentries := (Value.all_document.mp noDouble).2
    rw [Value.toPlain_document]
    refine .map (Table.isSorted_ofList _) fun q hq => ?_
    obtain ⟨p, hp, rfl⟩ := List.mem_map.mp (Table.mem_of_mem_ofList hq)
    exact ih p hp (hentries p hp)

theorem IsData.toPlain_toValue {p : Plain} (h : p.IsData) : p.toValue.toPlain = p := by
  induction h with
  | null | bool | string | int => rfl
  | @list items _ ih =>
    have hsame : items.map (fun p => p.toValue.toPlain) = items.map id := List.map_congr_left ih
    rw [List.map_id] at hsame
    rw [toValue_list, Value.toPlain_list, List.map_map]
    exact congrArg _ hsame
  | @map entries sorted _ ih =>
    have hsame : (entries.map fun q => (q.1, q.2.toValue.toPlain)) = entries.map id :=
      List.map_congr_left fun q hq => Prod.ext rfl (ih q hq)
    have htable : Table.ofList (entries.map fun q => (q.1, q.2.toValue.toPlain)) = entries := by
      rw [hsame, List.map_id, Table.ofList_of_sorted sorted]
    rw [toValue_map, Value.toPlain_document, ← Table.ofList_map, Table.ofList_ofList, List.map_map]
    exact congrArg _ htable

end Plain

/-- A value without doubles comes back from plain data as the one value that has its entries with the
keys of every document in increasing order. So a second time changes nothing, and the first changes
nothing in a value whose keys are sorted already. Plain data comes back from a value as it was. -/
theorem plain_conversion_sorts :
    (∀ v : Value, v.all Value.hasDistinctKeys = true → v.all (fun w => w.kind ≠ .double) = true →
      (∀ w, v.toPlain.toValue = w ↔ v.Rearranged w ∧ w.all Value.isSortedNode = true) ∧
        v.toPlain.toValue.toPlain.toValue = v.toPlain.toValue ∧
        (v.toPlain.toValue = v ↔ v.all Value.isSortedNode = true)) ∧
      ∀ p : Plain, p.IsData → p.toValue.toPlain = p := by
  refine ⟨fun v distinct noDouble => ?_, fun p h => h.toPlain_toValue⟩
  have hback := Value.toValue_toPlain noDouble
  have hdata := (Plain.isData_toPlain noDouble).toPlain_toValue
  refine ⟨fun w => ?_, by rw [hdata], ?_⟩
  · rw [hback]
    exact Value.sortKeys_eq_iff distinct
  · rw [hback]
    exact Value.sortKeys_eq_self_iff

/-- A document inside a list inside a document, both documents unsorted. -/
def shuffledOrder : Value :=
  .document [(text "total", .int (-3)),
    (text "lines", .list [.document [(text "qty", .null), (text "", .bool true)], .string (text "$a")])]

def sortedOrder : Value :=
  .document [(text "lines",
      .list [.document [(text "", .bool true), (text "qty", .null)], .string (text "$a")]),
    (text "total", .int (-3))]

theorem shuffledOrder_sorted :
    shuffledOrder.all Value.hasDistinctKeys = true ∧
      shuffledOrder.all (fun w => w.kind ≠ .double) = true ∧
      shuffledOrder.toPlain.toValue = sortedOrder ∧ shuffledOrder.Rearranged sortedOrder ∧
      shuffledOrder.toPlain.toValue ≠ shuffledOrder ∧
      sortedOrder.toPlain.IsData ∧ sortedOrder.toPlain.toValue.toPlain = sortedOrder.toPlain := by
  have distinct : shuffledOrder.all Value.hasDistinctKeys = true := by decide
  have noDouble : shuffledOrder.all (fun w => w.kind ≠ .double) = true := by decide
  have hback : shuffledOrder.toPlain.toValue = sortedOrder := by rfl
  have hdata : sortedOrder.toPlain.IsData := Plain.isData_toPlain (by decide)
  obtain ⟨hvalues, hplain⟩ := plain_conversion_sorts
  obtain ⟨hsorts, -, hkept⟩ := hvalues shuffledOrder distinct noDouble
  have unsorted : ¬ shuffledOrder.all Value.isSortedNode = true := by decide
  exact ⟨distinct, noDouble, hback, ((hsorts sortedOrder).mp hback).1, fun h => unsorted (hkept.mp h),
    hdata, hplain _ hdata⟩

end ScopedAggregation
