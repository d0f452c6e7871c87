import ScopedAggregation.Table
import Mathlib.Data.List.Pairwise

namespace ScopedAggregation

namespace Text

theorem le_refl (s : Text) : le s s = true := by
  induction s with
  | nil => rfl
  | cons b s ih => simpa [le] using ih

theorem cons_le_cons {a b : UInt8} {s t : Text} :
    le (a :: s) (b :: t) = true ↔ a.toNat < b.toNat ∨ a.toNat = b.toNat ∧ le s t = true := by
  simp only [le, UInt8.lt_iff_toNat_lt]
  split
  next hab => simp [hab]
  next hab =>
    split
    next hba =>
      have hne : a.toNat ≠ b.toNat := by omega
      simp [hab, hne]
    next hba =>
      have heq : a.toNat = b.toNat := by omega
      simp [heq]

theorem le_total (s t : Text) : le s t = true ∨ le t s = true := by
  induction s generalizing t with
  | nil => exact .inl rfl
  | cons a s ih =>
    cases t with
    | nil => exact .inr rfl
    | cons b t =>
      rw [cons_le_cons, cons_le_cons]
      rcases Nat.lt_trichotomy a.toNat b.toNat with hab | hab | hab
      · exact .inl (.inl hab)
      · exact (ih t).imp (fun h => .inr ⟨hab, h⟩) fun h => .inr ⟨hab.symm, h⟩
      · exact .inr (.inl hab)

theorem le_trans {s t u : Text} (hst : le s t = true) (htu : le t u = true) : le s u = true := by
  induction s generalizing t u with
  | nil => rfl
  | cons a s ih =>
    cases t with
    | nil => cases hst
    | cons b t =>
      cases u with
      | nil => cases htu
      | cons c u =>
        have hrest := @ih t u
        rw [cons_le_cons] at hst htu ⊢
        rcases hst with hab | ⟨hab, hst⟩
        · omega
        · rcases htu with hbc | ⟨hbc, htu⟩
          · omega
          · exact .inr ⟨hab.trans hbc, hrest hst htu⟩

theorem le_antisymm {s t : Text} (hst : le s t = true) (hts : le t s = true) : s = t := by
  induction s generalizing t with
  | nil =>
    cases t with
    | nil => rfl
    | cons b t => cases hts
  | cons a s ih =>
    cases t with
    | nil => cases hst
    | cons b t =>
      have hrest := @ih t
      rw [cons_le_cons] at hst hts
      have heq : a = b := UInt8.toNat_inj.mp (by omega)
      subst heq
      rw [hrest (by simpa using hst) (by simpa using hts)]

theorem ne_of_lt {s t : Text} (h : lt s t = true) : s ≠ t := by
  rintro rfl
  simp [lt, le_refl] at h

theorem le_of_lt {s t : Text} (h : lt s t = true) : le s t = true := by
  rw [lt, Bool.not_eq_true'] at h
  exact (le_total s t).resolve_right (by simp [h])

theorem lt_trans {s t u : Text} (hst : lt s t = true) (htu : lt t u = true) : lt s u = true := by
  have hle := le_of_lt hst
  simp only [lt, Bool.not_eq_true'] at htu ⊢
  by_contra hus
  have := le_trans (by simpa using hus) hle
  simp [htu] at this

theorem lt_of_le_of_ne {s t : Text} (hle : le s t = true) (hne : s ≠ t) : lt s t = true := by
  simp only [lt, Bool.not_eq_true']
  by_contra hts
  exact hne (le_antisymm hle (by simpa using hts))

end Text

namespace Table

variable {α β : Type}

/-- The names are strictly increasing. -/
def IsSorted (t : Table α) : Prop := (t.map (·.1)).Pairwise (Text.lt · · = true)

/-- An entry of a greater name goes behind all others. -/
theorem insert_last {name : Text} {x : α} {t : Table α}
    (h : ∀ p ∈ t, Text.lt p.1 name = true) : insert name x t = t ++ [(name, x)] := by
  induction t with
  | nil => rfl
  | cons p t ih =>
    obtain ⟨k, y⟩ := p
    obtain ⟨hk, ht⟩ := List.forall_mem_cons.mp h
    have hle : Text.le name k = false := by simpa [Text.lt] using hk
    rw [insert, if_neg (Text.ne_of_lt hk), if_neg (by simp [hle]), ih ht]
    rfl

/-- Entries in increasing order of their names are a table already. -/
theorem ofList_of_sorted {entries : List (Text × α)}
    (h : (entries.map (·.1)).Pairwise (Text.lt · · = true)) : ofList entries = entries := by
  have hfold : ∀ (rest t : List (Text × α)),
      ((t ++ rest).map (·.1)).Pairwise (Text.lt · · = true) →
      rest.foldl (fun t p => insert p.1 p.2 t) t = t ++ rest := by
    intro rest
    induction rest with
    | nil => simp
    | cons p rest ih =>
      intro t ht
      have hlast : ∀ q ∈ t, Text.lt q.1 p.1 = true := by
        rw [List.map_append, List.pairwise_append] at ht
        exact fun q hq => ht.2.2 q.1 (List.mem_map_of_mem hq) p.1 (by simp)
      have hnext := ih (t ++ [p]) (by simpa using ht)
      have hstep := @insert_last α p.1 p.2 t hlast
      rw [List.foldl_cons]
      simpa [hstep] using hnext
  exact hfold entries [] h

theorem isSorted_cons {p : Text × α} {t : Table α} :
    IsSorted (p :: t) ↔ (∀ q ∈ t, Text.lt p.1 q.1 = true) ∧ IsSorted t := by
  simp [IsSorted]

theorem IsSorted.lt_of_append {p : Text × α} {before after : Table α}
    (h : IsSorted (before ++ p :: after)) : ∀ q ∈ after, Text.lt p.1 q.1 = true := by
  rw [IsSorted, List.map_append, List.pairwise_append] at h
  exact (isSorted_cons.mp h.2.1).1

theorem mem_insert {name : Text} {x : α} {t : Table α} {p : Text × α} (h : p ∈ insert name x t) :
    p = (name, x) ∨ p ∈ t := by
  induction t with
  | nil => exact .inl (List.mem_singleton.mp h)
  | cons q t ih =>
    rw [insert] at h
    split at h
    next =>
      rcases List.mem_cons.mp h with rfl | h
      · exact .inl rfl
      · exact .inr (List.mem_cons_of_mem q h)
    next =>
      split at h
      next => exact List.mem_cons.mp h
      next =>
        rcases List.mem_cons.mp h with rfl | h
        · exact .inr (by simp)
        · exact (ih h).imp id (List.mem_cons_of_mem q)

theorem IsSorted.insert {t : Table α} (h : IsSorted t) (name : Text) (x : α) :
    IsSorted (t.insert name x) := by
  induction t with
  | nil => simp [IsSorted, Table.insert]
  | cons q t ih =>
    obtain ⟨k, y⟩ := q
    obtain ⟨hfirst, hrest⟩ := isSorted_cons.mp h
    rw [Table.insert]
    split
    next heq =>
      subst heq
      exact isSorted_cons.mpr ⟨hfirst, hrest⟩
    next hne =>
      split
      next hle =>
        have hlt : Text.lt name k = true := Text.lt_of_le_of_ne hle (Ne.symm hne)
        refine isSorted_cons.mpr ⟨List.forall_mem_cons.mpr ⟨hlt, ?_⟩, h⟩
        exact fun p hp => Text.lt_trans hlt (hfirst p hp)
      next hle =>
        have hlt : Text.lt k name = true := by simpa [Text.lt] using hle
        refine isSorted_cons.mpr ⟨fun p hp => ?_, ih hrest⟩
        rcases mem_insert hp with rfl | hp
        · exact hlt
        · exact hfirst p hp

theorem erase_sublist (name : Text) (t : Table α) : List.Sublist (erase name t) t := by
  induction t with
  | nil => exact .slnil
  | cons q t ih =>
    rw [erase]
    split
    next => exact List.sublist_cons_self q t
    next => exact ih.cons_cons q

theorem IsSorted.erase {t : Table α} (h : IsSorted t) (name : Text) : IsSorted (t.erase name) :=
  h.sublist ((erase_sublist name t).map _)

theorem mem_of_get? {name : Text} {x : α} {t : Table α} (h : t.get? name = some x) :
    (name, x) ∈ t := by
  induction t with
  | nil => cases h
  | cons q t ih =>
    rw [get?] at h
    split at h
    next heq =>
      cases h
      simp [← heq]
    next => exact List.mem_cons_of_mem q (ih h)

theorem IsSorted.get?_eq_some {t : Table α} (h : IsSorted t) {name : Text} {x : α} :
    t.get? name = some x ↔ (name, x) ∈ t := by
  refine ⟨mem_of_get?, fun hmem => ?_⟩
  induction t with
  | nil => cases hmem
  | cons q t ih =>
    obtain ⟨hfirst, hrest⟩ := isSorted_cons.mp h
    rcases List.mem_cons.mp hmem with rfl | hmem
    · simp [get?]
    · rw [get?, if_neg (Text.ne_of_lt (hfirst _ hmem))]
      exact ih hrest hmem

theorem get?_insert (name : Text) (x : α) (t : Table α) (n : Text) :
    (t.insert name x).get? n = if n = name then some x else t.get? n := by
  induction t with
  | nil => simp [insert, get?, eq_comm]
  | cons q t ih =>
    obtain ⟨k, y⟩ := q
    rw [insert]
    split
    next hk =>
      subst hk
      simp only [get?, eq_comm]
      split <;> rfl
    next hk =>
      split
      next => simp only [get?, eq_comm]
      next =>
        rw [get?, get?, ih]
        by_cases hn : k = n
        · have hother : n ≠ name := fun hname => hk (hn.trans hname)
          simp [hn, hother]
        · simp [hn]

theorem get?_eq_none {name : Text} {t : Table α} : t.get? name = none ↔ ∀ p ∈ t, p.1 ≠ name := by
  induction t with
  | nil => simp [get?]
  | cons q t ih =>
    rw [get?, List.forall_mem_cons]
    split
    next hq => simp [hq]
    next hq => rw [ih, and_iff_right hq]

theorem get?_erase_of_ne {name n : Text} (hn : n ≠ name) (t : Table α) :
    (t.erase name).get? n = t.get? n := by
  induction t with
  | nil => rfl
  | cons q t ih =>
    obtain ⟨k, y⟩ := q
    rw [erase]
    split
    next hk => rw [get?, if_neg (fun hkn => hn (hkn.symm.trans hk))]
    next => rw [get?, get?, ih]

/-- Names stand once, so that none is left of one that is erased. -/
theorem IsSorted.get?_erase_self {t : Table α} (h : IsSorted t) (name : Text) :
    (t.erase name).get? name = none := by
  rw [get?_eq_none]
  induction t with
  | nil => exact fun p hp => absurd hp List.not_mem_nil
  | cons q t ih =>
    obtain ⟨hfirst, hrest⟩ := isSorted_cons.mp h
    rw [Table.erase]
    split
    next hk => exact fun p hp heq => Text.ne_of_lt (hfirst p hp) (hk.trans heq.symm)
    next hk => exact List.forall_mem_cons.mpr ⟨hk, ih hrest⟩

theorem IsSorted.get?_erase {t : Table α} (h : IsSorted t) (name n : Text) :
    (t.erase name).get? n = if n = name then none else t.get? n := by
  by_cases hn : n = name
  · subst hn
    rw [if_pos rfl, h.get?_erase_self]
  · rw [if_neg hn, get?_erase_of_ne hn]

/-- A change of all values goes past an insertion. -/
theorem map_insert (f : α → β) (name : Text) (x : α) (t : Table α) :
    (t.insert name x).map (fun p => (p.1, f p.2)) =
      Table.insert name (f x) (t.map fun p => (p.1, f p.2)) := by
  induction t with
  | nil => rfl
  | cons q t ih =>
    simp only [insert, List.map_cons]
    split
    · rfl
    · split
      · rfl
      · rw [List.map_cons, ih]

theorem map_erase (f : α → β) (name : Text) (t : Table α) :
    (t.erase name).map (fun p => (p.1, f p.2)) =
      Table.erase name (t.map fun p => (p.1, f p.2)) := by
  induction t with
  | nil => rfl
  | cons q t ih =>
    simp only [erase, List.map_cons]
    split
    · rfl
    · rw [List.map_cons, ih]

end Table

end ScopedAggregation
