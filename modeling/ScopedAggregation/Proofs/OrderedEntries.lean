import Mathlib.Data.List.Induction
import ScopedAggregation.Proofs.EncodedValues
import ScopedAggregation.Proofs.TableOrder
import ScopedAggregation.Value.Plain

namespace ScopedAggregation

theorem eraseDups_concat (xs : List Text) (x : Text) :
    (xs ++ [x]).eraseDups = if x ∈ xs then xs.eraseDups else xs.eraseDups ++ [x] := by
  rw [List.eraseDups_append]
  by_cases hx : x ∈ xs
  · have hnew : [x].removeAll xs = [] := by simp [List.removeAll, hx]
    rw [if_pos hx, hnew, List.eraseDups_nil, List.append_nil]
  · have hnew : [x].removeAll xs = [x] := by simp [List.removeAll, hx]
    rw [if_neg hx, hnew]
    rfl

namespace Entries

theorem keys_cons (p : Text × Value) (es : Entries) : keys (p :: es) = p.1 :: keys es := rfl

theorem keys_set (key : Text) (v : Value) (es : Entries) :
    keys (set key v es) = if key ∈ keys es then keys es else keys es ++ [key] := by
  induction es with
  | nil => rfl
  | cons p es ih =>
    obtain ⟨k, w⟩ := p
    rw [set, keys_cons]
    by_cases hk : k = key
    · subst hk
      rw [if_pos rfl, keys_cons, if_pos List.mem_cons_self]
    · have hne : key ≠ k := Ne.symm hk
      rw [if_neg hk, keys_cons, ih]
      by_cases hmem : key ∈ keys es
      · rw [if_pos hmem, if_pos (List.mem_cons_of_mem k hmem)]
      · have hnone : key ∉ k :: keys es := List.not_mem_cons_of_ne_of_not_mem hne hmem
        rw [if_neg hmem, if_neg hnone, List.cons_append]

theorem get?_set (key : Text) (v : Value) (es : Entries) (k : Text) :
    get? k (set key v es) = if k = key then some v else get? k es := by
  induction es with
  | nil => simp [set, get?, eq_comm]
  | cons p es ih =>
    obtain ⟨l, w⟩ := p
    rw [set]
    by_cases hl : l = key
    · subst hl
      simp only [if_true, get?, eq_comm]
      split <;> rfl
    · rw [if_neg hl, get?, get?, ih]
      by_cases hlk : l = k
      · have hother : k ≠ key := fun hk => hl (hlk.trans hk)
        simp [hlk, hother]
      · simp [hlk]

theorem get?_eq_none {k : Text} {es : Entries} : get? k es = none ↔ k ∉ keys es := by
  induction es with
  | nil => simp [get?, keys]
  | cons p es ih =>
    rw [get?, keys_cons, List.mem_cons, not_or, ← ih]
    by_cases hk : p.1 = k
    · simp [hk]
    · rw [if_neg hk, and_iff_right (Ne.symm hk)]

/-- A key that stands at one position only is replaced there. -/
theorem set_of_getElem? {key : Text} {w : Value} {es : Entries} {i : Nat}
    (hi : es[i]? = some (key, w)) (unique : ∀ j u, es[j]? = some (key, u) → j = i) (v : Value) :
    set key v es = List.set es i (key, v) := by
  induction es generalizing i with
  | nil => cases hi
  | cons p es ih =>
    obtain ⟨k, u⟩ := p
    cases i with
    | zero =>
      cases Option.some.inj hi
      rw [set, if_pos rfl, List.set_cons_zero]
    | succ i =>
      have hk : k ≠ key := by
        rintro rfl
        cases unique 0 u rfl
      have hrest : ∀ j u, es[j]? = some (key, u) → j = i := fun j u hj =>
        Nat.succ.inj (unique (j + 1) u hj)
      rw [set, if_neg hk, ih hi hrest, List.set_cons_succ]

/-- A key that stands nowhere goes behind all others. -/
theorem set_of_fresh {key : Text} {es : Entries}
    (fresh : ∀ (i : Nat) (w : Value), es[i]? ≠ some (key, w)) (v : Value) :
    set key v es = es ++ [(key, v)] := by
  induction es with
  | nil => rfl
  | cons p es ih =>
    obtain ⟨k, w⟩ := p
    have hk : k ≠ key := by
      rintro rfl
      exact fresh 0 w rfl
    rw [set, if_neg hk, ih fun i => fresh (i + 1), List.cons_append]

theorem ofList_append (sets : List (Text × Value)) (p : Text × Value) :
    ofList (sets ++ [p]) = set p.1 p.2 (ofList sets) := by
  rw [ofList, List.foldl_append]
  rfl

/-- Keys keep the order in which they were first set. -/
theorem keys_ofList (sets : List (Text × Value)) :
    keys (ofList sets) = (sets.map (·.1)).eraseDups := by
  induction sets using List.reverseRecOn with
  | nil => rfl
  | append_singleton sets p ih =>
    rw [ofList_append, keys_set, ih, List.map_append, List.map_singleton, eraseDups_concat]
    simp only [List.mem_eraseDups]

/-- The key was set to the value, and not set again after that. -/
def LastSet (sets : List (Text × Value)) (k : Text) (v : Value) : Prop :=
  ∃ before after, sets = before ++ (k, v) :: after ∧ ∀ p ∈ after, p.1 ≠ k

theorem lastSet_append {sets : List (Text × Value)} {p : Text × Value} {k : Text} {v : Value} :
    LastSet (sets ++ [p]) k v ↔ p = (k, v) ∨ p.1 ≠ k ∧ LastSet sets k v := by
  constructor
  · rintro ⟨before, after, heq, hafter⟩
    rcases List.eq_nil_or_concat after with rfl | ⟨after, q, rfl⟩
    · exact .inl (List.cons.inj (List.append_inj' heq rfl).2).1
    · rw [List.concat_eq_append, ← List.cons_append, ← List.append_assoc] at heq
      obtain ⟨hsets, hp⟩ := List.append_inj' heq rfl
      cases hp
      rw [List.concat_eq_append, List.forall_mem_append] at hafter
      exact .inr ⟨hafter.2 p (by simp), before, after, hsets, hafter.1⟩
  · rintro (rfl | ⟨hp, before, after, rfl, hafter⟩)
    · exact ⟨sets, [], rfl, by simp⟩
    · refine ⟨before, after ++ [p], by simp, ?_⟩
      rw [List.forall_mem_append]
      exact ⟨hafter, by simpa using hp⟩

theorem get?_ofList_eq_some {sets : List (Text × Value)} {k : Text} {v : Value} :
    get? k (ofList sets) = some v ↔ LastSet sets k v := by
  induction sets using List.reverseRecOn with
  | nil => simp [ofList, get?, LastSet]
  | append_singleton sets p ih =>
    obtain ⟨l, w⟩ := p
    rw [ofList_append, get?_set, lastSet_append, ← ih, Prod.mk.injEq]
    by_cases hk : k = l
    · simp [hk]
    · simp [hk, Ne.symm hk]

theorem get?_ofList_eq_none {sets : List (Text × Value)} {k : Text} :
    get? k (ofList sets) = none ↔ ∀ p ∈ sets, p.1 ≠ k := by
  rw [get?_eq_none, keys_ofList, List.mem_eraseDups, List.mem_map, not_exists]
  simp only [not_and, ne_eq]

theorem pair?_eq_some {p q : Plain} {k : Text} {v : Value} :
    pair? p q = some (k, v) ↔ p = .string k ∧ q = .value v := by
  constructor
  · intro h
    unfold pair? at h
    split at h
    next =>
      cases h
      exact ⟨rfl, rfl⟩
    next => cases h
  · rintro ⟨rfl, rfl⟩
    rfl

/-- A pair is a string at an even place and a value right behind it. -/
theorem mem_pairsOf {items : List Plain} {k : Text} {v : Value} : (k, v) ∈ pairsOf items ↔
    ∃ i, items[2 * i]? = some (.string k) ∧ items[2 * i + 1]? = some (.value v) := by
  induction items using pairsOf.induct with
  | case1 p q rest ih =>
    have first : (k, v) ∈ (pair? p q).toList ↔ p = .string k ∧ q = .value v := by
      rw [Option.mem_toList, pair?_eq_some]
    rw [pairsOf, List.mem_append, first, ih]
    constructor
    · rintro (⟨rfl, rfl⟩ | ⟨i, hkey, hvalue⟩)
      · exact ⟨0, rfl, rfl⟩
      · exact ⟨i + 1, hkey, hvalue⟩
    · rintro ⟨_ | i, hkey, hvalue⟩
      · exact .inl ⟨Option.some.inj hkey, Option.some.inj hvalue⟩
      · exact .inr ⟨i, hkey, hvalue⟩
  | case2 items short =>
    match items with
    | [] => simp [pairsOf]
    | [_] => simp [pairsOf]
    | p :: q :: rest => exact (short p q rest rfl).elim

/-- The keys of the map are the strings that have a value behind them. -/
theorem mem_keys_ofPairs {items : List Plain} {k : Text} : k ∈ keys (ofPairs items) ↔
    ∃ i v, items[2 * i]? = some (.string k) ∧ items[2 * i + 1]? = some (.value v) := by
  rw [ofPairs, keys_ofList, List.mem_eraseDups, List.mem_map]
  constructor
  · rintro ⟨⟨k, v⟩, hmem, rfl⟩
    obtain ⟨i, hi⟩ := mem_pairsOf.mp hmem
    exact ⟨i, v, hi⟩
  · rintro ⟨i, v, hi⟩
    exact ⟨(k, v), mem_pairsOf.mpr ⟨i, hi⟩, rfl⟩

end Entries

namespace Table

/-- The position of each key is noted, and no other position. -/
def Notes (index : Table Nat) (keys : List Text) : Prop :=
  ∀ k i, index.get? k = some i ↔ keys[i]? = some k

variable {index : Table Nat} {keys : List Text} {key : Text}

theorem notes_nil : Notes [] [] := by
  intro k i
  simp [Table.get?]

theorem Notes.get?_eq_none (h : index.Notes keys) : index.get? key = none ↔ key ∉ keys := by
  rw [Option.eq_none_iff_forall_ne_some, List.mem_iff_getElem?, not_exists]
  exact forall_congr' fun i => not_congr (h key i)

theorem Notes.nodup (h : index.Notes keys) : keys.Nodup := by
  rw [List.Nodup, List.pairwise_iff_getElem]
  intro i j hi hj hij heq
  have hfirst : index.get? keys[i] = some i := (h _ i).mpr (List.getElem?_eq_getElem hi)
  have hsecond : index.get? keys[i] = some j := (h _ j).mpr (heq ▸ List.getElem?_eq_getElem hj)
  rw [hfirst, Option.some.injEq] at hsecond
  omega

theorem Notes.append (h : index.Notes keys) (hkey : index.get? key = none) :
    (index.insert key keys.length).Notes (keys ++ [key]) := by
  intro k j
  rw [get?_insert]
  rcases Nat.lt_trichotomy j keys.length with hj | hj | hj
  · rw [List.getElem?_append_left hj]
    by_cases hk : k = key
    · subst hk
      have hnone : ¬ keys[j]? = some k := fun hmem =>
        h.get?_eq_none.mp hkey (List.mem_of_getElem? hmem)
      simp [hnone, Nat.ne_of_gt hj]
    · rw [if_neg hk, h k j]
  · subst hj
    have hnone : ¬ index.get? k = some keys.length := by
      rw [h k]
      simp
    by_cases hk : k = key
    · simp [hk]
    · simp [hk, Ne.symm hk, hnone]
  · have hnone : keys[j]? = none := List.getElem?_eq_none (Nat.le_of_lt hj)
    have hend : (keys ++ [key])[j]? = none := by
      apply List.getElem?_eq_none
      rw [List.length_append, List.length_singleton]
      omega
    rw [hend]
    by_cases hk : k = key
    · simp [hk, Nat.ne_of_lt hj]
    · rw [if_neg hk, h k j, hnone]

end Table

/-- An access at a position that the entries do not have. -/
structure OutOfRange where
  position : Nat
  size : Nat
deriving DecidableEq, Repr

/-- Entries in order, and the position that is noted for each key. -/
structure IndexedEntries where
  entries : List (Text × Value)
  index : Table Nat

namespace IndexedEntries

def empty : IndexedEntries := ⟨[], []⟩

def entryAt (m : IndexedEntries) (i : Nat) : Except OutOfRange (Text × Value) :=
  match m.entries[i]? with
  | some q => .ok q
  | none => .error ⟨i, m.entries.length⟩

/-- A key that has a position noted is replaced there; another one is noted and goes behind all
entries. -/
def set (key : Text) (v : Value) (m : IndexedEntries) : Except OutOfRange IndexedEntries :=
  match m.index.get? key with
  | some i => (m.entryAt i).map fun q => { m with entries := m.entries.set i (q.1, v) }
  | none => .ok ⟨m.entries ++ [(key, v)], m.index.insert key m.entries.length⟩

/-- The value at the position noted for the key. -/
def get (key : Text) (m : IndexedEntries) : Except OutOfRange (Option Value) :=
  match m.index.get? key with
  | some i => (m.entryAt i).map fun q => some q.2
  | none => .ok none

def keys (m : IndexedEntries) : List Text := m.entries.map (·.1)

def size (m : IndexedEntries) : Nat := m.entries.length

/-- Sets all pairs one after another, beginning without entries. -/
def setAll (sets : List (Text × Value)) : Except OutOfRange IndexedEntries :=
  sets.foldlM (fun m p => m.set p.1 p.2) empty

/-- The position of each key is noted, and no other position. -/
def Aligned (m : IndexedEntries) : Prop :=
  ∀ k i, m.index.get? k = some i ↔ ∃ v, m.entries[i]? = some (k, v)

variable {m : IndexedEntries}

theorem entryAt_of_getElem? {i : Nat} {q : Text × Value} (h : m.entries[i]? = some q) :
    m.entryAt i = .ok q := by
  rw [entryAt, h]

theorem Aligned.unique (h : m.Aligned) {k : Text} {i j : Nat} {v w : Value}
    (hi : m.entries[i]? = some (k, v)) (hj : m.entries[j]? = some (k, w)) : j = i := by
  have hnoted := (h k i).mpr ⟨v, hi⟩
  rw [(h k j).mpr ⟨w, hj⟩] at hnoted
  exact Option.some.inj hnoted

/-- A key without a position stands nowhere. -/
theorem Aligned.fresh (h : m.Aligned) {key : Text} (hkey : m.index.get? key = none) (i : Nat)
    (w : Value) : m.entries[i]? ≠ some (key, w) := by
  intro hi
  have hnoted := (h key i).mpr ⟨w, hi⟩
  rw [hkey] at hnoted
  cases hnoted

theorem aligned_empty : empty.Aligned := by
  intro k i
  simp [empty, Table.get?]

/-- Another value at the position of a key changes no position. -/
theorem Aligned.replace (h : m.Aligned) {key : Text} {i : Nat} {w : Value}
    (hi : m.entries[i]? = some (key, w)) (v : Value) :
    Aligned { m with entries := m.entries.set i (key, v) } := by
  intro k j
  have hlength : i < m.entries.length := (List.getElem?_eq_some_iff.mp hi).1
  simp only [List.getElem?_set]
  rw [h k j]
  by_cases hij : i = j
  · subst hij
    simp only [if_true, hlength, hi, Option.some.injEq, Prod.mk.injEq, exists_and_left, exists_eq',
      and_true]
  · simp only [hij, if_false]

theorem aligned_iff_notes : m.Aligned ↔ m.index.Notes m.keys := by
  refine forall₂_congr fun k i => ?_
  rw [keys, List.getElem?_map, Option.map_eq_some_iff]
  refine iff_congr Iff.rfl ⟨fun ⟨v, hi⟩ => ⟨(k, v), hi, rfl⟩, ?_⟩
  rintro ⟨⟨l, v⟩, hi, rfl⟩
  exact ⟨v, hi⟩

/-- A key that stood nowhere is noted at the end. -/
theorem Aligned.append (h : m.Aligned) {key : Text} (hkey : m.index.get? key = none) (v : Value) :
    Aligned ⟨m.entries ++ [(key, v)], m.index.insert key m.entries.length⟩ := by
  have hlength : m.keys.length = m.entries.length := by rw [keys, List.length_map]
  have hnotes := (aligned_iff_notes.mp h).append hkey
  rw [aligned_iff_notes, keys, List.map_append, List.map_singleton, ← hlength]
  exact hnotes

/-- Setting a key accesses no position out of range and keeps the index aligned. -/
theorem Aligned.set (h : m.Aligned) (key : Text) (v : Value) :
    ∃ m', m.set key v = .ok m' ∧ m'.Aligned ∧ m'.entries = Entries.set key v m.entries := by
  cases hkey : m.index.get? key with
  | none =>
    refine ⟨_, by rw [IndexedEntries.set, hkey], h.append hkey v, ?_⟩
    rw [Entries.set_of_fresh (h.fresh hkey)]
  | some i =>
    obtain ⟨w, hi⟩ := (h key i).mp hkey
    refine ⟨{ m with entries := m.entries.set i (key, v) }, ?_, h.replace hi v, ?_⟩
    · rw [IndexedEntries.set, hkey]
      simp only [entryAt_of_getElem? hi]
      rfl
    · rw [Entries.set_of_getElem? hi fun j u hj => h.unique hi hj]

theorem aligned_setAll (sets : List (Text × Value)) :
    ∃ m, setAll sets = .ok m ∧ m.Aligned ∧ m.entries = Entries.ofList sets := by
  induction sets using List.reverseRecOn with
  | nil => exact ⟨empty, rfl, aligned_empty, rfl⟩
  | append_singleton sets p ih =>
    obtain ⟨m, hm, haligned, hentries⟩ := ih
    obtain ⟨m', hm', haligned', hentries'⟩ := haligned.set p.1 p.2
    refine ⟨m', ?_, haligned', ?_⟩
    · rw [setAll, List.foldlM_append, bind_eq_ok]
      refine ⟨m, hm, ?_⟩
      rw [List.foldlM_cons, hm']
      rfl
    · rw [hentries', hentries, Entries.ofList_append]

/-- The position noted for a key leads to the value that a search for the key finds. -/
theorem Aligned.get (h : m.Aligned) (key : Text) :
    m.get key = .ok (Entries.get? key m.entries) := by
  cases hfound : Entries.get? key m.entries with
  | none =>
    have hnone : m.index.get? key = none := by
      rw [Option.eq_none_iff_forall_ne_some]
      intro i hkey
      obtain ⟨v, hi⟩ := (h key i).mp hkey
      have hmem : key ∈ Entries.keys m.entries := List.mem_map_of_mem (List.mem_of_getElem? hi)
      exact Entries.get?_eq_none.mp hfound hmem
    rw [IndexedEntries.get, hnone]
  | some v =>
    obtain ⟨i, hi⟩ := List.mem_iff_getElem?.mp (Entries.mem_of_get? hfound)
    rw [IndexedEntries.get, (h key i).mpr ⟨v, hi⟩]
    simp only [entryAt_of_getElem? hi]
    rfl

theorem Aligned.nodup_keys (h : m.Aligned) : m.keys.Nodup :=
  (aligned_iff_notes.mp h).nodup

/-- However keys are set, none is accessed out of range. They stand in the order in which they were
first set, each at the one position that the index notes for it, with the value that it was set to
last, which a search finds as well; and in this order the document of the entries is written. -/
theorem setAll_first_positions (sets : List (Text × Value)) :
    ∃ m, setAll sets = .ok m ∧ m.entries = Entries.ofList sets ∧
      m.keys = (sets.map (·.1)).eraseDups ∧ m.size = (sets.map (·.1)).eraseDups.length ∧
      (∀ k, m.get k = .ok (Entries.get? k m.entries)) ∧
      (∀ k v, m.get k = .ok (some v) ↔ Entries.LastSet sets k v) ∧
      (∀ k, m.get k = .ok none ↔ ∀ p ∈ sets, p.1 ≠ k) ∧
      (∀ k i, m.index.get? k = some i ↔ ∃ v, m.entries[i]? = some (k, v)) ∧ m.keys.Nodup ∧
      ∀ written, (Value.document m.entries).encode = .ok written ↔
        ∃ members, List.Forall₂ Value.IsMember m.entries members ∧
          Json.enclosed Ascii.openBrace Ascii.closeBrace members = written := by
  obtain ⟨m, hm, haligned, hentries⟩ := aligned_setAll sets
  have hkeys : m.keys = (sets.map (·.1)).eraseDups := by
    rw [← Entries.keys_ofList, ← hentries]
    rfl
  refine ⟨m, hm, hentries, hkeys, ?_, haligned.get, fun k v => ?_, fun k => ?_, haligned,
    haligned.nodup_keys, fun written => Value.encode_document_eq_member⟩
  · rw [← hkeys, keys, List.length_map]
    rfl
  · rw [haligned.get, Except.ok.injEq, hentries, Entries.get?_ofList_eq_some]
  · rw [haligned.get, Except.ok.injEq, hentries, Entries.get?_ofList_eq_none]

end IndexedEntries

end ScopedAggregation
