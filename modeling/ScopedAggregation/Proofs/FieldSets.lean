import Mathlib.Data.List.Infix
import ScopedAggregation.Proofs.NameResolution
import ScopedAggregation.Proofs.SharedRows

namespace ScopedAggregation

namespace Fields

theorem distinct_concat (fs : List Field) (f : Field) :
    distinct (fs ++ [f]) =
      if f.name ∈ fs.map (·.name) then distinct fs else distinct fs ++ [f] := by
  induction fs with
  | nil => rfl
  | cons g fs ih =>
    rw [List.cons_append, distinct, ih, List.map_cons, distinct]
    by_cases hmem : f.name ∈ fs.map (·.name)
    · rw [if_pos hmem, if_pos (List.mem_cons_of_mem g.name hmem)]
    · rw [if_neg hmem, List.filter_append]
      by_cases hg : f.name = g.name
      · rw [if_pos (hg ▸ List.mem_cons_self)]
        simp [hg]
      · rw [if_neg (List.not_mem_cons_of_ne_of_not_mem hg hmem)]
        simp [hg]

theorem names_ofList (fs : List Field) : (ofList fs).names = (fs.map (·.name)).eraseDups := by
  induction fs using List.reverseRecOn with
  | nil => rfl
  | append_singleton fs f ih =>
    rw [List.map_append, List.map_singleton, eraseDups_concat, ← ih, names, names, ofList, ofList,
      distinct_concat]
    split
    next => rfl
    next => rw [List.map_append, List.map_singleton]

/-- Names that were dropped from a set are dropped again if they come later. -/
theorem append_ofList (fs gs : List Field) : (ofList fs).append gs = ofList (fs ++ gs) := by
  show ofList (distinct fs ++ gs) = ofList (fs ++ gs)
  induction gs using List.reverseRecOn with
  | nil =>
    rw [List.append_nil, List.append_nil, ofList, distinct_eq_self (nodup_distinct fs), ofList]
  | append_singleton gs g ih =>
    have hkept : distinct (distinct fs ++ gs) = distinct (fs ++ gs) := congrArg toList ih
    have hmem : g.name ∈ (distinct fs ++ gs).map (·.name) ↔ g.name ∈ (fs ++ gs).map (·.name) := by
      rw [← mem_names_ofList, ih, mem_names_ofList]
    rw [ofList, ofList, ← List.append_assoc, ← List.append_assoc, distinct_concat, distinct_concat,
      hkept]
    simp only [hmem]

theorem foldl_append (first : List Field) (more : List (List Field)) :
    more.foldl append (ofList first) = ofList (first ++ more.flatten) := by
  induction more generalizing first with
  | nil => rw [List.foldl_nil, List.flatten_nil, List.append_nil]
  | cons fs more ih =>
    rw [List.foldl_cons, append_ofList, ih, List.flatten_cons, List.append_assoc]

/-- The set has the first field of each name of a list, in order. -/
structure HasFirst (set : Fields) (fs : List Field) : Prop where
  names : set.names = (fs.map (·.name)).eraseDups
  size : set.size = (fs.map (·.name)).eraseDups.length
  lookup : ∀ name, set.lookup? name = fs.find? (·.name = name)
  contains : ∀ name, set.contains name = true ↔ ∃ f ∈ fs, f.name = name

theorem hasFirst_ofList (fs : List Field) : (ofList fs).HasFirst fs := by
  have hnames := names_ofList fs
  refine ⟨hnames, ?_, fun name => lookup?_ofList name fs, fun name => ?_⟩
  · rw [← hnames, names, List.length_map, size]
  · rw [contains, lookup?_ofList, List.find?_isSome]
    simp

end Fields

/-- A set of fields in memory: the slice of its list and the number of its index. The empty set may do
without an index. -/
structure FieldSet where
  list : Slice := {}
  index : Option Nat := none
deriving DecidableEq, Repr

def FieldSet.size (s : FieldSet) : Nat := s.list.length

/-- Rows of fields, and indexes from names to positions. -/
structure FieldMemory where
  rows : Rows Field
  indexes : List (Table Nat)
deriving DecidableEq, Repr

namespace FieldMemory

def list (m : FieldMemory) (s : FieldSet) : List Field := m.rows.read s.list

def names (m : FieldMemory) (s : FieldSet) : List Text := (m.list s).map (·.name)

def indexOf (m : FieldMemory) (s : FieldSet) : Table Nat :=
  (s.index.bind fun t => m.indexes[t]?).getD []

def contains (m : FieldMemory) (s : FieldSet) (name : Text) : Bool := (m.indexOf s).contains name

/-- The field at the position that the index notes. -/
def lookup (m : FieldMemory) (s : FieldSet) (name : Text) : Except OutOfRange (Option Field) :=
  match (m.indexOf s).get? name with
  | some i => (m.rows.entryAt s.list i).map some
  | none => .ok none

/-- Puts a field behind a list and notes its position, unless its name is noted already. -/
def add (spare : Slice → Nat → Nat) (t : Nat) (m : FieldMemory) (list : Slice) (f : Field) :
    FieldMemory × Slice :=
  if m.contains ⟨list, some t⟩ f.name then (m, list)
  else
    let (rows, longer) := m.rows.append spare list [f]
    (⟨rows, m.indexes.modify t (Table.insert f.name list.length)⟩, longer)

/-- Adds the field at a position of a slice, which is read when its turn comes. -/
def addAt (spare : Slice → Nat → Nat) (t : Nat) (given : Slice) (p : FieldMemory × Slice) (i : Nat) :
    Except OutOfRange (FieldMemory × Slice) :=
  (p.1.rows.entryAt given i).map (p.1.add spare t p.2)

/-- The set of the fields of a slice, with a list and an index of its own. -/
def ofSlice (spare : Slice → Nat → Nat) (m : FieldMemory) (given : Slice) :
    Except OutOfRange (FieldMemory × FieldSet) := do
  let t := m.indexes.length
  let (m, list) ← (List.range given.length).foldlM (addAt spare t given)
    (⟨m.rows, m.indexes ++ [[]]⟩, {})
  pure (m, ⟨list, some t⟩)

/-- The set with the fields of a slice after its own, which are copied to a new row before. -/
def extend (spare : Slice → Nat → Nat) (m : FieldMemory) (s : FieldSet) (given : Slice) :
    Except OutOfRange (FieldMemory × FieldSet) :=
  let (rows, all) := m.rows.join spare s.list given
  ofSlice spare ⟨rows, m.indexes⟩ all

def ofList (spare : Slice → Nat → Nat) (m : FieldMemory) (fs : List Field) :
    Except OutOfRange (FieldMemory × FieldSet) :=
  let (rows, given) := m.rows.write fs
  ofSlice spare ⟨rows, m.indexes⟩ given

def extendBy (spare : Slice → Nat → Nat) (m : FieldMemory) (s : FieldSet) (fs : List Field) :
    Except OutOfRange (FieldMemory × FieldSet) :=
  let (rows, given) := m.rows.write fs
  extend spare ⟨rows, m.indexes⟩ s given

/-- Extends a set by one list after another; all sets on the way stay in use. -/
def extendAll (spare : Slice → Nat → Nat) : FieldMemory → FieldSet → List (List Field) →
    Except OutOfRange (FieldMemory × List FieldSet)
  | m, s, [] => .ok (m, [s])
  | m, s, fs :: more => do
    let (m, t) ← m.extendBy spare s fs
    let (m, sets) ← extendAll spare m t more
    pure (m, s :: sets)

def buildAll (spare : Slice → Nat → Nat) (m : FieldMemory) (first : List Field)
    (more : List (List Field)) : Except OutOfRange (FieldMemory × List FieldSet) := do
  let (m, s) ← m.ofList spare first
  m.extendAll spare s more

structure Holds (m : FieldMemory) (s : FieldSet) : Prop where
  list : m.rows.Holds s.list
  index : ∀ t, s.index = some t → t < m.indexes.length

/-- The rows and the indexes of a memory are the first of another one. -/
structure Kept (base m : FieldMemory) : Prop where
  rows : base.rows <+: m.rows
  indexes : base.indexes <+: m.indexes

variable {base m : FieldMemory} {s : FieldSet} {fs : List Field}

theorem Kept.trans {m' : FieldMemory} (h : base.Kept m) (h' : m.Kept m') : base.Kept m' :=
  ⟨h.rows.trans h'.rows, h.indexes.trans h'.indexes⟩

theorem Kept.holds (h : base.Kept m) (held : base.Holds s) : m.Holds s :=
  ⟨held.list.of_kept h.rows, fun t ht => (held.index t ht).trans_le h.indexes.length_le⟩

theorem Kept.list_eq (h : base.Kept m) (held : base.Holds s) : m.list s = base.list s :=
  held.list.read_of_kept h.rows

theorem Kept.indexOf_eq (h : base.Kept m) (held : base.Holds s) : m.indexOf s = base.indexOf s := by
  cases hs : s.index with
  | none => simp only [indexOf, hs, Option.bind_none]
  | some t =>
    obtain ⟨later, heq⟩ := h.indexes
    simp only [indexOf, hs, Option.bind_some]
    rw [← heq, List.getElem?_append_left (held.index t hs)]

theorem Kept.contains_eq (h : base.Kept m) (held : base.Holds s) (name : Text) :
    m.contains s name = base.contains s name := by
  rw [contains, contains, h.indexOf_eq held]

theorem Kept.lookup_eq (h : base.Kept m) (held : base.Holds s) (name : Text) :
    m.lookup s name = base.lookup s name := by
  unfold lookup Rows.entryAt
  rw [h.indexOf_eq held, held.list.read_of_kept h.rows]

/-- The set answers as the first field of each name of a list, and the index notes where these stand. -/
structure ShowsFirst (m : FieldMemory) (s : FieldSet) (fs : List Field) : Prop where
  held : m.Holds s
  list : m.list s = (Fields.ofList fs).toList
  noted : (m.indexOf s).Notes (m.names s)
  names : m.names s = (fs.map (·.name)).eraseDups
  size : s.size = (fs.map (·.name)).eraseDups.length
  contains : ∀ name, m.contains s name = true ↔ ∃ f ∈ fs, f.name = name
  lookup : ∀ name, m.lookup s name = .ok (fs.find? (·.name = name))

theorem contains_iff (noted : (m.indexOf s).Notes (m.names s)) {name : Text} :
    m.contains s name = true ↔ name ∈ m.names s := by
  rw [contains, Table.contains, ← not_iff_not, Bool.not_eq_true, Option.isSome_eq_false_iff,
    Option.isNone_iff_eq_none, noted.get?_eq_none]

/-- The position noted for a name leads to the field that a search for the name finds. -/
theorem lookup_of_noted (noted : (m.indexOf s).Notes (m.names s)) (name : Text) :
    m.lookup s name = .ok ((m.list s).find? (·.name = name)) := by
  cases hfound : (m.list s).find? (·.name = name) with
  | none =>
    have hnone : (m.indexOf s).get? name = none := by
      rw [noted.get?_eq_none, names, List.mem_map]
      rintro ⟨f, hf, rfl⟩
      simpa using List.find?_eq_none.mp hfound f hf
    rw [lookup, hnone]
  | some f =>
    have hname : f.name = name := by simpa using List.find?_some hfound
    obtain ⟨i, hi⟩ := List.mem_iff_getElem?.mp (List.mem_of_find?_eq_some hfound)
    have hnoted : (m.indexOf s).get? name = some i := by
      rw [noted name i, names, List.getElem?_map, hi, Option.map_some, hname]
    have hentry : m.rows.entryAt s.list i = .ok f := Rows.entryAt_of_getElem? hi
    rw [lookup, hnoted]
    simp only [hentry]
    rfl

/-- All answers follow from the list, when the index notes its positions. -/
theorem showsFirst_of_noted (held : m.Holds s) (list : m.list s = (Fields.ofList fs).toList)
    (noted : (m.indexOf s).Notes (m.names s)) : m.ShowsFirst s fs := by
  have hfirst := Fields.hasFirst_ofList fs
  have hnames : m.names s = (Fields.ofList fs).names := by rw [names, list, Fields.names]
  refine ⟨held, list, noted, hnames.trans hfirst.names, ?_, fun name => ?_, fun name => ?_⟩
  · rw [FieldSet.size, ← held.list.length_read, ← hfirst.size]
    exact congrArg List.length list
  · rw [contains_iff noted, hnames, Fields.mem_names_ofList, List.mem_map]
  · rw [lookup_of_noted noted, list]
    exact congrArg Except.ok (hfirst.lookup name)

theorem Kept.showsFirst (h : base.Kept m) (shows : base.ShowsFirst s fs) : m.ShowsFirst s fs := by
  have hlist := h.list_eq shows.held
  refine showsFirst_of_noted (h.holds shows.held) (hlist.trans shows.list) ?_
  rw [h.indexOf_eq shows.held, names, hlist]
  exact shows.noted

theorem showsFirst_empty : m.ShowsFirst {} [] := by
  have held : m.Holds {} := ⟨Rows.owns_empty.holds, fun t ht => by cases ht⟩
  exact showsFirst_of_noted held Rows.owns_empty.read Table.notes_nil

/-- A list that is being built has the first fields of those that are done. Beside it there is an index
that the memory did not have before, and nothing of what it had is changed. -/
structure Building (base m : FieldMemory) (list : Slice) (index : Table Nat) (done : List Field) :
    Prop where
  rows : base.rows.Owns m.rows list (Fields.distinct done)
  indexes : m.indexes = base.indexes ++ [index]
  noted : index.Notes (Fields.ofList done).names

variable {list : Slice} {index : Table Nat} {done : List Field}

theorem building_nil : Building base ⟨base.rows, base.indexes ++ [[]]⟩ {} [] [] :=
  ⟨Rows.owns_empty, rfl, Table.notes_nil⟩

theorem Building.indexOf_eq (h : Building base m list index done) :
    m.indexOf ⟨list, some base.indexes.length⟩ = index := by
  simp only [indexOf, Option.bind_some, h.indexes, List.getElem?_concat_length, Option.getD_some]

theorem Building.list_eq (h : Building base m list index done) (t : Option Nat) :
    m.list ⟨list, t⟩ = (Fields.ofList done).toList :=
  h.rows.read

theorem Building.contains_iff (h : Building base m list index done) {name : Text} :
    m.contains ⟨list, some base.indexes.length⟩ name = true ↔ name ∈ done.map (·.name) := by
  have hnames : m.names ⟨list, some base.indexes.length⟩ = (Fields.ofList done).names := by
    rw [names, h.list_eq, Fields.names]
  rw [FieldMemory.contains_iff, hnames, Fields.mem_names_ofList]
  rw [h.indexOf_eq, hnames]
  exact h.noted

theorem modify_concat {α : Type} (xs : List α) (x : α) (change : α → α) :
    (xs ++ [x]).modify xs.length change = xs ++ [change x] := by
  induction xs with
  | nil => rfl
  | cons y xs ih =>
    rw [List.cons_append, List.length_cons, List.modify_succ_cons, ih, List.cons_append]

/-- One more field: a name that is noted changes nothing, another one is noted at the end of the list. -/
theorem Building.add (h : Building base m list index done) (spare : Slice → Nat → Nat) (f : Field) :
    ∃ index', Building base (m.add spare base.indexes.length list f).1
      (m.add spare base.indexes.length list f).2 index' (done ++ [f]) := by
  by_cases hmem : f.name ∈ done.map (·.name)
  · have hsame : Fields.distinct (done ++ [f]) = Fields.distinct done := by
      rw [Fields.distinct_concat, if_pos hmem]
    refine ⟨index, ?_⟩
    simp only [FieldMemory.add, if_pos (h.contains_iff.mpr hmem)]
    refine ⟨hsame ▸ h.rows, h.indexes, ?_⟩
    rw [Fields.ofList, hsame]
    exact h.noted
  · have hlonger : Fields.distinct (done ++ [f]) = Fields.distinct done ++ [f] := by
      rw [Fields.distinct_concat, if_neg hmem]
    have hlength : list.length = (Fields.ofList done).names.length := by
      rw [← h.rows.holds.length_read, h.rows.read, Fields.names, List.length_map, Fields.ofList]
    have hnew : index.get? f.name = none := by
      rw [h.noted.get?_eq_none, Fields.mem_names_ofList]
      exact hmem
    have hnames : (Fields.ofList (done ++ [f])).names = (Fields.ofList done).names ++ [f.name] := by
      rw [Fields.ofList, Fields.names, hlonger, List.map_append, List.map_singleton]
      rfl
    refine ⟨index.insert f.name list.length, ?_⟩
    simp only [FieldMemory.add, if_neg (mt h.contains_iff.mp hmem)]
    refine ⟨hlonger ▸ h.rows.append spare [f], ?_, ?_⟩
    · rw [h.indexes, modify_concat]
    · rw [hnames, hlength]
      exact h.noted.append hnew

/-- The fields of a slice are taken over one by one; the slice itself is among what is not changed. -/
theorem building_addAll (spare : Slice → Nat → Nat) {given : Slice} (held : base.rows.Holds given)
    {k : Nat} (hk : k ≤ given.length) :
    ∃ m list index, (List.range k).foldlM (addAt spare base.indexes.length given)
        (⟨base.rows, base.indexes ++ [[]]⟩, {}) = .ok (m, list) ∧
      Building base m list index ((base.rows.read given).take k) := by
  induction k with
  | zero => exact ⟨_, _, [], rfl, building_nil⟩
  | succ k ih =>
    obtain ⟨m, list, index, hrun, h⟩ := ih (by omega)
    -- the fields so far went to rows that are none of the slice's, so it still reads as at the start
    have hread : (m.rows.read given)[k]? = (base.rows.read given)[k]? := by
      rw [held.read_of_kept h.rows.kept]
    have hlength : k < (base.rows.read given).length := by
      rw [held.length_read]
      omega
    have hfield : (base.rows.read given)[k]? = some (base.rows.read given)[k] :=
      List.getElem?_eq_getElem hlength
    obtain ⟨index', hadd⟩ := h.add spare (base.rows.read given)[k]
    refine ⟨_, _, index', ?_, by rw [List.take_add_one, hfield]; exact hadd⟩
    rw [List.range_succ, List.foldlM_append, bind_eq_ok]
    refine ⟨(m, list), hrun, ?_⟩
    rw [List.foldlM_cons, addAt, Rows.entryAt_of_getElem? (hread.trans hfield)]
    rfl

theorem ofSlice_showsFirst (spare : Slice → Nat → Nat) (base : FieldMemory) {given : Slice}
    (held : base.rows.Holds given) :
    ∃ m s, base.ofSlice spare given = .ok (m, s) ∧ base.Kept m ∧
      m.ShowsFirst s (base.rows.read given) := by
  obtain ⟨m, list, index, hrun, h⟩ := building_addAll spare held le_rfl
  have hall : (base.rows.read given).take given.length = base.rows.read given := by
    rw [← held.length_read, List.take_length]
  rw [hall] at h
  have hlength : base.indexes.length < m.indexes.length := by
    rw [h.indexes, List.length_append, List.length_singleton]
    omega
  refine ⟨m, ⟨list, some base.indexes.length⟩, ?_, ⟨h.rows.kept, ?_⟩, ?_⟩
  · rw [ofSlice, hrun]
    rfl
  · rw [h.indexes]
    exact List.prefix_append _ _
  · refine showsFirst_of_noted ⟨h.rows.holds, ?_⟩ (h.list_eq _) ?_
    · rintro t ht
      cases ht
      exact hlength
    · rw [h.indexOf_eq, names, h.list_eq]
      exact h.noted

theorem ofList_showsFirst (spare : Slice → Nat → Nat) (base : FieldMemory) (fs : List Field) :
    ∃ m s, base.ofList spare fs = .ok (m, s) ∧ base.Kept m ∧ m.ShowsFirst s fs := by
  have hgiven := Rows.owns_write (m := base.rows) fs
  obtain ⟨m, s, hrun, hkept, hshows⟩ :=
    ofSlice_showsFirst spare ⟨(base.rows.write fs).1, base.indexes⟩ hgiven.holds
  rw [hgiven.read] at hshows
  exact ⟨m, s, hrun, ⟨hgiven.kept.trans hkept.rows, hkept.indexes⟩, hshows⟩

theorem ShowsFirst.extend (h : base.ShowsFirst s fs) (spare : Slice → Nat → Nat) {given : Slice}
    (held : base.rows.Holds given) :
    ∃ m t, base.extend spare s given = .ok (m, t) ∧ base.Kept m ∧
      m.ShowsFirst t (fs ++ base.rows.read given) := by
  have hall := Rows.owns_join spare h.held.list held
  obtain ⟨m, t, hrun, hkept, hshows⟩ :=
    ofSlice_showsFirst spare ⟨(base.rows.join spare s.list given).1, base.indexes⟩ hall.holds
  have hread : base.rows.read s.list = (Fields.ofList fs).toList := h.list
  rw [hall.read, hread] at hshows
  -- what the set had dropped before is not among the fields that were joined
  have hlist : m.list t = (Fields.ofList (fs ++ base.rows.read given)).toList :=
    hshows.list.trans (congrArg Fields.toList (Fields.append_ofList fs _))
  exact ⟨m, t, hrun, ⟨hall.kept.trans hkept.rows, hkept.indexes⟩,
    showsFirst_of_noted hshows.held hlist hshows.noted⟩

theorem ShowsFirst.extendBy (h : base.ShowsFirst s fs) (spare : Slice → Nat → Nat)
    (gs : List Field) :
    ∃ m t, base.extendBy spare s gs = .ok (m, t) ∧ base.Kept m ∧ m.ShowsFirst t (fs ++ gs) := by
  have hgiven := Rows.owns_write (m := base.rows) gs
  have hwritten : base.Kept ⟨(base.rows.write gs).1, base.indexes⟩ :=
    ⟨hgiven.kept, List.prefix_rfl⟩
  obtain ⟨m, t, hrun, hkept, hshows⟩ := (hwritten.showsFirst h).extend spare hgiven.holds
  rw [hgiven.read] at hshows
  exact ⟨m, t, hrun, hwritten.trans hkept, hshows⟩

/-- All sets on the way answer by the lists that they were extended by, also after the later ones have
been made. -/
theorem ShowsFirst.extendAll (h : base.ShowsFirst s fs) (spare : Slice → Nat → Nat)
    (more : List (List Field)) :
    ∃ m sets, base.extendAll spare s more = .ok (m, sets) ∧ base.Kept m ∧
      List.Forall₂ m.ShowsFirst sets (more.inits.map fun earlier => fs ++ earlier.flatten) := by
  induction more generalizing base s fs with
  | nil =>
    refine ⟨base, [s], rfl, ⟨List.prefix_rfl, List.prefix_rfl⟩, ?_⟩
    rw [List.inits, List.map_singleton, List.flatten_nil, List.append_nil]
    exact .cons h .nil
  | cons gs more ih =>
    obtain ⟨next, t, hrun, hkept, hshows⟩ := h.extendBy spare gs
    obtain ⟨m, sets, hruns, hkepts, hall⟩ := ih hshows
    refine ⟨m, s :: sets, ?_, hkept.trans hkepts, ?_⟩
    · rw [FieldMemory.extendAll, bind_eq_ok]
      exact ⟨(next, t), hrun, bind_eq_ok.mpr ⟨(m, sets), hruns, rfl⟩⟩
    · rw [List.inits_cons, List.map_cons, List.map_map, List.flatten_nil, List.append_nil]
      refine .cons ((hkept.trans hkepts).showsFirst h) ?_
      convert hall using 2
      funext earlier
      rw [Function.comp_apply, List.flatten_cons, List.append_assoc]

/-- However often a set is extended, it has the first field of each name, as if all lists had been given
at once. In memory every set on the way has a list and an index that are aligned and agree with that,
from the first set to the last and still after the last one was made; no position is out of range, and
no set that was in memory before answers differently. The empty set has no name, and extending it gives
the set of the list. -/
theorem extended_sets_keep_first (spare : Slice → Nat → Nat) (base : FieldMemory)
    (first : List Field) (more : List (List Field)) :
    more.foldl Fields.append (.ofList first) = .ofList (first ++ more.flatten) ∧
    (Fields.ofList (first ++ more.flatten)).HasFirst (first ++ more.flatten) ∧
    (∃ m sets, base.buildAll spare first more = .ok (m, sets) ∧
      List.Forall₂ m.ShowsFirst sets (more.inits.map fun earlier => first ++ earlier.flatten) ∧
      ∀ s, base.Holds s → m.list s = base.list s ∧
        ∀ name, m.lookup s name = base.lookup s name ∧
          m.contains s name = base.contains s name) ∧
    ({} : Fields).HasFirst [] ∧ ({} : Fields).append first = .ofList first ∧
    base.ShowsFirst {} [] ∧
    ∃ m s, base.extendBy spare {} first = .ok (m, s) ∧ m.ShowsFirst s first := by
  refine ⟨Fields.foldl_append first more, Fields.hasFirst_ofList _, ?_, Fields.hasFirst_ofList [], rfl,
    showsFirst_empty, ?_⟩
  · obtain ⟨next, s, hrun, hkept, hshows⟩ := ofList_showsFirst spare base first
    obtain ⟨m, sets, hruns, hkepts, hall⟩ := hshows.extendAll spare more
    have hbefore := hkept.trans hkepts
    refine ⟨m, sets, bind_eq_ok.mpr ⟨(next, s), hrun, hruns⟩, hall, fun s held => ?_⟩
    exact ⟨hbefore.list_eq held, fun name =>
      ⟨hbefore.lookup_eq held name, hbefore.contains_eq held name⟩⟩
  · obtain ⟨m, s, hrun, -, hshows⟩ := (showsFirst_empty (m := base)).extendBy spare first
    exact ⟨m, s, hrun, hshows⟩

/-- Two fields in a row with a place to spare, and their index. -/
def twoFields : FieldMemory :=
  ⟨[[.ofName (text "region"), .ofName (text "total"), default]],
    [[(text "region", 0), (text "total", 1)]]⟩

def twoFieldsSet : FieldSet := ⟨⟨0, 2, 3⟩, some 0⟩

/-- A name that comes three times, and a set from before that goes on to answer. -/
theorem twoFieldsSet_kept :
    twoFields.Holds twoFieldsSet ∧
    ∃ m s t,
      twoFields.buildAll (fun _ _ => 1)
        [.ofName (text "city"), .renamed (text "city") (text "_id.city")]
        [[.renamed (text "total") (text "_id.total"), .renamed (text "city") (text "town")]] =
          .ok (m, [s, t]) ∧
      m.names t = [text "city", text "total"] ∧
      m.lookup t (text "city") = .ok (some (.ofName (text "city"))) ∧
      m.lookup s (text "total") = .ok none ∧
      m.lookup twoFieldsSet (text "total") = .ok (some (.ofName (text "total"))) := by
  have held : twoFields.Holds twoFieldsSet := ⟨⟨by decide, by decide⟩, by decide⟩
  obtain ⟨-, -, ⟨m, sets, hrun, hshows, hbefore⟩, -⟩ := extended_sets_keep_first (fun _ _ => 1)
    twoFields [.ofName (text "city"), .renamed (text "city") (text "_id.city")]
    [[.renamed (text "total") (text "_id.total"), .renamed (text "city") (text "town")]]
  cases hshows with
  | @cons s _ _ _ hs hshows =>
    cases hshows with
    | @cons t _ _ _ ht hshows =>
      cases hshows
      exact ⟨held, m, s, t, hrun, ht.names, ht.lookup _, hs.lookup _,
        ((hbefore twoFieldsSet held).2 _).1⟩

end FieldMemory

end ScopedAggregation
