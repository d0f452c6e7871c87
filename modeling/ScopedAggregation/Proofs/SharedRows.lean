import Mathlib.Data.List.GetD
import ScopedAggregation.Proofs.OrderedEntries

namespace ScopedAggregation

/-- A list in memory: the first places of a row. Up to the capacity, appending uses further places of
that row. -/
structure Slice where
  row : Nat := 0
  length : Nat := 0
  capacity : Nat := 0
deriving DecidableEq, Repr

/-- The rows of a memory, in the order in which they were made. -/
abbrev Rows (α : Type) := List (List α)

namespace Rows

variable {α : Type}

def read (m : Rows α) (s : Slice) : List α := (m.getD s.row []).take s.length

def entryAt (m : Rows α) (s : Slice) (i : Nat) : Except OutOfRange α :=
  match (m.read s)[i]? with
  | some x => .ok x
  | none => .error ⟨i, s.length⟩

def write (m : Rows α) (xs : List α) : Rows α × Slice :=
  (m ++ [xs], ⟨m.length, xs.length, xs.length⟩)

def make [Inhabited α] (m : Rows α) (capacity : Nat) : Rows α × Slice :=
  (m ++ [List.replicate capacity default], ⟨m.length, 0, capacity⟩)

/-- The slice with more items after its own. A new row has as many places to spare as `spare` says for
the slice and the number of items. -/
def append [Inhabited α] (spare : Slice → Nat → Nat) (m : Rows α) (s : Slice) (xs : List α) :
    Rows α × Slice :=
  let length := s.length + xs.length
  if length ≤ s.capacity then
    (m.modify s.row fun row => row.take s.length ++ xs ++ row.drop length, { s with length })
  else
    let free := spare s xs.length
    (m ++ [m.read s ++ xs ++ List.replicate free default], ⟨m.length, length, length + free⟩)

/-- The items of two slices on a new row that has places for all of them. -/
def join [Inhabited α] (spare : Slice → Nat → Nat) (m : Rows α) (s t : Slice) : Rows α × Slice :=
  let (m, all) := m.make (s.length + t.length)
  let (m, all) := append spare m all (m.read s)
  append spare m all (m.read t)

/-- The places of a slice and those that it may use further exist. -/
structure Holds (m : Rows α) (s : Slice) : Prop where
  length_le : s.length ≤ s.capacity
  capacity_le : s.capacity ≤ (m.getD s.row []).length

variable {base m : Rows α} {s : Slice}

theorem Holds.length_read (h : m.Holds s) : (m.read s).length = s.length := by
  rw [read, List.length_take, Nat.min_eq_left (h.length_le.trans h.capacity_le)]

theorem Holds.row_lt (h : m.Holds s) (used : 0 < s.capacity) : s.row < m.length := by
  by_contra hrow
  have hempty : m.getD s.row [] = [] := by simp [Nat.not_lt.mp hrow]
  have hle := h.capacity_le
  rw [hempty, List.length_nil] at hle
  omega

/-- Rows that are added later are not seen through a slice. -/
theorem Holds.getD_of_kept (h : base.Holds s) (kept : base <+: m) (used : 0 < s.capacity) :
    m.getD s.row [] = base.getD s.row [] := by
  obtain ⟨later, rfl⟩ := kept
  rw [List.getD_append _ _ _ _ (h.row_lt used)]

theorem Holds.read_of_kept (h : base.Holds s) (kept : base <+: m) : m.read s = base.read s := by
  rcases Nat.eq_zero_or_pos s.capacity with hzero | used
  · have hlength : s.length = 0 := Nat.le_zero.mp (hzero ▸ h.length_le)
    rw [read, read, hlength, List.take_zero, List.take_zero]
  · rw [read, h.getD_of_kept kept used, read]

theorem Holds.of_kept (h : base.Holds s) (kept : base <+: m) : m.Holds s := by
  refine ⟨h.length_le, ?_⟩
  rcases Nat.eq_zero_or_pos s.capacity with hzero | used
  · omega
  · rw [h.getD_of_kept kept used]
    exact h.capacity_le

theorem entryAt_of_getElem? {i : Nat} {x : α} (hi : (m.read s)[i]? = some x) :
    m.entryAt s i = .ok x := by
  rw [entryAt, hi]

/-- The slice reads the items, on a row that the memory did not have at the time of `base`, and what
there was then is kept. -/
structure Owns (base m : Rows α) (s : Slice) (xs : List α) : Prop where
  kept : base <+: m
  holds : m.Holds s
  fresh : 0 < s.capacity → base.length ≤ s.row
  read : m.read s = xs

theorem getD_concat (row : List α) : (m ++ [row]).getD m.length [] = row := by
  rw [List.getD_append_right _ _ _ _ le_rfl, Nat.sub_self, List.getD_cons_zero]

theorem owns_empty : Owns m m {} [] := by
  have unused : ¬ 0 < (0 : Nat) := Nat.lt_irrefl 0
  exact ⟨List.prefix_rfl, ⟨le_rfl, Nat.zero_le _⟩, fun h => absurd h unused, List.take_zero⟩

theorem owns_write (xs : List α) : Owns m (m.write xs).1 (m.write xs).2 xs := by
  refine ⟨List.prefix_append m [xs], ⟨le_rfl, ?_⟩, fun _ => le_rfl, ?_⟩
  · show xs.length ≤ ((m ++ [xs]).getD m.length []).length
    rw [getD_concat]
  · show ((m ++ [xs]).getD m.length []).take xs.length = xs
    rw [getD_concat, List.take_length]

theorem modify_kept (kept : base <+: m) {r : Nat} (fresh : base.length ≤ r)
    (change : List α → List α) : base <+: m.modify r change := by
  rw [List.prefix_iff_getElem?] at kept ⊢
  intro i hi
  have hne : ¬ r = i := by omega
  rw [List.getElem?_modify, kept i hi]
  simp [hne]

theorem getD_modify {r : Nat} (hr : r < m.length) (change : List α → List α) :
    (m.modify r change).getD r [] = change (m.getD r []) := by
  simp [hr]

theorem Owns.append_in_place (h : Owns base m s xs) {ys : List α} (given : ys ≠ [])
    (room : s.length + ys.length ≤ s.capacity) :
    Owns base (m.modify s.row fun row => row.take s.length ++ ys ++ row.drop (s.length + ys.length))
      { s with length := s.length + ys.length } (xs ++ ys) := by
  have hys : 0 < ys.length := List.length_pos_iff.mpr given
  have used : 0 < s.capacity := by omega
  have hcapacity := h.holds.capacity_le
  have htaken : ((m.getD s.row []).take s.length).length = s.length := h.holds.length_read
  refine ⟨modify_kept h.kept (h.fresh used) _, ⟨room, ?_⟩, h.fresh, ?_⟩
  · show s.capacity ≤ ((m.modify s.row _).getD s.row []).length
    rw [getD_modify (h.holds.row_lt used), List.length_append, List.length_append, htaken,
      List.length_drop]
    omega
  · show ((m.modify s.row _).getD s.row []).take (s.length + ys.length) = xs ++ ys
    have hread : (m.getD s.row []).take s.length = xs := h.read
    rw [getD_modify (h.holds.row_lt used), List.take_left', hread]
    rw [List.length_append, htaken]

variable [Inhabited α]

theorem owns_make (capacity : Nat) : Owns m (m.make capacity).1 (m.make capacity).2 [] := by
  refine ⟨List.prefix_append m _, ⟨Nat.zero_le capacity, ?_⟩, fun _ => le_rfl, List.take_zero⟩
  show capacity ≤ ((m ++ [List.replicate capacity default]).getD m.length []).length
  rw [getD_concat, List.length_replicate]

theorem append_nil (spare : Slice → Nat → Nat) (h : s.length ≤ s.capacity) :
    m.append spare s [] = (m, s) := by
  have hsame : (fun row : List α => row.take s.length ++ [] ++ row.drop s.length) = id := by
    funext row
    rw [List.append_nil, List.take_append_drop, id]
  simp only [append, List.length_nil, Nat.add_zero, if_pos h, hsame, List.modify_id]

theorem Owns.append_moved (h : Owns base m s xs) (ys : List α) (free : Nat) :
    Owns base (m ++ [m.read s ++ ys ++ List.replicate free default])
      ⟨m.length, s.length + ys.length, s.length + ys.length + free⟩ (xs ++ ys) := by
  have hlength : (m.read s ++ ys).length = s.length + ys.length := by
    rw [List.length_append, h.holds.length_read]
  refine ⟨h.kept.trans (List.prefix_append m _), ⟨Nat.le_add_right _ _, ?_⟩,
    fun _ => h.kept.length_le, ?_⟩
  · rw [getD_concat, List.length_append, hlength, List.length_replicate]
  · rw [Rows.read, getD_concat, List.take_left' hlength, h.read]

/-- Whether there is room or not, appending to a slice on a row of its own keeps all older rows. -/
theorem Owns.append (h : Owns base m s xs) (spare : Slice → Nat → Nat) (ys : List α) :
    Owns base (m.append spare s ys).1 (m.append spare s ys).2 (xs ++ ys) := by
  by_cases given : ys = []
  -- a slice without capacity may name an older row, which has to stay as it is
  · rw [given, append_nil spare h.holds.length_le, List.append_nil]
    exact h
  · by_cases room : s.length + ys.length ≤ s.capacity
    · simp only [Rows.append, if_pos room]
      exact h.append_in_place given room
    · simp only [Rows.append, if_neg room]
      exact h.append_moved ys (spare s ys.length)

theorem Owns.append_read (h : Owns base m s xs) (spare : Slice → Nat → Nat) {t : Slice}
    (held : base.Holds t) :
    Owns base (m.append spare s (m.read t)).1 (m.append spare s (m.read t)).2 (xs ++ base.read t) := by
  rw [held.read_of_kept h.kept]
  exact h.append spare (base.read t)

theorem owns_join (spare : Slice → Nat → Nat) {t : Slice} (hs : m.Holds s) (ht : m.Holds t) :
    Owns m (m.join spare s t).1 (m.join spare s t).2 (m.read s ++ m.read t) :=
  ((owns_make _).append_read spare hs).append_read spare ht

end Rows

end ScopedAggregation
