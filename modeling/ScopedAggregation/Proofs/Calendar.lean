import ScopedAggregation.Time

namespace ScopedAggregation.Calendar

/-- Where a day of an era lies. A year has its last day only at the end of a cycle, and at the end
of a century only in the last one. -/
structure Place (dayOfEra century cycle year day : Int) : Prop where
  century_range : 0 ≤ century ∧ century ≤ 3
  cycle_range : 0 ≤ cycle ∧ cycle ≤ 24
  year_range : 0 ≤ year ∧ year ≤ 3
  day_range : 0 ≤ day ∧ day ≤ 365
  leap : day = 365 → year = 3 ∧ (cycle = 24 → century = 3)
  sum : dayOfEra = 36524 * century + 1461 * cycle + 365 * year + day

theorem exists_place {dayOfEra : Int} (low : 0 ≤ dayOfEra) (high : dayOfEra < 146097) :
    ∃ century cycle year day, Place dayOfEra century cycle year day := by
  -- The last century of an era and the last year of a cycle are a day longer, hence the minima.
  obtain ⟨century, hcentury⟩ : ∃ n, n = min (dayOfEra / 36524) 3 := ⟨_, rfl⟩
  obtain ⟨inCentury, hin⟩ : ∃ n, n = dayOfEra - 36524 * century := ⟨_, rfl⟩
  have centuryBounds : 0 ≤ century ∧ century ≤ 3 ∧ 0 ≤ inCentury ∧ inCentury ≤ 36524 ∧
      (century < 3 → inCentury < 36524) := by omega
  clear hcentury
  obtain ⟨cycle, hcycle⟩ : ∃ n, n = inCentury / 1461 := ⟨_, rfl⟩
  obtain ⟨inCycle, hinc⟩ : ∃ n, n = inCentury - 1461 * cycle := ⟨_, rfl⟩
  have cycleBounds : 0 ≤ cycle ∧ cycle ≤ 24 ∧ 0 ≤ inCycle ∧ inCycle < 1461 ∧
      (century < 3 → cycle = 24 → inCycle < 1460) := by omega
  clear hcycle
  obtain ⟨year, hyear⟩ : ∃ n, n = min (inCycle / 365) 3 := ⟨_, rfl⟩
  refine ⟨century, cycle, year, inCycle - 365 * year, ?_, ?_, ?_, ?_, ?_, ?_⟩ <;> omega

variable {dayOfEra century cycle year day : Int}

/-- The leap days before a day are counted well enough that only whole years are left. -/
theorem Place.yearOfEra_eq (h : Place dayOfEra century cycle year day) :
    (dayOfEra - dayOfEra / 1460 + dayOfEra / 36524 - dayOfEra / 146096) / 365 =
      100 * century + 4 * cycle + year := by
  obtain ⟨hc, hy, hz, hd, leap, hsum⟩ := h
  have centuries : dayOfEra / 36524 - dayOfEra / 146096 = century := by
    -- The last day of the era would begin a fifth century.
    by_cases last : dayOfEra = 146096
    · subst last
      omega
    · have inside : 1461 * cycle + 365 * year + day < 36524 := by omega
      have whole : dayOfEra / 36524 = century := by omega
      omega
  obtain ⟨leapDay, hleap⟩ : ∃ n, n = (24 * century + cycle + 365 * year + day) / 1460 := ⟨_, rfl⟩
  have cycles : dayOfEra / 1460 = 25 * century + cycle + leapDay := by omega
  have left : 0 ≤ day - leapDay ∧ day - leapDay < 365 := by omega
  omega

theorem Place.daysBefore_eq (h : Place dayOfEra century cycle year day) :
    365 * (100 * century + 4 * cycle + year) + (100 * century + 4 * cycle + year) / 4 -
      (100 * century + 4 * cycle + year) / 100 = dayOfEra - day := by
  obtain ⟨hc, hy, hz, hd, leap, hsum⟩ := h
  have cycles : (100 * century + 4 * cycle + year) / 4 = 25 * century + cycle := by omega
  have centuries : (100 * century + 4 * cycle + year) / 100 = century := by omega
  omega

/-- The day of an era in a year counted from March. -/
def dateIn (year day : Int) : Date :=
  let month := (5 * day + 2) / 153
  ⟨if month < 10 then year else year + 1, (if month < 10 then month + 3 else month - 9).toNat,
    (day - (153 * month + 2) / 5 + 1).toNat⟩

theorem ofDays_eq {days : Int} (h : Place (days - days / 146097 * 146097) century cycle year day) :
    Date.ofDays days =
      dateIn (100 * century + 4 * cycle + year + days / 146097 * 400) day := by
  simp only [Date.ofDays, dateIn, Int.fdiv_eq_ediv_of_nonneg days (by decide : (0 : Int) ≤ 146097),
    h.yearOfEra_eq, h.daysBefore_eq, Int.sub_sub_self]

theorem toDays_dateIn {y : Int} (low : 0 ≤ day) (high : day ≤ 365) :
    (dateIn y day).toDays =
      y / 400 * 146097 + ((y - y / 400 * 400) * 365 + (y - y / 400 * 400) / 4 -
        (y - y / 400 * 400) / 100 + day) := by
  obtain ⟨month, hmonth⟩ : ∃ n, n = (5 * day + 2) / 153 := ⟨_, rfl⟩
  have range : 0 ≤ month ∧ month ≤ 11 := by omega
  simp only [dateIn, Date.toDays, Int.fdiv_eq_ediv_of_nonneg _ (by decide : (0 : Int) ≤ 400),
    ← hmonth]
  by_cases early : month < 10
  · have shown : ¬ (month + 3).toNat ≤ 2 := by omega
    have shifted : (((month + 3).toNat + 9) % 12 : Nat) = month := by omega
    simp only [early, if_true, shown, if_false, shifted]
    omega
  · have shown : (month - 9).toNat ≤ 2 := by omega
    have shifted : (((month - 9).toNat + 9) % 12 : Nat) = month := by omega
    simp only [early, if_false, shown, if_true, shifted]
    omega

theorem isValid_dateIn {y : Int} (low : 0 ≤ day) (high : day ≤ 365)
    (leap : day = 365 → isLeap (y + 1) = true) : (dateIn y day).isValid = true := by
  obtain ⟨month, hmonth⟩ : ∃ n, n = (5 * day + 2) / 153 := ⟨_, rfl⟩
  have range : 0 ≤ month ∧ month ≤ 11 := by omega
  simp only [dateIn, Date.isValid, daysIn, Bool.and_eq_true, decide_eq_true_eq, Bool.or_eq_true,
    ← hmonth]
  by_cases february : month = 11
  · subst february
    by_cases last : day = 365
    · simp [last, leap last]
    · simp only [Int.reduceLT, ↓reduceIte, Int.reduceSub, Int.reduceToNat, Nat.reduceLeDiff,
        and_self, Int.reduceMul, Int.reduceAdd, Int.reduceDiv, true_and, Int.toNat_le]
      split <;> omega
  · split
    next early =>
      have later : (month + 3).toNat ≠ 2 := by omega
      simp only [later, if_false]
      split <;> omega
    next late =>
      have later : (month - 9).toNat ≠ 2 := by omega
      simp only [later, if_false]
      split <;> omega

theorem Place.isLeap_of_last (h : Place dayOfEra century cycle year day) (last : day = 365)
    (era : Int) : isLeap (100 * century + 4 * cycle + year + era * 400 + 1) = true := by
  obtain ⟨hc, hy, hz, hd, leap, hsum⟩ := h
  obtain ⟨rfl, hlast⟩ := leap last
  simp only [isLeap, Bool.and_eq_true, Bool.or_eq_true, decide_eq_true_eq, ne_eq]
  omega

theorem exists_place_of_days (days : Int) :
    ∃ century cycle year day, Place (days - days / 146097 * 146097) century cycle year day :=
  exists_place (by omega) (by omega)

theorem toDays_ofDays (days : Int) : (Date.ofDays days).toDays = days := by
  obtain ⟨century, cycle, year, day, h⟩ := exists_place_of_days days
  have before := h.daysBefore_eq
  have era : (100 * century + 4 * cycle + year + days / 146097 * 400) / 400 = days / 146097 := by
    have := h.century_range
    have := h.cycle_range
    have := h.year_range
    omega
  rw [ofDays_eq h, toDays_dateIn h.day_range.1 h.day_range.2, era, Int.add_sub_cancel]
  omega

theorem isValid_ofDays (days : Int) : (Date.ofDays days).isValid = true := by
  obtain ⟨century, cycle, year, day, h⟩ := exists_place_of_days days
  rw [ofDays_eq h]
  exact isValid_dateIn h.day_range.1 h.day_range.2 fun last => h.isLeap_of_last last _

end ScopedAggregation.Calendar
