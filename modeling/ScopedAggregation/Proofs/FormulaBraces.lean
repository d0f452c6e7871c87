import ScopedAggregation.Definition.Quoting
import ScopedAggregation.Proofs.FormulaNesting

namespace ScopedAggregation.Formula

/-- Puts bytes back in front of what a scanner has passed. -/
def putBack (s : Text) (r : Option (Text × Text)) : Option (Text × Text) :=
  r.map fun p => (s ++ p.1, p.2)

theorem putBack_putBack (s t : Text) (r : Option (Text × Text)) :
    putBack s (putBack t r) = putBack (s ++ t) r := by
  cases r with
  | none => rfl
  | some p => simp [putBack]

theorem putBack_nil (r : Option (Text × Text)) : putBack [] r = r := by
  cases r with
  | none => rfl
  | some p => rfl

/-- A byte that neither opens nor closes anything. -/
def isQuiet (b : UInt8) : Bool := !isQuote b && b ≠ Ascii.openBrace && b ≠ Ascii.closeBrace

theorem isQuiet_of_plain {b : UInt8} (h : isPlain b = true) : isQuiet b = true := by
  simp only [isPlain, Bool.and_eq_true, Bool.not_eq_true', isOpening, isClosing, Bool.or_eq_false_iff,
    decide_eq_false_iff_not] at h
  simp [isQuiet, h]

/-- A scanner that counts braces outside of quoted strings. -/
structure CountsBraces (scan : Nat → Option UInt8 → Text → Option (Text × Text)) : Prop where
  pair : ∀ d q b rest,
    scan d (some q) (Ascii.backslash :: b :: rest) =
      putBack [Ascii.backslash, b] (scan d (some q) rest)
  inside : ∀ d q b rest, b ≠ Ascii.backslash →
    scan d (some q) (b :: rest) = putBack [b] (scan d (if b = q then none else some q) rest)
  quote : ∀ d b rest, isQuote b = true →
    scan d none (b :: rest) = putBack [b] (scan d (some b) rest)
  openBrace : ∀ d rest,
    scan d none (Ascii.openBrace :: rest) = putBack [Ascii.openBrace] (scan (d + 1) none rest)
  closeBrace : ∀ d rest,
    scan (d + 1) none (Ascii.closeBrace :: rest) = putBack [Ascii.closeBrace] (scan d none rest)
  quiet : ∀ d b rest, isQuiet b = true →
    scan d none (b :: rest) = putBack [b] (scan d none rest)

theorem splitFormula?_countsBraces : CountsBraces splitFormula? := by
  constructor
  · intro d q b rest
    rw [splitFormula?]
    rfl
  · intro d q b rest hb
    rw [splitFormula?]
    · rfl
    · intro _ _ hc
      exact absurd hc hb
  · intro d b rest hb
    cases d with
    | zero => simp [splitFormula?, hb, putBack]
    | succ d => simp [splitFormula?, hb, putBack]
  · intro d rest
    have hb : isQuote Ascii.openBrace = false := by decide
    cases d with
    | zero => simp [splitFormula?, hb, putBack]
    | succ d => simp [splitFormula?, hb, putBack]
  · intro d rest
    have hb : isQuote Ascii.closeBrace = false := by decide
    have hne : Ascii.closeBrace ≠ Ascii.openBrace := by decide
    simp [splitFormula?, hb, hne, putBack]
  · intro d b rest hb
    simp only [isQuiet, Bool.and_eq_true, Bool.not_eq_true', decide_eq_true_eq] at hb
    cases d with
    | zero => simp [splitFormula?, hb, putBack]
    | succ d => simp [splitFormula?, hb, putBack]

theorem splitBraces?_countsBraces :
    CountsBraces fun depth => Definition.splitBraces? (depth + 1) := by
  constructor
  · intro d q b rest
    rw [Definition.splitBraces?]
    rfl
  · intro d q b rest hb
    rw [Definition.splitBraces?]
    · rfl
    · intro _ _ hc
      exact absurd hc hb
  · intro d b rest hb
    rw [Definition.splitBraces?, if_pos hb]
    rfl
  · intro d rest
    rw [Definition.splitBraces?, if_neg (by decide), if_pos rfl]
    rfl
  · intro d rest
    rw [Definition.splitBraces?, if_neg (by decide), if_neg (by decide), if_pos rfl, if_neg (by omega)]
    rfl
  · intro d b rest hb
    simp only [isQuiet, Bool.and_eq_true, Bool.not_eq_true', decide_eq_true_eq] at hb
    rw [Definition.splitBraces?, if_neg (by simp [hb.1.1]), if_neg hb.1.2, if_neg hb.2]
    rfl

/-- A text in which each brace outside quoted strings is closed; other brackets mean nothing. -/
inductive BracedText : Text → Prop
  | nil : BracedText []
  | quiet {b : UInt8} (h : isQuiet b = true) : BracedText [b]
  | string {q : UInt8} {s u : Text} {n : Nat} (hq : isQuote q = true)
    (hread : readString? q s = some (u, n)) : BracedText (q :: s.take n)
  | append {s t : Text} (hs : BracedText s) (ht : BracedText t) : BracedText (s ++ t)
  | braces {s : Text} (hs : BracedText s) :
    BracedText (Ascii.openBrace :: (s ++ [Ascii.closeBrace]))

theorem NestedText.braced {s : Text} (h : NestedText s) : BracedText s := by
  induction h with
  | nil => exact .nil
  | plain hb => exact .quiet (isQuiet_of_plain hb)
  | string hq hread => exact .string hq hread
  | append _ _ ihs iht => exact ihs.append iht
  | @bracketed o c s hoc _ ih =>
    have hquiet : isQuiet o = true → isQuiet c = true → BracedText (o :: (s ++ [c])) :=
      fun ho hc => (BracedText.quiet ho).append (ih.append (.quiet hc))
    unfold closes? at hoc
    split at hoc
    · cases hoc
      exact hquiet (by decide) (by decide)
    · cases hoc
      exact hquiet (by decide) (by decide)
    · cases hoc
      exact .braces ih
    · cases hoc

section

variable {scan : Nat → Option UInt8 → Text → Option (Text × Text)} (counts : CountsBraces scan)

/-- The scanner passes the text, from one number of open braces to another. -/
def Passes (scan : Nat → Option UInt8 → Text → Option (Text × Text)) (s : Text) (d d' : Nat) : Prop :=
  ∀ rest, scan d none (s ++ rest) = putBack s (scan d' none rest)

theorem Passes.nil (d : Nat) : Passes scan [] d d := by
  intro rest
  rw [putBack_nil, List.nil_append]

theorem Passes.append {s t : Text} {d d' d'' : Nat} (hs : Passes scan s d d')
    (ht : Passes scan t d' d'') : Passes scan (s ++ t) d d'' := by
  intro rest
  rw [List.append_assoc, hs, ht, putBack_putBack]

include counts

theorem CountsBraces.knowsStrings (d : Nat) : KnowsStrings putBack (scan d) :=
  ⟨putBack_putBack, counts.pair d, counts.inside d⟩

theorem BracedText.passes {s : Text} (h : BracedText s) (d : Nat) : Passes scan s d d := by
  induction h generalizing d with
  | nil => exact .nil d
  | quiet hb => exact fun rest => counts.quiet d _ rest hb
  | string hq hread =>
    intro rest
    have hstring := (counts.knowsStrings d).scan_string hq hread rest
    rw [List.cons_append, counts.quote _ _ _ hq, hstring, putBack_putBack]
    rfl
  | append _ _ ihs iht => exact (ihs d).append (iht d)
  | braces _ ih =>
    have hopen : Passes scan [Ascii.openBrace] d (d + 1) := fun rest => counts.openBrace d rest
    have hclose : Passes scan [Ascii.closeBrace] (d + 1) d := fun rest => counts.closeBrace d rest
    exact hopen.append ((ih (d + 1)).append hclose)

/-- A scanner passes every formula that is read, and has no brace left open behind it. -/
theorem parse_passes {s : Text} {e : Expr} (h : parse s = .ok e) : Passes scan s 0 0 :=
  (parse_nestedText h).braced.passes counts 0

end

/-- The brace behind a formula is the one that closes it. -/
theorem splitFormula?_parse {s : Text} {e : Expr} (h : parse s = .ok e) (rest : Text) :
    splitFormula? 0 none (s ++ Ascii.closeBrace :: rest) = some (s, rest) := by
  rw [parse_passes splitFormula?_countsBraces h (Ascii.closeBrace :: rest)]
  have hbrace : splitFormula? 0 none (Ascii.closeBrace :: rest) = some ([], rest) := by
    rw [splitFormula?]
    rfl
  rw [hbrace]
  simp [putBack]

theorem splitBraces?_braced {s : Text} (h : BracedText s) (rest : Text) :
    Definition.splitBraces? 1 none (s ++ Ascii.closeBrace :: rest) =
      some (s ++ [Ascii.closeBrace], rest) := by
  have hpasses := h.passes splitBraces?_countsBraces 0 (Ascii.closeBrace :: rest)
  have hbrace : Definition.splitBraces? 1 none (Ascii.closeBrace :: rest) =
      some ([Ascii.closeBrace], rest) := by
    rw [Definition.splitBraces?]
    rfl
  refine hpasses.trans ?_
  rw [hbrace]
  rfl

theorem splitBraces?_parse {s : Text} {e : Expr} (h : parse s = .ok e) (rest : Text) :
    Definition.splitBraces? 1 none (s ++ Ascii.closeBrace :: rest) =
      some (s ++ [Ascii.closeBrace], rest) :=
  splitBraces?_braced (parse_nestedText h).braced rest

/-- A text that closes `d` braces opened before it and ends with the brace that closes one more. -/
inductive Closes : Nat → Text → Prop
  | last {s : Text} (hs : BracedText s) : Closes 0 (s ++ [Ascii.closeBrace])
  | next {d : Nat} {s t : Text} (hs : BracedText s) (ht : Closes d t) :
    Closes (d + 1) (s ++ Ascii.closeBrace :: t)

theorem Closes.append {d : Nat} {s t : Text} (ht : Closes d t) (hs : BracedText s) :
    Closes d (s ++ t) := by
  cases ht with
  | last hu =>
    rw [← List.append_assoc]
    exact .last (hs.append hu)
  | next hu ht =>
    rw [← List.append_assoc]
    exact .next (hs.append hu) ht

theorem Closes.opened {d : Nat} {t : Text} (h : Closes (d + 1) t) :
    Closes d (Ascii.openBrace :: t) := by
  cases h with
  | @next _ s t hs ht =>
    have hclosed := ht.append (.braces hs)
    rwa [List.cons_append, List.append_assoc, List.singleton_append] at hclosed

/-- What the scanner has passed when it stops: a string up to its end, if it started in one, and then
a text that closes all braces. -/
def ClosesFrom (d : Nat) : Option UInt8 → Text → Prop
  | none, s => Closes d s
  | some q, s => ∃ u body tail, s = body ++ tail ∧ readString? q body = some (u, body.length) ∧
    Closes d tail

theorem ClosesFrom.pair {d : Nat} {q : UInt8} {s : Text} (h : ClosesFrom d (some q) s) (b : UInt8) :
    ClosesFrom d (some q) (Ascii.backslash :: b :: s) := by
  obtain ⟨u, body, tail, rfl, hread, htail⟩ := h
  refine ⟨escaped b ++ u, Ascii.backslash :: b :: body, tail, rfl, ?_, htail⟩
  rw [readString?, hread]
  rfl

theorem ClosesFrom.inside {d : Nat} {q b : UInt8} {s : Text} (hb : b ≠ Ascii.backslash)
    (h : ClosesFrom d (if b = q then none else some q) s) : ClosesFrom d (some q) (b :: s) := by
  by_cases hq : b = q
  · rw [if_pos hq] at h
    refine ⟨[], [b], s, rfl, ?_, h⟩
    rw [readString?, if_pos hq]
    · rfl
    · simp
  · rw [if_neg hq] at h
    obtain ⟨u, body, tail, rfl, hread, htail⟩ := h
    refine ⟨b :: u, b :: body, tail, rfl, ?_, htail⟩
    rw [readString?, if_neg hq, hread]
    · rfl
    · intro _ _ hc
      exact absurd hc hb

theorem ClosesFrom.quote {d : Nat} {q : UInt8} {s : Text} (hq : isQuote q = true)
    (h : ClosesFrom d (some q) s) : Closes d (q :: s) := by
  obtain ⟨u, body, tail, rfl, hread, htail⟩ := h
  have hstring : BracedText (q :: body.take body.length) := .string hq hread
  rw [List.take_length] at hstring
  exact htail.append hstring

theorem splitBraces?_closes {depth : Nat} {q : Option UInt8} {rest s after : Text}
    (positive : 0 < depth) (h : Definition.splitBraces? depth q rest = some (s, after)) :
    rest = s ++ after ∧ ClosesFrom (depth - 1) q s := by
  -- One byte or one pair of bytes comes off at a time; the result for the rest is put behind it.
  fun_induction Definition.splitBraces? depth q rest generalizing s after with
  | case1 => cases h
  | case2 depth q b rest ih =>
    obtain ⟨⟨t, u⟩, ht, heq⟩ := Option.map_eq_some_iff.mp h
    cases heq
    obtain ⟨rfl, hcloses⟩ := ih positive ht
    exact ⟨rfl, hcloses.pair b⟩
  | case3 depth q b rest hpair ih =>
    obtain ⟨⟨t, u⟩, ht, heq⟩ := Option.map_eq_some_iff.mp h
    cases heq
    have hb : b ≠ Ascii.backslash := by
      intro hb
      cases rest with
      | nil => cases ht
      | cons c rest => exact hpair c rest hb rfl
    obtain ⟨rfl, hcloses⟩ := ih positive ht
    exact ⟨rfl, hcloses.inside hb⟩
  | case4 depth b rest hquote ih =>
    obtain ⟨⟨t, u⟩, ht, heq⟩ := Option.map_eq_some_iff.mp h
    cases heq
    obtain ⟨rfl, hcloses⟩ := ih positive ht
    exact ⟨rfl, hcloses.quote hquote⟩
  | case5 depth rest hquote ih =>
    obtain ⟨⟨t, u⟩, ht, heq⟩ := Option.map_eq_some_iff.mp h
    cases heq
    obtain ⟨rfl, hcloses⟩ := ih (Nat.succ_pos depth) ht
    obtain ⟨d, rfl⟩ : ∃ d, depth = d + 1 := ⟨depth - 1, by omega⟩
    have hcloses : Closes (d + 1) t := hcloses
    exact ⟨rfl, hcloses.opened⟩
  | case6 rest =>
    cases h
    exact ⟨rfl, .last .nil⟩
  | case7 depth rest _ _ hdepth ih =>
    obtain ⟨⟨t, u⟩, ht, heq⟩ := Option.map_eq_some_iff.mp h
    cases heq
    obtain ⟨rfl, hcloses⟩ := ih (by omega) ht
    obtain ⟨d, rfl⟩ : ∃ d, depth = d + 2 := ⟨depth - 2, by omega⟩
    have hcloses : Closes d t := hcloses
    exact ⟨rfl, .next .nil hcloses⟩
  | case8 depth b rest hquote hopen hclose ih =>
    obtain ⟨⟨t, u⟩, ht, heq⟩ := Option.map_eq_some_iff.mp h
    cases heq
    obtain ⟨rfl, hcloses⟩ := ih positive ht
    have hquiet : isQuiet b = true := by simp [isQuiet, hquote, hopen, hclose]
    have hcloses : Closes (depth - 1) t := hcloses
    exact ⟨rfl, hcloses.append (.quiet hquiet)⟩

/-- The scanner stops behind the brace that closes the one it started from, and only there. -/
theorem splitBraces?_eq_some {rest inner after : Text} :
    Definition.splitBraces? 1 none rest = some (inner, after) ↔
      ∃ s, BracedText s ∧ inner = s ++ [Ascii.closeBrace] ∧
        rest = s ++ Ascii.closeBrace :: after := by
  constructor
  · intro h
    obtain ⟨rfl, hcloses⟩ := splitBraces?_closes Nat.one_pos h
    have hclosed : Closes 0 inner := hcloses
    cases hclosed with
    | @last s hs => exact ⟨s, hs, rfl, by simp⟩
  · rintro ⟨s, hs, rfl, rfl⟩
    exact splitBraces?_braced hs after

end ScopedAggregation.Formula
