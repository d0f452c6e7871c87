import Mathlib.Data.List.TakeWhile
import ScopedAggregation.Formula.Template
import ScopedAggregation.Proofs.FormulaCompleteness

namespace ScopedAggregation.Formula

/-- The word that closes what a word opens. -/
def Lexeme.closing? : Lexeme → Option Lexeme
  | .openParen => some .closeParen
  | .openBracket => some .closeBracket
  | .openBrace => some .closeBrace
  | _ => none

def Lexeme.isBracket : Lexeme → Bool
  | .openParen | .closeParen | .openBracket | .closeBracket | .openBrace | .closeBrace => true
  | _ => false

/-- Words in which each bracket is closed by one of its own kind. -/
inductive Nested : List Lexeme → Prop
  | nil : Nested []
  | word {l : Lexeme} (h : l.isBracket = false) : Nested [l]
  | append {ws us : List Lexeme} (hw : Nested ws) (hu : Nested us) : Nested (ws ++ us)
  | bracketed {o c : Lexeme} {ws : List Lexeme} (h : o.closing? = some c) (hw : Nested ws) :
    Nested (o :: (ws ++ [c]))

theorem Nested.cons {l : Lexeme} {ws : List Lexeme} (hw : Nested ws) (h : l.isBracket = false) :
    Nested (l :: ws) :=
  (Nested.word h).append hw

theorem Many.isNested {α : Type} {item : Phrase α} {ws : List Lexeme} {as : List α}
    (hm : Many item ws as) (h : ∀ {vs a}, item vs a → Nested vs) : Nested ws := by
  induction hm with
  | nil => exact .nil
  | cons first _ ih => exact (h first).append ih

theorem Many.isNested_after {α : Type} {l : Lexeme} {item : Phrase α} {ws : List Lexeme}
    {as : List α} (hm : Many (After l item) ws as) (hl : l.isBracket = false)
    (h : ∀ {vs a}, item vs a → Nested vs) : Nested ws := by
  refine hm.isNested ?_
  rintro vs a ⟨hi⟩
  exact (h hi).cons hl

theorem CommaList.isNested {α : Type} {item : Phrase α} {ws : List Lexeme} {as : List α}
    (hl : CommaList item ws as) (h : ∀ {vs a}, item vs a → Nested vs) : Nested ws := by
  cases hl with
  | nil => exact .nil
  | cons first rest => exact (h first).append (rest.isNested_after rfl h)

/-- The phrases of the language are nested. -/
def AllNested (language : Phrase Expr) : Prop :=
  ∀ ⦃ws : List Lexeme⦄ ⦃e : Expr⦄, language ws e → Nested ws

theorem chain_nested {l : Lexeme} {op : String} {item : Phrase Expr} (h : AllNested item)
    (hl : l.isBracket = false) : AllNested (Chain l op item) := by
  intro ws e hc
  cases hc with
  | single hi => exact h hi
  | joined first rest => exact (h first).append (rest.isNested_after hl fun hi => h hi)

theorem Joined.isNested {sign : Lexeme → String → Prop} {item : Phrase Expr} {left e : Expr}
    {ws : List Lexeme} (hj : Joined sign item left ws e) (h : AllNested item)
    (hsign : ∀ l op, sign l op → l.isBracket = false) : Nested ws := by
  induction hj with
  | done => exact .nil
  | next signed operand _ ih => exact ((h operand).append ih).cons (hsign _ _ signed)

theorem leftChain_nested {sign : Lexeme → String → Prop} {item : Phrase Expr} (h : AllNested item)
    (hsign : ∀ l op, sign l op → l.isBracket = false) : AllNested (LeftChain sign item) := by
  rintro ws e ⟨first, rest⟩
  exact (h first).append (rest.isNested h hsign)

theorem Segments.isNested {path full : Text} {ws : List Lexeme} (h : Segments path ws full) :
    Nested ws := by
  induction h with
  | done => exact .nil
  | next _ ih => exact (ih.cons rfl).cons rfl

section

variable {nested : Phrase Expr} (h : AllNested nested)

include h

theorem mapLiteral_nested {ws : List Lexeme} {entries : List (Text × Expr)}
    (hm : MapLiteral nested ws entries) : Nested ws := by
  cases hm with
  | mk hl =>
    refine .bracketed rfl (hl.isNested ?_)
    rintro vs p (⟨hn⟩ | ⟨hn⟩)
    · exact ((h hn).cons rfl).cons rfl
    · exact ((h hn).cons rfl).cons rfl

theorem bracketed_nested {opening closing : Lexeme} {ws : List Lexeme} {es : List Expr}
    (hc : opening.closing? = some closing) (hb : Bracketed nested opening closing ws es) :
    Nested ws := by
  cases hb with
  | mk hl => exact .bracketed hc (hl.isNested fun hn => h hn)

theorem primary_nested : AllNested (Primary nested) := by
  intro ws e hp
  cases hp with
  | field segments => exact segments.isNested.cons rfl
  | var segments => exact segments.isNested.cons rfl
  | group hn => exact .bracketed rfl (h hn)
  | array hb => exact bracketed_nested h rfl hb
  | object hm => exact mapLiteral_nested h hm
  | _ => exact .word rfl

theorem call_nested : AllNested (Call nested) := by
  intro ws e hc
  cases hc with
  | @letIn vs us _ _ declared body =>
    have hbody : Nested (.comma :: us) := (h body).cons rfl
    have hall := Nested.bracketed (o := .openParen) rfl ((mapLiteral_nested h declared).append hbody)
    rw [List.append_assoc, List.cons_append] at hall
    exact hall.cons rfl
  | map hb => exact (bracketed_nested h rfl hb).cons rfl
  | filter hb => exact (bracketed_nested h rfl hb).cons rfl
  | reduce hb => exact (bracketed_nested h rfl hb).cons rfl
  | operator _ _ hb => exact (bracketed_nested h rfl hb).cons rfl

theorem Indexed.isNested {e full : Expr} {ws : List Lexeme} (hi : Indexed nested e ws full) :
    Nested ws := by
  induction hi with
  | done => exact .nil
  | @next _ _ _ vs us hn _ ih =>
    have hindex : Nested (.openBracket :: (vs ++ [.closeBracket])) := .bracketed rfl (h hn)
    have hall := hindex.append ih
    rwa [List.cons_append, List.append_assoc] at hall

theorem operand_nested : AllNested (Operand nested) := by
  intro ws e ho
  cases ho with
  | call hc hi => exact (call_nested h hc).append (hi.isNested h)
  | primary hp hi => exact (primary_nested h hp).append (hi.isNested h)

theorem signed_nested : AllNested (Signed nested) := by
  intro ws e hs
  induction hs with
  | int => exact (Nested.word rfl).cons rfl
  | float => exact (Nested.word rfl).cons rfl
  | minus _ _ ih => exact ih.cons rfl
  | operand ho => exact operand_nested h ho

theorem sum_nested : AllNested (Sum nested) := by
  have product : ∀ l op, ProductSign l op → l.isBracket = false := by
    rintro l op (_ | _ | _) <;> rfl
  have sum : ∀ l op, SumSign l op → l.isBracket = false := by
    rintro l op (_ | _) <;> rfl
  exact leftChain_nested (leftChain_nested (signed_nested h) product) sum

theorem comparison_nested : AllNested (Comparison nested) := by
  have comparison : ∀ l op, ComparisonSign l op → l.isBracket = false := by
    rintro l op (_ | _ | _ | _ | _ | _) <;> rfl
  intro ws e hc
  cases hc with
  | sum hs => exact sum_nested h hs
  | compared signed first second =>
    exact (sum_nested h first).append ((sum_nested h second).cons (comparison _ _ signed))
  | member first second => exact (sum_nested h first).append ((sum_nested h second).cons rfl)
  | notMember first second =>
    exact (sum_nested h first).append (((sum_nested h second).cons rfl).cons rfl)

theorem negation_nested : AllNested (Negation nested) := by
  intro ws e hn
  induction hn with
  | not _ ih => exact ih.cons rfl
  | comparison hc => exact comparison_nested h hc

end

theorem sentence_nested (n : Nat) : AllNested (Sentence n) := by
  induction n with
  | zero =>
    intro ws e h
    exact h.elim
  | succ n ih => exact chain_nested (chain_nested (negation_nested ih) rfl) rfl

/-- A byte that neither opens nor closes anything. -/
def isPlain (b : UInt8) : Bool := !isQuote b && !isOpening b && !isClosing b

/-- The bytes that are not plain. -/
def marks : Text :=
  [Ascii.doubleQuote, Ascii.singleQuote, Ascii.openBrace, Ascii.openParen, Ascii.openBracket,
    Ascii.closeBrace, Ascii.closeParen, Ascii.closeBracket]

theorem isPlain_of {p : UInt8 → Bool} {b : UInt8} (hb : p b = true)
    (hp : marks.any p = false) : isPlain b = true := by
  have hne : ∀ c ∈ marks, b ≠ c := by
    rintro c hc rfl
    exact List.any_eq_false.mp hp b hc hb
  simp only [marks, List.forall_mem_cons, List.not_mem_nil, IsEmpty.forall_iff, implies_true,
    and_true] at hne
  simp [isPlain, isQuote, isOpening, isClosing, hne]

theorem ne_backslash_of_isQuote {q : UInt8} (h : isQuote q = true) : q ≠ Ascii.backslash := by
  rintro rfl
  exact absurd h (by decide)

theorem isPlain_namePart {b : UInt8} (h : isNamePart b = true) : isPlain b = true :=
  isPlain_of h rfl

theorem isPlain_blank {b : UInt8} (h : Text.isBlankByte b = true) : isPlain b = true :=
  isPlain_of h rfl

theorem isPlain_numberSpan {seenPoint afterMark : Bool} {s : Text} :
    ∀ b ∈ numberSpan seenPoint afterMark s, isPlain b = true := by
  have hplain : ∀ b : UInt8, (Ascii.isDigit b || b = Ascii.dot || b = 0x65 || b = 0x45 ||
      b = Ascii.plus || b = Ascii.minus) = true → isPlain b = true := by
    intro b hb
    exact isPlain_of (p := fun b => Ascii.isDigit b || b = Ascii.dot || b = 0x65 || b = 0x45 ||
      b = Ascii.plus || b = Ascii.minus) hb rfl
  induction s generalizing seenPoint afterMark with
  | nil => simp [numberSpan]
  | cons b s ih =>
    rw [numberSpan]
    split
    next hb => exact List.forall_mem_cons.mpr ⟨hplain b (by simp [hb]), ih⟩
    next =>
      split
      next hb =>
        simp only [Bool.and_eq_true, decide_eq_true_eq] at hb
        exact List.forall_mem_cons.mpr ⟨hplain b (by simp [hb]), ih⟩
      next =>
        split
        next hb =>
          simp only [Bool.or_eq_true, decide_eq_true_eq] at hb
          refine List.forall_mem_cons.mpr ⟨hplain b ?_, ih⟩
          rcases hb with hb | hb <;> simp [hb]
        next =>
          split
          next hb =>
            simp only [Bool.and_eq_true, Bool.or_eq_true, decide_eq_true_eq] at hb
            refine List.forall_mem_cons.mpr ⟨hplain b ?_, ih⟩
            rcases hb.2 with hb | hb <;> simp [hb]
          next => simp

theorem numberSpan_prefix {seenPoint afterMark : Bool} {s : Text} :
    numberSpan seenPoint afterMark s <+: s := by
  induction s generalizing seenPoint afterMark with
  | nil => exact List.prefix_rfl
  | cons b s ih =>
    rw [numberSpan]
    split
    next => exact (List.prefix_cons_inj b).mpr ih
    next =>
      split
      next => exact (List.prefix_cons_inj b).mpr ih
      next =>
        split
        next => exact (List.prefix_cons_inj b).mpr ih
        next =>
          split
          next => exact (List.prefix_cons_inj b).mpr ih
          next => exact List.nil_prefix

/-- The bytes of a word: plain ones, a quoted string, or a bracket. -/
inductive WordText : Text → Lexeme → Prop
  | plain {s : Text} {l : Lexeme} (hs : ∀ b ∈ s, isPlain b = true) (hl : l.isBracket = false) :
    WordText s l
  | string {q : UInt8} {s u : Text} {n : Nat} (hq : isQuote q = true)
    (hread : readString? q s = some (u, n)) : WordText (q :: s.take n) (.string u)
  | bracket {b : UInt8} {l : Lexeme} (hsign : sign? b = some l) (hl : l.isBracket = true) :
    WordText [b] l

/-- A word that is read from the beginning of a text. -/
structure WordAt (s : Text) (l : Lexeme) (width : Nat) : Prop where
  positive : 0 < width
  within : width ≤ s.length
  notEnd : l ≠ .eof
  word : WordText (s.take width) l

theorem wordAt_plain {s word : Text} {l : Lexeme} (hword : word <+: s) (given : word ≠ [])
    (plain : ∀ b ∈ word, isPlain b = true) (hl : l.isBracket = false) (notEnd : l ≠ .eof) :
    WordAt s l word.length := by
  refine ⟨List.length_pos_iff.mpr given, hword.length_le, notEnd, .plain ?_ hl⟩
  rw [← List.prefix_iff_eq_take.mp hword]
  exact plain

/-- How a word is read: the byte that it starts with, what follows this byte, the word and its width. -/
inductive ReadsWord (pos : Nat) : UInt8 → Text → Token → Nat → Prop
  | string {q : UInt8} {s u : Text} {n : Nat} (hq : isQuote q = true)
    (hread : readString? q s = some (u, n)) :
    ReadsWord pos q s ⟨.string u, (q :: s).take (n + 1), pos⟩ (n + 1)
  | number {b : UInt8} {rest : Text} {l : Lexeme} (hdigit : Ascii.isDigit b = true)
    (hread : readNumber pos (numberSpan false false (b :: rest)) = .ok l) :
    ReadsWord pos b rest ⟨l, numberSpan false false (b :: rest), pos⟩
      (numberSpan false false (b :: rest)).length
  | field {b : UInt8} {rest name : Text} (hname : (b :: rest).takeWhile isNamePart = name) :
    ReadsWord pos Ascii.dollar (b :: rest) ⟨.ident name, name, pos⟩ (1 + name.length)
  | var {b : UInt8} {rest name : Text} (hname : (b :: rest).takeWhile isNamePart = name) :
    ReadsWord pos Ascii.dollar (Ascii.dollar :: b :: rest) ⟨.variable name, name, pos⟩
      (2 + name.length)
  | pair {b c : UInt8} {rest : Text} {l : Lexeme} (hpair : pairSign? b c = some l) :
    ReadsWord pos b (c :: rest) ⟨l, [b, c], pos⟩ 2
  | sign {b : UInt8} {rest : Text} {l : Lexeme} (hsign : sign? b = some l) :
    ReadsWord pos b rest ⟨l, [b], pos⟩ 1
  | name {b : UInt8} {rest word : Text} (hstart : isNameStart b = true)
    (hword : (b :: rest).takeWhile isNamePart = word) :
    ReadsWord pos b rest ⟨(keywords.lookup word).getD (.ident word), word, pos⟩ word.length

theorem readReference_reads {pos width : Nat} {rest : Text} {t : Token}
    (h : readReference pos rest = .ok (t, width)) : ReadsWord pos Ascii.dollar rest t width := by
  unfold readReference at h
  split at h
  next sigils isVariable tail hsigils =>
    split at h
    next => cases h
    next b tail =>
      split at h
      next =>
        cases h
        split at hsigils
        next =>
          cases hsigils
          exact .var rfl
        next =>
          cases hsigils
          exact .field rfl
      next => cases h

/-- One case for each kind of word. -/
theorem tokenAt_reads {pos width : Nat} {b : UInt8} {rest : Text} {t : Token}
    (h : tokenAt pos b rest = .ok (t, width)) : ReadsWord pos b rest t width := by
  unfold tokenAt at h
  split at h
  next hquote =>
    split at h
    next u n hread =>
      cases h
      exact .string (by simpa [isQuote] using hquote) hread
    next => cases h
  next =>
    split at h
    next hdigit =>
      obtain ⟨l, hl, heq⟩ := map_eq_ok.mp h
      cases heq
      exact .number hdigit hl
    next =>
      split at h
      next hdollar =>
        subst hdollar
        exact readReference_reads h
      next =>
        split at h
        next l hpair =>
          cases h
          cases rest with
          | nil => cases hpair
          | cons c rest => exact .pair hpair
        next =>
          split at h
          next l hsign =>
            cases h
            exact .sign hsign
          next =>
            split at h
            next hstart =>
              cases h
              exact .name hstart rfl
            next => cases h

theorem takeWhile_isNamePart_plain {s : Text} : ∀ b ∈ s.takeWhile isNamePart, isPlain b = true :=
  fun _ hb => isPlain_namePart (List.mem_takeWhile_imp hb)

theorem readString?_le {q : UInt8} {s u : Text} {n : Nat} (h : readString? q s = some (u, n)) :
    n ≤ s.length := by
  induction s using readString?.induct q generalizing u n with
  | case1 => cases h
  | case2 b s ih =>
    rw [readString?] at h
    obtain ⟨⟨v, m⟩, hv, heq⟩ := Option.map_eq_some_iff.mp h
    cases heq
    have := ih hv
    simp only [List.length_cons]
    omega
  | case3 s hpair =>
    rw [readString?, if_pos rfl] at h
    · cases h
      simp
    · exact hpair
  | case4 b s hpair hb ih =>
    rw [readString?, if_neg hb] at h
    · obtain ⟨⟨v, m⟩, hv, heq⟩ := Option.map_eq_some_iff.mp h
      cases heq
      have := ih hv
      simp only [List.length_cons]
      omega
    · exact hpair

theorem pairSign?_word {b c : UInt8} {l : Lexeme} {rest : Text} (h : pairSign? b c = some l) :
    WordAt (b :: c :: rest) l 2 := by
  have hword : [b, c] <+: b :: c :: rest := ⟨rest, rfl⟩
  unfold pairSign? at h
  split at h <;> cases h <;>
    exact wordAt_plain hword (by simp) (List.all_eq_true.mp (by decide)) rfl (by simp)

theorem readNumber_word {pos : Nat} {b : UInt8} {rest : Text} {l : Lexeme}
    (hdigit : Ascii.isDigit b = true)
    (h : readNumber pos (numberSpan false false (b :: rest)) = .ok l) :
    WordAt (b :: rest) l (numberSpan false false (b :: rest)).length := by
  have given : numberSpan false false (b :: rest) ≠ [] := by
    rw [numberSpan, if_pos hdigit]
    simp
  have hnumber : l.isBracket = false ∧ l ≠ .eof := by
    unfold readNumber at h
    split at h
    next =>
      split at h
      next => cases h; exact ⟨rfl, by simp⟩
      next => cases h
    next =>
      split at h
      next => cases h; exact ⟨rfl, by simp⟩
      next => cases h
  exact wordAt_plain numberSpan_prefix given isPlain_numberSpan hnumber.1 hnumber.2

theorem sign?_word {b : UInt8} {rest : Text} {l : Lexeme} (h : sign? b = some l) :
    WordAt (b :: rest) l 1 := by
  have notEnd : l ≠ .eof := by
    rintro rfl
    unfold sign? at h
    split at h <;> cases h
  cases hl : l.isBracket with
  | true => exact ⟨by omega, by simp, notEnd, .bracket h hl⟩
  | false =>
    have hword : [b] <+: b :: rest := ⟨rest, rfl⟩
    refine wordAt_plain hword (by simp) (List.forall_mem_singleton.mpr ?_) hl notEnd
    have hb : (sign? b).any (!·.isBracket) = true := by simp [h, hl]
    exact isPlain_of (p := fun c => (sign? c).any (!·.isBracket)) hb rfl

theorem keyword_plain (word : Text) :
    ((keywords.lookup word).getD (.ident word)).isBracket = false ∧
      (keywords.lookup word).getD (.ident word) ≠ .eof := by
  cases h : keywords.lookup word with
  | none => exact ⟨rfl, by simp⟩
  | some l =>
    have table : ∀ p ∈ keywords, p.2.isBracket = false ∧ p.2 ≠ .eof := by decide
    obtain ⟨before, after, hsplit, -⟩ := List.lookup_eq_some_iff.mp h
    exact table (word, l) (by simp [hsplit])

theorem name_word {b : UInt8} {rest : Text} (hname : isNamePart b = true) :
    WordAt (b :: rest)
      ((keywords.lookup ((b :: rest).takeWhile isNamePart)).getD
        (.ident ((b :: rest).takeWhile isNamePart)))
      ((b :: rest).takeWhile isNamePart).length := by
  obtain ⟨hl, notEnd⟩ := keyword_plain ((b :: rest).takeWhile isNamePart)
  have given : (b :: rest).takeWhile isNamePart ≠ [] := by
    rw [List.takeWhile_cons_of_pos hname]
    simp
  exact wordAt_plain (List.takeWhile_prefix _) given takeWhile_isNamePart_plain hl notEnd

theorem ReadsWord.wordAt {pos width : Nat} {b : UInt8} {rest : Text} {t : Token}
    (h : ReadsWord pos b rest t width) : WordAt (b :: rest) t.lexeme width := by
  have hdollar : isPlain Ascii.dollar = true := by decide
  cases h with
  | string hq hread =>
    have hlength := readString?_le hread
    exact ⟨by omega, by simpa using hlength, by simp, .string hq hread⟩
  | number hdigit hread => exact readNumber_word hdigit hread
  | @field c tail name hname =>
    have hword : Ascii.dollar :: name <+: Ascii.dollar :: c :: tail := by
      rw [← hname]
      exact (List.prefix_cons_inj _).mpr (List.takeWhile_prefix _)
    have hplain : ∀ b ∈ Ascii.dollar :: name, isPlain b = true := by
      rw [← hname]
      exact List.forall_mem_cons.mpr ⟨hdollar, takeWhile_isNamePart_plain⟩
    rw [Nat.add_comm 1]
    exact wordAt_plain (l := .ident name) hword (by simp) hplain rfl (by simp)
  | @var c tail name hname =>
    have hword : Ascii.dollar :: Ascii.dollar :: name <+: Ascii.dollar :: Ascii.dollar :: c :: tail := by
      rw [← hname]
      exact (List.prefix_cons_inj _).mpr ((List.prefix_cons_inj _).mpr (List.takeWhile_prefix _))
    have hplain : ∀ b ∈ Ascii.dollar :: Ascii.dollar :: name, isPlain b = true := by
      rw [← hname]
      exact List.forall_mem_cons.mpr
        ⟨hdollar, List.forall_mem_cons.mpr ⟨hdollar, takeWhile_isNamePart_plain⟩⟩
    rw [Nat.add_comm 2]
    exact wordAt_plain (l := .variable name) hword (by simp) hplain rfl (by simp)
  | pair hpair => exact pairSign?_word hpair
  | sign hsign => exact sign?_word hsign
  | name hstart hword =>
    subst hword
    exact name_word (by simp [isNamePart, hstart])

/-- Bytes that belong to a word that has been read are dropped. -/
theorem tokensAfter_drop {skip pos : Nat} {s : Text} (h : skip ≤ s.length) :
    tokensAfter skip pos s = tokensAfter 0 (pos + skip) (s.drop skip) := by
  induction skip generalizing pos s with
  | zero => rfl
  | succ skip ih =>
    cases s with
    | nil => simp at h
    | cons b s =>
      have hs : skip ≤ s.length := by simpa using h
      rw [tokensAfter, ih hs, List.drop_succ_cons]
      congr 1
      omega

/-- A text spells words, with white space between them. -/
inductive Spelled : Text → List Lexeme → Prop
  | nil : Spelled [] []
  | blank {b : UInt8} {s : Text} {ws : List Lexeme} (hb : Text.isBlankByte b = true)
    (hs : Spelled s ws) : Spelled (b :: s) ws
  | word {w s : Text} {l : Lexeme} {ws : List Lexeme} (hw : WordText w l) (hs : Spelled s ws) :
    Spelled (w ++ s) (l :: ws)

/-- The words of a text spell it, and the end stands behind them. -/
theorem tokensAfter_spelled {pos : Nat} {s : Text} {ts : List Token}
    (h : tokensAfter 0 pos s = .ok ts) :
    ∃ ws, ts.map Token.lexeme = ws ++ [.eof] ∧ .eof ∉ ws ∧ Spelled s ws := by
  -- A word takes several bytes at once, so the induction is on the length of what is left.
  induction hlen : s.length using Nat.strongRecOn generalizing pos s ts with
  | ind length ih =>
    cases s with
    | nil =>
      cases h
      exact ⟨[], rfl, List.not_mem_nil, .nil⟩
    | cons b rest =>
      rw [tokensAfter] at h
      split at h
      next hblank =>
        obtain ⟨ws, hws, hend, hspelled⟩ := ih rest.length (by simp [← hlen]) h rfl
        exact ⟨ws, hws, hend, .blank hblank hspelled⟩
      next =>
        obtain ⟨⟨t, width⟩, ht, h⟩ := bind_eq_ok.mp h
        obtain ⟨ts', hts, h⟩ := bind_eq_ok.mp h
        cases h
        have hat := (tokenAt_reads ht).wordAt
        have hwidth := hat.positive
        have hwithin : width - 1 ≤ rest.length := by
          have := hat.within
          simp only [List.length_cons] at this
          omega
        rw [tokensAfter_drop hwithin] at hts
        have hshorter : (rest.drop (width - 1)).length < length := by
          rw [List.length_drop, ← hlen, List.length_cons]
          omega
        obtain ⟨ws, hws, hend, hspelled⟩ := ih _ hshorter hts rfl
        refine ⟨t.lexeme :: ws, by simp [hws], ?_, ?_⟩
        · simp [hend, hat.notEnd.symm]
        · have hall := Spelled.word hat.word hspelled
          have hsplit : (b :: rest).take width ++ rest.drop (width - 1) = b :: rest := by
            obtain ⟨w, rfl⟩ : ∃ w, width = w + 1 := ⟨width - 1, by omega⟩
            rw [List.take_succ_cons, List.cons_append, Nat.add_sub_cancel, List.take_append_drop]
          rwa [hsplit] at hall

theorem Spelled.append_words {s : Text} {ws us : List Lexeme} (h : Spelled s (ws ++ us)) :
    ∃ s₁ s₂, s = s₁ ++ s₂ ∧ Spelled s₁ ws ∧ Spelled s₂ us := by
  generalize hall : ws ++ us = all at h
  induction h generalizing ws with
  | nil =>
    obtain ⟨rfl, rfl⟩ := List.append_eq_nil_iff.mp hall
    exact ⟨[], [], rfl, .nil, .nil⟩
  | @blank b s _ hb _ ih =>
    obtain ⟨s₁, s₂, rfl, h₁, h₂⟩ := ih hall
    exact ⟨b :: s₁, s₂, rfl, .blank hb h₁, h₂⟩
  | @word w s l rest hw hs ih =>
    cases ws with
    | nil =>
      rw [List.nil_append] at hall
      subst hall
      exact ⟨[], w ++ s, rfl, .nil, .word hw hs⟩
    | cons l' ws =>
      cases hall
      obtain ⟨s₁, s₂, rfl, h₁, h₂⟩ := ih rfl
      exact ⟨w ++ s₁, s₂, (List.append_assoc _ _ _).symm, .word hw h₁, h₂⟩

/-- The bytes that close what a byte opens. -/
def closes? : UInt8 → Option UInt8
  | 0x28 => some 0x29
  | 0x5b => some 0x5d
  | 0x7b => some 0x7d
  | _ => none

/-- A text in which each bracket outside quoted strings is closed by one of its own kind. -/
inductive NestedText : Text → Prop
  | nil : NestedText []
  | plain {b : UInt8} (h : isPlain b = true) : NestedText [b]
  | string {q : UInt8} {s u : Text} {n : Nat} (hq : isQuote q = true)
    (hread : readString? q s = some (u, n)) : NestedText (q :: s.take n)
  | append {s t : Text} (hs : NestedText s) (ht : NestedText t) : NestedText (s ++ t)
  | bracketed {o c : UInt8} {s : Text} (h : closes? o = some c) (hs : NestedText s) :
    NestedText (o :: (s ++ [c]))

theorem nestedText_plain {s : Text} (h : ∀ b ∈ s, isPlain b = true) : NestedText s := by
  induction s with
  | nil => exact .nil
  | cons b s ih =>
    obtain ⟨hb, hs⟩ := List.forall_mem_cons.mp h
    exact (NestedText.plain hb).append (ih hs)

/-- A scanner that knows quoted strings; `back` tells what becomes of a result when bytes are put back
in front of what was scanned. -/
structure KnowsStrings {R : Type} (back : Text → R → R) (scan : Option UInt8 → Text → R) : Prop where
  back_back : ∀ s t r, back s (back t r) = back (s ++ t) r
  pair : ∀ q b rest,
    scan (some q) (Ascii.backslash :: b :: rest) = back [Ascii.backslash, b] (scan (some q) rest)
  inside : ∀ q b rest, b ≠ Ascii.backslash →
    scan (some q) (b :: rest) = back [b] (scan (if b = q then none else some q) rest)

/-- A string ends for the scanner where it ends for the reader of words. -/
theorem KnowsStrings.scan_string {R : Type} {back : Text → R → R} {scan : Option UInt8 → Text → R}
    (knows : KnowsStrings back scan) {q : UInt8} {s u : Text} {n : Nat} (hq : isQuote q = true)
    (h : readString? q s = some (u, n)) (rest : Text) :
    scan (some q) (s.take n ++ rest) = back (s.take n) (scan none rest) := by
  have hback : q ≠ Ascii.backslash := ne_backslash_of_isQuote hq
  induction s using readString?.induct q generalizing u n with
  | case1 => cases h
  | case2 b s ih =>
    rw [readString?] at h
    obtain ⟨⟨v, m⟩, hv, heq⟩ := Option.map_eq_some_iff.mp h
    cases heq
    rw [List.take_succ_cons, List.take_succ_cons, List.cons_append, List.cons_append, knows.pair,
      ih hv, knows.back_back]
    rfl
  | case3 s hpair =>
    rw [readString?, if_pos rfl] at h
    · cases h
      rw [List.take_succ_cons, List.take_zero, List.cons_append, List.nil_append,
        knows.inside _ _ _ hback, if_pos rfl]
    · exact hpair
  | case4 b s hpair hb ih =>
    rw [readString?, if_neg hb] at h
    · obtain ⟨⟨v, m⟩, hv, heq⟩ := Option.map_eq_some_iff.mp h
      cases heq
      -- A backslash at the end of the text opens a pair that the reader does not accept.
      have hne : b ≠ Ascii.backslash := by
        rintro rfl
        cases s with
        | nil => cases hv
        | cons c s => exact hpair c s rfl rfl
      rw [List.take_succ_cons, List.cons_append, knows.inside _ _ _ hne, if_neg hb, ih hv,
        knows.back_back]
      rfl
    · exact hpair

theorem nestedText_blanks {s : Text} (h : Spelled s []) : NestedText s := by
  generalize hws : [] = ws at h
  induction h with
  | nil => exact .nil
  | blank hb _ ih => exact (NestedText.plain (isPlain_blank hb)).append (ih hws)
  | word => cases hws

theorem Spelled.single {s : Text} {l : Lexeme} (h : Spelled s [l]) :
    ∃ before w after, s = before ++ w ++ after ∧ NestedText before ∧ WordText w l ∧
      NestedText after := by
  generalize hws : [l] = ws at h
  induction h with
  | nil => cases hws
  | @blank b s _ hb _ ih =>
    obtain ⟨before, w, after, rfl, hbefore, hw, hafter⟩ := ih hws
    exact ⟨b :: before, w, after, rfl, (NestedText.plain (isPlain_blank hb)).append hbefore, hw,
      hafter⟩
  | @word w s _ _ hw hs =>
    cases hws
    exact ⟨[], w, s, rfl, .nil, hw, nestedText_blanks hs⟩

theorem WordText.nested {w : Text} {l : Lexeme} (h : WordText w l) (hl : l.isBracket = false) :
    NestedText w := by
  cases h with
  | plain hs => exact nestedText_plain hs
  | string hq hread => exact .string hq hread
  | bracket _ hbracket => rw [hl] at hbracket; cases hbracket

theorem WordText.bracket_eq {w : Text} {l : Lexeme} (h : WordText w l) (hl : l.isBracket = true) :
    ∃ b, w = [b] ∧ sign? b = some l := by
  cases h with
  | plain _ hplain => rw [hl] at hplain; cases hplain
  | string => cases hl
  | @bracket b _ hsign => exact ⟨b, rfl, hsign⟩

theorem closes?_of_signs {b b' : UInt8} {o c : Lexeme} (ho : sign? b = some o)
    (hc : sign? b' = some c) (h : o.closing? = some c) : closes? b = some b' := by
  unfold sign? at ho
  split at ho <;> cases ho <;> cases h <;>
    · unfold sign? at hc
      split at hc <;> cases hc
      rfl

theorem isBracket_of_closing {o c : Lexeme} (h : o.closing? = some c) :
    o.isBracket = true ∧ c.isBracket = true := by
  cases o <;> cases h <;> exact ⟨rfl, rfl⟩

/-- Nested words are spelled by nested text. -/
theorem Nested.text {ws : List Lexeme} (h : Nested ws) {s : Text} (hs : Spelled s ws) :
    NestedText s := by
  induction h generalizing s with
  | nil => exact nestedText_blanks hs
  | word hl =>
    obtain ⟨before, w, after, rfl, hbefore, hw, hafter⟩ := hs.single
    exact (hbefore.append (hw.nested hl)).append hafter
  | append _ _ ihw ihu =>
    obtain ⟨s₁, s₂, rfl, h₁, h₂⟩ := hs.append_words
    exact (ihw h₁).append (ihu h₂)
  | @bracketed o c ws hoc _ ih =>
    obtain ⟨s₁, rest, rfl, h₁, hrest⟩ := @Spelled.append_words _ [o] _ hs
    obtain ⟨s₂, s₃, rfl, h₂, h₃⟩ := hrest.append_words
    obtain ⟨before, w, gap, rfl, hbefore, hw, hgap⟩ := h₁.single
    obtain ⟨gap', w', after, rfl, hgap', hw', hafter⟩ := h₃.single
    obtain ⟨ho, hc⟩ := isBracket_of_closing hoc
    obtain ⟨b, rfl, hb⟩ := hw.bracket_eq ho
    obtain ⟨b', rfl, hb'⟩ := hw'.bracket_eq hc
    -- The white space on the inner sides of the two brackets belongs to what they enclose.
    have hinner : NestedText (gap ++ s₂ ++ gap') := (hgap.append (ih h₂)).append hgap'
    have hpair := NestedText.bracketed (closes?_of_signs hb hb' hoc) hinner
    have hall := (hbefore.append hpair).append hafter
    simpa only [List.append_assoc, List.cons_append, List.nil_append] using hall

theorem length_le_of_parse {s : Text} {e : Expr} (h : parse s = .ok e) : s.length ≤ maxLength := by
  unfold parse at h
  split at h
  next => cases h
  next hlength => omega

/-- The words of a text that is read spell it, and they are those of a sentence. -/
theorem parse_words {s : Text} {e : Expr} (h : parse s = .ok e) :
    ∃ ts ws, tokenize s = .ok ts ∧ ts.map Token.lexeme = ws ++ [.eof] ∧ Spelled s ws ∧
      Sentence maxNesting ws e := by
  obtain ⟨ts, ws, rest, hts, hspells, hend, hsentence⟩ := parse_sound h
  obtain ⟨words, hwords, notEnd, hspelled⟩ := tokensAfter_spelled hts
  -- The words of the text and those of the sentence both stop before the end.
  have hsame : words = ws := by
    have hall : ∀ l ∈ words, (decide (l ≠ Lexeme.eof)) = true := by
      intro l hl
      exact decide_eq_true fun heq => notEnd (heq ▸ hl)
    rw [← spells_to_end.mp ⟨rest, hspells, hend⟩, hwords, List.takeWhile_append_of_pos hall]
    simp
  subst hsame
  exact ⟨ts, words, hts, hwords, hspelled, hsentence⟩

/-- The text of a formula that is read is nested. -/
theorem parse_nestedText {s : Text} {e : Expr} (h : parse s = .ok e) : NestedText s := by
  obtain ⟨_, _, _, _, hspelled, hsentence⟩ := parse_words h
  exact (sentence_nested _ hsentence).text hspelled

end ScopedAggregation.Formula
