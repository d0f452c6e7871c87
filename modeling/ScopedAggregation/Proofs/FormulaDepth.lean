import ScopedAggregation.Proofs.DepthGuard
import ScopedAggregation.Proofs.FormulaConstants

namespace ScopedAggregation

namespace Expr

theorem depthOf_le {es : List Expr} {n : Nat} (h : ∀ e ∈ es, e.depth ≤ n) : depthOf es ≤ n := by
  induction es with
  | nil => exact Nat.zero_le n
  | cons e es ih =>
    obtain ⟨he, hes⟩ := List.forall_mem_cons.mp h
    exact Nat.max_le.mpr ⟨he, ih hes⟩

theorem depthIn_le {es : List (Text × Expr)} {n : Nat} (h : ∀ p ∈ es, p.2.depth ≤ n) :
    depthIn es ≤ n := by
  induction es with
  | nil => exact Nat.zero_le n
  | cons p es ih =>
    obtain ⟨hp, hes⟩ := List.forall_mem_cons.mp h
    exact Nat.max_le.mpr ⟨hp, ih hes⟩

theorem depth_single (op : Text) (e : Expr) : (Expr.operator op [e]).depth = 1 + e.depth := by
  simp only [depth, depthOf, Nat.max_zero]

theorem depth_pair (op : Text) (a b : Expr) :
    (Expr.operator op [a, b]).depth = 1 + max a.depth b.depth := by
  simp only [depth, depthOf]
  omega

end Expr

namespace Formula

open Expr (depthOf depthIn depthFrom)

/-- The words that may add a level to a tree: operators, and what opens a bracket. -/
def Lexeme.addsLevel : Lexeme → Bool
  | .openParen | .openBracket | .openBrace => true
  | .plus | .minus | .star | .slash | .percent => true
  | .equal | .notEqual | .less | .greater | .lessEqual | .greaterEqual | .inWord => true
  | .andWord | .orWord | .notWord => true
  | _ => false

/-- How many levels words may add. -/
def levels (ws : List Lexeme) : Nat := ws.countP Lexeme.addsLevel

theorem levels_append (ws us : List Lexeme) : levels (ws ++ us) = levels ws + levels us :=
  List.countP_append

theorem levels_raised {l : Lexeme} (ws : List Lexeme) (hl : l.addsLevel = true) :
    levels (l :: ws) = levels ws + 1 :=
  List.countP_cons_of_pos hl

theorem levels_plain {l : Lexeme} (ws : List Lexeme) (hl : l.addsLevel = false) :
    levels (l :: ws) = levels ws :=
  List.countP_cons_of_neg (by simp [hl])

theorem levels_le_length (ws : List Lexeme) : levels ws ≤ ws.length :=
  List.countP_le_length

/-- A tree of the given depth can be made of the words: each level below the root takes one that may add
it, and another word is left. -/
structure RoomFor (ws : List Lexeme) (depth : Nat) : Prop where
  enough : depth ≤ levels ws + 1
  spare : levels ws < ws.length

namespace RoomFor

variable {l : Lexeme} {ws us : List Lexeme} {m n : Nat}

theorem single (hl : l.addsLevel = false) : RoomFor (l :: ws) 1 := by
  have hlevels := levels_plain ws hl
  have hlength := levels_le_length ws
  exact ⟨by omega, by rw [List.length_cons]; omega⟩

theorem mono (h : RoomFor ws n) (hle : m ≤ n) : RoomFor ws m :=
  ⟨hle.trans h.enough, h.spare⟩

theorem append_right (h : RoomFor ws n) (us : List Lexeme) : RoomFor (ws ++ us) n := by
  have henough := h.enough
  have hspare := h.spare
  have hlength := levels_le_length us
  exact ⟨by rw [levels_append]; omega, by rw [levels_append, List.length_append]; omega⟩

theorem cons (h : RoomFor ws n) (hl : l.addsLevel = false) : RoomFor (l :: ws) n := by
  have henough := h.enough
  have hspare := h.spare
  rw [← levels_plain ws hl] at henough hspare
  exact ⟨henough, by rw [List.length_cons]; omega⟩

theorem raise (h : RoomFor ws n) (hl : l.addsLevel = true) : RoomFor (l :: ws) (1 + n) := by
  have henough := h.enough
  have hspare := h.spare
  have hlevels := levels_raised ws hl
  exact ⟨by omega, by rw [List.length_cons]; omega⟩

/-- Two operands with a sign between them. -/
theorem joined (hw : RoomFor ws m) (hu : RoomFor us n) (hl : l.addsLevel = true) :
    RoomFor (ws ++ l :: us) (1 + max m n) := by
  have hleft := hw.enough
  have hright := hu.enough
  have hspare := (hw.append_right (l :: us)).spare
  refine ⟨?_, hspare⟩
  rw [levels_append, levels_raised us hl]
  omega

/-- What stands between brackets is one level further in. -/
theorem enclosed {o c : Lexeme} (henough : n ≤ levels ws + 1) (ho : o.addsLevel = true)
    (hc : c.addsLevel = false) : RoomFor (o :: (ws ++ [c])) (1 + n) := by
  have hlength := levels_le_length ws
  have hlevels : levels (o :: (ws ++ [c])) = levels ws + 1 := by
    rw [levels_raised _ ho, levels_append, levels_plain [] hc]
    rfl
  refine ⟨by omega, ?_⟩
  rw [hlevels, List.length_cons, List.length_append, List.length_singleton]
  omega

end RoomFor

section

variable {α : Type} {depth : α → Nat} {item : Phrase α} {ws us : List Lexeme} {a : α} {as : List α}

theorem depth_le_append (hfirst : depth a ≤ levels ws + 1)
    (hrest : ∀ b ∈ as, depth b ≤ levels us + 1) :
    ∀ b ∈ a :: as, depth b ≤ levels (ws ++ us) + 1 := by
  rw [levels_append]
  refine List.forall_mem_cons.mpr ⟨by omega, fun b hb => ?_⟩
  have hb := hrest b hb
  omega

theorem Many.depth_le (hm : Many item ws as) (h : ∀ {vs a}, item vs a → depth a ≤ levels vs + 1) :
    ∀ a ∈ as, depth a ≤ levels ws + 1 := by
  induction hm with
  | nil => exact List.forall_mem_nil _
  | cons first _ ih => exact depth_le_append (h first) ih

theorem Many.depth_le_after {l : Lexeme} (hm : Many (After l item) ws as)
    (h : ∀ {vs a}, item vs a → depth a ≤ levels vs + 1) : ∀ a ∈ as, depth a ≤ levels ws + 1 := by
  refine hm.depth_le ?_
  rintro vs a ⟨hi⟩
  exact (h hi).trans (Nat.succ_le_succ (List.sublist_cons_self _ _).countP_le)

theorem CommaList.depth_le (hl : CommaList item ws as)
    (h : ∀ {vs a}, item vs a → depth a ≤ levels vs + 1) : ∀ a ∈ as, depth a ≤ levels ws + 1 := by
  cases hl with
  | nil => exact List.forall_mem_nil _
  | cons first rest => exact depth_le_append (h first) (rest.depth_le_after h)

end

/-- The words of each phrase of the language leave room for its tree. -/
def AllFit (language : Phrase Expr) : Prop :=
  ∀ ⦃ws : List Lexeme⦄ ⦃e : Expr⦄, language ws e → RoomFor ws e.depth

theorem chain_fits {l : Lexeme} {op : String} {item : Phrase Expr} (h : AllFit item)
    (hl : l.addsLevel = true) : AllFit (Chain l op item) := by
  intro ws e hc
  cases hc with
  | single hi => exact h hi
  | joined first rest several =>
    cases rest with
    | nil => exact absurd rfl several
    | @cons vs us a as second others =>
      cases second with
      | @mk vs a hi =>
        have hfirst := (h first).enough
        have hsecond := (h hi).enough
        have hothers : depthOf as ≤ levels us + 1 :=
          Expr.depthOf_le (others.depth_le_after fun hi => (h hi).enough)
        refine ⟨?_, ((h first).append_right _).spare⟩
        -- The word before the second operand stands for the node; the others are to spare.
        rw [levels_append, List.cons_append, levels_raised _ hl, levels_append]
        simp only [Expr.depth, depthOf]
        omega

theorem Joined.fits {sign : Lexeme → String → Prop} {item : Phrase Expr} {left e : Expr}
    {ws us : List Lexeme} (hj : Joined sign item left us e) (hleft : RoomFor ws left.depth)
    (h : AllFit item) (hsign : ∀ l op, sign l op → l.addsLevel = true) : RoomFor (ws ++ us) e.depth := by
  induction hj generalizing ws with
  | done => exact hleft.append_right []
  | @next left right e l op vs us signed operand _ ih =>
    have hnode : RoomFor (ws ++ l :: vs) (Expr.operator (text op) [left, right]).depth := by
      rw [Expr.depth_pair]
      exact hleft.joined (h operand) (hsign l op signed)
    have hall := ih hnode
    rwa [List.append_assoc, List.cons_append] at hall

theorem leftChain_fits {sign : Lexeme → String → Prop} {item : Phrase Expr} (h : AllFit item)
    (hsign : ∀ l op, sign l op → l.addsLevel = true) : AllFit (LeftChain sign item) := by
  rintro ws e ⟨first, rest⟩
  exact rest.fits (h first) h hsign

section

variable {nested : Phrase Expr} (h : AllFit nested)

include h

theorem mapLiteral_fits {ws : List Lexeme} {entries : List (Text × Expr)}
    (hm : MapLiteral nested ws entries) : RoomFor ws (1 + depthIn entries) := by
  cases hm with
  | mk hl =>
    refine .enclosed (Expr.depthIn_le (hl.depth_le ?_)) rfl rfl
    rintro vs p (⟨hn⟩ | ⟨hn⟩)
    · exact (((h hn).cons rfl).cons rfl).enough
    · exact (((h hn).cons rfl).cons rfl).enough

theorem bracketed_fits {opening closing : Lexeme} {ws : List Lexeme} {es : List Expr}
    (ho : opening.addsLevel = true) (hc : closing.addsLevel = false)
    (hb : Bracketed nested opening closing ws es) : RoomFor ws (1 + depthOf es) := by
  cases hb with
  | mk hl => exact .enclosed (Expr.depthOf_le (hl.depth_le fun hn => (h hn).enough)) ho hc

theorem primary_fits : AllFit (Primary nested) := by
  intro ws e hp
  cases hp with
  | group hn => exact (RoomFor.enclosed (h hn).enough rfl rfl).mono (Nat.le_add_left _ _)
  | array hb => exact bracketed_fits h rfl rfl hb
  | object hm => exact mapLiteral_fits h hm
  | _ => exact .single rfl

omit h in
theorem depthFrom_inputOf (e : Expr) : depthFrom (inputOf e) ≤ e.depth := by
  cases e with
  | field => exact Nat.zero_le _
  | _ => exact Nat.le_refl _

theorem call_fits : AllFit (Call nested) := by
  intro ws e hc
  cases hc with
  | @letIn vs us vars body declared hbody =>
    have hvars := (mapLiteral_fits h declared).enough
    have hinner := (h hbody).enough
    have hlevels : levels (vs ++ .comma :: us) = levels vs + levels us := by
      rw [levels_append, levels_plain us rfl]
    have hbracket : RoomFor (.openParen :: ((vs ++ .comma :: us) ++ [.closeParen]))
        (1 + max (depthIn vars) body.depth) := .enclosed (by omega) rfl rfl
    rw [List.append_assoc, List.cons_append] at hbracket
    exact hbracket.cons rfl
  | @map ws input body item hb =>
    have hinput := depthFrom_inputOf input
    refine ((bracketed_fits h rfl rfl hb).cons rfl).mono ?_
    simp only [Expr.depth, depthOf]
    omega
  | @filter ws input cond item hb =>
    have hinput := depthFrom_inputOf input
    refine ((bracketed_fits h rfl rfl hb).cons rfl).mono ?_
    simp only [Expr.depth, depthOf]
    omega
  | @reduce ws input initial body hb =>
    have hinput := depthFrom_inputOf input
    refine ((bracketed_fits h rfl rfl hb).cons rfl).mono ?_
    simp only [Expr.depth, depthOf]
    omega
  | operator _ _ hb => exact (bracketed_fits h rfl rfl hb).cons rfl

theorem Indexed.fits {e full : Expr} {ws us : List Lexeme} (hi : Indexed nested e us full)
    (he : RoomFor ws e.depth) : RoomFor (ws ++ us) full.depth := by
  induction hi generalizing ws with
  | done => exact he.append_right []
  | @next e index full vs us hn _ ih =>
    have hnode : RoomFor (ws ++ .openBracket :: (vs ++ [.closeBracket]))
        (Expr.operator (text "$arrayElemAt") [e, index]).depth := by
      rw [Expr.depth_pair]
      exact he.joined ((h hn).append_right _) rfl
    have hall := ih hnode
    rwa [List.append_assoc, List.cons_append, List.append_assoc] at hall

theorem operand_fits : AllFit (Operand nested) := by
  intro ws e ho
  cases ho with
  | call hc hi => exact hi.fits h (call_fits h hc)
  | primary hp hi => exact hi.fits h (primary_fits h hp)

theorem signed_fits : AllFit (Signed nested) := by
  intro ws e hs
  induction hs with
  | int => exact ((RoomFor.single rfl).raise rfl).mono (Nat.le_add_left _ _)
  | float => exact ((RoomFor.single rfl).raise rfl).mono (Nat.le_add_left _ _)
  | @minus ws e _ _ ih =>
    have henough := ih.enough
    have hboth : RoomFor ws (max 1 e.depth) := ⟨by omega, ih.spare⟩
    rw [Expr.depth_pair]
    exact hboth.raise rfl
  | operand ho => exact operand_fits h ho

theorem sum_fits : AllFit (Sum nested) := by
  have product : ∀ l op, ProductSign l op → l.addsLevel = true := by
    rintro l op (_ | _ | _) <;> rfl
  have sum : ∀ l op, SumSign l op → l.addsLevel = true := by
    rintro l op (_ | _) <;> rfl
  exact leftChain_fits (leftChain_fits (signed_fits h) product) sum

theorem comparison_fits : AllFit (Comparison nested) := by
  have comparison : ∀ l op, ComparisonSign l op → l.addsLevel = true := by
    rintro l op (_ | _ | _ | _ | _ | _) <;> rfl
  intro ws e hc
  cases hc with
  | sum hs => exact sum_fits h hs
  | compared signed first second =>
    rw [Expr.depth_pair]
    exact (sum_fits h first).joined (sum_fits h second) (comparison _ _ signed)
  | member first second =>
    rw [Expr.depth_pair]
    exact (sum_fits h first).joined (sum_fits h second) rfl
  | @notMember ws us left right first second =>
    have hleft := (sum_fits h first).enough
    have hright := (sum_fits h second).enough
    refine ⟨?_, ((sum_fits h first).append_right _).spare⟩
    rw [Expr.depth_single, Expr.depth_pair, levels_append, levels_raised _ rfl, levels_raised _ rfl]
    omega

theorem negation_fits : AllFit (Negation nested) := by
  intro ws e hn
  induction hn with
  | not _ ih =>
    rw [Expr.depth_single]
    exact ih.raise rfl
  | comparison hc => exact comparison_fits h hc

end

theorem sentence_fits (n : Nat) : AllFit (Sentence n) := by
  induction n with
  | zero =>
    intro ws e h
    exact h.elim
  | succ n ih => exact chain_fits (chain_fits (negation_fits ih) rfl) rfl

/-- Each byte begins at most one word, and the end is one more. -/
theorem length_tokensAfter_le {skip pos : Nat} {s : Text} {ts : List Token}
    (h : tokensAfter skip pos s = .ok ts) : ts.length ≤ s.length + 1 := by
  induction s generalizing skip pos ts with
  | nil => cases skip <;> cases h <;> exact Nat.le_refl 1
  | cons b s ih =>
    rw [List.length_cons]
    cases skip with
    | succ skip => exact (ih h).trans (Nat.le_succ _)
    | zero =>
      rw [tokensAfter] at h
      split at h
      next => exact (ih h).trans (Nat.le_succ _)
      next =>
        obtain ⟨⟨t, width⟩, -, h⟩ := bind_eq_ok.mp h
        obtain ⟨ts', hts, h⟩ := bind_eq_ok.mp h
        cases h
        exact Nat.succ_le_succ (ih hts)

/-- The words of a formula leave room for its tree, and there are no more words than bytes. -/
theorem parse_room {s : Text} {e : Expr} (h : parse s = .ok e) :
    ∃ ts, tokenize s = .ok ts ∧ e.depth ≤ levels (ts.map Token.lexeme) + 1 ∧
      levels (ts.map Token.lexeme) < s.length := by
  obtain ⟨ts, ws, hts, hwords, -, hsentence⟩ := parse_words h
  have hroom := sentence_fits _ hsentence
  have hspare := hroom.spare
  have hlevels : levels (ts.map Token.lexeme) = levels ws := by
    rw [hwords, levels_append]
    rfl
  have hlength : ws.length + 1 = ts.length := by
    rw [← List.length_map (f := Token.lexeme), hwords, List.length_append, List.length_singleton]
  have hbytes := length_tokensAfter_le hts
  exact ⟨ts, hts, hlevels ▸ hroom.enough, by omega⟩

theorem parse_isGuarded {s : Text} {e : Expr} (h : parse s = .ok e) : e.IsGuarded := by
  apply Expr.isGuarded_of_own
  refine (parse_written h).mono fun e he => ?_
  cases e with
  | faulty => exact he.elim
  | _ => trivial

/-- A field behind the given number of minus signs. -/
def negatedText (n : Nat) : Text := List.replicate n Ascii.minus ++ text "a"

def negatedWords (n : Nat) : List Lexeme := List.replicate n .minus ++ [.ident (text "a")]

def negatedTree : Nat → Expr
  | 0 => .field (text "a")
  | n + 1 => .operator (text "$multiply") [.literal (.int (-1)), negatedTree n]

theorem negatedText_length (n : Nat) : (negatedText n).length = n + 1 := by
  rw [negatedText, List.length_append, List.length_replicate]
  rfl

theorem negatedTree_depth (n : Nat) : (negatedTree n).depth = n + 1 := by
  induction n with
  | zero => rfl
  | succ n ih =>
    rw [negatedTree, Expr.depth_pair, ih]
    show 1 + max 1 (n + 1) = n + 2
    omega

theorem negatedText_spells (n pos : Nat) :
    ∃ ts rest, tokensAfter 0 pos (negatedText n) = .ok ts ∧ Spells ts (negatedWords n) rest ∧
      (current rest).lexeme = .eof := by
  induction n generalizing pos with
  | zero => exact ⟨_, _, rfl, ⟨nofun, rfl, rfl⟩, rfl⟩
  | succ n ih =>
    obtain ⟨ts, rest, hts, hspells, hend⟩ := ih (pos + 1)
    have hall : tokensAfter 0 pos (negatedText (n + 1)) =
        .ok (⟨.minus, [Ascii.minus], pos⟩ :: ts) := by
      rw [negatedText, List.replicate_succ, List.cons_append, tokensAfter_minus]
      exact congrArg (Except.map _) hts
    exact ⟨_, rest, hall, ⟨nofun, rfl, hspells⟩, hend⟩

theorem negatedTree_signed {nested : Phrase Expr} (n : Nat) :
    Signed nested (negatedWords n) (negatedTree n) := by
  induction n with
  | zero =>
    have hfield : Operand nested ([.ident (text "a")] ++ []) (.field (text "a")) :=
      .primary (.field .done) .done
    exact .operand hfield
  | succ n ih =>
    refine .minus ih ?_
    cases n with
    | zero => rfl
    | succ n => rfl

theorem leftChain_single {sign : Lexeme → String → Prop} {item : Phrase Expr} {ws : List Lexeme}
    {e : Expr} (h : item ws e) : LeftChain sign item ws e := by
  have hall : LeftChain sign item (ws ++ []) e := .mk h .done
  rwa [List.append_nil] at hall

theorem sentence_of_signed {n : Nat} {ws : List Lexeme} {e : Expr} (h : Signed (Sentence n) ws e) :
    Sentence (n + 1) ws e :=
  .single (.single (.comparison (.sum (leftChain_single (leftChain_single h)))))

theorem parse_negatedText {n : Nat} (hn : n < maxLength) :
    parse (negatedText n) = .ok (negatedTree n) := by
  obtain ⟨ts, rest, hts, hspells, hend⟩ := negatedText_spells n 0
  have hlength : (negatedText n).length ≤ maxLength := by
    rw [negatedText_length]
    exact hn
  have hsentence : Sentence maxNesting (negatedWords n) (negatedTree n) :=
    sentence_of_signed (negatedTree_signed n)
  have hread := expression_complete _ hsentence hspells (by rw [hend]; decide)
  rw [parse_of_tokenize hlength hts]
  refine bind_eq_ok.mpr ⟨_, hread, ?_⟩
  dsimp only
  rw [if_pos hend]
  rfl

/-- Signs that reach below the limit end the rendering at a factor minus one. -/
theorem render_negatedTree {limit above n : Nat} (ctx : Context) (hlow : above < limit)
    (hdeep : limit < above + (n + 1)) :
    (negatedTree n).render limit ctx above =
      .error { cause := .tooDeep limit, node := text "literal" } := by
  induction n generalizing above with
  | zero => omega
  | succ n ih =>
    have hnode : checkDepth limit above (text "$multiply") = .ok () := checkDepth_eq_ok.mpr hlow
    rw [negatedTree, Expr.render, hnode, ok_bind, renderAll, renderAll, Expr.render]
    by_cases hfactor : above + 1 < limit
    · have hfits : checkDepth limit (above + 1) (text "literal") = .ok () :=
        checkDepth_eq_ok.mpr hfactor
      rw [hfits, ih hfactor (by omega)]
      rfl
    · rw [checkDepth, if_neg hfactor]
      rfl

theorem compile_negatedTree {n : Nat} (c : Compiler) (ctx : Context) (hlow : 0 < c.maxDepth)
    (hdeep : c.maxDepth < n + 1) :
    (c.compile (some (negatedTree n)) ctx).1 =
      .error { cause := .tooDeep c.maxDepth, node := text "literal" } := by
  have given : negatedTree n ≠ .absent := by cases n <;> nofun
  rw [Compiler.compile_given c ctx given, render_negatedTree ctx hlow (by omega)]

/-- The tree of a formula is no deeper than its operators and opening brackets make it, and never deeper
than the formula is long. A compiler whose limit it fits into does not fail for reasons of depth. No
smaller bound in the length holds: of each length there is a formula that is as deep as it is long. -/
theorem parse_depth_bounded {s : Text} {e : Expr} (h : parse s = .ok e) :
    (∃ ts, tokenize s = .ok ts ∧ e.depth ≤ levels (ts.map Token.lexeme) + 1) ∧
      e.depth ≤ s.length ∧ s.length ≤ maxLength ∧
      (∀ (c : Compiler) (ctx : Context) (error : CompileError), e.depth ≤ c.maxDepth →
        (c.compile (some e) ctx).1 = .error error → error.kind ≠ .depthExceeded) ∧
      ∀ n, 0 < n → n ≤ maxLength → ∃ s' e', s'.length = n ∧ parse s' = .ok e' ∧ e'.depth = n ∧
        ∀ (c : Compiler) (ctx : Context), 0 < c.maxDepth → c.maxDepth < n →
          (c.compile (some e') ctx).1 =
            .error { cause := .tooDeep c.maxDepth, node := text "literal" } := by
  obtain ⟨ts, hts, hlevels, hbytes⟩ := parse_room h
  refine ⟨⟨ts, hts, hlevels⟩, by omega, length_le_of_parse h, ?_, ?_⟩
  · intro c ctx error hfits herror
    exact Compiler.compile_quiet (parse_isGuarded h) hfits herror
  · intro n hpositive hn
    obtain ⟨m, rfl⟩ : ∃ m, n = m + 1 := ⟨n - 1, by omega⟩
    exact ⟨negatedText m, negatedTree m, negatedText_length m, parse_negatedText hn,
      negatedTree_depth m, compile_negatedTree⟩

/-- An element with a sign, doubled and compared. -/
def doubledElement : Expr :=
  .operator (text "$lt") [
    .operator (text "$multiply") [
      .operator (text "$multiply") [
        .literal (.int (-1)),
        .operator (text "$arrayElemAt") [.field (text "a"), .field (text "i")]],
      .literal (.int 2)],
    .literal (.int 3)]

theorem doubledElement_bounded :
    parse (text "-a[i] * 2 < 3") = .ok doubledElement ∧ doubledElement.depth = 5 ∧
      ∀ ctx error, (({} : Compiler).compile (some doubledElement) ctx).1 = .error error →
        error.kind ≠ .depthExceeded := by
  have hread : parse (text "-a[i] * 2 < 3") = .ok doubledElement := rfl
  have hbounded := parse_depth_bounded hread
  exact ⟨hread, by decide, fun ctx error => hbounded.2.2.2.1 {} ctx error (by decide)⟩

/-- The limits on formulas do not keep their trees within the standard limit of the compiler. -/
theorem negatedText_too_deep :
    parse (negatedText 256) = .ok (negatedTree 256) ∧
      ({} : Compiler).maxDepth < (negatedTree 256).depth ∧
      ∃ error, (({} : Compiler).compile (some (negatedTree 256)) .root).1 = .error error ∧
        error.kind = .depthExceeded := by
  have hdepth := negatedTree_depth 256
  have hcompile := compile_negatedTree (n := 256) {} .root (by decide) (by decide)
  exact ⟨parse_negatedText (by decide), by rw [hdepth]; decide, _, hcompile, rfl⟩

end Formula

end ScopedAggregation
