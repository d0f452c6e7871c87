import ScopedAggregation.Proofs.FormulaSoundness

namespace ScopedAggregation.Formula

open ScopedAggregation.Expr (IsVariableName)

namespace Lexeme

/-- The phrases a word can begin: those of operands, of signs and of negations. -/
def startLevel : Lexeme → Nat
  | .int _ | .float _ | .string _ | .trueWord | .falseWord | .nullWord => 0
  | .ident _ | .variable _ | .openParen | .openBracket | .openBrace => 0
  | .minus => 1
  | .notWord => 2
  | _ => 3

/-- The phrases a word can continue, from paths and calls to the loosest ones. -/
def joinLevel : Lexeme → Nat
  | .dot | .openParen => 0
  | .openBracket => 1
  | .star | .slash | .percent => 2
  | .plus | .minus => 3
  | .equal | .notEqual | .less | .greater | .lessEqual | .greaterEqual => 4
  | .inWord | .notWord => 4
  | .andWord => 5
  | .orWord => 6
  | _ => 7

end Lexeme

/-- The first of some words begins phrases of at most the given level. -/
def StartsAt (k : Nat) (ws : List Lexeme) : Prop := ∃ l us, ws = l :: us ∧ l.startLevel ≤ k

theorem StartsAt.append {k : Nat} {ws : List Lexeme} (h : StartsAt k ws) (us : List Lexeme) :
    StartsAt k (ws ++ us) := by
  obtain ⟨l, vs, rfl, hl⟩ := h
  exact ⟨l, vs ++ us, rfl, hl⟩

theorem StartsAt.mono {k m : Nat} {ws : List Lexeme} (h : StartsAt k ws) (hkm : k ≤ m) :
    StartsAt m ws := by
  obtain ⟨l, vs, rfl, hl⟩ := h
  exact ⟨l, vs, rfl, by omega⟩

theorem StartsAt.current_le {k : Nat} {ts rest : List Token} {ws : List Lexeme}
    (h : StartsAt k ws) (hs : Spells ts ws rest) : (current ts).lexeme.startLevel ≤ k := by
  obtain ⟨l, vs, rfl, hl⟩ := h
  rw [hs.2.1]
  exact hl

/-- The phrases of a language begin as they should, and none of them stands for nothing. -/
def Shaped (k : Nat) (language : Phrase Expr) : Prop :=
  ∀ ⦃ws : List Lexeme⦄ ⦃e : Expr⦄, language ws e → StartsAt k ws ∧ e ≠ .absent

theorem chain_shaped {k : Nat} {l : Lexeme} {op : String} {item : Phrase Expr}
    (h : Shaped k item) : Shaped k (Chain l op item) := by
  intro ws e hc
  cases hc with
  | single hi => exact h hi
  | joined first rest several => exact ⟨(h first).1.append _, by simp⟩

theorem Joined.ne_absent {sign : Lexeme → String → Prop} {item : Phrase Expr} {left e : Expr}
    {ws : List Lexeme} (h : Joined sign item left ws e) (hl : left ≠ .absent) : e ≠ .absent := by
  induction h with
  | done => exact hl
  | next _ _ _ ih => exact ih (by simp)

theorem leftChain_shaped {k : Nat} {sign : Lexeme → String → Prop} {item : Phrase Expr}
    (h : Shaped k item) : Shaped k (LeftChain sign item) := by
  intro ws e hc
  cases hc with
  | mk first rest => exact ⟨(h first).1.append _, rest.ne_absent (h first).2⟩

section

variable {nested : Phrase Expr} {k : Nat}

theorem primary_shaped (h : Shaped k nested) : Shaped 0 (Primary nested) := by
  intro ws e hp
  cases hp with
  | group hn => exact ⟨⟨_, _, rfl, Nat.le_refl _⟩, (h hn).2⟩
  | array hb =>
    cases hb
    exact ⟨⟨_, _, rfl, Nat.le_refl _⟩, by simp⟩
  | object hm =>
    cases hm
    exact ⟨⟨_, _, rfl, Nat.le_refl _⟩, by simp⟩
  | _ => exact ⟨⟨_, _, rfl, Nat.le_refl _⟩, by simp⟩

theorem call_shaped : Shaped 0 (Call nested) := by
  intro ws e hc
  cases hc with
  | _ => exact ⟨⟨_, _, rfl, Nat.le_refl _⟩, by simp⟩

theorem Indexed.ne_absent {e full : Expr} {ws : List Lexeme} (h : Indexed nested e ws full)
    (he : e ≠ .absent) : full ≠ .absent := by
  induction h with
  | done => exact he
  | next _ _ ih => exact ih (by simp)

theorem operand_shaped (h : Shaped k nested) : Shaped 0 (Operand nested) := by
  intro ws e ho
  cases ho with
  | call hc hi =>
    have hs := call_shaped hc
    exact ⟨hs.1.append _, hi.ne_absent hs.2⟩
  | primary hp hi =>
    have hs := primary_shaped h hp
    exact ⟨hs.1.append _, hi.ne_absent hs.2⟩

theorem signed_shaped (h : Shaped k nested) : Shaped 1 (Signed nested) := by
  intro ws e hs
  cases hs with
  | operand ho =>
    have hs := operand_shaped h ho
    exact ⟨hs.1.mono (by omega), hs.2⟩
  | _ => exact ⟨⟨_, _, rfl, Nat.le_refl _⟩, by simp⟩

theorem sum_shaped (h : Shaped k nested) : Shaped 1 (Sum nested) :=
  leftChain_shaped (leftChain_shaped (signed_shaped h))

theorem comparison_shaped (h : Shaped k nested) : Shaped 1 (Comparison nested) := by
  intro ws e hc
  cases hc with
  | sum hs => exact sum_shaped h hs
  | compared _ first _ => exact ⟨(sum_shaped h first).1.append _, by simp⟩
  | member first _ => exact ⟨(sum_shaped h first).1.append _, by simp⟩
  | notMember first _ => exact ⟨(sum_shaped h first).1.append _, by simp⟩

theorem negation_shaped (h : Shaped k nested) : Shaped 2 (Negation nested) := by
  intro ws e hn
  cases hn with
  | not hn => exact ⟨⟨_, _, rfl, Nat.le_refl _⟩, by simp⟩
  | comparison hc =>
    have hs := comparison_shaped h hc
    exact ⟨hs.1.mono (by omega), hs.2⟩

end

theorem sentence_shaped (n : Nat) : Shaped 2 (Sentence n) := by
  induction n with
  | zero =>
    intro ws e h
    exact h.elim
  | succ n ih => exact chain_shaped (chain_shaped (negation_shaped ih))

/-- A rule reads every phrase of a language that a word of a higher level follows. -/
def Complete {α : Type} (k : Nat) (rule : List Token → Except Fault (Read α))
    (language : Phrase α) : Prop :=
  ∀ ⦃ts : List Token⦄ ⦃ws : List Lexeme⦄ ⦃a : α⦄ ⦃rest : List Token⦄, language ws a →
    Spells ts ws rest → k < (current rest).lexeme.joinLevel → rule ts = .ok (a, rest)

/-- Behind an item of a chain stands its word or what follows the whole chain. -/
theorem Many.current_after {α : Type} {l : Lexeme} {item : Phrase α} {ws : List Lexeme}
    {as : List α} {ts rest : List Token} {k : Nat} (h : Many (After l item) ws as)
    (hs : Spells ts ws rest) (hl : k < l.joinLevel) (hr : k < (current rest).lexeme.joinLevel) :
    k < (current ts).lexeme.joinLevel := by
  cases h with
  | nil =>
    cases hs
    exact hr
  | cons first _ =>
    cases first with
    | mk hi =>
      rw [hs.2.1]
      exact hl

theorem operands_complete {k : Nat} {l : Lexeme} {rule : Rule} {item : Phrase Expr}
    (h : Complete k rule item) (hk : k < l.joinLevel) {ws : List Lexeme} {es : List Expr}
    (hm : Many (After l item) ws es) :
    ∀ {n : Nat} {ts rest : List Token}, ws.length ≤ n → Spells ts ws rest →
      l.joinLevel < (current rest).lexeme.joinLevel → operands l rule n ts = .ok (es, rest) := by
  induction hm with
  | nil =>
    intro n ts rest _ hs hr
    cases hs
    cases n with
    | zero => rfl
    | succ n =>
      rw [operands, if_neg]
      intro hc
      rw [hc] at hr
      omega
  | @cons vs us e es first rest ih =>
    intro n ts last hn hs hr
    cases first with
    | @mk vs _ hi =>
      obtain ⟨mid, ⟨_, hc, hv⟩, hu⟩ := spells_append.mp hs
      cases n with
      | zero => simp at hn
      | succ n =>
        have he := h hi hv (rest.current_after hu hk (by omega))
        have hlen : us.length ≤ n := by
          simp only [List.cons_append, List.length_cons, List.length_append] at hn
          omega
        have hes := ih hlen hu hr
        rw [operands, if_pos hc]
        exact bind_eq_ok.mpr ⟨_, he, bind_eq_ok.mpr ⟨_, hes, rfl⟩⟩

theorem chain_complete {k : Nat} {l : Lexeme} {op : String} {rule : Rule} {item : Phrase Expr}
    (h : Complete k rule item) (hk : k < l.joinLevel) :
    Complete l.joinLevel (chain l op rule) (Chain l op item) := by
  intro ts ws full rest hc hs hr
  have hall : ∀ {vs us : List Lexeme} {e : Expr} {es : List Expr}, item vs e →
      Many (After l item) us es → Spells ts (vs ++ us) rest →
      chain l op rule ts =
        .ok (if es.isEmpty then e else .operator (text op) (e :: es), rest) := by
    intro vs us e es first hm hs
    obtain ⟨mid, hv, hu⟩ := spells_append.mp hs
    have he := h first hv (hm.current_after hu hk (by omega))
    have hes := operands_complete h hk hm hu.length_le hu hr
    refine bind_eq_ok.mpr ⟨_, he, bind_eq_ok.mpr ⟨_, hes, ?_⟩⟩
    cases es with
    | nil => rfl
    | cons e' es => rfl
  cases hc with
  | single hi => simpa using hall hi .nil (by simpa using hs)
  | joined first hm several =>
    have hes := hall first hm hs
    simpa [several] using hes

/-- The signs of a relation stand at one level. -/
def SignLevel (sign : Lexeme → String → Prop) (m : Nat) : Prop :=
  ∀ l op, sign l op → l.joinLevel = m

theorem Joined.current_after {sign : Lexeme → String → Prop} {m k : Nat} {item : Phrase Expr}
    {left e : Expr} {ws : List Lexeme} {ts rest : List Token} (hm : SignLevel sign m)
    (h : Joined sign item left ws e) (hs : Spells ts ws rest) (hk : k < m)
    (hr : k < (current rest).lexeme.joinLevel) : k < (current ts).lexeme.joinLevel := by
  cases h with
  | done =>
    cases hs
    exact hr
  | next signed _ _ =>
    rw [hs.2.1, hm _ _ signed]
    exact hk

theorem joinLeft_complete {table : Lexeme → Option String} {sign : Lexeme → String → Prop}
    {m k : Nat} {rule : Rule} {item : Phrase Expr} (signs : Signs table sign)
    (hm : SignLevel sign m) (h : Complete k rule item) (hk : k < m) {left e : Expr}
    {ws : List Lexeme} (hj : Joined sign item left ws e) :
    ∀ {n : Nat} {ts rest : List Token}, ws.length ≤ n → Spells ts ws rest →
      m < (current rest).lexeme.joinLevel → joinLeft table rule n left ts = .ok (e, rest) := by
  induction hj with
  | done =>
    intro n ts rest _ hs hr
    cases hs
    cases n with
    | zero => rfl
    | succ n =>
      rw [joinLeft]
      split
      next => rfl
      next op hop =>
        have hl := hm _ _ ((signs _ _).mp hop)
        omega
  | @next left right e l op vs us signed operand rest ih =>
    intro n ts last hn hs hr
    obtain ⟨_, hc, hs⟩ := hs
    obtain ⟨mid, hv, hu⟩ := spells_append.mp hs
    cases n with
    | zero => simp at hn
    | succ n =>
      have he := h operand hv (rest.current_after hm hu hk (by omega))
      have hlen : us.length ≤ n := by
        simp only [List.length_cons, List.length_append] at hn
        omega
      rw [joinLeft, hc, (signs l op).mpr signed]
      exact bind_eq_ok.mpr ⟨_, he, ih hlen hu hr⟩

theorem leftChain_complete {table : Lexeme → Option String} {sign : Lexeme → String → Prop}
    {m k : Nat} {rule : Rule} {item : Phrase Expr} (signs : Signs table sign)
    (hm : SignLevel sign m) (h : Complete k rule item) (hk : k < m) :
    Complete m (leftChain table rule) (LeftChain sign item) := by
  intro ts ws e rest hc hs hr
  cases hc with
  | mk first hj =>
    obtain ⟨mid, hv, hu⟩ := spells_append.mp hs
    have he := h first hv (hj.current_after hm hu hk (by omega))
    exact bind_eq_ok.mpr ⟨_, he, joinLeft_complete signs hm h hk hj hu.length_le hu hr⟩

theorem pathAfter_complete {path full : Text} {ws : List Lexeme} (h : Segments path ws full) :
    ∀ {n : Nat} {ts rest : List Token}, ws.length ≤ n → Spells ts ws rest →
      0 < (current rest).lexeme.joinLevel → pathAfter n path ts = .ok (full, rest) := by
  induction h with
  | done =>
    intro n ts rest _ hs hr
    cases hs
    cases n with
    | zero => rfl
    | succ n =>
      rw [pathAfter, if_neg]
      intro hc
      rw [hc] at hr
      simp [Lexeme.joinLevel] at hr
  | @next path name full us rest ih =>
    intro n ts last hn hs hr
    obtain ⟨_, hdot, _, hname, hs⟩ := hs
    cases n with
    | zero => simp at hn
    | succ n =>
      have hlen : us.length ≤ n := by
        simp only [List.length_cons] at hn
        omega
      rw [pathAfter, if_pos hdot, hname]
      exact ih hlen hs hr

section

variable {α : Type} {close : Lexeme} {what : String} {rule : List Token → Except Fault (Read α)}
  {item : Phrase α}

theorem itemsUntil_complete (h : Complete 6 rule item) (hlevel : close.joinLevel = 7)
    (hcomma : close ≠ .comma) {ws : List Lexeme} {as : List α}
    (hm : Many (After .comma item) ws as) :
    ∀ {n : Nat} {ts rest : List Token}, ws.length ≤ n → Spells ts ws rest →
      (current rest).lexeme = close → itemsUntil close what rule n false ts = .ok (as, rest) := by
  induction hm with
  | nil =>
    intro n ts rest _ hs hr
    cases hs
    cases n with
    | zero => rfl
    | succ n => rw [itemsUntil, if_pos hr]
  | @cons vs us a as first rest ih =>
    intro n ts last hn hs hr
    cases first with
    | @mk vs _ hi =>
      obtain ⟨mid, hv, hu⟩ := spells_append.mp hs
      cases n with
      | zero => simp at hn
      | succ n =>
        have ha := h hi hv.2.2 (rest.current_after hu (by simp [Lexeme.joinLevel]) (by simp [hr, hlevel]))
        have hlen : us.length ≤ n := by
          simp only [List.cons_append, List.length_cons, List.length_append] at hn
          omega
        have hsep : separator false what ts = .ok ((), ts.tail) :=
          reading_eq_ok.mpr (take_current hv.2.1)
        rw [itemsUntil, if_neg (by rw [hv.2.1]; exact hcomma.symm)]
        exact bind_eq_ok.mpr ⟨_, hsep, bind_eq_ok.mpr ⟨_, ha, bind_eq_ok.mpr ⟨_, ih hlen hu hr, rfl⟩⟩⟩

/-- A list is read up to its closing word if no item begins with that word. -/
theorem commaList_complete (h : Complete 6 rule item) (hlevel : close.joinLevel = 7)
    (hcomma : close ≠ .comma)
    (hfirst : ∀ {ws : List Lexeme} {a : α} {ts rest : List Token}, item ws a → Spells ts ws rest →
      (current ts).lexeme ≠ close) :
    ∀ {ws : List Lexeme} {as : List α} {n : Nat} {ts rest : List Token}, CommaList item ws as →
      ws.length ≤ n → Spells ts ws rest → (current rest).lexeme = close →
      itemsUntil close what rule (n + 1) true ts = .ok (as, rest) := by
  intro ws as n ts rest hl hn hs hr
  cases hl with
  | nil =>
    cases hs
    rw [itemsUntil, if_pos hr]
  | @cons vs us a as first hm =>
    obtain ⟨mid, hv, hu⟩ := spells_append.mp hs
    have ha := h first hv (hm.current_after hu (by simp [Lexeme.joinLevel]) (by simp [hr, hlevel]))
    have hlen : us.length ≤ n := by
      simp only [List.length_append] at hn
      omega
    have htail := @itemsUntil_complete α close what rule item h hlevel hcomma us as hm n mid rest
      hlen hu hr
    rw [itemsUntil, if_neg (hfirst first hv)]
    exact bind_eq_ok.mpr ⟨((), ts), rfl, bind_eq_ok.mpr ⟨_, ha, bind_eq_ok.mpr ⟨_, htail, rfl⟩⟩⟩

end

section

variable {rule : Rule} {nested : Phrase Expr}

theorem bracketed_complete {opening closing : Lexeme} (shaped : Shaped 2 nested)
    (h : Complete 6 rule nested) (hlevel : closing.joinLevel = 7)
    (hstart : closing.startLevel = 3) (hcomma : closing ≠ .comma) {ts rest : List Token}
    {ws : List Lexeme} {es : List Expr} (hb : Bracketed nested opening closing ws es)
    (hs : Spells ts ws rest) : bracketed opening closing rule ts = .ok (es, rest) := by
  cases hb with
  | @mk vs _ hl =>
    obtain ⟨_, hc, hs⟩ := hs
    obtain ⟨mid, hv, hclose⟩ := spells_append.mp hs
    have hfirst : ∀ {ws : List Lexeme} {e : Expr} {ts rest : List Token}, nested ws e →
        Spells ts ws rest → (current ts).lexeme ≠ closing := by
      intro ws e ts rest hn hs heq
      have hle := (shaped hn).1.current_le hs
      rw [heq, hstart] at hle
      omega
    have hes := @commaList_complete Expr closing "expected ','" rule nested h hlevel hcomma hfirst
      vs es _ _ _ hl hv.length_le hv hclose.2.1
    have htake : take closing mid = .ok ((), rest) := (take_eq_ok hclose.1).mpr hclose
    exact bind_eq_ok.mpr ⟨_, take_current hc,
      bind_eq_ok.mpr ⟨_, hes, bind_eq_ok.mpr ⟨_, htake, rfl⟩⟩⟩

theorem entry_complete (h : Complete 6 rule nested) : Complete 6 (entry rule) (Entry nested) := by
  intro ts ws p rest he hs hr
  have hentry : ∀ {l : Lexeme} {key : Text} {vs : List Lexeme} {e : Expr},
      entryKey ts = .ok (key, ts.tail) → nested vs e → Spells ts (l :: .colon :: vs) rest →
      entry rule ts = .ok ((key, e), rest) := by
    intro l key vs e hkey hn hs
    obtain ⟨_, _, _, hcolon, hs⟩ := hs
    exact bind_eq_ok.mpr ⟨_, hkey, bind_eq_ok.mpr ⟨_, reading_eq_ok.mpr (take_current hcolon),
      bind_eq_ok.mpr ⟨_, h hn hs hr, rfl⟩⟩⟩
  cases he with
  | named hn => exact hentry (by simp [entryKey, hs.2.1]) hn hs
  | quoted hn => exact hentry (by simp [entryKey, hs.2.1]) hn hs

theorem mapEntries_complete (h : Complete 6 rule nested) {ts rest : List Token}
    {ws : List Lexeme} {entries : List (Text × Expr)} (hm : MapLiteral nested ws entries)
    (hs : Spells ts ws rest) : mapEntries rule ts = .ok (entries, rest) := by
  cases hm with
  | @mk vs _ hl =>
    obtain ⟨_, hc, hs⟩ := hs
    obtain ⟨mid, hv, hclose⟩ := spells_append.mp hs
    have hfirst : ∀ {ws : List Lexeme} {p : Text × Expr} {ts rest : List Token},
        Entry nested ws p → Spells ts ws rest → (current ts).lexeme ≠ .closeBrace := by
      intro ws p ts rest hn hs
      cases hn with
      | _ => simp [hs.2.1]
    have hes := @commaList_complete _ .closeBrace "expected ',' in map literal" (entry rule) _
      (entry_complete h) rfl (by simp) hfirst vs entries _ _ _ hl hv.length_le hv hclose.2.1
    have htake : take .closeBrace mid = .ok ((), rest) := (take_eq_ok hclose.1).mpr hclose
    exact bind_eq_ok.mpr ⟨_, take_current hc, bind_eq_ok.mpr ⟨_, hes,
      bind_eq_ok.mpr ⟨_, reading_eq_ok.mpr htake, rfl⟩⟩⟩

theorem Many.forall_mem {α : Type} {P : α → Prop} {item : Phrase α} {ws : List Lexeme}
    {as : List α} (h : Many item ws as) (hp : ∀ {vs a}, item vs a → P a) : ∀ a ∈ as, P a := by
  induction h with
  | nil => simp
  | cons first _ ih => exact List.forall_mem_cons.mpr ⟨hp first, ih⟩

theorem CommaList.forall_mem {α : Type} {P : α → Prop} {item : Phrase α} {ws : List Lexeme}
    {as : List α} (h : CommaList item ws as) (hp : ∀ {vs a}, item vs a → P a) :
    ∀ a ∈ as, P a := by
  cases h with
  | nil => simp
  | cons first rest =>
    refine List.forall_mem_cons.mpr ⟨hp first, rest.forall_mem ?_⟩
    rintro vs a ⟨hi⟩
    exact hp hi

theorem letCall_complete (shaped : Shaped 2 nested) (h : Complete 6 rule nested)
    {ts rest : List Token} {ws us : List Lexeme} {vars : List (Text × Expr)} {body : Expr}
    (declared : MapLiteral nested ws vars) (hbody : nested us body)
    (names : ∀ p ∈ vars, IsVariableName p.1) (distinct : (vars.map (·.1)).Nodup)
    (hs : Spells ts (.openParen :: (ws ++ .comma :: (us ++ [.closeParen]))) rest) :
    letCall rule ts = .ok (.letIn vars body, rest) := by
  obtain ⟨_, hopen, hs⟩ := hs
  obtain ⟨mid, hw, _, hcomma, hs⟩ := spells_append.mp hs
  obtain ⟨last, hu, _, hclose, hend⟩ := spells_append.mp hs
  cases hend
  have hvars := mapEntries_complete h declared hw
  have hread := h hbody hu (by simp [hclose, Lexeme.joinLevel])
  have hvalues : ∀ p ∈ vars, p.2 ≠ .absent := by
    cases declared with
    | mk hl =>
      refine hl.forall_mem ?_
      rintro vs p (⟨hn⟩ | ⟨hn⟩)
      · exact (shaped hn).2
      · exact (shaped hn).2
  have hdefine : Expr.define (vars.map fun p => (p.1, some p.2)) (some body) =
      .ok (.letIn vars body) :=
    Expr.define_eq_ok.mpr ⟨vars, body, rfl, ⟨rfl, (shaped hbody).2⟩,
      fun p hp => ⟨names p hp, hvalues p hp⟩, distinct, rfl⟩
  have hbrace : (current ts.tail).lexeme = .openBrace := by
    cases declared with
    | mk _ => exact hw.2.1
  refine bind_eq_ok.mpr ⟨_, take_current hopen, ?_⟩
  dsimp only
  rw [if_pos hbrace]
  refine bind_eq_ok.mpr ⟨_, hvars, bind_eq_ok.mpr ⟨_, reading_eq_ok.mpr (take_current hcomma), ?_⟩⟩
  refine bind_eq_ok.mpr ⟨_, hread, bind_eq_ok.mpr ⟨_, reading_eq_ok.mpr (take_current hclose), ?_⟩⟩
  exact built_eq_ok.mpr ⟨hdefine, rfl⟩

theorem inputOf_ne {e : Expr} (h : e ≠ .field []) : inputOf e ≠ .field [] :=
  fun hf => h (inputOf_eq_field.mp hf)

theorem dot_notMem {name : Text} (h : IsVariableName name) : Ascii.dot ∉ name :=
  fun hm => (h.2 _ hm).2 rfl

/-- Three arguments are those of an iteration, if the name is that of one. -/
theorem call_of_three {name : Text} {pos : Nat} {ts rest : List Token} {input second body : Expr}
    (hname : name = text "map" ∨ name = text "filter" ∨ name = text "reduce")
    (hread : bracketed .openParen .closeParen rule ts = .ok ([input, second, body], rest)) :
    call rule name pos ts = iteration name input second body rest := by
  have hlet : name ≠ text "let" := by
    rintro rfl
    exact absurd hname (by decide)
  rw [call, if_neg hlet, if_pos (by simpa [or_assoc] using hname), hread]
  rfl

/-- A call is read from the parenthesis after its name on. -/
theorem call_complete (shaped : Shaped 2 nested) (h : Complete 6 rule nested)
    {ts rest : List Token} {ws : List Lexeme} {e : Expr} (hc : Call nested ws e)
    (hs : Spells ts ws rest) (pos : Nat) :
    ∃ name, (current ts).lexeme = .ident name ∧ (current ts.tail).lexeme = .openParen ∧
      call rule name pos ts.tail = .ok (e, rest) := by
  have hargs : ∀ {us : List Lexeme} {es : List Expr} {mid : List Token},
      Bracketed nested .openParen .closeParen us es → Spells mid us rest →
      (current mid).lexeme = .openParen ∧
        bracketed .openParen .closeParen rule mid = .ok (es, rest) ∧ ∀ e ∈ es, e ≠ .absent := by
    intro us es mid hb hs
    refine ⟨?_, bracketed_complete shaped h rfl rfl (by simp) hb hs, ?_⟩
    · cases hb with
      | mk _ => exact hs.2.1
    · cases hb with
      | mk hl => exact hl.forall_mem fun hn => (shaped hn).2
  cases hc with
  | letIn declared hbody names distinct =>
    refine ⟨_, hs.2.1, hs.2.2.2.1, ?_⟩
    rw [call, if_pos rfl]
    exact letCall_complete shaped h declared hbody names distinct hs.2.2
  | @map us input body item hb given name =>
    obtain ⟨hopen, hread, hpresent⟩ := hargs hb hs.2.2
    have hbuild : Expr.mapItems (some (inputOf input)) item (some body) =
        .ok (.map (inputOf input) item body) :=
      Expr.mapItems_eq_ok.mpr ⟨_, _, ⟨rfl, inputOf_ne given, name, rfl, hpresent _ (by simp)⟩, rfl⟩
    refine ⟨_, hs.2.1, hopen, ?_⟩
    rw [call_of_three (.inl rfl) hread, iteration, if_neg (by decide)]
    refine bind_eq_ok.mpr ⟨item, itemName_eq_ok.mpr ⟨rfl, dot_notMem name⟩, ?_⟩
    rw [if_pos rfl]
    exact built_eq_ok.mpr ⟨hbuild, rfl⟩
  | @filter us input cond item hb given name =>
    obtain ⟨hopen, hread, hpresent⟩ := hargs hb hs.2.2
    have hbuild : Expr.filterItems (some (inputOf input)) item (some cond) =
        .ok (.filter (inputOf input) item cond) :=
      Expr.filterItems_eq_ok.mpr
        ⟨_, _, ⟨rfl, inputOf_ne given, name, rfl, hpresent _ (by simp)⟩, rfl⟩
    refine ⟨_, hs.2.1, hopen, ?_⟩
    rw [call_of_three (.inr (.inl rfl)) hread, iteration, if_neg (by decide)]
    refine bind_eq_ok.mpr ⟨item, itemName_eq_ok.mpr ⟨rfl, dot_notMem name⟩, ?_⟩
    rw [if_neg (by decide)]
    exact built_eq_ok.mpr ⟨hbuild, rfl⟩
  | @reduce us input initial body hb given =>
    obtain ⟨hopen, hread, hpresent⟩ := hargs hb hs.2.2
    have hbuild : Expr.reduceItems (some (inputOf input)) (some initial) (some body) =
        .ok (.reduce (inputOf input) initial body) :=
      Expr.reduceItems_eq_ok.mpr ⟨_, _, _, ⟨rfl, inputOf_ne given⟩, ⟨rfl, hpresent _ (by simp)⟩,
        ⟨rfl, hpresent _ (by simp)⟩, rfl⟩
    refine ⟨_, hs.2.1, hopen, ?_⟩
    rw [call_of_three (.inr (.inr rfl)) hread, iteration, if_pos rfl]
    exact built_eq_ok.mpr ⟨hbuild, rfl⟩
  | @operator name arity us args ordinary known hb accepted =>
    obtain ⟨hopen, hread, _⟩ := hargs hb hs.2.2
    simp only [constructNames, List.mem_cons, List.not_mem_nil, or_false, not_or] at ordinary
    obtain ⟨hlet, hmap, hfilter, hreduce⟩ := ordinary
    refine ⟨_, hs.2.1, hopen, ?_⟩
    rw [call, if_neg hlet, if_neg (by simp [hmap, hfilter, hreduce]), known]
    refine bind_eq_ok.mpr ⟨_, hread, ?_⟩
    dsimp only
    rw [if_pos accepted]
    rfl

theorem primary_complete (shaped : Shaped 2 nested) (h : Complete 6 rule nested) :
    Complete 0 (primary rule) (Primary nested) := by
  intro ts ws e rest hp hs hr
  cases hp with
  | field segments =>
    have hlen := Nat.le_trans hs.2.2.length_le (List.tail_sublist ts).length_le
    have hpath := pathAfter_complete segments hlen hs.2.2 hr
    simp only [primary, hs.2.1]
    exact bind_eq_ok.mpr ⟨_, hpath, rfl⟩
  | var segments =>
    have hlen := Nat.le_trans hs.2.2.length_le (List.tail_sublist ts).length_le
    have hpath := pathAfter_complete segments hlen hs.2.2 hr
    simp only [primary, hs.2.1]
    exact bind_eq_ok.mpr ⟨_, hpath, rfl⟩
  | group hn =>
    obtain ⟨mid, hv, _, hclose, hend⟩ := spells_append.mp hs.2.2
    cases hend
    have hread := h hn hv (by simp [hclose, Lexeme.joinLevel])
    simp only [primary, hs.2.1]
    exact bind_eq_ok.mpr ⟨_, hread,
      bind_eq_ok.mpr ⟨_, reading_eq_ok.mpr (take_current hclose), rfl⟩⟩
  | array hb =>
    have hread := bracketed_complete shaped h rfl rfl (by simp) hb hs
    have hopen : (current ts).lexeme = .openBracket := by
      cases hb with
      | mk _ => exact hs.2.1
    simp only [primary, hopen]
    exact bind_eq_ok.mpr ⟨_, hread, rfl⟩
  | @object _ entries hm distinct =>
    have hread := mapEntries_complete h hm hs
    have hopen : (current ts).lexeme = .openBrace := by
      cases hm with
      | mk _ => exact hs.2.1
    have hobject : Expr.objectOf (entries.map (·.1)) (entries.map fun p => some p.2) =
        .object entries := by
      rcases Expr.objectOf_entries entries with ⟨ho, _⟩ | ⟨_, hn⟩
      · exact ho
      · exact absurd distinct hn
    simp only [primary, hopen]
    refine bind_eq_ok.mpr ⟨_, hread, ?_⟩
    dsimp only
    rw [hobject]
    rfl
  | _ =>
    obtain ⟨_, hc, hend⟩ := hs
    cases hend
    simp only [primary, hc]

theorem Indexed.current_after {e full : Expr} {ws : List Lexeme} {ts rest : List Token}
    (h : Indexed nested e ws full) (hs : Spells ts ws rest)
    (hr : 1 < (current rest).lexeme.joinLevel) : 0 < (current ts).lexeme.joinLevel := by
  cases h with
  | done =>
    cases hs
    omega
  | next _ _ => simp [hs.2.1, Lexeme.joinLevel]

theorem indexed_complete (h : Complete 6 rule nested) {e full : Expr} {ws : List Lexeme}
    (hi : Indexed nested e ws full) :
    ∀ {n : Nat} {ts rest : List Token}, ws.length ≤ n → Spells ts ws rest →
      1 < (current rest).lexeme.joinLevel → indexed rule n e ts = .ok (full, rest) := by
  induction hi with
  | done =>
    intro n ts rest _ hs hr
    cases hs
    cases n with
    | zero => rfl
    | succ n =>
      rw [indexed, if_neg]
      intro hc
      simp [hc, Lexeme.joinLevel] at hr
  | @next e index full vs us hn rest ih =>
    intro n ts last hlen hs hr
    obtain ⟨_, hopen, hs⟩ := hs
    obtain ⟨mid, hv, _, hclose, hu⟩ := spells_append.mp hs
    cases n with
    | zero => simp at hlen
    | succ n =>
      have hread := h hn hv (by simp [hclose, Lexeme.joinLevel])
      have hless : us.length ≤ n := by
        simp only [List.length_cons, List.length_append] at hlen
        omega
      rw [indexed, if_pos hopen]
      exact bind_eq_ok.mpr ⟨_, hread,
        bind_eq_ok.mpr ⟨_, reading_eq_ok.mpr (take_current hclose), ih hless hu hr⟩⟩

/-- A name that is a path is not followed by a parenthesis. -/
theorem Primary.not_call {ts rest : List Token} {ws : List Lexeme} {e : Expr}
    (h : Primary nested ws e) (hs : Spells ts ws rest) (hr : 0 < (current rest).lexeme.joinLevel)
    (name : Text) (hc : (current ts).lexeme = .ident name) :
    (current ts.tail).lexeme ≠ .openParen := by
  intro hopen
  cases h with
  | field segments =>
    obtain ⟨_, _, hs⟩ := hs
    cases segments with
    | done =>
      cases hs
      simp [hopen, Lexeme.joinLevel] at hr
    | next _ => simp [hs.2.1] at hopen
  | array hb =>
    cases hb
    simp [hs.2.1] at hc
  | object hm _ =>
    cases hm
    simp [hs.2.1] at hc
  | _ => simp [hs.2.1] at hc

theorem operand_complete (shaped : Shaped 2 nested) (h : Complete 6 rule nested) :
    Complete 1 (operand rule) (Operand nested) := by
  intro ts ws full rest ho hs hr
  cases ho with
  | @call vs us e _ hc hi =>
    obtain ⟨mid, hv, hu⟩ := spells_append.mp hs
    obtain ⟨name, hname, hopen, hcall⟩ := call_complete shaped h hc hv (current ts).pos
    have hatom : atom rule ts = .ok (e, mid) := by
      simp only [atom, hname, hopen]
      exact hcall
    exact bind_eq_ok.mpr ⟨_, hatom, indexed_complete h hi hu.length_le hu hr⟩
  | @primary vs us e _ hp hi =>
    obtain ⟨mid, hv, hu⟩ := spells_append.mp hs
    have hfollow := hi.current_after hu hr
    have hatom : atom rule ts = .ok (e, mid) := by
      unfold atom
      split
      next name hname hopen => exact absurd hopen (hp.not_call hv hfollow name hname)
      next => exact primary_complete shaped h hp hv hfollow
    exact bind_eq_ok.mpr ⟨_, hatom, indexed_complete h hi hu.length_le hu hr⟩

theorem signed_complete (shaped : Shaped 2 nested) (h : Complete 6 rule nested) :
    Complete 1 (signed rule) (Signed nested) := by
  intro ts ws e rest hsigned
  induction hsigned generalizing ts with
  | int =>
    intro hs _
    obtain ⟨t, ts, rfl, hc, _, hn, hend⟩ := hs.exists_cons
    cases hend
    rw [signed, if_pos hc]
    simp only [hn]
  | float =>
    intro hs _
    obtain ⟨t, ts, rfl, hc, _, hn, hend⟩ := hs.exists_cons
    cases hend
    rw [signed, if_pos hc]
    simp only [hn]
  | @minus ws e hsigned number ih =>
    intro hs hr
    obtain ⟨t, ts, rfl, hc, hs⟩ := hs.exists_cons
    have he := ih hs hr
    obtain ⟨⟨l, us, rfl, _⟩, _⟩ := signed_shaped shaped hsigned
    rw [signed, if_pos hc]
    split
    next n hn =>
      rw [← hs.2.1, hn] at number
      simp [startsWithNumber] at number
    next x hx =>
      rw [← hs.2.1, hx] at number
      simp [startsWithNumber] at number
    next => exact bind_eq_ok.mpr ⟨_, he, rfl⟩
  | operand ho =>
    intro hs hr
    have hread := operand_complete shaped h ho hs hr
    have hle := (operand_shaped shaped ho).1.current_le hs
    cases ts with
    | nil => exact hread
    | cons t ts =>
      rw [signed, if_neg]
      · exact hread
      · intro ht
        rw [current_cons, ht] at hle
        exact absurd hle (by decide)

theorem productSign_level : SignLevel ProductSign 2 := by
  rintro l op (_ | _ | _) <;> rfl

theorem sumSign_level : SignLevel SumSign 3 := by
  rintro l op (_ | _) <;> rfl

theorem comparisonSign_level : SignLevel ComparisonSign 4 := by
  rintro l op (_ | _ | _ | _ | _ | _) <;> rfl

theorem sum_complete (shaped : Shaped 2 nested) (h : Complete 6 rule nested) :
    Complete 3 (sum rule) (Sum nested) := by
  have hproduct : Complete 2 (product rule) (Product nested) :=
    leftChain_complete productSign_signs productSign_level (signed_complete shaped h) (by omega)
  exact leftChain_complete sumSign_signs sumSign_level hproduct (by omega)

theorem comparison_complete (shaped : Shaped 2 nested) (h : Complete 6 rule nested) :
    Complete 4 (comparison rule) (Comparison nested) := by
  have hsum := sum_complete shaped h
  intro ts ws e rest hc hs hr
  cases hc with
  | sum he =>
    refine bind_eq_ok.mpr ⟨_, hsum he hs (by omega), ?_⟩
    dsimp only
    split
    next op hop =>
      have hl := comparisonSign_level _ _ ((comparisonSign_signs _ _).mp hop)
      omega
    next =>
      split
      next hin => simp [hin, Lexeme.joinLevel] at hr
      next hnot _ => simp [hnot, Lexeme.joinLevel] at hr
      next => rfl
  | @compared vs us left right l op signed first second =>
    obtain ⟨mid, hv, _, hl, hu⟩ := spells_append.mp hs
    have hlevel := comparisonSign_level _ _ signed
    have hleft := hsum first hv (by rw [hl]; omega)
    refine bind_eq_ok.mpr ⟨_, hleft, ?_⟩
    dsimp only
    rw [hl, (comparisonSign_signs l op).mpr signed]
    exact bind_eq_ok.mpr ⟨_, hsum second hu (by omega), rfl⟩
  | member first second =>
    obtain ⟨mid, hv, _, hl, hu⟩ := spells_append.mp hs
    have hleft := hsum first hv (by simp [hl, Lexeme.joinLevel])
    refine bind_eq_ok.mpr ⟨_, hleft, ?_⟩
    dsimp only
    rw [hl]
    exact bind_eq_ok.mpr ⟨_, hsum second hu (by omega), rfl⟩
  | notMember first second =>
    obtain ⟨mid, hv, _, hl, _, hin, hu⟩ := spells_append.mp hs
    have hleft := hsum first hv (by simp [hl, Lexeme.joinLevel])
    refine bind_eq_ok.mpr ⟨_, hleft, ?_⟩
    dsimp only
    rw [hl, hin]
    exact bind_eq_ok.mpr ⟨_, hsum second hu (by omega), rfl⟩

theorem negation_complete (shaped : Shaped 2 nested) (h : Complete 6 rule nested) :
    Complete 4 (negation rule) (Negation nested) := by
  intro ts ws e rest hn
  induction hn generalizing ts with
  | not hn ih =>
    intro hs hr
    obtain ⟨t, ts, rfl, hc, hs⟩ := hs.exists_cons
    have he := ih hs hr
    have hle := (negation_shaped shaped hn).1.current_le hs
    have hin : (current ts).lexeme ≠ .inWord := by
      intro hin
      rw [hin] at hle
      exact absurd hle (by decide)
    rw [negation, if_pos (by simp [hc, hin])]
    exact bind_eq_ok.mpr ⟨_, he, rfl⟩
  | comparison hcomparison =>
    intro hs hr
    have hread := comparison_complete shaped h hcomparison hs hr
    have hle := (comparison_shaped shaped hcomparison).1.current_le hs
    cases ts with
    | nil => exact hread
    | cons t ts =>
      rw [negation, if_neg]
      · exact hread
      · intro ht
        have hnot : t.lexeme = .notWord := by simp_all
        rw [current_cons, hnot] at hle
        exact absurd hle (by decide)

end

/-- Every expression of the grammar is read where a word follows that continues none. -/
theorem expression_complete (n : Nat) : Complete 6 (expression n) (Sentence n) := by
  induction n with
  | zero =>
    intro ts ws e rest h
    exact h.elim
  | succ n ih =>
    have hnegation := negation_complete (sentence_shaped n) ih
    have hconjunction : Complete 5 (conjunction (expression n)) (Conjunction (Sentence n)) :=
      chain_complete hnegation (by simp [Lexeme.joinLevel])
    intro ts ws e rest he hs hr
    exact chain_complete hconjunction (by simp [Lexeme.joinLevel]) he hs hr

/-- The words before the end are the only ones that are followed by it. -/
theorem spells_to_end {ts : List Token} {ws : List Lexeme} :
    (∃ rest, Spells ts ws rest ∧ (current rest).lexeme = .eof) ↔
      (ts.map Token.lexeme).takeWhile (· ≠ .eof) = ws := by
  induction ts generalizing ws with
  | nil =>
    cases ws with
    | nil => simp [Spells, current]
    | cons l ws =>
      refine iff_of_false ?_ (by simp)
      rintro ⟨rest, ⟨hl, hc, _⟩, _⟩
      exact hl hc.symm
  | cons t ts ih =>
    by_cases ht : t.lexeme = .eof
    · cases ws with
      | nil => simp [Spells, ht, current_cons]
      | cons l ws =>
        refine iff_of_false ?_ (by simp [ht])
        rintro ⟨rest, ⟨hl, hc, _⟩, _⟩
        exact hl (hc.symm.trans ht)
    · cases ws with
      | nil => simp [Spells, ht, current_cons]
      | cons l ws =>
        rw [List.map_cons, List.takeWhile_cons_of_pos (by simpa using ht), List.cons.injEq, ← ih]
        constructor
        · rintro ⟨rest, ⟨_, hc, hs⟩, hend⟩
          exact ⟨hc, rest, hs, hend⟩
        · rintro ⟨rfl, rest, hs, hend⟩
          exact ⟨rest, ⟨ht, rfl, hs⟩, hend⟩

/-- Reading all the words before the end gives a tree exactly if the grammar derives it. -/
theorem parseTokens_iff_sentence (ts : List Token) (e : Expr) :
    parseTokens ts = .ok e ↔
      Sentence maxNesting ((ts.map Token.lexeme).takeWhile (· ≠ .eof)) e := by
  constructor
  · intro h
    obtain ⟨⟨e', rest⟩, he, h⟩ := bind_eq_ok.mp h
    dsimp only at h
    split at h
    next hend =>
      cases h
      obtain ⟨ws, hs, hg⟩ := expression_sound _ he
      rw [spells_to_end.mp ⟨rest, hs, hend⟩]
      exact hg
    next => simp at h
  · intro h
    obtain ⟨rest, hs, hend⟩ := spells_to_end.mpr (Eq.refl ((ts.map Token.lexeme).takeWhile (· ≠ .eof)))
    have he := expression_complete _ h hs (by simp [hend, Lexeme.joinLevel])
    refine bind_eq_ok.mpr ⟨_, he, ?_⟩
    dsimp only
    rw [if_pos hend]
    rfl

end ScopedAggregation.Formula
