import ScopedAggregation.Proofs.FormulaGrammar

namespace ScopedAggregation.Formula

open ScopedAggregation.Expr (IsVariableName)

/-- The words of `ts` are `ws`, none of them the end, and then those of `rest`. -/
def Spells : List Token → List Lexeme → List Token → Prop
  | ts, [], rest => ts = rest
  | ts, l :: ws, rest => l ≠ .eof ∧ (current ts).lexeme = l ∧ Spells ts.tail ws rest

theorem Spells.cons {l : Lexeme} {ts rest : List Token} {ws : List Lexeme} (hl : l ≠ .eof)
    (hc : (current ts).lexeme = l) (h : Spells ts.tail ws rest) : Spells ts (l :: ws) rest :=
  ⟨hl, hc, h⟩

theorem spells_append {ts rest : List Token} {ws us : List Lexeme} :
    Spells ts (ws ++ us) rest ↔ ∃ mid, Spells ts ws mid ∧ Spells mid us rest := by
  induction ws generalizing ts with
  | nil => simp [Spells]
  | cons l ws ih =>
    simp only [List.cons_append, Spells, ih]
    constructor
    · rintro ⟨hl, hc, mid, hw, hu⟩
      exact ⟨mid, ⟨hl, hc, hw⟩, hu⟩
    · rintro ⟨mid, ⟨hl, hc, hw⟩, hu⟩
      exact ⟨hl, hc, mid, hw, hu⟩

theorem Spells.append {ts mid rest : List Token} {ws us : List Lexeme} (hw : Spells ts ws mid)
    (hu : Spells mid us rest) : Spells ts (ws ++ us) rest :=
  spells_append.mpr ⟨mid, hw, hu⟩

theorem current_cons (t : Token) (ts : List Token) : current (t :: ts) = t := rfl

theorem eq_cons_of_current {ts : List Token} (h : (current ts).lexeme ≠ .eof) :
    ts = current ts :: ts.tail := by
  cases ts with
  | nil => exact absurd rfl h
  | cons t ts => rfl

theorem Spells.exists_cons {l : Lexeme} {ts rest : List Token} {ws : List Lexeme}
    (h : Spells ts (l :: ws) rest) :
    ∃ t tail, ts = t :: tail ∧ t.lexeme = l ∧ Spells tail ws rest := by
  obtain ⟨hl, rfl, hs⟩ := h
  exact ⟨current ts, ts.tail, eq_cons_of_current hl, rfl, hs⟩

theorem Spells.length_le {ts rest : List Token} {ws : List Lexeme} (h : Spells ts ws rest) :
    ws.length ≤ ts.length := by
  induction ws generalizing ts with
  | nil => simp
  | cons l ws ih =>
    obtain ⟨t, tail, rfl, _, hs⟩ := h.exists_cons
    have hle := ih hs
    simp only [List.length_cons]
    omega

/-- What a rule reads is in a language, and it reads nothing else. -/
def Sound {α : Type} (rule : List Token → Except Fault (Read α)) (language : Phrase α) : Prop :=
  ∀ ⦃ts : List Token⦄ ⦃a : α⦄ ⦃rest : List Token⦄, rule ts = .ok (a, rest) →
    ∃ ws, Spells ts ws rest ∧ language ws a

theorem take_eq_ok {l : Lexeme} {ts rest : List Token} {u : Unit} (hl : l ≠ .eof) :
    take l ts = .ok (u, rest) ↔ Spells ts [l] rest := by
  unfold take
  split
  next hc => simp [Spells, hl, hc]
  next hc => simp [Spells, hc]

theorem take_current {l : Lexeme} {ts : List Token} (h : (current ts).lexeme = l) :
    take l ts = .ok ((), ts.tail) := by
  rw [take, if_pos h]

theorem reading_eq_ok {α : Type} {what : String} {x : Except Fault (Read α)} {r : Read α} :
    reading what x = .ok r ↔ x = .ok r := by
  cases x with
  | ok a => simp [reading]
  | error fault => simp [reading]

theorem built_eq_ok {x : Except CompileError Expr} {e : Expr} {ts rest : List Token} :
    built x ts = .ok (e, rest) ↔ x = .ok e ∧ ts = rest := by
  cases x with
  | ok a => simp [built]
  | error error => simp [built]

theorem operands_sound {l : Lexeme} {rule : Rule} {item : Phrase Expr} (hl : l ≠ .eof)
    (h : Sound rule item) (n : Nat) : Sound (operands l rule n) (Many (After l item)) := by
  induction n with
  | zero =>
    intro ts es rest hr
    cases hr
    exact ⟨[], rfl, .nil⟩
  | succ n ih =>
    intro ts es rest hr
    simp only [operands] at hr
    split at hr
    next hc =>
      obtain ⟨⟨e, mid⟩, he, hr⟩ := bind_eq_ok.mp hr
      obtain ⟨⟨tail, last⟩, ht, hr⟩ := bind_eq_ok.mp hr
      cases hr
      obtain ⟨ws, hw, hi⟩ := h he
      obtain ⟨us, hu, hm⟩ := ih ht
      exact ⟨l :: ws ++ us, (Spells.cons hl hc hw).append hu, .cons (.mk hi) hm⟩
    next =>
      cases hr
      exact ⟨[], rfl, .nil⟩

theorem chain_sound {l : Lexeme} {op : String} {rule : Rule} {item : Phrase Expr} (hl : l ≠ .eof)
    (h : Sound rule item) : Sound (chain l op rule) (Chain l op item) := by
  intro ts full rest hr
  obtain ⟨⟨e, mid⟩, he, hr⟩ := bind_eq_ok.mp hr
  obtain ⟨⟨es, last⟩, hes, hr⟩ := bind_eq_ok.mp hr
  obtain ⟨ws, hw, hi⟩ := h he
  obtain ⟨us, hu, hm⟩ := operands_sound hl h _ hes
  cases es with
  | nil =>
    cases hr
    cases hm
    rw [Spells] at hu
    exact ⟨ws, hu ▸ hw, .single hi⟩
  | cons e' es =>
    cases hr
    exact ⟨ws ++ us, hw.append hu, .joined hi hm (by simp)⟩

/-- A table of signs agrees with a relation between words and operators. -/
def Signs (table : Lexeme → Option String) (sign : Lexeme → String → Prop) : Prop :=
  ∀ l op, table l = some op ↔ sign l op

theorem joinLeft_sound {table : Lexeme → Option String} {sign : Lexeme → String → Prop}
    {rule : Rule} {item : Phrase Expr} (signs : Signs table sign) (hend : table .eof = none)
    (h : Sound rule item) (n : Nat) (left : Expr) :
    Sound (joinLeft table rule n left) (Joined sign item left) := by
  induction n generalizing left with
  | zero =>
    intro ts e rest hr
    cases hr
    exact ⟨[], rfl, .done⟩
  | succ n ih =>
    intro ts e rest hr
    simp only [joinLeft] at hr
    split at hr
    next =>
      cases hr
      exact ⟨[], rfl, .done⟩
    next op hop =>
      obtain ⟨⟨right, mid⟩, he, hr⟩ := bind_eq_ok.mp hr
      obtain ⟨ws, hw, hi⟩ := h he
      obtain ⟨us, hu, hj⟩ := ih _ hr
      have hl : (current ts).lexeme ≠ .eof := by
        intro hc
        rw [hc, hend] at hop
        cases hop
      exact ⟨_, .cons hl rfl (hw.append hu), .next ((signs _ _).mp hop) hi hj⟩

theorem leftChain_sound {table : Lexeme → Option String} {sign : Lexeme → String → Prop}
    {rule : Rule} {item : Phrase Expr} (signs : Signs table sign) (hend : table .eof = none)
    (h : Sound rule item) : Sound (leftChain table rule) (LeftChain sign item) := by
  intro ts e rest hr
  obtain ⟨⟨left, mid⟩, hl, hr⟩ := bind_eq_ok.mp hr
  obtain ⟨ws, hw, hi⟩ := h hl
  obtain ⟨us, hu, hj⟩ := joinLeft_sound signs hend h _ _ hr
  exact ⟨ws ++ us, hw.append hu, .mk hi hj⟩

theorem pathAfter_sound (n : Nat) (path : Text) : Sound (pathAfter n path) (Segments path) := by
  induction n generalizing path with
  | zero =>
    intro ts full rest hr
    cases hr
    exact ⟨[], rfl, .done⟩
  | succ n ih =>
    intro ts full rest hr
    simp only [pathAfter] at hr
    split at hr
    next hdot =>
      split at hr
      next name hname =>
        obtain ⟨ws, hw, hs⟩ := ih _ hr
        exact ⟨_, .cons (by simp) hdot (.cons (by simp) hname hw), .next hs⟩
      next => simp at hr
    next =>
      cases hr
      exact ⟨[], rfl, .done⟩

/-- The rest of a list: its first element, if it has one, follows a comma unless it is the first of
all. -/
def ListTail {α : Type} (item : Phrase α) (first : Bool) : Phrase (List α) :=
  if first then CommaList item else Many (After .comma item)

theorem ListTail.nil {α : Type} {item : Phrase α} (first : Bool) : ListTail item first [] [] := by
  cases first with
  | true => exact CommaList.nil
  | false => exact Many.nil

/-- A separator where one is needed, then an element, then the rest. -/
theorem ListTail.cons {α : Type} {item : Phrase α} {first : Bool} {what : String} {u : Unit}
    {ts start mid rest : List Token} {ws us : List Lexeme} {a : α} {as : List α}
    (separated : separator first what ts = .ok (u, start))
    (hw : Spells start ws mid) (hu : Spells mid us rest) (hi : item ws a)
    (ht : ListTail item false us as) :
    ∃ vs, Spells ts vs rest ∧ ListTail item first vs (a :: as) := by
  cases first with
  | true =>
    cases separated
    exact ⟨ws ++ us, hw.append hu, CommaList.cons hi ht⟩
  | false =>
    have hs := (take_eq_ok (by simp)).mp (reading_eq_ok.mp separated)
    exact ⟨.comma :: ws ++ us, (hs.append hw).append hu, Many.cons (.mk hi) ht⟩

theorem itemsUntil_sound {α : Type} {close : Lexeme} {what : String}
    {rule : List Token → Except Fault (Read α)} {item : Phrase α} (h : Sound rule item) (n : Nat)
    (first : Bool) : Sound (itemsUntil close what rule n first) (ListTail item first) := by
  induction n generalizing first with
  | zero =>
    intro ts as rest hr
    cases hr
    exact ⟨[], rfl, .nil first⟩
  | succ n ih =>
    intro ts as rest hr
    simp only [itemsUntil] at hr
    split at hr
    next =>
      cases hr
      exact ⟨[], rfl, .nil first⟩
    next =>
      obtain ⟨⟨u, start⟩, hstart, hr⟩ := bind_eq_ok.mp hr
      obtain ⟨⟨a, mid⟩, ha, hr⟩ := bind_eq_ok.mp hr
      obtain ⟨⟨tail, last⟩, ht, hr⟩ := bind_eq_ok.mp hr
      cases hr
      obtain ⟨ws, hw, hi⟩ := h ha
      obtain ⟨us, hu, hm⟩ := ih false ht
      exact ListTail.cons hstart hw hu hi hm

theorem bracketed_sound {opening closing : Lexeme} {rule : Rule} {nested : Phrase Expr}
    (ho : opening ≠ .eof) (hc : closing ≠ .eof) (h : Sound rule nested) :
    Sound (bracketed opening closing rule) (Bracketed nested opening closing) := by
  intro ts es rest hr
  obtain ⟨⟨u, start⟩, hopen, hr⟩ := bind_eq_ok.mp hr
  obtain ⟨⟨elements, mid⟩, hes, hr⟩ := bind_eq_ok.mp hr
  obtain ⟨⟨v, last⟩, hclose, hr⟩ := bind_eq_ok.mp hr
  cases hr
  obtain ⟨ws, hw, hl⟩ := itemsUntil_sound h _ true hes
  have hs := (take_eq_ok ho).mp hopen
  have ht := (take_eq_ok hc).mp hclose
  exact ⟨_, hs.append (hw.append ht), .mk hl⟩

theorem entry_sound {rule : Rule} {nested : Phrase Expr} (h : Sound rule nested) :
    Sound (entry rule) (Entry nested) := by
  intro ts a rest hr
  obtain ⟨⟨key, next⟩, hkey, hr⟩ := bind_eq_ok.mp hr
  obtain ⟨⟨u, start⟩, hcolon, hr⟩ := bind_eq_ok.mp hr
  obtain ⟨⟨e, last⟩, he, hr⟩ := bind_eq_ok.mp hr
  cases hr
  obtain ⟨ws, hw, hn⟩ := h he
  have hs := (take_eq_ok (by simp)).mp (reading_eq_ok.mp hcolon)
  unfold entryKey at hkey
  split at hkey
  next name hname =>
    cases hkey
    exact ⟨_, .cons (by simp) hname (hs.append hw), .named hn⟩
  next key hname =>
    cases hkey
    exact ⟨_, .cons (by simp) hname (hs.append hw), .quoted hn⟩
  next => simp at hkey

theorem mapEntries_sound {rule : Rule} {nested : Phrase Expr} (h : Sound rule nested) :
    Sound (mapEntries rule) (MapLiteral nested) := by
  intro ts es rest hr
  obtain ⟨⟨u, start⟩, hopen, hr⟩ := bind_eq_ok.mp hr
  obtain ⟨⟨entries, mid⟩, hes, hr⟩ := bind_eq_ok.mp hr
  obtain ⟨⟨v, last⟩, hclose, hr⟩ := bind_eq_ok.mp hr
  cases hr
  obtain ⟨ws, hw, hl⟩ := itemsUntil_sound (entry_sound h) _ true hes
  have hs := (take_eq_ok (by simp)).mp hopen
  have ht := (take_eq_ok (by simp)).mp (reading_eq_ok.mp hclose)
  exact ⟨_, hs.append (hw.append ht), .mk hl⟩

theorem map_some_injective :
    Function.Injective (List.map fun p : Text × Expr => (p.1, some p.2)) := by
  refine List.map_injective_iff.mpr ?_
  rintro ⟨name, e⟩ ⟨name', e'⟩ h
  simpa using h

theorem letCall_sound {rule : Rule} {nested : Phrase Expr} (h : Sound rule nested)
    {ts rest : List Token} {e : Expr} (hr : letCall rule ts = .ok (e, rest)) :
    ∃ ws, Spells ts (.openParen :: ws) rest ∧
      Call nested (.ident (text "let") :: .openParen :: ws) e := by
  obtain ⟨⟨u, start⟩, hopen, hr⟩ := bind_eq_ok.mp hr
  dsimp only at hr
  split at hr
  next =>
    obtain ⟨⟨vars, after⟩, hvars, hr⟩ := bind_eq_ok.mp hr
    obtain ⟨⟨v, mid⟩, hcomma, hr⟩ := bind_eq_ok.mp hr
    obtain ⟨⟨body, last⟩, hbody, hr⟩ := bind_eq_ok.mp hr
    obtain ⟨⟨w, last⟩, hclose, hr⟩ := bind_eq_ok.mp hr
    obtain ⟨hdefine, rfl⟩ := built_eq_ok.mp hr
    obtain ⟨accepted, b, hv, ⟨hb, _⟩, hnames, hnodup, rfl⟩ := Expr.define_eq_ok.mp hdefine
    cases map_some_injective hv
    cases hb
    obtain ⟨ws, hw, hl⟩ := mapEntries_sound h hvars
    obtain ⟨us, hu, hn⟩ := h hbody
    have ho := (take_eq_ok (by simp)).mp hopen
    have hc := (take_eq_ok (by simp)).mp (reading_eq_ok.mp hcomma)
    have ht := (take_eq_ok (by simp)).mp (reading_eq_ok.mp hclose)
    exact ⟨_, ho.append (hw.append (hc.append (hu.append ht))),
      .letIn hl hn (fun p hp => (hnames p hp).1) hnodup⟩
  next => simp at hr

theorem itemName_eq_ok {kind item : Text} {e : Expr} :
    itemName kind e = .ok item ↔ e = .field item ∧ Ascii.dot ∉ item := by
  unfold itemName
  split
  next path =>
    split
    next hdot => grind
    next hdot => grind
  next => simp_all

theorem inputOf_eq_field {e : Expr} {path : Text} : inputOf e = .field path ↔ e = .field path := by
  unfold inputOf
  split
  next => simp
  next => simp_all

theorem iteration_sound {nested : Phrase Expr} {name : Text} {input second body e : Expr}
    {ts rest : List Token} {ws : List Lexeme}
    (hname : name = text "map" ∨ name = text "filter" ∨ name = text "reduce")
    (h : Bracketed nested .openParen .closeParen ws [input, second, body])
    (hr : iteration name input second body ts = .ok (e, rest)) :
    ts = rest ∧ Call nested (.ident name :: ws) e := by
  unfold iteration at hr
  split at hr
  next hreduce =>
    obtain ⟨haccepted, rfl⟩ := built_eq_ok.mp hr
    obtain ⟨s, i, b, ⟨hs, hne⟩, ⟨hi, _⟩, ⟨hb, _⟩, rfl⟩ := Expr.reduceItems_eq_ok.mp haccepted
    cases hs
    cases hi
    cases hb
    subst hreduce
    exact ⟨rfl, .reduce h fun hf => hne (inputOf_eq_field.mpr hf)⟩
  next hreduce =>
    obtain ⟨item, hitem, hbuild⟩ := bind_eq_ok.mp hr
    obtain ⟨rfl, _⟩ := itemName_eq_ok.mp hitem
    split at hbuild
    next hmap =>
      obtain ⟨haccepted, rfl⟩ := built_eq_ok.mp hbuild
      obtain ⟨s, b, ⟨hs, hne, hn, hb, _⟩, rfl⟩ := Expr.mapItems_eq_ok.mp haccepted
      cases hs
      cases hb
      subst hmap
      exact ⟨rfl, .map h (fun hf => hne (inputOf_eq_field.mpr hf)) hn⟩
    next hmap =>
      obtain ⟨haccepted, rfl⟩ := built_eq_ok.mp hbuild
      obtain ⟨s, b, ⟨hs, hne, hn, hb, _⟩, rfl⟩ := Expr.filterItems_eq_ok.mp haccepted
      cases hs
      cases hb
      obtain rfl : name = text "filter" := by tauto
      exact ⟨rfl, .filter h (fun hf => hne (inputOf_eq_field.mpr hf)) hn⟩

theorem call_sound {rule : Rule} {nested : Phrase Expr} (h : Sound rule nested) {name : Text}
    {pos : Nat} {ts rest : List Token} {e : Expr} (hr : call rule name pos ts = .ok (e, rest)) :
    ∃ ws, Spells ts ws rest ∧ Call nested (.ident name :: ws) e := by
  have hargs := @bracketed_sound .openParen .closeParen rule nested (by simp) (by simp) h
  unfold call at hr
  split at hr
  next hlet =>
    subst hlet
    obtain ⟨ws, hw, hc⟩ := letCall_sound h hr
    exact ⟨_, hw, hc⟩
  next hlet =>
    split at hr
    next hname =>
      obtain ⟨⟨args, last⟩, ha, hr⟩ := bind_eq_ok.mp hr
      obtain ⟨ws, hw, hb⟩ := hargs ha
      dsimp only at hr
      split at hr
      next =>
        obtain ⟨rfl, hc⟩ := iteration_sound (by simpa [or_assoc] using hname) hb hr
        exact ⟨ws, hw, hc⟩
      next => simp at hr
    next hname =>
      split at hr
      next => simp at hr
      next arity hop =>
        obtain ⟨⟨args, last⟩, ha, hr⟩ := bind_eq_ok.mp hr
        obtain ⟨ws, hw, hb⟩ := hargs ha
        dsimp only at hr
        split at hr
        next hcount =>
          cases hr
          refine ⟨ws, hw, .operator ?_ hop hb hcount⟩
          simpa [constructNames, hlet, or_assoc] using hname
        next => simp at hr

/-- A word that stands for something by itself. -/
theorem spells_single {ts : List Token} {l : Lexeme} (hl : l ≠ .eof)
    (hc : (current ts).lexeme = l) : Spells ts [l] ts.tail :=
  .cons hl hc rfl

theorem primary_sound {rule : Rule} {nested : Phrase Expr} (h : Sound rule nested) :
    Sound (primary rule) (Primary nested) := by
  intro ts e rest hr
  dsimp only [primary] at hr
  cases hc : (current ts).lexeme with rw [hc] at hr
  | int n =>
    cases hr
    exact ⟨_, spells_single (by simp) hc, .int⟩
  | float x =>
    cases hr
    exact ⟨_, spells_single (by simp) hc, .float⟩
  | string s =>
    cases hr
    exact ⟨_, spells_single (by simp) hc, .string⟩
  | trueWord =>
    cases hr
    exact ⟨_, spells_single (by simp) hc, .trueWord⟩
  | falseWord =>
    cases hr
    exact ⟨_, spells_single (by simp) hc, .falseWord⟩
  | nullWord =>
    cases hr
    exact ⟨_, spells_single (by simp) hc, .nullWord⟩
  | ident name =>
    obtain ⟨⟨path, last⟩, hp, hr⟩ := bind_eq_ok.mp hr
    cases hr
    obtain ⟨ws, hw, hs⟩ := pathAfter_sound _ _ hp
    exact ⟨_, .cons (by simp) hc hw, .field hs⟩
  | «variable» name =>
    obtain ⟨⟨path, last⟩, hp, hr⟩ := bind_eq_ok.mp hr
    cases hr
    obtain ⟨ws, hw, hs⟩ := pathAfter_sound _ _ hp
    exact ⟨_, .cons (by simp) hc hw, .var hs⟩
  | openParen =>
    obtain ⟨⟨inner, mid⟩, hi, hr⟩ := bind_eq_ok.mp hr
    obtain ⟨⟨u, last⟩, hclose, hr⟩ := bind_eq_ok.mp hr
    cases hr
    obtain ⟨ws, hw, hn⟩ := h hi
    have ht := (take_eq_ok (by simp)).mp (reading_eq_ok.mp hclose)
    exact ⟨_, .cons (by simp) hc (hw.append ht), .group hn⟩
  | openBracket =>
    obtain ⟨⟨es, last⟩, hes, hr⟩ := bind_eq_ok.mp hr
    cases hr
    obtain ⟨ws, hw, hb⟩ := bracketed_sound (by simp) (by simp) h hes
    exact ⟨ws, hw, .array hb⟩
  | openBrace =>
    obtain ⟨⟨entries, last⟩, hes, hr⟩ := bind_eq_ok.mp hr
    obtain ⟨ws, hw, hm⟩ := mapEntries_sound h hes
    rcases Expr.objectOf_entries entries with ⟨ho, hnodup⟩ | ⟨⟨error, ho⟩, _⟩
    · simp only [ho] at hr
      cases hr
      exact ⟨ws, hw, .object hm hnodup⟩
    · simp [ho] at hr
  | _ => cases hr

theorem indexed_sound {rule : Rule} {nested : Phrase Expr} (h : Sound rule nested) (n : Nat)
    (e : Expr) : Sound (indexed rule n e) (Indexed nested e) := by
  induction n generalizing e with
  | zero =>
    intro ts full rest hr
    cases hr
    exact ⟨[], rfl, .done⟩
  | succ n ih =>
    intro ts full rest hr
    simp only [indexed] at hr
    split at hr
    next hc =>
      obtain ⟨⟨index, mid⟩, hi, hr⟩ := bind_eq_ok.mp hr
      obtain ⟨⟨u, after⟩, hclose, hr⟩ := bind_eq_ok.mp hr
      obtain ⟨ws, hw, hn⟩ := h hi
      have ht := (take_eq_ok (by simp)).mp (reading_eq_ok.mp hclose)
      obtain ⟨us, hu, hrest⟩ := ih _ hr
      exact ⟨_, .cons (by simp) hc (hw.append (ht.append hu)), .next hn hrest⟩
    next =>
      cases hr
      exact ⟨[], rfl, .done⟩

theorem operand_sound {rule : Rule} {nested : Phrase Expr} (h : Sound rule nested) :
    Sound (operand rule) (Operand nested) := by
  intro ts full rest hr
  obtain ⟨⟨e, mid⟩, ha, hr⟩ := bind_eq_ok.mp hr
  obtain ⟨us, hu, hi⟩ := indexed_sound h _ _ hr
  unfold atom at ha
  split at ha
  next name hc _ =>
    obtain ⟨ws, hw, hcall⟩ := call_sound h ha
    exact ⟨_, (Spells.cons (by simp) hc hw).append hu, .call hcall hi⟩
  next =>
    obtain ⟨ws, hw, hp⟩ := primary_sound h ha
    exact ⟨_, hw.append hu, .primary hp hi⟩

theorem startsWithNumber_of_spells {ts rest : List Token} {ws : List Lexeme}
    (h : Spells ts ws rest) (hint : ∀ n, (current ts).lexeme ≠ .int n)
    (hfloat : ∀ x, (current ts).lexeme ≠ .float x) : startsWithNumber ws = false := by
  cases ws with
  | nil => rfl
  | cons l ws =>
    obtain ⟨_, hc, _⟩ := h
    rw [hc] at hint hfloat
    cases l with
    | int n => exact absurd rfl (hint n)
    | float x => exact absurd rfl (hfloat x)
    | _ => rfl

theorem signed_sound {rule : Rule} {nested : Phrase Expr} (h : Sound rule nested) :
    Sound (signed rule) (Signed nested) := by
  intro ts
  induction ts with
  | nil =>
    intro e rest hr
    obtain ⟨ws, hw, ho⟩ := operand_sound h hr
    exact ⟨ws, hw, .operand ho⟩
  | cons t ts ih =>
    intro e rest hr
    simp only [signed] at hr
    split at hr
    next hminus =>
      split at hr
      next n hc =>
        cases hr
        exact ⟨_, .cons (by simp) hminus (spells_single (by simp) hc), .int⟩
      next x hc =>
        cases hr
        exact ⟨_, .cons (by simp) hminus (spells_single (by simp) hc), .float⟩
      next hint hfloat =>
        obtain ⟨⟨inner, last⟩, hi, hr⟩ := bind_eq_ok.mp hr
        cases hr
        obtain ⟨ws, hw, hs⟩ := ih hi
        have hnumber := startsWithNumber_of_spells hw hint hfloat
        exact ⟨_, .cons (by simp) hminus hw, .minus hs hnumber⟩
    next =>
      obtain ⟨ws, hw, ho⟩ := operand_sound h hr
      exact ⟨ws, hw, .operand ho⟩

theorem productSign_signs : Signs productSign ProductSign := by
  intro l op
  constructor
  · intro h
    cases l with
    | star | slash | percent =>
      cases h
      constructor
    | _ => cases h
  · rintro (_ | _ | _) <;> rfl

theorem sumSign_signs : Signs sumSign SumSign := by
  intro l op
  constructor
  · intro h
    cases l with
    | plus | minus =>
      cases h
      constructor
    | _ => cases h
  · rintro (_ | _) <;> rfl

theorem comparisonSign_signs : Signs comparisonSign ComparisonSign := by
  intro l op
  constructor
  · intro h
    cases l with
    | equal | notEqual | less | greater | lessEqual | greaterEqual =>
      cases h
      constructor
    | _ => cases h
  · rintro (_ | _ | _ | _ | _ | _) <;> rfl

theorem sum_sound {rule : Rule} {nested : Phrase Expr} (h : Sound rule nested) :
    Sound (sum rule) (Sum nested) := by
  have hproduct : Sound (product rule) (Product nested) :=
    leftChain_sound productSign_signs rfl (signed_sound h)
  exact leftChain_sound sumSign_signs rfl hproduct

theorem comparison_sound {rule : Rule} {nested : Phrase Expr} (h : Sound rule nested) :
    Sound (comparison rule) (Comparison nested) := by
  intro ts e rest hr
  obtain ⟨⟨left, mid⟩, hl, hr⟩ := bind_eq_ok.mp hr
  obtain ⟨ws, hw, hfirst⟩ := sum_sound h hl
  dsimp only at hr
  split at hr
  next op hop =>
    obtain ⟨⟨right, last⟩, hright, hr⟩ := bind_eq_ok.mp hr
    cases hr
    obtain ⟨us, hu, hsecond⟩ := sum_sound h hright
    have hend : (current mid).lexeme ≠ .eof := by
      intro hc
      rw [hc] at hop
      cases hop
    exact ⟨_, hw.append (.cons hend rfl hu),
      .compared ((comparisonSign_signs _ _).mp hop) hfirst hsecond⟩
  next =>
    split at hr
    next hin =>
      obtain ⟨⟨right, last⟩, hright, hr⟩ := bind_eq_ok.mp hr
      cases hr
      obtain ⟨us, hu, hsecond⟩ := sum_sound h hright
      exact ⟨_, hw.append (.cons (by simp) hin hu), .member hfirst hsecond⟩
    next hnot hin =>
      obtain ⟨⟨right, last⟩, hright, hr⟩ := bind_eq_ok.mp hr
      cases hr
      obtain ⟨us, hu, hsecond⟩ := sum_sound h hright
      exact ⟨_, hw.append (.cons (by simp) hnot (.cons (by simp) hin hu)),
        .notMember hfirst hsecond⟩
    next =>
      cases hr
      exact ⟨ws, hw, .sum hfirst⟩

theorem negation_sound {rule : Rule} {nested : Phrase Expr} (h : Sound rule nested) :
    Sound (negation rule) (Negation nested) := by
  intro ts
  induction ts with
  | nil =>
    intro e rest hr
    obtain ⟨ws, hw, hc⟩ := comparison_sound h hr
    exact ⟨ws, hw, .comparison hc⟩
  | cons t ts ih =>
    intro e rest hr
    simp only [negation] at hr
    split at hr
    next hnot =>
      obtain ⟨⟨inner, last⟩, hi, hr⟩ := bind_eq_ok.mp hr
      cases hr
      obtain ⟨ws, hw, hn⟩ := ih hi
      have ht : t.lexeme = .notWord := by simp_all
      exact ⟨_, .cons (by simp) ht hw, .not hn⟩
    next =>
      obtain ⟨ws, hw, hc⟩ := comparison_sound h hr
      exact ⟨ws, hw, .comparison hc⟩

/-- An expression that is read is one of the grammar, nested no deeper than allowed. -/
theorem expression_sound (n : Nat) : Sound (expression n) (Sentence n) := by
  induction n with
  | zero =>
    intro ts e rest hr
    simp [expression] at hr
  | succ n ih =>
    have hconjunction : Sound (conjunction (expression n)) (Conjunction (Sentence n)) :=
      chain_sound (by simp) (negation_sound ih)
    intro ts e rest hr
    exact chain_sound (by simp) hconjunction hr

/-- A text that is read spells a sentence, and nothing behind it. -/
theorem parse_sound {s : Text} {e : Expr} (h : parse s = .ok e) :
    ∃ ts ws rest, tokenize s = .ok ts ∧ Spells ts ws rest ∧ (current rest).lexeme = .eof ∧
      Sentence maxNesting ws e := by
  unfold parse at h
  split at h
  next => cases h
  next =>
    split at h
    next => cases h
    next ts hts =>
      obtain ⟨⟨e', rest⟩, he, h⟩ := bind_eq_ok.mp h
      dsimp only at h
      split at h
      next hend =>
        cases h
        obtain ⟨ws, hspells, hsentence⟩ := expression_sound _ he
        exact ⟨ts, ws, rest, hts, hspells, hend, hsentence⟩
      next => simp at h

end ScopedAggregation.Formula
