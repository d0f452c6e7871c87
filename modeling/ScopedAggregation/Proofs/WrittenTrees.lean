import ScopedAggregation.Proofs.DefinitionReading
import ScopedAggregation.Proofs.FormulaCompleteness
import ScopedAggregation.Proofs.ReferenceScope

namespace ScopedAggregation

namespace Expr

/-- A node as it can be written. -/
def IsWritten : Expr → Prop
  | .absent => False
  | .raw _ => False
  | .faulty _ => False
  | .operator op args => isReference op = true ∧ reservedOperators.contains op = false ∧
    (arityOf? op).all (·.accepts args.length) = true
  | .object entries => (entries.map (·.1)).Nodup
  | .letIn vars _ => (∀ p ∈ vars, isReference p.1 = false) ∧ (vars.map (·.1)).Nodup
  | _ => True

end Expr

namespace Formula

open Expr (Every IsWritten)

/-- The trees of the language are made of nodes that can be written. -/
def Written (language : Phrase Expr) : Prop :=
  ∀ ⦃ws : List Lexeme⦄ ⦃e : Expr⦄, language ws e → e.Every IsWritten

/-- The operator accepts the number of arguments. -/
def Takes (op : String) (n : Nat) : Prop :=
  isReference (text op) = true ∧ reservedOperators.contains (text op) = false ∧
    (arityOf? (text op)).all (·.accepts n) = true

instance (op : String) (n : Nat) : Decidable (Takes op n) := by
  unfold Takes
  infer_instance

theorem every_operator {op : String} {args : List Expr} (h : Takes op args.length)
    (below : ∀ e ∈ args, e.Every IsWritten) : (Expr.operator (text op) args).Every IsWritten :=
  .node h below

theorem every_leaf {e : Expr} (here : e.IsWritten) (leaf : e.children = []) :
    e.Every IsWritten := by
  refine .node here ?_
  rw [leaf]
  simp

theorem every_single {op : String} {e : Expr} (h : Takes op 1) (he : e.Every IsWritten) :
    (Expr.operator (text op) [e]).Every IsWritten :=
  every_operator h (by simpa using he)

theorem every_pair {op : String} {left right : Expr} (h : Takes op 2) (hl : left.Every IsWritten)
    (hr : right.Every IsWritten) : (Expr.operator (text op) [left, right]).Every IsWritten :=
  every_operator h (by simp [hl, hr])

/-- An operator that is called by name is known by its own name too. -/
theorem operatorNamed?_written {name : Text} {arity : Arity} {args : List Expr}
    (known : operatorNamed? name = some arity) (accepted : arity.accepts args.length = true) :
    (Expr.operator arity.op args).IsWritten := by
  have table : ∀ p ∈ operators, isReference p.2.op = true ∧
      reservedOperators.contains p.2.op = false ∧ arityOf? p.2.op = some p.2 := by decide
  obtain ⟨before, after, hsplit, -⟩ := List.lookup_eq_some_iff.mp known
  obtain ⟨sigil, ordinary, hfound⟩ := table (name, arity) (by simp [hsplit])
  refine ⟨sigil, ordinary, ?_⟩
  rw [hfound]
  exact accepted

theorem chain_written {l : Lexeme} {op : String} {item : Phrase Expr} (h : Written item)
    (takes : ∀ n, Takes op (n + 1)) : Written (Chain l op item) := by
  intro ws e hc
  cases hc with
  | single hi => exact h hi
  | joined first rest =>
    refine every_operator (takes _) (List.forall_mem_cons.mpr ⟨h first, ?_⟩)
    refine rest.forall_mem ?_
    rintro vs a ⟨hi⟩
    exact h hi

theorem Joined.written {sign : Lexeme → String → Prop} {item : Phrase Expr} {left e : Expr}
    {ws : List Lexeme} (hj : Joined sign item left ws e) (h : Written item)
    (takes : ∀ l op, sign l op → Takes op 2) (hl : left.Every IsWritten) : e.Every IsWritten := by
  induction hj with
  | done => exact hl
  | next signed operand _ ih => exact ih (every_pair (takes _ _ signed) hl (h operand))

theorem leftChain_written {sign : Lexeme → String → Prop} {item : Phrase Expr} (h : Written item)
    (takes : ∀ l op, sign l op → Takes op 2) : Written (LeftChain sign item) := by
  rintro ws e ⟨first, rest⟩
  exact rest.written h takes (h first)

theorem inputOf_written {input : Expr} (hi : input.Every IsWritten) :
    ∀ e ∈ (inputOf input).parts, e.Every IsWritten := by
  unfold inputOf
  split
  next => simp [Source.parts]
  next => simpa [Source.parts] using hi

section

variable {nested : Phrase Expr} (h : Written nested)

include h

theorem bracketed_written {opening closing : Lexeme} {ws : List Lexeme} {es : List Expr}
    (hb : Bracketed nested opening closing ws es) : ∀ e ∈ es, e.Every IsWritten := by
  cases hb with
  | mk hl => exact hl.forall_mem fun hn => h hn

theorem mapLiteral_written {ws : List Lexeme} {entries : List (Text × Expr)}
    (hm : MapLiteral nested ws entries) : ∀ e ∈ entries.map (·.2), e.Every IsWritten := by
  cases hm with
  | mk hl =>
    refine List.forall_mem_map.mpr (hl.forall_mem ?_)
    rintro vs p (⟨hn⟩ | ⟨hn⟩)
    · exact h hn
    · exact h hn

theorem primary_written : Written (Primary nested) := by
  intro ws e hp
  cases hp with
  | group hn => exact h hn
  | array hb => exact .node trivial (bracketed_written h hb)
  | object hm distinct => exact .node distinct (mapLiteral_written h hm)
  | _ => exact every_leaf trivial rfl

theorem call_written : Written (Call nested) := by
  intro ws e hc
  cases hc with
  | letIn declared body names distinct =>
    refine .node ⟨?_, distinct⟩ (List.forall_mem_append.mpr ⟨mapLiteral_written h declared, ?_⟩)
    · intro p hp
      exact isReference_variableName (names p hp)
    · simpa using h body
  | map hb given name =>
    have hall := bracketed_written h hb
    refine .node trivial (List.forall_mem_append.mpr ⟨inputOf_written (hall _ (by simp)), ?_⟩)
    simpa using hall _ (by simp)
  | filter hb given name =>
    have hall := bracketed_written h hb
    refine .node trivial (List.forall_mem_append.mpr ⟨inputOf_written (hall _ (by simp)), ?_⟩)
    simpa using hall _ (by simp)
  | reduce hb given =>
    have hall := bracketed_written h hb
    refine .node trivial (List.forall_mem_append.mpr ⟨inputOf_written (hall _ (by simp)), ?_⟩)
    intro e he
    exact hall e (List.mem_cons_of_mem _ he)
  | operator ordinary known hb accepted =>
    exact .node (operatorNamed?_written known accepted) (bracketed_written h hb)

theorem Indexed.written {e full : Expr} {ws : List Lexeme} (hi : Indexed nested e ws full)
    (he : e.Every IsWritten) : full.Every IsWritten := by
  induction hi with
  | done => exact he
  | next hn _ ih => exact ih (every_pair (by decide) he (h hn))

theorem operand_written : Written (Operand nested) := by
  intro ws e ho
  cases ho with
  | call hc hi => exact hi.written h (call_written h hc)
  | primary hp hi => exact hi.written h (primary_written h hp)

theorem signed_written : Written (Signed nested) := by
  intro ws e hs
  induction hs with
  | int => exact every_leaf trivial rfl
  | float => exact every_leaf trivial rfl
  | minus _ _ ih => exact every_pair (by decide) (every_leaf trivial rfl) ih
  | operand ho => exact operand_written h ho

theorem sum_written : Written (Sum nested) := by
  have product : ∀ l op, ProductSign l op → Takes op 2 := by
    rintro l op (_ | _ | _) <;> decide
  have sum : ∀ l op, SumSign l op → Takes op 2 := by
    rintro l op (_ | _) <;> decide
  exact leftChain_written (leftChain_written (signed_written h) product) sum

theorem comparison_written : Written (Comparison nested) := by
  have comparison : ∀ l op, ComparisonSign l op → Takes op 2 := by
    rintro l op (_ | _ | _ | _ | _ | _) <;> decide
  intro ws e hc
  cases hc with
  | sum hs => exact sum_written h hs
  | compared signed first second =>
    exact every_pair (comparison _ _ signed) (sum_written h first) (sum_written h second)
  | member first second =>
    exact every_pair (by decide) (sum_written h first) (sum_written h second)
  | notMember first second =>
    exact every_single (by decide)
      (every_pair (by decide) (sum_written h first) (sum_written h second))

theorem negation_written : Written (Negation nested) := by
  intro ws e hn
  induction hn with
  | not _ ih => exact every_single (by decide) ih
  | comparison hc => exact comparison_written h hc

end

theorem sentence_written (n : Nat) : Written (Sentence n) := by
  have conjunction : ∀ n, Takes "$and" (n + 1) := by
    intro n
    refine ⟨by decide, by decide, ?_⟩
    have known : arityOf? (text "$and") = some ⟨text "$and", 1, none⟩ := by decide
    simp [known, Arity.accepts]
  have disjunction : ∀ n, Takes "$or" (n + 1) := by
    intro n
    refine ⟨by decide, by decide, ?_⟩
    have known : arityOf? (text "$or") = some ⟨text "$or", 1, none⟩ := by decide
    simp [known, Arity.accepts]
  induction n with
  | zero =>
    intro ws e h
    exact h.elim
  | succ n ih =>
    exact chain_written (chain_written (negation_written ih) conjunction) disjunction

theorem parse_written {s : Text} {e : Expr} (h : parse s = .ok e) : e.Every IsWritten := by
  obtain ⟨_, _, _, _, _, _, hsentence⟩ := parse_sound h
  exact sentence_written _ hsentence

/-- The parts of a text are formulas and constants, and there is one unless the text is empty. -/
theorem parts_written {n : Nat} {s : Text} {es : List Expr} (h : parts n s = .ok es) :
    ∀ e ∈ es, e.Every IsWritten := by
  induction n generalizing s es with
  | zero =>
    cases h
    simp
  | succ n ih =>
    cases s with
    | nil =>
      cases h
      simp
    | cons b s =>
      rw [parts] at h
      · split at h
        next =>
          cases h
          exact List.forall_mem_singleton.mpr (every_leaf trivial rfl)
        next before rest _ =>
          split at h
          next => cases h
          next source rest _ =>
            split at h
            next => cases h
            next e he =>
              obtain ⟨others, hothers, h⟩ := bind_eq_ok.mp h
              cases h
              have hall : ∀ e' ∈ e :: others, e'.Every IsWritten :=
                List.forall_mem_cons.mpr ⟨parse_written he, ih hothers⟩
              split
              next => exact hall
              next => exact List.forall_mem_cons.mpr ⟨every_leaf trivial rfl, hall⟩
      · simp

theorem parts_ne_nil {n : Nat} {s : Text} {es : List Expr} (h : parts (n + 1) s = .ok es)
    (given : s ≠ []) : es ≠ [] := by
  rw [parts] at h
  · split at h
    next =>
      cases h
      simp
    next =>
      split at h
      next => cases h
      next =>
        split at h
        next => cases h
        next =>
          obtain ⟨others, -, h⟩ := bind_eq_ok.mp h
          cases h
          split
          next => simp
          next => simp
  · exact given

theorem joined_written {es : List Expr} (given : es ≠ []) (h : ∀ e ∈ es, e.Every IsWritten) :
    (joined es).Every IsWritten := by
  unfold joined
  split
  next e => exact h e (by simp)
  next =>
    refine every_operator ⟨by decide, by decide, ?_⟩ h
    have known : arityOf? (text "$concat") = some ⟨text "$concat", 1, none⟩ := by decide
    have hlength : 1 ≤ es.length := List.length_pos_iff.mpr given
    simp [known, Arity.accepts, hlength]

/-- A tree that was written as a formula, or as text with formulas in it. -/
def IsFormula (e : Expr) : Prop := ∃ s, parseTemplate s = .ok (some e)

theorem IsFormula.written {e : Expr} (h : IsFormula e) : e.Every IsWritten := by
  obtain ⟨s, h⟩ := h
  unfold parseTemplate at h
  split at h
  next marked =>
    have given : s ≠ [] := by
      rintro rfl
      exact absurd marked (by decide)
    split at h
    next inner _ =>
      obtain ⟨e', he, heq⟩ := map_eq_ok.mp h
      cases heq
      exact parse_written he
    next =>
      obtain ⟨es, hes, heq⟩ := map_eq_ok.mp h
      cases heq
      exact joined_written (parts_ne_nil hes given) (parts_written hes)
  next => cases h

end Formula

namespace Expr

/-- Every node of a tree satisfies `P`, except inside of certain subtrees. -/
inductive EveryOutside (inside P : Expr → Prop) : Expr → Prop
  | inside {e : Expr} (h : inside e) : EveryOutside inside P e
  | node {e : Expr} (here : P e) (below : ∀ c ∈ e.children, EveryOutside inside P c) :
    EveryOutside inside P e

theorem EveryOutside.every {inside P Q : Expr → Prop} {e : Expr} (h : EveryOutside inside P e)
    (hinside : ∀ e, inside e → e.Every Q) (himp : ∀ e, P e → Q e) : e.Every Q := by
  induction h with
  | inside h => exact hinside _ h
  | node here _ ih => exact .node (himp _ here) ih

theorem EveryOutside.mono {inside P Q : Expr → Prop} {e : Expr} (h : EveryOutside inside P e)
    (himp : ∀ e, P e → Q e) : EveryOutside inside Q e := by
  induction h with
  | inside h => exact .inside h
  | node here _ ih => exact .node (himp _ here) ih

/-- The keys of an object bear no sigils. -/
def HasPlainKeys : Expr → Prop
  | .object entries => ∀ p ∈ entries, isReference p.1 = false
  | _ => True

end Expr

namespace Definition

open Yaml (Node Document)
open Expr (EveryOutside IsWritten HasPlainKeys)

section

variable {inner : Node → Expr → Prop} {inside P : Expr → Prop}
  (h : ∀ m f, inner m f → f.EveryOutside inside P)

include h

theorem forall₂_everyOutside {items : List Node} {es : List Expr}
    (hread : List.Forall₂ inner items es) : ∀ e ∈ es, e.EveryOutside inside P := by
  intro e he
  obtain ⟨node, -, hnode⟩ := forall₂_mem_right hread he
  exact h node e hnode

theorem entries_everyOutside {entries : List (Node × Node)} {es : List (Text × Expr)}
    (hread : List.Forall₂ (EntryReading inner) entries es) :
    ∀ e ∈ es.map (·.2), e.EveryOutside inside P := by
  refine List.forall_mem_map.mpr ?_
  intro q hq
  obtain ⟨p, -, hp⟩ := forall₂_mem_right hread hq
  exact h _ _ hp.2

theorem source_everyOutside {node : Node} {s : Source} (hread : SourceReading inner node s) :
    ∀ e ∈ s.parts, e.EveryOutside inside P := by
  cases hread with
  | field => simp [Source.parts]
  | expr read => exact List.forall_mem_singleton.mpr (h _ _ read)

theorem iteration_everyOutside {entries : List (Node × Node)} {bodyName : String} {input : Source}
    {item : Text} {body : Expr} (hread : IterationReading inner entries bodyName input item body) :
    ∀ e ∈ input.parts ++ [body], e.EveryOutside inside P := by
  obtain ⟨node, -, hsource⟩ := hread.source
  obtain ⟨node', -, hbody⟩ := hread.body
  exact List.forall_mem_append.mpr
    ⟨source_everyOutside h hsource, List.forall_mem_singleton.mpr (h _ _ hbody)⟩

end

/-- Outside of formulas every node is written as it can be, and keys bear no sigils. -/
theorem reads_written {d : Document} {levels : Nat} {node : Node} {e : Expr}
    (hread : Reads d levels node e) :
    e.EveryOutside Formula.IsFormula fun e => e.IsWritten ∧ e.HasPlainKeys := by
  induction levels generalizing node e with
  | zero => exact hread.elim
  | succ levels ih =>
    have h : ∀ m f, Reads d levels m f →
        f.EveryOutside Formula.IsFormula fun e => e.IsWritten ∧ e.HasPlainKeys := fun _ _ => ih
    cases hread with
    | formula marked read => exact .inside ⟨_, read⟩
    | backReference found read => exact ih read
    | array hitems => exact .node ⟨trivial, trivial⟩ (forall₂_everyOutside h hitems)
    | object hentries plain distinct =>
      exact .node ⟨distinct, plain⟩ (entries_everyOutside h hentries)
    | operator sigil ordinary hargs accepted =>
      refine .node ⟨⟨sigil, ordinary, accepted⟩, trivial⟩ ?_
      cases hargs with
      | several hitems => exact forall₂_everyOutside h hitems
      | single read => exact List.forall_mem_singleton.mpr (ih read)
    | map key hiter => exact .node ⟨trivial, trivial⟩ (iteration_everyOutside h hiter)
    | filter key hiter => exact .node ⟨trivial, trivial⟩ (iteration_everyOutside h hiter)
    | reduce key source start body =>
      obtain ⟨_, -, hsource⟩ := source
      obtain ⟨_, -, hstart⟩ := start
      obtain ⟨_, -, hbody⟩ := body
      refine .node ⟨trivial, trivial⟩ (List.forall_mem_append.mpr ⟨source_everyOutside h hsource, ?_⟩)
      exact List.forall_mem_cons.mpr ⟨ih hstart, List.forall_mem_singleton.mpr (ih hbody)⟩
    | letIn key values hvars names distinct body =>
      obtain ⟨_, -, hbody⟩ := body
      refine .node ⟨⟨fun p hp => isReference_variableName (names p hp), distinct⟩, trivial⟩
        (List.forall_mem_append.mpr ⟨entries_everyOutside h hvars, ?_⟩)
      exact List.forall_mem_singleton.mpr (ih hbody)
    | _ => exact .node ⟨trivial, trivial⟩ (by simp [Expr.children])

theorem reads_every_written {d : Document} {levels : Nat} {node : Node} {e : Expr}
    (hread : Reads d levels node e) : e.Every IsWritten :=
  (reads_written hread).every (fun _ => Formula.IsFormula.written) fun _ h => h.1

variable {d : Document}

theorem ProjectionReading.computed_written {entries : List (Node × Node)} {fields : List Field}
    {computed : List (Text × Expr)} (h : ProjectionReading d entries fields computed) :
    ∀ q ∈ computed, q.2.Every IsWritten := by
  induction h with
  | nil => simp
  | drop _ _ ih => exact ih
  | keep _ _ ih => exact ih
  | rename _ _ ih => exact ih
  | compute read _ ih => exact List.forall_mem_cons.mpr ⟨reads_every_written read, ih⟩

theorem StageReading.written {accepts : Node → Prop} {node : Node} {stage : Stage}
    (h : StageReading accepts d node stage) :
    stage ≠ .filter none ∧ ∀ e ∈ stage.expressions, e.Every IsWritten := by
  have fields : ∀ fs : List Field, ∀ e ∈ fs.map fun f => Expr.field f.target,
      e.Every IsWritten := by
    intro fs
    exact List.forall_mem_map.mpr fun f _ => Formula.every_leaf trivial rfl
  cases h with
  | group name found key keys outputs =>
    refine ⟨by simp, List.forall_mem_append.mpr ⟨fields _, List.forall_mem_map.mpr ?_⟩⟩
    intro a ha
    obtain ⟨q, -, -, line, op, operand, -, -, -, read⟩ := forall₂_mem_right outputs ha
    exact reads_every_written read
  | project name included h =>
    exact ⟨by simp, List.forall_mem_append.mpr
      ⟨fields _, List.forall_mem_map.mpr h.computed_written⟩⟩
  | filter name found read =>
    exact ⟨by simp, List.forall_mem_singleton.mpr (reads_every_written read)⟩

/-- The expressions that a definition compiles. -/
def expressions (definition : Definition) : List Expr :=
  match definition.body with
  | .expression e => [e]
  | .stages stages => stages.flatMap Stage.expressions

theorem ofDocument_written {definition : Definition} (h : ofDocument d = .ok definition) :
    ∀ e ∈ definition.expressions, e.Every IsWritten := by
  obtain ⟨line, entries, -, -, hbody⟩ := ofDocument_reading h
  rw [expressions]
  generalize definition.body = body at hbody
  cases hbody with
  | expression _ _ read => exact List.forall_mem_singleton.mpr (reads_every_written read)
  | stages _ hstages =>
    intro e he
    obtain ⟨stage, hstage, he⟩ := List.mem_flatMap.mp he
    obtain ⟨node, -, hread⟩ := forall₂_mem_right hstages hstage
    exact hread.written.2 e he

end Definition

end ScopedAggregation
