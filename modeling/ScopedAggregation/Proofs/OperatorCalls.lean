import ScopedAggregation.Proofs.DefinitionReading
import ScopedAggregation.Proofs.WrittenTrees

namespace ScopedAggregation

/-- A key with a sigil is the only one of its document, and an operator stands before a list of as
many values as it accepts. -/
def isProperKey (alone : Bool) (key : Text) (length : Option Nat) : Bool :=
  !isReference key || (alone && (arityOf? key).all fun arity => length.any arity.accepts)

theorem isProperKey_plain {alone : Bool} {key : Text} {length : Option Nat}
    (h : isReference key = false) : isProperKey alone key length = true := by
  rw [isProperKey, h]
  rfl

theorem isProperKey_construct {key : Text} {length : Option Nat} (h : arityOf? key = none) :
    isProperKey true key length = true := by
  rw [isProperKey, h]
  simp

/-- The length of a list. -/
def Value.length? : Value → Option Nat
  | .list items => some items.length
  | _ => none

mutual

/-- No document in the value is a malformed call; what stands under `$literal` does not count. -/
def Value.hasProperCalls : Value → Bool
  | .list items => itemsHaveProperCalls items
  | .document entries =>
    (entries.all fun p => isProperKey (entries.length = 1) p.1 p.2.length?) &&
      entriesHaveProperCalls entries
  | _ => true

def itemsHaveProperCalls : List Value → Bool
  | [] => true
  | v :: vs => v.hasProperCalls && itemsHaveProperCalls vs

def entriesHaveProperCalls : List (Text × Value) → Bool
  | [] => true
  | (k, v) :: es => (k = text "$literal" || v.hasProperCalls) && entriesHaveProperCalls es

end

theorem entriesHaveProperCalls_plain {entries : List (Text × Value)}
    (h : ∀ q ∈ entries, isReference q.1 = false) :
    entriesHaveProperCalls entries = entries.all fun q => q.2.hasProperCalls := by
  induction entries with
  | nil => rfl
  | cons q entries ih =>
    obtain ⟨k, v⟩ := q
    obtain ⟨hk, h⟩ := List.forall_mem_cons.mp h
    have hne : k ≠ text "$literal" := ne_literal_of_ordinary (ordinary_of_plain hk)
    rw [entriesHaveProperCalls, ih h]
    simp [hne]

theorem hasProperCalls_plain {entries : List (Text × Value)}
    (h : ∀ q ∈ entries, isReference q.1 = false) :
    (Value.document entries).hasProperCalls = entries.all fun q => q.2.hasProperCalls := by
  have hkeys : (entries.all fun q => isProperKey (entries.length = 1) q.1 q.2.length?) = true :=
    List.all_eq_true.mpr fun q hq => isProperKey_plain (h q hq)
  rw [Value.hasProperCalls, hkeys, entriesHaveProperCalls_plain h, Bool.true_and]

theorem hasProperCalls_doc {key : Text} {v : Value} (hkey : key ≠ text "$literal")
    (hproper : isProperKey true key v.length? = true) :
    (Value.doc key v).hasProperCalls = v.hasProperCalls := by
  simp [Value.doc, Value.hasProperCalls, entriesHaveProperCalls, hkey, hproper]

theorem hasProperCalls_of_holdsReference {v : Value} (h : v.holdsReference = false) :
    v.hasProperCalls = true := by
  induction v using Value.memberInduction with
  | list items ih =>
    rw [Value.holdsReference, holdsReferenceItems_eq_false] at h
    rw [Value.hasProperCalls]
    induction items with
    | nil => rfl
    | cons v items ih' =>
      obtain ⟨hv, h⟩ := List.forall_mem_cons.mp h
      obtain ⟨ihv, ih⟩ := List.forall_mem_cons.mp ih
      rw [itemsHaveProperCalls, ihv hv, ih' ih h]
      rfl
  | document entries ih =>
    rw [Value.holdsReference, holdsReferenceEntries_eq_false] at h
    rw [hasProperCalls_plain fun q hq => (h q hq).1]
    exact List.all_eq_true.mpr fun q hq => ih q hq (h q hq).2
  | _ => rfl

theorem hasProperCalls_renderLiteral (v : Value) : (renderLiteral v).hasProperCalls = true := by
  unfold renderLiteral
  split
  next =>
    have hproper : isProperKey true (text "$literal") v.length? = true :=
      isProperKey_construct (by decide)
    simp [Value.doc, Value.hasProperCalls, entriesHaveProperCalls, hproper]
  next h => exact hasProperCalls_of_holdsReference (by simpa using h)

namespace Expr

/-- The length of the list that an expression is written as. -/
def length? : Expr → Option Nat
  | .array elements => some elements.length
  | .literal v => (renderLiteral v).length?
  | _ => none

mutual

/-- The keys of objects bear sigils only where the written document is a proper call; what stands
under `$literal` does not count. -/
def hasProperKeys : Expr → Bool
  | .operator _ args => allHaveProperKeys args
  | .array elements => allHaveProperKeys elements
  | .object entries =>
    (entries.all fun p => isProperKey (entries.length = 1) p.1 p.2.length?) &&
      entriesHaveProperKeys entries
  | .map input _ body => sourceHasProperKeys input && body.hasProperKeys
  | .filter input _ cond => sourceHasProperKeys input && cond.hasProperKeys
  | .reduce input initial body =>
    sourceHasProperKeys input && initial.hasProperKeys && body.hasProperKeys
  | .letIn vars body => entriesHaveProperKeys vars && body.hasProperKeys
  | _ => true

def sourceHasProperKeys : Source → Bool
  | .field _ => true
  | .expr e => e.hasProperKeys

def allHaveProperKeys : List Expr → Bool
  | [] => true
  | e :: es => e.hasProperKeys && allHaveProperKeys es

def entriesHaveProperKeys : List (Text × Expr) → Bool
  | [] => true
  | (k, e) :: es => (k = text "$literal" || e.hasProperKeys) && entriesHaveProperKeys es

end

/-- Operators are called by a name with a sigil that is no construct's, and with as many arguments as
they accept; variables have names without sigils; no document is taken over as it is. -/
def IsAccepted : Expr → Prop
  | .raw _ => False
  | .operator op args => isReference op = true ∧ reservedOperators.contains op = false ∧
    (arityOf? op).all (·.accepts args.length) = true
  | .letIn vars _ => ∀ p ∈ vars, isReference p.1 = false
  | _ => True

section

variable {limit depth : Nat} {ctx : Context} {v : Value}

theorem length?_of_rendersTo {e : Expr} (h : e.RendersTo limit depth ctx v) (accepted : e.IsAccepted) :
    v.length? = e.length? := by
  cases e with
  | absent =>
    cases rendersTo_absent.mp h
    rfl
  | field path =>
    obtain ⟨-, h⟩ := rendersTo_field.mp h
    obtain ⟨r, -, rfl⟩ := renderField_eq_ok.mp h
    rfl
  | var name =>
    obtain ⟨-, h⟩ := rendersTo_var.mp h
    obtain ⟨r, -, -, rfl⟩ := renderVariable_eq_ok.mp h
    rfl
  | literal w =>
    obtain ⟨-, rfl⟩ := rendersTo_literal.mp h
    rfl
  | raw => exact accepted.elim
  | operator =>
    obtain ⟨-, vs, -, rfl⟩ := rendersTo_operator.mp h
    rfl
  | array =>
    obtain ⟨-, vs, hvs, rfl⟩ := rendersTo_array.mp h
    exact congrArg some hvs.length_eq.symm
  | object =>
    obtain ⟨-, vs, -, rfl⟩ := rendersTo_object.mp h
    rfl
  | faulty => exact (not_rendersTo_faulty h).elim
  | map =>
    obtain ⟨-, source, inner, -, -, rfl⟩ := rendersTo_map.mp h
    rfl
  | filter =>
    obtain ⟨-, source, inner, -, -, rfl⟩ := rendersTo_filter.mp h
    rfl
  | reduce =>
    obtain ⟨-, source, start, inner, -, -, -, rfl⟩ := rendersTo_reduce.mp h
    rfl
  | letIn =>
    obtain ⟨-, values, inner, -, -, rfl⟩ := rendersTo_letIn.mp h
    rfl

/-- The calls in whatever the expression renders to are proper just as its keys are. -/
def KeysDecide (e : Expr) : Prop :=
  ∀ {limit depth : Nat} {ctx : Context} {v : Value}, e.RendersTo limit depth ctx v →
    v.hasProperCalls = e.hasProperKeys

theorem keysDecide_items {es : List Expr} {vs : List Value}
    (h : List.Forall₂ (RendersTo limit depth ctx) es vs) (ih : ∀ e ∈ es, e.KeysDecide) :
    itemsHaveProperCalls vs = allHaveProperKeys es := by
  induction h with
  | nil => rfl
  | cons hv _ ih' =>
    obtain ⟨ihe, ih⟩ := List.forall_mem_cons.mp ih
    rw [itemsHaveProperCalls, allHaveProperKeys, ihe hv, ih' ih]

theorem keysDecide_entries {es : List (Text × Expr)} {vs : List (Text × Value)}
    (h : List.Forall₂ (EntryRendersTo limit depth ctx) es vs) (ih : ∀ p ∈ es, p.2.KeysDecide) :
    entriesHaveProperCalls vs = entriesHaveProperKeys es := by
  induction h with
  | nil => rfl
  | @cons p q es vs hq _ ih' =>
    obtain ⟨k, e⟩ := p
    obtain ⟨l, v⟩ := q
    obtain ⟨rfl, hv⟩ := hq
    obtain ⟨ihe, ih⟩ := List.forall_mem_cons.mp ih
    rw [entriesHaveProperCalls, entriesHaveProperKeys, ihe hv, ih' ih]

theorem properKeys_eq {es : List (Text × Expr)} {vs : List (Text × Value)} {alone : Bool}
    (h : List.Forall₂ (EntryRendersTo limit depth ctx) es vs)
    (accepted : ∀ p ∈ es, p.2.IsAccepted) :
    (vs.all fun q => isProperKey alone q.1 q.2.length?) =
      es.all fun p => isProperKey alone p.1 p.2.length? := by
  induction h with
  | nil => rfl
  | @cons p q es vs hq _ ih =>
    obtain ⟨hp, accepted⟩ := List.forall_mem_cons.mp accepted
    rw [List.all_cons, List.all_cons, ih accepted, hq.1, length?_of_rendersTo hq.2 hp]

theorem keysDecide_source {s : Source} (h : s.RendersTo limit depth ctx v)
    (ih : ∀ e ∈ s.parts, e.KeysDecide) : v.hasProperCalls = sourceHasProperKeys s := by
  cases s with
  | field path =>
    obtain ⟨r, -, rfl⟩ := renderField_eq_ok.mp (Source.rendersTo_field.mp h)
    rfl
  | expr e => exact ih e (List.mem_singleton.mpr rfl) (Source.rendersTo_expr.mp h)

end

theorem hasProperCalls_iterationDocument {op body : String} {source inner : Value} {item : Text}
    (hop : text op ≠ text "$literal") (construct : arityOf? (text op) = none)
    (hbody : isReference (text body) = false) :
    (iterationDocument op body source item inner).hasProperCalls =
      (source.hasProperCalls && inner.hasProperCalls) := by
  rw [iterationDocument, hasProperCalls_doc hop (isProperKey_construct construct),
    hasProperCalls_plain]
  · simp [Value.hasProperCalls]
  · have hinput : isReference (text "input") = false := by decide
    have has : isReference (text "as") = false := by decide
    simp [hinput, has, hbody]

theorem hasProperCalls_foldDocument {source start inner : Value} :
    (foldDocument source start inner).hasProperCalls =
      (source.hasProperCalls && start.hasProperCalls && inner.hasProperCalls) := by
  have hkey : text "$reduce" ≠ text "$literal" := by decide
  have construct : arityOf? (text "$reduce") = none := by decide
  rw [foldDocument, hasProperCalls_doc hkey (isProperKey_construct construct), hasProperCalls_plain]
  · simp [Bool.and_assoc]
  · have hinput : isReference (text "input") = false := by decide
    have hstart : isReference (text "initialValue") = false := by decide
    have hin : isReference (text "in") = false := by decide
    simp [hinput, hstart, hin]

theorem hasProperCalls_bindingDocument {values : List (Text × Value)} {inner : Value}
    (plain : ∀ q ∈ values, isReference q.1 = false) :
    (bindingDocument values inner).hasProperCalls =
      (entriesHaveProperCalls values && inner.hasProperCalls) := by
  have hkey : text "$let" ≠ text "$literal" := by decide
  have construct : arityOf? (text "$let") = none := by decide
  rw [bindingDocument, hasProperCalls_doc hkey (isProperKey_construct construct),
    hasProperCalls_plain, entriesHaveProperCalls_plain plain]
  · simp [hasProperCalls_plain plain]
  · have hvars : isReference (text "vars") = false := by decide
    have hin : isReference (text "in") = false := by decide
    simp [hvars, hin]

/-- In an accepted tree, only the keys of objects decide about the calls. -/
theorem keysDecide_of_accepted {e : Expr} (h : e.Every IsAccepted) : e.KeysDecide := by
  induction h with
  | @node e here below ih =>
    intro limit depth ctx v hr
    cases e with
    | absent =>
      cases rendersTo_absent.mp hr
      rfl
    | field path =>
      obtain ⟨-, h⟩ := rendersTo_field.mp hr
      obtain ⟨r, -, rfl⟩ := renderField_eq_ok.mp h
      rfl
    | var name =>
      obtain ⟨-, h⟩ := rendersTo_var.mp hr
      obtain ⟨r, -, -, rfl⟩ := renderVariable_eq_ok.mp h
      rfl
    | literal w =>
      obtain ⟨-, rfl⟩ := rendersTo_literal.mp hr
      exact hasProperCalls_renderLiteral w
    | raw => exact here.elim
    | operator op args =>
      obtain ⟨sigil, ordinary, accepts⟩ := here
      obtain ⟨-, vs, hvs, rfl⟩ := rendersTo_operator.mp hr
      have hproper : isProperKey true op (Value.list vs).length? = true := by
        rw [hvs.length_eq] at accepts
        simp only [isProperKey, Value.length?, Option.any_some, Bool.true_and]
        rw [accepts, Bool.or_true]
      rw [hasProperCalls_doc (ne_literal_of_ordinary ordinary) hproper, Value.hasProperCalls]
      exact keysDecide_items hvs ih
    | array elements =>
      obtain ⟨-, vs, hvs, rfl⟩ := rendersTo_array.mp hr
      exact keysDecide_items hvs ih
    | object entries =>
      obtain ⟨-, vs, hvs, rfl⟩ := rendersTo_object.mp hr
      have hchild : ∀ p ∈ entries, p.2 ∈ (object entries).children := by
        intro p hp
        exact List.mem_map_of_mem hp
      rw [Value.hasProperCalls, hasProperKeys, hvs.length_eq,
        properKeys_eq hvs fun p hp => (below _ (hchild p hp)).here,
        keysDecide_entries hvs fun p hp => ih _ (hchild p hp)]
    | faulty => exact (not_rendersTo_faulty hr).elim
    | map input item body =>
      obtain ⟨-, source, inner, hs, hi, rfl⟩ := rendersTo_map.mp hr
      obtain ⟨ihs, ihb⟩ := List.forall_mem_append.mp ih
      rw [hasProperCalls_iterationDocument (by decide) (by decide) (by decide),
        keysDecide_source hs ihs, ihb body (List.mem_singleton.mpr rfl) hi, hasProperKeys]
    | filter input item cond =>
      obtain ⟨-, source, inner, hs, hi, rfl⟩ := rendersTo_filter.mp hr
      obtain ⟨ihs, ihb⟩ := List.forall_mem_append.mp ih
      rw [hasProperCalls_iterationDocument (by decide) (by decide) (by decide),
        keysDecide_source hs ihs, ihb cond (List.mem_singleton.mpr rfl) hi, hasProperKeys]
    | reduce input initial body =>
      obtain ⟨-, source, start, inner, hs, ht, hi, rfl⟩ := rendersTo_reduce.mp hr
      obtain ⟨ihs, ihb⟩ := List.forall_mem_append.mp ih
      rw [hasProperCalls_foldDocument, keysDecide_source hs ihs, ihb initial (by simp) ht,
        ihb body (by simp) hi, hasProperKeys]
    | letIn vars body =>
      obtain ⟨-, values, inner, hv, hi, rfl⟩ := rendersTo_letIn.mp hr
      obtain ⟨ihv, ihb⟩ := List.forall_mem_append.mp ih
      have hvalues : ∀ p ∈ vars, p.2.KeysDecide := fun p hp => ihv _ (List.mem_map_of_mem hp)
      rw [hasProperCalls_bindingDocument (plain_keys_of_renderEntries here hv),
        keysDecide_entries hv hvalues, ihb body (List.mem_singleton.mpr rfl) hi, hasProperKeys]

end Expr

namespace Expr

/-- A node with accepted operators and without sigils on keys. -/
def IsPlainlyAccepted (e : Expr) : Prop := e.IsAccepted ∧ e.HasPlainKeys

theorem IsWritten.accepted {e : Expr} (h : e.IsWritten) : e.IsAccepted := by
  cases e with
  | raw => exact h.elim
  | operator => exact h
  | letIn => exact h.1
  | _ => trivial

end Expr

theorem Formula.IsFormula.accepted {e : Expr} (h : IsFormula e) : e.Every Expr.IsAccepted :=
  h.written.mono fun _ => Expr.IsWritten.accepted

namespace Definition

open Yaml (Node Document)
open Expr (EveryOutside IsPlainlyAccepted)

/-- Outside of formulas every node is accepted, and keys bear no sigils. -/
theorem reads_everyOutside {d : Document} {levels : Nat} {node : Node} {e : Expr}
    (hread : Reads d levels node e) : e.EveryOutside Formula.IsFormula IsPlainlyAccepted :=
  (reads_written hread).mono fun _ h => ⟨h.1.accepted, h.2⟩

/-- When a malformed call reaches the document: exactly if the expression has an object with a key
that starts with a dollar sign and does not make a proper call, and such an object is always part of
a formula. -/
theorem improper_call_iff_improper_key {source : Text} {input : Fields} {e : Expr}
    (parsed : parse source = .ok ⟨input, .expression e⟩) {c : Compiler} {v : Value}
    {log last : List Attempt}
    (compiled : compile c ⟨input, .expression e⟩ log = (.ok v, last)) :
    (v.hasProperCalls = true ↔ e.hasProperKeys = true) ∧
      e.EveryOutside Formula.IsFormula IsPlainlyAccepted := by
  obtain ⟨d, -, hread⟩ := parse_reading parsed
  obtain ⟨_, _, -, -, hbody⟩ := hread
  have outside : e.EveryOutside Formula.IsFormula IsPlainlyAccepted := by
    cases hbody with
    | expression found alone read => exact reads_everyOutside read
  have accepted : e.Every Expr.IsAccepted :=
    outside.every (fun _ => Formula.IsFormula.accepted) fun _ h => h.1
  have rendered : ∃ mid, c.run (some e) (Context.ofInput input) log = (.ok v, mid) := by
    unfold compile at compiled
    dsimp only at compiled
    split at compiled
    next v' mid hrun =>
      cases compiled
      exact ⟨_, hrun⟩
    next => cases compiled
  obtain ⟨mid, hrun⟩ := rendered
  obtain ⟨e', he, -, hrender⟩ := compile_eq_ok.mp (Compiler.compiles_of_run hrun)
  cases he
  rw [Expr.keysDecide_of_accepted accepted hrender]
  exact ⟨Iff.rfl, outside⟩

/-- Whether an expression has compiled to a document of which the check holds. -/
def compilesTo (check : Expr → Value → Bool) (d : Definition) : Bool :=
  match d.body, (compile {} d []).1 with
  | .expression e, .ok v => check e v
  | _, _ => false

theorem exists_of_compilesTo {check : Expr → Value → Bool} {source : Text}
    (h : (parse source).toOption.any (compilesTo check) = true) :
    ∃ input e v last, parse source = .ok ⟨input, .expression e⟩ ∧
      compile {} ⟨input, .expression e⟩ [] = (.ok v, last) ∧ check e v = true := by
  cases parsed : parse source with
  | error => rw [parsed] at h; cases h
  | ok d =>
    rw [parsed] at h
    obtain ⟨input, body⟩ := d
    change compilesTo check ⟨input, body⟩ = true at h
    unfold compilesTo at h
    split at h
    next e v hbody compiled =>
      cases hbody
      exact ⟨input, e, v, _, rfl, Prod.ext compiled rfl, h⟩
    next => cases h

/-- An operator inside a formula inside an operator. -/
def nestedCalls : Text := text "expression: \x7b$add: ['$\x7bsize(a) * 2\x7d', 1]\x7d"

theorem nestedCalls_proper :
    ∃ input e v last, parse nestedCalls = .ok ⟨input, .expression e⟩ ∧
      compile {} ⟨input, .expression e⟩ [] = (.ok v, last) ∧ v.hasProperCalls = true := by
  obtain ⟨input, e, v, last, parsed, compiled, hkeys⟩ :=
    @exists_of_compilesTo (fun e _ => e.hasProperKeys) nestedCalls (by decide +kernel)
  exact ⟨input, e, v, last, parsed, compiled,
    (improper_call_iff_improper_key parsed compiled).1.mpr hkeys⟩

/-- An operator's name among the keys of a map in a formula. -/
def operatorAsKey : Text := text "expression: $\x7b\x7b'$add': 1, b: 2\x7d\x7d"

/-- The name ends up beside another key in the document. -/
theorem operatorAsKey_improper :
    ∃ input e v last, parse operatorAsKey = .ok ⟨input, .expression e⟩ ∧
      compile {} ⟨input, .expression e⟩ [] = (.ok v, last) ∧ v.hasProperCalls = false := by
  obtain ⟨input, e, v, last, parsed, compiled, hcalls⟩ :=
    @exists_of_compilesTo (fun _ v => !v.hasProperCalls) operatorAsKey (by decide +kernel)
  exact ⟨input, e, v, last, parsed, compiled, by simpa using hcalls⟩

end Definition

end ScopedAggregation
