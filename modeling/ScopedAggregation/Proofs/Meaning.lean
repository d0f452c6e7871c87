import ScopedAggregation.Proofs.BuiltExpr
import ScopedAggregation.Proofs.NameResolution
import ScopedAggregation.Proofs.RenderSuccess
import ScopedAggregation.Proofs.ValueTree

namespace ScopedAggregation

/-- What evaluation depends on: the input document, the system variables, what operators compute,
how a dotted path is followed, which items an iterating construct visits (or what it answers for
something that has none), and which values count as true. -/
structure Interpretation where
  document : Value
  system : Text → Value
  operator : Text → List Value → Value
  path : Value → Text → Value
  items : Value → Except Value (List Value)
  holds : Value → Bool

/-- The values of bound variables, the innermost first. -/
abbrev Env := List (Text × Value)

namespace Interpretation

variable (I : Interpretation)

/-- Follows what is left of a dotted name after its first segment. -/
def follow (v : Value) : Text → Value
  | [] => v
  | _ :: path => I.path v path

/-- The value of a variable: the innermost one of that name, or a system variable. -/
def variableValue (env : Env) (name : Text) : Option Value :=
  match env.lookup name.head with
  | some v => some (I.follow v name.rest)
  | none =>
    if systemVariables.contains name.head then some (I.follow (I.system name.head) name.rest)
    else none

/-- The value of a field: a variable where one is bound, else a path of the document. -/
def fieldValue (env : Env) (path : Text) : Value :=
  (I.variableValue env path).getD (I.path I.document path)

/-- The value of a string in a document. -/
def stringValue (env : Env) : Text → Option Value
  | 0x24 :: 0x24 :: name => I.variableValue env name
  | 0x24 :: path => some (I.path I.document path)
  | s => some (.string s)

/-- The results of a body for every item. -/
def mapItems (source : Value) (body : Value → Option Value) : Option Value :=
  match I.items source with
  | .ok items => (items.mapM body).map .list
  | .error v => some v

/-- The items for which a condition holds. -/
def filterItems (source : Value) (cond : Value → Option Value) : Option Value :=
  match I.items source with
  | .ok items =>
    (items.mapM fun v => (cond v).map fun c => if I.holds c then [v] else []).map
      fun kept => .list kept.flatten
  | .error v => some v

/-- The last result of a body applied item by item. -/
def reduceItems (source start : Value) (body : Value → Value → Option Value) : Option Value :=
  match I.items source with
  | .ok items => items.foldlM body start
  | .error v => some v

/-- The environment of the body of a fold. -/
def foldEnv (value this : Value) (env : Env) : Env :=
  (text "value", value) :: (text "this", this) :: env

/-- The value of a named argument among evaluated ones. -/
def argument? (key : String) (args : List (Text × Option Value)) : Option Value :=
  (args.lookup (text key)).join

/-- The value of a construct, given its arguments, their values in any environment, and the values
of the variables that it declares. -/
def construct (op : Text) (args : Entries) (values : Env → List (Text × Option Value))
    (declared : Option Env) (env : Env) : Option Value :=
  let item := match Entries.get? (text "as") args with
    | some (.string item) => some item
    | _ => none
  if op = text "$map" then do
    let source ← argument? "input" (values env)
    let item ← item
    I.mapItems source fun v => argument? "in" (values ((item, v) :: env))
  else if op = text "$filter" then do
    let source ← argument? "input" (values env)
    let item ← item
    I.filterItems source fun v => argument? "cond" (values ((item, v) :: env))
  else if op = text "$reduce" then do
    let source ← argument? "input" (values env)
    let start ← argument? "initialValue" (values env)
    I.reduceItems source start fun value this => argument? "in" (values (foldEnv value this env))
  else if op = text "$let" then do
    let declared ← declared
    argument? "in" (values (declared ++ env))
  else none

end Interpretation

/-- The entries, if all of them have values. -/
def allPresent (entries : List (Text × Option Value)) : Option Entries :=
  entries.mapM fun p => p.2.map fun v => (p.1, v)

mutual

/-- The value of a document as an aggregation expression; there is none where a construct is
malformed or a variable is unbound. -/
def Value.meaning (I : Interpretation) : Value → Env → Option Value
  | .string s, env => I.stringValue env s
  | .list items, env => (meaningItems I items env).map .list
  | .document [(key, arg)], env =>
    if key = text "$literal" then some arg
    else if reservedOperators.contains key then constructMeaning I key arg env
    else if isReference key then
      ((operandMeanings I arg env).getD ((arg.meaning I env).map ([·]))).map (I.operator key)
    else (arg.meaning I env).map fun v => .document [(key, v)]
  | .document entries, env => (allPresent (meaningEntries I entries env)).map .document
  | v, _ => some v
termination_by structural v => v

def meaningItems (I : Interpretation) : List Value → Env → Option (List Value)
  | [], _ => some []
  | v :: vs, env => do
    let w ← v.meaning I env
    let ws ← meaningItems I vs env
    some (w :: ws)
termination_by structural vs => vs

def meaningEntries (I : Interpretation) : List (Text × Value) → Env → List (Text × Option Value)
  | [], _ => []
  | (k, v) :: es, env => (k, v.meaning I env) :: meaningEntries I es env
termination_by structural es => es

/-- The values of the operands of an operator that are given as a list. -/
def operandMeanings (I : Interpretation) : Value → Env → Option (Option (List Value))
  | .list args, env => some (meaningItems I args env)
  | _, _ => none
termination_by structural arg => arg

/-- The value of a construct, whose arguments are named. -/
def constructMeaning (I : Interpretation) (op : Text) : Value → Env → Option Value
  | .document args, env =>
    I.construct op args (fun env => meaningEntries I args env) (declaredMeanings I args env) env
  | _, _ => none
termination_by structural arg => arg

/-- The values of the variables that a construct declares. -/
def declaredMeanings (I : Interpretation) : List (Text × Value) → Env → Option Env
  | [], _ => none
  | (key, .document vars) :: rest, env =>
    if key = text "vars" then allPresent (meaningEntries I vars env)
    else declaredMeanings I rest env
  | _ :: rest, env => declaredMeanings I rest env
termination_by structural args => args

end

mutual

/-- The value of an expression, with lexical scoping; there is none where a variable is unbound. -/
def Expr.meaning (I : Interpretation) : Expr → Env → Option Value
  | .absent, _ => some .null
  | .field path, env => some (I.fieldValue env path)
  | .var name, env => I.variableValue env name
  | .literal v, _ => some v
  | .raw v, env => v.meaning I env
  | .operator op args, env => (meaningAll I args env).map (I.operator op)
  | .array elements, env => (meaningAll I elements env).map .list
  | .object entries, env => (meaningIn I entries env).map .document
  | .faulty _, _ => none
  | .map input item body, env => do
    let source ← input.meaning I env
    I.mapItems source fun v => body.meaning I ((item, v) :: env)
  | .filter input item cond, env => do
    let source ← input.meaning I env
    I.filterItems source fun v => cond.meaning I ((item, v) :: env)
  | .reduce input initial body, env => do
    let source ← input.meaning I env
    let start ← initial.meaning I env
    I.reduceItems source start fun value this =>
      body.meaning I (Interpretation.foldEnv value this env)
  | .letIn vars body, env => do
    let bound ← meaningIn I vars env
    body.meaning I (bound ++ env)

def Source.meaning (I : Interpretation) : Source → Env → Option Value
  | .field path, env => some (I.fieldValue env path)
  | .expr e, env => e.meaning I env

def meaningAll (I : Interpretation) : List Expr → Env → Option (List Value)
  | [], _ => some []
  | e :: es, env => do
    let v ← e.meaning I env
    let vs ← meaningAll I es env
    some (v :: vs)

def meaningIn (I : Interpretation) : List (Text × Expr) → Env → Option Entries
  | [], _ => some []
  | (k, e) :: es, env => do
    let v ← e.meaning I env
    let vs ← meaningIn I es env
    some ((k, v) :: vs)

end

variable {I : Interpretation} {env : Env}

theorem map_document_meaning {source inner : Value} {item : Text} :
    (Expr.iterationDocument "$map" "in" source item inner).meaning I env =
      (source.meaning I env).bind fun s =>
        I.mapItems s fun v => inner.meaning I ((item, v) :: env) := rfl

theorem filter_document_meaning {source inner : Value} {item : Text} :
    (Expr.iterationDocument "$filter" "cond" source item inner).meaning I env =
      (source.meaning I env).bind fun s =>
        I.filterItems s fun v => inner.meaning I ((item, v) :: env) := rfl

theorem fold_document_meaning {source start inner : Value} :
    (Expr.foldDocument source start inner).meaning I env =
      (source.meaning I env).bind fun s => (start.meaning I env).bind fun t =>
        I.reduceItems s t fun value this =>
          inner.meaning I (Interpretation.foldEnv value this env) := rfl

theorem binding_document_meaning {values : List (Text × Value)} {inner : Value} :
    (Expr.bindingDocument values inner).meaning I env =
      (allPresent (meaningEntries I values env)).bind fun bound =>
        inner.meaning I (bound ++ env) := rfl

theorem meaning_operator_document {op : Text} {args : List Value} (sigil : isReference op = true)
    (ordinary : reservedOperators.contains op = false) :
    (Value.doc op (.list args)).meaning I env = (meaningItems I args env).map (I.operator op) := by
  simp only [Value.doc, Value.meaning, if_neg (ne_literal_of_ordinary ordinary), ordinary,
    if_pos sigil]
  rfl

theorem meaning_object_document {entries : List (Text × Value)}
    (plain : ∀ p ∈ entries, isReference p.1 = false) :
    (Value.document entries).meaning I env =
      (allPresent (meaningEntries I entries env)).map .document := by
  match entries, plain with
  | [], _ => rfl
  | [(key, arg)], plain =>
    have hkey : isReference key = false := plain (key, arg) (by simp)
    have ordinary := ordinary_of_plain hkey
    simp only [Value.meaning, if_neg (ne_literal_of_ordinary ordinary), ordinary, hkey,
      meaningEntries, allPresent]
    cases arg.meaning I env with
    | none => rfl
    | some v => rfl
  | _ :: _ :: _, _ => rfl

theorem meaningItems_eq_some {vs ws : List Value}
    (h : List.Forall₂ (fun v w => v.meaning I env = some w) vs ws) :
    meaningItems I vs env = some ws := by
  induction h with
  | nil => rfl
  | cons hv _ ih => simp [meaningItems, hv, ih]

theorem allPresent_eq_some {vs ws : List (Text × Value)}
    (h : List.Forall₂ (fun v w => w.1 = v.1 ∧ v.2.meaning I env = some w.2) vs ws) :
    allPresent (meaningEntries I vs env) = some ws := by
  induction h with
  | nil => rfl
  | @cons v w vs ws hv _ ih =>
    obtain ⟨k, v⟩ := v
    obtain ⟨l, w⟩ := w
    obtain ⟨rfl, hv⟩ := hv
    simp only [allPresent] at ih
    simp [allPresent, meaningEntries, hv, ih]

theorem stringValue_of_plain {s : Text} (h : isReference s = false) :
    I.stringValue env s = some (.string s) := by
  unfold Interpretation.stringValue
  split
  next name =>
    rw [isReference_cons.mpr rfl] at h
    cases h
  next path _ =>
    rw [isReference_cons.mpr rfl] at h
    cases h
  next => rfl

/-- A value in which nothing could be taken for a reference means itself. -/
theorem meaning_of_holdsReference {v : Value} (h : v.holdsReference = false) :
    v.meaning I env = some v := by
  induction v using Value.memberInduction with
  | null => rfl
  | bool b => rfl
  | int i => rfl
  | double x => rfl
  | string s => exact stringValue_of_plain h
  | list items ih =>
    have plain := holdsReferenceItems_eq_false.mp h
    have same : List.Forall₂ (fun v w : Value => v.meaning I env = some w) items items :=
      List.forall₂_same.mpr fun v hv => ih v hv (plain v hv)
    simp only [Value.meaning, meaningItems_eq_some same, Option.map_some]
  | document entries ih =>
    have plain := holdsReferenceEntries_eq_false.mp h
    have same : List.Forall₂ (fun v w : Text × Value => w.1 = v.1 ∧ v.2.meaning I env = some w.2)
        entries entries := List.forall₂_same.mpr fun p hp => ⟨rfl, ih p hp (plain p hp).2⟩
    rw [meaning_object_document fun p hp => (plain p hp).1, allPresent_eq_some same,
      Option.map_some]

theorem meaning_renderLiteral (v : Value) : (renderLiteral v).meaning I env = some v := by
  unfold renderLiteral
  split
  next => rfl
  next h => exact meaning_of_holdsReference (by simpa using h)

/-- The scopes of a context bind exactly the names of an environment, each as itself, over the
whole document. -/
structure Context.Tracks (ctx : Context) (env : Env) : Prop where
  whole : ∀ name, ctx.documentPath? name = some name
  bound : ∀ head f, ctx.nearest? head = some f → f.target = head ∧ ∃ v, env.lookup head = some v
  free : ∀ head, ctx.nearest? head = none → env.lookup head = none

theorem Context.tracks_root : Context.root.Tracks [] := by
  refine ⟨fun _ => rfl, ?_, fun _ _ => rfl⟩
  intro head f h
  simp [nearest?] at h

theorem lookup_eq_none_of_notMem {declared : Env} {head : Text}
    (h : head ∉ declared.map (·.1)) : declared.lookup head = none := by
  rw [List.lookup_eq_none_iff]
  intro p hp
  simp only [bne_iff_ne]
  rintro rfl
  exact h (List.mem_map_of_mem hp)

/-- A scope that exposes declared names tracks their values before all others. -/
theorem Context.Tracks.child {ctx : Context} (tracks : ctx.Tracks env) (exposure : Exposure)
    (declared : Env) :
    (Context.child exposure (.ofNames (declared.map (·.1))) ctx).Tracks (declared ++ env) := by
  refine ⟨tracks.whole, ?_, ?_⟩
  · intro head f h
    by_cases hm : head ∈ declared.map (·.1)
    · rw [nearest?, Fields.lookup?_ofNames_of_mem hm, Option.some_or] at h
      cases h
      refine ⟨rfl, ?_⟩
      have hs : (declared.lookup head).isSome := by
        obtain ⟨p, hp, rfl⟩ := List.mem_map.mp hm
        exact List.lookup_isSome_iff.mpr ⟨p, hp, by simp⟩
      obtain ⟨v, hv⟩ := Option.isSome_iff_exists.mp hs
      exact ⟨v, by rw [List.lookup_append, hv, Option.some_or]⟩
    · rw [nearest?, Fields.lookup?_ofNames_of_notMem hm, Option.none_or] at h
      obtain ⟨ht, v, hv⟩ := tracks.bound head f h
      exact ⟨ht, v, by rw [List.lookup_append, lookup_eq_none_of_notMem hm, Option.none_or, hv]⟩
  · intro head h
    by_cases hm : head ∈ declared.map (·.1)
    · rw [nearest?, Fields.lookup?_ofNames_of_mem hm, Option.some_or] at h
      cases h
    · rw [nearest?, Fields.lookup?_ofNames_of_notMem hm, Option.none_or] at h
      rw [List.lookup_append, lookup_eq_none_of_notMem hm, Option.none_or, tracks.free head h]

/-- A name that resolves to a variable is read back as the value of that variable. -/
theorem stringValue_variable {ctx : Context} {name : Text} {r : Resolution} (tracks : ctx.Tracks env)
    (h : ctx.resolve name = .ok r) (kind : r.kind = .variable) :
    ∃ v, I.stringValue env r.reference = some v ∧ I.variableValue env name = some v := by
  cases (Context.resolve_ok h).2 with
  | @exposed f nearest =>
    obtain ⟨target, v, hv⟩ := tracks.bound name.head f nearest
    refine ⟨I.follow v name.rest, ?_, ?_⟩
    · simp only [Resolution.reference, target, Text.head_append_rest, Interpretation.stringValue,
        Interpretation.variableValue, hv]
    · simp only [Interpretation.variableValue, hv]
  | system unexposed system =>
    have hv := tracks.free name.head unexposed
    refine ⟨I.follow (I.system name.head) name.rest, ?_, ?_⟩
    · simp only [Resolution.reference, Interpretation.stringValue, Interpretation.variableValue, hv,
        system, if_true]
    · simp only [Interpretation.variableValue, hv, system, if_true]
  | document unexposed ordinary shown reads => cases kind

theorem stringValue_path {path : Text} (h : isReference path = false) :
    I.stringValue env (Ascii.dollar :: path) = some (I.path I.document path) := by
  cases path with
  | nil => rfl
  | cons b rest =>
    have hb : b ≠ Ascii.dollar := by
      intro hb
      rw [isReference_cons.mpr hb] at h
      cases h
    unfold Interpretation.stringValue
    split
    next heq => exact absurd (List.cons.inj (List.cons.inj heq).2).1 hb
    next heq => rw [(List.cons.inj heq).2]
    next hpath => exact absurd rfl (hpath (b :: rest))

/-- A field that resolves is read back as the value of the field. -/
theorem stringValue_field {ctx : Context} {path : Text} {r : Resolution} (tracks : ctx.Tracks env)
    (h : ctx.resolve path = .ok r) (plain : isReference path = false) :
    I.stringValue env r.reference = some (I.fieldValue env path) := by
  by_cases hk : r.kind = .variable
  · obtain ⟨v, hs, hv⟩ := stringValue_variable (I := I) tracks h hk
    rw [hs, Interpretation.fieldValue, hv, Option.getD_some]
  · cases (Context.resolve_ok h).2 with
    | exposed nearest => exact absurd rfl hk
    | system unexposed system => exact absurd rfl hk
    | document unexposed ordinary shown reads =>
      have hp := Option.some.inj ((tracks.whole path).symm.trans reads)
      subst hp
      have hv : I.variableValue env path = none := by
        simp [Interpretation.variableValue, tracks.free path.head unexposed, ordinary]
      rw [Interpretation.fieldValue, hv, Option.getD_none]
      exact stringValue_path plain

end ScopedAggregation
