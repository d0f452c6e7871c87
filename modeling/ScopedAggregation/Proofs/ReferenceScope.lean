import ScopedAggregation.Proofs.BuiltExpr
import ScopedAggregation.Proofs.NameResolution
import ScopedAggregation.Proofs.RenderSuccess
import ScopedAggregation.Proofs.ValueTree

namespace ScopedAggregation

/-- Where a string stands: the variables bound by the constructs whose bodies it is in, and whether
one of these hides the document. -/
structure Position where
  bound : List Text := []
  hidden : Bool := false

/-- The argument of a construct that sees what the construct binds. -/
def bodyKey (op : Text) : Text := if op = text "$filter" then text "cond" else text "in"

/-- The variables that a construct binds in its body. -/
def boundBy (op : Text) (args : Entries) : List Text :=
  if op = text "$reduce" then [text "value", text "this"]
  else if op = text "$let" then
    match Entries.get? (text "vars") args with
    | some (.document vars) => vars.map (·.1)
    | _ => []
  else
    match Entries.get? (text "as") args with
    | some (.string item) => [item]
    | _ => []

/-- The position of the body of a construct; all constructs but one hide the document in it. -/
def Position.enter (pos : Position) (op : Text) (args : Entries) : Position :=
  ⟨boundBy op args ++ pos.bound, op ≠ text "$let" || pos.hidden⟩

mutual

/-- The strings of a document with their positions, those of quoted values left out. -/
def Value.strings : Value → Position → List (Text × Position)
  | .string s, pos => [(s, pos)]
  | .list items, pos => stringsOf items pos
  | .document [(key, arg)], pos =>
    if key = text "$literal" then []
    else if reservedOperators.contains key then
      (constructStrings key arg pos).getD (arg.strings pos)
    else arg.strings pos
  | .document entries, pos => stringsIn [] entries pos pos
  | _, _ => []
termination_by structural v => v

def stringsOf : List Value → Position → List (Text × Position)
  | [], _ => []
  | v :: vs, pos => v.strings pos ++ stringsOf vs pos
termination_by structural vs => vs

/-- The strings of named arguments, of which the one named `body` has a position of its own. -/
def stringsIn (body : Text) :
    List (Text × Value) → Position → Position → List (Text × Position)
  | [], _, _ => []
  | (k, v) :: es, inner, outer =>
    v.strings (if k = body then inner else outer) ++ stringsIn body es inner outer
termination_by structural es => es

def constructStrings (op : Text) : Value → Position → Option (List (Text × Position))
  | .document args, pos => some (stringsIn (bodyKey op) args (pos.enter op args) pos)
  | _, _ => none
termination_by structural arg => arg

end

variable {pos inner outer : Position} {o : Text × Position}

theorem mem_stringsOf {vs : List Value} :
    o ∈ stringsOf vs pos ↔ ∃ v ∈ vs, o ∈ v.strings pos := by
  induction vs with
  | nil => simp [stringsOf]
  | cons v vs ih => simp [stringsOf, ih]

theorem mem_stringsIn {body : Text} {es : List (Text × Value)} :
    o ∈ stringsIn body es inner outer ↔
      ∃ p ∈ es, o ∈ p.2.strings (if p.1 = body then inner else outer) := by
  induction es with
  | nil => simp [stringsIn]
  | cons p es ih => simp [stringsIn, ih]

theorem strings_operator_document {op : Text} {args : List Value}
    (ordinary : reservedOperators.contains op = false) :
    (Value.doc op (.list args)).strings pos = stringsOf args pos := by
  simp only [Value.doc, Value.strings, if_neg (ne_literal_of_ordinary ordinary), ordinary]
  rfl

theorem mem_strings_object_document {entries : List (Text × Value)}
    (plain : ∀ p ∈ entries, isReference p.1 = false) :
    o ∈ (Value.document entries).strings pos ↔ ∃ p ∈ entries, o ∈ p.2.strings pos := by
  match entries, plain with
  | [], _ => simp [Value.strings, stringsIn]
  | [(key, arg)], plain =>
    have ordinary : reservedOperators.contains key = false :=
      ordinary_of_plain (plain (key, arg) (by simp))
    have same : (Value.document [(key, arg)]).strings pos = arg.strings pos := by
      simp only [Value.strings, if_neg (ne_literal_of_ordinary ordinary), ordinary]
      rfl
    simp [same]
  | p :: q :: rest, _ =>
    have same : (Value.document (p :: q :: rest)).strings pos =
        stringsIn [] (p :: q :: rest) pos pos := rfl
    simp only [same, mem_stringsIn, ite_self]

theorem strings_iteration_document {op body : String} {source inside : Value} {item : Text}
    (known : (op = "$map" ∧ body = "in") ∨ (op = "$filter" ∧ body = "cond")) :
    (Expr.iterationDocument op body source item inside).strings pos =
      source.strings pos ++ ((item, pos) :: inside.strings ⟨item :: pos.bound, true⟩) := by
  rcases known with ⟨rfl, rfl⟩ | ⟨rfl, rfl⟩
  · change source.strings pos ++ ([(item, pos)] ++ (inside.strings _ ++ [])) = _
    simp
    rfl
  · change source.strings pos ++ ([(item, pos)] ++ (inside.strings _ ++ [])) = _
    simp
    rfl

theorem strings_fold_document {source start inside : Value} :
    (Expr.foldDocument source start inside).strings pos =
      source.strings pos ++ (start.strings pos ++
        inside.strings ⟨text "value" :: text "this" :: pos.bound, true⟩) := by
  change source.strings pos ++ (start.strings pos ++ (inside.strings _ ++ [])) = _
  rw [List.append_nil]
  rfl

theorem strings_binding_document {values : List (Text × Value)} {inside : Value} :
    (Expr.bindingDocument values inside).strings pos =
      (Value.document values).strings pos ++
        inside.strings ⟨values.map (·.1) ++ pos.bound, pos.hidden⟩ := by
  change (Value.document values).strings pos ++ (inside.strings _ ++ []) = _
  rw [List.append_nil]
  rfl

/-- Nothing in an unquoted constant refers to anything. -/
theorem strings_of_holdsReference {v : Value} (h : v.holdsReference = false)
    (ho : o ∈ v.strings pos) : isReference o.1 = false := by
  induction v using Value.memberInduction with
  | null => simp [Value.strings] at ho
  | bool b => simp [Value.strings] at ho
  | int i => simp [Value.strings] at ho
  | double x => simp [Value.strings] at ho
  | string s =>
    have eq : o = (s, pos) := by simpa [Value.strings] using ho
    rw [eq]
    exact h
  | list items ih =>
    have plain := holdsReferenceItems_eq_false.mp h
    obtain ⟨v, hv, ho⟩ := mem_stringsOf.mp ho
    exact ih v hv (plain v hv) ho
  | document entries ih =>
    have plain := holdsReferenceEntries_eq_false.mp h
    obtain ⟨p, hp, ho⟩ := (mem_strings_object_document fun p hp => (plain p hp).1).mp ho
    exact ih p hp (plain p hp).2 ho

theorem strings_renderLiteral {v : Value} (ho : o ∈ (renderLiteral v).strings pos) :
    isReference o.1 = false := by
  unfold renderLiteral at ho
  split at ho
  next => simp [Value.doc, Value.strings] at ho
  next h => exact strings_of_holdsReference (by simpa using h) ho

namespace Context

/-- The fields that a restricted root shows stand for paths without sigils. -/
def hasPlainTargets : Context → Bool
  | .root => true
  | .restricted fields => fields.toList.all fun f => !isReference f.target
  | .child _ _ parent => parent.hasPlainTargets

/-- Some name that a scope exposes resolves to the variable path. -/
def Exposes (ctx : Context) (path : Text) : Prop :=
  ∃ name : Text, (ctx.nearest? name.head).isSome = true ∧
    ctx.resolve name = .ok ⟨.variable, name, path⟩

end Context

theorem isReference_append_rest {target name : Text} (h : isReference target = false) :
    isReference (target ++ name.rest) = false := by
  cases target with
  | cons b rest =>
    rw [← Bool.not_eq_true, List.cons_append, isReference_cons]
    rwa [← Bool.not_eq_true, isReference_cons] at h
  | nil =>
    rw [List.nil_append]
    by_contra hc
    cases hr : name.rest with
    | nil =>
      rw [hr] at hc
      exact hc rfl
    | cons b rest =>
      have hb : b = Ascii.dollar := by
        rw [hr] at hc
        exact isReference_cons.mp (by simpa using hc)
      have hd : b = Ascii.dot := by
        have := List.head?_dropWhile_not (fun b => decide (b ≠ Ascii.dot)) name
        rw [show name.dropWhile _ = b :: rest from hr] at this
        simpa using this
      rw [hd] at hb
      exact absurd hb (by decide)

theorem documentPath?_plain {ctx : Context} {name path : Text} (plain : isReference name = false)
    (targets : ctx.hasPlainTargets = true) (h : ctx.documentPath? name = some path) :
    isReference path = false := by
  induction ctx with
  | root =>
    cases Option.some.inj h
    exact plain
  | restricted fields =>
    obtain ⟨f, hf, rfl⟩ := Option.map_eq_some_iff.mp h
    have hmem := List.mem_of_find?_eq_some hf
    have htarget := List.all_eq_true.mp targets f hmem
    exact isReference_append_rest (by simpa using htarget)
  | child exposure fields parent ih => exact ih targets h

/-- A string refers to nothing that its position hides, and to no unbound variable. -/
structure Scoped (start : Context) (o : Text × Position) : Prop where
  shown : o.2.hidden = true → isReference o.1 = true →
    Text.startsWith [Ascii.dollar, Ascii.dollar] o.1 = true
  bound : ∀ path : Text, o.1 = Ascii.dollar :: Ascii.dollar :: path →
    path.head ∈ o.2.bound ∨ systemVariables.contains path.head = true ∨ start.Exposes path

theorem Scoped.of_plain {start : Context} (h : isReference o.1 = false) : Scoped start o := by
  refine ⟨?_, ?_⟩
  · intro _ href
    rw [h] at href
    cases href
  · intro path hpath
    rw [hpath, isReference_cons.mpr rfl] at h
    cases h

/-- A context that the constructs around a position have made from the one at the start. -/
structure Position.Fits (start : Context) (pos : Position) (ctx : Context) : Prop where
  names : ∀ head f, ctx.nearest? head = some f →
    (f.target = head ∧ head ∈ pos.bound) ∨ start.nearest? head = some f
  hides : pos.hidden = true → ctx.hidesDocument = true
  reads : ∀ name, ctx.documentPath? name = start.documentPath? name

theorem Position.fits_start (start : Context) : Position.Fits start {} start := by
  refine ⟨fun _ _ h => .inr h, ?_, fun _ => rfl⟩
  intro h
  cases h

theorem Position.Fits.child {start ctx : Context} (fits : pos.Fits start ctx) (exposure : Exposure)
    (names : List Text) :
    Position.Fits start ⟨names ++ pos.bound, exposure = .synthetic || pos.hidden⟩
      (.child exposure (.ofNames names) ctx) := by
  refine ⟨?_, ?_, fits.reads⟩
  · intro head f h
    by_cases hm : head ∈ names
    · rw [Context.nearest?, Fields.lookup?_ofNames_of_mem hm, Option.some_or] at h
      cases h
      exact .inl ⟨rfl, List.mem_append_left _ hm⟩
    · rw [Context.nearest?, Fields.lookup?_ofNames_of_notMem hm, Option.none_or] at h
      rcases fits.names head f h with ⟨ht, hb⟩ | hf
      · exact .inl ⟨ht, List.mem_append_right _ hb⟩
      · exact .inr hf
  · intro h
    rcases Bool.or_eq_true_iff.mp h with h | h
    · simp [Context.hidesDocument, h]
    · simp [Context.hidesDocument, fits.hides h]

/-- A resolved name makes a scoped string. -/
theorem scoped_reference {start ctx : Context} {name : Text} {r : Resolution}
    (fits : pos.Fits start ctx) (h : ctx.resolve name = .ok r)
    (plain : r.kind = .field → isReference name = false) (targets : start.hasPlainTargets = true) :
    Scoped start (r.reference, pos) := by
  cases (Context.resolve_ok h).2 with
  | @exposed f nearest =>
    refine ⟨fun _ _ => rfl, ?_⟩
    intro path hpath
    have hp : f.target ++ name.rest = path := (List.cons.inj (List.cons.inj hpath).2).2
    rcases fits.names name.head f nearest with ⟨ht, hb⟩ | hs
    · rw [ht, Text.head_append_rest] at hp
      rw [← hp]
      exact .inl hb
    · have resolved := Context.resolve_nearest (Context.resolve_ok h).1 hs
      rw [hp] at resolved
      exact .inr (.inr ⟨name, by rw [hs]; rfl, resolved⟩)
  | system unexposed system =>
    refine ⟨fun _ _ => rfl, ?_⟩
    intro path hpath
    have hp : name = path := (List.cons.inj (List.cons.inj hpath).2).2
    rw [← hp]
    exact .inr (.inl system)
  | @document path unexposed ordinary shown reads =>
    refine ⟨?_, ?_⟩
    · intro hidden _
      have := fits.hides hidden
      rw [shown] at this
      cases this
    · intro rest hrest
      have hp : path = Ascii.dollar :: rest := (List.cons.inj hrest).2
      have := documentPath?_plain (plain rfl) targets ((fits.reads name).symm.trans reads)
      rw [hp, isReference_cons.mpr rfl] at this
      cases this

theorem isReference_variableName {name : Text} (h : Expr.IsVariableName name) :
    isReference name = false := by
  cases name with
  | nil => rfl
  | cons b rest =>
    rw [← Bool.not_eq_true, isReference_cons]
    exact (h.2 b (by simp)).1

theorem scoped_field {start ctx : Context} {path : Text} {v : Value} (fits : pos.Fits start ctx)
    (targets : start.hasPlainTargets = true) (plain : isReference path = false)
    (h : renderField ctx path = .ok v) : ∀ o ∈ v.strings pos, Scoped start o := by
  obtain ⟨r, hr, rfl⟩ := renderField_eq_ok.mp h
  intro o ho
  cases List.mem_singleton.mp ho
  exact scoped_reference fits hr (fun _ => plain) targets

theorem scoped_source {start ctx : Context} {limit depth : Nat} {s : Source} {v : Value}
    (fits : pos.Fits start ctx) (targets : start.hasPlainTargets = true)
    (plain : s.isPlain = true)
    (ih : ∀ e ∈ s.parts, ∀ v, e.RendersTo limit depth ctx v → ∀ o ∈ v.strings pos, Scoped start o)
    (h : s.RendersTo limit depth ctx v) : ∀ o ∈ v.strings pos, Scoped start o := by
  cases s with
  | field path =>
    have hp : isReference path = false := by simpa [Source.isPlain] using plain
    exact scoped_field fits targets hp (Source.rendersTo_field.mp h)
  | expr e => exact ih e (by simp [Source.parts]) v (Source.rendersTo_expr.mp h)

theorem scoped_items {start ctx : Context} {limit depth : Nat} {es : List Expr} {vs : List Value}
    (ih : ∀ e ∈ es, ∀ v, e.RendersTo limit depth ctx v → ∀ o ∈ v.strings pos, Scoped start o)
    (h : List.Forall₂ (Expr.RendersTo limit depth ctx) es vs) :
    ∀ o ∈ stringsOf vs pos, Scoped start o := by
  intro o ho
  obtain ⟨v, hv, ho⟩ := mem_stringsOf.mp ho
  obtain ⟨e, he, renders⟩ := forall₂_mem_right h hv
  exact ih e he v renders o ho

theorem scoped_entries {start ctx : Context} {limit depth : Nat} {es : List (Text × Expr)}
    {vs : List (Text × Value)}
    (ih : ∀ e ∈ es.map (·.2), ∀ v, e.RendersTo limit depth ctx v →
      ∀ o ∈ v.strings pos, Scoped start o)
    (keys : ∀ p ∈ es, isReference p.1 = false)
    (h : List.Forall₂ (EntryRendersTo limit depth ctx) es vs) :
    ∀ o ∈ (Value.document vs).strings pos, Scoped start o := by
  intro o ho
  have plain := plain_keys_of_renderEntries keys h
  obtain ⟨q, hq, ho⟩ := (mem_strings_object_document plain).mp ho
  obtain ⟨p, hp, _, renders⟩ := forall₂_mem_right h hq
  exact ih p.2 (List.mem_map_of_mem hp) q.2 renders o ho

/-- The strings that an expression renders to are scoped, in whatever position it stands. The
position and the context change together at every binder. -/
theorem scoped_of_rendersTo {start ctx : Context} {limit depth : Nat} {e : Expr} {v : Value}
    (targets : start.hasPlainTargets = true) (regular : e.Every Expr.Regular)
    (fits : pos.Fits start ctx) (renders : e.RendersTo limit depth ctx v) :
    ∀ o ∈ v.strings pos, Scoped start o := by
  induction regular generalizing depth ctx v pos with
  | @node e here below ih =>
    obtain ⟨wellFormed, plain⟩ := here
    cases e with
    | absent =>
      rw [Expr.rendersTo_absent.mp renders]
      simp [Value.strings]
    | field path =>
      have hp : isReference path = false := by simpa [Expr.isPlainNode] using plain
      exact scoped_field fits targets hp (Expr.rendersTo_field.mp renders).2
    | var name =>
      obtain ⟨r, hr, kind, rfl⟩ := renderVariable_eq_ok.mp (Expr.rendersTo_var.mp renders).2
      intro o ho
      cases List.mem_singleton.mp ho
      exact scoped_reference fits hr (fun hk => by simp [kind] at hk) targets
    | literal w =>
      rw [(Expr.rendersTo_literal.mp renders).2]
      exact fun o ho => .of_plain (strings_renderLiteral ho)
    | raw w => cases plain
    | operator op args =>
      obtain ⟨_, vs, hvs, rfl⟩ := Expr.rendersTo_operator.mp renders
      simp only [Expr.isPlainNode, Bool.and_eq_true, Bool.not_eq_true'] at plain
      rw [strings_operator_document plain.2]
      exact scoped_items (fun e he v hv => ih e he fits hv) hvs
    | array elements =>
      obtain ⟨_, vs, hvs, rfl⟩ := Expr.rendersTo_array.mp renders
      exact scoped_items (fun e he v hv => ih e he fits hv) hvs
    | object entries =>
      obtain ⟨_, vs, hvs, rfl⟩ := Expr.rendersTo_object.mp renders
      exact scoped_entries (fun e he v hv => ih e he fits hv) (Expr.plain_keys plain) hvs
    | faulty error => exact absurd renders Expr.not_rendersTo_faulty
    | map input item body =>
      obtain ⟨_, source, inside, hs, hi, rfl⟩ := Expr.rendersTo_map.mp renders
      rw [strings_iteration_document (.inl ⟨rfl, rfl⟩), List.forall_mem_append, List.forall_mem_cons]
      refine ⟨?_, .of_plain (isReference_variableName wellFormed), ?_⟩
      · exact scoped_source fits targets plain
          (fun e he v hv => ih e (by simp [Expr.children, he]) fits hv) hs
      · exact ih body (by simp [Expr.children]) (fits.child .synthetic [item]) hi
    | filter input item cond =>
      obtain ⟨_, source, inside, hs, hi, rfl⟩ := Expr.rendersTo_filter.mp renders
      rw [strings_iteration_document (.inr ⟨rfl, rfl⟩), List.forall_mem_append, List.forall_mem_cons]
      refine ⟨?_, .of_plain (isReference_variableName wellFormed), ?_⟩
      · exact scoped_source fits targets plain
          (fun e he v hv => ih e (by simp [Expr.children, he]) fits hv) hs
      · exact ih cond (by simp [Expr.children]) (fits.child .synthetic [item]) hi
    | reduce input initial body =>
      obtain ⟨_, source, first, inside, hs, ht, hi, rfl⟩ := Expr.rendersTo_reduce.mp renders
      rw [strings_fold_document, List.forall_mem_append, List.forall_mem_append]
      refine ⟨?_, ?_, ?_⟩
      · exact scoped_source fits targets plain
          (fun e he v hv => ih e (by simp [Expr.children, he]) fits hv) hs
      · exact ih initial (by simp [Expr.children]) fits ht
      · exact ih body (by simp [Expr.children])
          (fits.child .synthetic [text "value", text "this"]) hi
    | letIn vars body =>
      obtain ⟨_, values, inside, hv, hi, rfl⟩ := Expr.rendersTo_letIn.mp renders
      rw [strings_binding_document, List.forall_mem_append, keys_of_renderEntries hv]
      refine ⟨?_, ?_⟩
      · refine scoped_entries (fun e he v hv => ih e ?_ fits hv) ?_ hv
        · simp only [Expr.children, List.mem_append, he, true_or]
        · exact fun p hp => isReference_variableName (wellFormed.1 p hp)
      · exact ih body (by simp [Expr.children]) (fits.child .inheriting (vars.map (·.1))) hi

/-- In a compiled document no string inside a construct that hides the document refers to it, and
every variable is bound around it, by the system, or by the context of the compilation. -/
theorem compile_strings_scoped {c : Compiler} {ctx : Context} {e : Expr} {d : Value}
    (targets : ctx.hasPlainTargets = true) (built : e.Built) (plain : e.isPlain = true)
    (compiled : (c.compile (some e) ctx).1 = .ok d) : ∀ o ∈ d.strings {}, Scoped ctx o := by
  obtain ⟨e', he, _, renders⟩ := compile_eq_ok.mp compiled
  cases he
  exact scoped_of_rendersTo targets (built.regular plain) (Position.fits_start ctx) renders

/-- A scope with a renamed variable over a root that shows one field. -/
def pricingContext : Context :=
  .child .inheriting (.ofList [.renamed (text "rate") (text "settings.rate")])
    (.restricted (.ofList [.renamed (text "items") (text "order.items")]))

def pricedItems : Expr :=
  .map (.field (text "items")) (text "item")
    (.operator (text "$multiply") [.field (text "item.price"), .field (text "rate.gross")])

def pricedItemsDocument : Value :=
  Expr.iterationDocument "$map" "in" (.string (text "$order.items")) (text "item")
    (Value.doc (text "$multiply")
      (.list [.string (text "$$item.price"), .string (text "$$settings.rate.gross")]))

theorem pricedItems_built : pricedItems.Built := by
  refine .map_of (.operator_of _ ?_) rfl
  simp only [List.forall_mem_cons, List.not_mem_nil, false_imp_iff, implies_true, and_true]
  exact ⟨.field _, .field _⟩

theorem pricedItems_strings_scoped :
    pricingContext.hasPlainTargets = true ∧ pricedItems.isPlain = true ∧
      (({} : Compiler).compile (some pricedItems) pricingContext).1 = .ok pricedItemsDocument ∧
      ∀ o ∈ pricedItemsDocument.strings {}, Scoped pricingContext o :=
  ⟨by decide, by decide, rfl,
    @compile_strings_scoped {} _ _ _ (by decide) pricedItems_built (by decide) rfl⟩

end ScopedAggregation
