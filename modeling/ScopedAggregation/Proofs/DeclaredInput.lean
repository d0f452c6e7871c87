import ScopedAggregation.Proofs.DefinitionReading

namespace ScopedAggregation

/-- The input of an iterating construct as an expression. -/
def Source.toExpr : Source → Expr
  | .field path => .field path
  | .expr e => e

namespace Expr

/-- The expressions right below a node, with the contexts that they are rendered in. -/
def scopedParts (ctx : Context) : Expr → List (Context × Expr)
  | .operator _ args => args.map (ctx, ·)
  | .array elements => elements.map (ctx, ·)
  | .object entries => entries.map fun q => (ctx, q.2)
  | .map input item body => [(ctx, input.toExpr), (itemScope item ctx, body)]
  | .filter input item cond => [(ctx, input.toExpr), (itemScope item ctx, cond)]
  | .reduce input initial body => [(ctx, input.toExpr), (ctx, initial), (foldScope ctx, body)]
  | .letIn vars body =>
    vars.map (fun q => (ctx, q.2)) ++ [(bindingScope (vars.map (·.1)) ctx, body)]
  | _ => []

/-- The parts of an expression at any depth, with the contexts that they are rendered in. -/
inductive Occurs (start : Context) (e : Expr) : Context → Expr → Prop
  | here : Occurs start e start e
  | deeper {ctx inner : Context} {part child : Expr} (h : Occurs start e ctx part)
    (mem : (inner, child) ∈ part.scopedParts ctx) : Occurs start e inner child

/-- The expression renders in the context, at some depth under some limit. -/
def Renders (ctx : Context) (e : Expr) : Prop := ∃ limit depth v, e.RendersTo limit depth ctx v

end Expr

section

variable {limit depth : Nat} {ctx inner : Context} {child : Expr}

/-- The reference of a source is rendered without a look at the depth. -/
theorem Source.renders_toExpr {s : Source} {v : Value} (h : s.RendersTo limit depth ctx v) :
    s.toExpr.Renders ctx := by
  cases s with
  | field path =>
    exact ⟨1, 0, v, Expr.rendersTo_field.mpr ⟨Nat.one_pos, Source.rendersTo_field.mp h⟩⟩
  | expr e => exact ⟨limit, depth, v, Source.rendersTo_expr.mp h⟩

theorem Expr.renders_items {es : List Expr} {vs : List Value}
    (h : List.Forall₂ (RendersTo limit depth ctx) es vs)
    (mem : (inner, child) ∈ es.map (ctx, ·)) : child.Renders inner := by
  obtain ⟨e, he, heq⟩ := List.mem_map.mp mem
  cases heq
  obtain ⟨v, -, hv⟩ := forall₂_mem_left h he
  exact ⟨limit, depth, v, hv⟩

theorem Expr.renders_entries {es : List (Text × Expr)} {vs : List (Text × Value)}
    (h : List.Forall₂ (EntryRendersTo limit depth ctx) es vs)
    (mem : (inner, child) ∈ es.map fun q => (ctx, q.2)) : child.Renders inner := by
  obtain ⟨q, hq, heq⟩ := List.mem_map.mp mem
  cases heq
  obtain ⟨v, -, -, hv⟩ := forall₂_mem_left h hq
  exact ⟨limit, depth, v.2, hv⟩

/-- One step down: where a node renders, so do the expressions below it. -/
theorem Expr.Renders.part {e : Expr} (h : e.Renders ctx)
    (mem : (inner, child) ∈ e.scopedParts ctx) : child.Renders inner := by
  obtain ⟨limit, depth, v, h⟩ := h
  cases e with
  | operator op args =>
    obtain ⟨-, vs, hvs, -⟩ := rendersTo_operator.mp h
    exact renders_items hvs mem
  | array elements =>
    obtain ⟨-, vs, hvs, -⟩ := rendersTo_array.mp h
    exact renders_items hvs mem
  | object entries =>
    obtain ⟨-, vs, hvs, -⟩ := rendersTo_object.mp h
    exact renders_entries hvs mem
  | map input item body =>
    obtain ⟨-, source, inside, hsource, hinside, -⟩ := rendersTo_map.mp h
    rcases List.mem_cons.mp mem with heq | mem
    · cases heq
      exact Source.renders_toExpr hsource
    · cases List.mem_singleton.mp mem
      exact ⟨limit, depth + 1, inside, hinside⟩
  | filter input item cond =>
    obtain ⟨-, source, inside, hsource, hinside, -⟩ := rendersTo_filter.mp h
    rcases List.mem_cons.mp mem with heq | mem
    · cases heq
      exact Source.renders_toExpr hsource
    · cases List.mem_singleton.mp mem
      exact ⟨limit, depth + 1, inside, hinside⟩
  | reduce input initial body =>
    obtain ⟨-, source, start, inside, hsource, hstart, hinside, -⟩ := rendersTo_reduce.mp h
    rcases List.mem_cons.mp mem with heq | mem
    · cases heq
      exact Source.renders_toExpr hsource
    rcases List.mem_cons.mp mem with heq | mem
    · cases heq
      exact ⟨limit, depth + 1, start, hstart⟩
    · cases List.mem_singleton.mp mem
      exact ⟨limit, depth + 1, inside, hinside⟩
  | letIn vars body =>
    obtain ⟨-, values, inside, hvalues, hinside, -⟩ := rendersTo_letIn.mp h
    rcases List.mem_append.mp mem with mem | mem
    · exact renders_entries hvalues mem
    · cases List.mem_singleton.mp mem
      exact ⟨limit, depth + 1, inside, hinside⟩
  | absent | field | var | literal | raw | faulty => cases mem

theorem Expr.restriction_of_mem {e : Expr} (mem : (inner, child) ∈ e.scopedParts ctx) :
    inner.restriction = ctx.restriction := by
  have items : ∀ es : List Expr, (inner, child) ∈ es.map (ctx, ·) → inner = ctx := by
    intro es hes
    obtain ⟨e, -, heq⟩ := List.mem_map.mp hes
    cases heq
    rfl
  have entries : ∀ es : List (Text × Expr), ((inner, child) ∈ es.map fun q => (ctx, q.2)) →
      inner = ctx := by
    intro es hes
    obtain ⟨e, -, heq⟩ := List.mem_map.mp hes
    cases heq
    rfl
  cases e with
  | operator op args => rw [items args mem]
  | array elements => rw [items elements mem]
  | object es => rw [entries es mem]
  | map input item body =>
    rcases List.mem_cons.mp mem with heq | mem
    · cases heq
      rfl
    · cases List.mem_singleton.mp mem
      rfl
  | filter input item cond =>
    rcases List.mem_cons.mp mem with heq | mem
    · cases heq
      rfl
    · cases List.mem_singleton.mp mem
      rfl
  | reduce input initial body =>
    rcases List.mem_cons.mp mem with heq | mem
    · cases heq
      rfl
    rcases List.mem_cons.mp mem with heq | mem
    · cases heq
      rfl
    · cases List.mem_singleton.mp mem
      rfl
  | letIn vars body =>
    rcases List.mem_append.mp mem with mem | mem
    · rw [entries vars mem]
    · cases List.mem_singleton.mp mem
      rfl
  | absent | field | var | literal | raw | faulty => cases mem

/-- All the way down: every part of an expression that renders has rendered, under the restriction
that the expression itself is under. -/
theorem Expr.Occurs.renders {start : Context} {e part : Expr} (h : e.Renders start)
    (occurs : e.Occurs start ctx part) :
    part.Renders ctx ∧ ctx.restriction = start.restriction := by
  induction occurs with
  | here => exact ⟨h, rfl⟩
  | deeper _ mem ih => exact ⟨ih.1.part mem, (restriction_of_mem mem).trans ih.2⟩

end

theorem Context.head_mem_names {ctx : Context} {fields : Fields} {name path : Text}
    (restricted : ctx.restriction = some fields) (h : ctx.documentPath? name = some path) :
    name.head ∈ fields.names := by
  induction ctx with
  | root => cases restricted
  | restricted shown =>
    cases Option.some.inj restricted
    obtain ⟨f, hf, -⟩ := Option.map_eq_some_iff.mp h
    have hname : f.name = name.head := by simpa using List.find?_some hf
    exact hname ▸ List.mem_map_of_mem (List.mem_of_find?_eq_some hf)
  | child exposure shown parent ih => exact ih restricted h

/-- Every field that the expression refers to resolves where it stands, and it is one of the document
only if it is declared. -/
def Expr.RefersWithin (declared : Fields) (e : Expr) : Prop :=
  ∀ ctx path, e.Occurs (Context.ofInput declared) ctx (.field path) →
    ∃ r, ctx.resolve path = .ok r ∧ (r.kind = .field → path.head ∈ declared.names)

theorem Expr.refersWithin_of_renders {declared : Fields} {e : Expr} (given : 0 < declared.size)
    (h : e.Renders (Context.ofInput declared)) : e.RefersWithin declared := by
  intro ctx path occurs
  obtain ⟨⟨limit, depth, v, hv⟩, hrestriction⟩ := occurs.renders h
  obtain ⟨-, hfield⟩ := Expr.rendersTo_field.mp hv
  obtain ⟨r, hr, -⟩ := renderField_eq_ok.mp hfield
  refine ⟨r, hr, ?_⟩
  have restricted : ctx.restriction = some declared := by
    rw [hrestriction, Context.ofInput, if_pos given, Context.restriction]
  intro hkind
  cases (Context.resolve_ok hr).2 with
  | exposed => cases hkind
  | system => cases hkind
  | document _ _ _ reads => exact Context.head_mem_names restricted reads

/-- Without declared fields the root is not restricted at all. -/
theorem Expr.not_refersWithin_none : ¬ (Expr.field (text "a")).RefersWithin {} := by
  intro h
  obtain ⟨r, hr, hmem⟩ := h .root (text "a") .here
  have hfield : Context.root.resolve (text "a") = .ok ⟨.field, text "a", text "a"⟩ := by decide
  cases hfield.symm.trans hr
  exact absurd (hmem rfl) List.not_mem_nil

theorem Compiler.Compiles.renders {c : Compiler} {ctx : Context} {e : Expr} {v : Value}
    (h : c.Compiles ctx e v) : e.Renders ctx := by
  obtain ⟨e', he, -, hv⟩ := compile_eq_ok.mp h
  cases he
  exact ⟨c.maxDepth, 0, v, hv⟩

section

variable {c : Compiler} {ctx : Context} {log last : List Attempt}

theorem ProjectStage.renderIncluded_eq_ok {fs : List Field} {es : Entries}
    (h : renderIncluded c ctx fs log = (.ok es, last)) :
    ∀ f ∈ fs, (Expr.field f.target).Renders ctx := by
  induction fs generalizing es log last with
  | nil => simp
  | cons f fs ih =>
    obtain ⟨v, mid, hv, h⟩ := Compiling.run_bind_eq_ok.mp h
    obtain ⟨rest, mid', hrest, -⟩ := Compiling.run_bind_eq_ok.mp h
    exact List.forall_mem_cons.mpr ⟨(Compiler.compiles_of_run hv).renders, ih hrest⟩

theorem ProjectStage.renderComputed_eq_ok {computed : List (Text × Expr)} {es : Entries}
    (h : renderComputed c ctx computed log = (.ok es, last)) :
    ∀ q ∈ computed, q.2.Renders ctx := by
  induction computed generalizing es log last with
  | nil => simp
  | cons q computed ih =>
    obtain ⟨v, mid, hv, h⟩ := Compiling.run_bind_eq_ok.mp h
    obtain ⟨rest, mid', hrest, -⟩ := Compiling.run_bind_eq_ok.mp h
    exact List.forall_mem_cons.mpr ⟨(Compiler.compiles_of_run hv).renders, ih hrest⟩

theorem GroupStage.renderKey_eq_ok {g : GroupStage} {key : Value}
    (h : g.renderKey c ctx log = (.ok key, last)) :
    ∀ f ∈ g.keys.toList, (Expr.field f.target).Renders ctx := by
  rcases hk : g.keys.toList with _ | ⟨f, _ | ⟨f', fs⟩⟩
  · simp
  · exact List.forall_mem_singleton.mpr (renderKey_single hk h).renders
  · have hsize : 1 < g.keys.size := by simp [Fields.size, hk]
    obtain ⟨es, -, hes⟩ := renderKey_several hsize h
    intro f hf
    obtain ⟨q, -, -, hq⟩ := forall₂_mem_left hes (hk ▸ hf)
    exact hq.renders

/-- One stage: where it renders, its expressions have rendered. -/
theorem Stage.expressions_render {s : Stage} {doc : Value}
    (h : s.render c ctx log = (.ok doc, last)) : ∀ e ∈ s.expressions, e.Renders ctx := by
  cases s with
  | filter cond =>
    cases cond with
    | none => simp [expressions]
    | some e =>
      obtain ⟨v, mid, hv, -⟩ := Compiling.run_bind_eq_ok.mp h
      simpa [expressions] using (Compiler.compiles_of_run hv).renders
  | group g =>
    obtain ⟨key, outputs, -, ⟨mid, mid', hkey⟩, houtputs⟩ := GroupStage.render_eq_ok h
    refine List.forall_mem_append.mpr ⟨?_, ?_⟩
    · exact List.forall_mem_map.mpr (GroupStage.renderKey_eq_ok hkey)
    · refine List.forall_mem_map.mpr fun a ha => ?_
      obtain ⟨q, -, -, v, -, hv⟩ := forall₂_mem_left houtputs ha
      exact hv.renders
  | project p =>
    change p.render c ctx log = _ at h
    unfold ProjectStage.render at h
    cases herror : p.error with
    | some e =>
      rw [herror] at h
      cases h
    | none =>
      rw [herror] at h
      dsimp only at h
      split at h
      next => cases h
      next =>
        obtain ⟨included, mid, hincluded, h⟩ := Compiling.run_bind_eq_ok.mp h
        obtain ⟨computed, mid', hcomputed, -⟩ := Compiling.run_bind_eq_ok.mp h
        exact List.forall_mem_append.mpr
          ⟨List.forall_mem_map.mpr (ProjectStage.renderIncluded_eq_ok hincluded),
            List.forall_mem_map.mpr (ProjectStage.renderComputed_eq_ok hcomputed)⟩

namespace Pipeline

/-- The stages up to the first that reshapes its documents, that one with them. -/
def firstStages : List (Option Stage) → List Stage
  | [] => []
  | none :: _ => []
  | some s :: rest => if s.fields?.isSome then [s] else s :: firstStages rest

/-- All first stages render in the context of the first of them. -/
theorem firstStages_render {i : Nat} {stages : List (Option Stage)} {docs : List Value}
    (h : renderStages c i ctx stages log = (.ok docs, last)) :
    ∀ s ∈ firstStages stages, ∃ before doc after, s.render c ctx before = (.ok doc, after) := by
  induction stages generalizing i docs log last with
  | nil => simp [firstStages]
  | cons stage rest ih =>
    cases stage with
    | none => simp [firstStages]
    | some s =>
      rw [renderStages_cons] at h
      obtain ⟨doc, mid, hdoc, h⟩ := Compiling.run_bind_eq_ok.mp h
      obtain ⟨others, mid', hothers, -⟩ := Compiling.run_bind_eq_ok.mp h
      have here : ∃ before doc after, s.render c ctx before = (.ok doc, after) :=
        ⟨log, doc, mid, run_inStage_eq_ok.mp hdoc⟩
      rw [firstStages]
      split
      next => exact List.forall_mem_singleton.mpr here
      next hkeeps =>
        have same : contextAfter ctx [some s] = ctx := by
          simp only [contextAfter, Option.not_isSome_iff_eq_none.mp hkeeps]
        rw [same] at hothers
        exact List.forall_mem_cons.mpr ⟨here, ih hothers⟩

/-- However a pipeline over these declared fields is made, if it renders, then its first stages refer to
declared fields only. -/
def InputBinds (declared : Fields) : Prop :=
  ∀ (c : Compiler) stages log doc last,
    render c { input := declared, stages := stages } log = (.ok doc, last) →
      ∀ s ∈ firstStages stages, ∀ e ∈ s.expressions, e.RefersWithin declared

theorem firstStages_refer {declared : Fields} {stages : List (Option Stage)} {doc : Value}
    (given : 0 < declared.size)
    (h : render c { input := declared, stages := stages } log = (.ok doc, last)) :
    ∀ s ∈ firstStages stages, ∀ e ∈ s.expressions, e.RefersWithin declared := by
  intro s hs e he
  obtain ⟨docs, mid, hdocs, -⟩ := Compiling.run_bind_eq_ok.mp h
  obtain ⟨before, doc, after, hdoc⟩ := firstStages_render hdocs s hs
  exact Expr.refersWithin_of_renders given (Stage.expressions_render hdoc e he)

end Pipeline

end

namespace Definition

open Yaml (Node)

/-- The fields that a source declares, by a sequence or a mapping under the key for the input. -/
def declaredInput? (source : Text) : Option Fields := do
  let d ← (readSource .definition source).toOption
  match d.root with
  | .mapping _ entries =>
    let node ← argument? entries "input"
    (readInput node).toOption
  | _ => none

/-- The expressions that see the input: the only one, or those of the first stages. -/
def firstExpressions (definition : Definition) : List Expr :=
  match definition.body with
  | .expression e => [e]
  | .stages stages => (Pipeline.firstStages (stages.map some)).flatMap Stage.expressions

/-- However a definition that declares these fields is written, if it is read and compiles, then the
expressions that see the input refer to declared fields only. -/
def InputBinds (declared : Fields) : Prop :=
  ∀ source definition (c : Compiler) log doc last, declaredInput? source = some declared →
    parse source = .ok definition → compile c definition log = (.ok doc, last) →
      ∀ e ∈ definition.firstExpressions, e.RefersWithin declared

theorem input_eq_declared {source : Text} {declared : Fields} {definition : Definition}
    (h : declaredInput? source = some declared) (parsed : parse source = .ok definition) :
    definition.input = declared := by
  obtain ⟨d, hd, h⟩ := Option.bind_eq_some_iff.mp h
  rw [parse_eq, toOption_eq_some hd, ok_bind] at parsed
  obtain ⟨line, entries, parts, hroot, hparts, hinput, -⟩ := ofDocument_eq_ok parsed
  rw [hroot] at h
  obtain ⟨node, hnode, hread⟩ := Option.bind_eq_some_iff.mp h
  obtain ⟨-, -, found⟩ := readParts_reading hparts
  rcases found with ⟨hnone, -⟩ | ⟨node', hsome, hread'⟩
  · rw [hnode] at hnone
    cases hnone
  · cases hnode.symm.trans hsome
    rw [hinput]
    exact Except.ok.inj (hread'.symm.trans (toOption_eq_some hread))

theorem inputBinds_of_declared {declared : Fields} (given : 0 < declared.size) :
    InputBinds declared := by
  intro source definition c log doc last declares parsed compiled
  have hinput := input_eq_declared declares parsed
  rw [compile] at compiled
  rw [firstExpressions]
  generalize definition.body = body at compiled
  cases body with
  | expression e =>
    refine List.forall_mem_singleton.mpr (Expr.refersWithin_of_renders given ?_)
    dsimp only at compiled
    split at compiled
    next v mid hrun =>
      rw [← hinput]
      exact (Compiler.compiles_of_run hrun).renders
    next => cases compiled
  | stages stages =>
    intro e he
    obtain ⟨s, hs, he⟩ := List.mem_flatMap.mp he
    dsimp only at compiled
    rw [hinput] at compiled
    exact Pipeline.firstStages_refer given compiled s hs e he

theorem exists_of_isOk {c : Compiler} {definition : Definition} {log : List Attempt}
    (h : (compile c definition log).1.isOk = true) :
    ∃ doc last, compile c definition log = (.ok doc, last) := by
  generalize compile c definition log = run at h
  obtain ⟨result, last⟩ := run
  cases result with
  | error => cases h
  | ok doc => exact ⟨doc, last, rfl⟩

/-- The path of a body that refers to a field. -/
def bodyPath? : Body → Option Text
  | .expression (.field path) => some path
  | _ => none

theorem eq_field_of_bodyPath {body : Body} {path : Text} (h : bodyPath? body = some path) :
    body = .expression (.field path) := by
  unfold bodyPath? at h
  split at h
  next => rw [Option.some.inj h]
  next => cases h

/-- An input without fields, and a reference to a field. -/
def undeclaredField : Text := text "input: []\nexpression: $a"

/-- The reference compiles although the input has no such field. -/
theorem undeclaredField_compiles :
    declaredInput? undeclaredField = some {} ∧
      ∃ definition doc last, parse undeclaredField = .ok definition ∧
        definition.body = .expression (.field (text "a")) ∧
        compile {} definition [] = (.ok doc, last) := by
  refine ⟨by decide +kernel, ?_⟩
  have checked : (parse undeclaredField).toOption.any (fun definition =>
      (compile {} definition []).1.isOk && decide (bodyPath? definition.body = some (text "a"))) =
        true := by decide +kernel
  obtain ⟨definition, hparse, checked⟩ := exists_ok_of_any checked
  obtain ⟨hok, hbody⟩ := Bool.and_eq_true_iff.mp checked
  obtain ⟨doc, last, hrun⟩ := exists_of_isOk hok
  exact ⟨definition, doc, last, hparse, eq_field_of_bodyPath (of_decide_eq_true hbody), hrun⟩

/-- A declared input binds exactly where it declares some field, for pipelines that are built and for
definitions that are read: every reference that sees the input and is one to the document then has its
head among the declared names. -/
theorem declared_input_binds_iff (declared : Fields) :
    (Pipeline.InputBinds declared ↔ 0 < declared.size) ∧
      (InputBinds declared ↔ 0 < declared.size) := by
  have none_of_not : ¬ 0 < declared.size → declared = {} := by
    intro h
    obtain ⟨fields⟩ := declared
    exact congrArg Fields.mk (List.length_eq_zero_iff.mp (Nat.eq_zero_of_not_pos h))
  refine ⟨⟨?_, ?_⟩, ⟨?_, inputBinds_of_declared⟩⟩
  · intro binds
    by_contra hnone
    rw [none_of_not hnone] at binds
    have refers := binds {} [some (.filter (some (.field (text "a"))))] [] _ _ rfl
    exact Expr.not_refersWithin_none
      (refers _ List.mem_cons_self (.field (text "a")) List.mem_cons_self)
  · intro given c stages log doc last rendered
    exact Pipeline.firstStages_refer given rendered
  · intro binds
    by_contra hnone
    rw [none_of_not hnone] at binds
    obtain ⟨hdeclared, definition, doc, last, hparse, hbody, hrun⟩ := undeclaredField_compiles
    have refers := binds undeclaredField definition {} [] doc last hdeclared hparse hrun
    rw [firstExpressions, hbody] at refers
    exact Expr.not_refersWithin_none (List.forall_mem_singleton.mp refers)

/-- A declared field that one stage tests and the next one keeps. -/
def declaredPrice : Text :=
  text "input: \x7bprice: $order.price\x7d\nstages: [\x7b$match: $price\x7d, \x7b$project: \x7bp: $price\x7d\x7d]"

theorem declaredPrice_bound :
    ∃ declared definition doc last, declaredInput? declaredPrice = some declared ∧
      0 < declared.size ∧ parse declaredPrice = .ok definition ∧
      compile {} definition [] = (.ok doc, last) ∧ 0 < definition.firstExpressions.length ∧
      ∀ e ∈ definition.firstExpressions, e.RefersWithin declared := by
  have hdeclared : declaredInput? declaredPrice =
      some (.ofList [.renamed (text "price") (text "order.price")]) := by decide +kernel
  have checked : (parse declaredPrice).toOption.any (fun definition =>
      (compile {} definition []).1.isOk &&
        decide (0 < definition.firstExpressions.length)) = true := by decide +kernel
  obtain ⟨definition, hparse, checked⟩ := exists_ok_of_any checked
  obtain ⟨hok, hsome⟩ := Bool.and_eq_true_iff.mp checked
  obtain ⟨doc, last, hrun⟩ := exists_of_isOk hok
  have binds := (declared_input_binds_iff
    (.ofList [.renamed (text "price") (text "order.price")])).2.mpr (by decide)
  exact ⟨_, definition, doc, last, hdeclared, by decide, hparse, hrun, of_decide_eq_true hsome,
    binds declaredPrice definition {} [] doc last hdeclared hparse hrun⟩

/-- The empty declaration lets a reference to an undeclared field through. -/
theorem undeclaredField_not_bound :
    ∃ definition doc last, declaredInput? undeclaredField = some {} ∧
      parse undeclaredField = .ok definition ∧ compile {} definition [] = (.ok doc, last) ∧
      ∃ e ∈ definition.firstExpressions, ¬ e.RefersWithin {} := by
  obtain ⟨hdeclared, definition, doc, last, hparse, hbody, hrun⟩ := undeclaredField_compiles
  refine ⟨definition, doc, last, hdeclared, hparse, hrun, .field (text "a"), ?_,
    Expr.not_refersWithin_none⟩
  rw [firstExpressions, hbody]
  exact List.mem_cons_self

end Definition

end ScopedAggregation
