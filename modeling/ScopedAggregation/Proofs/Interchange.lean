import ScopedAggregation.Definition
import ScopedAggregation.Proofs.PipelineRun
import ScopedAggregation.Proofs.RenderSuccess

namespace ScopedAggregation

/-- The expressions are there and render to the same documents. -/
structure Expr.Interchangeable (e e' : Expr) : Prop where
  left : e ≠ .absent
  right : e' ≠ .absent
  renders : ∀ limit depth ctx v, e.RendersTo limit depth ctx v ↔ e'.RendersTo limit depth ctx v

/-- The sources are there and render to the same documents. A field as a source is rendered without a
look at the depth, so that this is asked for within the limit only. -/
structure Source.Interchangeable (s s' : Source) : Prop where
  left : s ≠ .field []
  right : s' ≠ .field []
  renders : ∀ limit depth ctx v, depth < limit →
    (s.RendersTo limit depth ctx v ↔ s'.RendersTo limit depth ctx v)

def EntryInterchangeable (q q' : Text × Expr) : Prop := q.1 = q'.1 ∧ q.2.Interchangeable q'.2

namespace Expr

variable {e e' body body' : Expr} {limit depth : Nat} {ctx : Context} {v : Value}

theorem Interchangeable.refl (h : e ≠ .absent) : e.Interchangeable e :=
  ⟨h, h, fun _ _ _ _ => Iff.rfl⟩

theorem Interchangeable.symm (h : e.Interchangeable e') : e'.Interchangeable e :=
  ⟨h.right, h.left, fun limit depth ctx v => (h.renders limit depth ctx v).symm⟩

theorem lt_of_rendersTo (given : e ≠ .absent) (h : e.RendersTo limit depth ctx v) :
    depth < limit := by
  obtain ⟨n, h⟩ := h
  cases e with
  | absent => exact absurd rfl given
  | _ =>
    simp only [render] at h
    obtain ⟨_, hd, -⟩ := bind_eq_ok.mp h
    exact checkDepth_eq_ok.mp hd

theorem rendersTo_items {es es' : List Expr} (h : List.Forall₂ Interchangeable es es')
    {vs : List Value} (hvs : List.Forall₂ (RendersTo limit depth ctx) es vs) :
    List.Forall₂ (RendersTo limit depth ctx) es' vs := by
  induction h generalizing vs with
  | nil => exact hvs
  | cons he _ ih =>
    cases hvs with
    | cons hv hrest => exact .cons ((he.renders _ _ _ _).mp hv) (ih hrest)

theorem rendersTo_entries {es es' : List (Text × Expr)}
    (h : List.Forall₂ EntryInterchangeable es es') {vs : List (Text × Value)}
    (hvs : List.Forall₂ (EntryRendersTo limit depth ctx) es vs) :
    List.Forall₂ (EntryRendersTo limit depth ctx) es' vs := by
  induction h generalizing vs with
  | nil => exact hvs
  | cons he _ ih =>
    cases hvs with
    | cons hv hrest =>
      exact .cons ⟨hv.1.trans he.1, (he.2.renders _ _ _ _).mp hv.2⟩ (ih hrest)

theorem rendersTo_items_iff {es es' : List Expr} (h : List.Forall₂ Interchangeable es es')
    {vs : List Value} : List.Forall₂ (RendersTo limit depth ctx) es vs ↔
      List.Forall₂ (RendersTo limit depth ctx) es' vs :=
  ⟨rendersTo_items h, rendersTo_items (h.flip.imp fun _ _ => .symm)⟩

theorem rendersTo_entries_iff {es es' : List (Text × Expr)}
    (h : List.Forall₂ EntryInterchangeable es es') {vs : List (Text × Value)} :
    List.Forall₂ (EntryRendersTo limit depth ctx) es vs ↔
      List.Forall₂ (EntryRendersTo limit depth ctx) es' vs :=
  ⟨rendersTo_entries h, rendersTo_entries (h.flip.imp fun _ _ hq => ⟨hq.1.symm, hq.2.symm⟩)⟩

theorem interchangeable_operator {args args' : List Expr} (op : Text)
    (h : List.Forall₂ Interchangeable args args') :
    (operator op args).Interchangeable (operator op args') := by
  refine ⟨by simp, by simp, fun limit depth ctx v => ?_⟩
  simp only [rendersTo_operator, rendersTo_items_iff h]

theorem interchangeable_array {elements elements' : List Expr}
    (h : List.Forall₂ Interchangeable elements elements') :
    (array elements).Interchangeable (array elements') := by
  refine ⟨by simp, by simp, fun limit depth ctx v => ?_⟩
  simp only [rendersTo_array, rendersTo_items_iff h]

theorem interchangeable_object {entries entries' : List (Text × Expr)}
    (h : List.Forall₂ EntryInterchangeable entries entries') :
    (object entries).Interchangeable (object entries') := by
  refine ⟨by simp, by simp, fun limit depth ctx v => ?_⟩
  simp only [rendersTo_object, rendersTo_entries_iff h]

theorem interchangeable_letIn {vars vars' : List (Text × Expr)}
    (hvars : List.Forall₂ EntryInterchangeable vars vars') (hbody : body.Interchangeable body') :
    (letIn vars body).Interchangeable (letIn vars' body') := by
  refine ⟨by simp, by simp, fun limit depth ctx v => ?_⟩
  have names : vars.map (·.1) = vars'.map (·.1) := forall₂_map_eq hvars fun _ _ h => h.1
  simp only [rendersTo_letIn, rendersTo_entries_iff hvars, names, hbody.renders]

variable {input input' : Source}

/-- A body that renders lies within the limit, and so does the source beside it. -/
theorem source_body_iff {inside : Context} {source inner : Value}
    (hinput : input.Interchangeable input') (hbody : body.Interchangeable body') :
    input.RendersTo limit depth ctx source ∧ body.RendersTo limit depth inside inner ↔
      input'.RendersTo limit depth ctx source ∧ body'.RendersTo limit depth inside inner := by
  have inner_iff := hbody.renders limit depth inside inner
  constructor
  · rintro ⟨hs, hi⟩
    have hlt := lt_of_rendersTo hbody.left hi
    exact ⟨(hinput.renders limit depth ctx source hlt).mp hs, inner_iff.mp hi⟩
  · rintro ⟨hs, hi⟩
    have hlt := lt_of_rendersTo hbody.right hi
    exact ⟨(hinput.renders limit depth ctx source hlt).mpr hs, inner_iff.mpr hi⟩

theorem interchangeable_map (item : Text) (hinput : input.Interchangeable input')
    (hbody : body.Interchangeable body') :
    (map input item body).Interchangeable (map input' item body') := by
  refine ⟨by simp, by simp, fun limit depth ctx v => ?_⟩
  simp only [rendersTo_map, ← and_assoc, source_body_iff hinput hbody]

theorem interchangeable_filter (item : Text) (hinput : input.Interchangeable input')
    (hcond : body.Interchangeable body') :
    (filter input item body).Interchangeable (filter input' item body') := by
  refine ⟨by simp, by simp, fun limit depth ctx v => ?_⟩
  simp only [rendersTo_filter, ← and_assoc, source_body_iff hinput hcond]

theorem interchangeable_reduce (hinput : input.Interchangeable input')
    (hinitial : e.Interchangeable e') (hbody : body.Interchangeable body') :
    (reduce input e body).Interchangeable (reduce input' e' body') := by
  refine ⟨by simp, by simp, fun limit depth ctx v => ?_⟩
  have both : ∀ source start inner,
      input.RendersTo limit (depth + 1) ctx source ∧ e.RendersTo limit (depth + 1) ctx start ∧
        body.RendersTo limit (depth + 1) (foldScope ctx) inner ∧
        v = foldDocument source start inner ↔
      input'.RendersTo limit (depth + 1) ctx source ∧ e'.RendersTo limit (depth + 1) ctx start ∧
        body'.RendersTo limit (depth + 1) (foldScope ctx) inner ∧
        v = foldDocument source start inner := by
    intro source start inner
    have hstart := hinitial.renders limit (depth + 1) ctx start
    have hinner := @source_body_iff _ _ limit (depth + 1) ctx _ _ (foldScope ctx) source inner
      hinput hbody
    tauto
  simp only [rendersTo_reduce, both]

end Expr

/-- A field can be a source by itself or as an expression. -/
theorem Source.interchangeable_field {e : Expr} {path : Text} (given : path ≠ [])
    (h : e.Interchangeable (.field path)) : (Source.expr e).Interchangeable (.field path) := by
  refine ⟨by simp, by simpa using given, fun limit depth ctx v hlt => ?_⟩
  rw [Source.rendersTo_expr, Source.rendersTo_field, h.renders, Expr.rendersTo_field]
  exact and_iff_right hlt

theorem Source.interchangeable_expr {e e' : Expr} (h : e.Interchangeable e') :
    (Source.expr e).Interchangeable (.expr e') := by
  refine ⟨by simp, by simp, fun limit depth ctx v _ => ?_⟩
  rw [Source.rendersTo_expr, Source.rendersTo_expr]
  exact h.renders limit depth ctx v

theorem Source.Interchangeable.refl {s : Source} (h : s ≠ .field []) : s.Interchangeable s :=
  ⟨h, h, fun _ _ _ _ _ => Iff.rfl⟩

namespace Compiling

variable {ε ε' α β : Type}

/-- Whatever was recorded before, the runs end with the same value, or both fail. -/
def EndsAlike (x : Compiling ε α) (y : Compiling ε' α) : Prop :=
  ∀ log log', (x log).1.toOption = (y log').1.toOption

theorem endsAlike_pure (a : α) : EndsAlike (pure a : Compiling ε α) (pure a : Compiling ε' α) :=
  fun _ _ => rfl

theorem endsAlike_throw (e : ε) (e' : ε') :
    EndsAlike (throw e : Compiling ε α) (throw e' : Compiling ε' α) :=
  fun _ _ => rfl

theorem EndsAlike.bind {x : Compiling ε α} {y : Compiling ε' α} {f : α → Compiling ε β}
    {g : α → Compiling ε' β} (hx : EndsAlike x y) (hf : ∀ a, EndsAlike (f a) (g a)) :
    EndsAlike (x >>= f) (y >>= g) := by
  intro log log'
  have same := hx log log'
  rw [run_bind, run_bind]
  generalize x log = rx at same
  generalize y log' = ry at same
  obtain ⟨e | a, mid⟩ := rx
  · obtain ⟨e' | a', mid'⟩ := ry
    · rfl
    · cases same
  · obtain ⟨e' | a', mid'⟩ := ry
    · cases same
    · cases same
      exact hf a mid mid'

end Compiling

open Compiling (EndsAlike endsAlike_pure endsAlike_throw)

theorem Compiler.run_endsAlike (c : Compiler) (ctx : Context) {e e' : Expr}
    (h : e.Interchangeable e') : EndsAlike (c.run (some e) ctx) (c.run (some e') ctx) := by
  intro log log'
  refine toOption_eq_of_iff fun v => ?_
  change (c.compile (some e) ctx).1 = .ok v ↔ (c.compile (some e') ctx).1 = .ok v
  simp only [compile_eq_ok, Option.some.injEq, exists_eq_left']
  simp only [h.left, h.right, ne_eq, not_false_eq_true, true_and, h.renders]

theorem Compiler.run_field_endsAlike (c : Compiler) (ctx : Context) (path : Text) :
    EndsAlike (c.run (some (.field path)) ctx) (c.run (some (.field path)) ctx) :=
  c.run_endsAlike ctx (.refl (by simp))

section

variable {c : Compiler} {ctx : Context}

/-- Groupings by the same key, with outputs of the same names. -/
structure GroupStage.Interchangeable (g g' : GroupStage) : Prop where
  keys : g.keys = g'.keys
  error : g.error = g'.error
  accumulators : List.Forall₂ (fun a a' : Accumulator => a.op = a'.op ∧ a.output = a'.output ∧
    a.value.Interchangeable a'.value) g.accumulators g'.accumulators

theorem GroupStage.renderKeys_endsAlike (fs : List Field) :
    EndsAlike (renderKeys c ctx fs) (renderKeys c ctx fs) := by
  induction fs with
  | nil => exact endsAlike_pure []
  | cons f fs ih =>
    exact (c.run_field_endsAlike ctx f.target).bind fun v => ih.bind fun rest => endsAlike_pure _

theorem GroupStage.renderKey_endsAlike {g g' : GroupStage} (keys : g.keys = g'.keys) :
    EndsAlike (g.renderKey c ctx) (g'.renderKey c ctx) := by
  unfold renderKey
  rw [keys]
  split
  next => exact endsAlike_pure _
  next f _ => exact c.run_field_endsAlike ctx f.target
  next => exact (renderKeys_endsAlike g'.keys.toList).bind fun _ => endsAlike_pure _

theorem GroupStage.renderOutputs_endsAlike {as as' : List Accumulator}
    (h : List.Forall₂ (fun a a' : Accumulator => a.op = a'.op ∧ a.output = a'.output ∧
      a.value.Interchangeable a'.value) as as') :
    EndsAlike (renderOutputs c ctx as) (renderOutputs c ctx as') := by
  induction h with
  | nil => exact endsAlike_pure []
  | @cons a a' _ _ ha _ ih =>
    obtain ⟨hop, houtput, hvalue⟩ := ha
    refine (c.run_endsAlike ctx hvalue).bind fun v => ih.bind fun rest => ?_
    rw [hop, houtput]
    exact endsAlike_pure _

theorem GroupStage.Interchangeable.render_endsAlike {g g' : GroupStage} (h : g.Interchangeable g') :
    EndsAlike (g.render c ctx) (g'.render c ctx) := by
  unfold render
  rw [h.error]
  split
  next e _ => exact endsAlike_throw e e
  next =>
    exact (renderKey_endsAlike h.keys).bind fun _ =>
      (renderOutputs_endsAlike h.accumulators).bind fun _ => endsAlike_pure _

theorem GroupStage.Interchangeable.fields_eq {g g' : GroupStage} (h : g.Interchangeable g') :
    g.fields = g'.fields := by
  have outputs : (g.accumulators.map fun a => Field.ofName a.output) =
      g'.accumulators.map fun a => Field.ofName a.output :=
    forall₂_map_eq h.accumulators fun a a' ha => congrArg Field.ofName ha.2.1
  simp only [fields, h.keys, outputs]

/-- Projections of the same fields, with computed outputs of the same names. -/
structure ProjectStage.Interchangeable (p p' : ProjectStage) : Prop where
  included : p.included = p'.included
  error : p.error = p'.error
  computed : List.Forall₂ EntryInterchangeable p.computed p'.computed

theorem ProjectStage.renderIncluded_endsAlike (fs : List Field) :
    EndsAlike (renderIncluded c ctx fs) (renderIncluded c ctx fs) := by
  induction fs with
  | nil => exact endsAlike_pure []
  | cons f fs ih =>
    exact (c.run_field_endsAlike ctx f.target).bind fun v => ih.bind fun rest => endsAlike_pure _

theorem ProjectStage.renderComputed_endsAlike {es es' : List (Text × Expr)}
    (h : List.Forall₂ EntryInterchangeable es es') :
    EndsAlike (renderComputed c ctx es) (renderComputed c ctx es') := by
  induction h with
  | nil => exact endsAlike_pure []
  | @cons q q' _ _ hq _ ih =>
    obtain ⟨output, e⟩ := q
    obtain ⟨output', e'⟩ := q'
    obtain ⟨houtput, he⟩ := hq
    refine (c.run_endsAlike ctx he).bind fun v => ih.bind fun rest => ?_
    rw [show output = output' from houtput]
    exact endsAlike_pure _

theorem ProjectStage.Interchangeable.render_endsAlike {p p' : ProjectStage} (h : p.Interchangeable p') :
    EndsAlike (p.render c ctx) (p'.render c ctx) := by
  have empty : p.computed.isEmpty = p'.computed.isEmpty := by
    have hcomputed := h.computed
    generalize p.computed = es at hcomputed
    generalize p'.computed = es' at hcomputed
    cases hcomputed with
    | nil => rfl
    | cons => rfl
  unfold render
  rw [h.error, h.included, empty]
  split
  next e _ => exact endsAlike_throw e e
  next =>
    split
    next => exact endsAlike_throw _ _
    next =>
      exact (renderIncluded_endsAlike p'.included.toList).bind fun _ =>
        (renderComputed_endsAlike h.computed).bind fun _ => endsAlike_pure _

theorem ProjectStage.Interchangeable.fields_eq {p p' : ProjectStage} (h : p.Interchangeable p') :
    p.fields = p'.fields := by
  have outputs : (p.computed.map fun q => Field.ofName q.1) =
      p'.computed.map fun q => Field.ofName q.1 :=
    forall₂_map_eq h.computed fun q q' hq => congrArg Field.ofName hq.1
  simp only [fields, h.included, outputs]

inductive Stage.Interchangeable : Stage → Stage → Prop
  | filter {e e' : Expr} (h : e.Interchangeable e') :
    Interchangeable (.filter (some e)) (.filter (some e'))
  | group {g g' : GroupStage} (h : g.Interchangeable g') : Interchangeable (.group g) (.group g')
  | project {p p' : ProjectStage} (h : p.Interchangeable p') :
    Interchangeable (.project p) (.project p')

/-- One stage: it renders to the same document and lets the same fields through. -/
theorem Stage.Interchangeable.render_endsAlike {s s' : Stage} (h : s.Interchangeable s') :
    EndsAlike (s.render c ctx) (s'.render c ctx) ∧ s.fields? = s'.fields? := by
  cases h with
  | filter h => exact ⟨(c.run_endsAlike ctx h).bind fun _ => endsAlike_pure _, rfl⟩
  | group h => exact ⟨h.render_endsAlike, congrArg some h.fields_eq⟩
  | project h => exact ⟨h.render_endsAlike, congrArg some h.fields_eq⟩

theorem Pipeline.inStage_endsAlike {α : Type} {i i' : Nat} {name name' : Text}
    {x y : Compiling CompileError α} (h : EndsAlike x y) :
    EndsAlike (inStage i name x) (inStage i' name' y) := by
  have same : ∀ (i : Nat) (name : Text) (x : Compiling CompileError α) (log : List Attempt),
      (inStage i name x log).1.toOption = (x log).1.toOption := by
    intro i name x log
    unfold inStage
    split
    next hx =>
      rw [hx]
      rfl
    next hx =>
      rw [hx]
      rfl
  intro log log'
  rw [same, same]
  exact h log log'

/-- All stages, each in the context that those before it leave. -/
theorem Pipeline.renderStages_endsAlike {stages stages' : List Stage}
    (h : List.Forall₂ Stage.Interchangeable stages stages') (i : Nat) (ctx : Context) :
    EndsAlike (renderStages c i ctx (stages.map some)) (renderStages c i ctx (stages'.map some)) := by
  induction h generalizing i ctx with
  | nil => exact endsAlike_pure []
  | @cons s s' _ _ hs _ ih =>
    obtain ⟨hrender, hfields⟩ := @hs.render_endsAlike c ctx
    have next : contextAfter ctx [some s] = contextAfter ctx [some s'] := by
      simp only [contextAfter, hfields]
    rw [List.map_cons, List.map_cons, renderStages_cons, renderStages_cons, next]
    exact (inStage_endsAlike hrender).bind fun v => (ih (i + 1) _).bind fun vs => endsAlike_pure _

end

inductive Body.Interchangeable : Body → Body → Prop
  | expression {e e' : Expr} (h : e.Interchangeable e') :
    Interchangeable (.expression e) (.expression e')
  | stages {stages stages' : List Stage} (h : List.Forall₂ Stage.Interchangeable stages stages') :
    Interchangeable (.stages stages) (.stages stages')

structure Definition.Interchangeable (definition definition' : Definition) : Prop where
  input : definition.input = definition'.input
  body : definition.body.Interchangeable definition'.body

theorem Definition.Interchangeable.compile_endsAlike {definition definition' : Definition}
    (h : definition.Interchangeable definition') (c : Compiler) :
    EndsAlike (compile c definition) (compile c definition') := by
  obtain ⟨hinput, hbody⟩ := h
  unfold compile
  rw [hinput]
  generalize definition.body = body at hbody
  generalize definition'.body = body' at hbody
  cases hbody with
  | expression h =>
    intro log log'
    have same := c.run_endsAlike (Context.ofInput definition'.input) h log log'
    dsimp only
    split
    next hrun =>
      rw [hrun] at same
      split
      next hrun' => rwa [hrun'] at same
      next hrun' =>
        rw [hrun'] at same
        cases same
    next hrun =>
      rw [hrun] at same
      split
      next hrun' =>
        rw [hrun'] at same
        cases same
      next => rfl
  | stages h => exact (Pipeline.renderStages_endsAlike h 0 _).bind fun _ => endsAlike_pure _

end ScopedAggregation
