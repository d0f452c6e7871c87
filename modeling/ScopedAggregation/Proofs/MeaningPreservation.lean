import ScopedAggregation.Proofs.Meaning

namespace ScopedAggregation

variable {I : Interpretation} {env : Env} {limit depth : Nat} {ctx : Context}

/-- Both computations have a value, and it is the same. -/
def Agree {α : Type} (x y : Option α) : Prop := ∃ a, x = some a ∧ y = some a

theorem Agree.bind {α β : Type} {x y : Option α} {f g : α → Option β} (h : Agree x y)
    (hf : ∀ a, y = some a → Agree (f a) (g a)) : Agree (x.bind f) (y.bind g) := by
  obtain ⟨a, rfl, rfl⟩ := h
  exact hf a rfl

theorem Agree.map {α β : Type} {x y : Option α} (f : α → β) (h : Agree x y) :
    Agree (x.map f) (y.map f) := by
  obtain ⟨a, rfl, rfl⟩ := h
  exact ⟨f a, rfl, rfl⟩

theorem Agree.mapM {α β : Type} {f g : α → Option β} (h : ∀ a, Agree (f a) (g a)) (xs : List α) :
    Agree (xs.mapM f) (xs.mapM g) := by
  induction xs with
  | nil => exact ⟨[], rfl, rfl⟩
  | cons x xs ih =>
    rw [List.mapM_cons, List.mapM_cons]
    exact (h x).bind fun b _ => ih.bind fun bs _ => ⟨b :: bs, rfl, rfl⟩

theorem Agree.foldlM {α β : Type} {f g : β → α → Option β} (h : ∀ b a, Agree (f b a) (g b a))
    (xs : List α) (start : β) : Agree (xs.foldlM f start) (xs.foldlM g start) := by
  induction xs generalizing start with
  | nil => exact ⟨start, rfl, rfl⟩
  | cons x xs ih =>
    rw [List.foldlM_cons, List.foldlM_cons]
    exact (h start x).bind fun b _ => ih b

theorem agree_mapItems {source : Value} {f g : Value → Option Value}
    (h : ∀ v, Agree (f v) (g v)) : Agree (I.mapItems source f) (I.mapItems source g) := by
  unfold Interpretation.mapItems
  cases I.items source with
  | ok items => exact (Agree.mapM h items).map Value.list
  | error v => exact ⟨v, rfl, rfl⟩

theorem agree_filterItems {source : Value} {f g : Value → Option Value}
    (h : ∀ v, Agree (f v) (g v)) : Agree (I.filterItems source f) (I.filterItems source g) := by
  unfold Interpretation.filterItems
  cases I.items source with
  | ok items => exact (Agree.mapM (fun v => (h v).map _) items).map _
  | error v => exact ⟨v, rfl, rfl⟩

theorem agree_reduceItems {source start : Value} {f g : Value → Value → Option Value}
    (h : ∀ acc v, Agree (f acc v) (g acc v)) :
    Agree (I.reduceItems source start f) (I.reduceItems source start g) := by
  unfold Interpretation.reduceItems
  cases I.items source with
  | ok items => exact Agree.foldlM h items start
  | error v => exact ⟨v, rfl, rfl⟩

theorem agree_items {es : List Expr} {vs : List Value}
    (ih : ∀ e ∈ es, ∀ v, e.RendersTo limit depth ctx v → Agree (v.meaning I env) (e.meaning I env))
    (h : List.Forall₂ (Expr.RendersTo limit depth ctx) es vs) :
    Agree (meaningItems I vs env) (meaningAll I es env) := by
  induction h with
  | nil => exact ⟨[], rfl, rfl⟩
  | @cons e v es vs hv hvs ihs =>
    have first := ih e (by simp) v hv
    have others := ihs fun e he => ih e (by simp [he])
    exact first.bind fun w _ => others.bind fun ws _ => ⟨w :: ws, rfl, rfl⟩

theorem agree_entries {es : List (Text × Expr)} {vs : List (Text × Value)}
    (ih : ∀ e ∈ es.map (·.2), ∀ v, e.RendersTo limit depth ctx v →
      Agree (v.meaning I env) (e.meaning I env))
    (h : List.Forall₂ (EntryRendersTo limit depth ctx) es vs) :
    Agree (allPresent (meaningEntries I vs env)) (meaningIn I es env) := by
  induction h with
  | nil => exact ⟨[], rfl, rfl⟩
  | @cons p q es vs hq hvs ihs =>
    obtain ⟨k, e⟩ := p
    obtain ⟨l, v⟩ := q
    obtain ⟨hl, hv⟩ := hq
    cases hl
    obtain ⟨w, hw, he⟩ := ih e (by simp) v hv
    obtain ⟨ws, hws, hes⟩ := ihs fun e he => ih e (by simp only [List.map_cons, List.mem_cons, he, or_true])
    refine ⟨(k, w) :: ws, ?_, ?_⟩
    · simp only [allPresent] at hws
      simp [allPresent, meaningEntries, hw, hws]
    · simp [meaningIn, he, hes]

theorem agree_field {path : Text} {v : Value} (tracks : ctx.Tracks env)
    (plain : isReference path = false) (h : renderField ctx path = .ok v) :
    Agree (v.meaning I env) (some (I.fieldValue env path)) := by
  obtain ⟨r, hr, rfl⟩ := renderField_eq_ok.mp h
  exact ⟨I.fieldValue env path, stringValue_field tracks hr plain, rfl⟩

theorem agree_source {s : Source} {v : Value} (tracks : ctx.Tracks env) (plain : s.isPlain = true)
    (ih : ∀ e ∈ s.parts, ∀ v, e.RendersTo limit depth ctx v →
      Agree (v.meaning I env) (e.meaning I env))
    (h : s.RendersTo limit depth ctx v) : Agree (v.meaning I env) (s.meaning I env) := by
  cases s with
  | field path =>
    have hp : isReference path = false := by simpa [Source.isPlain] using plain
    exact agree_field tracks hp (Source.rendersTo_field.mp h)
  | expr e => exact ih e (by simp [Source.parts]) v (Source.rendersTo_expr.mp h)

theorem meaningIn_names {es : List (Text × Expr)} {bound : Env}
    (h : meaningIn I es env = some bound) : bound.map (·.1) = es.map (·.1) := by
  induction es generalizing bound with
  | nil =>
    cases Option.some.inj h
    rfl
  | cons p es ih =>
    obtain ⟨k, e⟩ := p
    obtain ⟨v, _, h⟩ := Option.bind_eq_some_iff.mp h
    obtain ⟨vs, hvs, h⟩ := Option.bind_eq_some_iff.mp h
    cases Option.some.inj h
    simp [ih hvs]

/-- Rendering in a context that tracks an environment keeps the meaning there. The context and the
environment change together at every binder, and nowhere else. -/
theorem agree_of_rendersTo {e : Expr} {v : Value} (regular : e.Every Expr.Regular)
    (tracks : ctx.Tracks env) (renders : e.RendersTo limit depth ctx v) :
    Agree (v.meaning I env) (e.meaning I env) := by
  induction regular generalizing depth ctx v env with
  | @node e here below ih =>
    obtain ⟨wellFormed, plain⟩ := here
    cases e with
    | absent =>
      rw [Expr.rendersTo_absent.mp renders]
      exact ⟨.null, rfl, rfl⟩
    | field path =>
      have hp : isReference path = false := by simpa [Expr.isPlainNode] using plain
      exact agree_field tracks hp (Expr.rendersTo_field.mp renders).2
    | var name =>
      obtain ⟨r, hr, kind, rfl⟩ := renderVariable_eq_ok.mp (Expr.rendersTo_var.mp renders).2
      exact stringValue_variable tracks hr kind
    | literal w =>
      rw [(Expr.rendersTo_literal.mp renders).2]
      exact ⟨w, meaning_renderLiteral w, rfl⟩
    | raw w => cases plain
    | operator op args =>
      obtain ⟨_, vs, hvs, rfl⟩ := Expr.rendersTo_operator.mp renders
      simp only [Expr.isPlainNode, Bool.and_eq_true, Bool.not_eq_true'] at plain
      rw [meaning_operator_document plain.1 plain.2]
      exact (agree_items (fun e he v hv => ih e he tracks hv) hvs).map _
    | array elements =>
      obtain ⟨_, vs, hvs, rfl⟩ := Expr.rendersTo_array.mp renders
      exact (agree_items (fun e he v hv => ih e he tracks hv) hvs).map _
    | object entries =>
      obtain ⟨_, vs, hvs, rfl⟩ := Expr.rendersTo_object.mp renders
      have keys := plain_keys_of_renderEntries (Expr.plain_keys plain) hvs
      rw [meaning_object_document keys]
      exact (agree_entries (fun e he v hv => ih e he tracks hv) hvs).map _
    | faulty error => exact absurd renders Expr.not_rendersTo_faulty
    | map input item body =>
      obtain ⟨_, source, inner, hs, hi, rfl⟩ := Expr.rendersTo_map.mp renders
      rw [map_document_meaning]
      have first := agree_source (I := I) tracks plain
        (fun e he v hv => ih e (by simp [Expr.children, he]) tracks hv) hs
      refine first.bind fun s _ => agree_mapItems fun w => ?_
      exact ih body (by simp [Expr.children]) (tracks.child .synthetic [(item, w)]) hi
    | filter input item cond =>
      obtain ⟨_, source, inner, hs, hi, rfl⟩ := Expr.rendersTo_filter.mp renders
      rw [filter_document_meaning]
      have first := agree_source (I := I) tracks plain
        (fun e he v hv => ih e (by simp [Expr.children, he]) tracks hv) hs
      refine first.bind fun s _ => agree_filterItems fun w => ?_
      exact ih cond (by simp [Expr.children]) (tracks.child .synthetic [(item, w)]) hi
    | reduce input initial body =>
      obtain ⟨_, source, start, inner, hs, ht, hi, rfl⟩ := Expr.rendersTo_reduce.mp renders
      rw [fold_document_meaning]
      have first := agree_source (I := I) tracks plain
        (fun e he v hv => ih e (by simp [Expr.children, he]) tracks hv) hs
      refine first.bind fun s _ => ?_
      refine (ih initial (by simp [Expr.children]) tracks ht).bind fun t _ => ?_
      refine agree_reduceItems fun acc w => ?_
      exact ih body (by simp [Expr.children])
        (tracks.child .synthetic [(text "value", acc), (text "this", w)]) hi
    | letIn vars body =>
      obtain ⟨_, values, inner, hv, hi, rfl⟩ := Expr.rendersTo_letIn.mp renders
      rw [binding_document_meaning]
      have first := agree_entries (I := I)
        (fun e he v hv => ih e (by simp only [Expr.children, List.mem_append, he, true_or]) tracks hv) hv
      refine first.bind fun bound hb => ?_
      rw [← meaningIn_names hb] at hi
      exact ih body (by simp [Expr.children]) (tracks.child .inheriting bound) hi

/-- A compiled document has a value under every interpretation, and it is the value of the
expression. -/
theorem compile_keeps_meaning (I : Interpretation) {c : Compiler} {e : Expr} {d : Value}
    (built : e.Built) (plain : e.isPlain = true) (compiled : (c.compile (some e) .root).1 = .ok d) :
    ∃ v, d.meaning I [] = some v ∧ e.meaning I [] = some v := by
  obtain ⟨e', he, _, renders⟩ := compile_eq_ok.mp compiled
  cases he
  exact agree_of_rendersTo (built.regular plain) Context.tracks_root renders

/-- A sum over an item, with a constant that looks like a reference to it. -/
def itemSum : Expr :=
  .operator (text "$add") [.field (text "item.tax"), .literal (.string (text "$item"))]

/-- A variable whose name the items of a map take again in the body. -/
def shadowedVariable : Expr :=
  .letIn [(text "item", .field (text "price"))]
    (.map (.field (text "items")) (text "item") itemSum)

def shadowedDocument : Value :=
  Expr.bindingDocument [(text "item", .string (text "$price"))]
    (Expr.iterationDocument "$map" "in" (.string (text "$items")) (text "item")
      (Value.doc (text "$add") (.list [.string (text "$$item.tax"),
        Value.doc (text "$literal") (.string (text "$item"))])))

theorem shadowedVariable_built : shadowedVariable.Built := by
  have hsum : itemSum.Built := by
    apply Expr.Built.operator_of
    simp only [List.forall_mem_cons, List.not_mem_nil, false_imp_iff, implies_true, and_true]
    exact ⟨.field _, .literal _⟩
  have hmap : Expr.Built (.map (.field (text "items")) (text "item") itemSum) := .map_of hsum rfl
  exact .letIn_of (List.forall_mem_singleton.mpr (.field _)) hmap rfl

/-- An interpretation that writes down what is computed. -/
def tracing : Interpretation where
  document := .string (text "document")
  system name := .string name
  operator op args := .document [(op, .list args)]
  path v path := .list [v, .string path]
  items v := .ok [v, .null]
  holds _ := true

theorem shadowedVariable_keeps_meaning :
    shadowedVariable.isPlain = true ∧
      (({} : Compiler).compile (some shadowedVariable) .root).1 = .ok shadowedDocument ∧
      ∃ v, shadowedDocument.meaning tracing [] = some v ∧
        shadowedVariable.meaning tracing [] = some v :=
  ⟨by decide, rfl, @compile_keeps_meaning tracing {} _ _ shadowedVariable_built (by decide) rfl⟩

end ScopedAggregation
