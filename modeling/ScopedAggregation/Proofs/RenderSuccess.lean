import ScopedAggregation.Expr.Compile
import ScopedAggregation.Proofs.Success

namespace ScopedAggregation

/-- The expression below `depth` others renders to `v` within the limit. -/
def Expr.RendersTo (limit depth : Nat) (ctx : Context) (e : Expr) (v : Value) : Prop :=
  ∃ n, e.render limit ctx depth = .ok ⟨v, n⟩

/-- The input of a construct that lies below `depth - 1` others renders to `v`. -/
def Source.RendersTo (limit depth : Nat) (ctx : Context) (s : Source) (v : Value) : Prop :=
  ∃ n, s.render limit ctx depth = .ok ⟨v, n⟩

variable {limit depth : Nat} {ctx : Context} {v : Value}

attribute [local simp] Expr.render Source.render renderAll renderEntries

theorem checkDepth_eq_ok {node : Text} :
    checkDepth limit depth node = .ok () ↔ depth < limit := by
  unfold checkDepth
  split
  next h => simp [h]
  next h => simp [h]

/-- A node made from one value is there when the node is not too deep and the value is there. -/
theorem checked_value_eq_ok {node : Text} {x : Except CompileError Value} :
    (∃ n, (do checkDepth limit depth node; let w ← x; pure (⟨w, depth + 1⟩ : Rendered Value)) =
      .ok ⟨v, n⟩) ↔ depth < limit ∧ x = .ok v := by
  constructor
  · rintro ⟨n, h⟩
    obtain ⟨u, hd, h⟩ := bind_eq_ok.mp h
    obtain ⟨w, hw, h⟩ := bind_eq_ok.mp h
    cases h
    exact ⟨checkDepth_eq_ok.mp hd, hw⟩
  · rintro ⟨hd, hv⟩
    rw [checkDepth_eq_ok.mpr hd, hv]
    exact ⟨depth + 1, rfl⟩

/-- A node around one rendered part. -/
theorem checked_part_eq_ok {α : Type} {node : Text} {x : Except CompileError (Rendered α)}
    (wrap : α → Value) :
    (∃ n, (do
      checkDepth limit depth node
      let part ← x
      pure (⟨wrap part.value, max (depth + 1) part.deepest⟩ : Rendered Value)) = .ok ⟨v, n⟩) ↔
      depth < limit ∧ ∃ a, (∃ n, x = .ok ⟨a, n⟩) ∧ v = wrap a := by
  constructor
  · rintro ⟨n, h⟩
    obtain ⟨u, hd, h⟩ := bind_eq_ok.mp h
    obtain ⟨⟨a, m⟩, ha, h⟩ := bind_eq_ok.mp h
    cases h
    exact ⟨checkDepth_eq_ok.mp hd, a, ⟨m, ha⟩, rfl⟩
  · rintro ⟨hd, a, ⟨m, ha⟩, rfl⟩
    rw [checkDepth_eq_ok.mpr hd, ok_bind, ha]
    exact ⟨max (depth + 1) m, rfl⟩

/-- A node around a rendered part and a body. -/
theorem checked_body_eq_ok {α : Type} {node : Text} {x : Except CompileError (Rendered α)}
    {y : Except CompileError (Rendered Value)} (wrap : α → Value → Value) :
    (∃ n, (do
      checkDepth limit depth node
      let part ← x
      let inner ← y
      pure (⟨wrap part.value inner.value, max (depth + 1) (max part.deepest inner.deepest)⟩ :
        Rendered Value)) = .ok ⟨v, n⟩) ↔
      depth < limit ∧ ∃ a b, (∃ n, x = .ok ⟨a, n⟩) ∧ (∃ n, y = .ok ⟨b, n⟩) ∧ v = wrap a b := by
  constructor
  · rintro ⟨n, h⟩
    obtain ⟨u, hd, h⟩ := bind_eq_ok.mp h
    obtain ⟨⟨a, m⟩, ha, h⟩ := bind_eq_ok.mp h
    obtain ⟨⟨b, k⟩, hb, h⟩ := bind_eq_ok.mp h
    cases h
    exact ⟨checkDepth_eq_ok.mp hd, a, b, ⟨m, ha⟩, ⟨k, hb⟩, rfl⟩
  · rintro ⟨hd, a, b, ⟨m, ha⟩, ⟨k, hb⟩, rfl⟩
    rw [checkDepth_eq_ok.mpr hd, ok_bind, ha, ok_bind, hb]
    exact ⟨max (depth + 1) (max m k), rfl⟩

theorem renderField_eq_ok {path : Text} :
    renderField ctx path = .ok v ↔ ∃ r, ctx.resolve path = .ok r ∧ v = .string r.reference := by
  unfold renderField
  split
  next r hr => simp [hr, eq_comm]
  next e he => simp [he]

theorem renderVariable_eq_ok {name : Text} :
    renderVariable ctx name = .ok v ↔
      ∃ r, ctx.resolve name = .ok r ∧ r.kind = .variable ∧ v = .string r.reference := by
  unfold renderVariable
  split
  next e he => simp [he]
  next r hr =>
    split
    next hk => simp [hr, hk, eq_comm]
    next hk => simp [hr, hk]

theorem renderAll_eq_ok {es : List Expr} {vs : List Value} :
    (∃ n, renderAll limit ctx depth es = .ok ⟨vs, n⟩) ↔
      List.Forall₂ (Expr.RendersTo limit depth ctx) es vs := by
  induction es generalizing vs with
  | nil => simp [eq_comm]
  | cons e es ih =>
    simp only [renderAll]
    constructor
    · rintro ⟨n, h⟩
      obtain ⟨⟨w, k⟩, hw, h⟩ := bind_eq_ok.mp h
      obtain ⟨⟨ws, m⟩, hws, h⟩ := bind_eq_ok.mp h
      cases h
      exact .cons ⟨k, hw⟩ (ih.mp ⟨m, hws⟩)
    · intro h
      cases h with
      | cons hw hws =>
        obtain ⟨k, hk⟩ := hw
        obtain ⟨m, hm⟩ := ih.mpr hws
        exact ⟨max k m, by rw [hk, ok_bind, hm, ok_bind]; rfl⟩

/-- An entry renders to an entry under the same key. -/
def EntryRendersTo (limit depth : Nat) (ctx : Context) (p : Text × Expr) (q : Text × Value) : Prop :=
  q.1 = p.1 ∧ p.2.RendersTo limit depth ctx q.2

theorem renderEntries_eq_ok {es : List (Text × Expr)} {vs : List (Text × Value)} :
    (∃ n, renderEntries limit ctx depth es = .ok ⟨vs, n⟩) ↔
      List.Forall₂ (EntryRendersTo limit depth ctx) es vs := by
  induction es generalizing vs with
  | nil => simp [eq_comm]
  | cons p es ih =>
    obtain ⟨key, e⟩ := p
    simp only [renderEntries]
    constructor
    · rintro ⟨n, h⟩
      obtain ⟨⟨w, k⟩, hw, h⟩ := bind_eq_ok.mp h
      obtain ⟨⟨ws, m⟩, hws, h⟩ := bind_eq_ok.mp h
      cases h
      exact .cons ⟨rfl, k, hw⟩ (ih.mp ⟨m, hws⟩)
    · intro h
      cases h with
      | @cons _ q _ _ hw hws =>
        obtain ⟨l, w⟩ := q
        obtain ⟨hl, k, hk⟩ := hw
        obtain ⟨m, hm⟩ := ih.mpr hws
        cases hl
        exact ⟨max k m, by rw [hk, ok_bind, hm, ok_bind]; rfl⟩

theorem keys_of_renderEntries {es : List (Text × Expr)} {vs : List (Text × Value)}
    (h : List.Forall₂ (EntryRendersTo limit depth ctx) es vs) : vs.map (·.1) = es.map (·.1) := by
  induction h with
  | nil => rfl
  | cons hq _ ih => simp [hq.1, ih]

theorem plain_keys_of_renderEntries {es : List (Text × Expr)} {vs : List (Text × Value)}
    (keys : ∀ p ∈ es, isReference p.1 = false)
    (h : List.Forall₂ (EntryRendersTo limit depth ctx) es vs) :
    ∀ q ∈ vs, isReference q.1 = false := by
  intro q hq
  obtain ⟨p, hp, hk, _⟩ := forall₂_mem_right h hq
  rw [hk]
  exact keys p hp

namespace Expr

theorem rendersTo_absent : absent.RendersTo limit depth ctx v ↔ v = .null := by
  simp [RendersTo, eq_comm]

theorem rendersTo_field {path : Text} :
    (field path).RendersTo limit depth ctx v ↔ depth < limit ∧ renderField ctx path = .ok v := by
  simp only [RendersTo, render]
  exact checked_value_eq_ok

theorem rendersTo_var {name : Text} :
    (var name).RendersTo limit depth ctx v ↔ depth < limit ∧ renderVariable ctx name = .ok v := by
  simp only [RendersTo, render]
  exact checked_value_eq_ok

theorem rendersTo_literal {w : Value} :
    (literal w).RendersTo limit depth ctx v ↔ depth < limit ∧ v = renderLiteral w := by
  simp only [RendersTo, render]
  constructor
  · rintro ⟨n, h⟩
    obtain ⟨u, hd, h⟩ := bind_eq_ok.mp h
    cases h
    exact ⟨checkDepth_eq_ok.mp hd, rfl⟩
  · rintro ⟨hd, rfl⟩
    rw [checkDepth_eq_ok.mpr hd]
    exact ⟨depth + 1, rfl⟩

theorem rendersTo_operator {op : Text} {args : List Expr} :
    (operator op args).RendersTo limit depth ctx v ↔
      depth < limit ∧ ∃ vs, List.Forall₂ (RendersTo limit (depth + 1) ctx) args vs ∧
        v = Value.doc op (.list vs) := by
  simp only [RendersTo, render]
  rw [checked_part_eq_ok (fun vs => Value.doc op (.list vs))]
  simp only [renderAll_eq_ok]

theorem rendersTo_array {elements : List Expr} :
    (array elements).RendersTo limit depth ctx v ↔
      depth < limit ∧ ∃ vs, List.Forall₂ (RendersTo limit (depth + 1) ctx) elements vs ∧
        v = .list vs := by
  simp only [RendersTo, render]
  rw [checked_part_eq_ok .list]
  simp only [renderAll_eq_ok]

theorem rendersTo_object {entries : List (Text × Expr)} :
    (object entries).RendersTo limit depth ctx v ↔
      depth < limit ∧ ∃ vs, List.Forall₂ (EntryRendersTo limit (depth + 1) ctx) entries vs ∧
        v = .document vs := by
  simp only [RendersTo, render]
  rw [checked_part_eq_ok .document]
  simp only [renderEntries_eq_ok]

theorem not_rendersTo_faulty {error : CompileError} :
    ¬ (faulty error).RendersTo limit depth ctx v := by
  rintro ⟨n, h⟩
  simp only [render] at h
  obtain ⟨u, _, h⟩ := bind_eq_ok.mp h
  cases h

/-- The document of a construct that visits every item. -/
def iterationDocument (op body : String) (source : Value) (item : Text) (inner : Value) : Value :=
  Value.doc (text op) (.document [(text "input", source), (text "as", .string item),
    (text body, inner)])

/-- The document of a fold. -/
def foldDocument (source start inner : Value) : Value :=
  Value.doc (text "$reduce") (.document [(text "input", source), (text "initialValue", start),
    (text "in", inner)])

/-- The document of a body with bound variables. -/
def bindingDocument (values : List (Text × Value)) (inner : Value) : Value :=
  Value.doc (text "$let") (.document [(text "vars", .document values), (text "in", inner)])

theorem rendersTo_map {input : Source} {item : Text} {body : Expr} :
    (map input item body).RendersTo limit depth ctx v ↔
      depth < limit ∧ ∃ source inner, input.RendersTo limit (depth + 1) ctx source ∧
        body.RendersTo limit (depth + 1) (itemScope item ctx) inner ∧
        v = iterationDocument "$map" "in" source item inner := by
  simp only [RendersTo, Source.RendersTo, render]
  exact checked_body_eq_ok fun source inner => iterationDocument "$map" "in" source item inner

theorem rendersTo_filter {input : Source} {item : Text} {cond : Expr} :
    (filter input item cond).RendersTo limit depth ctx v ↔
      depth < limit ∧ ∃ source inner, input.RendersTo limit (depth + 1) ctx source ∧
        cond.RendersTo limit (depth + 1) (itemScope item ctx) inner ∧
        v = iterationDocument "$filter" "cond" source item inner := by
  simp only [RendersTo, Source.RendersTo, render]
  exact checked_body_eq_ok fun source inner => iterationDocument "$filter" "cond" source item inner

theorem rendersTo_reduce {input : Source} {initial body : Expr} :
    (reduce input initial body).RendersTo limit depth ctx v ↔
      depth < limit ∧ ∃ source start inner, input.RendersTo limit (depth + 1) ctx source ∧
        initial.RendersTo limit (depth + 1) ctx start ∧
        body.RendersTo limit (depth + 1) (foldScope ctx) inner ∧
        v = foldDocument source start inner := by
  simp only [RendersTo, Source.RendersTo, render]
  constructor
  · rintro ⟨n, h⟩
    obtain ⟨u, hd, h⟩ := bind_eq_ok.mp h
    obtain ⟨⟨source, m⟩, hs, h⟩ := bind_eq_ok.mp h
    obtain ⟨⟨start, j⟩, ht, h⟩ := bind_eq_ok.mp h
    obtain ⟨⟨inner, k⟩, hi, h⟩ := bind_eq_ok.mp h
    cases h
    exact ⟨checkDepth_eq_ok.mp hd, source, start, inner, ⟨m, hs⟩, ⟨j, ht⟩, ⟨k, hi⟩, rfl⟩
  · rintro ⟨hd, source, start, inner, ⟨m, hs⟩, ⟨j, ht⟩, ⟨k, hi⟩, rfl⟩
    rw [checkDepth_eq_ok.mpr hd, ok_bind, hs, ok_bind, ht, ok_bind, hi]
    exact ⟨max (depth + 1) (max m (max j k)), rfl⟩

theorem rendersTo_letIn {vars : List (Text × Expr)} {body : Expr} :
    (letIn vars body).RendersTo limit depth ctx v ↔
      depth < limit ∧ ∃ values inner,
        List.Forall₂ (EntryRendersTo limit (depth + 1) ctx) vars values ∧
        body.RendersTo limit (depth + 1) (bindingScope (vars.map (·.1)) ctx) inner ∧
        v = bindingDocument values inner := by
  simp only [RendersTo, render]
  refine (checked_body_eq_ok bindingDocument).trans ?_
  simp only [renderEntries_eq_ok]

end Expr

theorem Source.rendersTo_field {path : Text} :
    (Source.field path).RendersTo limit depth ctx v ↔ renderField ctx path = .ok v := by
  simp only [Source.RendersTo, Source.render]
  constructor
  · rintro ⟨n, h⟩
    obtain ⟨w, hw, h⟩ := bind_eq_ok.mp h
    cases h
    exact hw
  · intro h
    rw [h]
    exact ⟨0, rfl⟩

theorem Source.rendersTo_expr {e : Expr} :
    (Source.expr e).RendersTo limit depth ctx v ↔ e.RendersTo limit depth ctx v := by
  simp only [Source.RendersTo, Source.render, Expr.RendersTo]

/-- A compilation succeeds exactly when its root is there and renders. -/
theorem compile_eq_ok {c : Compiler} {root : Option Expr} :
    (c.compile root ctx).1 = .ok v ↔
      ∃ e, root = some e ∧ e ≠ .absent ∧ e.RendersTo c.maxDepth 0 ctx v := by
  unfold Compiler.compile
  split
  next => simp
  next => simp
  next e hne =>
    constructor
    · intro h
      split at h
      next r hr =>
        cases h
        exact ⟨e, rfl, fun ha => hne (by rw [ha]), r.deepest, hr⟩
      next => cases h
    · rintro ⟨e', he, _, n, hr⟩
      cases he
      rw [hr]

end ScopedAggregation
