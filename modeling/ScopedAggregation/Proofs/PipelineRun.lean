import ScopedAggregation.Pipeline
import ScopedAggregation.Proofs.Success

namespace ScopedAggregation

namespace Compiling

variable {ε α β : Type}

theorem run_bind (x : Compiling ε α) (f : α → Compiling ε β) (log : List Attempt) :
    (x >>= f) log =
      match x log with
      | (.ok a, log) => f a log
      | (.error e, log) => (.error e, log) := by
  change (match x log with | (r, log) => ExceptT.bindCont f r log) = _
  rcases x log with ⟨_ | _, _⟩ <;> rfl

theorem run_bind_eq_ok {x : Compiling ε α} {f : α → Compiling ε β} {b : β}
    {log last : List Attempt} :
    (x >>= f) log = (.ok b, last) ↔
      ∃ a mid, x log = (.ok a, mid) ∧ f a mid = (.ok b, last) := by
  rw [run_bind]
  rcases x log with ⟨e | a, mid⟩
  · constructor
    · intro h
      cases h
    · rintro ⟨_, _, h, -⟩
      cases h
  · constructor
    · intro h
      exact ⟨a, mid, rfl, h⟩
    · rintro ⟨_, _, h, hf⟩
      cases h
      exact hf

theorem run_pure_eq_ok {a b : α} {log last : List Attempt} :
    (pure a : Compiling ε α) log = (.ok b, last) ↔ a = b ∧ log = last := by
  change ((.ok a, log) : Except ε α × List Attempt) = (.ok b, last) ↔ _
  simp

end Compiling

/-- The expression is compiled to the value in the context. -/
def Compiler.Compiles (c : Compiler) (ctx : Context) (e : Expr) (v : Value) : Prop :=
  (c.compile (some e) ctx).1 = .ok v

theorem Compiler.compiles_of_run {c : Compiler} {ctx : Context} {e : Expr} {v : Value}
    {log last : List Attempt} (h : c.run (some e) ctx log = (.ok v, last)) :
    c.Compiles ctx e v :=
  congrArg Prod.fst h

/-- The expressions that a stage compiles. -/
def Stage.expressions : Stage → List Expr
  | .filter cond => cond.toList
  | .group g => g.keys.toList.map (fun f => .field f.target) ++ g.accumulators.map (·.value)
  | .project p => p.included.toList.map (fun f => .field f.target) ++ p.computed.map (·.2)

namespace Pipeline

/-- The context that the stages before it leave to a stage. -/
def contextAfter (ctx : Context) : List (Option Stage) → Context
  | [] => ctx
  | none :: rest => contextAfter ctx rest
  | some s :: rest =>
    contextAfter (match s.fields? with
      | some fields => Context.restricted fields
      | none => ctx) rest

theorem contextAfter_append (ctx : Context) (before rest : List (Option Stage)) :
    contextAfter ctx (before ++ rest) = contextAfter (contextAfter ctx before) rest := by
  induction before generalizing ctx with
  | nil => rfl
  | cons s before ih =>
    cases s with
    | none => exact ih ctx
    | some s => exact ih _

/-- Filters leave the context as it is. -/
theorem contextAfter_filters (ctx : Context) (conds : List (Option Expr)) :
    contextAfter ctx (conds.map fun cond => some (.filter cond)) = ctx := by
  induction conds with
  | nil => rfl
  | cons cond conds ih => exact ih

theorem renderStages_cons (c : Compiler) (i : Nat) (ctx : Context) (s : Stage)
    (rest : List (Option Stage)) :
    renderStages c i ctx (some s :: rest) = (do
      let v ← inStage i s.name (s.render c ctx)
      let vs ← renderStages c (i + 1) (contextAfter ctx [some s]) rest
      pure (v :: vs)) := rfl

theorem renderStages_append (c : Compiler) (i : Nat) (ctx : Context)
    (before rest : List (Option Stage)) :
    renderStages c i ctx (before ++ rest) = (do
      let vs ← renderStages c i ctx before
      let ws ← renderStages c (i + before.length) (contextAfter ctx before) rest
      pure (vs ++ ws)) := by
  induction before generalizing i ctx with
  | nil => simp [renderStages, contextAfter]
  | cons s before ih =>
    cases s with
    | none => rfl
    | some s =>
      have hi : i + 1 + before.length = i + (before.length + 1) := by omega
      have hctx : contextAfter ctx (some s :: before) =
          contextAfter (contextAfter ctx [some s]) before := contextAfter_append ctx [some s] before
      simp only [List.cons_append, renderStages_cons, hctx, ih, bind_assoc, pure_bind,
        List.length_cons, hi]

/-- A stage behind others is rendered in the context that they leave. -/
theorem renderStages_later (c : Compiler) (ctx : Context) (prior : List (Option Stage))
    (later : Stage) (after : List (Option Stage)) :
    renderStages c 0 ctx (prior ++ some later :: after) = (do
      let vs ← renderStages c 0 ctx prior
      let v ← inStage prior.length later.name (later.render c (contextAfter ctx prior))
      let ws ← renderStages c (prior.length + 1) (contextAfter ctx (prior ++ [some later])) after
      pure (vs ++ v :: ws)) := by
  simp only [renderStages_append, contextAfter_append, renderStages_cons, bind_assoc, pure_bind,
    Nat.zero_add]

theorem run_inStage_eq_ok {α : Type} {i : Nat} {name : Text} {x : Compiling CompileError α} {a : α}
    {log last : List Attempt} :
    inStage i name x log = (.ok a, last) ↔ x log = (.ok a, last) := by
  unfold inStage
  rcases x log with ⟨e | b, mid⟩
  · constructor <;> (intro h; cases h)
  · constructor <;> (intro h; cases h; rfl)

/-- The last stage of a pipeline that renders has rendered in the context left to it. -/
theorem rendered_last {c : Compiler} {ctx : Context} {before : List (Option Stage)} {s : Stage}
    {docs : List Value} {doc : Value} {log last : List Attempt}
    (h : renderStages c 0 ctx (before ++ [some s]) log = (.ok (docs ++ [doc]), last)) :
    ∃ mid, s.render c (contextAfter ctx before) mid = (.ok doc, last) := by
  rw [renderStages_later] at h
  obtain ⟨vs, mid, -, h⟩ := Compiling.run_bind_eq_ok.mp h
  obtain ⟨v, mid', hv, h⟩ := Compiling.run_bind_eq_ok.mp h
  obtain ⟨ws, mid'', hw, h⟩ := Compiling.run_bind_eq_ok.mp h
  obtain ⟨rfl, rfl⟩ := Compiling.run_pure_eq_ok.mp hw
  obtain ⟨hdocs, rfl⟩ := Compiling.run_pure_eq_ok.mp h
  obtain ⟨-, hdoc⟩ := List.append_inj' hdocs rfl
  cases hdoc
  exact ⟨mid, run_inStage_eq_ok.mp hv⟩

/-- A pipeline with a stage behind others: they are rendered first, and the stage in the context that
they leave. -/
theorem render_later (c : Compiler) (input : Fields) (prior : List (Option Stage)) (later : Stage)
    (after : List (Option Stage)) :
    render c ⟨input, prior ++ some later :: after⟩ = (do
      let start := Context.ofInput input
      let vs ← renderStages c 0 start prior
      let v ← inStage prior.length later.name (later.render c (contextAfter start prior))
      let ws ← renderStages c (prior.length + 1) (contextAfter start (prior ++ [some later])) after
      pure (.list (vs ++ v :: ws))) := by
  unfold render
  dsimp only
  rw [renderStages_later]
  simp only [bind_assoc, pure_bind]

theorem render_last {c : Compiler} {input : Fields} {before : List (Option Stage)} {s : Stage}
    {docs : List Value} {doc : Value} {log last : List Attempt}
    (h : render c ⟨input, before ++ [some s]⟩ log = (.ok (.list (docs ++ [doc])), last)) :
    ∃ mid, s.render c (contextAfter (Context.ofInput input) before) mid = (.ok doc, last) := by
  obtain ⟨vs, mid, hvs, h⟩ := Compiling.run_bind_eq_ok.mp h
  obtain ⟨hdocs, rfl⟩ := Compiling.run_pure_eq_ok.mp h
  cases hdocs
  exact rendered_last hvs

/-- Behind a stage that reshapes and any filters, its fields are visible. -/
theorem contextAfter_reshaped (ctx : Context) (before : List (Option Stage)) {s : Stage}
    {fields : Fields} (hs : s.fields? = some fields) (conds : List (Option Expr)) :
    contextAfter ctx (before ++ some s :: conds.map fun cond => some (.filter cond)) =
      .restricted fields := by
  have hstage : contextAfter (contextAfter ctx before)
      (some s :: conds.map fun cond => some (.filter cond)) =
        contextAfter (.restricted fields) (conds.map fun cond => some (.filter cond)) := by
    rw [contextAfter, hs]
  rw [contextAfter_append, hstage, contextAfter_filters]

end Pipeline

end ScopedAggregation
