import ScopedAggregation.Proofs.ChainResolution
import ScopedAggregation.Proofs.DefinitionReading
import ScopedAggregation.Proofs.WrittenTrees

namespace ScopedAggregation

section

variable {ε α β : Type} {P Q : ε → Prop}

/-- Whatever error the computation ends with has the property. -/
def FailsOnly (P : ε → Prop) (x : Except ε α) : Prop := ∀ e, x = .error e → P e

theorem failsOnly_ok {a : α} : FailsOnly P (.ok a) := by
  intro e h
  cases h

theorem failsOnly_error {e : ε} (h : P e) : FailsOnly P (.error e : Except ε α) := by
  intro e' he
  cases he
  exact h

theorem FailsOnly.bind {x : Except ε α} {f : α → Except ε β} (hx : FailsOnly P x)
    (hf : ∀ a, FailsOnly P (f a)) : FailsOnly P (x >>= f) := by
  cases x with
  | ok a => exact hf a
  | error e => exact failsOnly_error (hx e rfl)

namespace Compiling

/-- Whatever error a run ends with has the property. -/
def FailsOnly (P : ε → Prop) (x : Compiling ε α) : Prop :=
  ∀ log e last, x log = (.error e, last) → P e

theorem failsOnly_pure {a : α} : FailsOnly P (pure a) := by
  intro log e last h
  cases h

theorem failsOnly_throw {e : ε} (h : P e) : FailsOnly P (throw e : Compiling ε α) := by
  intro log e' last he
  cases he
  exact h

theorem FailsOnly.bind {x : Compiling ε α} {f : α → Compiling ε β} (hx : FailsOnly P x)
    (hf : ∀ a, FailsOnly P (f a)) : FailsOnly P (x >>= f) := by
  intro log e last h
  rw [run_bind] at h
  split at h
  next a mid _ => exact hf a mid e last h
  next e' mid hrun =>
    cases h
    exact hx log e last hrun

theorem FailsOnly.imp {x : Compiling ε α} (hx : FailsOnly P x) (himp : ∀ e, P e → Q e) :
    FailsOnly Q x :=
  fun log e last h => himp e (hx log e last h)

end Compiling

end

/-- An error that depends on the context or on the limit, not on how an expression was built. -/
def CompileError.IsContextual (e : CompileError) : Prop :=
  e.kind = .unresolvedName ∨ e.kind = .depthExceeded

theorem CompileError.kind_inNode (e : CompileError) (node : Text) : (e.inNode node).kind = e.kind := by
  unfold inNode
  split
  next => rfl
  next => rfl

theorem Context.resolve_failsOnly (ctx : Context) (name : Text) :
    FailsOnly (fun e => e.kind = .unresolvedName) (ctx.resolve name) := by
  intro e h
  by_cases hn : name = []
  · subst hn
    have nothing : ctx.resolve [] = .error { cause := .emptyReference } := by cases ctx <;> rfl
    cases nothing.symm.trans h
    rfl
  · exact ((resolve_eq_chainResolve ctx name hn).2 e h).1

section

variable {limit depth : Nat} {ctx : Context}

theorem checkDepth_contextual {node : Text} :
    FailsOnly CompileError.IsContextual (checkDepth limit depth node) := by
  unfold checkDepth
  split
  next => exact failsOnly_ok
  next => exact failsOnly_error (.inr rfl)

theorem renderField_contextual {path : Text} :
    FailsOnly CompileError.IsContextual (renderField ctx path) := by
  unfold renderField
  split
  next => exact failsOnly_ok
  next e he =>
    refine failsOnly_error (.inl ?_)
    rw [CompileError.kind_inNode]
    exact ctx.resolve_failsOnly path e he

theorem renderVariable_contextual {name : Text} :
    FailsOnly CompileError.IsContextual (renderVariable ctx name) := by
  unfold renderVariable
  split
  next e he =>
    refine failsOnly_error (.inl ?_)
    rw [CompileError.kind_inNode]
    exact ctx.resolve_failsOnly name e he
  next =>
    split
    next => exact failsOnly_ok
    next => exact failsOnly_error (.inl rfl)

end

namespace Expr

/-- Wherever the expression is rendered, it fails with contextual errors only. -/
def FailsInContext (e : Expr) : Prop :=
  ∀ limit ctx depth, FailsOnly CompileError.IsContextual (e.render limit ctx depth)

section

variable {limit depth : Nat} {ctx : Context}

theorem renderAll_contextual {es : List Expr} (h : ∀ e ∈ es, e.FailsInContext) :
    FailsOnly CompileError.IsContextual (renderAll limit ctx depth es) := by
  induction es with
  | nil =>
    rw [renderAll]
    exact failsOnly_ok
  | cons e es ih =>
    obtain ⟨he, hes⟩ := List.forall_mem_cons.mp h
    rw [renderAll]
    exact (he limit ctx depth).bind fun _ => (ih hes).bind fun _ => failsOnly_ok

theorem renderEntries_contextual {es : List (Text × Expr)}
    (h : ∀ e ∈ es.map (·.2), e.FailsInContext) :
    FailsOnly CompileError.IsContextual (renderEntries limit ctx depth es) := by
  induction es with
  | nil =>
    rw [renderEntries]
    exact failsOnly_ok
  | cons q es ih =>
    obtain ⟨k, e⟩ := q
    obtain ⟨he, hes⟩ := List.forall_mem_cons.mp h
    rw [renderEntries]
    exact (he limit ctx depth).bind fun _ => (ih hes).bind fun _ => failsOnly_ok

theorem source_contextual {s : Source} (h : ∀ e ∈ s.parts, e.FailsInContext) :
    FailsOnly CompileError.IsContextual (s.render limit ctx depth) := by
  cases s with
  | field path =>
    rw [Source.render]
    exact renderField_contextual.bind fun _ => failsOnly_ok
  | expr e =>
    rw [Source.render]
    exact h e (List.mem_singleton.mpr rfl) limit ctx depth

end

/-- A tree as it can be written fails to render with contextual errors only. -/
theorem failsInContext_of_written {e : Expr} (h : e.Every IsWritten) : e.FailsInContext := by
  induction h with
  | @node e here below ih =>
    intro limit ctx depth
    cases e with
    | absent => exact here.elim
    | field path =>
      rw [render]
      exact checkDepth_contextual.bind fun _ => renderField_contextual.bind fun _ => failsOnly_ok
    | var name =>
      rw [render]
      exact checkDepth_contextual.bind fun _ => renderVariable_contextual.bind fun _ => failsOnly_ok
    | literal v =>
      rw [render]
      exact checkDepth_contextual.bind fun _ => failsOnly_ok
    | raw v => exact here.elim
    | operator op args =>
      rw [render]
      exact checkDepth_contextual.bind fun _ => (renderAll_contextual ih).bind fun _ => failsOnly_ok
    | array elements =>
      rw [render]
      exact checkDepth_contextual.bind fun _ => (renderAll_contextual ih).bind fun _ => failsOnly_ok
    | object entries =>
      rw [render]
      exact checkDepth_contextual.bind fun _ =>
        (renderEntries_contextual ih).bind fun _ => failsOnly_ok
    | faulty error => exact here.elim
    | map input item body =>
      obtain ⟨hinput, hbody⟩ := List.forall_mem_append.mp ih
      rw [render]
      refine checkDepth_contextual.bind fun _ => (source_contextual hinput).bind fun _ => ?_
      exact (hbody body (List.mem_singleton.mpr rfl) _ _ _).bind fun _ => failsOnly_ok
    | filter input item cond =>
      obtain ⟨hinput, hcond⟩ := List.forall_mem_append.mp ih
      rw [render]
      refine checkDepth_contextual.bind fun _ => (source_contextual hinput).bind fun _ => ?_
      exact (hcond cond (List.mem_singleton.mpr rfl) _ _ _).bind fun _ => failsOnly_ok
    | reduce input initial body =>
      obtain ⟨hinput, hrest⟩ := List.forall_mem_append.mp ih
      rw [render]
      refine checkDepth_contextual.bind fun _ => (source_contextual hinput).bind fun _ => ?_
      refine (hrest initial (by simp) _ _ _).bind fun _ => ?_
      exact (hrest body (by simp) _ _ _).bind fun _ => failsOnly_ok
    | letIn vars body =>
      obtain ⟨hvars, hbody⟩ := List.forall_mem_append.mp ih
      rw [render]
      refine checkDepth_contextual.bind fun _ => (renderEntries_contextual hvars).bind fun _ => ?_
      exact (hbody body (List.mem_singleton.mpr rfl) _ _ _).bind fun _ => failsOnly_ok

end Expr

theorem Compiler.run_contextual (c : Compiler) (ctx : Context) {e : Expr}
    (h : e.Every Expr.IsWritten) :
    Compiling.FailsOnly CompileError.IsContextual (c.run (some e) ctx) := by
  intro log error last hrun
  have hcompile : (c.compile (some e) ctx).1 = .error error := congrArg Prod.fst hrun
  unfold Compiler.compile at hcompile
  split at hcompile
  next hnone => cases hnone
  next habsent =>
    cases habsent
    exact h.here.elim
  next root _ hroot =>
    cases hroot
    split at hcompile
    next => cases hcompile
    next e' he =>
      cases hcompile
      exact Expr.failsInContext_of_written h c.maxDepth ctx 0 error he

theorem Compiler.run_field_contextual (c : Compiler) (ctx : Context) (path : Text) :
    Compiling.FailsOnly CompileError.IsContextual (c.run (some (.field path)) ctx) :=
  c.run_contextual ctx (Formula.every_leaf trivial rfl)

namespace Stage

/-- A projection with neither an included nor a computed output. -/
def IsEmptyProjection : Stage → Prop
  | .project p => p.included.toList = [] ∧ p.computed = []
  | _ => False

/-- How rendering the stage fails, if it does: a projection without any output is invalid, and all else
is up to the context. -/
def FailsAs (s : Stage) (e : CompileError) : Prop :=
  (¬ s.IsEmptyProjection ∧ e.IsContextual) ∨ (s.IsEmptyProjection ∧ e.kind = .invalidArgument)

end Stage

section

variable {c : Compiler} {ctx : Context}

theorem GroupStage.renderKeys_contextual (fs : List Field) :
    (renderKeys c ctx fs).FailsOnly CompileError.IsContextual := by
  induction fs with
  | nil => exact Compiling.failsOnly_pure
  | cons f fs ih =>
    exact (c.run_field_contextual ctx f.target).bind fun _ =>
      ih.bind fun _ => Compiling.failsOnly_pure

theorem GroupStage.renderKey_contextual (g : GroupStage) :
    (g.renderKey c ctx).FailsOnly CompileError.IsContextual := by
  unfold renderKey
  split
  next => exact Compiling.failsOnly_pure
  next f _ => exact c.run_field_contextual ctx f.target
  next =>
    exact (renderKeys_contextual g.keys.toList).bind fun _ => Compiling.failsOnly_pure

theorem GroupStage.renderOutputs_contextual {accumulators : List Accumulator}
    (h : ∀ a ∈ accumulators, a.value.Every Expr.IsWritten) :
    (renderOutputs c ctx accumulators).FailsOnly CompileError.IsContextual := by
  induction accumulators with
  | nil => exact Compiling.failsOnly_pure
  | cons a accumulators ih =>
    obtain ⟨ha, hrest⟩ := List.forall_mem_cons.mp h
    exact (c.run_contextual ctx ha).bind fun _ => (ih hrest).bind fun _ => Compiling.failsOnly_pure

theorem ProjectStage.renderIncluded_contextual (fs : List Field) :
    (renderIncluded c ctx fs).FailsOnly CompileError.IsContextual := by
  induction fs with
  | nil => exact Compiling.failsOnly_pure
  | cons f fs ih =>
    exact (c.run_field_contextual ctx f.target).bind fun _ =>
      ih.bind fun _ => Compiling.failsOnly_pure

theorem ProjectStage.renderComputed_contextual {computed : List (Text × Expr)}
    (h : ∀ q ∈ computed, q.2.Every Expr.IsWritten) :
    (renderComputed c ctx computed).FailsOnly CompileError.IsContextual := by
  induction computed with
  | nil => exact Compiling.failsOnly_pure
  | cons q computed ih =>
    obtain ⟨output, e⟩ := q
    obtain ⟨he, hrest⟩ := List.forall_mem_cons.mp h
    exact (c.run_contextual ctx he).bind fun _ => (ih hrest).bind fun _ => Compiling.failsOnly_pure

end

/-- One stage: what was built without a fault from written expressions fails as it has to. -/
theorem Stage.render_failsAs (c : Compiler) (ctx : Context) {s : Stage} (valid : s.error = none)
    (given : s ≠ .filter none) (written : ∀ e ∈ s.expressions, e.Every Expr.IsWritten) :
    (s.render c ctx).FailsOnly s.FailsAs := by
  cases s with
  | filter cond =>
    have himp : ∀ e : CompileError, e.IsContextual → (Stage.filter cond).FailsAs e :=
      fun _ h => .inl ⟨id, h⟩
    cases cond with
    | none => exact absurd rfl given
    | some e =>
      have he := c.run_contextual ctx (written e (by simp [expressions]))
      exact (he.imp himp).bind fun _ => Compiling.failsOnly_pure
  | group g =>
    have himp : ∀ e : CompileError, e.IsContextual → (Stage.group g).FailsAs e :=
      fun _ h => .inl ⟨id, h⟩
    have houtputs : ∀ a ∈ g.accumulators, a.value.Every Expr.IsWritten :=
      fun a ha => written a.value (List.mem_append_right _ (List.mem_map_of_mem ha))
    change (g.render c ctx).FailsOnly _
    rw [GroupStage.render, show g.error = none from valid]
    refine (g.renderKey_contextual.imp himp).bind fun _ => ?_
    exact ((GroupStage.renderOutputs_contextual houtputs).imp himp).bind fun _ =>
      Compiling.failsOnly_pure
  | project p =>
    have hcomputed : ∀ q ∈ p.computed, q.2.Every Expr.IsWritten :=
      fun q hq => written q.2 (List.mem_append_right _ (List.mem_map_of_mem hq))
    change (p.render c ctx).FailsOnly _
    rw [ProjectStage.render, show p.error = none from valid]
    dsimp only
    split
    next hempty =>
      have hp : (Stage.project p).IsEmptyProjection := by
        simpa [IsEmptyProjection, Fields.size] using hempty
      exact Compiling.failsOnly_throw (.inr ⟨hp, rfl⟩)
    next hsome =>
      have hp : ¬ (Stage.project p).IsEmptyProjection := by
        simpa [IsEmptyProjection, Fields.size] using hsome
      have himp : ∀ e : CompileError, e.IsContextual → (Stage.project p).FailsAs e :=
        fun _ h => .inl ⟨hp, h⟩
      refine ((ProjectStage.renderIncluded_contextual p.included.toList).imp himp).bind fun _ => ?_
      exact ((ProjectStage.renderComputed_contextual hcomputed).imp himp).bind fun _ =>
        Compiling.failsOnly_pure

/-- All stages: an error names the stage that it arose in. -/
theorem Pipeline.renderStages_error {c : Compiler} {i : Nat} {ctx : Context} {stages : List Stage}
    {e : PipelineError} {log last : List Attempt}
    (h : renderStages c i ctx (stages.map some) log = (.error e, last)) :
    ∃ j s, stages[j]? = some s ∧ e.stage = some (i + j, s.name) ∧
      ∃ seen before after, s.render c seen before = (.error e.error, after) := by
  induction stages generalizing i ctx log with
  | nil => cases h
  | cons s rest ih =>
    rw [List.map_cons, renderStages_cons, Compiling.run_bind] at h
    split at h
    next v mid _ =>
      rw [Compiling.run_bind] at h
      split at h
      next => cases h
      next e' mid' hrest =>
        cases h
        obtain ⟨j, t, ht, hstage, hrender⟩ := ih hrest
        have hindex : i + 1 + j = i + (j + 1) := by omega
        exact ⟨j + 1, t, ht, hindex ▸ hstage, hrender⟩
    next e' mid hstage =>
      cases h
      unfold inStage at hstage
      split at hstage
      next => cases hstage
      next e'' mid' hrender =>
        cases hstage
        exact ⟨0, s, rfl, rfl, ctx, log, last, hrender⟩

theorem Fields.eq_nil_of_ofList {fs : List Field} (h : (Fields.ofList fs).toList = []) : fs = [] := by
  cases fs with
  | nil => rfl
  | cons f fs => cases h

namespace Definition

open Yaml (Node Document)

variable {d : Document}

theorem readStage_error {index : Nat} {node : Node} {stage : Stage}
    (h : readStage d index node = .ok stage) : stage.error = none := by
  unfold readStage at h
  split at h
  next line k body =>
    dsimp only at h
    split at h
    next =>
      unfold readGroup at h
      split at h
      next =>
        obtain ⟨_, -, h⟩ := bind_eq_ok.mp h
        obtain ⟨g, -, h⟩ := bind_eq_ok.mp h
        split at h
        next => cases h
        next valid =>
          cases h
          exact valid
      next => cases h
    next =>
      split at h
      next =>
        unfold readProject at h
        split at h
        next =>
          obtain ⟨_, -, h⟩ := bind_eq_ok.mp h
          dsimp only at h
          split at h
          next => cases h
          next valid =>
            cases h
            exact valid
        next => cases h
      next =>
        split at h
        next =>
          obtain ⟨_, -, rfl⟩ := map_eq_ok.mp h
          rfl
        next => cases h
  next => cases h

theorem ProjectionReading.switched_off {entries : List (Node × Node)} {fields : List Field}
    {computed : List (Text × Expr)} (h : ProjectionReading d entries fields computed)
    (hfields : fields = []) (hcomputed : computed = []) : ∀ q ∈ entries, IsSwitch q.2 false := by
  induction h with
  | nil => simp
  | drop off _ ih => exact List.forall_mem_cons.mpr ⟨off, ih hfields hcomputed⟩
  | keep => cases hfields
  | rename => cases hfields
  | compute => cases hcomputed

/-- The error is about a stage that has no output: it is a projection, and all values of its mapping
are zero or false. -/
def ReportsEmptyProjection (d : Document) (definition : Definition) (e : PipelineError) : Prop :=
  ∃ stages i p line line' k entries, definition.body = .stages stages ∧
    e.stage = some (i, text "$project") ∧ stages[i]? = some (.project p) ∧
    (Stage.project p).IsEmptyProjection ∧
    (stageNodes d)[i]? = some (.mapping line [(k, .mapping line' entries)]) ∧
    k.value = text "$project" ∧ ∀ q ∈ entries, IsSwitch q.2 false

theorem stage_reported {node : Node} {stage : Stage} {i : Nat} {stages : List Stage}
    {definition : Definition} {e : PipelineError} (hbody : definition.body = .stages stages)
    (hnode : (stageNodes d)[i]? = some node) (hstage : stages[i]? = some stage)
    (hread : StageReading (fun _ => True) d node stage)
    (hname : e.stage = some (i, stage.name)) (hempty : stage.IsEmptyProjection) :
    ReportsEmptyProjection d definition e := by
  cases hread with
  | group => exact hempty.elim
  | project name included h =>
    obtain ⟨hincluded, hcomputed⟩ := hempty
    rw [included] at hincluded
    exact ⟨stages, i, _, _, _, _, _, hbody, hname, hstage, ⟨by rw [included, hincluded], hcomputed⟩,
      hnode, name, h.switched_off (Fields.eq_nil_of_ofList hincluded) hcomputed⟩
  | filter => exact hempty.elim

/-- A failure of a definition's stages, from the nodes that these were read from. -/
theorem stages_failure {definition : Definition} {stages : List Stage} {c : Compiler}
    {log last : List Attempt} {e : PipelineError} (hbody : definition.body = .stages stages)
    (hread : List.Forall₂ (fun node stage => ∃ i, readStage d i node = .ok stage) (stageNodes d)
      stages)
    (failed : compile c definition log = (.error e, last)) :
    e.error.IsContextual ∨
      (e.error.kind = .invalidArgument ∧ ReportsEmptyProjection d definition e) := by
  rw [compile, hbody] at failed
  dsimp only [Pipeline.render] at failed
  rw [Compiling.run_bind] at failed
  split at failed
  next => cases failed
  next e' mid hrun =>
    cases failed
    obtain ⟨j, stage, hstage, hname, ctx, before, after, hrender⟩ := Pipeline.renderStages_error hrun
    rw [Nat.zero_add] at hname
    obtain ⟨node, hnode, i, hgiven⟩ := forall₂_getElem? hread hstage
    have reading := readStage_reading hgiven
    obtain ⟨given, written⟩ := reading.written
    have fails := Stage.render_failsAs c ctx (readStage_error hgiven) given written
    rcases fails before e.error after hrender with ⟨-, hcontext⟩ | ⟨hempty, hkind⟩
    · exact .inl hcontext
    · exact .inr ⟨hkind, stage_reported hbody hnode hstage reading hname hempty⟩

/-- A definition that has been read and does not compile: a name does not resolve, or the nesting is too
deep, or else the stage that the error names is a projection whose entries are all switched off. -/
theorem parsed_compile_failure {source : Text} {definition : Definition} {c : Compiler}
    {log last : List Attempt} {e : PipelineError} (parsed : parse source = .ok definition)
    (failed : compile c definition log = (.error e, last)) :
    (e.error.kind = .unresolvedName ∨ e.error.kind = .depthExceeded) ∨
      (e.error.kind = .invalidArgument ∧ ∃ d, readSource .definition source = .ok d ∧
        ReportsEmptyProjection d definition e) := by
  rw [parse_eq] at parsed
  obtain ⟨d, hd, parsed⟩ := bind_eq_ok.mp parsed
  obtain ⟨line, entries, parts, hroot, hparts, -, hbody⟩ := ofDocument_eq_ok parsed
  obtain ⟨-, hstages, -⟩ := readParts_reading hparts
  rw [Option.or_none] at hstages
  generalize hb : definition.body = body at hbody
  cases hbody with
  | expression _ _ read =>
    rw [compile, hb] at failed
    dsimp only at failed
    split at failed
    next => cases failed
    next e' mid hrun =>
      cases failed
      have written := reads_every_written (readExpr_reads read)
      exact .inl (c.run_contextual _ written log e' last hrun)
  | stages found _ read =>
    obtain ⟨line', items, rfl, hitems⟩ := readStages_eq_ok read
    have hnodes : stageNodes d = items := stageNodes_eq hroot (hstages.symm.trans found)
    rw [← hnodes] at hitems
    rcases stages_failure hb hitems failed with hcontext | ⟨hkind, hreports⟩
    · exact .inl hcontext
    · exact .inr ⟨hkind, d, hd, hreports⟩

/-- A projection that only leaves fields out. -/
def nothingProjected : Text :=
  text "stages: [\x7b$match: $a\x7d, \x7b$project: \x7ba: 0, b: false\x7d\x7d]"

theorem nothingProjected_reported :
    ∃ definition e last d, parse nothingProjected = .ok definition ∧
      compile {} definition [] = (.error e, last) ∧
      readSource .definition nothingProjected = .ok d ∧ e.error.kind = .invalidArgument ∧
      ReportsEmptyProjection d definition e := by
  have invalid : (parse nothingProjected).toOption.any (fun definition =>
      match compile {} definition [] with
      | (.error e, _) => e.error.kind = .invalidArgument
      | _ => false) = true := by decide +kernel
  obtain ⟨definition, hparse, invalid⟩ := exists_ok_of_any invalid
  split at invalid
  next e last hrun =>
    have hkind : e.error.kind = .invalidArgument := of_decide_eq_true invalid
    rcases parsed_compile_failure hparse hrun with hcontext | ⟨-, d, hd, hreports⟩
    · simp [hkind] at hcontext
    · exact ⟨definition, e, last, d, hparse, hrun, hd, hkind, hreports⟩
  next => cases invalid

end Definition

end ScopedAggregation
