import Mathlib.Data.List.Induction
import ScopedAggregation.Proofs.GroupOutputs

namespace ScopedAggregation

namespace GroupStage

/-- A call that adds an accumulated output. -/
structure Call where
  op : Text
  operand : Operand
  output : Text

/-- The grouping that calls leave behind, one after another. -/
def build (fields : List Field) (calls : List Call) : GroupStage :=
  calls.foldl (fun g call => g.accumulate call.op call.operand call.output) (.ofKeys fields)

/-- The expression that is accumulated for an operand. -/
inductive Accumulated : Operand → Expr → Prop
  | fieldName {name : Text} (given : name ≠ []) : Accumulated (.fieldName name) (.field name)
  | expr (e : Expr) : Accumulated (.expr e) e
  | constant (p : Plain) : Accumulated (.constant p) (.literal p.toValue)

namespace Call

/-- The call cannot add its output behind the calls `before`. -/
def IsFaulty (keys : List Text) (before : List Call) (call : Call) : Prop :=
  call.operand = .missing ∨ call.operand = .fieldName [] ∨ call.output = [] ∨
    call.output = text "_id" ∨ call.output ∈ before.map (·.output) ∨ call.output ∈ keys

/-- The error of a faulty call. A fault of the operand comes before one of the output. -/
inductive Fails (keys : List Text) (before : List Call) (call : Call) : CompileError → Prop
  | noOperand (h : call.operand = .missing) :
    Fails keys before call { cause := .noOperand, node := call.op }
  | noFieldName (h : call.operand = .fieldName []) :
    Fails keys before call { cause := .noFieldName, node := call.op }
  | noOutputName {e : Expr} (operand : Accumulated call.operand e) (h : call.output = []) :
    Fails keys before call { cause := .noOutputName, node := call.op }
  | repeated {e : Expr} (operand : Accumulated call.operand e) (given : call.output ≠ [])
    (h : call.output = text "_id" ∨ call.output ∈ before.map (·.output)) :
    Fails keys before call { cause := .repeatedOutput, name := call.output, node := nodeName }
  | isKey {e : Expr} (operand : Accumulated call.operand e) (given : call.output ≠ [])
    (fresh : ¬ (call.output = text "_id" ∨ call.output ∈ before.map (·.output)))
    (h : call.output ∈ keys) :
    Fails keys before call { cause := .outputIsKey, name := call.output, node := nodeName }

end Call

/-- No call is faulty behind those before it. -/
def Faultless (keys : List Text) (calls : List Call) : Prop :=
  ∀ prior call later, calls = prior ++ call :: later → ¬ call.IsFaulty keys prior

theorem faultless_concat {keys : List Text} {calls : List Call} {call : Call} :
    Faultless keys (calls ++ [call]) ↔ Faultless keys calls ∧ ¬ call.IsFaulty keys calls := by
  constructor
  · intro h
    refine ⟨?_, h calls call [] rfl⟩
    intro prior c later hcalls
    exact h prior c (later ++ [call]) (by simp [hcalls])
  · rintro ⟨hcalls, hlast⟩ prior c later heq
    rcases List.eq_nil_or_concat later with rfl | ⟨later, last, rfl⟩
    · obtain ⟨rfl, hc⟩ := List.append_inj' heq rfl
      cases hc
      exact hlast
    · have heq' : calls ++ [call] = (prior ++ c :: later) ++ [last] := by simpa using heq
      obtain ⟨hprior, -⟩ := List.append_inj' heq' rfl
      exact hcalls prior c later hprior

/-- Calls that are not faultless have a first faulty one among them. -/
theorem exists_first_faulty {keys : List Text} {calls : List Call} (h : ¬ Faultless keys calls) :
    ∃ prior call later, calls = prior ++ call :: later ∧ Faultless keys prior ∧
      call.IsFaulty keys prior := by
  induction calls using List.reverseRecOn with
  | nil => exact absurd (fun prior call later heq => by simp at heq) h
  | append_singleton calls last ih =>
    by_cases hcalls : Faultless keys calls
    · have hlast : last.IsFaulty keys calls := by
        by_contra hlast
        exact h (faultless_concat.mpr ⟨hcalls, hlast⟩)
      exact ⟨calls, last, [], rfl, hcalls, hlast⟩
    · obtain ⟨prior, call, later, rfl, hprior, hcall⟩ := ih hcalls
      exact ⟨prior, call, later ++ [last], by simp, hprior, hcall⟩

theorem build_concat (fields : List Field) (calls : List Call) (call : Call) :
    build fields (calls ++ [call]) =
      (build fields calls).accumulate call.op call.operand call.output := by
  simp [build]

theorem built_build (fields : List Field) (calls : List Call) : (build fields calls).Built := by
  induction calls using List.reverseRecOn with
  | nil => exact .ofKeys fields
  | append_singleton calls last ih =>
    rw [build_concat]
    exact ih.accumulate last.op last.operand last.output

theorem accumulate_of_error {g : GroupStage} {e : CompileError} (h : g.error = some e) (op : Text)
    (operand : Operand) (output : Text) : g.accumulate op operand output = g := by
  unfold accumulate
  rw [h]

/-- Behind an error no call changes anything. -/
theorem build_of_error {fields : List Field} {calls : List Call} {e : CompileError}
    (h : (build fields calls).error = some e) (later : List Call) :
    build fields (calls ++ later) = build fields calls := by
  induction later using List.reverseRecOn with
  | nil => rw [List.append_nil]
  | append_singleton later last ih =>
    rw [← List.append_assoc, build_concat, ih]
    exact accumulate_of_error h last.op last.operand last.output

theorem operandExpr_accumulated {operand : Operand} {e : Expr} (h : Accumulated operand e)
    (op : Text) : operandExpr op operand = .ok e := by
  cases h with
  | @fieldName name given =>
    cases name with
    | nil => exact absurd rfl given
    | cons => rfl
  | expr | constant => rfl

theorem exists_accumulated {operand : Operand} (given : operand ≠ .missing)
    (named : operand ≠ .fieldName []) : ∃ e, Accumulated operand e := by
  cases operand with
  | missing => exact absurd rfl given
  | fieldName name =>
    refine ⟨.field name, .fieldName ?_⟩
    rintro rfl
    exact named rfl
  | expr e => exact ⟨e, .expr e⟩
  | constant p => exact ⟨.literal p.toValue, .constant p⟩

theorem Call.IsFaulty.exists_fails {keys : List Text} {before : List Call} {call : Call}
    (h : call.IsFaulty keys before) : ∃ e, call.Fails keys before e := by
  by_cases hmissing : call.operand = .missing
  · exact ⟨_, .noOperand hmissing⟩
  by_cases hunnamed : call.operand = .fieldName []
  · exact ⟨_, .noFieldName hunnamed⟩
  obtain ⟨e, he⟩ := exists_accumulated hmissing hunnamed
  by_cases hgiven : call.output = []
  · exact ⟨_, .noOutputName he hgiven⟩
  by_cases hfresh : call.output = text "_id" ∨ call.output ∈ before.map (·.output)
  · exact ⟨_, .repeated he hgiven hfresh⟩
  · have hkey : call.output ∈ keys := by
      rcases h with h | h | h | h | h | h
      · exact absurd h hmissing
      · exact absurd h hunnamed
      · exact absurd h hgiven
      · exact absurd (.inl h) hfresh
      · exact absurd (.inr h) hfresh
      · exact h
    exact ⟨_, .isKey he hgiven hfresh hkey⟩

/-- The outputs of the grouping are those of the calls, over the operands of the calls. -/
structure Follows (fields : List Field) (calls : List Call) (g : GroupStage) : Prop where
  keys : g.keys = .ofList fields
  error : g.error = none
  accumulators : List.Forall₂
    (fun call a => a.op = call.op ∧ a.output = call.output ∧ Accumulated call.operand a.value)
    calls g.accumulators

section

variable {fields : List Field} {calls : List Call} {g : GroupStage}

theorem Follows.outputs_eq (h : Follows fields calls g) : g.outputs = calls.map (·.output) :=
  (forall₂_map_eq h.accumulators fun _ _ hc => hc.2.1.symm).symm

theorem Follows.outputFault?_iff (h : Follows fields calls g) {op output : Text} :
    g.outputFault? op output = none ↔ output ≠ [] ∧ output ≠ text "_id" ∧
      output ∉ calls.map (·.output) ∧ output ∉ fields.map (·.name) := by
  rw [outputFault?_eq_none, h.outputs_eq, h.keys, Fields.mem_names_ofList]

theorem Follows.accumulate_sound (h : Follows fields calls g) {call : Call}
    (sound : ¬ call.IsFaulty (fields.map (·.name)) calls) :
    Follows fields (calls ++ [call]) (g.accumulate call.op call.operand call.output) := by
  simp only [Call.IsFaulty, not_or] at sound
  obtain ⟨hmissing, hunnamed, hgiven, hid, hfresh, hkey⟩ := sound
  obtain ⟨value, hvalue⟩ := exists_accumulated hmissing hunnamed
  have hfault : g.outputFault? call.op call.output = none :=
    h.outputFault?_iff.mpr ⟨hgiven, hid, hfresh, hkey⟩
  have hstep : g.accumulate call.op call.operand call.output =
      { g with accumulators := g.accumulators ++ [⟨call.op, call.output, value⟩] } := by
    unfold accumulate
    rw [h.error, operandExpr_accumulated hvalue]
    dsimp only
    rw [hfault]
  rw [hstep]
  exact ⟨h.keys, h.error, List.rel_append h.accumulators (.cons ⟨rfl, rfl, hvalue⟩ .nil)⟩

theorem Follows.outputFault?_eq (h : Follows fields calls g) {call : Call} {e : CompileError}
    {value : Expr} (hvalue : Accumulated call.operand value)
    (fails : call.Fails (fields.map (·.name)) calls e) :
    g.outputFault? call.op call.output = some e := by
  have hout : g.hasOutput call.output = true ↔ call.output ∈ calls.map (·.output) := by
    rw [← h.outputs_eq]
    simp [hasOutput, GroupStage.outputs]
  unfold outputFault?
  cases fails with
  | noOperand hmissing =>
    rw [hmissing] at hvalue
    cases hvalue
  | noFieldName hunnamed =>
    rw [hunnamed] at hvalue
    cases hvalue with
    | fieldName given => exact absurd rfl given
  | noOutputName _ hgiven => rw [if_pos hgiven]
  | repeated _ hgiven hrepeated =>
    rw [← hout] at hrepeated
    rw [if_neg hgiven, if_pos (by simpa using hrepeated)]
  | isKey _ hgiven hfresh hkey =>
    rw [← hout] at hfresh
    have hcontains : g.keys.contains call.output = true := by
      rw [← Bool.not_eq_false, Fields.contains_eq_false, not_not, h.keys]
      exact Fields.mem_names_ofList.mpr hkey
    rw [if_neg hgiven, if_neg (by simpa using hfresh), if_pos hcontains]

theorem Follows.accumulate_faulty (h : Follows fields calls g) {call : Call} {e : CompileError}
    (fails : call.Fails (fields.map (·.name)) calls e) :
    g.accumulate call.op call.operand call.output = { g with error := some e } := by
  have hvalue : ∀ value, Accumulated call.operand value →
      g.accumulate call.op call.operand call.output = { g with error := some e } := by
    intro value hvalue
    unfold accumulate
    rw [h.error, operandExpr_accumulated hvalue]
    dsimp only
    rw [h.outputFault?_eq hvalue fails]
  cases fails with
  | noOperand hmissing =>
    unfold accumulate
    rw [h.error, hmissing]
    rfl
  | noFieldName hunnamed =>
    unfold accumulate
    rw [h.error, hunnamed]
    rfl
  | noOutputName operand | repeated operand | isKey operand => exact hvalue _ operand

theorem follows_build (h : Faultless (fields.map (·.name)) calls) :
    Follows fields calls (build fields calls) := by
  induction calls using List.reverseRecOn with
  | nil => exact ⟨rfl, rfl, .nil⟩
  | append_singleton calls last ih =>
    obtain ⟨hcalls, hlast⟩ := faultless_concat.mp h
    rw [build_concat]
    exact (ih hcalls).accumulate_sound hlast

end

/-- The body has the key first and then the outputs of the calls in order, each with its own operator
over its own operand. -/
structure Holds (c : Compiler) (ctx : Context) (calls : List Call) (body : Entries) : Prop where
  keys : body.keys = text "_id" :: calls.map (·.output)
  distinct : body.keys.Nodup
  outputs : ∀ call ∈ calls, ∃ e v, Accumulated call.operand e ∧ c.Compiles ctx e v ∧
    body.get? call.output = some (Value.doc call.op v)

section

variable {fields : List Field} {calls : List Call} {g : GroupStage}

theorem Follows.holds (h : Follows fields calls g) (separated : g.Separated) {c : Compiler}
    {ctx : Context} {doc : Value} {log last : List Attempt}
    (rendered : g.render c ctx log = (.ok doc, last)) :
    ∃ body, doc = Value.doc nodeName (.document body) ∧ Holds c ctx calls body := by
  obtain ⟨key, outputs, rfl, -, houtputs⟩ := render_eq_ok rendered
  have hnames : g.outputs = Entries.keys outputs := forall₂_map_eq houtputs fun _ _ hq => hq.1.symm
  have hkeys : Entries.keys ((text "_id", key) :: outputs) = text "_id" :: g.outputs := by
    rw [hnames]
    rfl
  refine ⟨_, rfl, h.outputs_eq ▸ hkeys, ?_, ?_⟩
  · rw [hkeys]
    exact List.nodup_cons.mpr ⟨separated.id_notMem, separated.outputs⟩
  · intro call hcall
    obtain ⟨a, ha, hop, hout, hvalue⟩ := forall₂_mem_left h.accumulators hcall
    obtain ⟨w, hw, v, rfl, hcompiles⟩ := Entries.get?_of_forall₂ houtputs separated.outputs ha
    have hid : text "_id" ≠ call.output := by
      rw [← hout]
      exact fun heq => separated.id_notMem (heq ▸ List.mem_map_of_mem ha)
    refine ⟨a.value, v, hvalue, hcompiles, ?_⟩
    rw [Entries.get?, if_neg hid, ← hout, ← hop]
    exact hw

/-- Of the exposed fields only a key field with the name of the whole key is merged with another. -/
theorem Separated.names_fields (separated : g.Separated) :
    g.fields.names = text "_id" :: (g.keys.names.filter (· ≠ text "_id") ++ g.outputs) := by
  have hnames : (g.keys.toList.map (fun f => Field.renamed f.name (g.keyTarget f)) ++
      g.accumulators.map fun a => Field.ofName a.output).map (·.name) = g.keys.names ++ g.outputs := by
    rw [List.map_append, List.map_map, List.map_map]
    simp only [renamed_keyTarget]
    rfl
  have hdistinct : (g.keys.names ++ g.outputs).Nodup := by
    refine List.nodup_append.mpr ⟨separated.keys, separated.outputs, ?_⟩
    rintro n hn m hm rfl
    exact separated.apart n hm hn
  have houtputs : g.outputs.filter (· ≠ text "_id") = g.outputs := by
    refine List.filter_eq_self.mpr ?_
    intro n hn
    refine decide_eq_true ?_
    rintro rfl
    exact separated.id_notMem hn
  rw [fields_eq, Fields.ofList, Fields.distinct, Fields.distinct_eq_self (hnames ▸ hdistinct),
    Fields.names, List.map_cons]
  have hfilter := List.filter_map (f := (·.name)) (p := (· ≠ text "_id"))
    (l := g.keys.toList.map (fun f => Field.renamed f.name (g.keyTarget f)) ++
      g.accumulators.map fun a => Field.ofName a.output)
  rw [hnames, List.filter_append, houtputs] at hfilter
  exact congrArg _ hfilter.symm

end

/-- A grouping keeps what every call adds until a call is faulty, and then the error of that call:
nothing is lost or merged among the outputs, and a faulty call and those behind it add nothing. -/
theorem build_keeps_calls_or_first_error (fields : List Field) (calls : List Call) :
    (Faultless (fields.map (·.name)) calls →
      (build fields calls).error = none ∧
      (build fields calls).fields.names = text "_id" ::
        ((Fields.ofList fields).names.filter (· ≠ text "_id") ++ calls.map (·.output)) ∧
      ∀ c ctx log doc last, (build fields calls).render c ctx log = (.ok doc, last) →
        ∃ body, doc = Value.doc nodeName (.document body) ∧ Holds c ctx calls body) ∧
    (¬ Faultless (fields.map (·.name)) calls →
      ∃ prior call later e, calls = prior ++ call :: later ∧
        Faultless (fields.map (·.name)) prior ∧ call.Fails (fields.map (·.name)) prior e ∧
        (build fields calls).error = some e ∧
        build fields calls = { build fields prior with error := some e } ∧
        ∀ c ctx log, (build fields calls).render c ctx log = (.error e, log)) := by
  have separated := (built_build fields calls).separated
  constructor
  · intro sound
    have follows := follows_build sound
    refine ⟨follows.error, ?_, ?_⟩
    · rw [separated.names_fields, follows.outputs_eq, follows.keys]
    · intro c ctx log doc last rendered
      exact follows.holds separated rendered
  · intro faulty
    obtain ⟨prior, call, later, rfl, hprior, hcall⟩ := exists_first_faulty faulty
    obtain ⟨e, hfails⟩ := hcall.exists_fails
    have hfaulty : build fields (prior ++ [call]) = { build fields prior with error := some e } := by
      rw [build_concat]
      exact (follows_build hprior).accumulate_faulty hfails
    have hkept : build fields (prior ++ call :: later) = build fields (prior ++ [call]) := by
      have hlater := build_of_error (by rw [hfaulty] : _ = some e) later
      rwa [List.append_assoc, List.singleton_append] at hlater
    have heq := hkept.trans hfaulty
    have herror : (build fields (prior ++ call :: later)).error = some e := by rw [heq]
    refine ⟨prior, call, later, e, rfl, hprior, hfails, herror, heq, ?_⟩
    intro c ctx log
    rw [render, herror]
    rfl

/-- Sales by the key of an earlier grouping and by a field, summed and counted. -/
def salesKeys : List Field := [.ofName (text "_id"), .renamed (text "city") (text "store.city")]

def salesCalls : List Call :=
  [⟨text "$sum", .fieldName (text "amount"), text "total"⟩,
    ⟨text "$sum", .constant (.int 1), text "count"⟩]

/-- An output with the name of a key field, and a sound call behind it. -/
def clashingCalls : List Call :=
  [⟨text "$max", .fieldName (text "amount"), text "city"⟩,
    ⟨text "$min", .fieldName (text "amount"), text "low"⟩]

theorem faultless_salesCalls : Faultless (salesKeys.map (·.name)) salesCalls := by
  have hnone : Faultless (salesKeys.map (·.name)) [] := by
    intro prior call later heq
    simp at heq
  have hsum : ¬ Call.IsFaulty (salesKeys.map (·.name)) []
      ⟨text "$sum", .fieldName (text "amount"), text "total"⟩ := by
    rintro (h | h | h)
    · cases h
    · cases h
    · exact absurd h (by decide)
  have hcount : ¬ Call.IsFaulty (salesKeys.map (·.name)) (salesCalls.take 1)
      ⟨text "$sum", .constant (.int 1), text "count"⟩ := by
    rintro (h | h | h)
    · cases h
    · cases h
    · exact absurd h (by decide)
  exact faultless_concat.mpr ⟨faultless_concat.mpr ⟨hnone, hsum⟩, hcount⟩

theorem salesCalls_keep_first_error :
    Faultless (salesKeys.map (·.name)) salesCalls ∧
      (build salesKeys salesCalls).fields.names =
        [text "_id", text "city", text "total", text "count"] ∧
      ¬ Faultless (salesKeys.map (·.name)) (salesCalls ++ clashingCalls) ∧
      ∀ c ctx log, (build salesKeys (salesCalls ++ clashingCalls)).render c ctx log =
        (.error { cause := .outputIsKey, name := text "city", node := nodeName }, log) := by
  have hnames := ((build_keeps_calls_or_first_error salesKeys salesCalls).1 faultless_salesCalls).2.1
  have hfaulty : ¬ Faultless (salesKeys.map (·.name)) (salesCalls ++ clashingCalls) := by
    intro h
    have hkey : text "city" ∈ salesKeys.map (·.name) := by decide
    exact h salesCalls _ _ rfl (.inr (.inr (.inr (.inr (.inr hkey)))))
  obtain ⟨-, -, -, e, -, -, -, herror, -, hrender⟩ :=
    (build_keeps_calls_or_first_error salesKeys (salesCalls ++ clashingCalls)).2 hfaulty
  have hclash : (build salesKeys (salesCalls ++ clashingCalls)).error =
      some { cause := .outputIsKey, name := text "city", node := nodeName } := by rfl
  cases herror.symm.trans hclash
  exact ⟨faultless_salesCalls, hnames, hfaulty, hrender⟩

end GroupStage

end ScopedAggregation
