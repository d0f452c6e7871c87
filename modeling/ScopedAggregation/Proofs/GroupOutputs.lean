import ScopedAggregation.Proofs.ChainResolution
import ScopedAggregation.Proofs.PipelineRun
import ScopedAggregation.Proofs.RenderSuccess

namespace ScopedAggregation

namespace Entries

/-- Entries that correspond to things with distinct names are found by those names. -/
theorem get?_of_forall₂ {α : Type} {name : α → Text} {R : α → Value → Prop} {xs : List α}
    {es : Entries} (h : List.Forall₂ (fun x q => q.1 = name x ∧ R x q.2) xs es)
    (distinct : (xs.map name).Nodup) {x : α} (hx : x ∈ xs) :
    ∃ v, es.get? (name x) = some v ∧ R x v := by
  induction h with
  | nil => simp at hx
  | @cons y q xs es hy _ ih =>
    obtain ⟨k, w⟩ := q
    obtain ⟨hk, hw⟩ := hy
    dsimp only at hk hw
    rw [List.map_cons, List.nodup_cons] at distinct
    rcases List.mem_cons.mp hx with rfl | hx
    · exact ⟨w, by rw [get?, if_pos hk], hw⟩
    · have hne : k ≠ name x := by
        rintro rfl
        exact distinct.1 (hk ▸ List.mem_map_of_mem hx)
      rw [get?, if_neg hne]
      exact ih distinct.2 hx

end Entries

namespace GroupStage

/-- The groupings that can be built. -/
inductive Built : GroupStage → Prop
  | ofKeys (fields : List Field) : Built (.ofKeys fields)
  | accumulate {g : GroupStage} (h : Built g) (op : Text) (operand : Operand) (output : Text) :
    Built (g.accumulate op operand output)

def outputs (g : GroupStage) : List Text := g.accumulators.map (·.output)

/-- Key fields and outputs have different names, and no output takes the place of the key. -/
structure Separated (g : GroupStage) : Prop where
  keys : g.keys.names.Nodup
  outputs : g.outputs.Nodup
  id_notMem : text "_id" ∉ g.outputs
  apart : ∀ n ∈ g.outputs, n ∉ g.keys.names

theorem outputFault?_eq_none {g : GroupStage} {op output : Text} :
    g.outputFault? op output = none ↔
      output ≠ [] ∧ output ≠ text "_id" ∧ output ∉ g.outputs ∧ output ∉ g.keys.names := by
  have hout : g.hasOutput output = true ↔ output ∈ g.outputs := by
    simp [hasOutput, GroupStage.outputs]
  have hkey : g.keys.contains output = true ↔ output ∈ g.keys.names := by
    rw [← not_iff_not, Bool.not_eq_true]
    exact Fields.contains_eq_false
  unfold outputFault?
  split
  next h => simp [h]
  next h =>
    split
    next h' =>
      rw [Bool.or_eq_true, decide_eq_true_eq, hout] at h'
      simp only [reduceCtorEq, false_iff]
      tauto
    next h' =>
      rw [Bool.or_eq_true, decide_eq_true_eq, hout] at h'
      split
      next h'' =>
        rw [hkey] at h''
        simp [h'']
      next h'' =>
        rw [hkey] at h''
        simp only [true_iff]
        tauto

/-- What adding an output does: the grouping keeps an error, or gains exactly that output. -/
theorem accumulate_cases (g : GroupStage) (op : Text) (operand : Operand) (output : Text) :
    (∃ e, g.accumulate op operand output = { g with error := some e }) ∨
      ∃ value, operandExpr op operand = .ok value ∧ g.error = none ∧
        g.outputFault? op output = none ∧ g.accumulate op operand output =
          { g with accumulators := g.accumulators ++ [⟨op, output, value⟩] } := by
  unfold accumulate
  split
  next e he => exact .inl ⟨e, by rw [← he]⟩
  next he =>
    split
    next e _ => exact .inl ⟨e, rfl⟩
    next value hvalue =>
      split
      next e _ => exact .inl ⟨e, rfl⟩
      next hf => exact .inr ⟨value, hvalue, he, hf, rfl⟩

theorem Built.separated {g : GroupStage} (h : g.Built) : g.Separated := by
  induction h with
  | ofKeys fields =>
    exact ⟨Fields.nodup_distinct fields, List.nodup_nil, List.not_mem_nil,
      fun _ hn => absurd hn List.not_mem_nil⟩
  | @accumulate g _ op operand output ih =>
    rcases g.accumulate_cases op operand output with ⟨e, he⟩ | ⟨value, -, -, hf, he⟩
    · rw [he]
      exact ⟨ih.keys, ih.outputs, ih.id_notMem, ih.apart⟩
    · obtain ⟨-, hid, hnew, hkey⟩ := outputFault?_eq_none.mp hf
      have houtputs : (g.accumulate op operand output).outputs = g.outputs ++ [output] := by
        rw [he]
        simp [GroupStage.outputs]
      have hkeys : (g.accumulate op operand output).keys = g.keys := by rw [he]
      refine ⟨hkeys ▸ ih.keys, ?_, ?_, ?_⟩
      · rw [houtputs]
        refine List.nodup_append.mpr ⟨ih.outputs, by simp, ?_⟩
        intro a ha b hb hab
        exact hnew (List.mem_singleton.mp hb ▸ hab ▸ ha)
      · rw [houtputs, List.mem_append, List.mem_singleton]
        rintro (hm | hm)
        · exact ih.id_notMem hm
        · exact hid hm.symm
      · intro n hn
        rw [houtputs, List.mem_append, List.mem_singleton] at hn
        rw [hkeys]
        rcases hn with hn | rfl
        · exact ih.apart n hn
        · exact hkey

/-- The path that a key field is exposed under. -/
def keyTarget (g : GroupStage) (f : Field) : Text :=
  if 1 < g.keys.size then text "_id." ++ f.name else text "_id"

theorem fields_eq (g : GroupStage) :
    g.fields = .ofList (Field.ofName (text "_id")
      :: (g.keys.toList.map (fun f => Field.renamed f.name (g.keyTarget f))
        ++ g.accumulators.map fun a => Field.ofName a.output)) :=
  rfl

theorem renamed_keyTarget (g : GroupStage) (f : Field) :
    Field.renamed f.name (g.keyTarget f) = ⟨f.name, g.keyTarget f⟩ := by
  have hne : g.keyTarget f ≠ [] := by
    unfold keyTarget
    split
    next => exact List.append_ne_nil_of_left_ne_nil (by decide) _
    next => decide
  rw [Field.renamed, if_neg hne]

/-- Looking a name up passes the key document by, then asks the key fields, then the outputs. -/
theorem lookup?_fields {g : GroupStage} {n : Text} (hn : n ≠ text "_id") :
    g.fields.lookup? n =
      ((g.keys.lookup? n).map fun f => ⟨f.name, g.keyTarget f⟩).or
        ((g.accumulators.find? (·.output = n)).map fun a => Field.ofName a.output) := by
  have hid : decide ((Field.ofName (text "_id")).name = n) = false :=
    decide_eq_false fun h => hn h.symm
  rw [fields_eq, Fields.lookup?_ofList, List.find?_cons, hid]
  dsimp only
  rw [List.find?_append, List.find?_map, List.find?_map]
  have hname : ((fun f : Field => decide (f.name = n)) ∘ fun f =>
      Field.renamed f.name (g.keyTarget f)) = fun f => decide (f.name = n) := by
    funext f
    simp [renamed_keyTarget]
  rw [hname]
  simp only [renamed_keyTarget]
  rfl

theorem lookup?_key {g : GroupStage} (hg : g.Separated) {f : Field} (hf : f ∈ g.keys.toList) :
    g.keys.lookup? f.name = some f := by
  have hd := hg.keys
  unfold Fields.names at hd
  unfold Fields.lookup?
  generalize g.keys.toList = fs at hf hd
  induction fs with
  | nil => simp at hf
  | cons k fs ih =>
    rw [List.map_cons, List.nodup_cons] at hd
    rcases List.mem_cons.mp hf with rfl | hf
    · simp
    · have hne : k.name ≠ f.name := by
        intro he
        exact hd.1 (he ▸ List.mem_map_of_mem hf)
      rw [List.find?_cons_of_neg (by simpa using hne)]
      exact ih hf hd.2

theorem lookup?_unknown {g : GroupStage} {n : Text} (hn : n ∉ g.keys.names) :
    g.keys.lookup? n = none := by
  have h := Fields.contains_eq_false.mpr hn
  rwa [Fields.contains, Option.isSome_eq_false_iff, Option.isNone_iff_eq_none] at h

theorem exposed_key {g : GroupStage} (hg : g.Separated) {f : Field} (hf : f ∈ g.keys.toList)
    (hn : f.name ≠ text "_id") : g.fields.lookup? f.name = some ⟨f.name, g.keyTarget f⟩ := by
  rw [lookup?_fields hn, lookup?_key hg hf]
  rfl

theorem exposed_output {g : GroupStage} (hg : g.Separated) {a : Accumulator}
    (ha : a ∈ g.accumulators) : g.fields.lookup? a.output = some (Field.ofName a.output) := by
  have hout : a.output ∈ g.outputs := List.mem_map_of_mem ha
  have hid : a.output ≠ text "_id" := fun h => hg.id_notMem (h ▸ hout)
  have hs : (g.accumulators.find? (·.output = a.output)).isSome = true := by
    rw [List.find?_isSome]
    exact ⟨a, ha, by simp⟩
  obtain ⟨b, hb⟩ := Option.isSome_iff_exists.mp hs
  have hname : b.output = a.output := by simpa using List.find?_some hb
  rw [lookup?_fields hid, lookup?_unknown (hg.apart _ hout), hb, Option.map_none, Option.none_or,
    Option.map_some, hname]

theorem exposed_nothing {g : GroupStage} {n : Text} (hn : n ≠ text "_id")
    (hkeys : n ∉ g.keys.names) (hout : n ∉ g.outputs) : g.fields.lookup? n = none := by
  have hnone : g.accumulators.find? (·.output = n) = none := by
    rw [List.find?_eq_none]
    intro a ha he
    exact hout (List.mem_map.mpr ⟨a, ha, by simpa using he⟩)
  rw [lookup?_fields hn, lookup?_unknown hkeys, hnone]
  rfl

/-- An entry that holds an accumulator over its compiled value. -/
def Accumulates (c : Compiler) (ctx : Context) (a : Accumulator) (w : Value) : Prop :=
  ∃ v, w = Value.doc a.op v ∧ c.Compiles ctx a.value v

section

variable {c : Compiler} {ctx : Context} {log last : List Attempt}

/-- The entries of the key: each name over the compiled target of its field. -/
theorem renderKeys_eq_ok {fs : List Field} {es : Entries}
    (h : renderKeys c ctx fs log = (.ok es, last)) :
    List.Forall₂ (fun f q => q.1 = f.name ∧ c.Compiles ctx (.field f.target) q.2) fs es := by
  induction fs generalizing es log with
  | nil =>
    obtain ⟨rfl, -⟩ := Compiling.run_pure_eq_ok.mp h
    exact .nil
  | cons f fs ih =>
    obtain ⟨v, mid, hv, h⟩ := Compiling.run_bind_eq_ok.mp h
    obtain ⟨rest, mid', hrest, h⟩ := Compiling.run_bind_eq_ok.mp h
    obtain ⟨rfl, rfl⟩ := Compiling.run_pure_eq_ok.mp h
    exact .cons ⟨rfl, Compiler.compiles_of_run hv⟩ (ih hrest)

theorem renderOutputs_eq_ok {accumulators : List Accumulator} {es : Entries}
    (h : renderOutputs c ctx accumulators log = (.ok es, last)) :
    List.Forall₂ (fun a q => q.1 = a.output ∧ Accumulates c ctx a q.2) accumulators es := by
  induction accumulators generalizing es log with
  | nil =>
    obtain ⟨rfl, -⟩ := Compiling.run_pure_eq_ok.mp h
    exact .nil
  | cons a accumulators ih =>
    obtain ⟨v, mid, hv, h⟩ := Compiling.run_bind_eq_ok.mp h
    obtain ⟨rest, mid', hrest, h⟩ := Compiling.run_bind_eq_ok.mp h
    obtain ⟨rfl, rfl⟩ := Compiling.run_pure_eq_ok.mp h
    exact .cons ⟨rfl, v, rfl, Compiler.compiles_of_run hv⟩ (ih hrest)

/-- The body of a rendered grouping: the key first, then the outputs. -/
theorem render_eq_ok {g : GroupStage} {doc : Value} (h : g.render c ctx log = (.ok doc, last)) :
    ∃ key outputs, doc = Value.doc nodeName (.document ((text "_id", key) :: outputs)) ∧
      (∃ mid mid', g.renderKey c ctx mid = (.ok key, mid')) ∧
      List.Forall₂ (fun a q => q.1 = a.output ∧ Accumulates c ctx a q.2)
        g.accumulators outputs := by
  unfold render at h
  cases he : g.error with
  | some e =>
    rw [he] at h
    cases h
  | none =>
    rw [he] at h
    obtain ⟨key, mid, hkey, h⟩ := Compiling.run_bind_eq_ok.mp h
    obtain ⟨outputs, mid', houtputs, h⟩ := Compiling.run_bind_eq_ok.mp h
    obtain ⟨rfl, rfl⟩ := Compiling.run_pure_eq_ok.mp h
    exact ⟨key, outputs, rfl, ⟨log, mid, hkey⟩, renderOutputs_eq_ok houtputs⟩

theorem renderKey_single {g : GroupStage} {f : Field} {key : Value} (hg : g.keys.toList = [f])
    (h : g.renderKey c ctx log = (.ok key, last)) : c.Compiles ctx (.field f.target) key := by
  unfold renderKey at h
  rw [hg] at h
  exact Compiler.compiles_of_run h

theorem renderKey_several {g : GroupStage} {key : Value} (hg : 1 < g.keys.size)
    (h : g.renderKey c ctx log = (.ok key, last)) :
    ∃ es, key = .document es ∧
      List.Forall₂ (fun f q => q.1 = f.name ∧ c.Compiles ctx (.field f.target) q.2)
        g.keys.toList es := by
  unfold renderKey at h
  unfold Fields.size at hg
  rcases hk : g.keys.toList with _ | ⟨f, _ | ⟨f', fs⟩⟩
  · simp [hk] at hg
  · simp [hk] at hg
  · rw [hk] at h
    obtain ⟨es, mid, hes, h⟩ := Compiling.run_bind_eq_ok.mp h
    obtain ⟨rfl, -⟩ := Compiling.run_pure_eq_ok.mp h
    exact ⟨es, rfl, renderKeys_eq_ok hes⟩

end

end GroupStage

/-- An undotted name that is neither that of the whole key nor that of a system variable. -/
structure IsOutputName (n : Text) : Prop where
  given : n ≠ []
  undotted : Ascii.dot ∉ n
  notKey : n ≠ text "_id"
  ordinary : systemVariables.contains n = false

/-- What may follow the first segment of a path: nothing, or a dot and more. -/
def IsRemainder (r : Text) : Prop := r = [] ∨ ∃ s, r = Ascii.dot :: s

theorem splitHead_append {n r : Text} (hn : Ascii.dot ∉ n) (hr : IsRemainder r) :
    Text.splitHead (n ++ r) = (n, r) := by
  have hall : ∀ b ∈ n, decide (b ≠ Ascii.dot) = true := by
    intro b hb
    rw [decide_eq_true_eq]
    rintro rfl
    exact hn hb
  unfold Text.splitHead
  rw [List.takeWhile_append_of_pos hall, List.dropWhile_append_of_pos hall]
  rcases hr with rfl | ⟨s, rfl⟩ <;> simp

/-- A field reference is rendered as a reference to the document path, however deep it stands. -/
def Context.Refers (ctx : Context) (path target : Text) : Prop :=
  ∀ limit depth, depth < limit →
    (Expr.field path).RendersTo limit depth ctx (.string (Ascii.dollar :: target))

/-- A field reference fails as unresolved, however deep it stands. -/
def Context.Fails (ctx : Context) (path : Text) : Prop :=
  ∃ e : CompileError, e.kind = .unresolvedName ∧ e.name = path ∧
    ∀ limit depth, depth < limit → (Expr.field path).render limit ctx depth = .error e

theorem Context.refers_of_resolve {ctx : Context} {path target : Text}
    (h : ctx.resolve path = .ok ⟨.field, path, target⟩) : ctx.Refers path target := by
  intro limit depth hd
  have hfield : renderField ctx path = .ok (.string (Ascii.dollar :: target)) :=
    renderField_eq_ok.mpr ⟨_, h, rfl⟩
  exact Expr.rendersTo_field.mpr ⟨hd, hfield⟩

theorem Context.fails_of_resolve {ctx : Context} {path : Text} {cause : Cause}
    (h : ctx.resolve path = .error { cause := cause, name := path })
    (unresolved : cause.kind = .unresolvedName) : ctx.Fails path := by
  refine ⟨{ cause := cause, name := path, node := text "field reference" }, unresolved, rfl, ?_⟩
  intro limit depth hd
  have hfield : renderField ctx path =
      .error { cause := cause, name := path, node := text "field reference" } := by
    rw [renderField, h]
    rfl
  have hdepth : checkDepth limit depth (text "field") = .ok () := checkDepth_eq_ok.mpr hd
  rw [Expr.render, hdepth, hfield]
  rfl

section

variable {fields : Fields} {n r : Text}

theorem resolveAtRoot_output (hn : IsOutputName n) (hr : IsRemainder r) :
    Context.resolveAtRoot (some fields) (n ++ r) =
      match fields.lookup? n with
      | some f => .ok ⟨.field, n ++ r, f.target ++ r⟩
      | none => .error { cause := .notExposed fields, name := n ++ r } := by
  have hne : n ++ r ≠ [] := List.append_ne_nil_of_left_ne_nil hn.given r
  unfold Context.resolveAtRoot
  cases hf : fields.lookup? n <;>
    simp only [if_neg hne, splitHead_append hn.undotted hr, hn.ordinary, Bool.false_eq_true,
      if_false, hf]

theorem Context.restricted_refers {f : Field} (hn : IsOutputName n) (hr : IsRemainder r)
    (hf : fields.lookup? n = some f) :
    (Context.restricted fields).Refers (n ++ r) (f.target ++ r) := by
  apply Context.refers_of_resolve
  rw [Context.resolve, resolveAtRoot_output hn hr, hf]

theorem Context.restricted_fails (hn : IsOutputName n) (hr : IsRemainder r)
    (hf : fields.lookup? n = none) : (Context.restricted fields).Fails (n ++ r) := by
  have hresolve : (Context.restricted fields).resolve (n ++ r) =
      .error { cause := .notExposed fields, name := n ++ r } := by
    rw [Context.resolve, resolveAtRoot_output hn hr, hf]
  exact Context.fails_of_resolve hresolve rfl

end

namespace GroupStage

/-- What a name means behind a grouping, and what the grouping put there: references are read in the
context `seen`, and `body` is what the grouping rendered in the context `ctx`. -/
structure Exposes (g : GroupStage) (c : Compiler) (ctx seen : Context) (body : Entries)
    (n r : Text) : Prop where
  onlyKey : ∀ f, g.keys.toList = [f] → f.name = n →
    seen.Refers (n ++ r) (text "_id" ++ r) ∧
      ∃ v, body.get? (text "_id") = some v ∧ c.Compiles ctx (.field f.target) v
  oneOfSeveral : ∀ f ∈ g.keys.toList, 1 < g.keys.size → f.name = n →
    seen.Refers (n ++ r) (text "_id." ++ n ++ r) ∧
      ∃ es v, body.get? (text "_id") = some (.document es) ∧ Entries.get? n es = some v ∧
        c.Compiles ctx (.field f.target) v
  output : ∀ a ∈ g.accumulators, a.output = n →
    seen.Refers (n ++ r) (n ++ r) ∧
      ∃ v, body.get? n = some (Value.doc a.op v) ∧ c.Compiles ctx a.value v
  unknown : n ∉ g.keys.names → n ∉ g.outputs → seen.Fails (n ++ r)

theorem Separated.exposes {g : GroupStage} {c : Compiler} {ctx : Context} {doc : Value}
    {log last : List Attempt} (hg : g.Separated) (h : g.render c ctx log = (.ok doc, last)) :
    ∃ body, doc = Value.doc nodeName (.document body) ∧ ∀ n r, IsOutputName n → IsRemainder r →
      g.Exposes c ctx (.restricted g.fields) body n r := by
  obtain ⟨key, outputs, rfl, ⟨mid, mid', hkey⟩, houtputs⟩ := render_eq_ok h
  refine ⟨_, rfl, ?_⟩
  intro n r hn hr
  have hid : Entries.get? (text "_id") ((text "_id", key) :: outputs) = some key := by
    rw [Entries.get?, if_pos rfl]
  constructor
  · intro f hf hname
    subst hname
    have htarget : g.keyTarget f = text "_id" := by
      rw [keyTarget, if_neg (by simp [Fields.size, hf])]
    have hlookup := exposed_key hg (show f ∈ g.keys.toList by simp [hf]) hn.notKey
    rw [htarget] at hlookup
    exact ⟨Context.restricted_refers hn hr hlookup, key, hid, renderKey_single hf hkey⟩
  · intro f hf hsize hname
    subst hname
    have htarget : g.keyTarget f = text "_id." ++ f.name := by rw [keyTarget, if_pos hsize]
    have hlookup := exposed_key hg hf hn.notKey
    rw [htarget] at hlookup
    obtain ⟨es, rfl, hes⟩ := renderKey_several hsize hkey
    obtain ⟨v, hv, hc⟩ := Entries.get?_of_forall₂ hes hg.keys hf
    exact ⟨Context.restricted_refers hn hr hlookup, es, v, hid, hv, hc⟩
  · intro a ha hname
    subst hname
    obtain ⟨w, hw, v, rfl, hc⟩ := Entries.get?_of_forall₂ houtputs hg.outputs ha
    refine ⟨Context.restricted_refers hn hr (exposed_output hg ha), v, ?_, hc⟩
    rw [Entries.get?, if_neg hn.notKey.symm, hw]
  · intro hkeys hout
    exact Context.restricted_fails hn hr (exposed_nothing hn.notKey hkeys hout)

/-- A grouping exposes its outputs where it puts them. Whatever filters stand behind a grouping, the
next stage is rendered in a context in which each key field and each output is referred to at the
place where the rendered body holds it, and no other name resolves. -/
theorem exposes_outputs_in_place {g : GroupStage} (built : g.Built) (c : Compiler) (input : Fields)
    (before : List (Option Stage)) {docs : List Value} {doc : Value} {log last : List Attempt}
    (rendered : Pipeline.render c ⟨input, before ++ [some (.group g)]⟩ log =
      (.ok (.list (docs ++ [doc])), last)) :
    ∃ body, doc = Value.doc nodeName (.document body) ∧ ∀ conds : List (Option Expr),
      let start := Context.ofInput input
      let prior := before ++ some (.group g) :: conds.map fun cond => some (.filter cond)
      let seen := Pipeline.contextAfter start prior
      (∀ (later : Stage) (after : List (Option Stage)),
        Pipeline.render c ⟨input, prior ++ some later :: after⟩ = (do
          let vs ← Pipeline.renderStages c 0 start prior
          let v ← Pipeline.inStage prior.length later.name (later.render c seen)
          let ws ← Pipeline.renderStages c (prior.length + 1)
            (Pipeline.contextAfter start (prior ++ [some later])) after
          pure (.list (vs ++ v :: ws)))) ∧
      ∀ n r, IsOutputName n → IsRemainder r →
        g.Exposes c (Pipeline.contextAfter start before) seen body n r := by
  obtain ⟨mid, hgroup⟩ := Pipeline.render_last rendered
  obtain ⟨body, hbody, hexposes⟩ := built.separated.exposes hgroup
  refine ⟨body, hbody, ?_⟩
  intro conds start prior seen
  have hseen : seen = .restricted g.fields := Pipeline.contextAfter_reshaped start before rfl conds
  refine ⟨fun later after => Pipeline.render_later c input prior later after, ?_⟩
  rw [hseen]
  exact hexposes

/-- Sales by two key fields, one of them renamed, with one output. -/
def salesByRegion : GroupStage :=
  (ofKeys [.renamed (text "region") (text "store.region"), .ofName (text "year")]).accumulate
    (text "$sum") (.fieldName (text "amount")) (text "total")

def salesByRegionDocument : Value :=
  Value.doc nodeName (.document [
    (text "_id", .document [(text "region", .string (text "$store.region")),
      (text "year", .string (text "$year"))]),
    (text "total", Value.doc (text "$sum") (.string (text "$amount")))])

theorem salesByRegion_in_place :
    (Pipeline.render {} ⟨{}, [some (.group salesByRegion)]⟩ []).1 =
        .ok (.list [salesByRegionDocument]) ∧
      let seen := Pipeline.contextAfter .root [some (.group salesByRegion), some (.filter none)]
      seen.Refers (text "region.name") (text "_id.region.name") ∧
        seen.Refers (text "total") (text "total") ∧ seen.Fails (text "amount") := by
  have built : salesByRegion.Built := .accumulate (.ofKeys _) _ _ _
  obtain ⟨body, -, h⟩ :=
    @exposes_outputs_in_place salesByRegion built {} {} [] [] salesByRegionDocument [] _ rfl
  obtain ⟨-, h⟩ := h [none]
  have region := h (text "region") (text ".name") ⟨by decide, by decide, by decide, by decide⟩
    (.inr ⟨text "name", rfl⟩)
  have total := h (text "total") [] ⟨by decide, by decide, by decide, by decide⟩ (.inl rfl)
  have amount := h (text "amount") [] ⟨by decide, by decide, by decide, by decide⟩ (.inl rfl)
  refine ⟨rfl, ?_, ?_, ?_⟩
  · exact (region.oneOfSeveral ⟨text "region", text "store.region"⟩ (by decide) (by decide) rfl).1
  · exact (total.output _ (List.mem_singleton.mpr rfl) rfl).1
  · exact amount.unknown (by decide) (by decide)

end GroupStage

end ScopedAggregation
