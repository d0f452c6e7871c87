import ScopedAggregation.Proofs.GroupKeyShape

namespace ScopedAggregation

theorem Context.Fails.not_refers {ctx : Context} {path target : Text} (h : ctx.Fails path) :
    ¬ ctx.Refers path target := by
  intro hrefers
  obtain ⟨e, -, -, herror⟩ := h
  obtain ⟨n, hrendered⟩ := hrefers 1 0 Nat.one_pos
  rw [herror 1 0 Nat.one_pos] at hrendered
  cases hrendered

theorem Context.resolve_restricted {fields : Fields} {name : Text} (given : name ≠ [])
    (ordinary : systemVariables.contains name.head = false) :
    (Context.restricted fields).resolve name =
      match fields.lookup? name.head with
      | some f => .ok ⟨.field, name, f.target ++ name.rest⟩
      | none => .error { cause := .notExposed fields, name := name } := by
  rw [Context.resolve, Context.resolveAtRoot, if_neg given]
  show (if systemVariables.contains name.head = true then
    (.ok ⟨.variable, name, name⟩ : Except CompileError Resolution) else _) = _
  exact if_neg (by rw [ordinary]; exact Bool.false_ne_true)

namespace ProjectStage

/-- The names that the next stage can begin a path with. -/
def exposed (p : ProjectStage) : List Text :=
  text "_id" :: (p.included.names.map head ++ p.outputs)

theorem fields_eq (p : ProjectStage) : p.fields = .ofNames p.exposed := by
  have hincluded : p.included.toList.map (fun f => Field.ofName (head f.name)) =
      (p.included.names.map head).map Field.ofName := by
    simp only [Fields.names, List.map_map, Function.comp_def]
  have hcomputed : p.computed.map (fun o => Field.ofName o.1) = p.outputs.map Field.ofName := by
    simp only [outputs, List.map_map, Function.comp_def]
  show Fields.ofList (_ :: _ ++ _) = Fields.ofList _
  rw [hincluded, hcomputed, exposed, List.map_cons, List.map_append, List.cons_append]

/-- A key that the next stage cannot refer to: the empty one, and an output behind a dot of which no
other name brings the first segment. -/
def Loses (p : ProjectStage) (k : Text) : Prop :=
  k = [] ∨ (k ∈ p.outputs ∧ Ascii.dot ∈ k ∧ head k ∉ p.exposed)

theorem head_of_undotted {k : Text} (h : Ascii.dot ∉ k) : head k = k := by
  have hsplit := splitHead_append h (.inl rfl : IsRemainder [])
  rw [List.append_nil] at hsplit
  rw [head, hsplit]

/-- Every key that is not lost has its first segment among the exposed names. -/
theorem head_mem_exposed {p : ProjectStage} {k : Text} (hk : k ∈ p.included.names ++ p.outputs)
    (kept : ¬ p.Loses k) : head k ∈ p.exposed := by
  rcases List.mem_append.mp hk with hk | hk
  · have hhead : head k ∈ p.included.names.map head := List.mem_map_of_mem hk
    exact List.mem_cons_of_mem _ (List.mem_append_left _ hhead)
  · by_cases hdot : Ascii.dot ∈ k
    · by_contra hhead
      exact kept (.inr ⟨hk, hdot, hhead⟩)
    · rw [head_of_undotted hdot]
      exact List.mem_cons_of_mem _ (List.mem_append_right _ hk)

theorem refers_kept {p : ProjectStage} {k : Text} (hk : k ∈ p.included.names ++ p.outputs)
    (ordinary : systemVariables.contains (head k) = false) (kept : ¬ p.Loses k) :
    (Context.restricted p.fields).Refers k k := by
  have given : k ≠ [] := fun hnil => kept (.inl hnil)
  have hlookup : p.fields.lookup? k.head = some (Field.ofName k.head) := by
    rw [fields_eq]
    exact Fields.lookup?_ofNames_of_mem (head_mem_exposed hk kept)
  have hpath : (Field.ofName k.head).target ++ k.rest = k := Text.head_append_rest k
  apply Context.refers_of_resolve
  rw [Context.resolve_restricted given ordinary, hlookup]
  dsimp only
  rw [hpath]

theorem fails_lost {p : ProjectStage} {k : Text}
    (ordinary : systemVariables.contains (head k) = false) (lost : p.Loses k) :
    (Context.restricted p.fields).Fails k := by
  rcases lost with rfl | ⟨-, hdot, hhead⟩
  · have hresolve : (Context.restricted p.fields).resolve [] = .error { cause := .emptyReference } :=
      rfl
    exact Context.fails_of_resolve hresolve rfl
  · have given : k ≠ [] := List.ne_nil_of_mem hdot
    have hlookup : p.fields.lookup? k.head = none := by
      rw [fields_eq]
      exact Fields.lookup?_ofNames_of_notMem hhead
    have hresolve : (Context.restricted p.fields).resolve k =
        .error { cause := .notExposed p.fields, name := k } := by
      rw [Context.resolve_restricted given ordinary, hlookup]
    exact Context.fails_of_resolve hresolve rfl

/-- Which keys of a projection the next stage sees. Whatever filters stand behind a projection, a
reference to a key of its body is rendered as a reference to that key exactly if the key is not lost,
and fails otherwise. -/
theorem projected_key_seen_iff {p : ProjectStage} (built : p.Built) (c : Compiler) (input : Fields)
    (before : List (Option Stage)) {docs : List Value} {doc : Value} {log last : List Attempt}
    (rendered : Pipeline.render c ⟨input, before ++ [some (.project p)]⟩ log =
      (.ok (.list (docs ++ [doc])), last)) :
    ∃ body : Entries, doc = Value.doc nodeName (.document body) ∧
      body.keys = p.included.names ++ p.outputs ∧ body.keys.Nodup ∧
      ∀ conds : List (Option Expr),
        let start := Context.ofInput input
        let prior := before ++ some (.project p) :: conds.map fun cond => some (.filter cond)
        let seen := Pipeline.contextAfter start prior
        (∀ (later : Stage) (after : List (Option Stage)),
          Pipeline.render c ⟨input, prior ++ some later :: after⟩ = (do
            let vs ← Pipeline.renderStages c 0 start prior
            let v ← Pipeline.inStage prior.length later.name (later.render c seen)
            let ws ← Pipeline.renderStages c (prior.length + 1)
              (Pipeline.contextAfter start (prior ++ [some later])) after
            pure (.list (vs ++ v :: ws)))) ∧
        ∀ k ∈ body.keys, systemVariables.contains (head k) = false →
          (seen.Refers k k ↔ ¬ p.Loses k) ∧ (p.Loses k → seen.Fails k) := by
  obtain ⟨mid, hproject⟩ := Pipeline.render_last rendered
  obtain ⟨included, computed, rfl, hincluded, hcomputed⟩ := render_eq_ok hproject
  have hkeys := keys_of_entries hincluded hcomputed
  refine ⟨included ++ computed, rfl, hkeys, hkeys ▸ built.sound.keys_nodup, ?_⟩
  intro conds start prior seen
  have hseen : seen = .restricted p.fields := Pipeline.contextAfter_reshaped start before rfl conds
  refine ⟨fun later after => Pipeline.render_later c input prior later after, ?_⟩
  intro k hk ordinary
  rw [hseen]
  rw [hkeys] at hk
  have hfails : p.Loses k → (Context.restricted p.fields).Fails k := fails_lost ordinary
  refine ⟨⟨?_, refers_kept hk ordinary⟩, hfails⟩
  intro hrefers lost
  exact (hfails lost).not_refers hrefers

/-- A kept field, an output inside of it, and one at a path of its own. -/
def nestedStats : ProjectStage :=
  ((including [.ofName (text "stats.count")]).compute (text "stats.mean")
    (some (.field (text "mean")))).compute (text "range.low") (some (.field (text "low")))

def nestedStatsBody : Entries :=
  [(text "stats.count", .int 1), (text "stats.mean", .string (text "$mean")),
    (text "range.low", .string (text "$low"))]

theorem nestedStats_seen :
    nestedStats.Built ∧
      (Pipeline.render {} ⟨{}, [some (.project nestedStats)]⟩ []).1 =
        .ok (.list [Value.doc nodeName (.document nestedStatsBody)]) ∧
      let seen := Pipeline.contextAfter .root [some (.project nestedStats), some (.filter none)]
      seen.Refers (text "stats.mean") (text "stats.mean") ∧ seen.Fails (text "range.low") := by
  have built : nestedStats.Built := .compute (.compute (.including _) _ _) _ _
  obtain ⟨body, hdoc, -, -, h⟩ := @projected_key_seen_iff nestedStats built {} {} [] []
    (Value.doc nodeName (.document nestedStatsBody)) [] _ rfl
  cases hdoc
  obtain ⟨-, hseen⟩ := h [none]
  have hmean := (hseen (text "stats.mean") (by decide) (by decide)).1
  have hlow := (hseen (text "range.low") (by decide) (by decide)).2
  have kept : ¬ nestedStats.Loses (text "stats.mean") := by
    rintro (hnil | ⟨-, -, hhead⟩)
    · exact absurd hnil (by decide)
    · exact absurd hhead (by decide)
  have lost : nestedStats.Loses (text "range.low") := .inr ⟨by decide, by decide, by decide⟩
  exact ⟨built, rfl, hmean.mpr kept, hlow lost⟩

end ProjectStage

namespace Definition

/-- An output inside of a field that the projection does not name, and a test of this output. -/
def dottedOutput : Text :=
  text "stages: [\x7b$project: \x7ba.b: \x7b$add: [1, 2]\x7d\x7d\x7d, \x7b$match: \x7b$expr: $a.b\x7d\x7d]"

/-- A filter refers to a key of the projection before it and is refused for that. -/
def losesProjected (name : Text) (definition : Definition) : Bool :=
  match definition.body with
  | .stages [.project p, .filter (some (.field path))] =>
    match (compile {} ⟨definition.input, .stages [.project p]⟩ []).1, (compile {} definition []).1 with
    | .ok (.list [.document [(node, .document body)]]), .error e =>
      (Entries.keys body).contains name && decide (path = name ∧ node = ProjectStage.nodeName ∧
        e.stage = some (1, text "$match") ∧ e.error.kind = .unresolvedName ∧ e.error.name = name)
    | _, _ => false
  | _ => false

theorem exists_of_losesProjected {name source : Text}
    (h : (parse source).toOption.any (losesProjected name) = true) :
    ∃ input p body e mid last, let filter := Stage.filter (some (.field name))
      parse source = .ok ⟨input, .stages [.project p, filter]⟩ ∧
        compile {} ⟨input, .stages [.project p]⟩ [] =
          (.ok (.list [Value.doc ProjectStage.nodeName (.document body)]), mid) ∧
        name ∈ Entries.keys body ∧
        compile {} ⟨input, .stages [.project p, filter]⟩ [] = (.error e, last) ∧
        e.stage = some (1, text "$match") ∧ e.error.kind = .unresolvedName ∧ e.error.name = name := by
  obtain ⟨⟨input, body⟩, parsed, h⟩ := exists_ok_of_any h
  unfold losesProjected at h
  split at h
  next p path hbody =>
    cases hbody
    split at h
    next node body e projected refused =>
      obtain ⟨hkey, hrest⟩ := Bool.and_eq_true_iff.mp h
      obtain ⟨rfl, rfl, hfault⟩ := of_decide_eq_true hrest
      exact ⟨input, p, body, e, _, _, parsed, Prod.ext projected rfl, List.contains_iff_mem.mp hkey,
        Prod.ext refused rfl, hfault⟩
    next => cases h
  next => cases h

theorem dottedOutput_unseen :
    ∃ input p body e mid last, let filter := Stage.filter (some (.field (text "a.b")))
      parse dottedOutput = .ok ⟨input, .stages [.project p, filter]⟩ ∧
        compile {} ⟨input, .stages [.project p]⟩ [] =
          (.ok (.list [Value.doc ProjectStage.nodeName (.document body)]), mid) ∧
        text "a.b" ∈ Entries.keys body ∧
        compile {} ⟨input, .stages [.project p, filter]⟩ [] = (.error e, last) ∧
        e.stage = some (1, text "$match") ∧ e.error.kind = .unresolvedName ∧
        e.error.name = text "a.b" :=
  exists_of_losesProjected (by decide +kernel)

end Definition

end ScopedAggregation
