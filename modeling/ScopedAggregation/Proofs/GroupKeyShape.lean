import ScopedAggregation.Proofs.ProjectionBody

namespace ScopedAggregation

theorem Field.renamed_eq {name target : Text} (h : target ≠ []) :
    Field.renamed name target = ⟨name, target⟩ :=
  if_neg h

namespace Definition

open Yaml (Node Document)

section

variable {c : Compiler} {ctx : Context} {fields : List Field} {names : List (Node × Node)}

/-- The compiled reference of the field that the node refers to. -/
def CompiledTarget (c : Compiler) (ctx : Context) (node : Node) (v : Value) : Prop :=
  ∃ path, RefersTo (fun _ => True) node path ∧ c.Compiles ctx (.field path) v

/-- A name of the mapping and its entry. -/
def KeyEntry (c : Compiler) (ctx : Context) (p : Node × Node) (q : Text × Value) : Prop :=
  q.1 = p.1.value ∧ CompiledTarget c ctx p.2 q.2

theorem FieldReading.name_eq {p : Node × Node} {f : Field}
    (h : FieldReading (fun _ => True) p f) : f.name = p.1.value := by
  obtain ⟨path, rfl, -, given, -⟩ := h
  rw [Field.renamed_eq given]

theorem FieldReading.target {p : Node × Node} {f : Field} (h : FieldReading (fun _ => True) p f) :
    RefersTo (fun _ => True) p.2 f.target := by
  obtain ⟨path, rfl, hrefers⟩ := h
  rwa [Field.renamed_eq hrefers.2.1]

theorem FieldReading.keyEntry {p : Node × Node} {f : Field} {q : Text × Value}
    (h : FieldReading (fun _ => True) p f) (hq : q.1 = f.name ∧ c.Compiles ctx (.field f.target) q.2) :
    KeyEntry c ctx p q :=
  ⟨hq.1.trans h.name_eq, f.target, h.target, hq.2⟩

/-- The fields of a mapping with different names are those of the group, all of them. -/
theorem keys_of_distinct (h : List.Forall₂ (FieldReading fun _ => True) names fields)
    (distinct : (keysOf names).Nodup) : (Fields.ofList fields).toList = fields := by
  have hnames : keysOf names = fields.map (·.name) :=
    forall₂_map_eq h fun _ _ h => h.name_eq.symm
  exact Fields.distinct_eq_self (hnames ▸ distinct)

theorem keyEntries_trans {es : Entries} (h : List.Forall₂ (FieldReading fun _ => True) names fields)
    (hes : List.Forall₂ (fun f q => q.1 = f.name ∧ c.Compiles ctx (.field f.target) q.2) fields es) :
    List.Forall₂ (KeyEntry c ctx) names es := by
  induction h generalizing es with
  | nil =>
    cases hes
    exact .nil
  | cons hf _ ih =>
    cases hes with
    | cons hq hrest => exact .cons (hf.keyEntry hq) (ih hrest)

end

/-- What a group that is read from a mapping has for its fields and accumulates. -/
theorem readGroup_keys {d : Document} {place : Location} {line keyLine : Nat}
    {entries names : List (Node × Node)} {g : GroupStage}
    (read : readGroup d place (.mapping line entries) = .ok (.group g))
    (key : argument? entries "_id" = some (.mapping keyLine names)) :
    ∃ fields, g.keys = .ofList fields ∧ List.Forall₂ (FieldReading fun _ => True) names fields := by
  have named : (Node.scalar line .str .plain (text "$group")).value = text "$group" := rfl
  cases @readGroup_reading d place line _ _ _ named read with
  | group name found h keys outputs =>
    cases found.symm.trans key
    cases h with
    | absent hnull => cases hnull
    | single given hrefers =>
      obtain ⟨⟨line, kind, style, hscalar⟩, -⟩ := hrefers
      cases hscalar
    | several hfields => exact ⟨_, keys, hfields⟩

end Definition

/-- Behind a grouping, a path into its key is left as it is. -/
theorem GroupStage.refers_key (g : GroupStage) (ctx : Context) {r : Text} (hr : IsRemainder r) :
    (Pipeline.contextAfter ctx [some (.group g)]).Refers (text "_id" ++ r) (text "_id" ++ r) := by
  have hlookup : g.fields.lookup? (text "_id") = some (Field.ofName (text "_id")) := by
    rw [GroupStage.fields_eq, Fields.lookup?_ofList]
    exact List.find?_cons_of_pos (decide_eq_true rfl)
  have given : text "_id" ++ r ≠ [] := List.append_ne_nil_of_left_ne_nil (by decide) r
  have undotted : Ascii.dot ∉ text "_id" := by decide
  have ordinary : systemVariables.contains (text "_id") = false := by decide
  have hresolve : (Context.restricted g.fields).resolve (text "_id" ++ r) =
      .ok ⟨.field, text "_id" ++ r, text "_id" ++ r⟩ := by
    rw [Context.resolve, Context.resolveAtRoot, if_neg given, splitHead_append undotted hr]
    simp only [ordinary, Bool.false_eq_true, if_false, hlookup]
    rfl
  exact Context.refers_of_resolve hresolve

namespace Definition

open Yaml (Node Document)

/-- What becomes of the key of a group that is written as a mapping of different names to fields. With
two names or more it is a document of these names in order, each over the compiled reference of its
field, and behind the group a path through the key and a name reads that entry. With a single name it is
the compiled reference of the field, in place of the document. -/
theorem group_key_mapping_shape {d : Document} {place : Location} {line keyLine : Nat}
    {entries names : List (Node × Node)} {g : GroupStage}
    (read : readGroup d place (.mapping line entries) = .ok (.group g))
    (key : argument? entries "_id" = some (.mapping keyLine names)) (distinct : (keysOf names).Nodup)
    {c : Compiler} {ctx : Context} {doc : Value} {log last : List Attempt}
    (rendered : g.render c ctx log = (.ok doc, last)) :
    ∃ body id, doc = Value.doc GroupStage.nodeName (.document body) ∧
      Entries.get? (text "_id") body = some id ∧
      (2 ≤ names.length → ∃ es, id = .document es ∧ List.Forall₂ (KeyEntry c ctx) names es ∧
        ∀ p ∈ names, (∀ r, IsRemainder r → (Pipeline.contextAfter ctx [some (.group g)]).Refers
            (text "_id." ++ p.1.value ++ r) (text "_id." ++ p.1.value ++ r)) ∧
          ∃ v, Entries.get? p.1.value es = some v ∧ CompiledTarget c ctx p.2 v) ∧
      ∀ p, names = [p] → CompiledTarget c ctx p.2 id := by
  obtain ⟨fields, hkeys, hfields⟩ := readGroup_keys read key
  have hlist : g.keys.toList = fields := hkeys ▸ keys_of_distinct hfields distinct
  have hlength : fields.length = names.length := hfields.length_eq.symm
  obtain ⟨id, outputs, rfl, ⟨mid, mid', hid⟩, -⟩ := GroupStage.render_eq_ok rendered
  refine ⟨_, id, rfl, by rw [Entries.get?, if_pos rfl], ?_, ?_⟩
  · intro several
    have hsize : 1 < g.keys.size := by
      rw [Fields.size, hlist]
      omega
    obtain ⟨es, rfl, hes⟩ := GroupStage.renderKey_several hsize hid
    have hentries := keyEntries_trans hfields (hlist ▸ hes)
    refine ⟨es, rfl, hentries, ?_⟩
    intro p hp
    refine ⟨?_, ?_⟩
    · intro r hr
      exact g.refers_key ctx (.inr ⟨p.1.value ++ r, rfl⟩)
    · exact Entries.get?_of_forall₂ (R := fun p v => CompiledTarget c ctx p.2 v) hentries distinct hp
  · rintro p rfl
    obtain ⟨f, rfl⟩ := List.length_eq_one_iff.mp hlength
    have hf := List.forall₂_cons.mp hfields
    exact ⟨f.target, hf.1.target, GroupStage.renderKey_single hlist hid⟩

/-- A plain scalar. -/
def plainScalar (s : String) : Node := .scalar 1 .str .plain (text s)

/-- A city and a state, the one at a path of its own. -/
def cityAndState : List (Node × Node) :=
  [(plainScalar "city", plainScalar "$address.city"), (plainScalar "state", plainScalar "$state")]

def countByCity : List (Node × Node) :=
  [(plainScalar "_id", .mapping 1 cityAndState),
    (plainScalar "count", .mapping 1 [(plainScalar "$sum", .scalar 1 .int .plain (text "1"))])]

def countByCityStage : GroupStage :=
  { keys := ⟨[⟨text "city", text "address.city"⟩, ⟨text "state", text "state"⟩]⟩
    accumulators := [⟨text "$sum", text "count", .literal (.int 1)⟩] }

def countByCityKey : Entries :=
  [(text "city", .string (text "$address.city")), (text "state", .string (text "$state"))]

theorem countByCity_shape :
    readGroup ⟨.mapping 1 [], []⟩ .unknown (.mapping 1 countByCity) = .ok (.group countByCityStage) ∧
      (countByCityStage.render {} .root []).1 = .ok (Value.doc GroupStage.nodeName (.document
        [(text "_id", .document countByCityKey), (text "count", Value.doc (text "$sum") (.int 1))])) ∧
      List.Forall₂ (KeyEntry {} .root) cityAndState countByCityKey := by
  obtain ⟨body, id, hdoc, hid, several, -⟩ := @group_key_mapping_shape ⟨.mapping 1 [], []⟩ .unknown 1 1
    countByCity cityAndState countByCityStage rfl rfl (by decide) {} .root
    (Value.doc GroupStage.nodeName (.document
        [(text "_id", .document countByCityKey), (text "count", Value.doc (text "$sum") (.int 1))]))
    [] _ rfl
  obtain ⟨es, rfl, hes, -⟩ := several (by decide)
  cases hdoc
  cases hid
  exact ⟨rfl, rfl, hes⟩

/-- A key with a single name. -/
def singleNameKey : Text := text "stages: [\x7b$group: \x7b_id: \x7bcity: $city\x7d\x7d\x7d]"

/-- The name is gone from the body. -/
theorem singleNameKey_flattened :
    ∃ input g body last, parse singleNameKey = .ok ⟨input, .stages [.group g]⟩ ∧
      compile {} ⟨input, .stages [.group g]⟩ [] =
        (.ok (.list [Value.doc GroupStage.nodeName (.document body)]), last) ∧
      Entries.get? (text "_id") body = some (.string (text "$city")) := by
  obtain ⟨input, stage, body, last, parsed, compiled, hcheck⟩ :=
    @exists_of_compilesStage (fun stage body =>
      decide (stage.name = GroupStage.nodeName ∧
        (body.get? (text "_id")).bind (·.asString.toOption) = some (text "$city"))) singleNameKey
      (by decide +kernel)
  obtain ⟨hname, hcity⟩ := of_decide_eq_true hcheck
  obtain ⟨v, hv, hstring⟩ := Option.bind_eq_some_iff.mp hcity
  obtain rfl := Value.eq_string_of_asString hstring
  cases stage with
  | group g => exact ⟨input, g, body, last, parsed, compiled, hv⟩
  | filter cond =>
    have hother : text "$match" = GroupStage.nodeName := hname
    exact absurd hother (by decide)
  | project p =>
    have hother : ProjectStage.nodeName = GroupStage.nodeName := hname
    exact absurd hother (by decide)

end Definition

end ScopedAggregation
