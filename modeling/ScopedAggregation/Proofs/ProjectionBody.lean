import ScopedAggregation.Proofs.RepeatedKeys

namespace ScopedAggregation

/-- A value that stands for "include" or "leave out" in the body of a projection. -/
def Value.isFlag : Value → Bool
  | .bool _ => true
  | .int _ => true
  | .double _ => true
  | _ => false

/-- A bare constant that reads as a flag. -/
def Expr.isFlag : Expr → Bool
  | .literal v => v.isFlag
  | .raw v => v.isFlag
  | _ => false

theorem Value.holdsReference_of_isFlag {v : Value} (h : v.isFlag = true) :
    v.holdsReference = false := by
  cases v with
  | bool | int | double => rfl
  | null | string | list | document => cases h

/-- A constant that reads as a flag is rendered as it is, and nothing else renders to a flag. -/
theorem Expr.isFlag_of_rendersTo {limit depth : Nat} {ctx : Context} {e : Expr} {v : Value}
    (h : e.RendersTo limit depth ctx v) : v.isFlag = e.isFlag := by
  cases e with
  | absent =>
    cases rendersTo_absent.mp h
    rfl
  | field path =>
    obtain ⟨r, -, rfl⟩ := renderField_eq_ok.mp (rendersTo_field.mp h).2
    rfl
  | var name =>
    obtain ⟨r, -, -, rfl⟩ := renderVariable_eq_ok.mp (rendersTo_var.mp h).2
    rfl
  | literal w =>
    obtain ⟨-, rfl⟩ := rendersTo_literal.mp h
    unfold renderLiteral
    split
    next hw =>
      cases hflag : w.isFlag with
      | true => rw [Value.holdsReference_of_isFlag hflag] at hw; cases hw
      | false => exact hflag.symm
    next => rfl
  | raw w =>
    obtain ⟨n, h⟩ := h
    obtain ⟨u, -, h⟩ := bind_eq_ok.mp h
    cases h
    rfl
  | operator op args =>
    obtain ⟨-, vs, -, rfl⟩ := rendersTo_operator.mp h
    rfl
  | array elements =>
    obtain ⟨-, vs, -, rfl⟩ := rendersTo_array.mp h
    rfl
  | object entries =>
    obtain ⟨-, vs, -, rfl⟩ := rendersTo_object.mp h
    rfl
  | faulty error => exact absurd h not_rendersTo_faulty
  | map input item body =>
    obtain ⟨-, source, inner, -, -, rfl⟩ := rendersTo_map.mp h
    rfl
  | filter input item cond =>
    obtain ⟨-, source, inner, -, -, rfl⟩ := rendersTo_filter.mp h
    rfl
  | reduce input initial body =>
    obtain ⟨-, source, start, inner, -, -, -, rfl⟩ := rendersTo_reduce.mp h
    rfl
  | letIn vars body =>
    obtain ⟨-, values, inner, -, -, rfl⟩ := rendersTo_letIn.mp h
    rfl

theorem Compiler.Compiles.isFlag_eq {c : Compiler} {ctx : Context} {e : Expr} {v : Value}
    (h : c.Compiles ctx e v) : v.isFlag = e.isFlag := by
  obtain ⟨e', he, -, hv⟩ := compile_eq_ok.mp h
  cases he
  exact Expr.isFlag_of_rendersTo hv

/-- The first key leads into the second: that one goes on with a dot behind it. -/
def LeadsInto (k l : Text) : Prop := k ++ [Ascii.dot] <+: l

instance (k l : Text) : Decidable (LeadsInto k l) :=
  inferInstanceAs (Decidable (k ++ [Ascii.dot] <+: l))

/-- No key is there twice, and none leads into another. -/
structure KeysApart (keys : List Text) : Prop where
  distinct : keys.Nodup
  apart : ∀ k ∈ keys, ∀ l ∈ keys, ¬ LeadsInto k l

namespace ProjectStage

/-- The projections that can be built. -/
inductive Built : ProjectStage → Prop
  | including (fields : List Field) : Built (.including fields)
  | compute {p : ProjectStage} (h : Built p) (output : Text) (value : Option Expr) :
    Built (p.compute output value)

def outputs (p : ProjectStage) : List Text := p.computed.map (·.1)

/-- What adding an output does: the projection keeps an error, or gains exactly that output. -/
theorem compute_step (p : ProjectStage) (output : Text) (value : Option Expr) :
    (∃ fault, p.compute output value = { p with error := some fault }) ∨
      ∃ e, value = some e ∧ p.hasOutput output = false ∧
        p.compute output value = { p with computed := p.computed ++ [(output, e)] } := by
  cases value with
  | some e =>
    rcases Definition.compute_cases p output e with hfault | ⟨hnew, hstep⟩
    · exact .inl hfault
    · exact .inr ⟨e, rfl, hnew, hstep⟩
  | none =>
    refine .inl ?_
    unfold compute
    split
    next fault hfault => exact ⟨fault, by rw [← hfault]⟩
    next =>
      split
      next => exact ⟨_, rfl⟩
      next => exact ⟨_, rfl⟩

/-- What a projection that can be built makes sure of. -/
structure Sound (p : ProjectStage) : Prop extends p.Separated where
  included : p.included.names.Nodup
  heads : ∀ o ∈ p.outputs, ∀ n ∈ p.included.names, head n ≠ o

theorem head_ne_of_new {p : ProjectStage} {output : Text} (h : p.hasOutput output = false) :
    ∀ n ∈ p.included.names, head n ≠ output := by
  simp only [hasOutput, Bool.or_eq_false_iff] at h
  intro n hn
  obtain ⟨f, hf, rfl⟩ := List.mem_map.mp hn
  simpa using List.any_eq_false.mp h.1.2 f hf

theorem Built.sound {p : ProjectStage} (h : p.Built) : p.Sound := by
  induction h with
  | including fields =>
    exact ⟨⟨List.nodup_nil, fun _ hq => absurd hq List.not_mem_nil⟩, Fields.nodup_distinct fields,
      fun _ ho => absurd ho List.not_mem_nil⟩
  | @compute p _ output value ih =>
    rcases p.compute_step output value with ⟨fault, hstep⟩ | ⟨e, rfl, hnew, hstep⟩
    · rw [hstep]
      exact ⟨⟨ih.outputs, ih.apart⟩, ih.included, ih.heads⟩
    · have separated := ih.toSeparated.compute output e
      have houtputs : (p.compute output (some e)).outputs = p.outputs ++ [output] := by
        rw [hstep]
        simp [ProjectStage.outputs]
      have hincluded : (p.compute output (some e)).included = p.included := by rw [hstep]
      refine ⟨separated, hincluded ▸ ih.included, ?_⟩
      rw [houtputs, hincluded]
      exact List.forall_mem_append.mpr
        ⟨ih.heads, List.forall_mem_singleton.mpr (head_ne_of_new hnew)⟩

/-- An included field and its entry: an inclusion, or a reference. -/
def IncludedEntry (c : Compiler) (ctx : Context) (f : Field) (q : Text × Value) : Prop :=
  q.1 = f.name ∧ ∃ v, c.Compiles ctx (.field f.target) v ∧ q.2 = inclusion f v

/-- A computed output and its entry. -/
def ComputedEntry (c : Compiler) (ctx : Context) (o : Text × Expr) (q : Text × Value) : Prop :=
  q.1 = o.1 ∧ c.Compiles ctx o.2 q.2

section

variable {c : Compiler} {ctx : Context} {log last : List Attempt}

theorem renderIncluded_entries {fs : List Field} {es : Entries}
    (h : renderIncluded c ctx fs log = (.ok es, last)) :
    List.Forall₂ (IncludedEntry c ctx) fs es := by
  induction fs generalizing es log last with
  | nil =>
    obtain ⟨rfl, -⟩ := Compiling.run_pure_eq_ok.mp h
    exact .nil
  | cons f fs ih =>
    obtain ⟨v, mid, hv, h⟩ := Compiling.run_bind_eq_ok.mp h
    obtain ⟨rest, mid', hrest, h⟩ := Compiling.run_bind_eq_ok.mp h
    obtain ⟨rfl, rfl⟩ := Compiling.run_pure_eq_ok.mp h
    exact .cons ⟨rfl, v, Compiler.compiles_of_run hv, rfl⟩ (ih hrest)

theorem renderComputed_entries {computed : List (Text × Expr)} {es : Entries}
    (h : renderComputed c ctx computed log = (.ok es, last)) :
    List.Forall₂ (ComputedEntry c ctx) computed es := by
  induction computed generalizing es log last with
  | nil =>
    obtain ⟨rfl, -⟩ := Compiling.run_pure_eq_ok.mp h
    exact .nil
  | cons o computed ih =>
    obtain ⟨v, mid, hv, h⟩ := Compiling.run_bind_eq_ok.mp h
    obtain ⟨rest, mid', hrest, h⟩ := Compiling.run_bind_eq_ok.mp h
    obtain ⟨rfl, rfl⟩ := Compiling.run_pure_eq_ok.mp h
    exact .cons ⟨rfl, Compiler.compiles_of_run hv⟩ (ih hrest)

/-- The body of a rendered projection: what is included, then what is computed. -/
theorem render_eq_ok {p : ProjectStage} {doc : Value} (h : p.render c ctx log = (.ok doc, last)) :
    ∃ included computed, doc = Value.doc nodeName (.document (included ++ computed)) ∧
      List.Forall₂ (IncludedEntry c ctx) p.included.toList included ∧
      List.Forall₂ (ComputedEntry c ctx) p.computed computed := by
  unfold render at h
  cases herror : p.error with
  | some e =>
    rw [herror] at h
    cases h
  | none =>
    rw [herror] at h
    dsimp only at h
    split at h
    next => cases h
    next =>
      obtain ⟨included, mid, hincluded, h⟩ := Compiling.run_bind_eq_ok.mp h
      obtain ⟨computed, mid', hcomputed, h⟩ := Compiling.run_bind_eq_ok.mp h
      obtain ⟨rfl, rfl⟩ := Compiling.run_pure_eq_ok.mp h
      exact ⟨included, computed, rfl, renderIncluded_entries hincluded,
        renderComputed_entries hcomputed⟩

end

theorem keys_of_entries {c : Compiler} {ctx : Context} {p : ProjectStage} {included computed : Entries}
    (hincluded : List.Forall₂ (IncludedEntry c ctx) p.included.toList included)
    (hcomputed : List.Forall₂ (ComputedEntry c ctx) p.computed computed) :
    Entries.keys (included ++ computed) = p.included.names ++ p.outputs := by
  have hnames : p.included.names = Entries.keys included :=
    forall₂_map_eq hincluded fun _ _ h => h.1.symm
  have houtputs : p.outputs = Entries.keys computed :=
    forall₂_map_eq hcomputed fun _ _ h => h.1.symm
  rw [hnames, houtputs]
  exact List.map_append

theorem Sound.keys_nodup {p : ProjectStage} (h : p.Sound) :
    (p.included.names ++ p.outputs).Nodup := by
  refine List.nodup_append.mpr ⟨h.included, h.outputs, ?_⟩
  rintro n hn o ho rfl
  obtain ⟨q, hq, rfl⟩ := List.mem_map.mp ho
  exact h.apart q hq hn

/-- The key is that of an included field that is still found under its own name. -/
def Keeps (p : ProjectStage) (c : Compiler) (ctx : Context) (k : Text) : Prop :=
  ∃ f ∈ p.included.toList, f.name = k ∧
    c.Compiles ctx (.field f.target) (.string (Ascii.dollar :: k))

theorem isFlag_included {c : Compiler} {ctx : Context} {f : Field} {q : Text × Value}
    (h : IncludedEntry c ctx f q) (flag : q.2.isFlag = true) :
    c.Compiles ctx (.field f.target) (.string (Ascii.dollar :: f.name)) ∧ q.2 = .int 1 := by
  obtain ⟨-, v, hv, hq⟩ := h
  rw [hq] at flag ⊢
  unfold inclusion at flag ⊢
  split at flag
  next s =>
    split at flag
    next hs => exact ⟨hs ▸ hv, if_pos hs⟩
    next => cases flag
  next hother =>
    have hnone : v.isFlag = false := hv.isFlag_eq
    rw [hnone] at flag
    cases flag

/-- Where the body of a projection has a flag. An entry is a number or a truth value exactly if it is
the inclusion of a field that keeps its name, or if what is computed there is a bare constant that is a
number or a truth value; every other computed output is rendered as an expression. -/
theorem flag_iff_kept_or_constant {p : ProjectStage} (built : p.Built) {c : Compiler} {ctx : Context}
    {doc : Value} {log last : List Attempt} (rendered : p.render c ctx log = (.ok doc, last)) :
    ∃ body : Entries, doc = Value.doc nodeName (.document body) ∧
      body.keys = p.included.names ++ p.outputs ∧ body.keys.Nodup ∧
      ∀ k v, (k, v) ∈ body → (v.isFlag = true ↔
        (p.Keeps c ctx k ∧ v = .int 1) ∨ ∃ e, (k, e) ∈ p.computed ∧ e.isFlag = true) := by
  obtain ⟨included, computed, rfl, hincluded, hcomputed⟩ := render_eq_ok rendered
  have sound := built.sound
  have hkeys := keys_of_entries hincluded hcomputed
  refine ⟨included ++ computed, rfl, hkeys, hkeys ▸ sound.keys_nodup, ?_⟩
  intro k v hmem
  rcases List.mem_append.mp hmem with hmem | hmem
  · obtain ⟨f, hf, hentry⟩ := forall₂_mem_right hincluded hmem
    have hname : k = f.name := hentry.1
    constructor
    · intro flag
      obtain ⟨hown, hone⟩ := isFlag_included hentry flag
      exact .inl ⟨⟨f, hf, hname.symm, hname ▸ hown⟩, hone⟩
    · rintro (⟨-, rfl⟩ | ⟨e, he, -⟩)
      · rfl
      · exact absurd (hname ▸ List.mem_map_of_mem hf) (sound.apart (k, e) he)
  · obtain ⟨⟨o, e⟩, he, hname, hcompiles⟩ := forall₂_mem_right hcomputed hmem
    dsimp only at hname hcompiles
    subst hname
    rw [hcompiles.isFlag_eq]
    constructor
    · intro flag
      exact .inr ⟨e, he, flag⟩
    · rintro (⟨⟨f, hf, rfl, -⟩, -⟩ | ⟨e', he', flag⟩)
      · exact absurd (List.mem_map_of_mem hf) (sound.apart (f.name, e) he)
      · cases List.inj_on_of_nodup_map sound.outputs he he' rfl
        exact flag

/-- A kept field, a renamed one, a sum and a constant. -/
def soldItems : ProjectStage :=
  ((including [.ofName (text "name"), .renamed (text "city") (text "address.city")]).compute
    (text "total") (some (.operator (text "$add") [.field (text "net"), .field (text "tax")]))).compute
    (text "rate") (some (.literal (.int 5)))

def soldItemsBody : Entries :=
  [(text "name", .int 1), (text "city", .string (text "$address.city")),
    (text "total", Value.doc (text "$add") (.list [.string (text "$net"), .string (text "$tax")])),
    (text "rate", .int 5)]

theorem soldItems_flags :
    soldItems.Built ∧
      (soldItems.render {} .root []).1 = .ok (Value.doc nodeName (.document soldItemsBody)) ∧
      ∀ k v, (k, v) ∈ soldItemsBody → (v.isFlag = true ↔
        (soldItems.Keeps {} .root k ∧ v = .int 1) ∨
          ∃ e, (k, e) ∈ soldItems.computed ∧ e.isFlag = true) := by
  have built : soldItems.Built := .compute (.compute (.including _) _ _) _ _
  obtain ⟨body, hdoc, -, -, h⟩ := @flag_iff_kept_or_constant soldItems built {} .root
    (Value.doc nodeName (.document soldItemsBody)) [] _ rfl
  cases hdoc
  exact ⟨built, rfl, h⟩

theorem head_of_leadsInto {k l : Text} (h : LeadsInto k l) (undotted : Ascii.dot ∉ k) :
    head l = k := by
  obtain ⟨t, rfl⟩ := h
  have hsplit := splitHead_append undotted (.inr ⟨t, rfl⟩ : IsRemainder (Ascii.dot :: t))
  rw [List.append_assoc, List.singleton_append, head, hsplit]

/-- The names of a projection do not lead into each other in any of the ways that adding an output lets
pass. -/
structure NamesApart (p : ProjectStage) : Prop where
  included : ∀ k ∈ p.included.names, ∀ l ∈ p.included.names, ¬ LeadsInto k l
  inside : ∀ k ∈ p.included.names, ∀ l ∈ p.outputs, ¬ LeadsInto k l
  outputs : ∀ k ∈ p.outputs, ∀ l ∈ p.outputs, ¬ LeadsInto k l
  around : ∀ k ∈ p.outputs, Ascii.dot ∈ k → ∀ l ∈ p.included.names, ¬ LeadsInto k l

theorem Sound.keysApart_iff {p : ProjectStage} (h : p.Sound) :
    KeysApart (p.included.names ++ p.outputs) ↔ p.NamesApart := by
  constructor
  · rintro ⟨-, apart⟩
    have hleft : ∀ k ∈ p.included.names, k ∈ p.included.names ++ p.outputs :=
      fun k hk => List.mem_append_left _ hk
    have hright : ∀ k ∈ p.outputs, k ∈ p.included.names ++ p.outputs :=
      fun k hk => List.mem_append_right _ hk
    exact ⟨fun k hk l hl => apart k (hleft k hk) l (hleft l hl),
      fun k hk l hl => apart k (hleft k hk) l (hright l hl),
      fun k hk l hl => apart k (hright k hk) l (hright l hl),
      fun k hk _ l hl => apart k (hright k hk) l (hleft l hl)⟩
  · intro names
    refine ⟨h.keys_nodup, ?_⟩
    intro k hk l hl
    rcases List.mem_append.mp hk with hk | hk <;> rcases List.mem_append.mp hl with hl | hl
    · exact names.included k hk l hl
    · exact names.inside k hk l hl
    · by_cases hdot : Ascii.dot ∈ k
      · exact names.around k hk hdot l hl
      · exact fun hleads => h.heads k hk l hl (head_of_leadsInto hleads hdot)
    · exact names.outputs k hk l hl

/-- When the keys of a rendered projection lie apart. They are always different from each other, and an
output without a dot never leads into an included field; that is all that adding outputs makes sure of,
so the keys lie apart exactly if no names lead into each other in the remaining ways. -/
theorem keysApart_iff_namesApart {p : ProjectStage} (built : p.Built) {c : Compiler} {ctx : Context}
    {doc : Value} {log last : List Attempt} (rendered : p.render c ctx log = (.ok doc, last)) :
    ∃ body : Entries, doc = Value.doc nodeName (.document body) ∧
      body.keys = p.included.names ++ p.outputs ∧ body.keys.Nodup ∧
      (∀ k ∈ p.outputs, ∀ l ∈ p.included.names, LeadsInto k l → Ascii.dot ∈ k) ∧
      (KeysApart body.keys ↔ p.NamesApart) := by
  obtain ⟨included, computed, rfl, hincluded, hcomputed⟩ := render_eq_ok rendered
  have sound := built.sound
  have hkeys := keys_of_entries hincluded hcomputed
  refine ⟨included ++ computed, rfl, hkeys, hkeys ▸ sound.keys_nodup, ?_, hkeys ▸ sound.keysApart_iff⟩
  intro k hk l hl hleads
  by_contra hdot
  exact sound.heads k hk l hl (head_of_leadsInto hleads hdot)

/-- Fields and outputs with dots in their names, none of them inside another. -/
def storedItems : ProjectStage :=
  ((including [.ofName (text "store.city"), .ofName (text "name")]).compute (text "stats.mean")
    (some (.field (text "mean")))).compute (text "store-id") (some (.field (text "store.id")))

def storedItemsBody : Entries :=
  [(text "store.city", .int 1), (text "name", .int 1), (text "stats.mean", .string (text "$mean")),
    (text "store-id", .string (text "$store.id"))]

theorem storedItems_apart :
    storedItems.Built ∧
      (storedItems.render {} .root []).1 = .ok (Value.doc nodeName (.document storedItemsBody)) ∧
      KeysApart storedItemsBody.keys := by
  have built : storedItems.Built := .compute (.compute (.including _) _ _) _ _
  have names : storedItems.NamesApart := ⟨by decide, by decide, by decide, by decide⟩
  obtain ⟨body, hdoc, -, -, -, h⟩ := @keysApart_iff_namesApart storedItems built {} .root
    (Value.doc nodeName (.document storedItemsBody)) [] _ rfl
  cases hdoc
  exact ⟨built, rfl, h.mpr names⟩

end ProjectStage

namespace Definition

/-- The definition has a single stage, which compiles to a body that passes the check. -/
def compilesStage (check : Stage → Entries → Bool) (definition : Definition) : Bool :=
  match definition.body, (compile {} definition []).1 with
  | .stages [stage], .ok (.list [.document [(name, .document body)]]) =>
    decide (name = stage.name) && check stage body
  | _, _ => false

theorem exists_of_compilesStage {check : Stage → Entries → Bool} {source : Text}
    (h : (parse source).toOption.any (compilesStage check) = true) :
    ∃ input stage body last, parse source = .ok ⟨input, .stages [stage]⟩ ∧
      compile {} ⟨input, .stages [stage]⟩ [] =
        (.ok (.list [Value.doc stage.name (.document body)]), last) ∧
      check stage body = true := by
  obtain ⟨⟨input, body⟩, parsed, h⟩ := exists_ok_of_any h
  unfold compilesStage at h
  split at h
  next stage name entries hbody compiled =>
    cases hbody
    simp only [Bool.and_eq_true, decide_eq_true_eq] at h
    obtain ⟨rfl, hcheck⟩ := h
    exact ⟨input, stage, entries, _, parsed, Prod.ext compiled rfl, hcheck⟩
  next => cases h

/-- The stage is a projection that passes the check. -/
def checksProjection (check : ProjectStage → Entries → Bool) (stage : Stage) (body : Entries) : Bool :=
  match stage with
  | .filter _ => false
  | .group _ => false
  | .project p => check p body

theorem exists_of_compilesProjection {check : ProjectStage → Entries → Bool} {source : Text}
    (h : (parse source).toOption.any (compilesStage (checksProjection check)) = true) :
    ∃ input p body last, parse source = .ok ⟨input, .stages [.project p]⟩ ∧
      compile {} ⟨input, .stages [.project p]⟩ [] =
        (.ok (.list [Value.doc ProjectStage.nodeName (.document body)]), last) ∧
      check p body = true := by
  obtain ⟨input, stage, body, last, parsed, compiled, hcheck⟩ := exists_of_compilesStage h
  cases stage with
  | project p => exact ⟨input, p, body, last, parsed, compiled, hcheck⟩
  | filter | group => cases hcheck

/-- A number other than one and zero as the value of a projected field. -/
def projectedNumber : Text := text "stages: [\x7b$project: \x7bx: 5\x7d\x7d]"

/-- The number is computed, and stands in the body where it reads as an inclusion. -/
theorem projectedNumber_reads_as_flag :
    ∃ input p body last, parse projectedNumber = .ok ⟨input, .stages [.project p]⟩ ∧
      compile {} ⟨input, .stages [.project p]⟩ [] =
        (.ok (.list [Value.doc ProjectStage.nodeName (.document body)]), last) ∧
      text "x" ∈ p.outputs ∧ text "x" ∉ p.included.names ∧ (text "x", .int 5) ∈ body := by
  obtain ⟨input, p, body, last, parsed, compiled, hcheck⟩ :=
    @exists_of_compilesProjection (fun p body =>
      decide (text "x" ∈ p.outputs ∧ text "x" ∉ p.included.names ∧
        (body.get? (text "x")).bind (·.asInt.toOption) = some 5)) projectedNumber (by decide +kernel)
  obtain ⟨houtput, hincluded, hfive⟩ := of_decide_eq_true hcheck
  obtain ⟨v, hv, hint⟩ := Option.bind_eq_some_iff.mp hfive
  obtain rfl := Value.eq_int_of_asInt hint
  exact ⟨input, p, body, last, parsed, compiled, houtput, hincluded, Entries.mem_of_get? hv⟩

/-- An output inside a field. -/
def outputInsideField : Text :=
  text "stages: [\x7b$project: \x7ba: 1, a.b: \x7b$add: [1, 2]\x7d\x7d\x7d]"

/-- The same, and a field inside another one, an output inside another one, and a dotted output around a
field. -/
def nestedOutputs : List Text :=
  [outputInsideField, text "stages: [\x7b$project: \x7ba: 1, a.b: 1\x7d\x7d]",
    text "stages: [\x7b$project: \x7ba: \x7b$add: [1, 2]\x7d, a.b: \x7b$add: [1, 2]\x7d\x7d\x7d]",
    text "stages: [\x7b$project: \x7ba.b.c: 1, a.b: \x7b$add: [1, 2]\x7d\x7d\x7d]"]

/-- All four are accepted and compile to keys of which one leads into another. -/
theorem nestedOutputs_collide : ∀ source ∈ nestedOutputs,
    ∃ input p body last, parse source = .ok ⟨input, .stages [.project p]⟩ ∧
      compile {} ⟨input, .stages [.project p]⟩ [] =
        (.ok (.list [Value.doc ProjectStage.nodeName (.document body)]), last) ∧
      ¬ KeysApart (Entries.keys body) := by
  intro source hsource
  have hall : nestedOutputs.all (fun source => (parse source).toOption.any (compilesStage
      (checksProjection fun _ body =>
        body.keys.any fun k => body.keys.any fun l => decide (LeadsInto k l)))) = true := by
    decide +kernel
  obtain ⟨input, p, body, last, parsed, compiled, hcheck⟩ :=
    exists_of_compilesProjection (List.all_eq_true.mp hall source hsource)
  obtain ⟨k, hk, hcheck⟩ := List.any_eq_true.mp hcheck
  obtain ⟨l, hl, hleads⟩ := List.any_eq_true.mp hcheck
  exact ⟨input, p, body, last, parsed, compiled,
    fun h => h.apart k hk l hl (of_decide_eq_true hleads)⟩

theorem outputInsideField_collides :
    ∃ input p body last, parse outputInsideField = .ok ⟨input, .stages [.project p]⟩ ∧
      compile {} ⟨input, .stages [.project p]⟩ [] =
        (.ok (.list [Value.doc ProjectStage.nodeName (.document body)]), last) ∧
      ¬ KeysApart (Entries.keys body) :=
  nestedOutputs_collide outputInsideField List.mem_cons_self

end Definition

end ScopedAggregation
