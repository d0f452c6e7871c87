import ScopedAggregation.Proofs.ChainResolution
import ScopedAggregation.Proofs.ReferenceScope

namespace ScopedAggregation

/-- The path into the document that a string refers to, if it does. -/
def documentReference? : Text → Option Text
  | [] => none
  | b :: path => if b = Ascii.dollar && !isReference path then some path else none

theorem documentReference?_field {path : Text} (h : isReference path = false) :
    documentReference? (Ascii.dollar :: path) = some path := by
  simp [documentReference?, h]

theorem documentReference?_variable (path : Text) :
    documentReference? (Ascii.dollar :: Ascii.dollar :: path) = none := by
  simp [documentReference?, isReference_cons]

theorem documentReference?_plain {s : Text} (h : isReference s = false) :
    documentReference? s = none := by
  cases s with
  | nil => rfl
  | cons b path =>
    have hb : b ≠ Ascii.dollar := by
      intro hb
      rw [hb, isReference_cons.mpr rfl] at h
      cases h
    simp [documentReference?, hb]

namespace Fields

/-- The path behind a path whose first segment is the name of a field. -/
def redirect (fields : Fields) (path : Text) : Text :=
  match fields.lookup? path.head with
  | some f => f.target ++ path.rest
  | none => path

/-- A string with the path that it refers to redirected. -/
def redirectString (fields : Fields) (s : Text) : Text :=
  match documentReference? s with
  | some path => Ascii.dollar :: fields.redirect path
  | none => s

/-- A string refers to the document only by fields of the set. -/
def Covers (fields : Fields) (s : Text) : Prop :=
  ∀ path, documentReference? s = some path → fields.contains path.head = true

theorem redirectString_plain {fields : Fields} {s : Text} (h : isReference s = false) :
    fields.redirectString s = s := by
  rw [redirectString, documentReference?_plain h]

theorem covers_plain {fields : Fields} {s : Text} (h : isReference s = false) : fields.Covers s := by
  intro path hpath
  rw [documentReference?_plain h] at hpath
  cases hpath

end Fields

mutual

/-- A document with its strings changed, those of quoted values left as they are. -/
def Value.mapStrings (f : Text → Text) : Value → Value
  | .string s => .string (f s)
  | .list items => .list (mapStringsOf f items)
  | .document [(key, arg)] =>
    if key = text "$literal" then .document [(key, arg)] else .document [(key, arg.mapStrings f)]
  | .document entries => .document (mapStringsIn f entries)
  | v => v

def mapStringsOf (f : Text → Text) : List Value → List Value
  | [] => []
  | v :: vs => v.mapStrings f :: mapStringsOf f vs

def mapStringsIn (f : Text → Text) : List (Text × Value) → List (Text × Value)
  | [] => []
  | (k, v) :: es => (k, v.mapStrings f) :: mapStringsIn f es

end

namespace Value

variable {f : Text → Text}

theorem mapStrings_list (items : List Value) :
    (list items).mapStrings f = .list (items.map (mapStrings f)) := by
  have all : ∀ vs, mapStringsOf f vs = vs.map (mapStrings f) := by
    intro vs
    induction vs with
    | nil => rfl
    | cons v vs ih => rw [mapStringsOf, ih, List.map_cons]
  rw [mapStrings, all]

theorem mapStrings_document {entries : List (Text × Value)}
    (unquoted : ∀ p ∈ entries, p.1 ≠ text "$literal") :
    (document entries).mapStrings f =
      .document (entries.map fun p => (p.1, p.2.mapStrings f)) := by
  have all : ∀ es, mapStringsIn f es = es.map fun p => (p.1, p.2.mapStrings f) := by
    intro es
    induction es with
    | nil => rfl
    | cons p es ih => rw [mapStringsIn, ih, List.map_cons]
  match entries, unquoted with
  | [], _ => rfl
  | [(key, arg)], unquoted =>
    rw [mapStrings, if_neg (unquoted (key, arg) (by simp))]
    rfl
  | p :: q :: rest, _ => exact congrArg document (all _)

/-- A constant stands unchanged when the change is one of references only. -/
theorem mapStrings_renderLiteral (plain : ∀ s, isReference s = false → f s = s) (v : Value) :
    (renderLiteral v).mapStrings f = renderLiteral v := by
  have unmarked : ∀ w : Value, w.holdsReference = false → w.mapStrings f = w := by
    intro w
    induction w using Value.memberInduction with
    | null => exact fun _ => rfl
    | bool b => exact fun _ => rfl
    | int i => exact fun _ => rfl
    | double x => exact fun _ => rfl
    | string s => exact fun h => congrArg string (plain s h)
    | list items ih =>
      intro h
      have items_plain := holdsReferenceItems_eq_false.mp h
      rw [mapStrings_list, List.map_congr_left fun v hv => ih v hv (items_plain v hv), List.map_id']
    | document entries ih =>
      intro h
      have entries_plain := holdsReferenceEntries_eq_false.mp h
      rw [mapStrings_document fun p hp => ne_literal_of_ordinary
        (ordinary_of_plain (entries_plain p hp).1)]
      have same : ∀ p ∈ entries, (p.1, p.2.mapStrings f) = p := by
        intro p hp
        rw [ih p hp (entries_plain p hp).2]
      rw [List.map_congr_left same, List.map_id']
  unfold renderLiteral
  split
  next => rfl
  next h => exact unmarked v (by simpa using h)

/-- The document with each reference to the document redirected. -/
def redirect (fields : Fields) (v : Value) : Value := v.mapStrings fields.redirectString

/-- The paths by which a document refers to the input document. -/
def documentReferences (v : Value) : List Text :=
  (v.strings {}).filterMap fun o => documentReference? o.1

/-- Everything in a part that stands at a position refers to shown fields only. -/
def Covered (shown : Fields) (pos : Position) (v : Value) : Prop :=
  ∀ o ∈ v.strings pos, shown.Covers o.1

/-- What compilation over the shown fields makes of a part of the document that it makes over the
whole document. -/
def Redirects (shown : Fields) (pos : Position) (v v' : Value) : Prop :=
  v.Covered shown pos ∧ v' = v.redirect shown

end Value

namespace Context

/-- The context over a root that shows only some fields. -/
def restrict (shown : Fields) : Context → Context
  | .root => .restricted shown
  | .restricted fields => .restricted fields
  | .child exposure fields parent => .child exposure fields (parent.restrict shown)

theorem scopes_restrict (shown : Fields) (ctx : Context) :
    (ctx.restrict shown).scopes = ctx.scopes := by
  induction ctx with
  | root => rfl
  | restricted fields => rfl
  | child exposure fields parent ih => simp only [restrict, scopes, ih]

theorem restriction_restrict {shown : Fields} {ctx : Context} (whole : ctx.restriction = none) :
    (ctx.restrict shown).restriction = some shown := by
  induction ctx with
  | root => rfl
  | restricted fields => cases whole
  | child exposure fields parent ih => exact ih whole

theorem resolve_nil (ctx : Context) (r : Resolution) : ctx.resolve [] ≠ .ok r := by
  intro h
  exact (resolve_ok h).1 rfl

/-- Over the whole document a name that is no variable stands for itself. -/
theorem resolve_whole {ctx : Context} {name : Text} {r : Resolution} (whole : ctx.restriction = none)
    (h : ctx.resolve name = .ok r) : r.kind = .variable ∨ r = ⟨.field, name, name⟩ := by
  have path : ∀ c : Context, c.restriction = none → c.documentPath? name = some name := by
    intro c hc
    induction c with
    | root => rfl
    | restricted fields => cases hc
    | child exposure fields parent ih => exact ih hc
  cases (resolve_ok h).2 with
  | exposed nearest => exact .inl rfl
  | system unexposed system => exact .inl rfl
  | document unexposed ordinary shown reads =>
    rw [path ctx whole] at reads
    cases reads
    exact .inr rfl

/-- Over a restricted root a variable resolves as before, and a field if it is shown. -/
theorem resolve_restrict {shown : Fields} {ctx : Context} {name : Text} {r' : Resolution}
    (whole : ctx.restriction = none) :
    (ctx.restrict shown).resolve name = .ok r' ↔
      (ctx.resolve name = .ok r' ∧ r'.kind = .variable) ∨
      (ctx.resolve name = .ok ⟨.field, name, name⟩ ∧ shown.contains name.head = true ∧
        r' = ⟨.field, name, shown.redirect name⟩) := by
  by_cases hn : name = []
  · subst hn
    simp [resolve_nil]
  rw [resolve_eq hn, resolve_eq hn, scopes_restrict, restriction_restrict whole, whole]
  have bound : ∀ path : Text, .ok ⟨.variable, name, path⟩ = (.ok r' : Except CompileError Resolution) ↔
      (.ok ⟨.variable, name, path⟩ = (.ok r' : Except CompileError Resolution) ∧
        r'.kind = .variable) ∨
      (.ok ⟨.variable, name, path⟩ = (.ok ⟨.field, name, name⟩ : Except CompileError Resolution) ∧
        shown.contains name.head = true ∧ r' = ⟨.field, name, shown.redirect name⟩) := by
    intro path
    constructor
    · intro h
      cases h
      exact .inl ⟨rfl, rfl⟩
    · rintro (⟨h, _⟩ | ⟨h, _⟩)
      · exact h
      · cases h
  unfold chainResolve
  cases exposedBy? name.head ctx.scopes with
  | some f => exact bound _
  | none =>
    simp only
    split
    next => exact bound _
    next =>
      unfold rootPath Fields.contains Fields.redirect
      cases hf : shown.lookup? name.head with
      | none => cases outermostHiding? ctx.scopes <;> grind [error_bind, ok_bind]
      | some f => cases outermostHiding? ctx.scopes <;> grind [error_bind, ok_bind]

end Context

/-- Two traversals whose steps differ by a change of the result, under a condition on it. -/
theorem forall₂_iff_map {α β : Type} {R R' : α → β → Prop} {P : β → Prop} {g : β → β}
    {xs : List α} {ys' : List β}
    (h : ∀ x ∈ xs, ∀ y', R' x y' ↔ ∃ y, R x y ∧ P y ∧ y' = g y) :
    List.Forall₂ R' xs ys' ↔ ∃ ys, List.Forall₂ R xs ys ∧ (∀ y ∈ ys, P y) ∧ ys' = ys.map g := by
  induction xs generalizing ys' with
  | nil =>
    constructor
    · intro hnil
      cases hnil
      exact ⟨[], .nil, by simp, rfl⟩
    · rintro ⟨ys, hnil, _, rfl⟩
      cases hnil
      exact .nil
  | cons x xs ih =>
    have tail := fun {ys'} => @ih ys' fun z hz => h z (List.mem_cons_of_mem x hz)
    constructor
    · intro hcons
      cases hcons with
      | cons hy hys =>
        obtain ⟨y, hxy, hp, rfl⟩ := (h x (by simp) _).mp hy
        obtain ⟨ys, hxs, hps, rfl⟩ := tail.mp hys
        exact ⟨y :: ys, .cons hxy hxs, List.forall_mem_cons.mpr ⟨hp, hps⟩, rfl⟩
    · rintro ⟨ys, hcons, hp, rfl⟩
      cases hcons with
      | @cons _ y _ ys hxy hxs =>
        rw [List.forall_mem_cons] at hp
        exact .cons ((h x (by simp) _).mpr ⟨y, hxy, hp.1, rfl⟩) (tail.mpr ⟨ys, hxs, hp.2, rfl⟩)

open Value (Covered Redirects)

variable {shown : Fields} {ctx : Context} {limit depth : Nat} {pos : Position}

theorem redirects_string {s : Text} {v' : Value} :
    Redirects shown pos (.string s) v' ↔ shown.Covers s ∧ v' = .string (shown.redirectString s) := by
  constructor
  · intro h
    exact ⟨h.1 (s, pos) (by simp [Value.strings]), h.2⟩
  · rintro ⟨covered, redirected⟩
    refine ⟨?_, redirected⟩
    intro o ho
    cases List.mem_singleton.mp ho
    exact covered

/-- A variable stands as it is, and a path of the document is redirected if it is shown. -/
theorem redirects_reference {r : Resolution} (name : Text) {v' : Value}
    (kinds : r.kind = .variable ∨ r = ⟨.field, name, name⟩)
    (plain : r.kind = .field → isReference name = false) :
    Redirects shown pos (.string r.reference) v' ↔
      (r.kind = .variable ∧ v' = .string r.reference) ∨
      (r = ⟨.field, name, name⟩ ∧ shown.contains name.head = true ∧
        v' = .string (Ascii.dollar :: shown.redirect name)) := by
  rw [redirects_string]
  rcases kinds with kind | rfl
  · have reference : r.reference = Ascii.dollar :: Ascii.dollar :: r.path := by
      simp only [Resolution.reference, kind]
    have other : r ≠ ⟨.field, name, name⟩ := by
      rintro rfl
      cases kind
    simp [Fields.Covers, Fields.redirectString, reference, documentReference?_variable, kind, other]
  · have path := documentReference?_field (plain rfl)
    simp [Fields.Covers, Fields.redirectString, Resolution.reference, path]

theorem renderField_restrict {path : Text} {v' : Value} (whole : ctx.restriction = none)
    (plain : isReference path = false) :
    renderField (ctx.restrict shown) path = .ok v' ↔
      ∃ v, renderField ctx path = .ok v ∧ Redirects shown pos v v' := by
  simp only [renderField_eq_ok, Context.resolve_restrict whole]
  constructor
  · rintro ⟨r', ⟨hr, kind⟩ | ⟨hr, covered, rfl⟩, rfl⟩
    · exact ⟨_, ⟨r', hr, rfl⟩, (redirects_reference path (.inl kind) fun _ => plain).mpr
        (.inl ⟨kind, rfl⟩)⟩
    · exact ⟨_, ⟨_, hr, rfl⟩, (redirects_reference path (.inr rfl) fun _ => plain).mpr
        (.inr ⟨rfl, covered, rfl⟩)⟩
  · rintro ⟨v, ⟨r, hr, rfl⟩, redirects⟩
    have kinds := Context.resolve_whole whole hr
    rcases (redirects_reference path kinds fun _ => plain).mp redirects with
      ⟨kind, rfl⟩ | ⟨rfl, covered, rfl⟩
    · exact ⟨r, .inl ⟨hr, kind⟩, rfl⟩
    · exact ⟨_, .inr ⟨hr, covered, rfl⟩, rfl⟩

theorem renderVariable_restrict {name : Text} {v' : Value} (whole : ctx.restriction = none) :
    renderVariable (ctx.restrict shown) name = .ok v' ↔
      ∃ v, renderVariable ctx name = .ok v ∧ Redirects shown pos v v' := by
  have same : ∀ r, (ctx.restrict shown).resolve name = .ok r ∧ r.kind = .variable ↔
      ctx.resolve name = .ok r ∧ r.kind = .variable := by
    intro r
    rw [Context.resolve_restrict whole]
    constructor
    · rintro ⟨⟨hr, kind⟩ | ⟨_, _, rfl⟩, kind'⟩
      · exact ⟨hr, kind⟩
      · cases kind'
    · rintro ⟨hr, kind⟩
      exact ⟨.inl ⟨hr, kind⟩, kind⟩
  simp only [renderVariable_eq_ok, ← and_assoc, same]
  constructor
  · rintro ⟨r, ⟨hr, kind⟩, rfl⟩
    exact ⟨_, ⟨r, ⟨hr, kind⟩, rfl⟩, (redirects_reference name (.inl kind) (by simp [kind])).mpr
      (.inl ⟨kind, rfl⟩)⟩
  · rintro ⟨v, ⟨r, ⟨hr, kind⟩, rfl⟩, redirects⟩
    rcases (redirects_reference name (.inl kind) (by simp [kind])).mp redirects with
      ⟨_, rfl⟩ | ⟨rfl, _⟩
    · exact ⟨r, ⟨hr, kind⟩, rfl⟩
    · cases kind

theorem redirects_literal (w : Value) {v' : Value} :
    Redirects shown pos (renderLiteral w) v' ↔ v' = renderLiteral w := by
  have same : (renderLiteral w).redirect shown = renderLiteral w :=
    Value.mapStrings_renderLiteral (fun _ => Fields.redirectString_plain) w
  constructor
  · intro h
    exact h.2.trans same
  · rintro rfl
    exact ⟨fun o ho => Fields.covers_plain (strings_renderLiteral ho), same.symm⟩

theorem source_restrict {s : Source} {v' : Value} (whole : ctx.restriction = none)
    (plain : s.isPlain = true)
    (ih : ∀ e ∈ s.parts, ∀ v', e.RendersTo limit depth (ctx.restrict shown) v' ↔
      ∃ v, e.RendersTo limit depth ctx v ∧ Redirects shown pos v v') :
    s.RendersTo limit depth (ctx.restrict shown) v' ↔
      ∃ v, s.RendersTo limit depth ctx v ∧ Redirects shown pos v v' := by
  cases s with
  | field path =>
    have hp : isReference path = false := by simpa [Source.isPlain] using plain
    simp only [Source.rendersTo_field]
    exact renderField_restrict whole hp
  | expr e =>
    simp only [Source.rendersTo_expr]
    exact ih e (by simp [Source.parts]) v'

/-- Entries that render over the shown fields render over the whole document. -/
theorem entries_restrict {es : List (Text × Expr)} {vs' : List (Text × Value)}
    (ih : ∀ e ∈ es.map (·.2), ∀ v', e.RendersTo limit depth (ctx.restrict shown) v' ↔
      ∃ v, e.RendersTo limit depth ctx v ∧ Redirects shown pos v v') :
    List.Forall₂ (EntryRendersTo limit depth (ctx.restrict shown)) es vs' ↔
      ∃ vs, List.Forall₂ (EntryRendersTo limit depth ctx) es vs ∧
        (∀ q ∈ vs, q.2.Covered shown pos) ∧ vs' = vs.map fun q => (q.1, q.2.redirect shown) := by
  refine forall₂_iff_map ?_
  rintro ⟨key, e⟩ hp ⟨key', v'⟩
  simp only [EntryRendersTo, ih e (List.mem_map_of_mem hp) v']
  constructor
  · rintro ⟨rfl, v, hv, covered, rfl⟩
    exact ⟨(key', v), ⟨rfl, hv⟩, covered, rfl⟩
  · rintro ⟨⟨k, v⟩, ⟨rfl, hv⟩, covered, h⟩
    cases h
    exact ⟨rfl, v, hv, covered, rfl⟩

theorem covered_list {vs : List Value} :
    (Value.list vs).Covered shown pos ↔ ∀ v ∈ vs, v.Covered shown pos := by
  simp only [Covered, Value.strings, mem_stringsOf]
  constructor
  · intro h v hv o ho
    exact h o ⟨v, hv, ho⟩
  · rintro h o ⟨v, hv, ho⟩
    exact h v hv o ho

theorem redirects_list {vs : List Value} {v' : Value} :
    Redirects shown pos (.list vs) v' ↔
      (∀ v ∈ vs, v.Covered shown pos) ∧ v' = .list (vs.map (Value.redirect shown)) := by
  rw [Redirects, covered_list, Value.redirect, Value.mapStrings_list]
  rfl

theorem redirects_operator {op : Text} {vs : List Value} {v' : Value}
    (ordinary : reservedOperators.contains op = false) :
    Redirects shown pos (Value.doc op (.list vs)) v' ↔
      (∀ v ∈ vs, v.Covered shown pos) ∧
        v' = Value.doc op (.list (vs.map (Value.redirect shown))) := by
  have covered : (Value.doc op (.list vs)).Covered shown pos ↔ ∀ v ∈ vs, v.Covered shown pos := by
    rw [← covered_list, Covered, strings_operator_document ordinary]
    rfl
  have unquoted : ∀ p ∈ [(op, Value.list vs)], p.1 ≠ text "$literal" := by
    simpa using ne_literal_of_ordinary ordinary
  rw [Redirects, covered, Value.redirect, Value.doc, Value.mapStrings_document unquoted,
    List.map_singleton, Value.mapStrings_list]
  rfl

theorem covered_document {vs : List (Text × Value)} (plain : ∀ q ∈ vs, isReference q.1 = false) :
    (Value.document vs).Covered shown pos ↔ ∀ q ∈ vs, q.2.Covered shown pos := by
  simp only [Covered, mem_strings_object_document plain]
  constructor
  · intro h q hq o ho
    exact h o ⟨q, hq, ho⟩
  · rintro h o ⟨q, hq, ho⟩
    exact h q hq o ho

theorem redirect_document {vs : List (Text × Value)} (plain : ∀ q ∈ vs, isReference q.1 = false) :
    (Value.document vs).redirect shown = .document (vs.map fun q => (q.1, q.2.redirect shown)) :=
  Value.mapStrings_document fun q hq => ne_literal_of_ordinary (ordinary_of_plain (plain q hq))

theorem redirects_object {vs : List (Text × Value)} {v' : Value}
    (plain : ∀ q ∈ vs, isReference q.1 = false) :
    Redirects shown pos (.document vs) v' ↔
      (∀ q ∈ vs, q.2.Covered shown pos) ∧
        v' = .document (vs.map fun q => (q.1, q.2.redirect shown)) := by
  rw [Redirects, covered_document plain, redirect_document plain]

theorem redirect_construct {op : Text} {args : Entries} (known : op ≠ text "$literal")
    (unquoted : ∀ p ∈ args, p.1 ≠ text "$literal") :
    (Value.doc op (.document args)).redirect shown =
      Value.doc op (.document (args.map fun p => (p.1, p.2.redirect shown))) := by
  have outer : ∀ p ∈ [(op, Value.document args)], p.1 ≠ text "$literal" := by simpa using known
  rw [Value.redirect, Value.doc, Value.mapStrings_document outer, List.map_singleton,
    Value.mapStrings_document unquoted]
  rfl

theorem redirects_iteration {op body : String} {source inside v' : Value} {item : Text}
    (known : (op = "$map" ∧ body = "in") ∨ (op = "$filter" ∧ body = "cond"))
    (plain : isReference item = false) :
    Redirects shown pos (Expr.iterationDocument op body source item inside) v' ↔
      source.Covered shown pos ∧ inside.Covered shown ⟨item :: pos.bound, true⟩ ∧
        v' = Expr.iterationDocument op body (source.redirect shown) item (inside.redirect shown) := by
  have covered : (Expr.iterationDocument op body source item inside).Covered shown pos ↔
      source.Covered shown pos ∧ inside.Covered shown ⟨item :: pos.bound, true⟩ := by
    simp only [Covered, strings_iteration_document known, List.forall_mem_append,
      List.forall_mem_cons, Fields.covers_plain plain, true_and]
  have unquoted : text op ≠ text "$literal" ∧ ∀ p ∈ [(text "input", source),
      (text "as", Value.string item), (text body, inside)], p.1 ≠ text "$literal" := by
    rcases known with ⟨rfl, rfl⟩ | ⟨rfl, rfl⟩ <;> simpa using by decide
  have name : (Value.string item).redirect shown = .string item :=
    congrArg Value.string (Fields.redirectString_plain plain)
  rw [Redirects, covered, and_assoc, Expr.iterationDocument,
    redirect_construct unquoted.1 unquoted.2]
  simp only [List.map_cons, List.map_nil, name]
  rfl

theorem redirects_fold {source start inside v' : Value} :
    Redirects shown pos (Expr.foldDocument source start inside) v' ↔
      source.Covered shown pos ∧ start.Covered shown pos ∧
        inside.Covered shown ⟨text "value" :: text "this" :: pos.bound, true⟩ ∧
        v' = Expr.foldDocument (source.redirect shown) (start.redirect shown)
          (inside.redirect shown) := by
  have covered : (Expr.foldDocument source start inside).Covered shown pos ↔
      source.Covered shown pos ∧ start.Covered shown pos ∧
        inside.Covered shown ⟨text "value" :: text "this" :: pos.bound, true⟩ := by
    simp only [Covered, strings_fold_document, List.forall_mem_append]
  have unquoted : ∀ p ∈ [(text "input", source), (text "initialValue", start),
      (text "in", inside)], p.1 ≠ text "$literal" := by
    simpa using by decide
  rw [Redirects, covered, and_assoc, and_assoc, Expr.foldDocument,
    redirect_construct (by decide) unquoted]
  rfl

theorem redirects_binding {values : List (Text × Value)} {inside v' : Value}
    (plain : ∀ q ∈ values, isReference q.1 = false) :
    Redirects shown pos (Expr.bindingDocument values inside) v' ↔
      (∀ q ∈ values, q.2.Covered shown pos) ∧
        inside.Covered shown ⟨values.map (·.1) ++ pos.bound, pos.hidden⟩ ∧
        v' = Expr.bindingDocument (values.map fun q => (q.1, q.2.redirect shown))
          (inside.redirect shown) := by
  have covered : (Expr.bindingDocument values inside).Covered shown pos ↔
      (∀ q ∈ values, q.2.Covered shown pos) ∧
        inside.Covered shown ⟨values.map (·.1) ++ pos.bound, pos.hidden⟩ := by
    rw [← covered_document plain]
    simp only [Covered, strings_binding_document, List.forall_mem_append]
  have unquoted : ∀ p ∈ [(text "vars", Value.document values), (text "in", inside)],
      p.1 ≠ text "$literal" := by
    simpa using by decide
  rw [Redirects, covered, and_assoc, Expr.bindingDocument, redirect_construct (by decide) unquoted]
  simp only [List.map_cons, List.map_nil, redirect_document plain]
  rfl

/-- Rendering a node around parts, from what rendering does to the parts. -/
theorem node_restrict {α : Type} {fits : Prop} {Q Q' P : α → Prop} {g : α → α} {wrap : α → Value}
    {v' : Value} (parts : ∀ a', Q' a' ↔ ∃ a, Q a ∧ P a ∧ a' = g a)
    (redirects : ∀ a, Q a → ∀ v', Redirects shown pos (wrap a) v' ↔ P a ∧ v' = wrap (g a)) :
    (fits ∧ ∃ a', Q' a' ∧ v' = wrap a') ↔
      ∃ v, (fits ∧ ∃ a, Q a ∧ v = wrap a) ∧ Redirects shown pos v v' := by
  constructor
  · rintro ⟨hd, a', ha', rfl⟩
    obtain ⟨a, ha, covered, rfl⟩ := (parts a').mp ha'
    exact ⟨wrap a, ⟨hd, a, ha, rfl⟩, (redirects a ha _).mpr ⟨covered, rfl⟩⟩
  · rintro ⟨v, ⟨hd, a, ha, rfl⟩, h⟩
    obtain ⟨covered, rfl⟩ := (redirects a ha _).mp h
    exact ⟨hd, g a, (parts _).mpr ⟨a, ha, covered, rfl⟩, rfl⟩

/-- Rendering a construct that visits every item. -/
theorem iteration_restrict {fits : Prop} {S S' I I' : Value → Prop} {op body : String} {item : Text}
    {v' : Value} (known : (op = "$map" ∧ body = "in") ∨ (op = "$filter" ∧ body = "cond"))
    (name : Expr.IsVariableName item)
    (source : ∀ v', S' v' ↔ ∃ v, S v ∧ Redirects shown pos v v')
    (inside : ∀ v', I' v' ↔ ∃ v, I v ∧ Redirects shown ⟨item :: pos.bound, true⟩ v v') :
    (fits ∧ ∃ s i, S' s ∧ I' i ∧ v' = Expr.iterationDocument op body s item i) ↔
      ∃ v, (fits ∧ ∃ s i, S s ∧ I i ∧ v = Expr.iterationDocument op body s item i) ∧
        Redirects shown pos v v' := by
  have plain := isReference_variableName name
  constructor
  · rintro ⟨hd, s', i', hs', hi', rfl⟩
    obtain ⟨s, hs, covered, rfl⟩ := (source s').mp hs'
    obtain ⟨i, hi, coveredInside, rfl⟩ := (inside i').mp hi'
    exact ⟨_, ⟨hd, s, i, hs, hi, rfl⟩,
      (redirects_iteration known plain).mpr ⟨covered, coveredInside, rfl⟩⟩
  · rintro ⟨_, ⟨hd, s, i, hs, hi, rfl⟩, redirects⟩
    obtain ⟨covered, coveredInside, rfl⟩ := (redirects_iteration known plain).mp redirects
    exact ⟨hd, _, _, (source _).mpr ⟨s, hs, covered, rfl⟩,
      (inside _).mpr ⟨i, hi, coveredInside, rfl⟩, rfl⟩

/-- Over the shown fields an expression renders to what it renders to over the whole document,
redirected, and only if that is covered. -/
theorem rendersTo_restrict {e : Expr} {v' : Value} (regular : e.Every Expr.Regular)
    (whole : ctx.restriction = none) :
    e.RendersTo limit depth (ctx.restrict shown) v' ↔
      ∃ v, e.RendersTo limit depth ctx v ∧ Redirects shown pos v v' := by
  -- The position moves with the context: a body has more names bound, and inside an iteration the
  -- document hidden.
  induction regular generalizing depth ctx v' pos with
  | @node e here below ih =>
    obtain ⟨wellFormed, plain⟩ := here
    cases e with
    | absent =>
      simp only [Expr.rendersTo_absent, exists_eq_left]
      exact ⟨fun h => ⟨by simp [Covered, Value.strings], h⟩, And.right⟩
    | field path =>
      have hp : isReference path = false := by simpa [Expr.isPlainNode] using plain
      simp only [Expr.rendersTo_field, and_assoc, exists_and_left]
      exact and_congr_right fun _ => renderField_restrict whole hp
    | var name =>
      simp only [Expr.rendersTo_var, and_assoc, exists_and_left]
      exact and_congr_right fun _ => renderVariable_restrict whole
    | literal w =>
      simp only [Expr.rendersTo_literal, and_assoc, exists_and_left, exists_eq_left]
      exact and_congr_right fun _ => (redirects_literal w).symm
    | raw w => cases plain
    | operator op args =>
      simp only [Expr.isPlainNode, Bool.and_eq_true, Bool.not_eq_true'] at plain
      simp only [Expr.rendersTo_operator]
      refine node_restrict (fun vs' => ?_) fun vs _ v' => redirects_operator plain.2
      exact forall₂_iff_map fun e he v' => ih e he whole
    | array elements =>
      simp only [Expr.rendersTo_array]
      refine node_restrict (fun vs' => ?_) fun vs _ v' => redirects_list
      exact forall₂_iff_map fun e he v' => ih e he whole
    | object entries =>
      simp only [Expr.rendersTo_object]
      refine node_restrict (fun vs' => ?_) fun vs hvs v' =>
        redirects_object (plain_keys_of_renderEntries (Expr.plain_keys plain) hvs)
      exact entries_restrict fun e he v' => ih e he whole
    | faulty error => simp [Expr.not_rendersTo_faulty]
    | map input item body =>
      simp only [Expr.rendersTo_map]
      refine iteration_restrict (.inl ⟨rfl, rfl⟩) wellFormed (fun v' => ?_) fun v' =>
        @ih body (by simp [Expr.children]) (itemScope item ctx) _ _ _ whole
      exact source_restrict whole plain fun e he v' => ih e (by simp [Expr.children, he]) whole
    | filter input item cond =>
      simp only [Expr.rendersTo_filter]
      refine iteration_restrict (.inr ⟨rfl, rfl⟩) wellFormed (fun v' => ?_) fun v' =>
        @ih cond (by simp [Expr.children]) (itemScope item ctx) _ _ _ whole
      exact source_restrict whole plain fun e he v' => ih e (by simp [Expr.children, he]) whole
    | reduce input initial body =>
      have source := fun v' => @source_restrict shown ctx limit (depth + 1) pos input v' whole plain
        fun e he v' => ih e (by simp [Expr.children, he]) whole
      have start := fun v' => @ih initial (by simp [Expr.children]) ctx (depth + 1) pos v' whole
      have inside := fun v' => @ih body (by simp [Expr.children]) (foldScope ctx) (depth + 1)
        ⟨text "value" :: text "this" :: pos.bound, true⟩ v' whole
      simp only [Expr.rendersTo_reduce]
      constructor
      · rintro ⟨hd, s', t', i', hs', ht', hi', rfl⟩
        obtain ⟨s, hs, coveredSource, rfl⟩ := (source s').mp hs'
        obtain ⟨t, ht, coveredStart, rfl⟩ := (start t').mp ht'
        obtain ⟨i, hi, coveredInside, rfl⟩ := (inside i').mp hi'
        exact ⟨_, ⟨hd, s, t, i, hs, ht, hi, rfl⟩,
          redirects_fold.mpr ⟨coveredSource, coveredStart, coveredInside, rfl⟩⟩
      · rintro ⟨_, ⟨hd, s, t, i, hs, ht, hi, rfl⟩, redirects⟩
        obtain ⟨coveredSource, coveredStart, coveredInside, rfl⟩ := redirects_fold.mp redirects
        exact ⟨hd, _, _, _, (source _).mpr ⟨s, hs, coveredSource, rfl⟩,
          (start _).mpr ⟨t, ht, coveredStart, rfl⟩, (inside _).mpr ⟨i, hi, coveredInside, rfl⟩, rfl⟩
    | letIn vars body =>
      have values := fun vs' => @entries_restrict shown ctx limit (depth + 1) pos vars vs'
        fun e he v' => ih e (List.mem_append_left _ he) whole
      have inside := fun v' => @ih body (by simp [Expr.children])
        (bindingScope (vars.map (·.1)) ctx) (depth + 1) ⟨vars.map (·.1) ++ pos.bound, pos.hidden⟩
        v' whole
      have keys : ∀ p ∈ vars, isReference p.1 = false :=
        fun p hp => isReference_variableName (wellFormed.1 p hp)
      simp only [Expr.rendersTo_letIn]
      constructor
      · rintro ⟨hd, vs', i', hvs', hi', rfl⟩
        obtain ⟨vs, hvs, coveredValues, rfl⟩ := (values vs').mp hvs'
        obtain ⟨i, hi, coveredInside, rfl⟩ := (inside i').mp hi'
        -- The scope binds the names of the expression, the document those it was rendered with.
        rw [← keys_of_renderEntries hvs] at coveredInside
        exact ⟨_, ⟨hd, vs, i, hvs, hi, rfl⟩, (redirects_binding
          (plain_keys_of_renderEntries keys hvs)).mpr ⟨coveredValues, coveredInside, rfl⟩⟩
      · rintro ⟨_, ⟨hd, vs, i, hvs, hi, rfl⟩, redirects⟩
        obtain ⟨coveredValues, coveredInside, rfl⟩ := (redirects_binding
          (plain_keys_of_renderEntries keys hvs)).mp redirects
        rw [keys_of_renderEntries hvs] at coveredInside
        exact ⟨hd, _, _, (values _).mpr ⟨vs, hvs, coveredValues, rfl⟩,
          (inside _).mpr ⟨i, hi, coveredInside, rfl⟩, rfl⟩

theorem covered_start {d : Value} :
    d.Covered shown {} ↔ ∀ path ∈ d.documentReferences, shown.contains path.head = true := by
  simp only [Covered, Fields.Covers, Value.documentReferences, List.mem_filterMap]
  exact ⟨fun h path ⟨o, ho, hpath⟩ => h o ho path hpath, fun h o ho path hpath => h path ⟨o, ho, hpath⟩⟩

/-- Compilation over the shown fields succeeds exactly when compilation over the whole document does
with references to shown fields only, and gives that document with these references redirected. -/
theorem compile_restricted_iff {c : Compiler} {shown : Fields} {e : Expr} {d' : Value}
    (built : e.Built) (plain : e.isPlain = true) :
    (c.compile (some e) (.restricted shown)).1 = .ok d' ↔
      ∃ d, (c.compile (some e) .root).1 = .ok d ∧
        (∀ path ∈ d.documentReferences, shown.contains path.head = true) ∧
        d' = d.redirect shown := by
  have renders := @rendersTo_restrict shown .root c.maxDepth 0 {} e d' (built.regular plain) rfl
  simp only [compile_eq_ok, ← covered_start]
  constructor
  · rintro ⟨e', he, present, h⟩
    cases he
    obtain ⟨d, hd, covered, rfl⟩ := renders.mp h
    exact ⟨d, ⟨e, rfl, present, hd⟩, covered, rfl⟩
  · rintro ⟨d, ⟨e', he, present, hd⟩, covered, rfl⟩
    cases he
    exact ⟨e, rfl, present, renders.mpr ⟨d, hd, covered, rfl⟩⟩

/-- The items' prices times a rate: a field of the document, then a variable of the same name. -/
def ratedPrices : Expr :=
  .letIn [(text "rate", .field (text "rate.net"))]
    (.map (.field (text "items")) (text "item")
      (.operator (text "$multiply")
        [.field (text "item.price"), .field (text "rate"), .literal (.string (text "$rate"))]))

def ratedPricesOver (rate items : String) : Value :=
  Expr.bindingDocument [(text "rate", .string (text rate))]
    (Expr.iterationDocument "$map" "in" (.string (text items)) (text "item")
      (Value.doc (text "$multiply") (.list [.string (text "$$item.price"), .string (text "$$rate"),
        Value.doc (text "$literal") (.string (text "$rate"))])))

def orderFields : Fields :=
  .ofList [.renamed (text "items") (text "order.items"), .renamed (text "rate") (text "settings")]

theorem ratedPrices_built : ratedPrices.Built := by
  refine .letIn_of (List.forall_mem_singleton.mpr (.field _)) (.map_of (.operator_of _ ?_) rfl) rfl
  simp only [List.forall_mem_cons, List.not_mem_nil, false_imp_iff, implies_true, and_true]
  exact ⟨.field _, .field _, .literal _⟩

theorem ratedPrices_restricted :
    ratedPrices.isPlain = true ∧
      (({} : Compiler).compile (some ratedPrices) .root).1 =
        .ok (ratedPricesOver "$rate.net" "$items") ∧
      (({} : Compiler).compile (some ratedPrices) (.restricted orderFields)).1 =
        .ok (ratedPricesOver "$settings.net" "$order.items") :=
  ⟨by decide, rfl, (@compile_restricted_iff {} orderFields _ _ ratedPrices_built (by decide)).mpr
    ⟨ratedPricesOver "$rate.net" "$items", rfl, by decide, rfl⟩⟩

end ScopedAggregation
