import ScopedAggregation.Definition.Expression
import ScopedAggregation.Proofs.BuiltExpr
import ScopedAggregation.Proofs.DocumentNodes
import ScopedAggregation.Proofs.NameResolution
import ScopedAggregation.Proofs.RenderSuccess
import Mathlib.Data.List.Nodup

namespace ScopedAggregation

/-- The contexts that the constructs open below an unrestricted root. -/
inductive Context.Opened : Context → Prop
  | root : Opened .root
  | child {ctx : Context} (exposure : Exposure) (names : List Text) (outer : ctx.Opened) :
    Opened (.child exposure (.ofNames names) ctx)

theorem Context.Opened.target_eq {ctx : Context} {head : Text} {f : Field} (h : ctx.Opened)
    (nearest : ctx.nearest? head = some f) : f.target = head := by
  induction h with
  | root => cases nearest
  | child exposure names outer ih =>
    by_cases hm : head ∈ names
    · rw [nearest?, Fields.lookup?_ofNames_of_mem hm, Option.some_or] at nearest
      cases Option.some.inj nearest
      rfl
    · rw [nearest?, Fields.lookup?_ofNames_of_notMem hm, Option.none_or] at nearest
      exact ih nearest

theorem Context.Opened.documentPath?_eq {ctx : Context} (h : ctx.Opened) (name : Text) :
    ctx.documentPath? name = some name := by
  induction h with
  | root => rfl
  | child exposure names outer ih => exact ih

/-- Below an unrestricted root every name stands for itself. -/
theorem Context.Opened.path_eq {ctx : Context} {name : Text} {r : Resolution} (h : ctx.Opened)
    (hr : ctx.resolve name = .ok r) : name ≠ [] ∧ r.path = name := by
  obtain ⟨hn, hres⟩ := resolve_ok hr
  refine ⟨hn, ?_⟩
  cases hres with
  | exposed nearest =>
    rw [h.target_eq nearest]
    exact Text.head_append_rest name
  | system _ _ => rfl
  | document _ _ _ reads =>
    rw [h.documentPath?_eq] at reads
    exact (Option.some.inj reads).symm

/-- No formula is embedded in a string. -/
def Value.isUnmarked : Value → Bool
  | .string s => !Text.includes Formula.opening s
  | _ => true

/-- A value that can be read in so many levels, and in which no formula is embedded. -/
structure Value.Fits (levels : Nat) (v : Value) : Prop where
  room : v.nesting < levels
  unmarked : v.all isUnmarked = true

namespace Value.Fits

theorem succ {levels : Nat} {v : Value} (h : v.Fits levels) : v.Fits (levels + 1) :=
  ⟨Nat.lt_succ_of_lt h.room, h.unmarked⟩

theorem item {levels : Nat} {vs : List Value} {v : Value} (h : (Value.list vs).Fits (levels + 1))
    (hv : v ∈ vs) : v.Fits levels := by
  have hroom := h.room
  have hless := nesting_item hv
  exact ⟨by omega, (all_list.mp h.unmarked).2 v hv⟩

theorem entry {levels : Nat} {entries : List (Text × Value)} {q : Text × Value}
    (h : (Value.document entries).Fits (levels + 1)) (hq : q ∈ entries) : q.2.Fits levels := by
  have hroom := h.room
  have hless := nesting_entry hq
  exact ⟨by omega, (all_document.mp h.unmarked).2 q hq⟩

/-- The argument of an operator has as many levels as the operator. -/
theorem argument {levels : Nat} {key : Text} {v : Value} (h : (Value.doc key v).Fits (levels + 1)) :
    v.Fits levels :=
  h.entry (q := (key, v)) (by simp)

end Value.Fits

/-- Keys of constant documents in order, and operators with as many arguments as they accept. -/
def Expr.isPortableNode : Expr → Bool
  | .literal v => v.all Value.isSortedNode
  | .operator op args => (arityOf? op).all (·.accepts args.length)
  | _ => true

def Expr.isPortable (e : Expr) : Bool := e.all isPortableNode

end ScopedAggregation

namespace ScopedAggregation.Definition

open Yaml (Node Document)

/-- A node is read as an expression that renders to a value wherever there is room for it. -/
def Rereads (d : Document) (levels : Nat) (ctx : Context) (node : Node) (v : Value) : Prop :=
  ∃ e, readExpr d levels node = .ok e ∧ e ≠ .absent ∧
    ∀ limit depth, depth + v.nesting < limit → e.RendersTo limit depth ctx v

variable {d : Document} {levels line : Nat} {ctx : Context} {node : Node}

theorem parseTemplate_unmarked {s : Text} (h : Text.includes Formula.opening s = false) :
    Formula.parseTemplate s = .ok none := by
  simp [Formula.parseTemplate, h]

theorem readExpr_quoted {s : Text} :
    readExpr d (levels + 1) (.scalar line .str .doubleQuoted s) =
      stringExpr (.scalar line .str .doubleQuoted s) s := rfl

theorem stringExpr_plain {s : Text} (plain : isReference s = false)
    (unmarked : Text.includes Formula.opening s = false) :
    stringExpr node s = .ok (.literal (.string s)) := by
  unfold stringExpr
  rw [parseTemplate_unmarked unmarked]
  dsimp only
  split
  next => cases plain
  next => cases plain
  next => cases plain
  next => cases plain
  next => rfl

theorem stringExpr_field {path : Text} (given : path ≠ []) (plain : isReference path = false)
    (unmarked : Text.includes Formula.opening (Ascii.dollar :: path) = false) :
    stringExpr node (Ascii.dollar :: path) = .ok (.field path) := by
  unfold stringExpr
  rw [parseTemplate_unmarked unmarked]
  cases path with
  | nil => exact absurd rfl given
  | cons b rest =>
    have hb : b ≠ Ascii.dollar := by
      rintro rfl
      cases plain
    dsimp only
    split
    next heq =>
      cases heq
      exact absurd rfl hb
    next heq =>
      cases heq
      exact absurd rfl hb
    next heq => cases heq
    next heq =>
      cases heq
      rfl
    next heq => exact absurd rfl (heq (b :: rest))

theorem stringExpr_variable {name : Text} (given : name ≠ [])
    (unmarked : Text.includes Formula.opening (Ascii.dollar :: Ascii.dollar :: name) = false) :
    stringExpr node (Ascii.dollar :: Ascii.dollar :: name) = .ok (.var name) := by
  unfold stringExpr
  rw [parseTemplate_unmarked unmarked]
  cases name with
  | nil => exact absurd rfl given
  | cons b rest => rfl

theorem rereads_items {items : List Node} {vs : List Value}
    (h : List.Forall₂ (Rereads d levels ctx) items vs) :
    ∃ es, items.mapM (readExpr d levels) = .ok es ∧
      ∀ limit depth, depth + nestingOfItems vs < limit →
        List.Forall₂ (Expr.RendersTo limit depth ctx) es vs := by
  induction h with
  | nil => exact ⟨[], rfl, fun _ _ _ => .nil⟩
  | @cons node v items vs hv _ ih =>
    obtain ⟨e, he, _, hrender⟩ := hv
    obtain ⟨es, hes, hrest⟩ := ih
    refine ⟨e :: es, mapM_eq_ok.mpr (.cons he (mapM_eq_ok.mp hes)), ?_⟩
    intro limit depth hroom
    rw [nestingOfItems] at hroom
    exact .cons (hrender limit depth (by omega)) (hrest limit depth (by omega))

/-- An entry is read under its key as an expression that renders to its value. -/
def EntryRereads (d : Document) (levels : Nat) (ctx : Context) (p : Node × Node)
    (q : Text × Value) : Prop :=
  p.1.value = q.1 ∧ Rereads d levels ctx p.2 q.2

/-- An entry is read as a key and an expression. -/
def EntryReads (d : Document) (levels : Nat) (p : Node × Node) (q : Text × Expr) : Prop :=
  p.1.value = q.1 ∧ readExpr d levels p.2 = .ok q.2 ∧ q.2 ≠ .absent

theorem rereads_entries {nodes : List (Node × Node)} {entries : List (Text × Value)}
    (h : List.Forall₂ (EntryRereads d levels ctx) nodes entries) :
    ∃ es, List.Forall₂ (EntryReads d levels) nodes es ∧
      (∀ limit depth, depth + nestingOfEntries entries < limit →
        List.Forall₂ (EntryRendersTo limit depth ctx) es entries) ∧
      es.map (·.1) = entries.map (·.1) := by
  induction h with
  | nil => exact ⟨[], .nil, fun _ _ _ => .nil, rfl⟩
  | @cons p q nodes entries hq _ ih =>
    obtain ⟨k, v⟩ := q
    obtain ⟨hk, e, he, hne, hrender⟩ := hq
    obtain ⟨es, hes, hrest, hkeys⟩ := ih
    refine ⟨(k, e) :: es, .cons ⟨hk, he, hne⟩ hes, ?_, by simp [hkeys]⟩
    intro limit depth hroom
    rw [nestingOfEntries] at hroom
    have hv : depth + v.nesting < limit := by omega
    exact .cons ⟨rfl, hrender limit depth hv⟩ (hrest limit depth (by omega))

/-- Entries that are read one by one are read as the entries of an object. -/
theorem Inner.entries_eq_ok {nodes : List (Node × Node)} {es : List (Text × Expr)}
    {seen : List Text} (h : List.Forall₂ (EntryReads d levels) nodes es)
    (plain : ∀ p ∈ es, isReference p.1 = false) (distinct : (es.map (·.1)).Nodup)
    (fresh : ∀ p ∈ es, p.1 ∉ seen) : (readExpr d levels).entries seen nodes = .ok es := by
  induction h generalizing seen with
  | nil => rfl
  | @cons p q nodes es hq _ ih =>
    obtain ⟨k, node⟩ := p
    obtain ⟨key, e⟩ := q
    obtain ⟨hk, he, _⟩ := hq
    obtain ⟨hplain, plain⟩ := List.forall_mem_cons.mp plain
    obtain ⟨hfresh, fresh⟩ := List.forall_mem_cons.mp fresh
    rw [List.map_cons, List.nodup_cons] at distinct
    have hrest : (readExpr d levels).entries (key :: seen) nodes = .ok es := by
      refine ih plain distinct.2 ?_
      intro p hp hmem
      rcases List.mem_cons.mp hmem with heq | hmem
      · have hkeys : p.1 ∈ es.map (·.1) := List.mem_map_of_mem hp
        exact distinct.1 (heq ▸ hkeys)
      · exact fresh p hp hmem
    have hkey : k.value = key := hk
    have href : Text.startsWith [Ascii.dollar] key = false := hplain
    have hseen : ¬ (seen.any (· = key)) = true := by simpa using hfresh
    rw [entries, hkey, if_neg (by simp [href]), if_neg hseen]
    exact bind_eq_ok.mpr ⟨e, he, bind_eq_ok.mpr ⟨es, hrest, rfl⟩⟩

/-- Entries that are read one by one are read as declarations. -/
theorem Inner.bindings_eq_ok {place : Location} {nodes : List (Node × Node)}
    {es : List (Text × Expr)} (h : List.Forall₂ (EntryReads d levels) nodes es) :
    (readExpr d levels).bindings place (some (.mapping line nodes)) =
      .ok (es.map fun p => (p.1, some p.2)) := by
  refine mapM_eq_ok.mpr (List.forall₂_map_right_iff.mpr (h.imp ?_))
  rintro ⟨k, node⟩ ⟨key, e⟩ ⟨hk, he, _⟩
  refine map_eq_ok.mpr ⟨e, he, ?_⟩
  rw [← hk]

theorem rereads_sequence {items : List Node} {vs : List Value}
    (h : List.Forall₂ (Rereads d levels ctx) items vs) :
    Rereads d (levels + 1) ctx (.sequence line items) (.list vs) := by
  obtain ⟨es, hes, hrender⟩ := rereads_items h
  refine ⟨.array es, map_eq_ok.mpr ⟨es, hes, rfl⟩, by simp, ?_⟩
  intro limit depth hroom
  rw [Value.nesting] at hroom
  exact Expr.rendersTo_array.mpr ⟨by omega, vs, hrender limit (depth + 1) (by omega), rfl⟩

theorem Inner.mapping_object {nodes : List (Node × Node)} {es : List (Text × Expr)}
    (h : List.Forall₂ (EntryReads d levels) nodes es)
    (plain : ∀ p ∈ es, isReference p.1 = false) (distinct : (es.map (·.1)).Nodup) :
    (readExpr d levels).mapping d nodes = .ok (.object es) := by
  have hentries := @entries_eq_ok d levels nodes es [] h plain distinct (by simp)
  have hobject : mapping.object (readExpr d levels) nodes = .ok (.object es) :=
    map_eq_ok.mpr ⟨es, hentries, rfl⟩
  unfold mapping
  split
  next k node =>
    cases h with
    | @cons _ q _ _ hq hqs =>
      have hplain := plain q (by simp)
      have hk : k.value = q.1 := hq.1
      have hdollar : Text.startsWith [Ascii.dollar] k.value = false := by
        rw [hk]
        exact hplain
      simp only [hdollar, Bool.not_false, if_true]
      exact hobject
  next => exact hobject

theorem rereads_object {nodes : List (Node × Node)} {entries : List (Text × Value)}
    (h : List.Forall₂ (EntryRereads d levels ctx) nodes entries)
    (plain : ∀ q ∈ entries, isReference q.1 = false) (distinct : (entries.map (·.1)).Nodup) :
    Rereads d (levels + 1) ctx (.mapping line nodes) (.document entries) := by
  obtain ⟨es, hes, hrender, hkeys⟩ := rereads_entries h
  have hplain : ∀ p ∈ es, isReference p.1 = false := by
    intro p hp
    have hmem : p.1 ∈ entries.map (·.1) := hkeys ▸ List.mem_map_of_mem hp
    obtain ⟨q, hq, hqp⟩ := List.mem_map.mp hmem
    rw [← hqp]
    exact plain q hq
  refine ⟨.object es, Inner.mapping_object hes hplain (hkeys ▸ distinct), by simp, ?_⟩
  intro limit depth hroom
  rw [Value.nesting] at hroom
  exact Expr.rendersTo_object.mpr ⟨by omega, entries, hrender limit (depth + 1) (by omega), rfl⟩

/-- A node that is read as a constant renders as that constant. -/
theorem rereads_literal {v : Value} (h : readExpr d levels node = .ok (.literal v))
    (plain : v.holdsReference = false) : Rereads d levels ctx node v := by
  refine ⟨_, h, by simp, ?_⟩
  intro limit depth hroom
  refine Expr.rendersTo_literal.mpr ⟨by omega, ?_⟩
  rw [renderLiteral, if_neg (by simp [plain])]

theorem exists_levels {v : Value} (h : v.Fits levels) : ∃ n, levels = n + 1 :=
  Nat.exists_eq_succ_of_ne_zero (Nat.ne_of_gt (Nat.zero_lt_of_lt h.room))

/-- A constant without references is read as it stands. -/
theorem rereads_constant {v : Value} (plain : v.holdsReference = false)
    (sorted : v.all Value.isSortedNode = true) :
    ∀ {levels : Nat} {node : Node}, v.Fits levels → Represents node v →
      Rereads d levels ctx node v := by
  induction v using Value.memberInduction with
  | null =>
    intro levels node fits h
    obtain ⟨levels, rfl⟩ := exists_levels fits
    cases h
    exact rereads_literal rfl rfl
  | bool b =>
    intro levels node fits h
    obtain ⟨levels, rfl⟩ := exists_levels fits
    cases h
    refine rereads_literal ?_ rfl
    rw [readExpr, scalarData_bool]
    rfl
  | int i =>
    intro levels node fits h
    obtain ⟨levels, rfl⟩ := exists_levels fits
    cases h
    refine rereads_literal ?_ rfl
    rw [readExpr, scalarData_int]
    rfl
  | double x =>
    intro levels node _ h
    cases h
  | string s =>
    intro levels node fits h
    obtain ⟨levels, rfl⟩ := exists_levels fits
    have hmark : Text.includes Formula.opening s = false := by
      simpa [Value.all, Value.isUnmarked] using fits.unmarked
    cases h with
    | string quoted =>
      obtain ⟨line, rfl⟩ := quoted
      refine rereads_literal ?_ plain
      rw [readExpr_quoted, stringExpr_plain plain hmark]
  | list items ih =>
    intro levels node fits h
    obtain ⟨levels, rfl⟩ := exists_levels fits
    obtain ⟨line, nodes, rfl, parts⟩ := represents_list h
    have hplain := holdsReferenceItems_eq_false.mp plain
    have hsorted := (Value.all_list.mp sorted).2
    refine rereads_sequence (forall₂_imp_of_mem parts fun node v hv hr => ?_)
    exact ih v hv (hplain v hv) (hsorted v hv) (fits.item hv) hr
  | document entries ih =>
    intro levels node fits h
    obtain ⟨levels, rfl⟩ := exists_levels fits
    obtain ⟨line, nodes, rfl, parts⟩ := represents_document h
    have hplain := holdsReferenceEntries_eq_false.mp plain
    obtain ⟨hkeys, hsorted⟩ := Value.all_document.mp sorted
    have hdistinct : (entries.map (·.1)).Nodup := by
      have hpairs : (entries.map (·.1)).Pairwise (Text.lt · · = true) := by
        simpa [Value.isSortedNode] using hkeys
      exact hpairs.imp fun h => Text.ne_of_lt h
    refine rereads_object (forall₂_imp_of_mem parts fun p q hq hr => ⟨hr.1, ?_⟩)
      (fun q hq => (hplain q hq).1) hdistinct
    exact ih q hq (hplain q hq).2 (hsorted q hq) (fits.entry hq) hr.2

theorem represents_doc {key : Text} {v : Value} (h : Represents node (Value.doc key v)) :
    ∃ line k arg, node = .mapping line [(k, arg)] ∧ k.value = key ∧ Represents arg v := by
  obtain ⟨line, nodes, rfl, parts⟩ := represents_document h
  cases parts with
  | @cons p _ _ _ hp rest =>
    cases rest
    exact ⟨line, p.1, p.2, rfl, hp.1, hp.2⟩

/-- A single key with a sigil names a construct or an operator. -/
theorem readExpr_construct {k arg : Node} {op : Text} (hk : k.value = op)
    (sigil : isReference op = true) :
    readExpr d (levels + 1) (.mapping line [(k, arg)]) =
      let inner : Inner := readExpr d levels
      let place := Location.operator k.line op
      if op = text "$literal" then .ok (.literal (dataOf d arg).toValue)
      else if op = text "$map" then inner.map place arg
      else if op = text "$filter" then inner.filter place arg
      else if op = text "$reduce" then inner.reduce place arg
      else if op = text "$let" then inner.letIn place arg
      else inner.operator place op arg := by
  have hdollar : Text.startsWith [Ascii.dollar] op = true := sigil
  simp only [readExpr, Inner.mapping, hk]
  rw [if_neg (by simp [hdollar])]

/-- The payload of a literal is taken as data. -/
theorem rereads_payload {v : Value} (reference : v.holdsReference = true)
    (sorted : v.all Value.isSortedNode = true)
    (h : Represents node (Value.doc (text "$literal") v)) : Rereads d (levels + 1) ctx node
      (Value.doc (text "$literal") v) := by
  obtain ⟨line, k, arg, rfl, hk, harg⟩ := represents_doc h
  have hread : readExpr d (levels + 1) (.mapping line [(k, arg)]) = .ok (.literal v) := by
    rw [readExpr_construct hk (by decide)]
    dsimp only
    rw [if_pos rfl, dataOf, toValue_nodeData _ harg sorted]
  refine ⟨_, hread, by simp, ?_⟩
  intro limit depth hroom
  refine Expr.rendersTo_literal.mpr ⟨by omega, ?_⟩
  rw [renderLiteral, if_pos reference]

theorem rereads_renderLiteral {v : Value} (sorted : v.all Value.isSortedNode = true)
    (fits : (renderLiteral v).Fits levels) (h : Represents node (renderLiteral v)) :
    Rereads d levels ctx node (renderLiteral v) := by
  unfold renderLiteral at *
  split at h
  next href =>
    rw [if_pos href] at fits ⊢
    obtain ⟨levels, rfl⟩ := exists_levels fits
    exact rereads_payload href sorted h
  next href =>
    rw [if_neg href] at fits ⊢
    exact rereads_constant (by simpa using href) sorted fits h

/-- A reference is read as the field or the variable that it is. -/
theorem rereads_reference {name : Text} {r : Resolution} (opened : ctx.Opened)
    (resolved : ctx.resolve name = .ok r) (plain : r.kind = .field → isReference name = false)
    (unmarked : (Value.string r.reference).all Value.isUnmarked = true)
    (h : Represents node (.string r.reference)) :
    Rereads d (levels + 1) ctx node (.string r.reference) := by
  obtain ⟨given, hpath⟩ := opened.path_eq resolved
  have hmark : Text.includes Formula.opening r.reference = false := by
    simpa [Value.all, Value.isUnmarked] using unmarked
  cases h with
  | string quoted =>
    obtain ⟨line, rfl⟩ := quoted
    rcases hkind : r.kind with _ | _
    · have href : r.reference = Ascii.dollar :: name := by simp [Resolution.reference, hkind, hpath]
      refine ⟨.field name, ?_, by simp, ?_⟩
      · rw [href] at hmark ⊢
        rw [readExpr_quoted, stringExpr_field given (plain hkind) hmark]
      · intro limit depth hroom
        exact Expr.rendersTo_field.mpr ⟨by omega, renderField_eq_ok.mpr ⟨r, resolved, rfl⟩⟩
    · have href : r.reference = Ascii.dollar :: Ascii.dollar :: name := by
        simp [Resolution.reference, hkind, hpath]
      refine ⟨.var name, ?_, by simp, ?_⟩
      · rw [href] at hmark ⊢
        rw [readExpr_quoted, stringExpr_variable given hmark]
      · intro limit depth hroom
        exact Expr.rendersTo_var.mpr
          ⟨by omega, renderVariable_eq_ok.mpr ⟨r, resolved, hkind, rfl⟩⟩

/-- A node is read as an input that renders to a value wherever there is room for it. -/
def SourceRereads (d : Document) (levels : Nat) (ctx : Context) (node : Node) (v : Value) : Prop :=
  ∃ s, (readExpr d levels : Inner).source (some node) = .ok (some s) ∧ s ≠ .field [] ∧
    ∀ limit depth, depth + v.nesting < limit → s.RendersTo limit depth ctx v

theorem fieldPath?_eq_some {path : Text} (h : fieldPath? node = some path) :
    ∃ line kind style, node = .scalar line kind style (Ascii.dollar :: path) ∧ path ≠ [] ∧
      isReference path = false := by
  unfold fieldPath? at h
  split at h
  next line kind style value =>
    split at h
    next => cases h
    next =>
      split at h
      next b rest =>
        split at h
        next => cases h
        next hb =>
          cases Option.some.inj h
          refine ⟨line, kind, style, rfl, by simp, ?_⟩
          rw [← Bool.not_eq_true, isReference_cons]
          exact hb
      next => cases h
  next => cases h

theorem isReference_int (i : Int64) : isReference (Json.int i) = false := by
  cases h : Json.int i with
  | nil => rfl
  | cons b rest =>
    have hb : Numeral.isNumeralByte b = true :=
      Numeral.isNumeralByte_of_mem_int (i := i) (by simp [h])
    rw [← Bool.not_eq_true, isReference_cons]
    rintro rfl
    cases hb

/-- Only strings are written with a sigil in front. -/
theorem quoted_of_represents {kind : Yaml.ScalarKind} {style : Yaml.ScalarStyle} {s : Text}
    {v : Value} (h : Represents (.scalar line kind style s) v) (sigil : isReference s = true) :
    kind = .str ∧ style = .doubleQuoted := by
  cases h with
  | null => exact absurd sigil (by decide)
  | @bool _ b =>
    cases b with
    | true => exact absurd sigil (by decide)
    | false => exact absurd sigil (by decide)
  | @int _ i =>
    rw [isReference_int] at sigil
    cases sigil
  | string quoted =>
    obtain ⟨l, hq⟩ := quoted
    cases hq
    exact ⟨rfl, rfl⟩

theorem SourceRereads.of_rereads {v : Value} (represents : Represents node v)
    (h : Rereads d (levels + 1) ctx node v) : SourceRereads d (levels + 1) ctx node v := by
  obtain ⟨e, he, _, hrender⟩ := h
  cases hpath : plainFieldPath? node with
  | none =>
    refine ⟨.expr e, ?_, by simp, ?_⟩
    · simp only [Inner.source, hpath]
      exact map_eq_ok.mpr ⟨e, he, rfl⟩
    · intro limit depth hroom
      exact Source.rendersTo_expr.mpr (hrender limit depth hroom)
  | some path =>
    have hsource : (readExpr d (levels + 1) : Inner).source (some node) =
        .ok (some (.field path)) := by
      simp only [Inner.source, hpath]
    unfold plainFieldPath? at hpath
    split at hpath
    next => cases hpath
    next hmark =>
      obtain ⟨line, kind, style, rfl, given, plain⟩ := fieldPath?_eq_some hpath
      obtain ⟨rfl, rfl⟩ := quoted_of_represents represents (isReference_cons.mpr rfl)
      rw [readExpr_quoted, stringExpr_field given plain (by simpa [Node.value] using hmark)] at he
      cases he
      refine ⟨.field path, hsource, by simpa using given, ?_⟩
      intro limit depth hroom
      exact Source.rendersTo_field.mpr (Expr.rendersTo_field.mp (hrender limit depth hroom)).2

theorem built_eq_ok {place : Location} {r : Except CompileError Expr} {e : Expr} :
    built place r = .ok e ↔ r = .ok e := by
  cases r with
  | ok e' => simp [built, Except.mapError]
  | error error => simp [built, Except.mapError]

/-- Arguments are found by name when every one of them is known. -/
theorem bindingArguments_mapping {place : Location} {allowed : List String} {line : Nat}
    {nodes : List (Node × Node)} (known : ∀ p ∈ nodes, p.1.value ∈ allowed.map text) :
    bindingArguments place allowed (.mapping line nodes) =
      .ok fun name => (nodes.reverse.find? fun p => p.1.value = name).map (·.2) := by
  rw [bindingArguments]
  split
  next k arg hfind =>
    obtain ⟨a, ha, hap⟩ := List.mem_map.mp (known _ (List.mem_of_find?_eq_some hfind))
    have hp := List.find?_some hfind
    simp only [Bool.not_eq_true', List.any_eq_false, decide_eq_true_eq] at hp
    exact absurd hap (hp a ha)
  next => rfl

/-- The arguments of a construct are found under their names. -/
theorem bindingArguments_of_represents {place : Location} {allowed : List String}
    {entries : List (Text × Value)} (h : Represents node (.document entries))
    (known : ∀ q ∈ entries, q.1 ∈ allowed.map text) (distinct : (entries.map (·.1)).Nodup) :
    ∃ args, bindingArguments place allowed node = .ok args ∧
      ∀ q ∈ entries, ∃ arg, args q.1 = some arg ∧ Represents arg q.2 := by
  obtain ⟨line, nodes, rfl, parts⟩ := represents_document h
  have hkeys : nodes.map (·.1.value) = entries.map (·.1) := by
    clear known distinct h
    induction parts with
    | nil => rfl
    | cons hp _ ih => simp [hp.1, ih]
  have hknown : ∀ p ∈ nodes, p.1.value ∈ allowed.map text := by
    intro p hp
    have hmem : p.1.value ∈ entries.map (·.1) := hkeys ▸ List.mem_map_of_mem hp
    obtain ⟨q, hq, hqp⟩ := List.mem_map.mp hmem
    rw [← hqp]
    exact known q hq
  refine ⟨_, bindingArguments_mapping hknown, ?_⟩
  intro q hq
  obtain ⟨p, hp, hpq⟩ := forall₂_mem_right parts hq
  cases hfind : nodes.reverse.find? (fun p => p.1.value = q.1) with
  | none =>
    have hnot := List.find?_eq_none.mp hfind p (List.mem_reverse.mpr hp)
    simp [hpq.1] at hnot
  | some p' =>
    have hp' : p' ∈ nodes := List.mem_reverse.mp (List.mem_of_find?_eq_some hfind)
    have hkey : p'.1.value = q.1 := by simpa using List.find?_some hfind
    have heq : p' = p := by
      refine List.inj_on_of_nodup_map (hkeys ▸ distinct) hp' hp ?_
      rw [hkey, hpq.1]
    exact ⟨p'.2, rfl, heq ▸ hpq.2⟩

theorem rereads_operator {op : Text} {vs : List Value} {k arg : Node} (hk : k.value = op)
    (sigil : isReference op = true) (ordinary : reservedOperators.contains op = false)
    (accepted : (arityOf? op).all (·.accepts vs.length) = true)
    (represents : Represents arg (.list vs))
    (h : ∀ node, ∀ v ∈ vs, Represents node v → Rereads d levels ctx node v) :
    Rereads d (levels + 1) ctx (.mapping line [(k, arg)]) (Value.doc op (.list vs)) := by
  obtain ⟨line', items, rfl, parts⟩ := represents_list represents
  obtain ⟨es, hes, hrender⟩ := rereads_items (forall₂_imp_of_mem parts h)
  have hlength : es.length = vs.length := (hrender _ 0 (Nat.lt_succ_self _)).length_eq
  have hread : readExpr d (levels + 1) (.mapping line [(k, .sequence line' items)]) =
      .ok (.operator op es) := by
    simp only [reservedOperators, List.contains_eq_mem, List.mem_cons, List.not_mem_nil, or_false,
      decide_eq_false_iff_not, not_or] at ordinary
    obtain ⟨hliteral, hmap, hfilter, hreduce, hlet⟩ := ordinary
    rw [readExpr_construct hk sigil]
    dsimp only
    rw [if_neg hliteral, if_neg hmap, if_neg hfilter, if_neg hreduce, if_neg hlet]
    refine bind_eq_ok.mpr ⟨es, hes, ?_⟩
    cases harity : arityOf? op with
    | none => rfl
    | some arity =>
      rw [harity] at accepted
      have haccepts : arity.accepts es.length = true := by
        rw [hlength]
        exact accepted
      simp only [haccepts, if_true]
  refine ⟨_, hread, by simp, ?_⟩
  intro limit depth hroom
  rw [Value.doc, Value.nesting, nestingOfEntries, Value.nesting] at hroom
  exact Expr.rendersTo_operator.mpr ⟨by omega, vs, hrender limit (depth + 1) (by omega), rfl⟩

theorem Inner.optional_eq_ok {inner : Inner} {arg : Option Node} {part : Node} {e : Expr}
    (given : arg = some part) (h : inner part = .ok e) : inner.optional arg = .ok (some e) := by
  rw [given]
  exact map_eq_ok.mpr ⟨e, h, rfl⟩

/-- The parts of a construct that visits every item are read from its arguments. -/
theorem iteration_reads {body : String} {item : Text} {source inner : Value} {arg : Node}
    (place : Location) (build : Option Source → Text → Option Expr → Except CompileError Expr)
    (name : Expr.IsVariableName item) (distinct : [text "input", text "as", text body].Nodup)
    (represents : Represents arg (.document [(text "input", source), (text "as", .string item),
      (text body, inner)]))
    (hs : ∀ node, Represents node source → SourceRereads d levels ctx node source)
    (hi : ∀ node, Represents node inner → Rereads d levels (itemScope item ctx) node inner) :
    ∃ s e, Expr.Visits (some s) item (some e) s e ∧
      (do
        let args ← bindingArguments place ["input", "as", body] arg
        let input ← (readExpr d levels : Inner).source (args (text "input"))
        let part ← (readExpr d levels : Inner).optional (args (text body))
        built place (build input (scalarText (args (text "as"))) part)) =
          built place (build (some s) item (some e)) ∧
      (∀ limit depth, depth + source.nesting < limit → s.RendersTo limit depth ctx source) ∧
      ∀ limit depth, depth + inner.nesting < limit →
        e.RendersTo limit depth (itemScope item ctx) inner := by
  obtain ⟨args, hargs, hfound⟩ := @bindingArguments_of_represents arg place ["input", "as", body] _
    represents (by simp) distinct
  obtain ⟨input, hinput, rinput⟩ := hfound (text "input", source) (by simp)
  obtain ⟨as, hname, rname⟩ := hfound (text "as", .string item) (by simp)
  obtain ⟨part, hpart, rpart⟩ := hfound (text body, inner) (by simp)
  obtain ⟨s, hsource, hgiven, hsrender⟩ := hs input rinput
  obtain ⟨e, he, hpresent, hrender⟩ := hi part rpart
  have hitem : scalarText (args (text "as")) = item := by
    rw [hname]
    cases rname with
    | string quoted =>
      obtain ⟨l, rfl⟩ := quoted
      rfl
  refine ⟨s, e, ⟨rfl, hgiven, name, rfl, hpresent⟩, ?_, hsrender, hrender⟩
  rw [hargs, ok_bind, hinput, hsource, ok_bind, Inner.optional_eq_ok hpart he, ok_bind, hitem]

theorem nesting_iteration {op body : String} {item : Text} {source inner : Value} :
    (Expr.iterationDocument op body source item inner).nesting =
      max source.nesting inner.nesting + 2 := by
  simp [Expr.iterationDocument, Value.doc, Value.nesting, nestingOfEntries]

theorem rereads_map {item : Text} {source inner : Value} (name : Expr.IsVariableName item)
    (represents : Represents node (Expr.iterationDocument "$map" "in" source item inner))
    (hs : ∀ node, Represents node source → SourceRereads d levels ctx node source)
    (hi : ∀ node, Represents node inner → Rereads d levels (itemScope item ctx) node inner) :
    Rereads d (levels + 1) ctx node (Expr.iterationDocument "$map" "in" source item inner) := by
  obtain ⟨line, k, arg, rfl, hk, harg⟩ := represents_doc represents
  obtain ⟨s, e, visits, hread, hsrender, hrender⟩ :=
    iteration_reads (.operator k.line (text "$map")) Expr.mapItems name (by decide) harg hs hi
  refine ⟨.map s item e, ?_, by simp, ?_⟩
  · rw [readExpr_construct hk (by decide)]
    dsimp only
    rw [if_neg (by decide), if_pos rfl]
    exact hread.trans (built_eq_ok.mpr (Expr.mapItems_eq_ok.mpr ⟨s, e, visits, rfl⟩))
  · intro limit depth hroom
    rw [nesting_iteration] at hroom
    exact Expr.rendersTo_map.mpr ⟨by omega, source, inner, hsrender limit (depth + 1) (by omega),
      hrender limit (depth + 1) (by omega), rfl⟩

theorem rereads_filter {item : Text} {source inner : Value} (name : Expr.IsVariableName item)
    (represents : Represents node (Expr.iterationDocument "$filter" "cond" source item inner))
    (hs : ∀ node, Represents node source → SourceRereads d levels ctx node source)
    (hi : ∀ node, Represents node inner → Rereads d levels (itemScope item ctx) node inner) :
    Rereads d (levels + 1) ctx node (Expr.iterationDocument "$filter" "cond" source item inner) := by
  obtain ⟨line, k, arg, rfl, hk, harg⟩ := represents_doc represents
  obtain ⟨s, e, visits, hread, hsrender, hrender⟩ :=
    iteration_reads (.operator k.line (text "$filter")) Expr.filterItems name (by decide) harg hs hi
  refine ⟨.filter s item e, ?_, by simp, ?_⟩
  · rw [readExpr_construct hk (by decide)]
    dsimp only
    rw [if_neg (by decide), if_neg (by decide), if_pos rfl]
    exact hread.trans (built_eq_ok.mpr (Expr.filterItems_eq_ok.mpr ⟨s, e, visits, rfl⟩))
  · intro limit depth hroom
    rw [nesting_iteration] at hroom
    exact Expr.rendersTo_filter.mpr ⟨by omega, source, inner, hsrender limit (depth + 1) (by omega),
      hrender limit (depth + 1) (by omega), rfl⟩

theorem rereads_reduce {source start inner : Value}
    (represents : Represents node (Expr.foldDocument source start inner))
    (hs : ∀ node, Represents node source → SourceRereads d levels ctx node source)
    (ht : ∀ node, Represents node start → Rereads d levels ctx node start)
    (hi : ∀ node, Represents node inner → Rereads d levels (foldScope ctx) node inner) :
    Rereads d (levels + 1) ctx node (Expr.foldDocument source start inner) := by
  obtain ⟨line, k, arg, rfl, hk, harg⟩ := represents_doc represents
  obtain ⟨args, hargs, hfound⟩ := @bindingArguments_of_represents arg
    (.operator k.line (text "$reduce")) ["input", "initialValue", "in"] _ harg (by simp)
    (show [text "input", text "initialValue", text "in"].Nodup by decide)
  obtain ⟨input, hinput, rinput⟩ := hfound (text "input", source) (by simp)
  obtain ⟨first, hfirst, rfirst⟩ := hfound (text "initialValue", start) (by simp)
  obtain ⟨part, hpart, rpart⟩ := hfound (text "in", inner) (by simp)
  obtain ⟨s, hsource, hgiven, hsrender⟩ := hs input rinput
  obtain ⟨i, hri, hpresent, hirender⟩ := ht first rfirst
  obtain ⟨e, hre, hepresent, herender⟩ := hi part rpart
  refine ⟨.reduce s i e, ?_, by simp, ?_⟩
  · rw [readExpr_construct hk (by decide)]
    dsimp only
    rw [if_neg (by decide), if_neg (by decide), if_neg (by decide), if_pos rfl]
    refine bind_eq_ok.mpr ⟨args, hargs, bind_eq_ok.mpr ⟨_, hinput ▸ hsource, ?_⟩⟩
    refine bind_eq_ok.mpr ⟨some i, Inner.optional_eq_ok hfirst hri, ?_⟩
    refine bind_eq_ok.mpr ⟨some e, Inner.optional_eq_ok hpart hre, ?_⟩
    exact built_eq_ok.mpr (Expr.reduceItems_eq_ok.mpr
      ⟨s, i, e, ⟨rfl, hgiven⟩, ⟨rfl, hpresent⟩, ⟨rfl, hepresent⟩, rfl⟩)
  · intro limit depth hroom
    simp only [Expr.foldDocument, Value.doc, Value.nesting, nestingOfEntries] at hroom
    exact Expr.rendersTo_reduce.mpr ⟨by omega, source, start, inner,
      hsrender limit (depth + 1) (by omega), hirender limit (depth + 1) (by omega),
      herender limit (depth + 1) (by omega), rfl⟩

theorem rereads_letIn {values : List (Text × Value)} {inner : Value}
    (names : ∀ q ∈ values, Expr.IsVariableName q.1) (distinct : (values.map (·.1)).Nodup)
    (represents : Represents node (Expr.bindingDocument values inner))
    (hv : ∀ node, ∀ q ∈ values, Represents node q.2 → Rereads d levels ctx node q.2)
    (hi : ∀ node, Represents node inner →
      Rereads d levels (bindingScope (values.map (·.1)) ctx) node inner) :
    Rereads d (levels + 1) ctx node (Expr.bindingDocument values inner) := by
  obtain ⟨line, k, arg, rfl, hk, harg⟩ := represents_doc represents
  obtain ⟨args, hargs, hfound⟩ := @bindingArguments_of_represents arg
    (.operator k.line (text "$let")) ["vars", "in"] _ harg (by simp)
    (show [text "vars", text "in"].Nodup by decide)
  obtain ⟨vars, hvars, rvars⟩ := hfound (text "vars", .document values) (by simp)
  obtain ⟨part, hpart, rpart⟩ := hfound (text "in", inner) (by simp)
  obtain ⟨line', nodes, rfl, parts⟩ := represents_document rvars
  obtain ⟨es, hes, hvrender, hkeys⟩ := rereads_entries
    (forall₂_imp_of_mem parts fun p q hq hr => (⟨hr.1, hv p.2 q hq hr.2⟩ : EntryRereads d levels ctx p q))
  obtain ⟨e, hre, hpresent, herender⟩ := hi part rpart
  have hdeclares : ∀ p ∈ es, Expr.Declares p := by
    intro p hp
    have hmem : p.1 ∈ values.map (·.1) := hkeys ▸ List.mem_map_of_mem hp
    obtain ⟨q, hq, hqp⟩ := List.mem_map.mp hmem
    obtain ⟨n, _, hn⟩ := forall₂_mem_right hes hp
    exact ⟨hqp ▸ names q hq, hn.2.2⟩
  refine ⟨.letIn es e, ?_, by simp, ?_⟩
  · rw [readExpr_construct hk (by decide)]
    dsimp only
    rw [if_neg (by decide), if_neg (by decide), if_neg (by decide), if_neg (by decide), if_pos rfl]
    refine bind_eq_ok.mpr ⟨args, hargs, bind_eq_ok.mpr ⟨es.map fun p => (p.1, some p.2), ?_, ?_⟩⟩
    · rw [hvars]
      exact Inner.bindings_eq_ok hes
    · refine bind_eq_ok.mpr ⟨some e, Inner.optional_eq_ok hpart hre, ?_⟩
      exact built_eq_ok.mpr (Expr.define_eq_ok.mpr
        ⟨es, e, rfl, ⟨rfl, hpresent⟩, hdeclares, hkeys ▸ distinct, rfl⟩)
  · intro limit depth hroom
    simp only [Expr.bindingDocument, Value.doc, Value.nesting, nestingOfEntries] at hroom
    refine Expr.rendersTo_letIn.mpr ⟨by omega, values, inner, hvrender limit (depth + 1) (by omega),
      ?_, rfl⟩
    rw [hkeys]
    exact herender limit (depth + 1) (by omega)

/-- The input of a construct is read again, whether it is a field or an expression. -/
theorem rereads_source {s : Source} {v : Value} {limit depth : Nat} (opened : ctx.Opened)
    (plain : s.isPlain = true) (fits : v.Fits levels)
    (ih : ∀ e ∈ s.parts, e.RendersTo limit depth ctx v → Rereads d levels ctx node v)
    (h : s.RendersTo limit depth ctx v) (represents : Represents node v) :
    SourceRereads d levels ctx node v := by
  obtain ⟨levels, rfl⟩ := exists_levels fits
  refine .of_rereads represents ?_
  cases s with
  | field path =>
    obtain ⟨r, hr, rfl⟩ := renderField_eq_ok.mp (Source.rendersTo_field.mp h)
    have hplain : isReference path = false := by simpa [Source.isPlain] using plain
    exact rereads_reference opened hr (fun _ => hplain) fits.unmarked represents
  | expr e => exact ih e (by simp [Source.parts]) (Source.rendersTo_expr.mp h)

/-- A node of the tree that a compiled document can be read back from. -/
def IsPortable (e : Expr) : Prop := e.Regular ∧ e.isPortableNode = true

/-- What an expression renders to is read as an expression that renders to it again. The new
expression need not be the old one: a constant list becomes a list of constants, and a field that
means a variable becomes that variable. -/
theorem rereads_of_rendersTo {e : Expr} {v : Value} {limit depth : Nat}
    (portable : e.Every IsPortable) (opened : ctx.Opened) (renders : e.RendersTo limit depth ctx v)
    (fits : v.Fits levels) (represents : Represents node v) : Rereads d levels ctx node v := by
  induction portable generalizing depth ctx v node levels with
  | @node e here below ih =>
    obtain ⟨⟨wellFormed, plain⟩, accepted⟩ := here
    obtain ⟨levels, rfl⟩ := exists_levels fits
    cases e with
    | absent =>
      cases Expr.rendersTo_absent.mp renders
      cases represents
      exact rereads_literal rfl rfl
    | field path =>
      obtain ⟨r, hr, rfl⟩ := renderField_eq_ok.mp (Expr.rendersTo_field.mp renders).2
      have hplain : isReference path = false := by simpa [Expr.isPlainNode] using plain
      exact rereads_reference opened hr (fun _ => hplain) fits.unmarked represents
    | var name =>
      obtain ⟨r, hr, kind, rfl⟩ := renderVariable_eq_ok.mp (Expr.rendersTo_var.mp renders).2
      refine rereads_reference opened hr ?_ fits.unmarked represents
      intro hfield
      rw [kind] at hfield
      cases hfield
    | literal w =>
      cases (Expr.rendersTo_literal.mp renders).2
      exact rereads_renderLiteral accepted fits represents
    | raw w => cases plain
    | operator op args =>
      obtain ⟨_, vs, hvs, rfl⟩ := Expr.rendersTo_operator.mp renders
      simp only [Expr.isPlainNode, Bool.and_eq_true, Bool.not_eq_true'] at plain
      obtain ⟨line, k, arg, rfl, hk, harg⟩ := represents_doc represents
      have hcount : (arityOf? op).all (·.accepts vs.length) = true := hvs.length_eq ▸ accepted
      refine rereads_operator hk plain.1 plain.2 hcount harg fun node v hv hr => ?_
      obtain ⟨e, he, hrender⟩ := forall₂_mem_right hvs hv
      exact ih e he opened hrender (fits.argument.succ.item hv) hr
    | array elements =>
      obtain ⟨_, vs, hvs, rfl⟩ := Expr.rendersTo_array.mp renders
      obtain ⟨line, items, rfl, parts⟩ := represents_list represents
      refine rereads_sequence (forall₂_imp_of_mem parts fun node v hv hr => ?_)
      obtain ⟨e, he, hrender⟩ := forall₂_mem_right hvs hv
      exact ih e he opened hrender (fits.item hv) hr
    | object entries =>
      obtain ⟨_, vs, hvs, rfl⟩ := Expr.rendersTo_object.mp renders
      obtain ⟨line, nodes, rfl, parts⟩ := represents_document represents
      have hkeys := keys_of_renderEntries hvs
      have hplain := plain_keys_of_renderEntries (Expr.plain_keys plain) hvs
      refine rereads_object (forall₂_imp_of_mem parts fun p q hq hr => ⟨hr.1, ?_⟩) hplain
        (hkeys ▸ wellFormed)
      obtain ⟨p', hp, hrender⟩ := forall₂_mem_right hvs hq
      exact ih p'.2 (List.mem_map_of_mem hp) opened hrender.2 (fits.entry hq) hr.2
    | faulty error => exact absurd renders Expr.not_rendersTo_faulty
    | map input item body =>
      obtain ⟨_, source, inner, hs, hi, rfl⟩ := Expr.rendersTo_map.mp renders
      refine rereads_map wellFormed represents ?_ ?_
      · intro node hr
        have hfits := fits.argument.succ.entry (q := (text "input", source)) (by simp)
        refine rereads_source opened plain hfits (fun e he hrender => ?_) hs hr
        exact ih e (by simp [Expr.children, he]) opened hrender hfits hr
      · intro node hr
        have hfits := fits.argument.succ.entry (q := (text "in", inner)) (by simp)
        exact ih body (by simp [Expr.children]) (opened.child .synthetic [item]) hi hfits hr
    | filter input item cond =>
      obtain ⟨_, source, inner, hs, hi, rfl⟩ := Expr.rendersTo_filter.mp renders
      refine rereads_filter wellFormed represents ?_ ?_
      · intro node hr
        have hfits := fits.argument.succ.entry (q := (text "input", source)) (by simp)
        refine rereads_source opened plain hfits (fun e he hrender => ?_) hs hr
        exact ih e (by simp [Expr.children, he]) opened hrender hfits hr
      · intro node hr
        have hfits := fits.argument.succ.entry (q := (text "cond", inner)) (by simp)
        exact ih cond (by simp [Expr.children]) (opened.child .synthetic [item]) hi hfits hr
    | reduce input initial body =>
      obtain ⟨_, source, start, inner, hs, ht, hi, rfl⟩ := Expr.rendersTo_reduce.mp renders
      refine rereads_reduce represents ?_ ?_ ?_
      · intro node hr
        have hfits := fits.argument.succ.entry (q := (text "input", source)) (by simp)
        refine rereads_source opened plain hfits (fun e he hrender => ?_) hs hr
        exact ih e (by simp [Expr.children, he]) opened hrender hfits hr
      · intro node hr
        have hfits := fits.argument.succ.entry (q := (text "initialValue", start)) (by simp)
        exact ih initial (by simp [Expr.children]) opened ht hfits hr
      · intro node hr
        have hfits := fits.argument.succ.entry (q := (text "in", inner)) (by simp)
        exact ih body (by simp [Expr.children])
          (opened.child .synthetic [text "value", text "this"]) hi hfits hr
    | letIn vars body =>
      obtain ⟨_, values, inner, hv, hi, rfl⟩ := Expr.rendersTo_letIn.mp renders
      have hkeys := keys_of_renderEntries hv
      refine rereads_letIn ?_ (hkeys ▸ wellFormed.2) represents ?_ ?_
      · intro q hq
        obtain ⟨p, hp, hpq⟩ := forall₂_mem_right hv hq
        rw [hpq.1]
        exact wellFormed.1 p hp
      · intro node q hq hr
        have hfits := fits.argument.succ.entry (q := (text "vars", .document values)) (by simp)
        obtain ⟨p, hp, hrender⟩ := forall₂_mem_right hv hq
        have hchild : p.2 ∈ (Expr.letIn vars body).children :=
          List.mem_append_left _ (List.mem_map_of_mem hp)
        exact ih p.2 hchild opened hrender.2 (hfits.succ.entry hq) hr
      · intro node hr
        have hfits := fits.argument.succ.entry (q := (text "in", inner)) (by simp)
        rw [← hkeys] at hi
        exact ih body (by simp [Expr.children]) (opened.child .inheriting _) hi hfits hr

/-- The nodes of a compiled document are read as an expression that compiles to that document. -/
theorem compiled_document_fixed {c : Compiler} {e : Expr} {v : Value} {node : Node} (d : Document)
    (built : e.Built) (plain : e.isPlain = true) (portable : e.isPortable = true)
    (compiled : (c.compile (some e) .root).1 = .ok v) (shallow : v.nesting ≤ maxNesting)
    (unmarked : v.all Value.isUnmarked = true) (represents : Represents node v) :
    ∃ e', readRootExpr d node = .ok e' ∧
      (({} : Compiler).compile (some e') .root).1 = .ok v := by
  obtain ⟨e₀, he, _, renders⟩ := compile_eq_ok.mp compiled
  cases he
  have hevery : e.Every IsPortable := (built.regular plain).and (Expr.every_of_all e portable)
  have hfits : v.Fits (maxNesting + 1) := ⟨Nat.lt_succ_of_le shallow, unmarked⟩
  obtain ⟨e', hread, hpresent, hrender⟩ :=
    rereads_of_rendersTo (d := d) hevery .root renders hfits represents
  have hroom : 0 + v.nesting < ({} : Compiler).maxDepth := by
    simp only [maxNesting] at shallow
    show 0 + v.nesting < 256
    omega
  exact ⟨e', hread, compile_eq_ok.mpr ⟨e', rfl, hpresent, hrender _ _ hroom⟩⟩

/-- A total of every item and of a rate that is bound outside, with a constant document. -/
def ratedTotal : Expr :=
  .operator (text "$add") [.field (text "item.tax"), .field (text "rate"),
    .literal (.document [(text "a", .string (text "$x")), (text "b", .null)])]

/-- Items with a rate. -/
def ratedItems : Expr :=
  .letIn [(text "rate", .literal (.int 7))] (.map (.field (text "items")) (text "item") ratedTotal)

def ratedDocument : Value :=
  Expr.bindingDocument [(text "rate", .int 7)]
    (Expr.iterationDocument "$map" "in" (.string (text "$items")) (text "item")
      (Value.doc (text "$add") (.list [.string (text "$$item.tax"), .string (text "$$rate"),
        Value.doc (text "$literal")
          (.document [(text "a", .string (text "$x")), (text "b", .null)])])))

theorem ratedItems_built : ratedItems.Built := by
  have htotal : ratedTotal.Built := by
    apply Expr.Built.operator_of
    simp only [List.forall_mem_cons, List.not_mem_nil, false_imp_iff, implies_true, and_true]
    exact ⟨.field _, .field _, .literal _⟩
  have hmap : Expr.Built (.map (.field (text "items")) (text "item") ratedTotal) := .map_of htotal rfl
  exact .letIn_of (List.forall_mem_singleton.mpr (.literal _)) hmap rfl

theorem ratedDocument_fixed :
    ratedItems.isPlain = true ∧ ratedItems.isPortable = true ∧
      (({} : Compiler).compile (some ratedItems) .root).1 = .ok ratedDocument ∧
      ratedDocument.nesting ≤ maxNesting ∧ ratedDocument.all Value.isUnmarked = true ∧
      Represents (nodeOf ratedDocument) ratedDocument ∧
      ∃ e', readRootExpr ⟨nodeOf ratedDocument, []⟩ (nodeOf ratedDocument) = .ok e' ∧
        (({} : Compiler).compile (some e') .root).1 = .ok ratedDocument :=
  ⟨by decide, by decide, rfl, by decide, by decide, represents_nodeOf (by decide),
    @compiled_document_fixed {} _ _ _ ⟨nodeOf ratedDocument, []⟩ ratedItems_built (by decide)
      (by decide) rfl (by decide) (by decide) (represents_nodeOf (by decide))⟩

end ScopedAggregation.Definition
