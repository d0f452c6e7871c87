import ScopedAggregation.Proofs.DocumentRereading

namespace ScopedAggregation.Definition

open Yaml (Node Document ScalarKind ScalarStyle)
open Expr (IsVariableName)

/-- A scalar that refers to a field by its path, among those that are accepted. -/
def RefersTo (accepts : Node → Prop) (node : Node) (path : Text) : Prop :=
  (∃ line kind style, node = .scalar line kind style (Ascii.dollar :: path)) ∧
    path ≠ [] ∧ isReference path = false ∧ accepts node

/-- The text of the node holds no formula. -/
def IsUnmarked (node : Node) : Prop := Text.includes Formula.opening node.value = false

/-- The last entry of a name. -/
def argument? (entries : List (Node × Node)) (name : String) : Option Node :=
  (entries.reverse.find? fun (k, _) => k.value = text name).map (·.2)

section

variable (inner : Node → Expr → Prop)

/-- The input of an iterating construct. -/
inductive SourceReading : Node → Source → Prop
  | field {node : Node} {path : Text} (plain : RefersTo IsUnmarked node path) :
    SourceReading node (.field path)
  | expr {node : Node} {e : Expr} (read : inner node e) : SourceReading node (.expr e)

/-- An entry with its key. -/
def EntryReading (p : Node × Node) (q : Text × Expr) : Prop := q.1 = p.1.value ∧ inner p.2 q.2

/-- The arguments of an operator: the items of a sequence, or a single one. -/
inductive ArgumentsReading : Node → List Expr → Prop
  | several {line : Nat} {items : List Node} {es : List Expr} (h : List.Forall₂ inner items es) :
    ArgumentsReading (.sequence line items) es
  | single {node : Node} {e : Expr} (read : inner node e) : ArgumentsReading node [e]

/-- What a construct that visits every item is read from. -/
structure IterationReading (entries : List (Node × Node)) (bodyName : String) (input : Source)
    (item : Text) (body : Expr) : Prop where
  source : ∃ node, argument? entries "input" = some node ∧ SourceReading inner node input
  item_eq : scalarText (argument? entries "as") = item
  name : IsVariableName item
  body : ∃ node, argument? entries bodyName = some node ∧ inner node body

/-- What a node is read as. A scalar with a formula mark is left to the reader of formulas, and is
never taken for a reference. -/
inductive Reading (d : Document) : Node → Expr → Prop
  | constant {line : Nat} {kind : ScalarKind} {style : ScalarStyle} {s : Text} {p : Plain}
    (data : scalarData kind style s = p) (other : ∀ t, p ≠ .string t) :
    Reading d (.scalar line kind style s) (.literal p.toValue)
  | formula {line : Nat} {kind : ScalarKind} {style : ScalarStyle} {s : Text} {e : Expr}
    (marked : Text.includes Formula.opening s = true)
    (read : Formula.parseTemplate s = .ok (some e)) : Reading d (.scalar line kind style s) e
  | var {line : Nat} {kind : ScalarKind} {style : ScalarStyle} {name : Text}
    (unmarked : Text.includes Formula.opening (Ascii.dollar :: Ascii.dollar :: name) = false) :
    Reading d (.scalar line kind style (Ascii.dollar :: Ascii.dollar :: name)) (.var name)
  | field {node : Node} {path : Text} (plain : RefersTo IsUnmarked node path) :
    Reading d node (.field path)
  | string {line : Nat} {kind : ScalarKind} {style : ScalarStyle} {s : Text}
    (unmarked : Text.includes Formula.opening s = false) (plain : isReference s = false) :
    Reading d (.scalar line kind style s) (.literal (.string s))
  | backReference {line target : Nat} {name : Text} {node : Node} {e : Expr}
    (found : d.node? target = some node) (read : inner node e) :
    Reading d (.backReference line name target) e
  | array {line : Nat} {items : List Node} {es : List Expr} (h : List.Forall₂ inner items es) :
    Reading d (.sequence line items) (.array es)
  | object {line : Nat} {entries : List (Node × Node)} {es : List (Text × Expr)}
    (h : List.Forall₂ (EntryReading inner) entries es)
    (plain : ∀ p ∈ es, isReference p.1 = false) (distinct : (es.map (·.1)).Nodup) :
    Reading d (.mapping line entries) (.object es)
  | literal {line : Nat} {k node : Node} (key : k.value = text "$literal") :
    Reading d (.mapping line [(k, node)]) (.literal (dataOf d node).toValue)
  | operator {line : Nat} {k node : Node} {args : List Expr} (sigil : isReference k.value = true)
    (ordinary : reservedOperators.contains k.value = false) (h : ArgumentsReading inner node args)
    (accepted : (arityOf? k.value).all (·.accepts args.length) = true) :
    Reading d (.mapping line [(k, node)]) (.operator k.value args)
  | map {line line' : Nat} {k : Node} {entries : List (Node × Node)} {input : Source} {item : Text}
    {body : Expr} (key : k.value = text "$map")
    (h : IterationReading inner entries "in" input item body) :
    Reading d (.mapping line [(k, .mapping line' entries)]) (.map input item body)
  | filter {line line' : Nat} {k : Node} {entries : List (Node × Node)} {input : Source}
    {item : Text} {cond : Expr} (key : k.value = text "$filter")
    (h : IterationReading inner entries "cond" input item cond) :
    Reading d (.mapping line [(k, .mapping line' entries)]) (.filter input item cond)
  | reduce {line line' : Nat} {k : Node} {entries : List (Node × Node)} {input : Source}
    {initial body : Expr} (key : k.value = text "$reduce")
    (source : ∃ node, argument? entries "input" = some node ∧ SourceReading inner node input)
    (start : ∃ node, argument? entries "initialValue" = some node ∧ inner node initial)
    (h : ∃ node, argument? entries "in" = some node ∧ inner node body) :
    Reading d (.mapping line [(k, .mapping line' entries)]) (.reduce input initial body)
  | letIn {line line' : Nat} {k : Node} {entries declared : List (Node × Node)}
    {vars : List (Text × Expr)} {body : Expr} (key : k.value = text "$let")
    (values : (argument? entries "vars" = none ∧ declared = []) ∨
      ∃ l, argument? entries "vars" = some (.mapping l declared))
    (h : List.Forall₂ (EntryReading inner) declared vars)
    (names : ∀ p ∈ vars, IsVariableName p.1) (distinct : (vars.map (·.1)).Nodup)
    (inside : ∃ node, argument? entries "in" = some node ∧ inner node body) :
    Reading d (.mapping line [(k, .mapping line' entries)]) (.letIn vars body)

end

section

variable {inner outer : Node → Expr → Prop}

theorem SourceReading.mono {node : Node} {source : Source} (h : SourceReading inner node source)
    (hsub : ∀ m f, inner m f → outer m f) : SourceReading outer node source := by
  cases h with
  | field plain => exact .field plain
  | expr read => exact .expr (hsub _ _ read)

theorem EntryReading.mono {p : Node × Node} {q : Text × Expr} (hsub : ∀ m f, inner m f → outer m f)
    (h : EntryReading inner p q) : EntryReading outer p q :=
  ⟨h.1, hsub _ _ h.2⟩

theorem IterationReading.mono {entries : List (Node × Node)} {bodyName : String} {input : Source}
    {item : Text} {body : Expr} (h : IterationReading inner entries bodyName input item body)
    (hsub : ∀ m f, inner m f → outer m f) :
    IterationReading outer entries bodyName input item body := by
  obtain ⟨node, hnode, hsource⟩ := h.source
  obtain ⟨node', hnode', hbody⟩ := h.body
  exact ⟨⟨node, hnode, hsource.mono hsub⟩, h.item_eq, h.name, node', hnode', hsub _ _ hbody⟩

theorem Reading.mono {d : Document} {node : Node} {e : Expr} (h : Reading inner d node e)
    (hsub : ∀ m f, inner m f → outer m f) : Reading outer d node e := by
  cases h with
  | constant data other => exact .constant data other
  | formula marked read => exact .formula marked read
  | var unmarked => exact .var unmarked
  | field plain => exact .field plain
  | string unmarked plain => exact .string unmarked plain
  | backReference found read => exact .backReference found (hsub _ _ read)
  | array h => exact .array (h.imp hsub)
  | object h plain distinct => exact .object (h.imp fun _ _ => .mono hsub) plain distinct
  | literal key => exact .literal key
  | operator sigil ordinary h accepted =>
    refine .operator sigil ordinary ?_ accepted
    cases h with
    | several h => exact .several (h.imp hsub)
    | single read => exact .single (hsub _ _ read)
  | map key h => exact .map key (h.mono hsub)
  | filter key h => exact .filter key (h.mono hsub)
  | reduce key source start h =>
    obtain ⟨node, hnode, hsource⟩ := source
    obtain ⟨node', hnode', hstart⟩ := start
    obtain ⟨node'', hnode'', hbody⟩ := h
    exact .reduce key ⟨node, hnode, hsource.mono hsub⟩ ⟨node', hnode', hsub _ _ hstart⟩
      ⟨node'', hnode'', hsub _ _ hbody⟩
  | letIn key values h names distinct inside =>
    obtain ⟨node, hnode, hbody⟩ := inside
    exact .letIn key values (h.imp fun _ _ => .mono hsub) names distinct
      ⟨node, hnode, hsub _ _ hbody⟩

end

/-- The reader gives the expression for the node. -/
abbrev Inner.Gives (inner : Inner) (node : Node) (e : Expr) : Prop := inner node = .ok e

section

variable {inner : Inner}

theorem plainFieldPath?_eq_some {node : Node} {path : Text} (h : plainFieldPath? node = some path) :
    RefersTo IsUnmarked node path := by
  unfold plainFieldPath? at h
  split at h
  next => cases h
  next hunmarked =>
    obtain ⟨line, kind, style, rfl, given, plain⟩ := fieldPath?_eq_some h
    exact ⟨⟨line, kind, style, rfl⟩, given, plain, (Bool.not_eq_true _).mp hunmarked⟩

theorem scalarData_eq_string {kind : ScalarKind} {style : ScalarStyle} {s t : Text}
    (h : scalarData kind style s = .string t) : t = s := by
  have hdetect : ∀ {u : Text}, detect s = .string u → u = s := by
    intro u hu
    unfold detect at hu
    grind
  unfold scalarData at h
  split at h
  next => grind
  next =>
    split at h
    next => cases h
    next => cases h
    next =>
      split at h
      next => cases h
      next => exact hdetect h
    next =>
      split at h
      next => cases h
      next => exact hdetect h
    next => grind
    next => exact hdetect h

theorem isReference_of_ne {s : Text} (h : ∀ rest, s ≠ Ascii.dollar :: rest) :
    isReference s = false := by
  cases s with
  | nil => rfl
  | cons b rest =>
    rw [← Bool.not_eq_true, isReference_cons]
    rintro rfl
    exact h rest rfl

/-- There is something to read in a text with a formula. -/
theorem parseTemplate_ne_none {s : Text} (h : Text.includes Formula.opening s = true) :
    Formula.parseTemplate s ≠ .ok none := by
  intro hnone
  rw [Formula.parseTemplate, if_pos h] at hnone
  split at hnone
  next =>
    obtain ⟨_, _, hne⟩ := map_eq_ok.mp hnone
    cases hne
  next =>
    obtain ⟨_, _, hne⟩ := map_eq_ok.mp hnone
    cases hne

/-- What a string scalar is read as. -/
theorem stringExpr_reading {line : Nat} {kind : ScalarKind} {style : ScalarStyle} {s : Text}
    {e : Expr} {d : Document} {below : Node → Expr → Prop}
    (h : stringExpr (.scalar line kind style s) s = .ok e) :
    Reading below d (.scalar line kind style s) e := by
  unfold stringExpr at h
  cases hm : Text.includes Formula.opening s with
  | true =>
    split at h
    next => cases h
    next e' he =>
      cases h
      exact .formula hm he
    next hnone => exact absurd hnone (parseTemplate_ne_none hm)
  | false =>
    rw [parseTemplate_unmarked hm] at h
    dsimp only at h
    split at h
    next => cases h
    next name hname =>
      cases h
      exact .var hm
    next => cases h
    next path _ hvar hempty =>
      cases h
      have given : path ≠ [] := by
        rintro rfl
        exact hempty rfl
      have plain : isReference path = false := by
        refine isReference_of_ne ?_
        rintro rest rfl
        exact hvar rest rfl
      exact .field ⟨⟨line, kind, style, rfl⟩, given, plain, hm⟩
    next hs =>
      cases h
      refine .string hm (isReference_of_ne ?_)
      rintro rest rfl
      exact hs rest rfl

theorem source_reading {arg : Option Node} {s : Source} (h : inner.source arg = .ok (some s)) :
    ∃ node, arg = some node ∧ SourceReading inner.Gives node s := by
  unfold Inner.source at h
  split at h
  next => cases h
  next node =>
    refine ⟨node, rfl, ?_⟩
    split at h
    next path hpath =>
      cases h
      exact .field (plainFieldPath?_eq_some hpath)
    next =>
      obtain ⟨e, he, hs⟩ := map_eq_ok.mp h
      cases hs
      exact .expr he

theorem optional_reading {arg : Option Node} {e : Expr} (h : inner.optional arg = .ok (some e)) :
    ∃ node, arg = some node ∧ inner.Gives node e := by
  unfold Inner.optional at h
  split at h
  next => cases h
  next node =>
    obtain ⟨f, hf, hsome⟩ := map_eq_ok.mp h
    cases hsome
    exact ⟨node, rfl, hf⟩

theorem bindingArguments_eq_ok {place : Location} {allowed : List String} {node : Node}
    {args : Text → Option Node} (h : bindingArguments place allowed node = .ok args) :
    ∃ line entries, node = .mapping line entries ∧
      ∀ name, args (text name) = argument? entries name := by
  unfold bindingArguments at h
  split at h
  next line entries =>
    split at h
    next => cases h
    next =>
      cases h
      exact ⟨line, entries, rfl, fun _ => rfl⟩
  next => cases h

theorem visits_reading {entries : List (Node × Node)} {args : Text → Option Node}
    {bodyName : String} {input : Option Source} {body : Option Expr} {item : Text} {s : Source}
    {b : Expr} (hargs : ∀ name, args (text name) = argument? entries name)
    (hinput : inner.source (args (text "input")) = .ok input)
    (hbody : inner.optional (args (text bodyName)) = .ok body)
    (hitem : scalarText (args (text "as")) = item) (h : Expr.Visits input item body s b) :
    IterationReading inner.Gives entries bodyName s item b := by
  rw [h.input_eq] at hinput
  rw [h.body_eq] at hbody
  rw [hargs] at hinput hbody hitem
  exact ⟨source_reading hinput, hitem, h.name, optional_reading hbody⟩

theorem map_reading {place : Location} {node : Node} {e : Expr} (hread : inner.map place node = .ok e) :
    ∃ line entries input item body, node = .mapping line entries ∧ e = .map input item body ∧
      IterationReading inner.Gives entries "in" input item body := by
  obtain ⟨args, hargs, h⟩ := bind_eq_ok.mp hread
  obtain ⟨input, hinput, h⟩ := bind_eq_ok.mp h
  obtain ⟨body, hbody, h⟩ := bind_eq_ok.mp h
  obtain ⟨line, entries, rfl, found⟩ := bindingArguments_eq_ok hargs
  obtain ⟨s, b, hvisits, rfl⟩ := Expr.mapItems_eq_ok.mp (built_eq_ok.mp h)
  exact ⟨line, entries, s, _, b, rfl, rfl, visits_reading found hinput hbody rfl hvisits⟩

theorem filter_reading {place : Location} {node : Node} {e : Expr}
    (hread : inner.filter place node = .ok e) :
    ∃ line entries input item cond, node = .mapping line entries ∧ e = .filter input item cond ∧
      IterationReading inner.Gives entries "cond" input item cond := by
  obtain ⟨args, hargs, h⟩ := bind_eq_ok.mp hread
  obtain ⟨input, hinput, h⟩ := bind_eq_ok.mp h
  obtain ⟨cond, hcond, h⟩ := bind_eq_ok.mp h
  obtain ⟨line, entries, rfl, found⟩ := bindingArguments_eq_ok hargs
  obtain ⟨s, b, hvisits, rfl⟩ := Expr.filterItems_eq_ok.mp (built_eq_ok.mp h)
  exact ⟨line, entries, s, _, b, rfl, rfl, visits_reading found hinput hcond rfl hvisits⟩

theorem reduce_reading {place : Location} {node : Node} {e : Expr}
    (hread : inner.reduce place node = .ok e) :
    ∃ line entries input initial body, node = .mapping line entries ∧
      e = .reduce input initial body ∧
      (∃ n, argument? entries "input" = some n ∧ SourceReading inner.Gives n input) ∧
      (∃ n, argument? entries "initialValue" = some n ∧ inner.Gives n initial) ∧
      ∃ n, argument? entries "in" = some n ∧ inner.Gives n body := by
  obtain ⟨args, hargs, h⟩ := bind_eq_ok.mp hread
  obtain ⟨input, hinput, h⟩ := bind_eq_ok.mp h
  obtain ⟨initial, hinitial, h⟩ := bind_eq_ok.mp h
  obtain ⟨body, hbody, h⟩ := bind_eq_ok.mp h
  obtain ⟨line, entries, rfl, found⟩ := bindingArguments_eq_ok hargs
  obtain ⟨s, i, b, ⟨rfl, -⟩, ⟨rfl, -⟩, ⟨rfl, -⟩, rfl⟩ :=
    Expr.reduceItems_eq_ok.mp (built_eq_ok.mp h)
  rw [found] at hinput hinitial hbody
  exact ⟨line, entries, s, i, b, rfl, rfl, source_reading hinput, optional_reading hinitial,
    optional_reading hbody⟩

/-- What declarations are read from, where each has a value. -/
theorem bindings_reading {place : Location} {arg : Option Node} {vars : List (Text × Expr)}
    (h : inner.bindings place arg = .ok (vars.map fun p => (p.1, some p.2))) :
    ∃ declared, ((arg = none ∧ declared = []) ∨ ∃ l, arg = some (.mapping l declared)) ∧
      List.Forall₂ (EntryReading inner.Gives) declared vars := by
  unfold Inner.bindings at h
  split at h
  next =>
    have hvars : vars = [] := by
      cases vars with
      | nil => rfl
      | cons => cases h
    subst hvars
    exact ⟨[], .inl ⟨rfl, rfl⟩, .nil⟩
  next line declared =>
    refine ⟨declared, .inr ⟨line, rfl⟩, ?_⟩
    refine (List.forall₂_map_right_iff.mp (mapM_eq_ok.mp h)).imp ?_
    rintro ⟨k, node⟩ ⟨name, e⟩ hread
    obtain ⟨f, hf, heq⟩ := map_eq_ok.mp hread
    cases heq
    exact ⟨rfl, hf⟩
  next => cases h

theorem letIn_reading {place : Location} {node : Node} {e : Expr}
    (hread : inner.letIn place node = .ok e) :
    ∃ line entries declared vars body, node = .mapping line entries ∧ e = .letIn vars body ∧
      ((argument? entries "vars" = none ∧ declared = []) ∨
        ∃ l, argument? entries "vars" = some (.mapping l declared)) ∧
      List.Forall₂ (EntryReading inner.Gives) declared vars ∧ (∀ p ∈ vars, IsVariableName p.1) ∧
      (vars.map (·.1)).Nodup ∧ ∃ n, argument? entries "in" = some n ∧ inner.Gives n body := by
  obtain ⟨args, hargs, h⟩ := bind_eq_ok.mp hread
  obtain ⟨given, hgiven, h⟩ := bind_eq_ok.mp h
  obtain ⟨body, hbody, h⟩ := bind_eq_ok.mp h
  obtain ⟨line, entries, rfl, found⟩ := bindingArguments_eq_ok hargs
  obtain ⟨vars, b, rfl, ⟨rfl, -⟩, hnames, hdistinct, rfl⟩ :=
    Expr.define_eq_ok.mp (built_eq_ok.mp h)
  rw [found] at hgiven hbody
  obtain ⟨declared, hvalues, hdeclared⟩ := bindings_reading hgiven
  exact ⟨line, entries, declared, vars, b, rfl, rfl, hvalues, hdeclared, fun p hp => (hnames p hp).1,
    hdistinct, optional_reading hbody⟩

theorem accepted_operator {place : Location} {op : Text} {args : List Expr} {e : Expr}
    (h : (match arityOf? op with
      | some arity =>
        if arity.accepts args.length then .ok (.operator op args)
        else .error (Rejection.mk (.argumentCount op args.length) place)
      | none => .ok (.operator op args)) = Except.ok e) :
    e = .operator op args ∧ (arityOf? op).all (·.accepts args.length) = true := by
  cases harity : arityOf? op with
  | none =>
    rw [harity] at h
    cases h
    exact ⟨rfl, rfl⟩
  | some arity =>
    rw [harity] at h
    dsimp only at h
    split at h
    next haccepts =>
      cases h
      exact ⟨rfl, haccepts⟩
    next => cases h

theorem operator_reading {place : Location} {op : Text} {node : Node} {e : Expr}
    (h : inner.operator place op node = .ok e) :
    ∃ args, e = .operator op args ∧ ArgumentsReading inner.Gives node args ∧
      (arityOf? op).all (·.accepts args.length) = true := by
  unfold Inner.operator at h
  dsimp only at h
  split at h
  next =>
    obtain ⟨args, hitems, h⟩ := bind_eq_ok.mp h
    obtain ⟨hcall, haccepts⟩ := accepted_operator h
    exact ⟨args, hcall, .several (mapM_eq_ok.mp hitems), haccepts⟩
  next =>
    obtain ⟨args, hsingle, h⟩ := bind_eq_ok.mp h
    obtain ⟨f, hf, rfl⟩ := map_eq_ok.mp hsingle
    obtain ⟨hcall, haccepts⟩ := accepted_operator h
    exact ⟨[f], hcall, .single hf, haccepts⟩

theorem entries_reading {seen : List Text} {nodes : List (Node × Node)} {es : List (Text × Expr)}
    (h : inner.entries seen nodes = .ok es) :
    List.Forall₂ (EntryReading inner.Gives) nodes es ∧ (∀ p ∈ es, isReference p.1 = false) ∧
      (es.map (·.1)).Nodup ∧ ∀ p ∈ es, p.1 ∉ seen := by
  induction nodes generalizing seen es with
  | nil =>
    cases h
    simp
  | cons p nodes ih =>
    obtain ⟨k, node⟩ := p
    rw [Inner.entries] at h
    split at h
    next => cases h
    next hplain =>
      split at h
      next => cases h
      next hfresh =>
        obtain ⟨e, he, h⟩ := bind_eq_ok.mp h
        obtain ⟨rest, hrest, h⟩ := bind_eq_ok.mp h
        cases h
        obtain ⟨hread, plain, distinct, fresh⟩ := ih hrest
        have hkey : k.value ∉ rest.map (·.1) := by
          intro hmem
          obtain ⟨q, hq, heq⟩ := List.mem_map.mp hmem
          exact fresh q hq (heq ▸ List.mem_cons_self)
        refine ⟨.cons ⟨rfl, he⟩ hread, ?_, List.nodup_cons.mpr ⟨hkey, distinct⟩, ?_⟩
        · exact List.forall_mem_cons.mpr ⟨(Bool.not_eq_true _).mp hplain, plain⟩
        · have hseen : k.value ∉ seen := by simpa using hfresh
          refine List.forall_mem_cons.mpr ⟨hseen, ?_⟩
          intro q hq hmem
          exact fresh q hq (List.mem_cons_of_mem _ hmem)

theorem object_reading {d : Document} {line : Nat} {nodes : List (Node × Node)} {e : Expr}
    (h : Inner.mapping.object inner nodes = .ok e) :
    Reading inner.Gives d (.mapping line nodes) e := by
  obtain ⟨es, hes, rfl⟩ := map_eq_ok.mp h
  obtain ⟨hread, plain, distinct, -⟩ := entries_reading hes
  exact .object hread plain distinct

theorem mapping_reading {d : Document} {line : Nat} {nodes : List (Node × Node)} {e : Expr}
    (h : inner.mapping d nodes = .ok e) : Reading inner.Gives d (.mapping line nodes) e := by
  unfold Inner.mapping at h
  split at h
  next k node =>
    dsimp only at h
    split at h
    next => exact object_reading h
    next hsigil =>
      have sigil : isReference k.value = true := by simpa [isReference] using hsigil
      split at h
      next hkey =>
        cases h
        exact .literal hkey
      next hliteral =>
      split at h
      next hkey =>
        obtain ⟨_, _, _, _, _, rfl, rfl, hread⟩ := map_reading h
        exact .map hkey hread
      next hmap =>
      split at h
      next hkey =>
        obtain ⟨_, _, _, _, _, rfl, rfl, hread⟩ := filter_reading h
        exact .filter hkey hread
      next hfilter =>
      split at h
      next hkey =>
        obtain ⟨_, _, _, _, _, rfl, rfl, hsource, hinitial, hbody⟩ := reduce_reading h
        exact .reduce hkey hsource hinitial hbody
      next hreduce =>
      split at h
      next hkey =>
        obtain ⟨_, _, _, _, _, rfl, rfl, hvalues, hread, hnames, hdistinct, hbody⟩ := letIn_reading h
        exact .letIn hkey hvalues hread hnames hdistinct hbody
      next hlet =>
        obtain ⟨args, rfl, hread, haccepts⟩ := operator_reading h
        have ordinary : reservedOperators.contains k.value = false := by
          simp [reservedOperators, hliteral, hmap, hfilter, hreduce, hlet]
        exact .operator sigil ordinary hread haccepts
  next => exact object_reading h

/-- One level: a node is read by the relation over what the level below gives. -/
theorem readExpr_reading {d : Document} {levels : Nat} {node : Node} {e : Expr}
    (h : readExpr d (levels + 1) node = .ok e) :
    Reading (Inner.Gives (readExpr d levels)) d node e := by
  unfold readExpr at h
  split at h
  next line name target =>
    split at h
    next node hfound => exact .backReference hfound h
    next => cases h
  next line kind style s =>
    unfold scalarExpr at h
    split at h
    next t hdata =>
      cases scalarData_eq_string hdata
      exact stringExpr_reading h
    next hother =>
      cases h
      exact .constant rfl hother
  next line items =>
    obtain ⟨es, hes, rfl⟩ := map_eq_ok.mp h
    exact .array (mapM_eq_ok.mp hes)
  next line entries => exact mapping_reading h

end

/-- Nodes that are read as expressions which nest fewer than the given number of levels. -/
def Reads (d : Document) : Nat → Node → Expr → Prop
  | 0 => fun _ _ => False
  | levels + 1 => Reading (Reads d levels) d

/-- Every level: whatever a reader gives is read by the relation all the way down. -/
theorem readExpr_reads {d : Document} {levels : Nat} {node : Node} {e : Expr}
    (h : readExpr d levels node = .ok e) : Reads d levels node e := by
  induction levels generalizing node e with
  | zero => cases h
  | succ levels ih => exact (readExpr_reading h).mono fun _ _ => ih

end ScopedAggregation.Definition
