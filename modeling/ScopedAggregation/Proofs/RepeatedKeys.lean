import ScopedAggregation.Proofs.ExpressionPlaces
import ScopedAggregation.Proofs.WrittenTrees

namespace ScopedAggregation.Definition

open Yaml (Node Document)

/-- What the mappings of a definition are read as. -/
inductive MappingKind where
  | definition
  | input
  | object
  | arguments
  | declarations
  | group
  | key
  | projection
deriving DecidableEq

/-- A mapping, and what it is read as. -/
abbrev ReadMapping := MappingKind × List (Node × Node)

def keysOf (entries : List (Node × Node)) : List Text := entries.map (·.1.value)

/-- The nodes that are read as the parts of the expression that a node is read as. -/
def expressionParts (d : Document) : Node → List Node
  | .scalar .. => []
  | .backReference _ _ target => (d.node? target).toList
  | .sequence _ items => items
  | .mapping _ [(k, body)] =>
    if !isReference k.value then [body]
    else if k.value = text "$literal" then []
    else if constructArguments k.value = [] then
      match body with
      | .sequence _ items => items
      | node => [node]
    else match body with
      | .mapping _ args => (constructArguments k.value).filterMap (argument? args) ++
          ((declarations? k.value args).getD []).map (·.2)
      | _ => []
  | .mapping _ entries => entries.map (·.2)

/-- The mappings that the reader of an expression takes apart at a node. -/
def expressionMappings : Node → List ReadMapping
  | .mapping _ [(k, body)] =>
    if !isReference k.value then [(.object, [(k, body)])]
    else if constructArguments k.value = [] then []
    else match body with
      | .mapping _ args =>
        (.arguments, args) :: ((declarations? k.value args).map (MappingKind.declarations, ·)).toList
      | _ => []
  | .mapping _ entries => [(.object, entries)]
  | _ => []

/-- The nodes that reading an expression from a node comes by. -/
inductive Visited (d : Document) (root : Node) : Node → Prop
  | root : Visited d root root
  | part {node child : Node} (h : Visited d root node) (mem : child ∈ expressionParts d node) :
    Visited d root child

/-- The mappings that the reader of a stage takes apart. -/
def stageMappings : Node → List ReadMapping
  | .mapping _ [(k, .mapping _ entries)] =>
    if k.value = text "$group" then
      (.group, entries) :: entries.filterMap fun (k, node) =>
        match node with
        | .mapping _ fields => if isGroupKey k then some (.key, fields) else none
        | _ => none
    else if k.value = text "$project" then [(.projection, entries)]
    else []
  | _ => []

/-- The names under which a projection keeps fields. -/
def keptNames (entries : List (Node × Node)) : List Text :=
  ((selectionsOf entries).filterMap Selection.kept?).map (·.name)

/-- The mappings of a definition outside its expressions. -/
def frameMappings (d : Document) : List ReadMapping :=
  match d.root with
  | .mapping _ entries =>
    (.definition, entries) :: (entries.filterMap fun (k, node) =>
      match node with
      | .mapping _ fields => if k.value = text "input" then some (.input, fields) else none
      | _ => none) ++ (stageNodes d).flatMap stageMappings
  | _ => []

/-- The nodes that the expressions of a definition are read from. -/
def expressionRoots (d : Document) : List Node :=
  match d.root with
  | .mapping _ entries =>
    (argument? entries "expression").toList ++ (stageNodes d).flatMap stageExpressions
  | _ => []

/-- The mappings that reading the document as a definition takes apart. -/
inductive Interprets (d : Document) : ReadMapping → Prop
  | frame {m : ReadMapping} (mem : m ∈ frameMappings d) : Interprets d m
  | expression {m : ReadMapping} {root node : Node} (hroot : root ∈ expressionRoots d)
    (visited : Visited d root node) (mem : m ∈ expressionMappings node) : Interprets d m

/-- What the readers of mappings make sure of. -/
def KeysChecked : ReadMapping → Prop
  | (.object, entries) => (keysOf entries).Nodup
  | (.declarations, entries) => (keysOf entries).Nodup
  | (.group, entries) => ((keysOf entries).filter (· ≠ text "_id")).Nodup
  | (.projection, entries) =>
    ((computedOutputs entries).map (·.1)).Nodup ∧
      ∀ p ∈ computedOutputs entries, p.1 ∉ keptNames entries
  | _ => True

end ScopedAggregation.Definition

namespace ScopedAggregation

/-- No key and no variable stands twice in an object or among declarations. -/
def Expr.HasDistinctKeys : Expr → Prop
  | .object entries => (entries.map (·.1)).Nodup
  | .letIn vars _ => (vars.map (·.1)).Nodup
  | _ => True

/-- Computed outputs have different names, and none of them is kept. -/
structure ProjectStage.Separated (p : ProjectStage) : Prop where
  outputs : (p.computed.map (·.1)).Nodup
  apart : ∀ q ∈ p.computed, q.1 ∉ p.included.names

theorem ProjectStage.Separated.compute {p : ProjectStage} (h : p.Separated) (output : Text)
    (e : Expr) : (p.compute output (some e)).Separated := by
  rcases Definition.compute_cases p output e with ⟨fault, hstep⟩ | ⟨hnew, hstep⟩
  · rw [hstep]
    exact ⟨h.outputs, h.apart⟩
  · simp only [ProjectStage.hasOutput, Bool.or_eq_false_iff] at hnew
    obtain ⟨⟨hincluded, -⟩, hcomputed⟩ := hnew
    have hfresh : output ∉ p.computed.map (·.1) := by
      intro hmem
      obtain ⟨q, hq, hname⟩ := List.mem_map.mp hmem
      have hother := List.any_eq_false.mp hcomputed q hq
      exact hother (decide_eq_true hname)
    rw [hstep]
    refine ⟨?_, List.forall_mem_append.mpr ⟨h.apart, List.forall_mem_singleton.mpr ?_⟩⟩
    · rw [List.map_append, List.nodup_append]
      refine ⟨h.outputs, List.nodup_singleton output, ?_⟩
      rintro n hn m hm rfl
      cases List.mem_singleton.mp hm
      exact hfresh hn
    · exact Fields.contains_eq_false.mp hincluded

namespace Definition

open Yaml (Node Document)

section

variable {d : Document} {node child : Node} {levels : Nat} {e : Expr} {m : ReadMapping}

theorem expressionParts_object {line : Nat} {entries : List (Node × Node)}
    (plain : ∀ p ∈ entries, isReference p.1.value = false) :
    expressionParts d (.mapping line entries) = entries.map (·.2) := by
  match entries, plain with
  | [], _ => rfl
  | [(k, body)], plain =>
    have hk : isReference k.value = false := plain (k, body) List.mem_cons_self
    simp [expressionParts, hk]
  | p :: q :: rest, _ => rfl

theorem expressionMappings_object {line : Nat} {entries : List (Node × Node)}
    (plain : ∀ p ∈ entries, isReference p.1.value = false) :
    expressionMappings (.mapping line entries) = [(.object, entries)] := by
  match entries, plain with
  | [], _ => rfl
  | [(k, body)], plain =>
    have hk : isReference k.value = false := plain (k, body) List.mem_cons_self
    simp [expressionMappings, hk]
  | p :: q :: rest, _ => rfl

/-- The name of a construct that binds names. -/
def IsConstruct (op : String) : Prop :=
  isReference (text op) = true ∧ text op ≠ text "$literal" ∧ constructArguments (text op) ≠ []

instance (op : String) : Decidable (IsConstruct op) := inferInstanceAs (Decidable (_ ∧ _ ∧ _))

theorem mem_constructParts {line line' : Nat} {k : Node} {op : String} {args : List (Node × Node)}
    (key : k.value = text op) (known : IsConstruct op)
    (h : child ∈ expressionParts d (.mapping line [(k, .mapping line' args)])) :
    (∃ name ∈ constructArguments (text op), argument? args name = some child) ∨
      ∃ vars, declarations? (text op) args = some vars ∧ child ∈ vars.map (·.2) := by
  obtain ⟨sigil, hliteral, hargs⟩ := known
  simp only [expressionParts, key, sigil, Bool.not_true, Bool.false_eq_true, if_false, hliteral,
    hargs] at h
  rcases List.mem_append.mp h with h | h
  · exact .inl (List.mem_filterMap.mp h)
  · cases hvars : declarations? (text op) args with
    | none =>
      rw [hvars] at h
      cases h
    | some vars => exact .inr ⟨vars, rfl, by rwa [hvars] at h⟩

theorem mem_constructMappings {line line' : Nat} {k : Node} {op : String}
    {args : List (Node × Node)} (key : k.value = text op) (known : IsConstruct op)
    (h : m ∈ expressionMappings (.mapping line [(k, .mapping line' args)])) :
    m = (.arguments, args) ∨ ∃ vars, declarations? (text op) args = some vars ∧
      m = (.declarations, vars) := by
  obtain ⟨sigil, -, hargs⟩ := known
  simp only [expressionMappings, key, sigil, Bool.not_true, Bool.false_eq_true, if_false, hargs] at h
  rcases List.mem_cons.mp h with h | h
  · exact .inl h
  · obtain ⟨vars, hvars, rfl⟩ := Option.map_eq_some_iff.mp (Option.mem_toList.mp h)
    exact .inr ⟨vars, hvars, rfl⟩

theorem reads_of_source {s : Source} (h : SourceReading (Reads d levels) node s) :
    ∃ l e, Reads d l node e := by
  cases h with
  | field plain => exact ⟨1, _, Reading.field plain⟩
  | expr read => exact ⟨levels, _, read⟩

theorem plain_of_entries {entries : List (Node × Node)} {es : List (Text × Expr)}
    {inner : Node → Expr → Prop} (h : List.Forall₂ (EntryReading inner) entries es)
    (plain : ∀ q ∈ es, isReference q.1 = false) : ∀ p ∈ entries, isReference p.1.value = false := by
  intro p hp
  obtain ⟨q, hq, hkey, -⟩ := forall₂_mem_left h hp
  rw [← hkey]
  exact plain q hq

theorem keys_of_entries {entries : List (Node × Node)} {es : List (Text × Expr)}
    {inner : Node → Expr → Prop} (h : List.Forall₂ (EntryReading inner) entries es) :
    keysOf entries = es.map (·.1) :=
  forall₂_map_eq h fun _ _ h => h.1.symm

theorem reads_of_entries {entries : List (Node × Node)} {es : List (Text × Expr)}
    (h : List.Forall₂ (EntryReading (Reads d levels)) entries es)
    (mem : child ∈ entries.map (·.2)) : ∃ l e, Reads d l child e := by
  obtain ⟨p, hp, rfl⟩ := List.mem_map.mp mem
  obtain ⟨q, -, -, hread⟩ := forall₂_mem_left h hp
  exact ⟨levels, q.2, hread⟩

theorem IterationReading.part {args : List (Node × Node)} {bodyName name : String} {input : Source}
    {item : Text} {body : Expr} (h : IterationReading (Reads d levels) args bodyName input item body)
    (hname : name ∈ ["input", bodyName]) (harg : argument? args name = some child) :
    ∃ l e, Reads d l child e := by
  obtain ⟨n, hn, hsource⟩ := h.source
  obtain ⟨n', hn', hbody⟩ := h.body
  rcases List.mem_cons.mp hname with rfl | hname
  · cases harg.symm.trans hn
    exact reads_of_source hsource
  · cases List.mem_singleton.mp hname
    cases harg.symm.trans hn'
    exact ⟨levels, body, hbody⟩

theorem declarations?_eq_declared {args declared vars : List (Node × Node)}
    (values : (argument? args "vars" = none ∧ declared = []) ∨
      ∃ l, argument? args "vars" = some (.mapping l declared))
    (h : declarations? (text "$let") args = some vars) : vars = declared := by
  rw [declarations?, if_pos rfl] at h
  rcases values with ⟨hnone, -⟩ | ⟨l, hsome⟩
  · rw [hnone] at h
    cases h
  · rw [hsome] at h
    exact (Option.some.inj h).symm

/-- One node: its parts are read as well. -/
theorem Reads.part (h : Reads d levels node e) (mem : child ∈ expressionParts d node) :
    ∃ l e', Reads d l child e' := by
  induction levels generalizing node child e with
  | zero => exact h.elim
  | succ levels ih =>
    cases h with
    | constant | formula | var | string => cases mem
    | field plain =>
      obtain ⟨⟨line, kind, style, rfl⟩, -⟩ := plain
      cases mem
    | backReference found read =>
      rw [expressionParts, found] at mem
      cases List.mem_singleton.mp mem
      exact ⟨levels, _, read⟩
    | array h =>
      obtain ⟨e', -, hread⟩ := forall₂_mem_left h mem
      exact ⟨levels, e', hread⟩
    | object h plain distinct =>
      rw [expressionParts_object (plain_of_entries h plain)] at mem
      exact reads_of_entries h mem
    | literal key =>
      have hnone : isReference (text "$literal") = true := by decide
      simp [expressionParts, key, hnone] at mem
    | @operator line k body args sigil ordinary h accepted =>
      have hliteral := ne_literal_of_ordinary ordinary
      have hargs := constructArguments_of_ordinary ordinary
      simp only [expressionParts, sigil, hliteral, hargs, Bool.not_true, Bool.false_eq_true,
        if_false, if_true] at mem
      cases h with
      | several h =>
        obtain ⟨e', -, hread⟩ := forall₂_mem_left h mem
        exact ⟨levels, e', hread⟩
      | single read =>
        cases body with
        | sequence line' items => exact ih read mem
        | scalar | mapping | backReference =>
          cases List.mem_singleton.mp mem
          exact ⟨levels, _, read⟩
    | map key h =>
      rcases mem_constructParts key (by decide) mem with ⟨name, hname, harg⟩ | ⟨vars, hvars, -⟩
      · exact h.part hname harg
      · cases hvars
    | filter key h =>
      rcases mem_constructParts key (by decide) mem with ⟨name, hname, harg⟩ | ⟨vars, hvars, -⟩
      · exact h.part hname harg
      · cases hvars
    | reduce key source start h =>
      obtain ⟨n, hn, hsource⟩ := source
      obtain ⟨n', hn', hstart⟩ := start
      obtain ⟨n'', hn'', hbody⟩ := h
      rcases mem_constructParts key (by decide) mem with ⟨name, hname, harg⟩ | ⟨vars, hvars, -⟩
      · rcases List.mem_cons.mp hname with rfl | hname
        · cases harg.symm.trans hn
          exact reads_of_source hsource
        rcases List.mem_cons.mp hname with rfl | hname
        · cases harg.symm.trans hn'
          exact ⟨levels, _, hstart⟩
        · cases List.mem_singleton.mp hname
          cases harg.symm.trans hn''
          exact ⟨levels, _, hbody⟩
      · cases hvars
    | letIn key values h names distinct inside =>
      obtain ⟨n, hn, hbody⟩ := inside
      rcases mem_constructParts key (by decide) mem with ⟨name, hname, harg⟩ | ⟨vars, hvars, hmem⟩
      · cases List.mem_singleton.mp hname
        cases harg.symm.trans hn
        exact ⟨levels, _, hbody⟩
      · cases declarations?_eq_declared values hvars
        exact reads_of_entries h hmem

/-- One node: the keys of its mappings. -/
theorem Reads.keysChecked (h : Reads d levels node e) (mem : m ∈ expressionMappings node) :
    KeysChecked m := by
  cases levels with
  | zero => exact h.elim
  | succ levels =>
    cases h with
    | constant | formula | var | string | backReference | array => cases mem
    | field plain =>
      obtain ⟨⟨line, kind, style, rfl⟩, -⟩ := plain
      cases mem
    | object h plain distinct =>
      rw [expressionMappings_object (plain_of_entries h plain)] at mem
      cases List.mem_singleton.mp mem
      rw [KeysChecked, keys_of_entries h]
      exact distinct
    | literal key =>
      have sigil : isReference (text "$literal") = true := by decide
      have hargs : constructArguments (text "$literal") = [] := by decide
      simp [expressionMappings, key, sigil, hargs] at mem
    | @operator line k body args sigil ordinary h accepted =>
      simp [expressionMappings, sigil, constructArguments_of_ordinary ordinary] at mem
    | map key h =>
      rcases mem_constructMappings key (by decide) mem with rfl | ⟨vars, hvars, -⟩
      · trivial
      · cases hvars
    | filter key h =>
      rcases mem_constructMappings key (by decide) mem with rfl | ⟨vars, hvars, -⟩
      · trivial
      · cases hvars
    | reduce key source start h =>
      rcases mem_constructMappings key (by decide) mem with rfl | ⟨vars, hvars, -⟩
      · trivial
      · cases hvars
    | letIn key values h names distinct inside =>
      rcases mem_constructMappings key (by decide) mem with rfl | ⟨vars, hvars, rfl⟩
      · trivial
      · cases declarations?_eq_declared values hvars
        rw [KeysChecked, keys_of_entries h]
        exact distinct

theorem Reads.visited {root : Node} (h : Reads d levels root e) (visited : Visited d root node) :
    ∃ l e', Reads d l node e' := by
  induction visited with
  | root => exact ⟨levels, e, h⟩
  | part _ mem ih =>
    obtain ⟨l, e', hread⟩ := ih
    exact hread.part mem

theorem readComputed_eq_ok {selections : List Selection} {computed : List (Text × Expr)}
    (h : readComputed d selections = .ok computed) :
    List.Forall₂ (fun p q => q.1 = p.1 ∧ readInnerExpr d p.2 = .ok q.2)
      (selections.filterMap Selection.computed?) computed := by
  induction selections generalizing computed with
  | nil =>
    cases h
    exact .nil
  | cons s selections ih =>
    cases s with
    | drop => exact ih h
    | keep f => exact ih h
    | compute output node =>
      obtain ⟨e, he, h⟩ := bind_eq_ok.mp h
      obtain ⟨es, hes, h⟩ := bind_eq_ok.mp h
      cases h
      exact .cons ⟨rfl, he⟩ (ih hes)

theorem foldl_separated {computed : List (Text × Expr)} {p : ProjectStage} (h : p.Separated) :
    (computed.foldl (fun (p : ProjectStage) (output, e) => p.compute output (some e)) p).Separated := by
  induction computed generalizing p with
  | nil => exact h
  | cons q computed ih => exact ih (h.compute q.1 q.2)

theorem separated_of_valid {computed : List (Text × Expr)} {included : List Field}
    (valid : (computed.foldl (fun (p : ProjectStage) (output, e) => p.compute output (some e))
      (ProjectStage.including included)).error = none) :
    (computed.map (·.1)).Nodup ∧ ∀ q ∈ computed, q.1 ∉ (Fields.ofList included).names := by
  have start : (ProjectStage.including included).Separated :=
    ⟨List.nodup_nil, by simp [ProjectStage.including]⟩
  have separated := @foldl_separated computed _ start
  rw [foldl_compute valid] at separated
  exact ⟨separated.outputs, separated.apart⟩

theorem readProject_checked {place : Location} {line : Nat} {entries : List (Node × Node)}
    {stage : Stage} (h : readProject d place (.mapping line entries) = .ok stage) :
    KeysChecked (.projection, entries) ∧
      ∀ node ∈ (computedOutputs entries).map (·.2), ∃ l e, Reads d l node e := by
  obtain ⟨computed, hcomputed, h⟩ := bind_eq_ok.mp h
  have hread := readComputed_eq_ok hcomputed
  dsimp only at h
  split at h
  next => cases h
  next valid =>
    obtain ⟨outputs, apart⟩ := separated_of_valid valid
    refine ⟨⟨?_, ?_⟩, ?_⟩
    · have names : (computedOutputs entries).map (·.1) = computed.map (·.1) :=
        forall₂_map_eq hread fun _ _ h => h.1.symm
      rwa [names]
    · intro p hp hkept
      obtain ⟨q, hq, hname, -⟩ := forall₂_mem_left hread hp
      obtain ⟨f, hf, hfname⟩ := List.mem_map.mp hkept
      refine apart q hq ?_
      rw [hname, ← hfname]
      exact Fields.mem_names_ofList.mpr (List.mem_map_of_mem hf)
    · refine List.forall_mem_map.mpr fun p hp => ?_
      obtain ⟨q, -, -, hq⟩ := forall₂_mem_left hread hp
      exact ⟨_, q.2, readExpr_reads hq⟩

theorem readAccumulators_built {place : Location} {entries : List (Node × Node)} {g g' : GroupStage}
    (h : readAccumulators d place g entries = .ok g') (built : g.Built) : g'.Built := by
  induction entries generalizing g with
  | nil =>
    cases h
    exact built
  | cons p rest ih =>
    unfold readAccumulators at h
    split at h
    next =>
      split at h
      next =>
        obtain ⟨e, -, h⟩ := bind_eq_ok.mp h
        exact ih h (built.accumulate _ _ _)
      next => cases h
    next => cases h

theorem keysOf_outputs (entries : List (Node × Node)) :
    (keysOf entries).filter (· ≠ text "_id") =
      keysOf (entries.filter fun (k, _) => !isGroupKey k) := by
  rw [keysOf, keysOf, List.filter_map]
  congr 1
  refine List.filter_congr fun p _ => ?_
  simp [isGroupKey]

theorem readGroup_checked {place : Location} {line : Nat} {entries : List (Node × Node)}
    {stage : Stage} (h : readGroup d place (.mapping line entries) = .ok stage) :
    KeysChecked (.group, entries) ∧
      ∀ node ∈ (entries.filter fun (k, _) => !isGroupKey k).filterMap (operand? ·.2),
        ∃ l e, Reads d l node e := by
  obtain ⟨fields, -, h⟩ := bind_eq_ok.mp h
  obtain ⟨g, hg, h⟩ := bind_eq_ok.mp h
  split at h
  next => cases h
  next valid =>
    have outputs := (readAccumulators_built hg (.ofKeys fields)).separated.outputs
    obtain ⟨added, rfl, hadded⟩ := readAccumulators_reading hg valid
    refine ⟨?_, ?_⟩
    · have hkeys : keysOf (entries.filter fun (k, _) => !isGroupKey k) =
          added.map (·.output) := forall₂_map_eq hadded fun _ _ h => h.1.symm
      rw [KeysChecked, keysOf_outputs, hkeys]
      exact outputs
    · intro node hnode
      obtain ⟨p, hp, hoperand⟩ := List.mem_filterMap.mp hnode
      obtain ⟨a, -, -, l, op, operand, hbody, -, -, hread⟩ := forall₂_mem_left hadded hp
      rw [hbody] at hoperand
      cases Option.some.inj hoperand
      exact ⟨maxNesting, a.value, hread⟩

/-- One stage: the keys of its mappings, and the nodes that are read as expressions in it. -/
theorem readStage_checked {index : Nat} {stage : Stage} (h : readStage d index node = .ok stage) :
    (∀ m ∈ stageMappings node, KeysChecked m) ∧
      ∀ root ∈ stageExpressions node, ∃ l e, Reads d l root e := by
  unfold readStage at h
  split at h
  next line k body =>
    dsimp only at h
    split at h
    next hk =>
      cases body with
      | mapping line' entries =>
        obtain ⟨hkeys, hroots⟩ := readGroup_checked h
        simp only [stageMappings, stageExpressions, hk, if_true]
        refine ⟨List.forall_mem_cons.mpr ⟨hkeys, ?_⟩, ?_⟩
        · intro m hm
          obtain ⟨p, -, hp⟩ := List.mem_filterMap.mp hm
          split at hp
          next =>
            split at hp
            next =>
              cases Option.some.inj hp
              trivial
            next => cases hp
          next => cases hp
        · exact hroots
      | scalar | sequence | backReference => cases h
    next hgroup =>
      split at h
      next hk =>
        cases body with
        | mapping line' entries =>
          obtain ⟨hkeys, hroots⟩ := readProject_checked h
          simp only [stageMappings, stageExpressions, hk]
          exact ⟨List.forall_mem_singleton.mpr hkeys, hroots⟩
        | scalar | sequence | backReference => cases h
      next hproject =>
        split at h
        next hk =>
          obtain ⟨e, he, -⟩ := map_eq_ok.mp h
          refine ⟨?_, ?_⟩
          · cases body with
            | mapping => simp [stageMappings, hgroup, hproject]
            | scalar | sequence | backReference => simp [stageMappings]
          · simp only [stageExpressions, hk]
            exact List.forall_mem_singleton.mpr ⟨_, e, readExpr_reads he⟩
        next => cases h
  next => cases h

theorem stageNodes_read {definition : Definition} (h : ofDocument d = .ok definition) :
    ∀ node ∈ stageNodes d, ∃ i stage, readStage d i node = .ok stage := by
  obtain ⟨line, entries, parts, hroot, hparts, -, hbody⟩ := ofDocument_eq_ok h
  obtain ⟨-, hstages, -⟩ := readParts_reading hparts
  rw [Option.or_none] at hstages
  generalize definition.body = body at hbody
  cases hbody with
  | expression _ alone _ =>
    simp [stageNodes, hroot, hstages.symm.trans alone]
  | stages found _ read =>
    obtain ⟨line', items, rfl, hitems⟩ := readStages_eq_ok read
    rw [stageNodes_eq hroot (hstages.symm.trans found)]
    intro node hnode
    obtain ⟨stage, -, i, hstage⟩ := forall₂_mem_left hitems hnode
    exact ⟨i, stage, hstage⟩

theorem expressionRoots_read {definition : Definition} (h : ofDocument d = .ok definition) :
    ∀ root ∈ expressionRoots d, ∃ l e, Reads d l root e := by
  obtain ⟨line, entries, parts, hroot, hparts, -, hbody⟩ := ofDocument_eq_ok h
  obtain ⟨hexpression, -, -⟩ := readParts_reading hparts
  rw [Option.or_none] at hexpression
  simp only [expressionRoots, hroot, ← hexpression]
  refine List.forall_mem_append.mpr ⟨?_, ?_⟩
  · generalize definition.body = body at hbody
    cases hbody with
    | expression found _ read =>
      rw [found]
      exact List.forall_mem_singleton.mpr ⟨maxNesting + 1, _, readExpr_reads read⟩
    | stages _ alone _ => simp [alone]
  · intro root hmem
    obtain ⟨node, hnode, hmem⟩ := List.mem_flatMap.mp hmem
    obtain ⟨i, stage, hstage⟩ := stageNodes_read h node hnode
    exact (readStage_checked hstage).2 root hmem

/-- A whole document: the keys of everything that is taken apart. -/
theorem ofDocument_checked {definition : Definition} (h : ofDocument d = .ok definition) :
    ∀ m, Interprets d m → KeysChecked m := by
  intro m hm
  cases hm with
  | frame mem =>
    obtain ⟨line, entries, hroot, -⟩ := ofDocument_reading h
    simp only [frameMappings, hroot] at mem
    rcases List.mem_append.mp mem with mem | mem
    · rcases List.mem_cons.mp mem with rfl | mem
      · trivial
      · obtain ⟨p, -, hp⟩ := List.mem_filterMap.mp mem
        split at hp
        next =>
          split at hp
          next =>
            cases Option.some.inj hp
            trivial
          next => cases hp
        next => cases hp
    · obtain ⟨node, hnode, mem⟩ := List.mem_flatMap.mp mem
      obtain ⟨i, stage, hstage⟩ := stageNodes_read h node hnode
      exact (readStage_checked hstage).1 m mem
  | expression hroot visited mem =>
    obtain ⟨l, e, hread⟩ := expressionRoots_read h _ hroot
    obtain ⟨l', e', hread'⟩ := hread.visited visited
    exact hread'.keysChecked mem

end

/-- No definition is accepted in which a mapping of the kind has a key twice. -/
def RejectsRepeats (kind : MappingKind) : Prop :=
  ∀ source definition d entries, parse source = .ok definition →
    readSource .definition source = .ok d → Interprets d (kind, entries) → (keysOf entries).Nodup

/-- Definitions that are accepted with a key twice, for each kind of mapping that lets it pass. -/
def repeatedKey : MappingKind → Text
  | .definition => text "expression: 1\nexpression: 2"
  | .input => text "input: \x7ba: $x, a: $y\x7d\nexpression: $a"
  | .arguments => text "expression: \x7b$map: \x7binput: $a, input: $b, as: x, in: 1\x7d\x7d"
  | .group => text "stages: [\x7b$group: \x7b_id: $a, _id: $b\x7d\x7d]"
  | .key => text "stages: [\x7b$group: \x7b_id: \x7bk: $a, k: $b\x7d\x7d\x7d]"
  | .projection => text "stages: [\x7b$project: \x7ba: 1, a: $b\x7d\x7d]"
  | .object | .declarations => []

/-- The mappings that are taken apart before any alias is followed or an operand is looked into. -/
def outerMappings (d : Document) : List ReadMapping :=
  frameMappings d ++ (expressionRoots d).flatMap expressionMappings

theorem interprets_of_outer {d : Document} {m : ReadMapping} (h : m ∈ outerMappings d) :
    Interprets d m := by
  rcases List.mem_append.mp h with h | h
  · exact .frame h
  · obtain ⟨root, hroot, h⟩ := List.mem_flatMap.mp h
    exact .expression hroot .root h

theorem repeatedKey_accepted {kind : MappingKind} (given : kind ≠ .object ∧ kind ≠ .declarations) :
    ∃ definition d entries, parse (repeatedKey kind) = .ok definition ∧
      readSource .definition (repeatedKey kind) = .ok d ∧ Interprets d (kind, entries) ∧
      ¬ (keysOf entries).Nodup := by
  have accepted : (parse (repeatedKey kind)).toOption.any (fun _ => true) = true := by
    cases kind with
    | object | declarations => simp at given
    | definition | input | arguments | group | key | projection => decide +kernel
  have repeated : (readSource .definition (repeatedKey kind)).toOption.any (fun d =>
      (outerMappings d).any fun m => decide (m.1 = kind ∧ ¬ (keysOf m.2).Nodup)) = true := by
    cases kind with
    | object | declarations => simp at given
    | definition | input | arguments | group | key | projection => decide +kernel
  obtain ⟨definition, hparse, -⟩ := exists_ok_of_any accepted
  obtain ⟨d, hd, repeated⟩ := exists_ok_of_any repeated
  obtain ⟨m, hm, hrepeats⟩ := List.any_eq_true.mp repeated
  obtain ⟨rfl, twice⟩ := of_decide_eq_true hrepeats
  exact ⟨definition, d, m.2, hparse, hd, interprets_of_outer hm, twice⟩

/-- Which repeated keys are rejected. Only objects and declarations of variables reject whatever
repeats; but in every accepted definition groups have no output twice and projections nothing computed,
and the objects in formulas have no key twice either. -/
theorem repeated_keys_rejected_iff (kind : MappingKind) :
    (RejectsRepeats kind ↔ kind = .object ∨ kind = .declarations) ∧
      ∀ source definition d, parse source = .ok definition → readSource .definition source = .ok d →
        (∀ entries, Interprets d (kind, entries) → KeysChecked (kind, entries)) ∧
          ∀ e ∈ definition.expressions, e.Every Expr.HasDistinctKeys := by
  have checked : ∀ source definition d, parse source = .ok definition →
      readSource .definition source = .ok d → ofDocument d = .ok definition := by
    intro source definition d parsed hd
    rwa [parse_eq, hd, ok_bind] at parsed
  refine ⟨⟨?_, ?_⟩, ?_⟩
  · intro rejects
    by_contra hother
    obtain ⟨definition, d, entries, hparse, hd, hm, hrepeats⟩ :=
      repeatedKey_accepted (not_or.mp hother)
    exact hrepeats (rejects _ definition d entries hparse hd hm)
  · rintro (rfl | rfl)
    · intro source definition d entries parsed hd hm
      exact ofDocument_checked (checked source definition d parsed hd) _ hm
    · intro source definition d entries parsed hd hm
      exact ofDocument_checked (checked source definition d parsed hd) _ hm
  · intro source definition d parsed hd
    have hdocument := checked source definition d parsed hd
    refine ⟨fun entries hm => ofDocument_checked hdocument _ hm, ?_⟩
    intro e he
    refine (ofDocument_written hdocument e he).mono fun e here => ?_
    cases e with
    | object entries => exact here
    | letIn vars body => exact here.2
    | _ => trivial

theorem run_eq_int {run : Except PipelineError Value × List Attempt} {i : Int64}
    (h : run.1.toOption.bind (·.asInt.toOption) = some i) : ∃ last, run = (.ok (.int i), last) := by
  obtain ⟨result, last⟩ := run
  obtain ⟨v, hv, hi⟩ := Option.bind_eq_some_iff.mp h
  cases result with
  | error e => cases hv
  | ok w =>
    cases hv
    cases v with
    | int j =>
      cases hi
      exact ⟨last, rfl⟩
    | _ => cases hi

/-- Of two expressions the first is dropped. -/
theorem repeatedExpression_accepted :
    ∃ definition d entries last, parse (repeatedKey .definition) = .ok definition ∧
      readSource .definition (repeatedKey .definition) = .ok d ∧
      Interprets d (.definition, entries) ∧ ¬ (keysOf entries).Nodup ∧
      compile {} definition [] = (.ok (.int 2), last) := by
  have second : (parse (repeatedKey .definition)).toOption.any (fun definition =>
      decide ((compile {} definition []).1.toOption.bind (·.asInt.toOption) = some 2)) = true := by
    decide +kernel
  obtain ⟨definition, d, entries, hparse, hd, hm, hrepeats⟩ :=
    @repeatedKey_accepted .definition (by decide)
  rw [hparse] at second
  obtain ⟨last, hrun⟩ := run_eq_int (of_decide_eq_true second)
  exact ⟨definition, d, entries, last, hparse, hd, hm, hrepeats, hrun⟩

end Definition

end ScopedAggregation
