import ScopedAggregation.Definition
import ScopedAggregation.Proofs.GroupOutputs
import ScopedAggregation.Proofs.NodeReading

namespace ScopedAggregation.Definition

open Yaml (Node Document)

section

-- Some scalars are taken as paths without a look at formulas in them; `accepts` says which of them the
-- relations let through.
variable (accepts : Node → Prop)

/-- A name and the scalar that refers to its field. -/
def FieldReading (p : Node × Node) (f : Field) : Prop :=
  ∃ path, f = Field.renamed p.1.value path ∧ RefersTo accepts p.2 path

/-- A scalar that gives a declared name, with or without a dollar sign. -/
def NameReading (node : Node) (name : Text) : Prop :=
  (∃ line kind style, node = .scalar line kind style (Ascii.dollar :: name) ∨
    node = .scalar line kind style name) ∧ accepts node

/-- The declared fields. -/
inductive InputReading : Option Node → Fields → Prop
  | none : InputReading none {}
  | names {line : Nat} {items : List Node} {names : List Text}
    (h : List.Forall₂ (NameReading accepts) items names) :
    InputReading (some (.sequence line items)) (.ofNames names)
  | targets {line : Nat} {entries : List (Node × Node)} {fields : List Field}
    (h : List.Forall₂ (FieldReading accepts) entries fields) :
    InputReading (some (.mapping line entries)) (.ofList fields)

/-- The scalar denotes null. -/
def isNull : Node → Bool
  | .scalar _ kind style s =>
    match scalarData kind style s with
    | .null => true
    | _ => false
  | _ => false

/-- The key of a group. -/
inductive KeyReading : Node → List Field → Prop
  | absent {node : Node} (h : isNull node = true) : KeyReading node []
  | single {node : Node} {path : Text} (given : isNull node = false)
    (h : RefersTo accepts node path) :
    KeyReading node [Field.renamed (lastSegment path) path]
  | several {line : Nat} {entries : List (Node × Node)} {fields : List Field}
    (h : List.Forall₂ (FieldReading accepts) entries fields) :
    KeyReading (.mapping line entries) fields

end

/-- An output of a group. -/
def AccumulatorReading (d : Document) (p : Node × Node) (a : Accumulator) : Prop :=
  a.output = p.1.value ∧ ∃ line op operand, p.2 = .mapping line [(op, operand)] ∧ a.op = op.value ∧
    isReference a.op = true ∧ Reads d maxNesting operand a.value

/-- The scalar turns a field of a projection on or off. -/
def IsSwitch (node : Node) (on : Bool) : Prop :=
  ∃ line kind style s, node = .scalar line kind style s ∧
    (scalarData kind style s = .bool on ∨ scalarData kind style s = .int (if on then 1 else 0))

/-- The fields and the computed outputs of a projection. -/
inductive ProjectionReading (d : Document) :
    List (Node × Node) → List Field → List (Text × Expr) → Prop
  | nil : ProjectionReading d [] [] []
  | drop {k node : Node} {rest : List (Node × Node)} {fs : List Field} {es : List (Text × Expr)}
    (off : IsSwitch node false) (h : ProjectionReading d rest fs es) :
    ProjectionReading d ((k, node) :: rest) fs es
  | keep {k node : Node} {rest : List (Node × Node)} {fs : List Field} {es : List (Text × Expr)}
    (on : IsSwitch node true) (h : ProjectionReading d rest fs es) :
    ProjectionReading d ((k, node) :: rest) (.ofName k.value :: fs) es
  | rename {k node : Node} {path : Text} {rest : List (Node × Node)} {fs : List Field}
    {es : List (Text × Expr)} (plain : RefersTo IsUnmarked node path)
    (h : ProjectionReading d rest fs es) :
    ProjectionReading d ((k, node) :: rest) (.renamed k.value path :: fs) es
  | compute {k node : Node} {e : Expr} {rest : List (Node × Node)} {fs : List Field}
    {es : List (Text × Expr)} (read : Reads d maxNesting node e)
    (h : ProjectionReading d rest fs es) :
    ProjectionReading d ((k, node) :: rest) fs ((k.value, e) :: es)

section

variable (accepts : Node → Prop) (d : Document)

inductive StageReading : Node → Stage → Prop
  | group {line line' : Nat} {k key : Node} {entries : List (Node × Node)} {fields : List Field}
    {g : GroupStage} (name : k.value = text "$group") (found : argument? entries "_id" = some key)
    (h : KeyReading accepts key fields) (keys : g.keys = .ofList fields)
    (outputs : List.Forall₂ (AccumulatorReading d) (entries.filter fun (k, _) => !isGroupKey k)
      g.accumulators) :
    StageReading (.mapping line [(k, .mapping line' entries)]) (.group g)
  | project {line line' : Nat} {k : Node} {entries : List (Node × Node)} {fields : List Field}
    {p : ProjectStage} (name : k.value = text "$project") (included : p.included = .ofList fields)
    (h : ProjectionReading d entries fields p.computed) :
    StageReading (.mapping line [(k, .mapping line' entries)]) (.project p)
  | filter {line : Nat} {k body cond : Node} {e : Expr} (name : k.value = text "$match")
    (found : cond = body ∨
      ∃ line' k', body = .mapping line' [(k', cond)] ∧ k'.value = text "$expr")
    (read : Reads d maxNesting cond e) : StageReading (.mapping line [(k, body)]) (.filter (some e))

/-- What a definition compiles. -/
inductive BodyReading (entries : List (Node × Node)) : Body → Prop
  | expression {node : Node} {e : Expr} (found : argument? entries "expression" = some node)
    (alone : argument? entries "stages" = none) (read : Reads d (maxNesting + 1) node e) :
    BodyReading entries (.expression e)
  | stages {line : Nat} {items : List Node} {stages : List Stage}
    (found : argument? entries "stages" = some (.sequence line items))
    (h : List.Forall₂ (StageReading accepts d) items stages) : BodyReading entries (.stages stages)

/-- What a definition is read from. -/
def DefinitionReading (definition : Definition) : Prop :=
  ∃ line entries, d.root = .mapping line entries ∧
    InputReading accepts (argument? entries "input") definition.input ∧
    BodyReading accepts d entries definition.body

end

-- The scalars that are taken as paths: in declarations, and in keys of groups.
def inputTargets : Node → List Node
  | .sequence _ items => items
  | .mapping _ entries => entries.map (·.2)
  | _ => []

def keyTargets (node : Node) : List Node :=
  match node with
  | .mapping _ entries => entries.map (·.2)
  | node => if isNull node then [] else [node]

def stageTargets : Node → List Node
  | .mapping _ [(k, .mapping _ entries)] =>
    if k.value = text "$group" then (argument? entries "_id").elim [] keyTargets else []
  | _ => []

def targetNodes (d : Document) : List Node :=
  match d.root with
  | .mapping _ entries =>
    (argument? entries "input").elim [] inputTargets ++
      match argument? entries "stages" with
      | some (.sequence _ items) => items.flatMap stageTargets
      | _ => []
  | _ => []

section

variable {accepts : Node → Prop} {d : Document}

/-- Where every entry accepts its node, so does the whole list. -/
theorem FieldReading.accepted {entries : List (Node × Node)} {fields : List Field}
    (h : List.Forall₂ (FieldReading accepts) entries fields) :
    ∀ node ∈ entries.map (·.2), accepts node := by
  intro node hnode
  obtain ⟨p, hp, rfl⟩ := List.mem_map.mp hnode
  obtain ⟨f, -, path, -, hread⟩ := forall₂_mem_left h hp
  exact hread.2.2.2

theorem InputReading.accepted {arg : Option Node} {fields : Fields}
    (h : InputReading accepts arg fields) : ∀ node ∈ arg.elim [] inputTargets, accepts node := by
  cases h with
  | none => simp
  | names h =>
    intro node hnode
    obtain ⟨name, -, hread⟩ := forall₂_mem_left h hnode
    exact hread.2
  | targets h => exact FieldReading.accepted h

theorem KeyReading.accepted {key : Node} {fields : List Field} (h : KeyReading accepts key fields) :
    ∀ node ∈ keyTargets key, accepts node := by
  cases h with
  | absent hnull =>
    cases key with
    | mapping => cases hnull
    | scalar => simp [keyTargets, hnull]
    | sequence => cases hnull
    | backReference => cases hnull
  | single given h =>
    obtain ⟨⟨line, kind, style, rfl⟩, -, -, haccepts⟩ := h
    simpa [keyTargets, given] using haccepts
  | several h => exact FieldReading.accepted h

theorem StageReading.accepted {node : Node} {stage : Stage} (h : StageReading accepts d node stage) :
    ∀ target ∈ stageTargets node, accepts target := by
  cases h with
  | group name found h =>
    rw [stageTargets, if_pos name, found]
    exact h.accepted
  | project name =>
    rw [stageTargets, if_neg (by rw [name]; decide)]
    simp
  | @filter line k body cond e name found read =>
    cases body with
    | mapping =>
      rw [stageTargets, if_neg (by rw [name]; decide)]
      simp
    | scalar => simp [stageTargets]
    | sequence => simp [stageTargets]
    | backReference => simp [stageTargets]

theorem DefinitionReading.accepted {definition : Definition}
    (h : DefinitionReading accepts d definition) : ∀ node ∈ targetNodes d, accepts node := by
  obtain ⟨line, entries, hroot, input, body⟩ := h
  intro node hnode
  rw [targetNodes, hroot] at hnode
  rcases List.mem_append.mp hnode with hnode | hnode
  · exact input.accepted node hnode
  · generalize hbody : definition.body = b at body
    cases body with
    | expression found alone =>
      rw [alone] at hnode
      cases hnode
    | stages found h =>
      rw [found] at hnode
      obtain ⟨item, hitem, hnode⟩ := List.mem_flatMap.mp hnode
      obtain ⟨stage, -, hstage⟩ := forall₂_mem_left h hitem
      exact hstage.accepted node hnode

variable {other : Node → Prop}

theorem FieldReading.accept {entries : List (Node × Node)} {fields : List Field}
    (h : List.Forall₂ (FieldReading accepts) entries fields)
    (haccepts : ∀ node ∈ entries.map (·.2), other node) :
    List.Forall₂ (FieldReading other) entries fields := by
  refine forall₂_imp_of_mem_left h ?_
  rintro p hp f ⟨path, hf, scalar, given, plain, -⟩
  exact ⟨path, hf, scalar, given, plain, haccepts _ (List.mem_map_of_mem hp)⟩

theorem InputReading.accept {arg : Option Node} {fields : Fields}
    (h : InputReading accepts arg fields) (haccepts : ∀ node ∈ arg.elim [] inputTargets, other node) :
    InputReading other arg fields := by
  cases h with
  | none => exact .none
  | names h =>
    exact .names (forall₂_imp_of_mem_left h fun node hnode name hread =>
      ⟨hread.1, haccepts node hnode⟩)
  | targets h => exact .targets (FieldReading.accept h haccepts)

theorem KeyReading.accept {key : Node} {fields : List Field} (h : KeyReading accepts key fields)
    (haccepts : ∀ node ∈ keyTargets key, other node) : KeyReading other key fields := by
  cases h with
  | absent hnull => exact .absent hnull
  | single given h =>
    obtain ⟨⟨line, kind, style, rfl⟩, hpath, plain, -⟩ := h
    refine .single given ⟨⟨line, kind, style, rfl⟩, hpath, plain, haccepts _ ?_⟩
    simp [keyTargets, given]
  | several h => exact .several (FieldReading.accept h haccepts)

theorem StageReading.accept {node : Node} {stage : Stage} (h : StageReading accepts d node stage)
    (haccepts : ∀ target ∈ stageTargets node, other target) : StageReading other d node stage := by
  cases h with
  | group name found h keys outputs =>
    refine .group name found (h.accept ?_) keys outputs
    intro target htarget
    refine haccepts target ?_
    rw [stageTargets, if_pos name, found]
    exact htarget
  | project name included h => exact .project name included h
  | filter name found read => exact .filter name found read

theorem DefinitionReading.accept {definition : Definition}
    (h : DefinitionReading accepts d definition) (haccepts : ∀ node ∈ targetNodes d, other node) :
    DefinitionReading other d definition := by
  obtain ⟨line, entries, hroot, input, body⟩ := h
  rw [targetNodes, hroot] at haccepts
  obtain ⟨hinput, hstages⟩ := List.forall_mem_append.mp haccepts
  refine ⟨line, entries, hroot, input.accept hinput, ?_⟩
  generalize hbody : definition.body = b at body
  cases body with
  | expression found alone read => exact .expression found alone read
  | stages found h =>
    rw [found] at hstages
    refine .stages found (forall₂_imp_of_mem_left h ?_)
    intro item hitem stage hstage
    exact hstage.accept fun target htarget =>
      hstages target (List.mem_flatMap.mpr ⟨item, hitem, htarget⟩)

/-- The targets decide whether a definition that was read counts as read by another standard. -/
theorem DefinitionReading.accept_iff {definition : Definition}
    (h : DefinitionReading accepts d definition) :
    DefinitionReading other d definition ↔ ∀ node ∈ targetNodes d, other node :=
  ⟨DefinitionReading.accepted, h.accept⟩

theorem fieldPath?_refers {node : Node} {path : Text} (h : fieldPath? node = some path) :
    RefersTo (fun _ => True) node path := by
  obtain ⟨line, kind, style, rfl, given, plain⟩ := fieldPath?_eq_some h
  exact ⟨⟨line, kind, style, rfl⟩, given, plain, trivial⟩

theorem aliasedFields_reading {fault : Text → Node → Rejection} {entries : List (Node × Node)}
    {fields : List Field} (h : aliasedFields fault entries = .ok fields) :
    List.Forall₂ (FieldReading fun _ => True) entries fields := by
  induction entries generalizing fields with
  | nil =>
    cases h
    exact .nil
  | cons p rest ih =>
    obtain ⟨k, node⟩ := p
    rw [aliasedFields] at h
    split at h
    next => cases h
    next path hpath =>
      obtain ⟨fs, hfs, rfl⟩ := map_eq_ok.mp h
      exact .cons ⟨path, rfl, fieldPath?_refers hpath⟩ (ih hfs)

theorem readNames_reading {items : List Node} {names : List Text} (h : readNames items = .ok names) :
    List.Forall₂ (NameReading fun _ => True) items names := by
  induction items generalizing names with
  | nil =>
    cases h
    exact .nil
  | cons node rest ih =>
    unfold readNames at h
    split at h
    next line kind style b s =>
      obtain ⟨ns, hns, h⟩ := bind_eq_ok.mp h
      cases h
      refine .cons ⟨⟨line, kind, style, ?_⟩, trivial⟩ (ih hns)
      by_cases hb : b = Ascii.dollar
      · rw [if_pos hb, hb]
        exact .inl rfl
      · rw [if_neg hb]
        exact .inr rfl
    next => cases h

theorem readInput_reading {node : Node} {fields : Fields} (h : readInput node = .ok fields) :
    InputReading (fun _ => True) (some node) fields := by
  unfold readInput at h
  split at h
  next =>
    obtain ⟨names, hnames, rfl⟩ := map_eq_ok.mp h
    exact .names (readNames_reading hnames)
  next =>
    obtain ⟨fs, hfs, rfl⟩ := map_eq_ok.mp h
    exact .targets (aliasedFields_reading hfs)
  next => cases h

theorem readGroupKey_reading {place : Location} {node : Node} {fields : List Field}
    (h : readGroupKey place node = .ok fields) : KeyReading (fun _ => True) node fields := by
  unfold readGroupKey at h
  dsimp only at h
  change (if isNull node = true then _ else _) = _ at h
  split at h
  next hnull =>
    cases h
    exact .absent hnull
  next hnull =>
    split at h
    next path hpath =>
      cases h
      exact .single (by simpa using hnull) (fieldPath?_refers hpath)
    next =>
      split at h
      next => exact .several (aliasedFields_reading h)
      next => cases h

theorem argument?_eq_getLast? (entries : List (Node × Node)) (name : String) :
    argument? entries name =
      (entries.filter fun (k, _) => decide (k.value = text name)).getLast?.map (·.2) := by
  rw [argument?, ← List.head?_filter, List.filter_reverse, List.head?_reverse]

theorem readGroupKeys_reading {place : Location} {entries : List (Node × Node)} {fields : List Field}
    (h : readGroupKeys place entries = .ok fields) :
    ∃ key, argument? entries "_id" = some key ∧ KeyReading (fun _ => True) key fields := by
  obtain ⟨keys, hkeys, h⟩ := bind_eq_ok.mp h
  split at h
  next fs hlast =>
    cases h
    obtain ⟨⟨k, key⟩, hentry, hread⟩ := forall₂_getLast? (mapM_eq_ok.mp hkeys) hlast
    refine ⟨key, ?_, readGroupKey_reading hread⟩
    rw [argument?_eq_getLast?]
    exact congrArg (Option.map (·.2)) hentry
  next => cases h

theorem readAccumulators_reading {place : Location} {entries : List (Node × Node)}
    {g last : GroupStage} (h : readAccumulators d place g entries = .ok last)
    (valid : last.error = none) :
    ∃ added, last = { g with accumulators := g.accumulators ++ added } ∧
      List.Forall₂ (AccumulatorReading d) entries added := by
  induction entries generalizing g with
  | nil =>
    cases h
    exact ⟨[], by simp, .nil⟩
  | cons p rest ih =>
    obtain ⟨k, node⟩ := p
    unfold readAccumulators at h
    split at h
    next line op operand =>
      split at h
      next sigil =>
        obtain ⟨e, he, h⟩ := bind_eq_ok.mp h
        obtain ⟨added, rfl, hadded⟩ := ih h
        rcases g.accumulate_cases op.value (.expr e) k.value with ⟨fault, hstep⟩ | hstep
        · rw [hstep] at valid
          cases valid
        · obtain ⟨value, hvalue, -, -, hstep⟩ := hstep
          cases hvalue
          refine ⟨⟨op.value, k.value, e⟩ :: added, ?_, .cons ?_ hadded⟩
          · rw [hstep]
            simp
          · exact ⟨rfl, line, op, operand, rfl, rfl, sigil, readExpr_reads he⟩
      next => cases h
    next => cases h

theorem readGroup_reading {place : Location} {line : Nat} {k node : Node} {stage : Stage}
    (name : k.value = text "$group") (h : readGroup d place node = .ok stage) :
    StageReading (fun _ => True) d (.mapping line [(k, node)]) stage := by
  unfold readGroup at h
  split at h
  next entries =>
    obtain ⟨fields, hfields, h⟩ := bind_eq_ok.mp h
    obtain ⟨g, hg, h⟩ := bind_eq_ok.mp h
    split at h
    next => cases h
    next valid =>
      cases h
      obtain ⟨key, hfound, hkey⟩ := readGroupKeys_reading hfields
      obtain ⟨added, rfl, hadded⟩ := readAccumulators_reading hg valid
      exact .group name hfound hkey rfl hadded
  next => cases h

/-- What a key of a projection asks for, and the scalar that asks for it. -/
theorem selection_reading (name : Text) (node : Node) :
    (selection name node = .drop ∧ IsSwitch node false) ∨
      (selection name node = .keep (.ofName name) ∧ IsSwitch node true) ∨
      (∃ path, selection name node = .keep (.renamed name path) ∧ RefersTo IsUnmarked node path) ∨
      selection name node = .compute name node := by
  unfold selection
  split
  next line kind style s =>
    split
    next hdata => exact .inr (.inl ⟨rfl, line, kind, style, s, rfl, .inl hdata⟩)
    next hdata => exact .inl ⟨rfl, line, kind, style, s, rfl, .inl hdata⟩
    next hdata => exact .inr (.inl ⟨rfl, line, kind, style, s, rfl, .inr hdata⟩)
    next hdata => exact .inl ⟨rfl, line, kind, style, s, rfl, .inr hdata⟩
    next =>
      split
      next path hpath => exact .inr (.inr (.inl ⟨path, rfl, plainFieldPath?_eq_some hpath⟩))
      next => exact .inr (.inr (.inr rfl))
  next => exact .inr (.inr (.inr rfl))

theorem readComputed_reading {entries : List (Node × Node)} {computed : List (Text × Expr)}
    (h : readComputed d (entries.map fun (k, node) => selection k.value node) = .ok computed) :
    ProjectionReading d entries ((entries.map fun (k, node) => selection k.value node).filterMap
      fun s => match s with
        | .keep f => some f
        | _ => none) computed := by
  induction entries generalizing computed with
  | nil =>
    cases h
    exact .nil
  | cons p rest ih =>
    obtain ⟨k, node⟩ := p
    rw [List.map_cons] at h ⊢
    rcases selection_reading k.value node with ⟨hs, off⟩ | ⟨hs, on⟩ | ⟨path, hs, plain⟩ | hs
    · simp only [hs, readComputed, List.filterMap_cons] at h ⊢
      exact .drop off (ih h)
    · simp only [hs, readComputed, List.filterMap_cons] at h ⊢
      exact .keep on (ih h)
    · simp only [hs, readComputed, List.filterMap_cons] at h ⊢
      exact .rename plain (ih h)
    · simp only [hs, readComputed, List.filterMap_cons] at h ⊢
      obtain ⟨e, he, h⟩ := bind_eq_ok.mp h
      obtain ⟨es, hes, h⟩ := bind_eq_ok.mp h
      cases h
      exact .compute (readExpr_reads he) (ih hes)

theorem compute_cases (p : ProjectStage) (output : Text) (e : Expr) :
    (∃ fault, p.compute output (some e) = { p with error := some fault }) ∨
      (p.hasOutput output = false ∧
        p.compute output (some e) = { p with computed := p.computed ++ [(output, e)] }) := by
  unfold ProjectStage.compute
  split
  next fault hfault => exact .inl ⟨fault, by rw [← hfault]⟩
  next =>
    split
    next => exact .inl ⟨_, rfl⟩
    next =>
      dsimp only
      split
      next => exact .inl ⟨_, rfl⟩
      next hnew => exact .inr ⟨(Bool.not_eq_true _).mp hnew, rfl⟩

theorem foldl_compute {computed : List (Text × Expr)} {p : ProjectStage}
    (valid : (computed.foldl (fun (p : ProjectStage) (output, e) => p.compute output (some e))
      p).error = none) :
    computed.foldl (fun (p : ProjectStage) (output, e) => p.compute output (some e)) p =
      { p with computed := p.computed ++ computed } := by
  induction computed generalizing p with
  | nil => simp
  | cons q computed ih =>
    obtain ⟨output, e⟩ := q
    rw [List.foldl_cons] at valid ⊢
    have hrest := ih valid
    rw [hrest] at valid ⊢
    dsimp only at valid ⊢
    rcases compute_cases p output e with ⟨fault, hstep⟩ | ⟨-, hstep⟩
    · rw [hstep] at valid
      cases valid
    · rw [hstep]
      simp

theorem readProject_reading {place : Location} {line : Nat} {k node : Node} {stage : Stage}
    (name : k.value = text "$project") (h : readProject d place node = .ok stage) :
    StageReading (fun _ => True) d (.mapping line [(k, node)]) stage := by
  unfold readProject at h
  split at h
  next entries =>
    obtain ⟨computed, hcomputed, h⟩ := bind_eq_ok.mp h
    dsimp only at h
    split at h
    next => cases h
    next valid =>
      cases h
      rw [foldl_compute valid]
      exact .project name rfl (readComputed_reading hcomputed)
  next => cases h

theorem readFilter_reading {line : Nat} {k node : Node} {stage : Stage}
    (name : k.value = text "$match") (h : readFilter d node = .ok stage) :
    StageReading (fun _ => True) d (.mapping line [(k, node)]) stage := by
  obtain ⟨e, he, rfl⟩ := map_eq_ok.mp h
  refine .filter name ?_ (readExpr_reads he)
  split
  next line' k' inner =>
    split
    next hexpr => exact .inr ⟨line', k', rfl, hexpr⟩
    next => exact .inl rfl
  next => exact .inl rfl

theorem readStage_reading {index : Nat} {node : Node} {stage : Stage}
    (h : readStage d index node = .ok stage) : StageReading (fun _ => True) d node stage := by
  unfold readStage at h
  split at h
  next line k body =>
    dsimp only at h
    split at h
    next name => exact readGroup_reading name h
    next =>
      split at h
      next name => exact readProject_reading name h
      next =>
        split at h
        next name => exact readFilter_reading name h
        next => cases h
  next => cases h

theorem readStagesFrom_eq_ok {index : Nat} {items : List Node} {stages : List Stage}
    (h : readStagesFrom d index items = .ok stages) :
    List.Forall₂ (fun node stage => ∃ i, readStage d i node = .ok stage) items stages := by
  induction items generalizing index stages with
  | nil =>
    cases h
    exact .nil
  | cons node rest ih =>
    obtain ⟨stage, hstage, h⟩ := bind_eq_ok.mp h
    obtain ⟨others, hothers, h⟩ := bind_eq_ok.mp h
    cases h
    exact .cons ⟨index, hstage⟩ (ih hothers)

theorem readStages_eq_ok {node : Node} {stages : List Stage} (h : readStages d node = .ok stages) :
    ∃ line items, node = .sequence line items ∧
      List.Forall₂ (fun node stage => ∃ i, readStage d i node = .ok stage) items stages := by
  unfold readStages at h
  split at h
  next => cases h
  next line items _ =>
    split at h
    next => cases h
    next => exact ⟨line, items, rfl, readStagesFrom_eq_ok h⟩
  next => cases h

theorem argument?_cons (k node : Node) (rest : List (Node × Node)) (name : String) :
    argument? ((k, node) :: rest) name =
      (argument? rest name).or (if k.value = text name then some node else none) := by
  unfold argument?
  rw [List.reverse_cons, List.find?_append, Option.map_or]
  congr 1
  by_cases hk : k.value = text name
  · simp [hk]
  · simp [hk]

/-- The last entry of each name is what counts. -/
theorem readParts_reading {entries : List (Node × Node)} {parts last : Parts}
    (h : readParts parts entries = .ok last) :
    last.expression = (argument? entries "expression").or parts.expression ∧
      last.stages = (argument? entries "stages").or parts.stages ∧
      ((argument? entries "input" = none ∧ last.input = parts.input) ∨
        ∃ node, argument? entries "input" = some node ∧ readInput node = .ok last.input) := by
  induction entries generalizing parts with
  | nil =>
    cases h
    exact ⟨rfl, rfl, .inl ⟨rfl, rfl⟩⟩
  | cons p rest ih =>
    obtain ⟨k, node⟩ := p
    rw [readParts] at h
    simp only [argument?_cons]
    have hie : text "input" ≠ text "expression" := by decide
    have his : text "input" ≠ text "stages" := by decide
    have hes : text "expression" ≠ text "stages" := by decide
    split at h
    next hk =>
      obtain ⟨input, hinput, h⟩ := bind_eq_ok.mp h
      obtain ⟨hexpression, hstages, hrest⟩ := ih h
      simp only [hk, if_neg hie, if_neg his, if_true, Option.or_none]
      refine ⟨hexpression, hstages, .inr ?_⟩
      rcases hrest with ⟨hnone, heq⟩ | ⟨found, hsome, hread⟩
      · exact ⟨node, by rw [hnone, Option.none_or], heq ▸ hinput⟩
      · exact ⟨found, by rw [hsome, Option.some_or], hread⟩
    next hk =>
      split at h
      next hk' =>
        obtain ⟨hexpression, hstages, hrest⟩ := ih h
        simp only [hk', if_neg hie.symm, if_neg hes, if_true, Option.or_none]
        refine ⟨?_, hstages, hrest⟩
        rw [hexpression, Option.or_assoc, Option.some_or]
      next hk' =>
        split at h
        next hk'' =>
          obtain ⟨hexpression, hstages, hrest⟩ := ih h
          simp only [hk'', if_neg his.symm, if_neg hes.symm, if_true, Option.or_none]
          refine ⟨hexpression, ?_, hrest⟩
          rw [hstages, Option.or_assoc, Option.some_or]
        next => cases h

/-- Reads the definition that a document holds. -/
def ofDocument (d : Document) : Except Rejection Definition :=
  match d.root with
  | .mapping _ entries => do
    let parts ← readParts {} entries
    match parts.expression, parts.stages with
    | some _, some _ => .error { fault := .bothForms }
    | some node, none =>
      let e ← readRootExpr d node
      pure { input := parts.input, body := .expression e }
    | none, some node =>
      let stages ← readStages d node
      pure { input := parts.input, body := .stages stages }
    | none, none => .error { fault := .neitherForm }
  | root => .error (faultAt root .notMapping)

theorem parse_eq (source : Text) :
    parse source = readSource .definition source >>= ofDocument := rfl

/-- What a body is read from, given the parts that were found. -/
inductive BodyRead (d : Document) (parts : Parts) : Body → Prop
  | expression {node : Node} {e : Expr} (found : parts.expression = some node)
    (alone : parts.stages = none) (read : readRootExpr d node = .ok e) :
    BodyRead d parts (.expression e)
  | stages {node : Node} {stages : List Stage} (found : parts.stages = some node)
    (alone : parts.expression = none) (read : readStages d node = .ok stages) :
    BodyRead d parts (.stages stages)

theorem ofDocument_eq_ok {definition : Definition} (h : ofDocument d = .ok definition) :
    ∃ line entries parts, d.root = .mapping line entries ∧ readParts {} entries = .ok parts ∧
      definition.input = parts.input ∧ BodyRead d parts definition.body := by
  unfold ofDocument at h
  split at h
  next line entries hroot =>
    obtain ⟨parts, hparts, h⟩ := bind_eq_ok.mp h
    refine ⟨line, entries, parts, hroot, hparts, ?_⟩
    split at h
    next => cases h
    next node hnode hnone =>
      obtain ⟨e, he, h⟩ := bind_eq_ok.mp h
      cases h
      exact ⟨rfl, .expression hnode hnone he⟩
    next node hnone hnode =>
      obtain ⟨stages, hstages, h⟩ := bind_eq_ok.mp h
      cases h
      exact ⟨rfl, .stages hnode hnone hstages⟩
    next => cases h
  next => cases h

/-- A definition that is read is read by the relation. -/
theorem ofDocument_reading {definition : Definition} (h : ofDocument d = .ok definition) :
    DefinitionReading (fun _ => True) d definition := by
  obtain ⟨line, entries, parts, hroot, hparts, hinput, hbody⟩ := ofDocument_eq_ok h
  obtain ⟨hexpression, hstages, found⟩ := readParts_reading hparts
  rw [Option.or_none] at hexpression hstages
  refine ⟨line, entries, hroot, ?_, ?_⟩
  · rw [hinput]
    rcases found with ⟨hnone, heq⟩ | ⟨node, hsome, hread⟩
    · rw [hnone, heq]
      exact .none
    · rw [hsome]
      exact readInput_reading hread
  · generalize definition.body = body at hbody
    cases hbody with
    | expression found alone read =>
      exact .expression (hexpression ▸ found) (hstages ▸ alone) (readExpr_reads read)
    | stages found alone read =>
      obtain ⟨l, items, rfl, hitems⟩ := readStages_eq_ok read
      refine .stages (hstages ▸ found) (hitems.imp ?_)
      rintro node stage ⟨i, hstage⟩
      exact readStage_reading hstage

/-- The nodes that stages are read from. -/
def stageNodes (d : Document) : List Node :=
  match d.root with
  | .mapping _ entries =>
    match argument? entries "stages" with
    | some (.sequence _ items) => items
    | _ => []
  | _ => []

theorem stageNodes_eq {line line' : Nat} {entries : List (Node × Node)} {items : List Node}
    (hroot : d.root = .mapping line entries)
    (hstages : argument? entries "stages" = some (.sequence line' items)) :
    stageNodes d = items := by
  simp only [stageNodes, hroot, hstages]

theorem parse_reading {source : Text} {definition : Definition} (h : parse source = .ok definition) :
    ∃ d, readSource .definition source = .ok d ∧ DefinitionReading (fun _ => True) d definition := by
  obtain ⟨d, hd, h⟩ := bind_eq_ok.mp h
  exact ⟨d, hd, ofDocument_reading h⟩

/-- Where a formula is taken for a path. In a definition that is read, no field of an expression, no
source and no target of a projection comes from a scalar with a formula in it. Of the declared fields
and the keys of groups this holds exactly when none of their scalars has one. -/
theorem formula_taken_for_path_iff {source : Text} {definition : Definition}
    (h : parse source = .ok definition) :
    ∃ d, readSource .definition source = .ok d ∧ DefinitionReading (fun _ => True) d definition ∧
      (DefinitionReading IsUnmarked d definition ↔ ∀ node ∈ targetNodes d, IsUnmarked node) := by
  obtain ⟨d, hd, hread⟩ := parse_reading h
  exact ⟨d, hd, hread, hread.accept_iff⟩

end

/-- A declared field, and a formula where expressions stand. -/
def summedField : Text := text "input: \x7bx: $a.b\x7d\nexpression: $\x7bx + 1\x7d"

theorem summedField_unmarked :
    ∃ definition d, parse summedField = .ok definition ∧
      readSource .definition summedField = .ok d ∧ DefinitionReading IsUnmarked d definition := by
  have hparse : (parse summedField).isOk = true := by decide +kernel
  cases h : parse summedField with
  | error => rw [h] at hparse; cases hparse
  | ok definition =>
    obtain ⟨d, hd, -, hiff⟩ := formula_taken_for_path_iff h
    have unmarked : (readSource .definition summedField).toOption.all (fun d =>
        (targetNodes d).all fun node => !Text.includes Formula.opening node.value) = true := by
      decide +kernel
    rw [hd] at unmarked
    refine ⟨definition, d, rfl, hd, hiff.mpr ?_⟩
    simpa [Except.toOption, IsUnmarked] using unmarked

/-- A group whose key is a formula. -/
def formulaKey : Text := text "stages: [\x7b$group: \x7b_id: '$\x7ba.b\x7d'\x7d\x7d]"

/-- The keys of the groups among the stages. -/
def groupKeys (definition : Definition) : List (List Field) :=
  match definition.body with
  | .expression _ => []
  | .stages stages => stages.filterMap fun s =>
    match s with
    | .group g => some g.keys.toList
    | _ => none

/-- The formula ends up as the path of the key. -/
theorem formulaKey_taken_for_path :
    ∃ definition, parse formulaKey = .ok definition ∧
      groupKeys definition = [[⟨text "b\x7d", text "\x7ba.b\x7d"⟩]] := by
  have hkeys : (parse formulaKey).toOption.map groupKeys =
      some [[⟨text "b\x7d", text "\x7ba.b\x7d"⟩]] := by decide +kernel
  cases h : parse formulaKey with
  | error => rw [h] at hkeys; cases hkeys
  | ok definition =>
    rw [h] at hkeys
    exact ⟨definition, rfl, Option.some.inj hkeys⟩

end ScopedAggregation.Definition
