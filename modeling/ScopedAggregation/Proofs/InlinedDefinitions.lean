import ScopedAggregation.Definition.Failure
import ScopedAggregation.Proofs.AliasInlining

namespace ScopedAggregation

open Yaml (Node Document)

namespace GroupStage

variable {g g' : GroupStage}

theorem Interchangeable.hasOutput_eq (h : g.Interchangeable g') (output : Text) :
    g.hasOutput output = g'.hasOutput output := by
  have names : g.accumulators.map (·.output) = g'.accumulators.map (·.output) :=
    forall₂_map_eq h.accumulators fun _ _ ha => ha.2.1
  have same := congrArg (List.any · fun name => decide (name = output)) names
  rwa [List.any_map, List.any_map] at same

theorem Interchangeable.accumulate (h : g.Interchangeable g') {e e' : Expr}
    (he : e.Interchangeable e') (op output : Text) :
    (g.accumulate op (.expr e) output).Interchangeable (g'.accumulate op (.expr e') output) := by
  have fault : g.outputFault? op output = g'.outputFault? op output := by
    unfold outputFault?
    rw [h.hasOutput_eq, h.keys]
  unfold GroupStage.accumulate
  rw [h.error]
  split
  next => exact h
  next hvalid =>
    dsimp only [operandExpr]
    rw [fault]
    split
    next => exact ⟨h.keys, rfl, h.accumulators⟩
    next => exact ⟨h.keys, rfl, List.rel_append h.accumulators (.cons ⟨rfl, rfl, he⟩ .nil)⟩

end GroupStage

namespace ProjectStage

variable {p p' : ProjectStage}

theorem Interchangeable.hasOutput_eq (h : p.Interchangeable p') (output : Text) :
    p.hasOutput output = p'.hasOutput output := by
  have names : p.computed.map (·.1) = p'.computed.map (·.1) :=
    forall₂_map_eq h.computed fun _ _ hq => hq.1
  have same := congrArg (List.any · fun name => decide (name = output)) names
  rw [List.any_map, List.any_map] at same
  unfold hasOutput
  rw [h.included]
  exact congrArg (_ || ·) same

theorem Interchangeable.compute (h : p.Interchangeable p') {e e' : Expr}
    (he : e.Interchangeable e') (output : Text) :
    (p.compute output (some e)).Interchangeable (p'.compute output (some e')) := by
  unfold ProjectStage.compute
  rw [h.error, h.hasOutput_eq]
  split
  next => exact h
  next =>
    split
    next => exact ⟨h.included, rfl, h.computed⟩
    next =>
      dsimp only
      split
      next => exact ⟨h.included, rfl, h.computed⟩
      next => exact ⟨h.included, rfl, List.rel_append h.computed (.cons ⟨rfl, he⟩ .nil)⟩

theorem Interchangeable.computeAll (h : p.Interchangeable p') {es es' : List (Text × Expr)}
    (hes : List.Forall₂ EntryInterchangeable es es') :
    (es.foldl (fun (p : ProjectStage) (output, e) => p.compute output (some e)) p).Interchangeable
      (es'.foldl (fun (p : ProjectStage) (output, e) => p.compute output (some e)) p') := by
  induction hes generalizing p p' with
  | nil => exact h
  | @cons q q' _ _ hq _ ih =>
    obtain ⟨output, e⟩ := q
    obtain ⟨output', e'⟩ := q'
    obtain ⟨houtput, he⟩ := hq
    dsimp only at houtput
    subst houtput
    exact ih (h.compute he output)

end ProjectStage

namespace Definition

/-- The node can be a stage: it has one of the known names, and a body of the right shape. -/
def isStage : Node → Bool
  | .mapping _ [(k, body)] =>
    k.value = text "$match" || (k.value = text "$group" || k.value = text "$project") && isMapping body
  | _ => false

section

variable (R : Node → Node → Prop)

/-- Outputs of a group with related operands; or neither node is one. -/
inductive OutputInlined : Node → Node → Prop
  | operand {line : Nat} {op node node' : Node} (h : R node node') :
    OutputInlined (.mapping line [(op, node)]) (.mapping line [(op, node')])
  | misshapen {node node' : Node} (h : operand? node = none) (h' : operand? node' = none) :
    OutputInlined node node'

/-- Entries of a group: keys that are taken for the same fields, or outputs of the same name. -/
inductive GroupEntryInlined : Node × Node → Node × Node → Prop
  | key {k node node' : Node} (h : isGroupKey k = true)
    (same : ∀ place, (readGroupKey place node).toOption = (readGroupKey place node').toOption) :
    GroupEntryInlined (k, node) (k, node')
  | output {k node node' : Node} (other : isGroupKey k = false) (h : OutputInlined R node node') :
    GroupEntryInlined (k, node) (k, node')

/-- What is asked for in a projection: the same fields, or computed outputs of the same name. -/
inductive SelectionInlined : Selection → Selection → Prop
  | drop : SelectionInlined .drop .drop
  | keep (f : Field) : SelectionInlined (.keep f) (.keep f)
  | compute (output : Text) {node node' : Node} (h : R node node') :
    SelectionInlined (.compute output node) (.compute output node')

/-- Stages of the same kind over related expressions; or neither node is one. -/
inductive StageInlined : Node → Node → Prop
  | group {line line' : Nat} {k : Node} {entries entries' : List (Node × Node)}
    (name : k.value = text "$group") (h : List.Forall₂ (GroupEntryInlined R) entries entries') :
    StageInlined (.mapping line [(k, .mapping line' entries)])
      (.mapping line [(k, .mapping line' entries')])
  | project {line line' : Nat} {k : Node} {entries entries' : List (Node × Node)}
    (name : k.value = text "$project")
    (h : List.Forall₂ (SelectionInlined R) (selectionsOf entries) (selectionsOf entries')) :
    StageInlined (.mapping line [(k, .mapping line' entries)])
      (.mapping line [(k, .mapping line' entries')])
  | filter {line : Nat} {k body body' : Node} (name : k.value = text "$match")
    (h : R (conditionNode body) (conditionNode body')) :
    StageInlined (.mapping line [(k, body)]) (.mapping line [(k, body')])
  | misshapen {node node' : Node} (h : isStage node = false) (h' : isStage node' = false) :
    StageInlined node node'

inductive StagesInlined : Node → Node → Prop
  | sequence {line : Nat} {items items' : List Node}
    (h : List.Forall₂ (StageInlined R) items items') :
    StagesInlined (.sequence line items) (.sequence line items')
  | misshapen {node node' : Node} (h : isSequence node = false) (h' : isSequence node' = false) :
    StagesInlined node node'

/-- Parts of a definition; the same fields are declared. -/
inductive PartInlined : Node × Node → Node × Node → Prop
  | input {k node node' : Node} (key : k.value = text "input")
    (same : (readInput node).toOption = (readInput node').toOption) :
    PartInlined (k, node) (k, node')
  | expression {k node node' : Node} (key : k.value = text "expression") (h : R node node') :
    PartInlined (k, node) (k, node')
  | stages {k node node' : Node} (key : k.value = text "stages") (h : StagesInlined R node node') :
    PartInlined (k, node) (k, node')
  | unknown {k node node' : Node}
    (h : k.value ∉ [text "input", text "expression", text "stages"]) :
    PartInlined (k, node) (k, node')

inductive RootInlined : Node → Node → Prop
  | mapping {line : Nat} {entries entries' : List (Node × Node)}
    (h : List.Forall₂ (PartInlined R) entries entries') :
    RootInlined (.mapping line entries) (.mapping line entries')
  | misshapen {node node' : Node} (h : isMapping node = false) (h' : isMapping node' = false) :
    RootInlined node node'

end

/-- The second document is the first one with copies in the place of some aliases of expressions. The
anchored nodes that aliases still refer to may have been changed in the same way. -/
def InlinedDocument (d d' : Document) : Prop :=
  ∃ kept : Nat → Prop,
    (∀ target, kept target → ∃ m m', d.node? target = some m ∧ d'.node? target = some m' ∧
      Inlined d d' kept m m') ∧
    RootInlined (Inlined d d' kept) d.root d'.root

section

variable {d d' : Document} {R : Node → Node → Prop} {place : Location}

theorem readAccumulators_matches
    (alike : ∀ n n', R n n' → ReadAlike (readInnerExpr d) (readInnerExpr d') n n')
    {entries entries' : List (Node × Node)}
    (h : List.Forall₂ (fun p p' => p.1 = p'.1 ∧ OutputInlined R p.2 p'.2) entries entries')
    {g g' : GroupStage} (hg : g.Interchangeable g') :
    Matches TooDeep GroupStage.Interchangeable (readAccumulators d place g entries)
      (readAccumulators d' place g' entries') := by
  induction h generalizing g g' with
  | nil => exact .ok hg
  | @cons p p' _ _ hp _ ih =>
    obtain ⟨k, node⟩ := p
    obtain ⟨k', node'⟩ := p'
    obtain ⟨hkey, houtput⟩ := hp
    dsimp only at hkey houtput
    subst hkey
    unfold readAccumulators
    cases houtput with
    | @operand line op node node' h =>
      dsimp only
      split
      next => exact (alike _ _ h).bind fun e e' he => ih (hg.accumulate he op.value k.value)
      next => exact .failed _ _
    | misshapen h h' =>
      split
      next => cases h
      next =>
        split
        next => cases h'
        next => exact .failed _ _

theorem groupEntries_split {entries entries' : List (Node × Node)}
    (h : List.Forall₂ (GroupEntryInlined R) entries entries') :
    List.Forall₂ (fun p p' : Node × Node => ∀ place, (readGroupKey place p.2).toOption =
        (readGroupKey place p'.2).toOption)
      (entries.filter fun (k, _) => isGroupKey k) (entries'.filter fun (k, _) => isGroupKey k) ∧
      List.Forall₂ (fun p p' => p.1 = p'.1 ∧ OutputInlined R p.2 p'.2)
        (entries.filter fun (k, _) => !isGroupKey k)
        (entries'.filter fun (k, _) => !isGroupKey k) := by
  induction h with
  | nil => exact ⟨.nil, .nil⟩
  | cons hp _ ih =>
    obtain ⟨hkeys, houtputs⟩ := ih
    cases hp with
    | key hk same =>
      simp only [List.filter_cons, hk, if_true, Bool.not_true, Bool.false_eq_true, if_false]
      exact ⟨.cons same hkeys, houtputs⟩
    | output hk h =>
      simp only [List.filter_cons, hk, if_true, Bool.not_false, Bool.false_eq_true, if_false]
      exact ⟨hkeys, .cons ⟨rfl, h⟩ houtputs⟩

theorem readGroupKeys_matches {entries entries' : List (Node × Node)}
    (h : List.Forall₂ (fun p p' : Node × Node => ∀ place, (readGroupKey place p.2).toOption =
        (readGroupKey place p'.2).toOption)
      (entries.filter fun (k, _) => isGroupKey k) (entries'.filter fun (k, _) => isGroupKey k)) :
    Matches TooDeep Eq (readGroupKeys place entries) (readGroupKeys place entries') := by
  refine (Matches.mapM (h.imp fun _ _ same => .of_toOption (same place))).bind ?_
  intro keys keys' hkeys
  rw [List.forall₂_eq_eq_eq] at hkeys
  subst hkeys
  exact .refl _

theorem readGroup_matches
    (alike : ∀ n n', R n n' → ReadAlike (readInnerExpr d) (readInnerExpr d') n n')
    {line : Nat} {entries entries' : List (Node × Node)}
    (h : List.Forall₂ (GroupEntryInlined R) entries entries') :
    Matches TooDeep Stage.Interchangeable (readGroup d place (.mapping line entries))
      (readGroup d' place (.mapping line entries')) := by
  obtain ⟨hkeys, houtputs⟩ := groupEntries_split h
  rw [readGroup, readGroup]
  refine (readGroupKeys_matches hkeys).bind fun fields _ hfields => ?_
  subst hfields
  refine (readAccumulators_matches alike houtputs ⟨rfl, rfl, .nil⟩).bind fun g g' hg => ?_
  rw [hg.error]
  split
  next => exact .failed _ _
  next => exact .ok (.group hg)

theorem readComputed_matches
    (alike : ∀ n n', R n n' → ReadAlike (readInnerExpr d) (readInnerExpr d') n n')
    {ss ss' : List Selection} (h : List.Forall₂ (SelectionInlined R) ss ss') :
    Matches TooDeep (List.Forall₂ EntryInterchangeable) (readComputed d ss) (readComputed d' ss') := by
  induction h with
  | nil => exact .ok .nil
  | cons hs _ ih =>
    cases hs with
    | drop => exact ih
    | keep f => exact ih
    | compute output h =>
      exact (alike _ _ h).bind fun e e' he => ih.bind fun es es' hes =>
        .ok (List.Forall₂.cons ⟨rfl, he⟩ hes)

theorem included_eq {ss ss' : List Selection} (h : List.Forall₂ (SelectionInlined R) ss ss') :
    ss.filterMap Selection.kept? = ss'.filterMap Selection.kept? := by
  induction h with
  | nil => rfl
  | cons hs _ ih =>
    cases hs with
    | drop => exact ih
    | keep f => exact congrArg (f :: ·) ih
    | compute output h => exact ih

theorem readProject_eq {line : Nat} {entries : List (Node × Node)} :
    readProject d place (.mapping line entries) =
      readComputed d (selectionsOf entries) >>= fun computed =>
        let p := computed.foldl (fun (p : ProjectStage) (output, e) => p.compute output (some e))
          (ProjectStage.including ((selectionsOf entries).filterMap Selection.kept?))
        match p.error with
        | some e => .error ⟨.build e, place⟩
        | none => pure (.project p) := rfl

theorem readProject_matches
    (alike : ∀ n n', R n n' → ReadAlike (readInnerExpr d) (readInnerExpr d') n n')
    {line : Nat} {entries entries' : List (Node × Node)}
    (h : List.Forall₂ (SelectionInlined R) (selectionsOf entries) (selectionsOf entries')) :
    Matches TooDeep Stage.Interchangeable (readProject d place (.mapping line entries))
      (readProject d' place (.mapping line entries')) := by
  rw [readProject_eq, readProject_eq, included_eq h]
  refine (readComputed_matches alike h).bind fun es es' hes => ?_
  have hp := ProjectStage.Interchangeable.computeAll (p := .including
    ((selectionsOf entries').filterMap Selection.kept?)) ⟨rfl, rfl, .nil⟩ hes
  have error := hp.error
  generalize es.foldl _ _ = p at hp error
  generalize es'.foldl _ _ = p' at hp error
  dsimp only
  rw [error]
  split
  next => exact .failed _ _
  next => exact .ok (.project hp)

theorem readStage_misshapen {node : Node} (h : isStage node = false) (index : Nat) :
    ∃ r, readStage d index node = .error r := by
  unfold readStage
  split
  next line k body =>
    simp only [isStage, Bool.or_eq_false_iff, Bool.and_eq_false_iff, decide_eq_false_iff_not] at h
    obtain ⟨hmatch, hshape⟩ := h
    dsimp only
    split
    next hgroup =>
      cases body with
      | mapping => simp [hgroup, isMapping] at hshape
      | _ => exact ⟨_, rfl⟩
    next =>
      split
      next hproject =>
        cases body with
        | mapping => simp [hproject, isMapping] at hshape
        | _ => exact ⟨_, rfl⟩
      next => exact ⟨_, rfl⟩
  next => exact ⟨_, rfl⟩

theorem readStage_matches
    (alike : ∀ n n', R n n' → ReadAlike (readInnerExpr d) (readInnerExpr d') n n')
    {node node' : Node} (h : StageInlined R node node') (index : Nat) :
    Matches TooDeep Stage.Interchangeable (readStage d index node) (readStage d' index node') := by
  cases h with
  | group name h =>
    rw [readStage, readStage]
    rw [if_pos name, if_pos name]
    exact readGroup_matches alike h
  | project name h =>
    have other : text "$project" ≠ text "$group" := by decide
    rw [readStage, readStage, name]
    rw [if_neg other, if_neg other, if_pos rfl, if_pos rfl]
    exact readProject_matches alike h
  | filter name h =>
    have other : text "$match" ≠ text "$group" := by decide
    have other' : text "$match" ≠ text "$project" := by decide
    rw [readStage, readStage, name]
    rw [if_neg other, if_neg other, if_neg other', if_neg other', if_pos rfl, if_pos rfl]
    exact (alike _ _ h).map fun _ _ => .filter
  | misshapen h h' =>
    obtain ⟨r, hr⟩ := readStage_misshapen (d := d) h index
    obtain ⟨r', hr'⟩ := readStage_misshapen (d := d') h' index
    rw [hr, hr']
    exact .failed r r'

theorem readStagesFrom_matches
    (alike : ∀ n n', R n n' → ReadAlike (readInnerExpr d) (readInnerExpr d') n n')
    {items items' : List Node} (h : List.Forall₂ (StageInlined R) items items') (index : Nat) :
    Matches TooDeep (List.Forall₂ Stage.Interchangeable) (readStagesFrom d index items)
      (readStagesFrom d' index items') := by
  induction h generalizing index with
  | nil => exact .ok .nil
  | cons hs _ ih =>
    exact (readStage_matches alike hs index).bind fun _ _ hstage =>
      (ih (index + 1)).bind fun _ _ hrest => .ok (List.Forall₂.cons hstage hrest)

theorem readStages_misshapen {node : Node} (h : isSequence node = false) :
    readStages d node = .error (faultAt node .stagesShape) := by
  cases node with
  | sequence => cases h
  | _ => rfl

theorem readStages_matches
    (alike : ∀ n n', R n n' → ReadAlike (readInnerExpr d) (readInnerExpr d') n n')
    {node node' : Node} (h : StagesInlined R node node') :
    Matches TooDeep (List.Forall₂ Stage.Interchangeable) (readStages d node)
      (readStages d' node') := by
  cases h with
  | @sequence line items items' h =>
    have stages := readStagesFrom_matches alike h 0
    have length := h.length_eq
    cases h with
    | nil => exact .failed _ _
    | cons =>
      unfold readStages
      dsimp only
      rw [length]
      split
      next => exact .failed _ _
      next => exact stages
  | misshapen h h' =>
    rw [readStages_misshapen h, readStages_misshapen h']
    exact .failed _ _

structure PartsInlined (R : Node → Node → Prop) (parts parts' : Parts) : Prop where
  input : parts.input = parts'.input
  expression : Option.Rel R parts.expression parts'.expression
  stages : Option.Rel (StagesInlined R) parts.stages parts'.stages

theorem readParts_matches {entries entries' : List (Node × Node)}
    (h : List.Forall₂ (PartInlined R) entries entries') {parts parts' : Parts}
    (hparts : PartsInlined R parts parts') :
    Matches TooDeep (PartsInlined R) (readParts parts entries) (readParts parts' entries') := by
  induction h generalizing parts parts' with
  | nil => exact .ok hparts
  | cons hp _ ih =>
    have hei : text "expression" ≠ text "input" := by decide
    have hsi : text "stages" ≠ text "input" := by decide
    have hse : text "stages" ≠ text "expression" := by decide
    cases hp with
    | input key same =>
      rw [readParts, readParts, if_pos key, if_pos key]
      refine (Matches.of_toOption same).bind fun input _ hinput => ih ?_
      exact ⟨hinput, hparts.expression, hparts.stages⟩
    | expression key h =>
      rw [readParts, readParts, key, if_neg hei, if_neg hei, if_pos rfl, if_pos rfl]
      exact ih ⟨hparts.input, .some h, hparts.stages⟩
    | stages key h =>
      rw [readParts, readParts, key, if_neg hsi, if_neg hsi, if_neg hse, if_neg hse, if_pos rfl,
        if_pos rfl]
      exact ih ⟨hparts.input, hparts.expression, .some h⟩
    | unknown h =>
      simp only [List.mem_cons, List.not_mem_nil, not_or] at h
      obtain ⟨hinput, hexpression, hstages, -⟩ := h
      rw [readParts, readParts, if_neg hinput, if_neg hinput, if_neg hexpression,
        if_neg hexpression, if_neg hstages, if_neg hstages]
      exact .failed _ _

theorem ofDocument_misshapen (h : isMapping d.root = false) :
    ofDocument d = .error (faultAt d.root .notMapping) := by
  unfold ofDocument
  split
  next hroot =>
    rw [hroot] at h
    cases h
  next => rfl

theorem ofDocument_matches (h : InlinedDocument d d') :
    Matches TooDeep Definition.Interchangeable (ofDocument d) (ofDocument d') := by
  obtain ⟨kept, anchors, hroot⟩ := h
  have alike : ∀ levels n n', Inlined d d' kept n n' →
      ReadAlike (readExpr d levels) (readExpr d' levels) n n' :=
    fun _ _ _ => readExpr_inlined anchors le_rfl
  generalize hd : d.root = root at hroot
  generalize hd' : d'.root = root' at hroot
  cases hroot with
  | misshapen h h' =>
    rw [ofDocument_misshapen (hd ▸ h), ofDocument_misshapen (hd' ▸ h')]
    exact .failed _ _
  | mapping h =>
    unfold ofDocument
    rw [hd, hd']
    refine (readParts_matches h ⟨rfl, .none, .none⟩).bind fun parts parts' hparts => ?_
    obtain ⟨input, expression, stages⟩ := parts
    obtain ⟨input', expression', stages'⟩ := parts'
    obtain ⟨hinput, hexpression, hstages⟩ := hparts
    dsimp only at hinput hexpression hstages ⊢
    cases hexpression with
    | none =>
      cases hstages with
      | none => exact .failed _ _
      | some h =>
        exact (readStages_matches (alike maxNesting) h).bind fun _ _ hs =>
          .ok ⟨hinput, .stages hs⟩
    | some h =>
      cases hstages with
      | none =>
        exact (alike (maxNesting + 1) _ _ h).bind fun _ _ he => .ok ⟨hinput, .expression he⟩
      | some => exact .failed _ _

def documentOutcome (c : Compiler) (d : Document) : Except Failure Value :=
  match ofDocument d with
  | .ok definition => (definition.outcome c).1
  | .error r => .error (.rejected r)

theorem outcome_toOption (c : Compiler) (definition : Definition) :
    (definition.outcome c).1.toOption = (compile c definition []).1.toOption := by
  change ((compile c definition []).1.mapError _).toOption = _
  cases (compile c definition []).1 with
  | error => rfl
  | ok => rfl

/-- Aliases are transparent where expressions stand: unless nodes nest too deeply, a definition with
copies in the place of such aliases compiles to the same document, or fails as well. -/
theorem outcome_eq_of_inlined (h : InlinedDocument d d')
    (fits : ∀ r, ofDocument d = .error r → ¬ TooDeep r) (c : Compiler) :
    (documentOutcome c d).toOption = (documentOutcome c d').toOption := by
  have alike := ofDocument_matches h
  unfold documentOutcome
  generalize ofDocument d' = read' at alike
  cases hd : ofDocument d with
  | error r =>
    rw [hd] at alike
    cases alike with
    | cut hdeep => exact absurd hdeep (fits r hd)
    | failed => rfl
  | ok definition =>
    rw [hd] at alike
    cases alike with
    | ok hsame =>
      dsimp only
      rw [outcome_toOption, outcome_toOption]
      exact hsame.compile_endsAlike c [] []

end

def plainWord (s : String) : Node := .scalar 1 .str .plain (text s)

def plainInt (s : String) : Node := .scalar 1 .int .plain (text s)

def plainMapping (entries : List (String × Node)) : Node :=
  .mapping 1 (entries.map fun (k, node) => (plainWord k, node))

def firstAlias : Node := .backReference 1 (text "a") 0

def anchoredSum : Node :=
  plainMapping [("$add", .sequence 1 [plainWord "$x", plainInt "1"])]

/-- A sum, and an operator over the node that stands for it. -/
def sumTwice (node : Node) : Document :=
  ⟨plainMapping [("expression", .sequence 1 [anchoredSum, plainMapping [("$abs", node)]])],
    [(0, anchoredSum)]⟩

theorem sumTwice_copied :
    (documentOutcome {} (sumTwice firstAlias)).isOk = true ∧
      (documentOutcome {} (sumTwice firstAlias)).toOption =
        (documentOutcome {} (sumTwice anchoredSum)).toOption := by
  have sum : Inlined (sumTwice firstAlias) (sumTwice anchoredSum) (fun _ => False) anchoredSum
      anchoredSum :=
    .operator (by decide) (by decide) rfl (.sequence (.cons .scalar (.cons .scalar .nil)))
  have both : Inlined (sumTwice firstAlias) (sumTwice anchoredSum) (fun _ => False)
      (plainMapping [("$abs", firstAlias)]) (plainMapping [("$abs", anchoredSum)]) :=
    .operator (by decide) (by decide) rfl (.copied rfl sum)
  have inlined : InlinedDocument (sumTwice firstAlias) (sumTwice anchoredSum) := by
    refine ⟨fun _ => False, fun _ h => h.elim, .mapping (.cons (.expression rfl ?_) .nil)⟩
    exact .sequence (.cons sum (.cons both .nil))
  have given : (documentOutcome {} (sumTwice firstAlias)).isOk = true := by decide +kernel
  refine ⟨given, outcome_eq_of_inlined inlined ?_ {}⟩
  intro r hr
  rw [documentOutcome, hr] at given
  cases given

/-- The places where the reader looks at a node before any alias is followed. -/
inductive FramePlace where
  | operands
  | arguments
  | item
  | declared
  | key
  | input
  | inputName
  | stages
  | stage
  | body
  | groupKey
  | groupTarget
  | output
  | switch
  | condition

namespace FramePlace

/-- A node that is read differently when it stands in the place itself. -/
def anchored : FramePlace → Node
  | operands => .sequence 1 [plainWord "$x", plainWord "$y"]
  | arguments =>
    plainMapping [("input", plainWord "$x"), ("as", plainWord "y"), ("in", plainWord "$$y")]
  | item => plainWord "y"
  | declared => plainMapping [("y", plainWord "$x")]
  | key => plainWord "x"
  | input => .sequence 1 [plainWord "x"]
  | inputName => plainWord "x"
  | stages => .sequence 1 [plainMapping [("$match", plainWord "$x")]]
  | stage => plainMapping [("$match", plainWord "$x")]
  | body => plainMapping [("x", plainInt "1")]
  | groupKey => plainWord "$x"
  | groupTarget => plainWord "$x"
  | output => plainMapping [("$sum", plainInt "1")]
  | switch => plainInt "0"
  | condition => plainMapping [("$expr", plainWord "$x")]

/-- An expression behind the anchored node, which is quoted. -/
def withExpression (place : FramePlace) (e : Node) : List (String × Node) :=
  [("expression", .sequence 1 [plainMapping [("$literal", place.anchored)], e])]

/-- A stage behind one that holds the anchored node, which is quoted. -/
def withStage (place : FramePlace) (stage : Node) : List (String × Node) :=
  let quoted := plainMapping [("x", plainMapping [("$literal", place.anchored)])]
  [("stages", .sequence 1 [plainMapping [("$project", quoted)], stage])]

def definition (node : Node) : FramePlace → List (String × Node)
  | operands => operands.withExpression (plainMapping [("$add", node)])
  | arguments => arguments.withExpression (plainMapping [("$map", node)])
  | item => item.withExpression (plainMapping [("$map", plainMapping
      [("input", plainWord "$x"), ("as", node), ("in", plainWord "$$y")])])
  | declared => declared.withExpression
      (plainMapping [("$let", plainMapping [("vars", node), ("in", plainWord "$x")])])
  | key => key.withExpression (.mapping 1 [(node, plainWord "$x")])
  | input => input.withExpression (plainWord "$x") ++ [("input", node)]
  | inputName => inputName.withExpression (plainWord "$x") ++ [("input", .sequence 1 [node])]
  | stages => [("stages", stages.anchored), ("stages", node)]
  | stage => stage.withStage node
  | body => body.withStage (plainMapping [("$project", node)])
  | groupKey => groupKey.withStage (plainMapping [("$group", plainMapping [("_id", node)])])
  | groupTarget => groupTarget.withStage
      (plainMapping [("$group", plainMapping [("_id", plainMapping [("y", node)])])])
  | output => output.withStage
      (plainMapping [("$group", plainMapping [("_id", plainWord "$x"), ("y", node)])])
  | switch => switch.withStage
      (plainMapping [("$project", plainMapping [("x", plainInt "1"), ("y", node)])])
  | condition => condition.withStage (plainMapping [("$match", node)])

def document (node : Node) (place : FramePlace) : Document :=
  ⟨plainMapping (place.definition node), [(0, place.anchored)]⟩

end FramePlace

def shownOutcome (d : Document) : Option Text :=
  (documentOutcome {} d).toOption.bind (·.encode.toOption)

/-- In none of these places is an alias followed: its node makes a difference there. -/
theorem framePlace_not_transparent (place : FramePlace) :
    (documentOutcome {} (place.document firstAlias)).toOption ≠
      (documentOutcome {} (place.document place.anchored)).toOption := by
  have shown : shownOutcome (place.document firstAlias) ≠
      shownOutcome (place.document place.anchored) := by
    cases place with
    | _ => decide +kernel
  intro same
  exact shown (congrArg (·.bind (·.encode.toOption)) same)

/-- An alias of two operands is taken for a single one, which is a list. -/
theorem aliasedOperands_nested :
    (FramePlace.operands.document firstAlias).node? 0 = some FramePlace.operands.anchored ∧
      shownOutcome (FramePlace.operands.document firstAlias) =
        some (text "[\x7b\"$literal\":[\"$x\",\"$y\"]\x7d,\x7b\"$add\":[[\"$x\",\"$y\"]]\x7d]") ∧
      shownOutcome (FramePlace.operands.document FramePlace.operands.anchored) =
        some (text "[\x7b\"$literal\":[\"$x\",\"$y\"]\x7d,\x7b\"$add\":[\"$x\",\"$y\"]\x7d]") := by
  refine ⟨rfl, ?_, ?_⟩
  · decide +kernel
  · decide +kernel

end Definition

end ScopedAggregation
