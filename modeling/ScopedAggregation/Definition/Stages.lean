import ScopedAggregation.Definition.Expression
import ScopedAggregation.Pipeline

namespace ScopedAggregation.Definition

open Yaml (Node Document)

/-- The last segment of a path. -/
def lastSegment (path : Text) : Text :=
  (path.reverse.takeWhile (· ≠ Ascii.dot)).reverse

/-- Fields by name from a mapping of names to field references. -/
def aliasedFields (fault : Text → Node → Rejection) :
    List (Node × Node) → Except Rejection (List Field)
  | [] => .ok []
  | (k, node) :: rest =>
    match fieldPath? node with
    | none => .error (fault k.value node)
    | some target => (aliasedFields fault rest).map (Field.renamed k.value target :: ·)

/-- The key of a group: null, a field, or a mapping of names to fields. -/
def readGroupKey (place : Location) (node : Node) : Except Rejection (List Field) :=
  let absent := match node with
    | .scalar _ kind style value =>
      match scalarData kind style value with
      | .null => true
      | _ => false
    | _ => false
  if absent then .ok []
  else match fieldPath? node with
    | some path => .ok [Field.renamed (lastSegment path) path]
    | none =>
      match node with
      | .mapping _ entries => aliasedFields (fun name _ => ⟨.groupKeyTarget name, place⟩) entries
      | _ => .error ⟨.groupKeyShape, place⟩

def isGroupKey (k : Node) : Bool := k.value = text "_id"

/-- The fields of the last key that is given. -/
def readGroupKeys (place : Location) (entries : List (Node × Node)) :
    Except Rejection (List Field) := do
  let keys ← (entries.filter fun (k, _) => isGroupKey k).mapM fun (_, node) =>
    readGroupKey place node
  match keys.getLast? with
  | some fields => pure fields
  | none => .error ⟨.noGroupKey, place⟩

/-- Adds the outputs of a group in order. -/
def readAccumulators (d : Document) (place : Location) :
    GroupStage → List (Node × Node) → Except Rejection GroupStage
  | g, [] => .ok g
  | g, (k, node) :: rest =>
    match node with
    | .mapping _ [(op, operand)] =>
      if Text.startsWith [Ascii.dollar] op.value then do
        let e ← readInnerExpr d operand
        readAccumulators d place (g.accumulate op.value (.expr e) k.value) rest
      else .error ⟨.accumulatorShape k.value, place⟩
    | _ => .error ⟨.accumulatorShape k.value, place⟩

def readGroup (d : Document) (place : Location) : Node → Except Rejection Stage
  | .mapping _ entries => do
    let keys ← readGroupKeys place entries
    let outputs := entries.filter fun (k, _) => !isGroupKey k
    let g ← readAccumulators d place (GroupStage.ofKeys keys) outputs
    match g.error with
    | some e => .error ⟨.build e, place⟩
    | none => pure (.group g)
  | _ => .error ⟨.groupShape, place⟩

/-- What a key of a projection asks for. -/
inductive Selection where
  | drop
  | keep (f : Field)
  | compute (output : Text) (node : Node)

/-- A true value or one includes a field and a false value or zero leaves it out; a field reference
includes that field under the name; anything else is computed. -/
def selection (name : Text) (node : Node) : Selection :=
  match node with
  | .scalar _ kind style value =>
    match scalarData kind style value with
    | .bool true => .keep (.ofName name)
    | .bool false => .drop
    | .int 1 => .keep (.ofName name)
    | .int 0 => .drop
    | _ =>
      match plainFieldPath? node with
      | some target => .keep (.renamed name target)
      | none => .compute name node
  | _ => .compute name node

/-- The computed outputs with their expressions. -/
def readComputed (d : Document) : List Selection → Except Rejection (List (Text × Expr))
  | [] => .ok []
  | .compute output node :: rest => do
    let e ← readInnerExpr d node
    let es ← readComputed d rest
    pure ((output, e) :: es)
  | _ :: rest => readComputed d rest

def readProject (d : Document) (place : Location) : Node → Except Rejection Stage
  | .mapping _ entries => do
    let selections := entries.map fun (k, node) => selection k.value node
    let computed ← readComputed d selections
    let included := selections.filterMap fun s => match s with
      | .keep f => some f
      | _ => none
    let p := computed.foldl (fun (p : ProjectStage) (output, e) => p.compute output (some e))
      (ProjectStage.including included)
    match p.error with
    | some e => .error ⟨.build e, place⟩
    | none => pure (.project p)
  | _ => .error ⟨.projectShape, place⟩

/-- A filter: the condition itself, or the condition under the key for expressions. -/
def readFilter (d : Document) (node : Node) : Except Rejection Stage :=
  let cond := match node with
    | .mapping _ [(k, inner)] => if k.value = text "$expr" then inner else node
    | node => node
  (readInnerExpr d cond).map fun e => .filter (some e)

def readStage (d : Document) (index : Nat) : Node → Except Rejection Stage
  | .mapping _ [(k, body)] =>
    let place := Location.namedStage index k.value
    if k.value = text "$group" then readGroup d place body
    else if k.value = text "$project" then readProject d place body
    else if k.value = text "$match" then readFilter d body
    else .error ⟨.unknownStage k.value, place⟩
  | _ => .error ⟨.stageShape, .stage index⟩

/-- Reads stages from the given index on. -/
def readStagesFrom (d : Document) : Nat → List Node → Except Rejection (List Stage)
  | _, [] => .ok []
  | index, node :: rest => do
    let stage ← readStage d index node
    let stages ← readStagesFrom d (index + 1) rest
    pure (stage :: stages)

def readStages (d : Document) (node : Node) : Except Rejection (List Stage) :=
  match node with
  | .sequence _ [] => .error (faultAt node .noStages)
  | .sequence _ items =>
    if maxStages < items.length then .error (faultAt node (.tooManyStages items.length))
    else readStagesFrom d 0 items
  | _ => .error (faultAt node .stagesShape)

end ScopedAggregation.Definition
