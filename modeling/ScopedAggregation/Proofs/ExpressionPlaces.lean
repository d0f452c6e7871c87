import ScopedAggregation.Proofs.DefinitionReading

namespace ScopedAggregation.Definition

open Yaml (Node)

/-- The arguments of a construct that are read as expressions; other operators have none. -/
def constructArguments (op : Text) : List String :=
  if op = text "$map" then ["input", "in"]
  else if op = text "$filter" then ["input", "cond"]
  else if op = text "$reduce" then ["input", "initialValue", "in"]
  else if op = text "$let" then ["in"]
  else []

/-- The variables that the arguments of a construct declare. -/
def declarations? (op : Text) (args : List (Node × Node)) : Option (List (Node × Node)) :=
  if op = text "$let" then
    match argument? args "vars" with
    | some (.mapping _ vars) => some vars
    | _ => none
  else none

/-- The computed output that a key of a projection asks for, with its node. -/
def Selection.computed? : Selection → Option (Text × Node)
  | .compute output node => some (output, node)
  | _ => none

def Selection.kept? : Selection → Option Field
  | .keep f => some f
  | _ => none

def selectionsOf (entries : List (Node × Node)) : List Selection :=
  entries.map fun (k, node) => selection k.value node

/-- The outputs that a projection computes. -/
def computedOutputs (entries : List (Node × Node)) : List (Text × Node) :=
  (selectionsOf entries).filterMap Selection.computed?

def entriesOf : Node → List (Node × Node)
  | .mapping _ entries => entries
  | _ => []

/-- The operand of an accumulator. -/
def operand? : Node → Option Node
  | .mapping _ [(_, operand)] => some operand
  | _ => none

/-- The condition of a filter. -/
def conditionNode (node : Node) : Node :=
  match node with
  | .mapping _ [(k, inner)] => if k.value = text "$expr" then inner else node
  | node => node

/-- The nodes in a stage that are read as expressions. -/
def stageExpressions : Node → List Node
  | .mapping _ [(k, body)] =>
    if k.value = text "$group" then
      ((entriesOf body).filter fun (k, _) => !isGroupKey k).filterMap (operand? ·.2)
    else if k.value = text "$project" then (computedOutputs (entriesOf body)).map (·.2)
    else if k.value = text "$match" then [conditionNode body]
    else []
  | _ => []

theorem constructArguments_of_ordinary {op : Text}
    (ordinary : reservedOperators.contains op = false) : constructArguments op = [] := by
  simp only [reservedOperators, List.contains_eq_mem, List.mem_cons, List.not_mem_nil,
    decide_eq_false_iff_not, not_or] at ordinary
  simp [constructArguments, ordinary]

end ScopedAggregation.Definition
