import ScopedAggregation.Definition.Error
import ScopedAggregation.Definition.Scalar
import ScopedAggregation.Expr.Build
import ScopedAggregation.Expr.Operators

namespace ScopedAggregation.Definition

open Yaml (Node Document)

def faultAt (node : Node) (fault : Fault) : Rejection := ⟨fault, .line node.line⟩

/-- The path of a scalar that refers to a field. -/
def fieldPath? : Node → Option Text
  | .scalar _ kind _ value =>
    if kind = .null then none
    else match value with
      | 0x24 :: b :: rest => if b = Ascii.dollar then none else some (b :: rest)
      | _ => none
  | _ => none

/-- A field reference that holds no formula. -/
def plainFieldPath? (node : Node) : Option Text :=
  if Text.includes Formula.opening node.value then none else fieldPath? node

/-- The expression of a string. -/
def stringExpr (node : Node) (s : Text) : Except Rejection Expr :=
  match Formula.parseTemplate s with
  | .error fault => .error (faultAt node (.formula fault))
  | .ok (some e) => .ok e
  | .ok none =>
    match s with
    | [0x24, 0x24] => .error (faultAt node .emptyVariable)
    | 0x24 :: 0x24 :: name => .ok (.var name)
    | [0x24] => .error (faultAt node .emptyField)
    | 0x24 :: path => .ok (.field path)
    | s => .ok (.literal (.string s))

/-- The expression of scalar data. -/
def scalarExpr (node : Node) : Plain → Except Rejection Expr
  | .string s => stringExpr node s
  | p => .ok (.literal p.toValue)

/-- The arguments of a binding construct by name; of equal names the last counts. -/
def bindingArguments (place : Location) (allowed : List String) :
    Node → Except Rejection (Text → Option Node)
  | .mapping _ entries =>
    match entries.find? fun (k, _) => !allowed.any fun a => text a = k.value with
    | some (k, _) => .error ⟨.unknownArgument k.value, place⟩
    | none => .ok fun name => (entries.reverse.find? fun (k, _) => k.value = name).map (·.2)
  | _ => .error ⟨.argumentShape, place⟩

/-- The text of an argument that has to be a scalar. -/
def scalarText : Option Node → Text
  | some (.scalar _ _ _ value) => value
  | _ => []

/-- Attributes a fault of building to the operator. -/
def built (place : Location) (r : Except CompileError Expr) : Except Rejection Expr :=
  r.mapError fun e => ⟨.build e, place⟩

/-- The reader of sub-expressions, one level deeper. -/
abbrev Inner := Node → Except Rejection Expr

namespace Inner

def optional (inner : Inner) : Option Node → Except Rejection (Option Expr)
  | none => .ok none
  | some node => (inner node).map some

/-- The input of an iterating construct: a field reference, or an expression. -/
def source (inner : Inner) : Option Node → Except Rejection (Option Source)
  | none => .ok none
  | some node =>
    match plainFieldPath? node with
    | some path => .ok (some (.field path))
    | none => (inner node).map fun e => some (.expr e)

def map (inner : Inner) (place : Location) (node : Node) : Except Rejection Expr := do
  let args ← bindingArguments place ["input", "as", "in"] node
  let input ← inner.source (args (text "input"))
  let body ← inner.optional (args (text "in"))
  built place (Expr.mapItems input (scalarText (args (text "as"))) body)

def filter (inner : Inner) (place : Location) (node : Node) : Except Rejection Expr := do
  let args ← bindingArguments place ["input", "as", "cond"] node
  let input ← inner.source (args (text "input"))
  let cond ← inner.optional (args (text "cond"))
  built place (Expr.filterItems input (scalarText (args (text "as"))) cond)

def reduce (inner : Inner) (place : Location) (node : Node) : Except Rejection Expr := do
  let args ← bindingArguments place ["input", "initialValue", "in"] node
  let input ← inner.source (args (text "input"))
  let initial ← inner.optional (args (text "initialValue"))
  let body ← inner.optional (args (text "in"))
  built place (Expr.reduceItems input initial body)

/-- The declarations of variables. -/
def bindings (inner : Inner) (place : Location) :
    Option Node → Except Rejection (List (Text × Option Expr))
  | none => .ok []
  | some (.mapping _ entries) =>
    entries.mapM fun (k, node) => (inner node).map fun e => (k.value, some e)
  | some _ => .error ⟨.variableShape, place⟩

def letIn (inner : Inner) (place : Location) (node : Node) : Except Rejection Expr := do
  let args ← bindingArguments place ["vars", "in"] node
  let vars ← inner.bindings place (args (text "vars"))
  let body ← inner.optional (args (text "in"))
  built place (Expr.define vars body)

/-- An operator with its arguments: the items of a sequence, or a single one. -/
def operator (inner : Inner) (place : Location) (op : Text) (node : Node) :
    Except Rejection Expr := do
  let args ← match node with
    | .sequence _ items => items.mapM inner
    | node => (inner node).map ([·])
  match arityOf? op with
  | some arity =>
    if arity.accepts args.length then .ok (.operator op args)
    else .error ⟨.argumentCount op args.length, place⟩
  | none => .ok (.operator op args)

/-- The entries of an object: no operator and no key twice among them. -/
def entries (inner : Inner) (seen : List Text) :
    List (Node × Node) → Except Rejection (List (Text × Expr))
  | [] => .ok []
  | (k, node) :: rest => do
    if Text.startsWith [Ascii.dollar] k.value then .error (faultAt k (.operatorAmongKeys k.value))
    else if seen.any (· = k.value) then .error (faultAt k (.repeatedKey k.value))
    else
      let e ← inner node
      let es ← inner.entries (k.value :: seen) rest
      pure ((k.value, e) :: es)

/-- A mapping: an operator, or an object. -/
def mapping (inner : Inner) (d : Document) (entries : List (Node × Node)) :
    Except Rejection Expr :=
  match entries with
  | [(k, node)] =>
    let op := k.value
    let place := Location.operator k.line op
    if !Text.startsWith [Ascii.dollar] op then object
    else if op = text "$literal" then .ok (.literal (dataOf d node).toValue)
    else if op = text "$map" then inner.map place node
    else if op = text "$filter" then inner.filter place node
    else if op = text "$reduce" then inner.reduce place node
    else if op = text "$let" then inner.letIn place node
    else inner.operator place op node
  | _ => object
where
  object : Except Rejection Expr := (inner.entries [] entries).map .object

end Inner

/-- Reads an expression that may nest `levels` deep. -/
def readExpr (d : Document) : Nat → Inner
  | 0, node => .error (faultAt node .tooDeep)
  | levels + 1, node =>
    match node with
    | .backReference _ _ target =>
      match d.node? target with
      | some node => readExpr d levels node
      | none => .error (faultAt node .tooDeep)
    | .scalar _ kind style value => scalarExpr node (scalarData kind style value)
    | .sequence _ items => (items.mapM (readExpr d levels)).map .array
    | .mapping _ entries => (readExpr d levels).mapping d entries

/-- Reads an expression at the top of a document. -/
def readRootExpr (d : Document) : Inner := readExpr d (maxNesting + 1)

/-- Reads an expression inside a stage, which counts as one level. -/
def readInnerExpr (d : Document) : Inner := readExpr d maxNesting

end ScopedAggregation.Definition
