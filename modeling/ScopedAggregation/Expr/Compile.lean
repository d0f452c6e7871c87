import ScopedAggregation.Expr
import ScopedAggregation.Scope

namespace ScopedAggregation

mutual

/-- Whether a value holds a string or key that a reader of the document would take for a
reference. -/
def Value.holdsReference : Value → Bool
  | .string s => isReference s
  | .list items => holdsReferenceItems items
  | .document entries => holdsReferenceEntries entries
  | _ => false

def holdsReferenceItems : List Value → Bool
  | [] => false
  | v :: vs => v.holdsReference || holdsReferenceItems vs

def holdsReferenceEntries : List (Text × Value) → Bool
  | [] => false
  | (k, v) :: es => isReference k || v.holdsReference || holdsReferenceEntries es

end

/-- A constant as a document; one that could be mistaken for a reference is marked as literal. -/
def renderLiteral (v : Value) : Value :=
  if v.holdsReference then Value.doc (text "$literal") v else v

/-- A field reference as a document string. -/
def renderField (ctx : Context) (path : Text) : Except CompileError Value :=
  match ctx.resolve path with
  | .ok r => .ok (.string r.reference)
  | .error e => .error (e.inNode (text "field reference"))

/-- An explicit variable reference; some scope has to bind it. -/
def renderVariable (ctx : Context) (name : Text) : Except CompileError Value :=
  match ctx.resolve name with
  | .error e => .error (e.inNode (text "variable reference"))
  | .ok r =>
    match r.kind with
    | .variable => .ok (.string r.reference)
    | .field => .error { cause := .unbound, name := name, node := text "variable reference" }

/-- The scope of the item of an iterating construct, which hides the document. -/
def itemScope (item : Text) (ctx : Context) : Context :=
  .child .synthetic (.ofNames [item]) ctx

/-- The scope of a fold: the accumulator and the current item, which hide the document. -/
def foldScope (ctx : Context) : Context :=
  .child .synthetic (.ofNames [text "value", text "this"]) ctx

/-- The scope of a body with bound variables, added to what is already visible. -/
def bindingScope (names : List Text) (ctx : Context) : Context :=
  .child .inheriting (.ofNames names) ctx

/-- A node below `depth` others is within the limit. -/
def checkDepth (limit depth : Nat) (node : Text) : Except CompileError Unit :=
  if depth < limit then .ok () else .error { cause := .tooDeep limit, node := node }

/-- A rendered part and the greatest depth of a node in it. -/
structure Rendered (α : Type) where
  value : α
  deepest : Nat

mutual

/-- Renders an expression that lies below `depth` others. -/
def Expr.render (limit : Nat) (ctx : Context) (depth : Nat) :
    Expr → Except CompileError (Rendered Value)
  | .absent => .ok ⟨.null, 0⟩
  | .field path => do
    checkDepth limit depth (text "field")
    let v ← renderField ctx path
    pure ⟨v, depth + 1⟩
  | .var name => do
    checkDepth limit depth (text "variable")
    let v ← renderVariable ctx name
    pure ⟨v, depth + 1⟩
  | .literal v => do
    checkDepth limit depth (text "literal")
    pure ⟨renderLiteral v, depth + 1⟩
  | .raw v => do
    checkDepth limit depth (text "document")
    pure ⟨v, depth + 1⟩
  | .operator op args => do
    checkDepth limit depth op
    let args ← renderAll limit ctx (depth + 1) args
    pure ⟨Value.doc op (.list args.value), max (depth + 1) args.deepest⟩
  | .array elements => do
    checkDepth limit depth (text "array")
    let items ← renderAll limit ctx (depth + 1) elements
    pure ⟨.list items.value, max (depth + 1) items.deepest⟩
  | .object entries => do
    checkDepth limit depth (text "object")
    let es ← renderEntries limit ctx (depth + 1) entries
    pure ⟨.document es.value, max (depth + 1) es.deepest⟩
  | .faulty error => do
    checkDepth limit depth (text "object")
    .error error
  | .map input item body => do
    checkDepth limit depth (text "$map")
    let source ← input.render limit ctx (depth + 1)
    let inner ← body.render limit (itemScope item ctx) (depth + 1)
    pure ⟨Value.doc (text "$map") (.document [(text "input", source.value),
      (text "as", .string item), (text "in", inner.value)]),
      max (depth + 1) (max source.deepest inner.deepest)⟩
  | .filter input item cond => do
    checkDepth limit depth (text "$filter")
    let source ← input.render limit ctx (depth + 1)
    let inner ← cond.render limit (itemScope item ctx) (depth + 1)
    pure ⟨Value.doc (text "$filter") (.document [(text "input", source.value),
      (text "as", .string item), (text "cond", inner.value)]),
      max (depth + 1) (max source.deepest inner.deepest)⟩
  | .reduce input initial body => do
    checkDepth limit depth (text "$reduce")
    let source ← input.render limit ctx (depth + 1)
    let start ← initial.render limit ctx (depth + 1)
    let inner ← body.render limit (foldScope ctx) (depth + 1)
    pure ⟨Value.doc (text "$reduce") (.document [(text "input", source.value),
      (text "initialValue", start.value), (text "in", inner.value)]),
      max (depth + 1) (max source.deepest (max start.deepest inner.deepest))⟩
  | .letIn vars body => do
    checkDepth limit depth (text "$let")
    let values ← renderEntries limit ctx (depth + 1) vars
    let inner ← body.render limit (bindingScope (vars.map (·.1)) ctx) (depth + 1)
    pure ⟨Value.doc (text "$let") (.document [(text "vars", .document values.value),
      (text "in", inner.value)]),
      max (depth + 1) (max values.deepest inner.deepest)⟩

/-- Renders the input of an iterating construct in the context of the construct itself. -/
def Source.render (limit : Nat) (ctx : Context) (depth : Nat) :
    Source → Except CompileError (Rendered Value)
  | .field path => do
    let v ← renderField ctx path
    pure ⟨v, 0⟩
  | .expr e => e.render limit ctx depth

def renderAll (limit : Nat) (ctx : Context) (depth : Nat) :
    List Expr → Except CompileError (Rendered (List Value))
  | [] => .ok ⟨[], 0⟩
  | e :: es => do
    let v ← e.render limit ctx depth
    let vs ← renderAll limit ctx depth es
    pure ⟨v.value :: vs.value, max v.deepest vs.deepest⟩

def renderEntries (limit : Nat) (ctx : Context) (depth : Nat) :
    List (Text × Expr) → Except CompileError (Rendered (List (Text × Value)))
  | [] => .ok ⟨[], 0⟩
  | (k, e) :: es => do
    let v ← e.render limit ctx depth
    let vs ← renderEntries limit ctx depth es
    pure ⟨(k, v.value) :: vs.value, max v.deepest vs.deepest⟩

end

/-- What a compiler can be set to: how deeply expressions may nest. -/
structure Compiler where
  maxDepth : Nat := 256
deriving DecidableEq, Repr

/-- A compiler with the given limit; a limit below one means the standard one. -/
def Compiler.ofLimit (n : Int) : Compiler := if n < 1 then {} else { maxDepth := n.toNat }

/-- The record of one compilation: the type of the root, if there was one, and either the depth of
the rendered tree or the error. -/
structure Attempt where
  node : Option Text
  outcome : Except CompileError Nat

/-- Compiles an expression; a missing one is an error. -/
def Compiler.compile (c : Compiler) (root : Option Expr) (ctx : Context) :
    Except CompileError Value × Attempt :=
  match root with
  | none => (.error { cause := .noRoot, node := text "compile" },
      ⟨none, .error { cause := .noRoot, node := text "compile" }⟩)
  | some .absent => (.error { cause := .noRoot, node := text "compile" },
      ⟨none, .error { cause := .noRoot, node := text "compile" }⟩)
  | some root =>
    match root.render c.maxDepth ctx 0 with
    | .ok r => (.ok r.value, ⟨some root.nodeType, .ok r.deepest⟩)
    | .error e => (.error e, ⟨some root.nodeType, .error e⟩)

/-- Computations that compile and keep a record of every compilation. -/
abbrev Compiling (ε : Type) := ExceptT ε (StateM (List Attempt))

/-- Compiles an expression and records it. -/
def Compiler.run (c : Compiler) (root : Option Expr) (ctx : Context) :
    Compiling CompileError Value := fun log =>
  let (result, attempt) := c.compile root ctx
  (result, log ++ [attempt])

end ScopedAggregation
