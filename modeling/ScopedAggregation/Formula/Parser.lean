import ScopedAggregation.Expr.Build
import ScopedAggregation.Expr.Operators
import ScopedAggregation.Formula.Token

namespace ScopedAggregation.Formula

/-- The greatest length of one formula, in bytes. -/
def maxLength : Nat := 4096

/-- How deeply brackets and calls may nest. -/
def maxNesting : Nat := 64

/-- Why a text is no formula. -/
inductive Fault where
  | tooLong
  | lexical (fault : LexicalFault)
  | trailing (found : Text) (pos : Nat)
  | tooNested (pos : Nat)
  | unexpected (found source : Text) (pos : Nat)
  | wanted (wanted found : Text) (pos : Nat)
  | wantedKey (found : Text) (pos : Nat)
  | within (what : Text) (fault : Fault)
  | argumentCount (name : Text) (count pos : Nat)
  | unknownFunction (name : Text) (pos : Nat)
  | arity (name : Text) (count : Nat)
  | noVariables (pos : Nat)
  | noItemName (name : Text)
  | mapLiteral (pos : Nat) (error : CompileError)
  | build (error : CompileError)
  | openExpression
  | inExpression (source : Text) (fault : Fault)
deriving Repr

namespace Fault

open LexicalFault (atPosition)

def message : Fault → Text
  | .tooLong =>
    text "expression exceeds maximum length of " ++ Text.ofNat maxLength ++ text " characters"
  | .lexical fault => text "lexer error: " ++ fault.message
  | .trailing found pos => text "unexpected token " ++ found ++ atPosition pos
  | .tooNested pos =>
    text "expression nesting exceeds " ++ Text.ofNat maxNesting ++ text " levels" ++ atPosition pos
  | .unexpected found source pos =>
    text "unexpected token " ++ found ++ text " (" ++ Text.quoted source ++ text ")"
      ++ atPosition pos
  | .wanted what found pos =>
    text "expected " ++ what ++ text ", got " ++ found ++ atPosition pos
  | .wantedKey found pos => text "expected map key, got " ++ found ++ atPosition pos
  | .within what fault => what ++ text ": " ++ fault.message
  | .argumentCount name count pos =>
    name ++ text " expects 3 arguments, got " ++ Text.ofNat count ++ atPosition pos
  | .unknownFunction name pos => text "unknown function " ++ Text.quoted name ++ atPosition pos
  | .arity name count =>
    name ++ text " does not accept " ++ Text.ofNat count ++ text " argument(s)"
  | .noVariables pos => text "let expects a map of variables" ++ atPosition pos
  | .noItemName name => name ++ text " expects a bare item name as its second argument"
  | .mapLiteral pos error => text "map literal" ++ atPosition pos ++ text ": " ++ error.message
  | .build error => error.message
  | .openExpression => text "unmatched $\x7b in string"
  | .inExpression source fault =>
    text "error in expression $\x7b" ++ source ++ text "\x7d: " ++ fault.message

/-- The error of building behind a fault, if there is one. -/
def compileError? : Fault → Option CompileError
  | .mapLiteral _ error => some error
  | .build error => some error
  | .within _ fault => fault.compileError?
  | .inExpression _ fault => fault.compileError?
  | _ => none

end Fault

/-- What was read from the beginning of a list of words, and the words left. -/
abbrev Read (α : Type) := α × List Token

/-- A way to read an expression. -/
abbrev Rule := List Token → Except Fault (Read Expr)

/-- The next word; behind the last one there is only the end. -/
def current (ts : List Token) : Token := ts.headD ⟨.eof, [], 0⟩

/-- Takes a word of the given class. -/
def take (l : Lexeme) (ts : List Token) : Except Fault (Read Unit) :=
  if (current ts).lexeme = l then .ok ((), ts.tail)
  else .error (.wanted l.className (current ts).lexeme.className (current ts).pos)

/-- Names what was being read in a fault. -/
def reading {α : Type} (what : String) : Except Fault (Read α) → Except Fault (Read α)
  | .ok r => .ok r
  | .error fault => .error (.within (text what) fault)

/-- Makes a failure to build a fault. -/
def built (e : Except CompileError Expr) (ts : List Token) : Except Fault (Read Expr) :=
  match e with
  | .ok e => .ok (e, ts)
  | .error error => .error (.build error)

/-- The operands that follow, each behind a word `l`. -/
def operands (l : Lexeme) (rule : Rule) : Nat → List Token → Except Fault (Read (List Expr))
  | 0, ts => .ok ([], ts)
  | n + 1, ts =>
    if (current ts).lexeme = l then do
      let (e, ts) ← rule ts.tail
      let (es, ts) ← operands l rule n ts
      pure (e :: es, ts)
    else .ok ([], ts)

/-- A chain of one operator, which becomes one node. -/
def chain (l : Lexeme) (op : String) (rule : Rule) : Rule := fun ts => do
  let (e, ts) ← rule ts
  let (es, ts) ← operands l rule ts.length ts
  if es.isEmpty then pure (e, ts) else pure (.operator (text op) (e :: es), ts)

/-- The operators that join terms to the left, continued from `left`. -/
def joinLeft (sign : Lexeme → Option String) (rule : Rule) : Nat → Expr → Rule
  | 0, left, ts => .ok (left, ts)
  | n + 1, left, ts =>
    match sign (current ts).lexeme with
    | none => .ok (left, ts)
    | some op => do
      let (right, ts) ← rule ts.tail
      joinLeft sign rule n (.operator (text op) [left, right]) ts

/-- Terms joined to the left. -/
def leftChain (sign : Lexeme → Option String) (rule : Rule) : Rule := fun ts => do
  let (left, ts) ← rule ts
  joinLeft sign rule ts.length left ts

/-- The segments of a path after its first one. -/
def pathAfter : Nat → Text → List Token → Except Fault (Read Text)
  | 0, path, ts => .ok (path, ts)
  | n + 1, path, ts =>
    if (current ts).lexeme = .dot then
      match (current ts.tail).lexeme with
      | .ident name => pathAfter n (path ++ [Ascii.dot] ++ name) ts.tail.tail
      | other =>
        .error (.within (text "expected field name after '.'")
          (.wanted (text "IDENT") other.className (current ts.tail).pos))
    else .ok (path, ts)

/-- The comma before every element of a list but the first. -/
def separator (first : Bool) (what : String) (ts : List Token) : Except Fault (Read Unit) :=
  if first then .ok ((), ts) else reading what (take .comma ts)

/-- The items of a list up to its closing word; all but the first follow a comma. -/
def itemsUntil {α : Type} (close : Lexeme) (what : String)
    (item : List Token → Except Fault (Read α)) :
    Nat → Bool → List Token → Except Fault (Read (List α))
  | 0, _, ts => .ok ([], ts)
  | n + 1, first, ts =>
    if (current ts).lexeme = close then .ok ([], ts)
    else do
      let ((), ts) ← separator first what ts
      let (a, ts) ← item ts
      let (as, ts) ← itemsUntil close what item n false ts
      pure (a :: as, ts)

/-- A bracketed list of expressions. -/
def bracketed (opening closing : Lexeme) (rule : Rule) (ts : List Token) :
    Except Fault (Read (List Expr)) := do
  let ((), ts) ← take opening ts
  let (es, ts) ← itemsUntil closing "expected ','" rule (ts.length + 1) true ts
  let ((), ts) ← take closing ts
  pure (es, ts)

/-- The key of an entry: a name or a string. -/
def entryKey (ts : List Token) : Except Fault (Read Text) :=
  match (current ts).lexeme with
  | .ident name => .ok (name, ts.tail)
  | .string s => .ok (s, ts.tail)
  | other => .error (.wantedKey other.className (current ts).pos)

/-- An entry of a map: a key, a colon and an expression. -/
def entry (rule : Rule) (ts : List Token) : Except Fault (Read (Text × Expr)) := do
  let (key, ts) ← entryKey ts
  let ((), ts) ← reading "expected ':' in map literal" (take .colon ts)
  let (e, ts) ← rule ts
  pure ((key, e), ts)

/-- A map from names to expressions, between braces. -/
def mapEntries (rule : Rule) (ts : List Token) : Except Fault (Read (List (Text × Expr))) := do
  let ((), ts) ← take .openBrace ts
  let (es, ts) ←
    itemsUntil .closeBrace "expected ',' in map literal" (entry rule) (ts.length + 1) true ts
  let ((), ts) ← reading "expected '\x7d'" (take .closeBrace ts)
  pure (es, ts)

/-- Variables between braces and a body, between parentheses. -/
def letCall (rule : Rule) (ts : List Token) : Except Fault (Read Expr) := do
  let ((), ts) ← take .openParen ts
  if (current ts).lexeme = .openBrace then
    let (vars, ts) ← mapEntries rule ts
    let ((), ts) ← reading "let expects a body expression" (take .comma ts)
    let (body, ts) ← rule ts
    let ((), ts) ← reading "expected ')'" (take .closeParen ts)
    built (Expr.define (vars.map fun (name, e) => (name, some e)) (some body)) ts
  else .error (.noVariables (current ts).pos)

/-- The array input: a field stays a field path. -/
def inputOf : Expr → Source
  | .field path => .field path
  | e => .expr e

/-- The bare name of the item variable. -/
def itemName (kind : Text) : Expr → Except Fault Text
  | .field path => if path.any (· = Ascii.dot) then .error (.noItemName kind) else .ok path
  | _ => .error (.noItemName kind)

/-- The three constructs that visit every item of an array. -/
def iteration (name : Text) (input second body : Expr) (ts : List Token) :
    Except Fault (Read Expr) :=
  if name = text "reduce" then
    built (Expr.reduceItems (some (inputOf input)) (some second) (some body)) ts
  else do
    let item ← itemName name second
    if name = text "map" then built (Expr.mapItems (some (inputOf input)) item (some body)) ts
    else built (Expr.filterItems (some (inputOf input)) item (some body)) ts

/-- A call; the name has been read and the parenthesis comes next. -/
def call (rule : Rule) (name : Text) (pos : Nat) (ts : List Token) : Except Fault (Read Expr) :=
  if name = text "let" then letCall rule ts
  else if name = text "map" || name = text "filter" || name = text "reduce" then do
    let (args, ts) ← bracketed .openParen .closeParen rule ts
    match args with
    | [input, second, body] => iteration name input second body ts
    | _ => .error (.argumentCount name args.length pos)
  else
    match operatorNamed? name with
    | none => .error (.unknownFunction name pos)
    | some arity => do
      let (args, ts) ← bracketed .openParen .closeParen rule ts
      if arity.accepts args.length then pure (.operator arity.op args, ts)
      else .error (.arity name args.length)

/-- Constants, paths, variables and bracketed forms. -/
def primary (rule : Rule) (ts : List Token) : Except Fault (Read Expr) :=
  let token := current ts
  match token.lexeme with
  | .int n => .ok (.literal (.int n), ts.tail)
  | .float x => .ok (.literal (Value.ofDouble x), ts.tail)
  | .string s => .ok (.literal (.string s), ts.tail)
  | .trueWord => .ok (.literal (.bool true), ts.tail)
  | .falseWord => .ok (.literal (.bool false), ts.tail)
  | .nullWord => .ok (.literal .null, ts.tail)
  | .ident name => do
    let (path, ts) ← pathAfter ts.length name ts.tail
    pure (.field path, ts)
  | .variable name => do
    let (path, ts) ← pathAfter ts.length name ts.tail
    pure (.var path, ts)
  | .openParen => do
    let (e, ts) ← rule ts.tail
    let ((), ts) ← reading "expected ')'" (take .closeParen ts)
    pure (e, ts)
  | .openBracket => do
    let (es, ts) ← bracketed .openBracket .closeBracket rule ts
    pure (.array es, ts)
  | .openBrace => do
    let (entries, ts) ← mapEntries rule ts
    match Expr.objectOf (entries.map (·.1)) (entries.map fun (_, e) => some e) with
    | .faulty error => .error (.mapLiteral token.pos error)
    | e => pure (e, ts)
  | other => .error (.unexpected other.className token.source token.pos)

/-- The indexes that follow an expression. -/
def indexed (rule : Rule) : Nat → Expr → Rule
  | 0, e, ts => .ok (e, ts)
  | n + 1, e, ts =>
    if (current ts).lexeme = .openBracket then do
      let (i, ts) ← rule ts.tail
      let ((), ts) ← reading "expected ']'" (take .closeBracket ts)
      indexed rule n (.operator (text "$arrayElemAt") [e, i]) ts
    else .ok (e, ts)

/-- A call or a primary expression; a name before a parenthesis is always a call. -/
def atom (rule : Rule) : Rule := fun ts =>
  match (current ts).lexeme, (current ts.tail).lexeme with
  | .ident name, .openParen => call rule name (current ts).pos ts.tail
  | _, _ => primary rule ts

/-- A call or a primary expression, with the indexes after it. -/
def operand (rule : Rule) : Rule := fun ts => do
  let (e, ts) ← atom rule ts
  indexed rule ts.length e ts

/-- Signs before an operand; a sign before a number makes a negative number. -/
def signed (rule : Rule) : Rule
  | [] => operand rule []
  | t :: ts =>
    if t.lexeme = .minus then
      match (current ts).lexeme with
      | .int n => .ok (.literal (.int (-n)), ts.tail)
      | .float x => .ok (.literal (Value.ofDouble x.neg), ts.tail)
      | _ => do
        let (e, ts) ← signed rule ts
        pure (.operator (text "$multiply") [.literal (.int (-1)), e], ts)
    else operand rule (t :: ts)

def productSign : Lexeme → Option String
  | .star => some "$multiply"
  | .slash => some "$divide"
  | .percent => some "$mod"
  | _ => none

def sumSign : Lexeme → Option String
  | .plus => some "$add"
  | .minus => some "$subtract"
  | _ => none

def product (rule : Rule) : Rule := leftChain productSign (signed rule)

def sum (rule : Rule) : Rule := leftChain sumSign (product rule)

def comparisonSign : Lexeme → Option String
  | .equal => some "$eq"
  | .notEqual => some "$ne"
  | .less => some "$lt"
  | .greater => some "$gt"
  | .lessEqual => some "$lte"
  | .greaterEqual => some "$gte"
  | _ => none

/-- A sum, or two sums compared, or one looked up in the other. -/
def comparison (rule : Rule) : Rule := fun ts => do
  let (left, ts) ← sum rule ts
  match comparisonSign (current ts).lexeme with
  | some op => do
    let (right, ts) ← sum rule ts.tail
    pure (.operator (text op) [left, right], ts)
  | none =>
    match (current ts).lexeme, (current ts.tail).lexeme with
    | .inWord, _ => do
      let (right, ts) ← sum rule ts.tail
      pure (.operator (text "$in") [left, right], ts)
    | .notWord, .inWord => do
      let (right, ts) ← sum rule ts.tail.tail
      pure (.operator (text "$not") [.operator (text "$in") [left, right]], ts)
    | _, _ => pure (left, ts)

/-- Negations before a comparison. -/
def negation (rule : Rule) : Rule
  | [] => comparison rule []
  | t :: ts =>
    if t.lexeme = .notWord && (current ts).lexeme ≠ .inWord then do
      let (e, ts) ← negation rule ts
      pure (.operator (text "$not") [e], ts)
    else comparison rule (t :: ts)

def conjunction (rule : Rule) : Rule := chain .andWord "$and" (negation rule)

def disjunction (rule : Rule) : Rule := chain .orWord "$or" (conjunction rule)

/-- An expression that may nest the given number of levels. -/
def expression : Nat → Rule
  | 0, ts => .error (.tooNested (current ts).pos)
  | n + 1, ts => disjunction (expression n) ts

/-- Reads all words as one expression. -/
def parseTokens (ts : List Token) : Except Fault Expr := do
  let (e, ts) ← expression maxNesting ts
  if (current ts).lexeme = .eof then pure e
  else .error (.trailing (current ts).lexeme.className (current ts).pos)

/-- Reads a text as a formula. -/
def parse (s : Text) : Except Fault Expr :=
  if maxLength < s.length then .error .tooLong
  else match tokenize s with
    | .error fault => .error (.lexical fault)
    | .ok ts => parseTokens ts

end ScopedAggregation.Formula
