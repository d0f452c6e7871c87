import ScopedAggregation.Formula.Parser
import ScopedAggregation.Proofs.BuiltExpr

namespace ScopedAggregation.Formula

open ScopedAggregation.Expr (IsVariableName)

/-- Sequences of words, each with what it stands for. -/
abbrev Phrase (α : Type) := List Lexeme → α → Prop

/-- Any number of items one after another. -/
inductive Many {α : Type} (item : Phrase α) : Phrase (List α)
  | nil : Many item [] []
  | cons {ws us : List Lexeme} {a : α} {as : List α} (first : item ws a) (rest : Many item us as) :
    Many item (ws ++ us) (a :: as)

/-- An item behind a word. -/
inductive After {α : Type} (l : Lexeme) (item : Phrase α) : Phrase α
  | mk {ws : List Lexeme} {a : α} (h : item ws a) : After l item (l :: ws) a

/-- Items with commas between them, and none behind the last. -/
inductive CommaList {α : Type} (item : Phrase α) : Phrase (List α)
  | nil : CommaList item [] []
  | cons {ws us : List Lexeme} {a : α} {as : List α} (first : item ws a)
    (rest : Many (After .comma item) us as) : CommaList item (ws ++ us) (a :: as)

/-- An item, or several of them with a word between them, which make one node. -/
inductive Chain (l : Lexeme) (op : String) (item : Phrase Expr) : Phrase Expr
  | single {ws : List Lexeme} {e : Expr} (h : item ws e) : Chain l op item ws e
  | joined {ws us : List Lexeme} {e : Expr} {es : List Expr} (first : item ws e)
    (rest : Many (After l item) us es) (several : es ≠ []) :
    Chain l op item (ws ++ us) (.operator (text op) (e :: es))

/-- What can follow a left operand, and the tree with that operand in it. -/
inductive Joined (sign : Lexeme → String → Prop) (item : Phrase Expr) : Expr → Phrase Expr
  | done {left : Expr} : Joined sign item left [] left
  | next {left right e : Expr} {l : Lexeme} {op : String} {ws us : List Lexeme}
    (signed : sign l op) (operand : item ws right)
    (rest : Joined sign item (.operator (text op) [left, right]) us e) :
    Joined sign item left (l :: (ws ++ us)) e

/-- Operands with signs between them, grouped to the left. -/
inductive LeftChain (sign : Lexeme → String → Prop) (item : Phrase Expr) : Phrase Expr
  | mk {ws us : List Lexeme} {left e : Expr} (first : item ws left)
    (rest : Joined sign item left us e) : LeftChain sign item (ws ++ us) e

/-- The segments that continue a path. -/
inductive Segments : Text → Phrase Text
  | done {path : Text} : Segments path [] path
  | next {path name full : Text} {ws : List Lexeme}
    (rest : Segments (path ++ [Ascii.dot] ++ name) ws full) :
    Segments path (.dot :: .ident name :: ws) full

variable (nested : Phrase Expr)

/-- A key with its value. -/
inductive Entry : Phrase (Text × Expr)
  | named {name : Text} {ws : List Lexeme} {e : Expr} (value : nested ws e) :
    Entry (.ident name :: .colon :: ws) (name, e)
  | quoted {key : Text} {ws : List Lexeme} {e : Expr} (value : nested ws e) :
    Entry (.string key :: .colon :: ws) (key, e)

/-- Entries between braces. -/
inductive MapLiteral : Phrase (List (Text × Expr))
  | mk {ws : List Lexeme} {entries : List (Text × Expr)} (h : CommaList (Entry nested) ws entries) :
    MapLiteral (.openBrace :: (ws ++ [.closeBrace])) entries

/-- Expressions between an opening and a closing word. -/
inductive Bracketed (opening closing : Lexeme) : Phrase (List Expr)
  | mk {ws : List Lexeme} {es : List Expr} (h : CommaList nested ws es) :
    Bracketed opening closing (opening :: (ws ++ [closing])) es

/-- Constants, paths, variables and bracketed forms. -/
inductive Primary : Phrase Expr
  | int {n : Int64} : Primary [.int n] (.literal (.int n))
  | float {x : Double} : Primary [.float x] (.literal (Value.ofDouble x))
  | string {s : Text} : Primary [.string s] (.literal (.string s))
  | trueWord : Primary [.trueWord] (.literal (.bool true))
  | falseWord : Primary [.falseWord] (.literal (.bool false))
  | nullWord : Primary [.nullWord] (.literal .null)
  | field {name path : Text} {ws : List Lexeme} (segments : Segments name ws path) :
    Primary (.ident name :: ws) (.field path)
  | var {name path : Text} {ws : List Lexeme} (segments : Segments name ws path) :
    Primary (.variable name :: ws) (.var path)
  | group {ws : List Lexeme} {e : Expr} (h : nested ws e) :
    Primary (.openParen :: (ws ++ [.closeParen])) e
  | array {ws : List Lexeme} {es : List Expr}
    (h : Bracketed nested .openBracket .closeBracket ws es) : Primary ws (.array es)
  | object {ws : List Lexeme} {entries : List (Text × Expr)} (h : MapLiteral nested ws entries)
    (distinct : (entries.map (·.1)).Nodup) : Primary ws (.object entries)

/-- The names of calls that are not operators. -/
def constructNames : List Text := [text "let", text "map", text "filter", text "reduce"]

/-- A name before its arguments. -/
inductive Call : Phrase Expr
  | letIn {ws us : List Lexeme} {vars : List (Text × Expr)} {body : Expr}
    (declared : MapLiteral nested ws vars) (h : nested us body)
    (names : ∀ p ∈ vars, IsVariableName p.1) (distinct : (vars.map (·.1)).Nodup) :
    Call (.ident (text "let") :: .openParen :: (ws ++ .comma :: (us ++ [.closeParen])))
      (.letIn vars body)
  | map {ws : List Lexeme} {input body : Expr} {item : Text}
    (h : Bracketed nested .openParen .closeParen ws [input, .field item, body])
    (given : input ≠ .field []) (name : IsVariableName item) :
    Call (.ident (text "map") :: ws) (.map (inputOf input) item body)
  | filter {ws : List Lexeme} {input cond : Expr} {item : Text}
    (h : Bracketed nested .openParen .closeParen ws [input, .field item, cond])
    (given : input ≠ .field []) (name : IsVariableName item) :
    Call (.ident (text "filter") :: ws) (.filter (inputOf input) item cond)
  | reduce {ws : List Lexeme} {input initial body : Expr}
    (h : Bracketed nested .openParen .closeParen ws [input, initial, body])
    (given : input ≠ .field []) :
    Call (.ident (text "reduce") :: ws) (.reduce (inputOf input) initial body)
  | operator {name : Text} {arity : Arity} {ws : List Lexeme} {args : List Expr}
    (ordinary : name ∉ constructNames) (known : operatorNamed? name = some arity)
    (h : Bracketed nested .openParen .closeParen ws args)
    (accepted : arity.accepts args.length = true) :
    Call (.ident name :: ws) (.operator arity.op args)

/-- The indexes that follow an expression, and the tree with that expression in it. -/
inductive Indexed : Expr → Phrase Expr
  | done {e : Expr} : Indexed e [] e
  | next {e index full : Expr} {ws us : List Lexeme} (h : nested ws index)
    (rest : Indexed (.operator (text "$arrayElemAt") [e, index]) us full) :
    Indexed e (.openBracket :: (ws ++ .closeBracket :: us)) full

/-- A call or a primary expression, with the indexes behind it. -/
inductive Operand : Phrase Expr
  | call {ws us : List Lexeme} {e full : Expr} (h : Call nested ws e)
    (indexes : Indexed nested e us full) : Operand (ws ++ us) full
  | primary {ws us : List Lexeme} {e full : Expr} (h : Primary nested ws e)
    (indexes : Indexed nested e us full) : Operand (ws ++ us) full

/-- A number stands first. -/
def startsWithNumber : List Lexeme → Bool
  | .int _ :: _ => true
  | .float _ :: _ => true
  | _ => false

/-- Signs before an operand; a sign before a number belongs to the number. -/
inductive Signed : Phrase Expr
  | int {n : Int64} : Signed [.minus, .int n] (.literal (.int (-n)))
  | float {x : Double} : Signed [.minus, .float x] (.literal (Value.ofDouble x.neg))
  | minus {ws : List Lexeme} {e : Expr} (h : Signed ws e) (number : startsWithNumber ws = false) :
    Signed (.minus :: ws) (.operator (text "$multiply") [.literal (.int (-1)), e])
  | operand {ws : List Lexeme} {e : Expr} (h : Operand nested ws e) : Signed ws e

inductive ProductSign : Lexeme → String → Prop
  | star : ProductSign .star "$multiply"
  | slash : ProductSign .slash "$divide"
  | percent : ProductSign .percent "$mod"

inductive SumSign : Lexeme → String → Prop
  | plus : SumSign .plus "$add"
  | minus : SumSign .minus "$subtract"

inductive ComparisonSign : Lexeme → String → Prop
  | equal : ComparisonSign .equal "$eq"
  | notEqual : ComparisonSign .notEqual "$ne"
  | less : ComparisonSign .less "$lt"
  | greater : ComparisonSign .greater "$gt"
  | lessEqual : ComparisonSign .lessEqual "$lte"
  | greaterEqual : ComparisonSign .greaterEqual "$gte"

def Product : Phrase Expr := LeftChain ProductSign (Signed nested)

def Sum : Phrase Expr := LeftChain SumSign (Product nested)

/-- A sum, or two sums compared, or one looked up in the other. -/
inductive Comparison : Phrase Expr
  | sum {ws : List Lexeme} {e : Expr} (h : Sum nested ws e) : Comparison ws e
  | compared {ws us : List Lexeme} {left right : Expr} {l : Lexeme} {op : String}
    (signed : ComparisonSign l op) (first : Sum nested ws left) (second : Sum nested us right) :
    Comparison (ws ++ l :: us) (.operator (text op) [left, right])
  | member {ws us : List Lexeme} {left right : Expr} (first : Sum nested ws left)
    (second : Sum nested us right) :
    Comparison (ws ++ .inWord :: us) (.operator (text "$in") [left, right])
  | notMember {ws us : List Lexeme} {left right : Expr} (first : Sum nested ws left)
    (second : Sum nested us right) :
    Comparison (ws ++ .notWord :: .inWord :: us)
      (.operator (text "$not") [.operator (text "$in") [left, right]])

/-- Negations before a comparison. -/
inductive Negation : Phrase Expr
  | not {ws : List Lexeme} {e : Expr} (h : Negation ws e) :
    Negation (.notWord :: ws) (.operator (text "$not") [e])
  | comparison {ws : List Lexeme} {e : Expr} (h : Comparison nested ws e) : Negation ws e

def Conjunction : Phrase Expr := Chain .andWord "$and" (Negation nested)

def Disjunction : Phrase Expr := Chain .orWord "$or" (Conjunction nested)

/-- Expressions in which brackets and calls nest fewer than the given number of levels. -/
def Sentence : Nat → Phrase Expr
  | 0 => fun _ _ => False
  | n + 1 => Disjunction (Sentence n)

end ScopedAggregation.Formula
