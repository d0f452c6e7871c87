import ScopedAggregation.Config.Flags
import ScopedAggregation.Text.Case

namespace ScopedAggregation.Cli

/-- The commands. -/
inductive Command where
  | root
  | compile
  | serve
  | help
  | completion
deriving DecidableEq, Repr

/-- The commands by name. -/
def commands : List (Text × Command) :=
  [(text "compile", .compile), (text "serve", .serve), (text "help", .help),
    (text "completion", .completion)]

/-- A flag that takes the next argument as its value, as far as that can be told before the command
is known. -/
def takesValue (s : Text) : Bool :=
  !s.any (· = Ascii.equals)
    && (Text.startsWith (text "--") s || (Text.startsWith (text "-") s && s.length = 2))

/-- The first argument that is neither a flag nor the value of one, between what stands before and
after it; those passed so far come last one first. -/
def firstWord : List Text → List Text → Option (List Text × Text × List Text)
  | _, [] => none
  | passed, s :: rest =>
    if s = text "--" then none
    else if takesValue s then
      match rest with
      | value :: next :: rest => firstWord (value :: s :: passed) (next :: rest)
      | _ => none
    else if s.isEmpty || Text.startsWith (text "-") s then firstWord (s :: passed) rest
    else some (passed.reverse, s, rest)

/-- One row of the table of edit distances, from the row above it. -/
def distanceRow (a : UInt8) : Nat → Nat → Text → List Nat → List Nat
  | left, diagonal, b :: t, above :: row =>
    let cost := if a = b then diagonal else 1 + min (min left above) diagonal
    cost :: distanceRow a cost above t row
  | _, _, _, _ => []

/-- The row of distances of growing beginnings of `t` from a text, after its first letters. -/
def distances (t : Text) : Text → Nat → List Nat → List Nat
  | [], _, row => row
  | a :: s, i, row =>
    match row with
    | first :: rest => distances t s (i + 1) ((i + 1) :: distanceRow a (i + 1) first t rest)
    | [] => []

/-- How many letters have to be put in, left out or exchanged to make one text the other. -/
def editDistance (s t : Text) : Nat :=
  ((distances t s 0 (List.range (t.length + 1))).getLast?).getD 0

/-- The names of commands that come close to a word. -/
def suggestions (word : Text) : List Text :=
  let word := Text.lowerCase word
  [text "compile", text "serve", text "completion"].filter fun name =>
    editDistance word name ≤ 2 || Text.startsWith word name

end ScopedAggregation.Cli
