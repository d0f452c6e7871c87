import ScopedAggregation.Text

namespace ScopedAggregation.Path

/-- The last part of a path, slashes at its end aside. A path of slashes is one slash, and an empty
one is the present directory. -/
def base (path : Text) : Text :=
  if path.isEmpty then text "."
  else
    let trimmed := Text.dropEndWhile (· = Ascii.slash) path
    if trimmed.isEmpty then [Ascii.slash]
    else (trimmed.reverse.takeWhile (· ≠ Ascii.slash)).reverse

/-- A name cut at its last dot, which begins its ending. Without a dot the ending is empty. -/
def splitEnding (name : Text) : Text × Text :=
  let tail := name.reverse.takeWhile fun b => b ≠ Ascii.dot
  match name.reverse.drop tail.length with
  | [] => (name, [])
  | dot :: stem => (stem.reverse, dot :: tail.reverse)

/-- The ending of a name, with its dot. -/
def ending (name : Text) : Text := (splitEnding name).2

/-- A name without its ending. -/
def stem (name : Text) : Text := (splitEnding name).1

/-- Names that begin with a dot are hidden. -/
def isHidden (name : Text) : Bool := Text.startsWith [Ascii.dot] name

end ScopedAggregation.Path
