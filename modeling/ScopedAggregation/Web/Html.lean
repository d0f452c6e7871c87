import ScopedAggregation.Text

namespace ScopedAggregation

namespace Html

/-- What is written for a byte of text, within elements and within attributes. -/
def escapeByte (b : UInt8) : Text :=
  if b = 0 then text "\ufffd"
  else if b = Ascii.doubleQuote then text "&#34;"
  else if b = Ascii.ampersand then text "&amp;"
  else if b = Ascii.singleQuote then text "&#39;"
  else if b = Ascii.plus then text "&#43;"
  else if b = Ascii.less then text "&lt;"
  else if b = Ascii.greater then text "&gt;"
  else [b]

def escape (s : Text) : Text := s.flatMap escapeByte

/-- A piece of a page. -/
inductive Piece where
  | markup (s : String)
  | text (s : Text)
deriving DecidableEq, Repr

def Piece.render : Piece → Text
  | .markup s => ScopedAggregation.text s
  | .text s => escape s

end Html

/-- A page, or a part of one. -/
abbrev Html := List Html.Piece

/-- The bytes of a page. -/
def Html.render (page : Html) : Text := page.flatMap Html.Piece.render

end ScopedAggregation
