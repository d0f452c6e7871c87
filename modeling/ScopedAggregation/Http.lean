import ScopedAggregation.Text

namespace ScopedAggregation.Http

structure Request where
  method : Text
  target : Text
  contentType : Text := []
  body : Text := []
deriving DecidableEq, Repr

structure Response where
  status : Nat
  contentType : Text
  body : Text
  location : Option Text := none
deriving DecidableEq, Repr

namespace Response

def json (status : Nat) (body : Text) : Response := ⟨status, text "application/json", body, none⟩

def plain (status : Nat) (body : Text) : Response :=
  ⟨status, text "text/plain; charset=utf-8", body, none⟩

def html (status : Nat) (body : Text) : Response :=
  ⟨status, text "text/html; charset=utf-8", body, none⟩

/-- Sends a client elsewhere. -/
def redirect (location : Text) : Response := { plain 302 [] with location := some location }

end Response

/-- What a method asks for. -/
inductive Method where
  | get
  | post
  | patch
  | delete
  | other
deriving DecidableEq, Repr

/-- The methods by name; asking for the head alone is asking for all without the body. -/
def methods : List (Text × Method) := [
  (text "GET", .get), (text "HEAD", .get), (text "POST", .post), (text "PATCH", .patch),
  (text "DELETE", .delete), (text "PUT", .other), (text "CONNECT", .other),
  (text "OPTIONS", .other), (text "TRACE", .other)]

/-- The method of a request; none if it is not known at all. -/
def Request.method? (r : Request) : Option Method := methods.lookup r.method

/-- The response as it is sent: no body if only the head was asked for. -/
def Request.sent (r : Request) (a : Response) : Response :=
  if r.method = text "HEAD" then { a with body := [] } else a

end ScopedAggregation.Http
