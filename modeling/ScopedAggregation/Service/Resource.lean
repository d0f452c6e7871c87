import ScopedAggregation.Http.Form

namespace ScopedAggregation.Service

open Http (Method)

/-- Something that requests can be made of. -/
inductive Resource where
  | compiler
  | definitions
  | definition (name : Text)
  | compilation (name : Text)
  | health
  | metrics
  | dashboard
  | page (name : Text)
  | home
deriving DecidableEq, Repr

namespace Resource

/-- The methods that a resource answers. -/
def answers : Resource → Method → Bool
  | .compiler, m => m = .post
  | .definitions, m => m = .get || m = .post
  | .definition _, m => m = .get || m = .patch || m = .delete
  | .compilation _, m => m = .post
  | .health, m => m = .get
  | .metrics, m => m = .get
  | .dashboard, m => m = .get
  | .page _, m => m = .get
  | .home, m => m = .get

/-- A path as it is compared: in lower case, without slashes at its end. -/
def comparable (path : Text) : Text :=
  let lower := Text.lower path
  if 1 < path.length then Text.dropEndWhile (· = Ascii.slash) lower else lower

/-- The name that follows a beginning of the path, as it is written and as it is compared. -/
def nameAfter? (start : String) (path : Text) : Option (Text × Text) :=
  match Text.after? (text start) (comparable path) with
  | some name =>
    if name.isEmpty || name.any (· = Ascii.slash) then none
    else some ((path.drop (text start).length).take name.length, name)
  | none => none

/-- The definition whose compilation a name asks for: what stands before the first mark of the
action, if nothing follows it. -/
def compiled? (name lower : Text) : Option Text :=
  match Text.cut? (text ":compile") lower with
  | some (before, []) => if before.isEmpty then none else some (name.take before.length)
  | _ => none

/-- The resources with a path of their own. -/
def fixed (hasMetrics : Bool) : List (Text × Resource) :=
  [(text "/v1/compile", .compiler), (text "/v1/definitions", .definitions),
    (text "/healthz", .health), (text "/ui", .dashboard), (text "/", .home)]
    ++ if hasMetrics then [(text "/metrics", .metrics)] else []

/-- All that a path names. -/
def ofPath (hasMetrics : Bool) (path : Text) : List Resource :=
  ((fixed hasMetrics).lookup (comparable path)).toList
    ++ (match nameAfter? "/v1/definitions/" path with
      | some (name, lower) =>
        .definition name :: ((compiled? name lower).map Resource.compilation).toList
      | none => [])
    ++ (match nameAfter? "/ui/definitions/" path with
      | some (name, _) => [.page name]
      | none => [])

end Resource

end ScopedAggregation.Service
