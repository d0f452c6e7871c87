import ScopedAggregation.Expr.Compile
import ScopedAggregation.Proofs.NameResolution

namespace ScopedAggregation

/-- A scope of a chain. -/
structure Scope where
  exposure : Exposure
  fields : Fields
deriving DecidableEq, Repr

namespace Context

/-- The scopes of a context, innermost first. -/
def scopes : Context → List Scope
  | .root => []
  | .restricted _ => []
  | .child exposure fields parent => ⟨exposure, fields⟩ :: parent.scopes

/-- The fields that the root of a context is restricted to, if it is. -/
def restriction : Context → Option Fields
  | .root => none
  | .restricted fields => some fields
  | .child _ _ parent => parent.restriction

/-- The path that a root reads a name as. -/
def rootPath (restriction : Option Fields) (name : Text) : Except CompileError Text :=
  match restriction with
  | none => .ok name
  | some fields =>
    match fields.lookup? name.head with
    | some f => .ok (f.target ++ name.rest)
    | none => .error { cause := .notExposed fields, name := name }

/-- The field that the innermost scope exposing a first segment has for it. -/
def exposedBy? (head : Text) (chain : List Scope) : Option Field :=
  chain.findSome? fun s => s.fields.lookup? head

/-- The scope that hides the document from furthest out. -/
def outermostHiding? (chain : List Scope) : Option Scope :=
  chain.reverse.find? fun s => s.exposure = .synthetic

/-- What a name stands for in a chain of scopes over a root. -/
def chainResolve (restriction : Option Fields) (chain : List Scope) (name : Text) :
    Except CompileError Resolution :=
  match exposedBy? name.head chain with
  | some f => .ok ⟨.variable, name, f.target ++ name.rest⟩
  | none =>
    if name.head ∈ [text "ROOT", text "CURRENT", text "REMOVE"] then .ok ⟨.variable, name, name⟩
    else do
      let path ← rootPath restriction name
      match outermostHiding? chain with
      | some s => .error { cause := .hidden s.fields, name := name }
      | none => .ok ⟨.field, name, path⟩

theorem contains_systemVariables (head : Text) :
    systemVariables.contains head = true ↔
      head ∈ [text "ROOT", text "CURRENT", text "REMOVE"] := by
  unfold Fields.contains systemVariables
  by_cases h : head ∈ [text "ROOT", text "CURRENT", text "REMOVE"]
  · simp only [Fields.lookup?_ofNames_of_mem h, Option.isSome_some, h]
  · simp only [Fields.lookup?_ofNames_of_notMem h, Option.isSome_none, h, Bool.false_eq_true]

theorem resolveAtRoot_eq {restriction : Option Fields} {name : Text} (hn : name ≠ []) :
    resolveAtRoot restriction name = chainResolve restriction [] name := by
  have empty : exposedBy? name.head [] = none := rfl
  unfold resolveAtRoot chainResolve
  simp only [if_neg hn, empty, ← contains_systemVariables]
  split
  next => rfl
  next =>
    unfold rootPath
    cases restriction with
    | none => rfl
    | some fields =>
      cases hf : fields.lookup? name.head with
      | none => simp only [hf]; rfl
      | some f => simp only [hf]; rfl

theorem exposedBy?_cons {s : Scope} {outer : List Scope} {head : Text} :
    exposedBy? head (s :: outer) = (s.fields.lookup? head).or (exposedBy? head outer) := by
  unfold exposedBy?
  rw [List.findSome?_cons]
  cases s.fields.lookup? head with
  | none => rfl
  | some f => rfl

theorem outermostHiding?_cons {s : Scope} {outer : List Scope} :
    outermostHiding? (s :: outer) =
      (outermostHiding? outer).or (if s.exposure = .synthetic then some s else none) := by
  unfold outermostHiding?
  rw [List.reverse_cons, List.find?_append, List.find?_singleton]
  simp only [decide_eq_true_eq]

/-- A scope that does not expose a name lets variables and errors of the outer chain through, and
turns away fields if it hides the document. -/
theorem chainResolve_cons {restriction : Option Fields} {s : Scope} {outer : List Scope} {name : Text}
    (unexposed : s.fields.lookup? name.head = none) :
    chainResolve restriction (s :: outer) name = (do
      let r ← chainResolve restriction outer name
      if s.exposure = .synthetic && r.kind = .field then
        .error { cause := .hidden s.fields, name := name }
      else pure r) := by
  unfold chainResolve
  rw [exposedBy?_cons, unexposed, Option.none_or, outermostHiding?_cons]
  cases exposedBy? name.head outer with
  | some f => simp only [ok_bind, reduceCtorEq, decide_false, Bool.and_false]; rfl
  | none =>
    simp only
    split
    next => simp only [ok_bind, reduceCtorEq, decide_false, Bool.and_false]; rfl
    next =>
      cases rootPath restriction name with
      | error e => rfl
      | ok path =>
        simp only [ok_bind]
        -- A field gets as far as this scope only if none further out hides the document.
        cases outermostHiding? outer with
        | some t => rfl
        | none =>
          by_cases hs : s.exposure = .synthetic
          · simp [hs]
          · simp [hs]

theorem resolve_eq {ctx : Context} {name : Text} (hn : name ≠ []) :
    ctx.resolve name = chainResolve ctx.restriction ctx.scopes name := by
  induction ctx with
  | root => exact resolveAtRoot_eq hn
  | restricted fields => exact resolveAtRoot_eq hn
  | child exposure fields parent ih =>
    simp only [resolve, if_neg hn]
    cases hf : fields.lookup? name.head with
    | some f => simp only [chainResolve, scopes, exposedBy?_cons, hf, Option.some_or]
    | none => rw [scopes, restriction, chainResolve_cons hf, ih]

/-- What a chain reports about a name that it cannot resolve. -/
theorem chainResolve_error {restriction : Option Fields} {chain : List Scope} {name : Text}
    {e : CompileError} (h : chainResolve restriction chain name = .error e) :
    e.kind = .unresolvedName ∧ e.name = name := by
  unfold chainResolve at h
  split at h
  next => cases h
  next =>
    split at h
    next => cases h
    next =>
      cases hp : rootPath restriction name with
      | ok path =>
        rw [hp, ok_bind] at h
        split at h
        next =>
          cases h
          exact ⟨rfl, rfl⟩
        next => cases h
      | error f =>
        rw [hp] at h
        cases h
        unfold rootPath at hp
        split at hp
        next => cases hp
        next =>
          split at hp
          next => cases hp
          next =>
            cases hp
            exact ⟨rfl, rfl⟩

/-- Walking a chain of scopes answers as the chain as a whole does, and an error is about the name
that was asked for. -/
theorem resolve_eq_chainResolve (ctx : Context) (name : Text) (hn : name ≠ []) :
    ctx.resolve name = chainResolve ctx.restriction ctx.scopes name ∧
      ∀ e, ctx.resolve name = .error e → e.kind = .unresolvedName ∧ e.name = name := by
  refine ⟨resolve_eq hn, ?_⟩
  intro e he
  exact chainResolve_error ((resolve_eq hn).symm.trans he)

/-- The scopes inside a fold over the items of an outer iteration, with a variable between them. -/
def foldInIteration : Context :=
  foldScope (bindingScope [text "rate"] (itemScope (text "item") .root))

/-- The scope that hides a field from furthest out is the one that reports it. -/
theorem foldInIteration_hides :
    text "order.total" ≠ [] ∧
      foldInIteration.resolve (text "order.total") =
        .error { cause := .hidden (.ofNames [text "item"]), name := text "order.total" } :=
  ⟨by decide,
    (resolve_eq_chainResolve foldInIteration (text "order.total") (by decide)).1.trans (by decide)⟩

end Context

end ScopedAggregation
