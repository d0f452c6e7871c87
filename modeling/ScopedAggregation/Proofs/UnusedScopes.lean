import ScopedAggregation.Proofs.ChainResolution
import ScopedAggregation.Proofs.ExprTree

namespace ScopedAggregation

namespace Context

/-- The chain with a scope more, which adds names `k` scopes further out than the innermost one, or
outside of all of them if there are fewer. -/
def addScope (extra : Fields) : Nat → Context → Context
  | k + 1, .child exposure fields parent => .child exposure fields (addScope extra k parent)
  | _, ctx => .child .inheriting extra ctx

section

variable (extra : Fields) (k : Nat) (ctx : Context)

theorem scopes_addScope : (ctx.addScope extra k).scopes =
    ctx.scopes.take k ++ ⟨.inheriting, extra⟩ :: ctx.scopes.drop k := by
  induction k generalizing ctx with
  | zero => cases ctx <;> rfl
  | succ k ih =>
    cases ctx with
    | root => rfl
    | restricted fields => rfl
    | child exposure fields parent =>
      rw [addScope, scopes, ih parent]
      rfl

theorem restriction_addScope : (ctx.addScope extra k).restriction = ctx.restriction := by
  induction k generalizing ctx with
  | zero => cases ctx <;> rfl
  | succ k ih =>
    cases ctx with
    | root => rfl
    | restricted fields => rfl
    | child exposure fields parent => exact ih parent

theorem resolve_empty : ctx.resolve [] = .error { cause := .emptyReference } := by
  cases ctx <;> rfl

end

section

variable {extra : Fields} {name : Text} (unused : extra.lookup? name.head = none)

include unused

/-- A scope that neither exposes the first segment nor hides the document has no part in the answer. -/
theorem chainResolve_added (restriction : Option Fields) (inner outer : List Scope) :
    chainResolve restriction (inner ++ ⟨.inheriting, extra⟩ :: outer) name =
      chainResolve restriction (inner ++ outer) name := by
  have hexposed : exposedBy? name.head (inner ++ ⟨.inheriting, extra⟩ :: outer) =
      exposedBy? name.head (inner ++ outer) := by
    simp only [exposedBy?, List.findSome?_append, List.findSome?_cons, unused]
  have hhiding : outermostHiding? (inner ++ ⟨.inheriting, extra⟩ :: outer) =
      outermostHiding? (inner ++ outer) := by
    simp [outermostHiding?]
  unfold chainResolve
  rw [hexposed, hhiding]

theorem resolve_addScope (k : Nat) (ctx : Context) :
    (ctx.addScope extra k).resolve name = ctx.resolve name := by
  by_cases hn : name = []
  · subst hn
    rw [resolve_empty, resolve_empty]
  · rw [resolve_eq hn, resolve_eq hn, restriction_addScope, scopes_addScope,
      chainResolve_added unused, List.take_append_drop]

end

end Context

/-- The name that a construct asks for to find its array. -/
def Source.names : Source → List Text
  | .field path => [path]
  | .expr _ => []

namespace Expr

/-- The names that a node itself asks for. -/
def names : Expr → List Text
  | .field path => [path]
  | .var name => [name]
  | .map input _ _ => input.names
  | .filter input _ _ => input.names
  | .reduce input _ _ => input.names
  | _ => []

/-- No node of the expression asks for a name whose first segment is one of these. -/
def Avoids (extra : Fields) (e : Expr) : Prop :=
  e.Every fun node => ∀ name ∈ node.names, name.head ∉ extra.names

/-- The scope can be added anywhere without a change to what the expression renders to. -/
def Ignores (extra : Fields) (e : Expr) : Prop :=
  ∀ limit ctx k depth, e.render limit (ctx.addScope extra k) depth = e.render limit ctx depth

end Expr

open Expr

section

variable {extra : Fields} (limit : Nat) (ctx : Context) (k depth : Nat)

theorem renderField_addScope {path : Text} (unused : path.head ∉ extra.names) :
    renderField (ctx.addScope extra k) path = renderField ctx path := by
  unfold renderField
  rw [Context.resolve_addScope (Fields.lookup?_eq_none.mpr unused)]

theorem renderVariable_addScope {name : Text} (unused : name.head ∉ extra.names) :
    renderVariable (ctx.addScope extra k) name = renderVariable ctx name := by
  unfold renderVariable
  rw [Context.resolve_addScope (Fields.lookup?_eq_none.mpr unused)]

theorem source_addScope {s : Source} (unused : ∀ name ∈ s.names, name.head ∉ extra.names)
    (parts : ∀ e ∈ s.parts, e.Ignores extra) :
    s.render limit (ctx.addScope extra k) depth = s.render limit ctx depth := by
  cases s with
  | field path =>
    rw [Source.render, Source.render, renderField_addScope ctx k (unused path List.mem_cons_self)]
  | expr e => exact parts e List.mem_cons_self limit ctx k depth

theorem renderAll_addScope {es : List Expr} (parts : ∀ e ∈ es, e.Ignores extra) :
    renderAll limit (ctx.addScope extra k) depth es = renderAll limit ctx depth es := by
  induction es with
  | nil => rfl
  | cons e es ih =>
    obtain ⟨he, hes⟩ := List.forall_mem_cons.mp parts
    rw [renderAll, renderAll, he limit ctx k depth, ih hes]

theorem renderEntries_addScope {es : List (Text × Expr)}
    (parts : ∀ e ∈ es.map (·.2), e.Ignores extra) :
    renderEntries limit (ctx.addScope extra k) depth es = renderEntries limit ctx depth es := by
  induction es with
  | nil => rfl
  | cons p es ih =>
    obtain ⟨key, e⟩ := p
    obtain ⟨he, hes⟩ := List.forall_mem_cons.mp parts
    rw [renderEntries, renderEntries, he limit ctx k depth, ih hes]

end

/-- The scopes that a construct puts around its body go on top, so that the added one lies one scope
further out there. -/
theorem Expr.Avoids.ignores {extra : Fields} {e : Expr} (h : e.Avoids extra) : e.Ignores extra := by
  induction h with
  | @node e here below ih =>
    intro limit ctx k depth
    cases e with
    | absent => rfl
    | literal v => rfl
    | raw v => rfl
    | faulty error => rfl
    | field path =>
      rw [render, render, renderField_addScope ctx k (here path List.mem_cons_self)]
    | var name =>
      rw [render, render, renderVariable_addScope ctx k (here name List.mem_cons_self)]
    | operator op args =>
      have hargs : ∀ e ∈ args, e.Ignores extra := ih
      rw [render, render, renderAll_addScope limit ctx k (depth + 1) hargs]
    | array elements =>
      have helements : ∀ e ∈ elements, e.Ignores extra := ih
      rw [render, render, renderAll_addScope limit ctx k (depth + 1) helements]
    | object entries => rw [render, render, renderEntries_addScope limit ctx k (depth + 1) ih]
    | map input item body =>
      obtain ⟨hinput, hbody⟩ := List.forall_mem_append.mp ih
      have hinner := hbody body List.mem_cons_self limit (itemScope item ctx) (k + 1) (depth + 1)
      rw [render, render, source_addScope limit ctx k (depth + 1) here hinput, ← hinner]
      rfl
    | filter input item cond =>
      obtain ⟨hinput, hcond⟩ := List.forall_mem_append.mp ih
      have hinner := hcond cond List.mem_cons_self limit (itemScope item ctx) (k + 1) (depth + 1)
      rw [render, render, source_addScope limit ctx k (depth + 1) here hinput, ← hinner]
      rfl
    | reduce input initial body =>
      obtain ⟨hinput, hrest⟩ := List.forall_mem_append.mp ih
      have hstart := hrest initial List.mem_cons_self limit ctx k (depth + 1)
      have hinner := hrest body (List.mem_cons_of_mem _ List.mem_cons_self) limit (foldScope ctx)
        (k + 1) (depth + 1)
      rw [render, render, source_addScope limit ctx k (depth + 1) here hinput, hstart, ← hinner]
      rfl
    | letIn vars body =>
      obtain ⟨hvars, hbody⟩ := List.forall_mem_append.mp ih
      have hinner := hbody body List.mem_cons_self limit (bindingScope (vars.map (·.1)) ctx) (k + 1)
        (depth + 1)
      rw [render, render, renderEntries_addScope limit ctx k (depth + 1) hvars, ← hinner]
      rfl

/-- Bindings that an expression does not use do not matter, wherever in the chain they are added: the
document, the error and the record of the compilation stay the same. -/
theorem compile_unused_scope {extra : Fields} {e : Expr} (unused : e.Avoids extra) (c : Compiler)
    (ctx : Context) (k : Nat) :
    c.compile (some e) (ctx.addScope extra k) = c.compile (some e) ctx := by
  have hrender := unused.ignores c.maxDepth ctx k 0
  cases e with
  | absent => rfl
  | _ => simp only [Compiler.compile, hrender]

/-- The parts of an item that cost more than a limit, which is a field of the document. -/
def costlyParts : Expr :=
  .filter (.field (text "item.parts")) (text "part")
    (.operator (text "$gt") [.field (text "part.price"), .field (text "order.limit")])

def spareNames : Fields := .ofList [.renamed (text "limit") (text "order.limit"), .ofName (text "parts")]

/-- The item hides the document from the condition. Its scope reports the field although the new scope
stands between the two. -/
theorem costlyParts_ignores_spareNames :
    costlyParts.Avoids spareNames ∧
      (({} : Compiler).compile (some costlyParts) (Context.foldInIteration.addScope spareNames 2)).1 =
        .error {
          cause := .hidden (.ofNames [text "item"])
          name := text "order.limit"
          node := text "field reference" } := by
  have price : Avoids spareNames (.field (text "part.price")) := .node (by decide) (by simp [children])
  have limit : Avoids spareNames (.field (text "order.limit")) := .node (by decide) (by simp [children])
  have cond : Avoids spareNames
      (.operator (text "$gt") [.field (text "part.price"), .field (text "order.limit")]) :=
    .node (by decide) (List.forall_mem_cons.mpr ⟨price, List.forall_mem_singleton.mpr limit⟩)
  have unused : costlyParts.Avoids spareNames :=
    .node (by decide) (List.forall_mem_singleton.mpr cond)
  have hsame := compile_unused_scope unused {} Context.foldInIteration 2
  exact ⟨unused, by rw [hsame]; rfl⟩

end ScopedAggregation
