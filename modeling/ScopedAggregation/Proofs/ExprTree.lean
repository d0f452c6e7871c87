import ScopedAggregation.Expr

namespace ScopedAggregation

/-- The expression that an iterating construct reads, if it reads one. -/
def Source.parts : Source → List Expr
  | .field _ => []
  | .expr e => [e]

namespace Expr

/-- The expressions right below a node. -/
def children : Expr → List Expr
  | .operator _ args => args
  | .array elements => elements
  | .object entries => entries.map (·.2)
  | .map input _ body => input.parts ++ [body]
  | .filter input _ cond => input.parts ++ [cond]
  | .reduce input initial body => input.parts ++ [initial, body]
  | .letIn vars body => vars.map (·.2) ++ [body]
  | _ => []

/-- Every node of a tree satisfies `P`. -/
inductive Every (P : Expr → Prop) : Expr → Prop
  | node {e : Expr} (here : P e) (below : ∀ c ∈ e.children, Every P c) : Every P e

theorem Every.here {P : Expr → Prop} {e : Expr} (h : e.Every P) : P e := by
  cases h with
  | node here _ => exact here

theorem Every.child {P : Expr → Prop} {e : Expr} (h : e.Every P) : ∀ c ∈ e.children, c.Every P := by
  cases h with
  | node _ below => exact below

theorem Every.mono {P Q : Expr → Prop} {e : Expr} (h : e.Every P) (himp : ∀ e, P e → Q e) :
    e.Every Q := by
  induction h with
  | node here _ ih => exact .node (himp _ here) ih

theorem Every.and {P Q : Expr → Prop} {e : Expr} (hp : e.Every P) (hq : e.Every Q) :
    e.Every fun e => P e ∧ Q e := by
  induction hp with
  | @node e here below ih =>
    exact .node ⟨here, hq.here⟩ fun c hc => ih c hc (hq.child c hc)

mutual

/-- Tests every node of a tree. -/
def all (p : Expr → Bool) : Expr → Bool
  | .operator op args => p (.operator op args) && allOf p args
  | .array elements => p (.array elements) && allOf p elements
  | .object entries => p (.object entries) && allIn p entries
  | .map input item body => p (.map input item body) && allFrom p input && body.all p
  | .filter input item cond => p (.filter input item cond) && allFrom p input && cond.all p
  | .reduce input initial body =>
    p (.reduce input initial body) && allFrom p input && initial.all p && body.all p
  | .letIn vars body => p (.letIn vars body) && allIn p vars && body.all p
  | e => p e

def allFrom (p : Expr → Bool) : Source → Bool
  | .field _ => true
  | .expr e => e.all p

def allOf (p : Expr → Bool) : List Expr → Bool
  | [] => true
  | e :: es => e.all p && allOf p es

def allIn (p : Expr → Bool) : List (Text × Expr) → Bool
  | [] => true
  | (_, e) :: es => e.all p && allIn p es

end

mutual

theorem every_of_all {p : Expr → Bool} : ∀ e : Expr, e.all p = true → e.Every (p · = true)
  | .operator op args, h => by
    simp only [all, Bool.and_eq_true] at h
    exact .node h.1 (every_of_allOf args h.2)
  | .array elements, h => by
    simp only [all, Bool.and_eq_true] at h
    exact .node h.1 (every_of_allOf elements h.2)
  | .object entries, h => by
    simp only [all, Bool.and_eq_true] at h
    exact .node h.1 (every_of_allIn entries h.2)
  | .map input item body, h => by
    simp only [all, Bool.and_eq_true] at h
    refine .node h.1.1 (List.forall_mem_append.mpr ⟨every_of_allFrom input h.1.2, ?_⟩)
    simpa only [List.forall_mem_singleton] using every_of_all body h.2
  | .filter input item cond, h => by
    simp only [all, Bool.and_eq_true] at h
    refine .node h.1.1 (List.forall_mem_append.mpr ⟨every_of_allFrom input h.1.2, ?_⟩)
    simpa only [List.forall_mem_singleton] using every_of_all cond h.2
  | .reduce input initial body, h => by
    simp only [all, Bool.and_eq_true] at h
    refine .node h.1.1.1 (List.forall_mem_append.mpr ⟨every_of_allFrom input h.1.1.2, ?_⟩)
    rw [List.forall_mem_cons, List.forall_mem_singleton]
    exact ⟨every_of_all initial h.1.2, every_of_all body h.2⟩
  | .letIn vars body, h => by
    simp only [all, Bool.and_eq_true] at h
    refine .node h.1.1 (List.forall_mem_append.mpr ⟨every_of_allIn vars h.1.2, ?_⟩)
    simpa only [List.forall_mem_singleton] using every_of_all body h.2
  | .absent, h | .field _, h | .var _, h | .literal _, h | .raw _, h | .faulty _, h =>
    .node (by simpa only [all] using h) (by simp [children])

theorem every_of_allFrom {p : Expr → Bool} :
    ∀ s : Source, allFrom p s = true → ∀ c ∈ s.parts, c.Every (p · = true)
  | .field _, _ => by simp [Source.parts]
  | .expr e, h => by
    simp only [allFrom] at h
    simpa only [Source.parts, List.forall_mem_singleton] using every_of_all e h

theorem every_of_allOf {p : Expr → Bool} :
    ∀ es : List Expr, allOf p es = true → ∀ c ∈ es, c.Every (p · = true)
  | [], _ => by simp
  | e :: es, h => by
    simp only [allOf, Bool.and_eq_true] at h
    exact List.forall_mem_cons.mpr ⟨every_of_all e h.1, every_of_allOf es h.2⟩

theorem every_of_allIn {p : Expr → Bool} :
    ∀ es : List (Text × Expr), allIn p es = true → ∀ c ∈ es.map (·.2), c.Every (p · = true)
  | [], _ => by simp
  | (_, e) :: es, h => by
    simp only [allIn, Bool.and_eq_true] at h
    rw [List.map_cons]
    exact List.forall_mem_cons.mpr ⟨every_of_all e h.1, every_of_allIn es h.2⟩

end

end Expr

end ScopedAggregation
