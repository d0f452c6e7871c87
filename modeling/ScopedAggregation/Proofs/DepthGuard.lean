import ScopedAggregation.Log
import ScopedAggregation.Proofs.BuiltExpr
import ScopedAggregation.Proofs.CompileFailures
import ScopedAggregation.Proofs.RenderSuccess

namespace ScopedAggregation

namespace Expr

mutual

/-- How many nodes stand below one another. A missing node does not count, nor does a field that a
construct reads, and nothing stands below a faulty object. -/
def depth : Expr → Nat
  | .absent => 0
  | .field _ | .var _ | .literal _ | .raw _ | .faulty _ => 1
  | .operator _ args => 1 + depthOf args
  | .array elements => 1 + depthOf elements
  | .object entries => 1 + depthIn entries
  | .map input _ body => 1 + max (depthFrom input) body.depth
  | .filter input _ cond => 1 + max (depthFrom input) cond.depth
  | .reduce input initial body => 1 + max (depthFrom input) (max initial.depth body.depth)
  | .letIn vars body => 1 + max (depthIn vars) body.depth

def depthFrom : Source → Nat
  | .field _ => 0
  | .expr e => e.depth

def depthOf : List Expr → Nat
  | [] => 0
  | e :: es => max e.depth (depthOf es)

def depthIn : List (Text × Expr) → Nat
  | [] => 0
  | (_, e) :: es => max e.depth (depthIn es)

end

mutual

/-- The nodes of a tree with their depths, in the order in which they are rendered. The root has the
given depth. -/
def nodes (k : Nat) : Expr → List (Nat × Expr)
  | .absent => []
  | .operator op args => (k, .operator op args) :: nodesOf (k + 1) args
  | .array elements => (k, .array elements) :: nodesOf (k + 1) elements
  | .object entries => (k, .object entries) :: nodesIn (k + 1) entries
  | .map input item body =>
    (k, .map input item body) :: (nodesFrom (k + 1) input ++ body.nodes (k + 1))
  | .filter input item cond =>
    (k, .filter input item cond) :: (nodesFrom (k + 1) input ++ cond.nodes (k + 1))
  | .reduce input initial body =>
    (k, .reduce input initial body) ::
      (nodesFrom (k + 1) input ++ (initial.nodes (k + 1) ++ body.nodes (k + 1)))
  | .letIn vars body => (k, .letIn vars body) :: (nodesIn (k + 1) vars ++ body.nodes (k + 1))
  | e => [(k, e)]

def nodesFrom (k : Nat) : Source → List (Nat × Expr)
  | .field _ => []
  | .expr e => e.nodes k

def nodesOf (k : Nat) : List Expr → List (Nat × Expr)
  | [] => []
  | e :: es => e.nodes k ++ nodesOf k es

def nodesIn (k : Nat) : List (Text × Expr) → List (Nat × Expr)
  | [] => []
  | (_, e) :: es => e.nodes k ++ nodesIn k es

end

/-- The first node at a depth. -/
def firstAt (k : Nat) (nodes : List (Nat × Expr)) : Option Expr :=
  (nodes.find? fun node => node.1 = k).map (·.2)

theorem firstAt_append_of_some {k : Nat} {xs ys : List (Nat × Expr)} {e : Expr}
    (h : firstAt k xs = some e) : firstAt k (xs ++ ys) = some e := by
  obtain ⟨node, hfind, rfl⟩ := Option.map_eq_some_iff.mp h
  rw [firstAt, List.find?_append, hfind]
  rfl

theorem firstAt_append_of_forall_ne {k : Nat} {xs ys : List (Nat × Expr)} (h : ∀ x ∈ xs, x.1 ≠ k) :
    firstAt k (xs ++ ys) = firstAt k ys := by
  have hnone : xs.find? (fun node => decide (node.1 = k)) = none := by
    rw [List.find?_eq_none]
    intro x hx
    simpa using h x hx
  rw [firstAt, List.find?_append, hnone, Option.none_or]
  rfl

end Expr

open Expr

/-- The depth of the lowest of `height` nodes below `above` others; nothing is at no depth. -/
def bottom (above height : Nat) : Nat := if height = 0 then 0 else above + height

theorem max_bottom (above j k : Nat) : max (bottom above j) (bottom above k) = bottom above (max j k) := by
  unfold bottom
  split <;> split <;> split <;> omega

theorem bottom_succ (above height : Nat) :
    max (above + 1) (bottom (above + 1) height) = bottom above (1 + height) := by
  unfold bottom
  split <;> split <;> omega

section

variable {α β γ : Type} {above low low' : Nat} {nodes nodes' : List (Nat × Expr)}

/-- What the limit means to a part below `above` nodes whose lowest node has the depth `low`: the part
is rendered alike under all limits that it fits into. Under another one the first node below the limit
ends the rendering of a part that would succeed. -/
structure Guarded (above low : Nat) (nodes : List (Nat × Expr))
    (render : Nat → Except CompileError (Rendered α)) : Prop where
  steady : ∀ m n, low ≤ m → low ≤ n → render m = render n
  quiet : ∀ n e, low ≤ n → render n = .error e → e.kind ≠ .depthExceeded
  measured : ∀ n r, render n = .ok r → low ≤ n ∧ r.deepest = low
  bounded : ∀ node ∈ nodes, node.1 ≤ low
  cut : ∀ m r n, render m = .ok r → above ≤ n → n < low →
    ∃ e, firstAt (n + 1) nodes = some e ∧ render n = .error { cause := .tooDeep n, node := e.nodeType }

namespace Guarded

theorem of_nothing {x : Except CompileError (Rendered α)}
    (quiet : FailsOnly (fun e => e.kind ≠ .depthExceeded) x)
    (measured : ∀ r, x = .ok r → r.deepest = 0) : Guarded above 0 [] fun _ => x where
  steady _ _ _ _ := rfl
  quiet _ e _ h := quiet e h
  measured n r h := ⟨Nat.zero_le n, measured r h⟩
  bounded _ h := nomatch h
  cut _ _ n _ _ h := absurd h (Nat.not_lt_zero n)

/-- Two parts after one another. The second is rendered only if the first is, so that a limit that the
second does not fit into shows only if the first fits into it. -/
theorem both {x : Nat → Except CompileError (Rendered α)} {y : Nat → Except CompileError (Rendered β)}
    (hx : Guarded above low nodes x) (hy : Guarded above low' nodes' y) (pair : α → β → γ) :
    Guarded above (max low low') (nodes ++ nodes') fun n => do
      let a ← x n
      let b ← y n
      pure ⟨pair a.value b.value, max a.deepest b.deepest⟩ where
  steady m n hm hn := by
    have hfirst : x m = x n := hx.steady m n (by omega) (by omega)
    have hsecond : y m = y n := hy.steady m n (by omega) (by omega)
    show (x m >>= fun a => y m >>= _) = (x n >>= fun a => y n >>= _)
    rw [hfirst, hsecond]
  quiet n e hn h := by
    cases ha : x n with
    | error e' =>
      rw [ha] at h
      cases h
      exact hx.quiet n e (by omega) ha
    | ok a =>
      rw [ha, ok_bind] at h
      cases hb : y n with
      | error e' =>
        rw [hb] at h
        cases h
        exact hy.quiet n e (by omega) hb
      | ok b =>
        rw [hb] at h
        cases h
  measured n r h := by
    obtain ⟨a, ha, h⟩ := bind_eq_ok.mp h
    obtain ⟨b, hb, h⟩ := bind_eq_ok.mp h
    cases h
    obtain ⟨hlow, hdeepest⟩ := hx.measured n a ha
    obtain ⟨hlow', hdeepest'⟩ := hy.measured n b hb
    exact ⟨by omega, by rw [hdeepest, hdeepest']⟩
  bounded node h := by
    rcases List.mem_append.mp h with h | h
    · have hnode := hx.bounded node h
      omega
    · have hnode := hy.bounded node h
      omega
  cut m r n h habove hn := by
    obtain ⟨a, ha, h⟩ := bind_eq_ok.mp h
    obtain ⟨b, hb, h⟩ := bind_eq_ok.mp h
    obtain ⟨hlow, -⟩ := hx.measured m a ha
    by_cases hfirst : n < low
    · obtain ⟨e, he, herror⟩ := hx.cut m a n ha habove hfirst
      refine ⟨e, firstAt_append_of_some he, ?_⟩
      rw [herror, error_bind]
    · obtain ⟨e, he, herror⟩ := hy.cut m b n hb habove (by omega)
      have hbefore : ∀ node ∈ nodes, node.1 ≠ n + 1 := by
        intro node hnode
        have hbound := hx.bounded node hnode
        omega
      have hsame : x n = .ok a := by rw [hx.steady n m (by omega) hlow, ha]
      refine ⟨e, by rw [firstAt_append_of_forall_ne hbefore, he], ?_⟩
      rw [hsame, ok_bind, herror, error_bind]

/-- A node around a part. -/
theorem node {x : Nat → Except CompileError (Rendered α)} (hx : Guarded (above + 1) low nodes x)
    (e : Expr) (wrap : α → β) :
    Guarded above (max (above + 1) low) ((above + 1, e) :: nodes) fun n => do
      checkDepth n above e.nodeType
      let a ← x n
      pure ⟨wrap a.value, max (above + 1) a.deepest⟩ where
  steady m n hm hn := by
    have hfits : checkDepth m above e.nodeType = .ok () := checkDepth_eq_ok.mpr (by omega)
    have hfits' : checkDepth n above e.nodeType = .ok () := checkDepth_eq_ok.mpr (by omega)
    have hpart : x m = x n := hx.steady m n (by omega) (by omega)
    show (checkDepth m above _ >>= fun _ => x m >>= _) = (checkDepth n above _ >>= fun _ => x n >>= _)
    rw [hfits, hfits', hpart]
  quiet n e' hn h := by
    have hfits : checkDepth n above e.nodeType = .ok () := checkDepth_eq_ok.mpr (by omega)
    rw [hfits, ok_bind] at h
    cases ha : x n with
    | error e'' =>
      rw [ha] at h
      cases h
      exact hx.quiet n e' (by omega) ha
    | ok a =>
      rw [ha] at h
      cases h
  measured n r h := by
    obtain ⟨u, hfits, h⟩ := bind_eq_ok.mp h
    obtain ⟨a, ha, h⟩ := bind_eq_ok.mp h
    cases h
    have habove : above < n := checkDepth_eq_ok.mp hfits
    obtain ⟨hlow, hdeepest⟩ := hx.measured n a ha
    exact ⟨by omega, by rw [hdeepest]⟩
  bounded node h := by
    rcases List.mem_cons.mp h with rfl | h
    · exact Nat.le_max_left _ _
    · have hnode := hx.bounded node h
      omega
  cut m r n h habove hn := by
    obtain ⟨u, -, h⟩ := bind_eq_ok.mp h
    obtain ⟨a, ha, h⟩ := bind_eq_ok.mp h
    by_cases hroot : n = above
    · subst hroot
      have hdeep : checkDepth n n e.nodeType = .error { cause := .tooDeep n, node := e.nodeType } :=
        if_neg (Nat.lt_irrefl n)
      have hfirst : firstAt (n + 1) ((n + 1, e) :: nodes) = some e := by simp [firstAt]
      exact ⟨e, hfirst, by rw [hdeep, error_bind]⟩
    · have hfits : checkDepth n above e.nodeType = .ok () := checkDepth_eq_ok.mpr (by omega)
      obtain ⟨e', he, herror⟩ := hx.cut m a n ha (by omega) (by omega)
      have hbefore : ∀ node ∈ [(above + 1, e)], node.1 ≠ n + 1 := by
        intro node hnode
        rw [List.mem_singleton.mp hnode]
        show above + 1 ≠ n + 1
        omega
      have hfirst := @firstAt_append_of_forall_ne (n + 1) _ nodes hbefore
      refine ⟨e', hfirst.trans he, ?_⟩
      rw [hfits, ok_bind, herror, error_bind]

theorem leaf {x : Except CompileError α} (e : Expr) (wrap : α → β)
    (quiet : FailsOnly (fun error => error.kind ≠ .depthExceeded) x) :
    Guarded above (above + 1) [(above + 1, e)] (fun n => do
      checkDepth n above e.nodeType
      let v ← x
      pure ⟨wrap v, above + 1⟩) := by
  have hpart : Guarded (above + 1) 0 [] fun _ => x.map fun v => ⟨v, 0⟩ := by
    apply of_nothing
    · cases x with
      | ok v => exact failsOnly_ok
      | error fault => exact failsOnly_error (quiet fault rfl)
    · intro r h
      obtain ⟨v, -, rfl⟩ := map_eq_ok.mp h
      rfl
  have hnode := hpart.node e wrap
  rw [Nat.max_eq_left (Nat.zero_le _)] at hnode
  cases x with
  | ok v => exact hnode
  | error fault => exact hnode

theorem around {x : Nat → Except CompileError (Rendered α)} {height : Nat}
    (hx : Guarded (above + 1) (bottom (above + 1) height) nodes x) (e : Expr) (wrap : α → β) :
    Guarded above (bottom above (1 + height)) ((above + 1, e) :: nodes) (fun n => do
      checkDepth n above e.nodeType
      let a ← x n
      pure ⟨wrap a.value, max (above + 1) a.deepest⟩) := by
  rw [← bottom_succ]
  exact hx.node e wrap

theorem aroundBoth {x : Nat → Except CompileError (Rendered α)}
    {y : Nat → Except CompileError (Rendered β)} {height height' : Nat}
    (hx : Guarded (above + 1) (bottom (above + 1) height) nodes x)
    (hy : Guarded (above + 1) (bottom (above + 1) height') nodes' y) (e : Expr) (wrap : α → β → γ) :
    Guarded above (bottom above (1 + max height height')) ((above + 1, e) :: (nodes ++ nodes'))
      (fun n => do
        checkDepth n above e.nodeType
        let a ← x n
        let b ← y n
        pure ⟨wrap a.value b.value, max (above + 1) (max a.deepest b.deepest)⟩) := by
  have hboth := hx.both hy Prod.mk
  rw [max_bottom] at hboth
  have hnode := hboth.around e fun p => wrap p.1 p.2
  simp only [bind_assoc, pure_bind] at hnode
  exact hnode

end Guarded

end

theorem renderField_quiet (ctx : Context) (path : Text) :
    FailsOnly (fun error => error.kind ≠ .depthExceeded) (renderField ctx path) := by
  unfold renderField
  split
  next => exact failsOnly_ok
  next e he =>
    apply failsOnly_error
    rw [CompileError.kind_inNode, ctx.resolve_failsOnly path e he]
    nofun

theorem renderVariable_quiet (ctx : Context) (name : Text) :
    FailsOnly (fun error => error.kind ≠ .depthExceeded) (renderVariable ctx name) := by
  unfold renderVariable
  split
  next e he =>
    apply failsOnly_error
    rw [CompileError.kind_inNode, ctx.resolve_failsOnly name e he]
    nofun
  next =>
    split
    next => exact failsOnly_ok
    next => exact failsOnly_error nofun

namespace Expr

/-- Wherever the expression is rendered, the limit guards it. -/
def IsGuarded (e : Expr) : Prop :=
  ∀ ctx above, Guarded above (bottom above e.depth) (e.nodes (above + 1)) fun n => e.render n ctx above

section

variable (ctx : Context) (above : Nat)

theorem source_guarded {s : Source} (h : ∀ e ∈ s.parts, e.IsGuarded) :
    Guarded above (bottom above (depthFrom s)) (nodesFrom (above + 1) s)
      fun n => s.render n ctx above := by
  cases s with
  | field path =>
    refine .of_nothing ((renderField_quiet ctx path).bind fun _ => failsOnly_ok) ?_
    intro r hr
    obtain ⟨v, -, h⟩ := bind_eq_ok.mp hr
    cases h
    rfl
  | expr e => exact h e List.mem_cons_self ctx above

theorem renderAll_guarded {es : List Expr} (h : ∀ e ∈ es, e.IsGuarded) :
    Guarded above (bottom above (depthOf es)) (nodesOf (above + 1) es)
      fun n => renderAll n ctx above es := by
  induction es with
  | nil =>
    refine .of_nothing failsOnly_ok ?_
    intro r hr
    cases hr
    rfl
  | cons e es ih =>
    obtain ⟨he, hes⟩ := List.forall_mem_cons.mp h
    have hboth := (he ctx above).both (ih hes) List.cons
    rw [max_bottom] at hboth
    exact hboth

theorem renderEntries_guarded {es : List (Text × Expr)} (h : ∀ e ∈ es.map (·.2), e.IsGuarded) :
    Guarded above (bottom above (depthIn es)) (nodesIn (above + 1) es)
      fun n => renderEntries n ctx above es := by
  induction es with
  | nil =>
    refine .of_nothing failsOnly_ok ?_
    intro r hr
    cases hr
    rfl
  | cons q es ih =>
    obtain ⟨k, e⟩ := q
    obtain ⟨he, hes⟩ := List.forall_mem_cons.mp h
    have hboth := (he ctx above).both (ih hes) fun v vs => (k, v) :: vs
    rw [max_bottom] at hboth
    exact hboth

end

theorem isGuarded_of_own {e : Expr} (own : e.Every KeepsOwnFault) : e.IsGuarded := by
  induction own with
  | @node e here below ih =>
    intro ctx above
    cases e with
    | absent =>
      refine .of_nothing failsOnly_ok ?_
      intro r hr
      cases hr
      rfl
    | field path => exact .leaf (.field path) id (renderField_quiet ctx path)
    | var name => exact .leaf (.var name) id (renderVariable_quiet ctx name)
    | literal v => exact .leaf (x := .ok v) (.literal v) renderLiteral failsOnly_ok
    | raw v => exact .leaf (x := .ok v) (.raw v) id failsOnly_ok
    | faulty error =>
      have hkind : error.kind = .invalidArgument := here
      have quiet : FailsOnly (fun e => e.kind ≠ .depthExceeded) (.error error : Except _ Value) :=
        failsOnly_error (by rw [hkind]; nofun)
      exact .leaf (.faulty error) id quiet
    | operator op args =>
      exact (renderAll_guarded ctx (above + 1) ih).around (.operator op args) fun vs =>
        Value.doc op (.list vs)
    | array elements =>
      exact (renderAll_guarded ctx (above + 1) ih).around (.array elements) Value.list
    | object entries =>
      exact (renderEntries_guarded ctx (above + 1) ih).around (.object entries) Value.document
    | map input item body =>
      obtain ⟨hinput, hbody⟩ := List.forall_mem_append.mp ih
      have hsource := source_guarded ctx (above + 1) hinput
      have hinner := hbody body List.mem_cons_self (itemScope item ctx) (above + 1)
      exact hsource.aroundBoth hinner (.map input item body) fun source value =>
        iterationDocument "$map" "in" source item value
    | filter input item cond =>
      obtain ⟨hinput, hcond⟩ := List.forall_mem_append.mp ih
      have hsource := source_guarded ctx (above + 1) hinput
      have hinner := hcond cond List.mem_cons_self (itemScope item ctx) (above + 1)
      exact hsource.aroundBoth hinner (.filter input item cond) fun source value =>
        iterationDocument "$filter" "cond" source item value
    | reduce input initial body =>
      obtain ⟨hinput, hrest⟩ := List.forall_mem_append.mp ih
      have hsource := source_guarded ctx (above + 1) hinput
      have hstart := hrest initial List.mem_cons_self ctx (above + 1)
      have hinner := hrest body (List.mem_cons_of_mem _ List.mem_cons_self) (foldScope ctx) (above + 1)
      have hlast := hstart.both hinner Prod.mk
      rw [max_bottom] at hlast
      have hnode := hsource.aroundBoth hlast (.reduce input initial body) fun source p =>
        foldDocument source p.1 p.2
      simp only [bind_assoc, pure_bind] at hnode
      exact hnode
    | letIn vars body =>
      obtain ⟨hvars, hbody⟩ := List.forall_mem_append.mp ih
      have hvalues := renderEntries_guarded ctx (above + 1) hvars
      have hinner := hbody body List.mem_cons_self (bindingScope (vars.map (·.1)) ctx) (above + 1)
      exact hvalues.aroundBoth hinner (.letIn vars body) bindingDocument

end Expr

/-- The tree as a whole, with nothing above it. -/
theorem Expr.IsGuarded.whole {t : Expr} (guarded : t.IsGuarded) (ctx : Context) :
    Guarded 0 t.depth (t.nodes 1) fun n => t.render n ctx 0 := by
  have hall := guarded ctx 0
  have hlow : bottom 0 t.depth = t.depth := by
    unfold bottom
    split <;> omega
  rw [hlow] at hall
  exact hall

theorem Expr.Built.guarded {t : Expr} (built : t.Built) (ctx : Context) :
    Guarded 0 t.depth (t.nodes 1) fun n => t.render n ctx 0 :=
  (Expr.isGuarded_of_own (built.every_sound.mono fun _ sound => sound.2)).whole ctx

namespace Compiler

variable {c : Compiler} {t : Expr} {ctx : Context}

theorem compile_given (c : Compiler) (ctx : Context) (given : t ≠ .absent) :
    c.compile (some t) ctx =
      match t.render c.maxDepth ctx 0 with
      | .ok r => (.ok r.value, ⟨some t.nodeType, .ok r.deepest⟩)
      | .error e => (.error e, ⟨some t.nodeType, .error e⟩) := by
  cases t with
  | absent => exact absurd rfl given
  | _ => rfl

theorem render_of_compile_error {e : CompileError} (given : t ≠ .absent)
    (h : (c.compile (some t) ctx).1 = .error e) : t.render c.maxDepth ctx 0 = .error e := by
  rw [compile_given c ctx given] at h
  split at h
  next => cases h
  next e' he =>
    cases h
    exact he

theorem render_of_compile_ok {doc : Value} (given : t ≠ .absent)
    (h : (c.compile (some t) ctx).1 = .ok doc) :
    ∃ r, t.render c.maxDepth ctx 0 = .ok r ∧
      (c.compile (some t) ctx).2 = ⟨some t.nodeType, .ok r.deepest⟩ := by
  rw [compile_given c ctx given] at h ⊢
  split at h
  next r hr => exact ⟨r, hr, rfl⟩
  next => cases h

/-- A tree that the limit guards and that fits into it does not fail for reasons of depth. -/
theorem compile_quiet {e : CompileError} (guarded : t.IsGuarded) (fits : t.depth ≤ c.maxDepth)
    (h : (c.compile (some t) ctx).1 = .error e) : e.kind ≠ .depthExceeded := by
  by_cases habsent : t = .absent
  · subst habsent
    cases h
    nofun
  · exact (guarded.whole ctx).quiet c.maxDepth e fits (render_of_compile_error habsent h)

end Compiler

/-- The limit is exact. A tree that fits into it compiles with the same result and the same record under
every larger one, never for reasons of depth, and the record shows its depth. Otherwise the first node
in the order of rendering that lies just below the limit is the one that a compilation fails at if it
would succeed under any other limit. -/
theorem compile_limit_exact {t : Expr} (built : t.Built) (ctx : Context) (n : Nat) :
    let compiled := fun limit => Compiler.compile { maxDepth := limit } (some t) ctx
    (t.depth ≤ n →
      (∀ m, n ≤ m → compiled m = compiled n) ∧
      (∀ e, (compiled n).1 = .error e → e.kind ≠ .depthExceeded) ∧
      ∀ doc, (compiled n).1 = .ok doc →
        (compiled n).2.logLine? = some (.of .debug "compiled expression"
          [("node", .text t.nodeType), ("depth", .int t.depth)])) ∧
    (n < t.depth → (∃ m doc, (compiled m).1 = .ok doc) →
      ∃ e, firstAt (n + 1) (t.nodes 1) = some e ∧
        (compiled n).1 = .error { cause := .tooDeep n, node := e.nodeType }) := by
  intro compiled
  by_cases habsent : t = .absent
  · subst habsent
    refine ⟨fun _ => ⟨fun _ _ => rfl, ?_, fun _ h => nomatch h⟩, fun h => absurd h (Nat.not_lt_zero n)⟩
    intro e h
    cases h
    nofun
  · have guarded := built.guarded ctx
    refine ⟨fun hfits => ⟨?_, ?_, ?_⟩, ?_⟩
    · intro m hm
      have hsame : t.render m ctx 0 = t.render n ctx 0 := guarded.steady m n (by omega) hfits
      have hcompiled := Compiler.compile_given { maxDepth := m } ctx habsent
      rw [hsame] at hcompiled
      exact hcompiled.trans (Compiler.compile_given { maxDepth := n } ctx habsent).symm
    · intro e h
      exact guarded.quiet n e hfits (Compiler.render_of_compile_error habsent h)
    · intro doc h
      obtain ⟨r, hr, hrecord⟩ := Compiler.render_of_compile_ok habsent h
      obtain ⟨-, hdeepest⟩ := guarded.measured n r hr
      rw [hrecord, hdeepest]
      rfl
    · rintro hdeep ⟨m, doc, h⟩
      obtain ⟨r, hr, -⟩ := Compiler.render_of_compile_ok habsent h
      obtain ⟨e, he, herror⟩ := guarded.cut m r n hr (Nat.zero_le n) hdeep
      have hcompiled := Compiler.compile_given { maxDepth := n } ctx habsent
      rw [herror] at hcompiled
      exact ⟨e, he, congrArg Prod.fst hcompiled⟩

/-- A sum of a shallow branch and two deeper ones. -/
def branchedSum : Expr :=
  .operator (text "$add") [.literal (.int 1), .operator (text "$abs") [.field (text "a")],
    .array [.array [.literal (.int 2)]]]

theorem branchedSum_built : branchedSum.Built := by
  have habs : Expr.Built (.operator (text "$abs") [.field (text "a")]) :=
    .operator_of _ (List.forall_mem_singleton.mpr (.field _))
  have harray : Expr.Built (.array [.array [.literal (.int 2)]]) :=
    .array_of (List.forall_mem_singleton.mpr (.array_of (List.forall_mem_singleton.mpr (.literal _))))
  refine .operator_of _ (List.forall_mem_cons.mpr ⟨.literal _, ?_⟩)
  exact List.forall_mem_cons.mpr ⟨habs, List.forall_mem_singleton.mpr harray⟩

theorem branchedSum_cut :
    branchedSum.Built ∧ branchedSum.depth ≤ 4 ∧ 2 < branchedSum.depth ∧
      (Compiler.compile { maxDepth := 4 } (some branchedSum) .root).1.isOk = true ∧
      Compiler.compile { maxDepth := 256 } (some branchedSum) .root =
        Compiler.compile { maxDepth := 4 } (some branchedSum) .root ∧
      (Compiler.compile { maxDepth := 2 } (some branchedSum) .root).1 =
        .error { cause := .tooDeep 2, node := text "field" } := by
  have fits := (compile_limit_exact branchedSum_built .root 4).1 (by decide)
  have cut := (compile_limit_exact branchedSum_built .root 2).2 (by decide) ⟨4, _, rfl⟩
  obtain ⟨e, he, herror⟩ := cut
  have hfirst : firstAt 3 (branchedSum.nodes 1) = some (.field (text "a")) := rfl
  cases hfirst.symm.trans he
  exact ⟨branchedSum_built, by decide, by decide, rfl, fits.1 256 (by decide), herror⟩

end ScopedAggregation
