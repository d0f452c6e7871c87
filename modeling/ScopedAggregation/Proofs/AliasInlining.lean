import ScopedAggregation.Proofs.AliasData
import ScopedAggregation.Proofs.ExpressionPlaces
import ScopedAggregation.Proofs.Interchange
import ScopedAggregation.Proofs.WrittenTrees

namespace ScopedAggregation

section

variable {ε ε' α β γ δ : Type}

/-- Unless the first computation is cut off, both fail, or both succeed with related results. -/
inductive Matches (cut : ε → Prop) (R : α → β → Prop) : Except ε α → Except ε β → Prop
  | cut {e : ε} {y : Except ε β} (h : cut e) : Matches cut R (.error e) y
  | failed (e e' : ε) : Matches cut R (.error e) (.error e')
  | ok {a : α} {b : β} (h : R a b) : Matches cut R (.ok a) (.ok b)

namespace Matches

variable {cut : ε → Prop} {R : α → β → Prop} {S : γ → δ → Prop} {x : Except ε α} {y : Except ε β}

theorem bind {f : α → Except ε γ} {g : β → Except ε δ} (h : Matches cut R x y)
    (hf : ∀ a b, R a b → Matches cut S (f a) (g b)) : Matches cut S (x >>= f) (y >>= g) := by
  cases h with
  | cut h => exact .cut h
  | failed e e' => exact .failed e e'
  | ok h => exact hf _ _ h

theorem map {f : α → γ} {g : β → δ} (h : Matches cut R x y) (hf : ∀ a b, R a b → S (f a) (g b)) :
    Matches cut S (x.map f) (y.map g) := by
  cases h with
  | cut h => exact .cut h
  | failed e e' => exact .failed e e'
  | ok h => exact .ok (hf _ _ h)

theorem mapError {cut' : ε' → Prop} {f : ε → ε'} (h : Matches cut R x y)
    (hcut : ∀ e, cut e → cut' (f e)) : Matches cut' R (x.mapError f) (y.mapError f) := by
  cases h with
  | cut h => exact .cut (hcut _ h)
  | failed e e' => exact .failed (f e) (f e')
  | ok h => exact .ok h

theorem of_toOption {x y : Except ε α} (h : x.toOption = y.toOption) : Matches cut Eq x y := by
  cases x with
  | error e =>
    cases y with
    | error e' => exact .failed e e'
    | ok b => cases h
  | ok a =>
    cases y with
    | error e' => cases h
    | ok b => exact .ok (Option.some.inj h)

theorem refl (x : Except ε α) : Matches cut Eq x x := .of_toOption rfl

theorem mapM {f : γ → Except ε α} {g : δ → Except ε β} {xs : List γ} {ys : List δ}
    (h : List.Forall₂ (fun x y => Matches cut R (f x) (g y)) xs ys) :
    Matches cut (List.Forall₂ R) (xs.mapM f) (ys.mapM g) := by
  induction h with
  | nil => exact .ok .nil
  | cons hxy _ ih =>
    rw [List.mapM_cons, List.mapM_cons]
    exact hxy.bind fun a b hab => ih.bind fun as bs habs => .ok (.cons hab habs)

end Matches

end

namespace Expr

variable {cut : CompileError → Prop}

theorem checkInput_matches {node : Text} {input input' : Option Source}
    (h : Option.Rel Source.Interchangeable input input') :
    Matches cut Source.Interchangeable (checkInput node input) (checkInput node input') := by
  cases h with
  | none => exact .failed _ _
  | some h =>
    rw [checkInput_eq_ok.mpr ⟨rfl, h.left⟩, checkInput_eq_ok.mpr ⟨rfl, h.right⟩]
    exact .ok h

theorem need_matches {node : Text} {cause : Cause} {part part' : Option Expr}
    (h : Option.Rel Interchangeable part part') :
    Matches cut Interchangeable (need node cause part) (need node cause part') := by
  cases h with
  | none => exact .failed _ _
  | some h =>
    rw [need_eq_ok.mpr ⟨rfl, h.left⟩, need_eq_ok.mpr ⟨rfl, h.right⟩]
    exact .ok h

theorem checkIteration_matches {node item : Text} {input input' : Option Source}
    (h : Option.Rel Source.Interchangeable input input') :
    Matches cut Source.Interchangeable (checkIteration node input item)
      (checkIteration node input' item) := by
  refine (checkInput_matches h).bind fun s s' hs => ?_
  split
  next => exact .failed _ _
  next => exact (Matches.refl (checkVariableName node item)).bind fun _ _ _ => .ok hs

section

variable {input input' : Option Source} {initial initial' body body' : Option Expr}

theorem mapItems_matches (item : Text) (hinput : Option.Rel Source.Interchangeable input input')
    (hbody : Option.Rel Interchangeable body body') :
    Matches cut Interchangeable (mapItems input item body) (mapItems input' item body') :=
  (checkIteration_matches hinput).bind fun _ _ hs =>
    (need_matches hbody).bind fun _ _ hb => .ok (interchangeable_map item hs hb)

theorem filterItems_matches (item : Text) (hinput : Option.Rel Source.Interchangeable input input')
    (hcond : Option.Rel Interchangeable body body') :
    Matches cut Interchangeable (filterItems input item body) (filterItems input' item body') :=
  (checkIteration_matches hinput).bind fun _ _ hs =>
    (need_matches hcond).bind fun _ _ hb => .ok (interchangeable_filter item hs hb)

theorem reduceItems_matches (hinput : Option.Rel Source.Interchangeable input input')
    (hinitial : Option.Rel Interchangeable initial initial')
    (hbody : Option.Rel Interchangeable body body') :
    Matches cut Interchangeable (reduceItems input initial body)
      (reduceItems input' initial' body') :=
  (checkInput_matches hinput).bind fun _ _ hs => (need_matches hinitial).bind fun _ _ hi =>
    (need_matches hbody).bind fun _ _ hb => .ok (interchangeable_reduce hs hi hb)

def Declared (p p' : Text × Option Expr) : Prop :=
  p.1 = p'.1 ∧ ∃ e e', p.2 = some e ∧ p'.2 = some e' ∧ e.Interchangeable e'

theorem checkVariables_cons {index : Nat} {seen : List Text} {name : Text} {e : Expr}
    {rest : List (Text × Option Expr)} (given : e ≠ .absent) :
    checkVariables index seen ((name, some e) :: rest) =
      if name = [] then .error { cause := .unnamedVariable index, node := text "$let" }
      else checkVariableName (text "$let") name >>= fun _ =>
        if seen.any (· = name) then
          .error { cause := .repeatedVariable, name := name, node := text "$let" }
        else checkVariables (index + 1) (name :: seen) rest >>= fun others =>
          pure ((name, e) :: others) := by
  cases e with
  | absent => exact absurd rfl given
  | _ => rfl

theorem checkVariables_matches {vars vars' : List (Text × Option Expr)}
    (h : List.Forall₂ Declared vars vars') (index : Nat) (seen : List Text) :
    Matches cut (List.Forall₂ EntryInterchangeable) (checkVariables index seen vars)
      (checkVariables index seen vars') := by
  induction h generalizing index seen with
  | nil => exact .ok .nil
  | @cons p p' _ _ hp _ ih =>
    obtain ⟨name, value⟩ := p
    obtain ⟨name', value'⟩ := p'
    obtain ⟨hname, e, e', hvalue, hvalue', he⟩ := hp
    dsimp only at hname hvalue hvalue'
    subst hname hvalue hvalue'
    rw [checkVariables_cons he.left, checkVariables_cons he.right]
    split
    next => exact .failed _ _
    next =>
      refine (Matches.refl (checkVariableName _ name)).bind fun _ _ _ => ?_
      split
      next => exact .failed _ _
      next =>
        refine (ih (index + 1) (name :: seen)).bind fun rest rest' hrest => ?_
        exact .ok (List.Forall₂.cons ⟨rfl, he⟩ hrest)

theorem define_matches {vars vars' : List (Text × Option Expr)}
    (hvars : List.Forall₂ Declared vars vars') (hbody : Option.Rel Interchangeable body body') :
    Matches cut Interchangeable (define vars body) (define vars' body') :=
  (checkVariables_matches hvars 0 []).bind fun _ _ hv =>
    (need_matches hbody).bind fun _ _ hb => .ok (interchangeable_letIn hv hb)

end

end Expr

namespace Definition

open Yaml (Node Document ScalarKind ScalarStyle)

def isSequence : Node → Bool
  | .sequence .. => true
  | _ => false

def isMapping : Node → Bool
  | .mapping .. => true
  | _ => false

/-- The mapping is not taken for an operator. -/
def IsObject (entries : List (Node × Node)) : Prop :=
  ∀ k node, entries = [(k, node)] → isReference k.value = false

/-- As sources of an iterating construct the nodes are taken for the same field, if for any, or only
the second one is, and it is a field as an expression too. -/
def SameSource (node node' : Node) : Prop :=
  plainFieldPath? node = plainFieldPath? node' ∨ plainFieldPath? node = none ∧
    ∃ line kind style s, node' = .scalar line kind style s ∧ scalarData kind style s = .string s

/-- What a construct sees of its arguments before it reads any of them. -/
structure SameArguments (op : Text) (args args' : List (Node × Node)) : Prop where
  binds : constructArguments op ≠ []
  keys : args.map (·.1) = args'.map (·.1)
  item : scalarText (argument? args "as") = scalarText (argument? args' "as")
  source : ∀ node node', argument? args "input" = some node → argument? args' "input" = some node' →
    SameSource node node'
  declared : (declarations? op args).map (·.map (·.1)) = (declarations? op args').map (·.map (·.1))

section

variable (d d' : Document) (kept : Nat → Prop)

/-- The second node is the first one with copies in the place of some of its aliases, wherever
expressions are read. Copies may hold aliases themselves; those that are not replaced refer to
the numbers that are kept. Quoted data has to be the same once all aliases are followed. -/
inductive Inlined : Node → Node → Prop
  | scalar {line : Nat} {kind : ScalarKind} {style : ScalarStyle} {s : Text} :
    Inlined (.scalar line kind style s) (.scalar line kind style s)
  | copied {line target : Nat} {name : Text} {node copy : Node} (found : d.node? target = some node)
    (h : Inlined node copy) : Inlined (.backReference line name target) copy
  | kept {line target : Nat} {name : Text} (h : kept target) :
    Inlined (.backReference line name target) (.backReference line name target)
  | sequence {line : Nat} {items items' : List Node} (h : List.Forall₂ Inlined items items') :
    Inlined (.sequence line items) (.sequence line items')
  | object {line : Nat} {entries entries' : List (Node × Node)} (plain : IsObject entries)
    (keys : entries.map (·.1) = entries'.map (·.1))
    (h : List.Forall₂ Inlined (entries.map (·.2)) (entries'.map (·.2))) :
    Inlined (.mapping line entries) (.mapping line entries')
  | literal {line : Nat} {k node node' : Node} (key : k.value = text "$literal")
    (h : Copied d d' node node') :
    Inlined (.mapping line [(k, node)]) (.mapping line [(k, node')])
  | operator {line : Nat} {k node node' : Node} (sigil : isReference k.value = true)
    (ordinary : reservedOperators.contains k.value = false)
    (same : isSequence node = isSequence node') (h : Inlined node node') :
    Inlined (.mapping line [(k, node)]) (.mapping line [(k, node')])
  | construct {line line' : Nat} {k : Node} {args args' : List (Node × Node)}
    (same : SameArguments k.value args args')
    (h : ∀ name node node', name ∈ constructArguments k.value → argument? args name = some node →
      argument? args' name = some node' → Inlined node node')
    (values : ∀ vars vars', declarations? k.value args = some vars →
      declarations? k.value args' = some vars' →
      List.Forall₂ Inlined (vars.map (·.2)) (vars'.map (·.2))) :
    Inlined (.mapping line [(k, .mapping line' args)]) (.mapping line [(k, .mapping line' args')])
  | misshapen {line : Nat} {k node node' : Node} (binds : constructArguments k.value ≠ [])
    (h : isMapping node = false) (h' : isMapping node' = false) :
    Inlined (.mapping line [(k, node)]) (.mapping line [(k, node')])

end

section

variable {entries entries' : List (Node × Node)}

theorem entries_paired {R : Node → Node → Prop} (keys : entries.map (·.1) = entries'.map (·.1))
    (h : List.Forall₂ R (entries.map (·.2)) (entries'.map (·.2))) :
    List.Forall₂ (fun p p' => p.1 = p'.1 ∧ R p.2 p'.2) entries entries' := by
  rw [List.forall₂_map_left_iff, List.forall₂_map_right_iff] at h
  induction h with
  | nil => exact .nil
  | cons hp _ ih =>
    obtain ⟨hkey, hrest⟩ := List.cons.inj keys
    exact .cons ⟨hkey, hp⟩ (ih hrest)

theorem any_key (p : Node → Bool) (keys : entries.map (·.1) = entries'.map (·.1)) :
    (entries.any fun q => p q.1) = entries'.any fun q => p q.1 := by
  have h := congrArg (List.any · p) keys
  rwa [List.any_map, List.any_map] at h

theorem argument?_isSome (entries : List (Node × Node)) (name : String) :
    (argument? entries name).isSome = entries.any fun q => decide (q.1.value = text name) := by
  rw [argument?, Option.isSome_map, List.isSome_find?, List.any_reverse]

theorem argument?_rel {R : Node → Node → Prop} {name : String}
    (keys : entries.map (·.1) = entries'.map (·.1))
    (h : ∀ node node', argument? entries name = some node → argument? entries' name = some node' →
      R node node') :
    Option.Rel R (argument? entries name) (argument? entries' name) := by
  have same : (argument? entries name).isSome = (argument? entries' name).isSome := by
    rw [argument?_isSome, argument?_isSome]
    exact any_key (fun k => decide (k.value = text name)) keys
  generalize argument? entries name = arg at h same
  generalize argument? entries' name = arg' at h same
  cases arg with
  | none =>
    cases arg' with
    | none => exact .none
    | some => cases same
  | some node =>
    cases arg' with
    | none => cases same
    | some node' => exact .some (h node node' rfl rfl)

end

abbrev TooDeep (r : Rejection) : Prop := r.fault = .tooDeep

/-- The readers take the nodes for interchangeable expressions, or reject both of them. -/
abbrev ReadAlike (inner inner' : Inner) (node node' : Node) : Prop :=
  Matches TooDeep Expr.Interchangeable (inner node) (inner' node')

section

variable {inner inner' : Inner} {place : Location} {line line' : Nat}
  {args args' : List (Node × Node)}

theorem bindingArguments_matches (allowed : List String) (keys : args.map (·.1) = args'.map (·.1)) :
    Matches TooDeep (fun f f' => (∀ name, f (text name) = argument? args name) ∧
        ∀ name, f' (text name) = argument? args' name)
      (bindingArguments place allowed (.mapping line args))
      (bindingArguments place allowed (.mapping line' args')) := by
  have same := any_key (fun k => !allowed.any fun a => text a = k.value) keys
  rw [← List.isSome_find?, ← List.isSome_find?] at same
  unfold bindingArguments
  dsimp only
  split
  next hfound =>
    rw [hfound] at same
    split
    next => exact .failed _ _
    next hnone =>
      rw [hnone] at same
      cases same
  next hnone =>
    rw [hnone] at same
    split
    next hfound =>
      rw [hfound] at same
      cases same
    next => exact .ok ⟨fun _ => rfl, fun _ => rfl⟩

theorem optional_matches {arg arg' : Option Node} (h : Option.Rel (ReadAlike inner inner') arg arg') :
    Matches TooDeep (Option.Rel Expr.Interchangeable) (inner.optional arg)
      (inner'.optional arg') := by
  cases h with
  | none => exact .ok .none
  | some h => exact h.map fun _ _ he => .some he

theorem built_matches {x y : Except CompileError Expr}
    (h : Matches (fun _ => False) Expr.Interchangeable x y) :
    Matches TooDeep Expr.Interchangeable (built place x) (built place y) :=
  h.mapError fun _ => False.elim

/-- A field without a formula is read as what it is taken for. -/
theorem readExpr_plainField {d : Document} {levels : Nat} {kind : ScalarKind} {style : ScalarStyle}
    {s path : Text} (data : scalarData kind style s = .string s)
    (h : plainFieldPath? (.scalar line kind style s) = some path) :
    path ≠ [] ∧ readExpr d (levels + 1) (.scalar line kind style s) = .ok (.field path) := by
  obtain ⟨⟨_, _, _, heq⟩, given, plain, unmarked⟩ := plainFieldPath?_eq_some h
  cases heq
  refine ⟨given, ?_⟩
  rw [readExpr, data]
  exact stringExpr_field given plain unmarked

theorem source_matches {d d' : Document} {levels levels' : Nat} {node node' : Node}
    (hle : levels ≤ levels') (same : SameSource node node')
    (h : ReadAlike (readExpr d levels) (readExpr d' levels') node node') :
    Matches TooDeep (Option.Rel Source.Interchangeable) ((readExpr d levels : Inner).source (some node))
      ((readExpr d' levels' : Inner).source (some node')) := by
  have asExpressions : Matches TooDeep (Option.Rel Source.Interchangeable)
      ((readExpr d levels node).map fun e => some (Source.expr e))
      ((readExpr d' levels' node').map fun e => some (Source.expr e)) :=
    h.map fun _ _ he => .some (Source.interchangeable_expr he)
  unfold Inner.source
  dsimp only
  rcases same with same | ⟨hnone, l, kind, style, s, rfl, data⟩
  · rw [same]
    split
    next path hpath =>
      obtain ⟨-, given, -⟩ := plainFieldPath?_eq_some hpath
      exact .ok (.some (.refl (by simpa using given)))
    next => exact asExpressions
  · rw [hnone]
    dsimp only
    split
    next path hpath =>
      -- The copy is taken as a field without being read; what it stands for is read, one level down.
      cases levels with
      | zero => exact .cut rfl
      | succ levels =>
        obtain ⟨levels', rfl⟩ : ∃ k, levels' = k + 1 := ⟨levels' - 1, by omega⟩
        obtain ⟨given, hfield⟩ := @readExpr_plainField _ d' levels' _ _ _ _ data hpath
        unfold ReadAlike at h
        rw [hfield] at h
        cases hread : readExpr d (levels + 1) node with
        | error e =>
          rw [hread] at h
          cases h with
          | cut h => exact .cut h
        | ok e =>
          rw [hread] at h
          cases h with
          | ok he => exact .ok (.some (Source.interchangeable_field given he))
    next => exact asExpressions

theorem map_matches (keys : args.map (·.1) = args'.map (·.1))
    (item : scalarText (argument? args "as") = scalarText (argument? args' "as"))
    (source : Matches TooDeep (Option.Rel Source.Interchangeable)
      (inner.source (argument? args "input")) (inner'.source (argument? args' "input")))
    (body : Option.Rel (ReadAlike inner inner') (argument? args "in") (argument? args' "in")) :
    Matches TooDeep Expr.Interchangeable (inner.map place (.mapping line args))
      (inner'.map place (.mapping line' args')) := by
  refine (bindingArguments_matches _ keys).bind fun f f' ⟨hf, hf'⟩ => ?_
  simp only [hf, hf', item]
  exact source.bind fun _ _ hs => (optional_matches body).bind fun _ _ hb =>
    built_matches (Expr.mapItems_matches _ hs hb)

theorem filter_matches (keys : args.map (·.1) = args'.map (·.1))
    (item : scalarText (argument? args "as") = scalarText (argument? args' "as"))
    (source : Matches TooDeep (Option.Rel Source.Interchangeable)
      (inner.source (argument? args "input")) (inner'.source (argument? args' "input")))
    (cond : Option.Rel (ReadAlike inner inner') (argument? args "cond") (argument? args' "cond")) :
    Matches TooDeep Expr.Interchangeable (inner.filter place (.mapping line args))
      (inner'.filter place (.mapping line' args')) := by
  refine (bindingArguments_matches _ keys).bind fun f f' ⟨hf, hf'⟩ => ?_
  simp only [hf, hf', item]
  exact source.bind fun _ _ hs => (optional_matches cond).bind fun _ _ hb =>
    built_matches (Expr.filterItems_matches _ hs hb)

theorem reduce_matches (keys : args.map (·.1) = args'.map (·.1))
    (source : Matches TooDeep (Option.Rel Source.Interchangeable)
      (inner.source (argument? args "input")) (inner'.source (argument? args' "input")))
    (initial : Option.Rel (ReadAlike inner inner') (argument? args "initialValue")
      (argument? args' "initialValue"))
    (body : Option.Rel (ReadAlike inner inner') (argument? args "in") (argument? args' "in")) :
    Matches TooDeep Expr.Interchangeable (inner.reduce place (.mapping line args))
      (inner'.reduce place (.mapping line' args')) := by
  refine (bindingArguments_matches _ keys).bind fun f f' ⟨hf, hf'⟩ => ?_
  simp only [hf, hf']
  exact source.bind fun _ _ hs => (optional_matches initial).bind fun _ _ hi =>
    (optional_matches body).bind fun _ _ hb => built_matches (Expr.reduceItems_matches hs hi hb)

theorem declarations?_let (args : List (Node × Node)) :
    declarations? (text "$let") args =
      match argument? args "vars" with
      | some (.mapping _ vars) => some vars
      | _ => none := rfl

theorem bindings_matches (keys : args.map (·.1) = args'.map (·.1))
    (names : (declarations? (text "$let") args).map (·.map (·.1)) =
      (declarations? (text "$let") args').map (·.map (·.1)))
    (values : ∀ vars vars', declarations? (text "$let") args = some vars →
      declarations? (text "$let") args' = some vars' →
      List.Forall₂ (ReadAlike inner inner') (vars.map (·.2)) (vars'.map (·.2))) :
    Matches TooDeep (List.Forall₂ Expr.Declared) (inner.bindings place (argument? args "vars"))
      (inner'.bindings place (argument? args' "vars")) := by
  have given : Option.Rel (fun _ _ => True) (argument? args "vars") (argument? args' "vars") :=
    argument?_rel keys fun _ _ _ _ => trivial
  rw [declarations?_let, declarations?_let] at names values
  generalize argument? args "vars" = arg at given names values
  generalize argument? args' "vars" = arg' at given names values
  cases given with
  | none => exact .ok .nil
  | @some node node' _ =>
    cases node with
    | mapping line vars =>
      cases node' with
      | mapping line' vars' =>
        have paired := entries_paired (Option.some.inj names) (values vars vars' rfl rfl)
        refine Matches.mapM (paired.imp ?_)
        rintro ⟨k, node⟩ ⟨k', node'⟩ ⟨hkey, hread⟩
        dsimp only at hkey hread ⊢
        exact hread.map fun e e' he => ⟨congrArg Node.value hkey, e, e', rfl, rfl, he⟩
      | _ => cases names
    | _ =>
      cases node' with
      | mapping => cases names
      | _ => exact .failed _ _

theorem letIn_matches (keys : args.map (·.1) = args'.map (·.1))
    (names : (declarations? (text "$let") args).map (·.map (·.1)) =
      (declarations? (text "$let") args').map (·.map (·.1)))
    (values : ∀ vars vars', declarations? (text "$let") args = some vars →
      declarations? (text "$let") args' = some vars' →
      List.Forall₂ (ReadAlike inner inner') (vars.map (·.2)) (vars'.map (·.2)))
    (body : Option.Rel (ReadAlike inner inner') (argument? args "in") (argument? args' "in")) :
    Matches TooDeep Expr.Interchangeable (inner.letIn place (.mapping line args))
      (inner'.letIn place (.mapping line' args')) := by
  refine (bindingArguments_matches _ keys).bind fun f f' ⟨hf, hf'⟩ => ?_
  simp only [hf, hf']
  exact (bindings_matches keys names values).bind fun _ _ hv =>
    (optional_matches body).bind fun _ _ hb => built_matches (Expr.define_matches hv hb)

/-- The call of an operator, where it accepts so many arguments. -/
def callOf (place : Location) (op : Text) (args : List Expr) : Except Rejection Expr :=
  match arityOf? op with
  | some arity =>
    if arity.accepts args.length then .ok (.operator op args)
    else .error ⟨.argumentCount op args.length, place⟩
  | none => .ok (.operator op args)

theorem operator_several {op : Text} {items : List Node} :
    inner.operator place op (.sequence line items) = items.mapM inner >>= callOf place op := rfl

theorem operator_single {op : Text} {node : Node} (h : isSequence node = false) :
    inner.operator place op node = (inner node).map ([·]) >>= callOf place op := by
  cases node with
  | sequence => cases h
  | _ => rfl

theorem callOf_matches {op : Text} {args args' : List Expr}
    (h : List.Forall₂ Expr.Interchangeable args args') :
    Matches TooDeep Expr.Interchangeable (callOf place op args) (callOf place op args') := by
  have called := Expr.interchangeable_operator op h
  unfold callOf
  rw [h.length_eq]
  split
  next =>
    split
    next => exact .ok called
    next => exact .failed _ _
  next => exact .ok called

theorem entries_matches {entries entries' : List (Node × Node)}
    (h : List.Forall₂ (fun p p' => p.1 = p'.1 ∧ ReadAlike inner inner' p.2 p'.2) entries entries')
    (seen : List Text) :
    Matches TooDeep (List.Forall₂ EntryInterchangeable) (inner.entries seen entries)
      (inner'.entries seen entries') := by
  induction h generalizing seen with
  | nil => exact .ok .nil
  | @cons p p' _ _ hp _ ih =>
    obtain ⟨k, node⟩ := p
    obtain ⟨k', node'⟩ := p'
    obtain ⟨hkey, hread⟩ := hp
    dsimp only at hkey hread
    subst hkey
    rw [Inner.entries, Inner.entries]
    split
    next => exact .failed _ _
    next =>
      split
      next => exact .failed _ _
      next =>
        refine hread.bind fun e e' he => (ih (k.value :: seen)).bind fun es es' hes => ?_
        exact .ok (List.Forall₂.cons ⟨rfl, he⟩ hes)

end

section

variable {d d' : Document} {kept : Nat → Prop} {levels levels' : Nat} {line : Nat} {k : Node}

theorem constructArguments_cases {op : Text} (h : constructArguments op ≠ []) :
    op = text "$map" ∨ op = text "$filter" ∨ op = text "$reduce" ∨ op = text "$let" := by
  unfold constructArguments at h
  split at h
  next hop => exact .inl hop
  next =>
    split at h
    next hop => exact .inr (.inl hop)
    next =>
      split at h
      next hop => exact .inr (.inr (.inl hop))
      next =>
        split at h
        next hop => exact .inr (.inr (.inr hop))
        next => exact absurd rfl h

theorem readExpr_object {entries : List (Node × Node)} (plain : IsObject entries) :
    readExpr d (levels + 1) (.mapping line entries) =
      ((readExpr d levels : Inner).entries [] entries).map .object := by
  unfold readExpr Inner.mapping
  dsimp only
  split
  next k node =>
    have hkey : Text.startsWith [Ascii.dollar] k.value = false := plain k node rfl
    rw [hkey]
    rfl
  next => rfl

theorem readExpr_operator {node : Node} (sigil : isReference k.value = true)
    (ordinary : reservedOperators.contains k.value = false) :
    readExpr d (levels + 1) (.mapping line [(k, node)]) =
      (readExpr d levels : Inner).operator (.operator k.line k.value) k.value node := by
  simp only [reservedOperators, List.contains_eq_mem, List.mem_cons, List.not_mem_nil,
    decide_eq_false_iff_not, not_or] at ordinary
  obtain ⟨hliteral, hmap, hfilter, hreduce, hlet, -⟩ := ordinary
  rw [readExpr_construct rfl sigil]
  dsimp only
  rw [if_neg hliteral, if_neg hmap, if_neg hfilter, if_neg hreduce, if_neg hlet]

theorem ne_absent_of_read {node : Node} {e : Expr} (h : readExpr d levels node = .ok e) :
    e ≠ .absent := by
  rintro rfl
  cases reads_every_written (readExpr_reads h) with
  | node here _ => exact here

theorem scalar_matches {kind : ScalarKind} {style : ScalarStyle} {s : Text} :
    ReadAlike (readExpr d (levels + 1)) (readExpr d' (levels' + 1)) (.scalar line kind style s)
      (.scalar line kind style s) := by
  have same : readExpr d' (levels' + 1) (.scalar line kind style s) =
      readExpr d (levels + 1) (.scalar line kind style s) := rfl
  unfold ReadAlike
  rw [same]
  cases hread : readExpr d (levels + 1) (.scalar line kind style s) with
  | error e => exact .failed e e
  | ok e => exact .ok (.refl (ne_absent_of_read hread))

/-- The arguments of an operator are alike where both nodes list them, or neither does. -/
theorem operator_matches {node node' : Node} {place : Location} {op : Text}
    (below : ∀ n n', Inlined d d' kept n n' → ReadAlike (readExpr d levels) (readExpr d' levels') n n')
    (same : isSequence node = isSequence node') (h : Inlined d d' kept node node') :
    Matches TooDeep Expr.Interchangeable ((readExpr d levels : Inner).operator place op node)
      ((readExpr d' levels' : Inner).operator place op node') := by
  cases several : isSequence node with
  | false =>
    rw [operator_single several, operator_single (same ▸ several)]
    exact ((below _ _ h).map fun _ _ he => List.Forall₂.cons he .nil).bind fun _ _ => callOf_matches
  | true =>
    cases node with
    | sequence line items =>
      cases h with
      | sequence h =>
        rw [operator_several, operator_several]
        exact (Matches.mapM (h.imp below)).bind fun _ _ => callOf_matches
    | _ => cases several

theorem construct_matches {args args' : List (Node × Node)} {line' : Nat} (hle : levels ≤ levels')
    (below : ∀ n n', Inlined d d' kept n n' → ReadAlike (readExpr d levels) (readExpr d' levels') n n')
    (same : SameArguments k.value args args')
    (h : ∀ name node node', name ∈ constructArguments k.value → argument? args name = some node →
      argument? args' name = some node' → Inlined d d' kept node node')
    (values : ∀ vars vars', declarations? k.value args = some vars →
      declarations? k.value args' = some vars' →
      List.Forall₂ (Inlined d d' kept) (vars.map (·.2)) (vars'.map (·.2))) :
    ReadAlike (readExpr d (levels + 1)) (readExpr d' (levels' + 1))
      (.mapping line [(k, .mapping line' args)]) (.mapping line [(k, .mapping line' args')]) := by
  have argument : ∀ name ∈ constructArguments k.value,
      Option.Rel (ReadAlike (readExpr d levels) (readExpr d' levels')) (argument? args name)
        (argument? args' name) := by
    intro name mem
    exact argument?_rel same.keys fun node node' found found' =>
      below _ _ (h name node node' mem found found')
  have source : "input" ∈ constructArguments k.value →
      Matches TooDeep (Option.Rel Source.Interchangeable)
        ((readExpr d levels : Inner).source (argument? args "input"))
        ((readExpr d' levels' : Inner).source (argument? args' "input")) := by
    intro mem
    have given := argument?_rel (R := fun node node' => SameSource node node' ∧
        ReadAlike (readExpr d levels) (readExpr d' levels') node node') same.keys
      fun node node' found found' => ⟨same.source node node' found found',
        below _ _ (h "input" node node' mem found found')⟩
    generalize argument? args "input" = arg at given
    generalize argument? args' "input" = arg' at given
    cases given with
    | none => exact .ok .none
    | some h => exact source_matches hle h.1 h.2
  have names := same.declared
  unfold ReadAlike
  rcases constructArguments_cases same.binds with hk | hk | hk | hk
  · rw [readExpr_construct hk (by decide), readExpr_construct hk (by decide)]
    rw [hk] at source argument
    exact map_matches same.keys same.item (source (by decide)) (argument "in" (by decide))
  · rw [readExpr_construct hk (by decide), readExpr_construct hk (by decide)]
    rw [hk] at source argument
    exact filter_matches same.keys same.item (source (by decide)) (argument "cond" (by decide))
  · rw [readExpr_construct hk (by decide), readExpr_construct hk (by decide)]
    rw [hk] at source argument
    exact reduce_matches same.keys (source (by decide)) (argument "initialValue" (by decide))
      (argument "in" (by decide))
  · rw [readExpr_construct hk (by decide), readExpr_construct hk (by decide)]
    rw [hk] at names values argument
    refine letIn_matches same.keys names (fun vars vars' found found' => ?_)
      (argument "in" (by decide))
    exact (values vars vars' found found').imp below

theorem readExpr_misshapen {node : Node} (binds : constructArguments k.value ≠ [])
    (h : isMapping node = false) :
    ∃ r, readExpr d (levels + 1) (.mapping line [(k, node)]) = .error r := by
  have rejected : ∀ (place : Location) (allowed : List String),
      bindingArguments place allowed node = .error ⟨.argumentShape, place⟩ := by
    intro place allowed
    cases node with
    | mapping => cases h
    | _ => rfl
  rcases constructArguments_cases binds with hk | hk | hk | hk
  · rw [readExpr_construct hk (by decide)]
    exact ⟨_, congrArg (· >>= _) (rejected _ _)⟩
  · rw [readExpr_construct hk (by decide)]
    exact ⟨_, congrArg (· >>= _) (rejected _ _)⟩
  · rw [readExpr_construct hk (by decide)]
    exact ⟨_, congrArg (· >>= _) (rejected _ _)⟩
  · rw [readExpr_construct hk (by decide)]
    exact ⟨_, congrArg (· >>= _) (rejected _ _)⟩

/-- Wherever expressions are read, a copy does what the alias does. The induction is on the levels: a
node may be read again and again through its aliases, but each time one level deeper. -/
theorem readExpr_inlined {node node' : Node}
    (anchors : ∀ target, kept target → ∃ m m', d.node? target = some m ∧
      d'.node? target = some m' ∧ Inlined d d' kept m m')
    (hle : levels ≤ levels') (h : Inlined d d' kept node node') :
    ReadAlike (readExpr d levels) (readExpr d' levels') node node' := by
  induction levels generalizing levels' node node' with
  | zero => exact .cut rfl
  | succ levels ih =>
    obtain ⟨levels', rfl⟩ : ∃ l, levels' = l + 1 := ⟨levels' - 1, by omega⟩
    have hle' : levels ≤ levels' := by omega
    have below : ∀ n n', Inlined d d' kept n n' →
        ReadAlike (readExpr d levels) (readExpr d' levels') n n' := fun _ _ => ih hle'
    cases h with
    | scalar => exact scalar_matches
    | @copied line target name node _ found h =>
      have hnode : readExpr d (levels + 1) (.backReference line name target) =
          readExpr d levels node := by simp only [readExpr, found]
      unfold ReadAlike
      rw [hnode]
      -- The alias takes a level that the copy does not.
      exact ih (by omega) h
    | @kept line target name h =>
      obtain ⟨m, m', found, found', h⟩ := anchors target h
      unfold ReadAlike
      simp only [readExpr, found, found']
      exact below _ _ h
    | sequence h =>
      exact (Matches.mapM (h.imp below)).map fun _ _ hes => Expr.interchangeable_array hes
    | @object line entries entries' plain keys h =>
      have plain' : IsObject entries' := by
        rintro k node rfl
        obtain ⟨p, rfl, hk⟩ := List.map_eq_singleton_iff.mp keys
        exact (congrArg (isReference ·.value) hk).symm.trans (plain p.1 p.2 rfl)
      unfold ReadAlike
      rw [readExpr_object plain, readExpr_object plain']
      exact (entries_matches (entries_paired keys (h.imp below)) []).map
        fun _ _ hes => Expr.interchangeable_object hes
    | literal key h =>
      unfold ReadAlike
      rw [readExpr_construct key (by decide), readExpr_construct key (by decide)]
      dsimp only
      rw [if_pos rfl, if_pos rfl, dataOf_copied h]
      exact .ok (.refl (by simp))
    | operator sigil ordinary same h =>
      unfold ReadAlike
      rw [readExpr_operator sigil ordinary, readExpr_operator sigil ordinary]
      exact operator_matches below same h
    | construct same h values => exact construct_matches hle' below same h values
    | misshapen binds h h' =>
      obtain ⟨r, hr⟩ := readExpr_misshapen (d := d) binds h
      obtain ⟨r', hr'⟩ := readExpr_misshapen (d := d') binds h'
      unfold ReadAlike
      rw [hr, hr']
      exact .failed r r'

end

end Definition

end ScopedAggregation
