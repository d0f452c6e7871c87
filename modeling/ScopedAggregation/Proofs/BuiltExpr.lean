import ScopedAggregation.Expr.Build
import ScopedAggregation.Proofs.ExprTree
import ScopedAggregation.Proofs.Success
import Mathlib.Tactic.Common

namespace ScopedAggregation.Expr

/-- The trees that can be built. A missing part is `none` where it is not given at all, and `absent`
where something was given that stands for nothing. -/
inductive Built : Expr → Prop
  | absent : Built .absent
  | field (path : Text) : Built (.field path)
  | var (name : Text) : Built (.var name)
  | literal (v : Value) : Built (.literal v)
  | raw (v : Value) : Built (.raw v)
  | operator (op : Text) {args : List (Option Expr)} (parts : ∀ e, some e ∈ args → Built e) :
    Built (operatorOf op args)
  | array {elements : List (Option Expr)} (parts : ∀ e, some e ∈ elements → Built e) :
    Built (arrayOf elements)
  | object (keys : List Text) {values : List (Option Expr)}
    (parts : ∀ e, some e ∈ values → Built e) : Built (objectOf keys values)
  | pairs {arguments : List Argument} (parts : ∀ e, .expr (some e) ∈ arguments → Built e) :
    Built (objectOfPairs arguments)
  | map {input : Option Source} {item : Text} {body : Option Expr} {e : Expr}
    (source : ∀ e, input = some (.expr e) → Built e) (inner : ∀ e, body = some e → Built e)
    (accepted : mapItems input item body = .ok e) : Built e
  | filter {input : Option Source} {item : Text} {cond : Option Expr} {e : Expr}
    (source : ∀ e, input = some (.expr e) → Built e) (inner : ∀ e, cond = some e → Built e)
    (accepted : filterItems input item cond = .ok e) : Built e
  | reduce {input : Option Source} {initial body : Option Expr} {e : Expr}
    (source : ∀ e, input = some (.expr e) → Built e) (start : ∀ e, initial = some e → Built e)
    (inner : ∀ e, body = some e → Built e) (accepted : reduceItems input initial body = .ok e) :
    Built e
  | letIn {vars : List (Text × Option Expr)} {body : Option Expr} {e : Expr}
    (values : ∀ name e, (name, some e) ∈ vars → Built e) (inner : ∀ e, body = some e → Built e)
    (accepted : define vars body = .ok e) : Built e

theorem map_orNull (parts : List Expr) : (parts.map some).map orNull = parts := by
  rw [List.map_map]
  exact List.map_id parts

theorem Built.operator_of (op : Text) {args : List Expr} (parts : ∀ e ∈ args, e.Built) :
    Built (.operator op args) := by
  have h : Built (operatorOf op (args.map some)) := .operator op fun e he => parts e (by simpa using he)
  rwa [operatorOf, map_orNull] at h

theorem Built.array_of {elements : List Expr} (parts : ∀ e ∈ elements, e.Built) :
    Built (.array elements) := by
  have h : Built (arrayOf (elements.map some)) := .array fun e he => parts e (by simpa using he)
  rwa [arrayOf, map_orNull] at h

theorem Built.map_of {path item : Text} {body : Expr} (inner : body.Built)
    (accepted : mapItems (some (.field path)) item (some body) = .ok (.map (.field path) item body)) :
    Built (.map (.field path) item body) := by
  refine .map (fun _ h => ?_) (fun _ h => ?_) accepted
  · cases h
  · cases h
    exact inner

theorem Built.letIn_of {vars : List (Text × Expr)} {body : Expr} (values : ∀ q ∈ vars, q.2.Built)
    (inner : body.Built)
    (accepted : define (vars.map fun q => (q.1, some q.2)) (some body) = .ok (.letIn vars body)) :
    Built (.letIn vars body) := by
  refine .letIn (fun name v h => ?_) (fun _ h => ?_) accepted
  · obtain ⟨q, hq, hpair⟩ := List.mem_map.mp h
    cases hpair
    exact values q hq
  · cases h
    exact inner

/-- A name that a binder may declare: not empty, without sigils and separators. -/
def IsVariableName (name : Text) : Prop :=
  name ≠ [] ∧ ∀ b ∈ name, b ≠ Ascii.dollar ∧ b ≠ Ascii.dot

/-- What the builders check of a node itself. -/
def WellFormed : Expr → Prop
  | .object entries => (entries.map (·.1)).Nodup
  | .map _ item _ => IsVariableName item
  | .filter _ item _ => IsVariableName item
  | .letIn vars _ => (∀ p ∈ vars, IsVariableName p.1) ∧ (vars.map (·.1)).Nodup
  | _ => True

theorem checkVariableName_eq_ok {node name : Text} {u : Unit} :
    checkVariableName node name = .ok u ↔ ∀ b ∈ name, b ≠ Ascii.dollar ∧ b ≠ Ascii.dot := by
  unfold checkVariableName
  split
  next hany => simpa [List.any_eq_true, imp_iff_not_or] using hany
  next hany => simpa [List.any_eq_true] using hany

theorem need_eq_ok {node : Text} {cause : Cause} {part : Option Expr} {e : Expr} :
    need node cause part = .ok e ↔ part = some e ∧ e ≠ .absent := by
  unfold need
  split
  next => simp
  next => simp [eq_comm]
  next => grind

theorem checkInput_eq_ok {node : Text} {input : Option Source} {s : Source} :
    checkInput node input = .ok s ↔ input = some s ∧ s ≠ .field [] := by
  unfold checkInput
  split
  next => simp
  next => grind
  next => grind

theorem checkIteration_eq_ok {node item : Text} {input : Option Source} {s : Source} :
    checkIteration node input item = .ok s ↔
      input = some s ∧ s ≠ .field [] ∧ IsVariableName item := by
  unfold checkIteration
  rw [bind_eq_ok]
  simp only [checkInput_eq_ok]
  constructor
  · rintro ⟨t, ⟨ht, hne⟩, h⟩
    split at h
    next => simp at h
    next hn =>
      obtain ⟨u, hu, h⟩ := bind_eq_ok.mp h
      cases h
      exact ⟨ht, hne, hn, checkVariableName_eq_ok.mp hu⟩
  · rintro ⟨hi, hne, hn, hb⟩
    refine ⟨s, ⟨hi, hne⟩, ?_⟩
    rw [if_neg hn]
    exact bind_eq_ok.mpr ⟨(), checkVariableName_eq_ok.mpr hb, rfl⟩

/-- What a construct that visits every item is built from: an input, a name and a body. -/
structure Visits (input : Option Source) (item : Text) (body : Option Expr) (s : Source) (b : Expr) :
    Prop where
  input_eq : input = some s
  given : s ≠ .field []
  name : IsVariableName item
  body_eq : body = some b
  present : b ≠ .absent

theorem visit_eq_ok {node : Text} {cause : Cause} {input : Option Source} {item : Text}
    {body : Option Expr} {e : Expr} (make : Source → Expr → Expr) :
    (do
      let s ← checkIteration node input item
      let b ← need node cause body
      pure (make s b)) = .ok e ↔ ∃ s b, Visits input item body s b ∧ e = make s b := by
  constructor
  · intro h
    obtain ⟨s, hs, h⟩ := bind_eq_ok.mp h
    obtain ⟨b, hb, h⟩ := bind_eq_ok.mp h
    cases h
    obtain ⟨hi, hne, hn⟩ := checkIteration_eq_ok.mp hs
    obtain ⟨hb, hp⟩ := need_eq_ok.mp hb
    exact ⟨s, b, ⟨hi, hne, hn, hb, hp⟩, rfl⟩
  · rintro ⟨s, b, h, rfl⟩
    refine bind_eq_ok.mpr ⟨s, checkIteration_eq_ok.mpr ⟨h.input_eq, h.given, h.name⟩, ?_⟩
    exact bind_eq_ok.mpr ⟨b, need_eq_ok.mpr ⟨h.body_eq, h.present⟩, rfl⟩

theorem mapItems_eq_ok {input : Option Source} {item : Text} {body : Option Expr} {e : Expr} :
    mapItems input item body = .ok e ↔
      ∃ s b, Visits input item body s b ∧ e = .map s item b := by
  unfold mapItems
  exact visit_eq_ok fun s b => .map s item b

theorem filterItems_eq_ok {input : Option Source} {item : Text} {cond : Option Expr} {e : Expr} :
    filterItems input item cond = .ok e ↔
      ∃ s b, Visits input item cond s b ∧ e = .filter s item b := by
  unfold filterItems
  exact visit_eq_ok fun s b => .filter s item b

theorem reduceItems_eq_ok {input : Option Source} {initial body : Option Expr} {e : Expr} :
    reduceItems input initial body = .ok e ↔
      ∃ s i b, (input = some s ∧ s ≠ .field []) ∧ (initial = some i ∧ i ≠ .absent) ∧
        (body = some b ∧ b ≠ .absent) ∧ e = .reduce s i b := by
  constructor
  · intro h
    obtain ⟨s, hs, h⟩ := bind_eq_ok.mp h
    obtain ⟨i, hi, h⟩ := bind_eq_ok.mp h
    obtain ⟨b, hb, h⟩ := bind_eq_ok.mp h
    cases h
    exact ⟨s, i, b, checkInput_eq_ok.mp hs, need_eq_ok.mp hi, need_eq_ok.mp hb, rfl⟩
  · rintro ⟨s, i, b, hs, hi, hb, rfl⟩
    refine bind_eq_ok.mpr ⟨s, checkInput_eq_ok.mpr hs, ?_⟩
    refine bind_eq_ok.mpr ⟨i, need_eq_ok.mpr hi, ?_⟩
    exact bind_eq_ok.mpr ⟨b, need_eq_ok.mpr hb, rfl⟩

/-- A declaration of a variable that a `$let` takes. -/
def Declares (p : Text × Expr) : Prop := IsVariableName p.1 ∧ p.2 ≠ .absent

/-- The first declaration is accepted by itself, and then the others are. -/
theorem checkVariables_cons_eq_ok {index : Nat} {seen : List Text} {name : Text}
    {value : Option Expr} {vars : List (Text × Option Expr)} {accepted : List (Text × Expr)} :
    checkVariables index seen ((name, value) :: vars) = .ok accepted ↔
      ∃ e rest, value = some e ∧ Declares (name, e) ∧ name ∉ seen ∧
        checkVariables (index + 1) (name :: seen) vars = .ok rest ∧ accepted = (name, e) :: rest := by
  simp only [checkVariables]
  constructor
  · intro h
    split at h
    next => simp at h
    next hname =>
      obtain ⟨u, hu, h⟩ := bind_eq_ok.mp h
      split at h
      next => simp at h
      next hseen =>
        split at h
        next => simp at h
        next => simp at h
        next e hne _ =>
          obtain ⟨rest, hr, h⟩ := bind_eq_ok.mp h
          cases h
          have hd : Declares (name, e) := ⟨⟨hname, checkVariableName_eq_ok.mp hu⟩, hne⟩
          exact ⟨e, rest, rfl, hd, by simpa using hseen, hr, rfl⟩
  · rintro ⟨e, rest, rfl, ⟨⟨hname, hbytes⟩, hne⟩, hseen, hr, rfl⟩
    rw [if_neg hname]
    refine bind_eq_ok.mpr ⟨(), checkVariableName_eq_ok.mpr hbytes, ?_⟩
    rw [if_neg (by simpa using hseen)]
    split
    next heq => cases heq
    next heq =>
      cases heq
      exact absurd rfl hne
    next heq =>
      cases heq
      exact bind_eq_ok.mpr ⟨rest, hr, rfl⟩

/-- Accepted declarations are named one by one, and no name is declared twice. -/
theorem checkVariables_eq_ok {index : Nat} {seen : List Text} {vars : List (Text × Option Expr)}
    {accepted : List (Text × Expr)} :
    checkVariables index seen vars = .ok accepted ↔
      vars = accepted.map (fun p => (p.1, some p.2)) ∧ (∀ p ∈ accepted, Declares p) ∧
        (accepted.map (·.1)).Nodup ∧ ∀ p ∈ accepted, p.1 ∉ seen := by
  induction vars generalizing index seen accepted with
  | nil =>
    cases accepted with
    | nil => simp [checkVariables]
    | cons p accepted => simp [checkVariables]
  | cons var vars ih =>
    obtain ⟨name, value⟩ := var
    rw [checkVariables_cons_eq_ok]
    constructor
    · rintro ⟨e, rest, rfl, hd, hseen, hr, rfl⟩
      obtain ⟨rfl, hrest, hnodup, hfresh⟩ := ih.mp hr
      refine ⟨by simp, List.forall_mem_cons.mpr ⟨hd, hrest⟩, ?_, ?_⟩
      · rw [List.map_cons, List.nodup_cons]
        refine ⟨?_, hnodup⟩
        intro hmem
        obtain ⟨p, hp, hpn⟩ := List.mem_map.mp hmem
        exact hfresh p hp (by simp [hpn])
      · refine List.forall_mem_cons.mpr ⟨hseen, ?_⟩
        intro p hp hmem
        exact hfresh p hp (List.mem_cons_of_mem name hmem)
    · rintro ⟨hvars, hd, hnodup, hfresh⟩
      obtain ⟨p, rest, rfl, hp, rfl⟩ := List.map_eq_cons_iff.mp hvars.symm
      cases hp
      obtain ⟨hd, hrest⟩ := List.forall_mem_cons.mp hd
      obtain ⟨hseen, hfresh⟩ := List.forall_mem_cons.mp hfresh
      rw [List.map_cons, List.nodup_cons] at hnodup
      refine ⟨_, rest, rfl, hd, hseen, ih.mpr ⟨rfl, hrest, hnodup.2, ?_⟩, rfl⟩
      intro q hq hmem
      rcases List.mem_cons.mp hmem with heq | hmem
      · exact hnodup.1 (heq ▸ List.mem_map_of_mem hq)
      · exact hfresh q hq hmem

theorem define_eq_ok {vars : List (Text × Option Expr)} {body : Option Expr} {e : Expr} :
    define vars body = .ok e ↔
      ∃ accepted b, vars = accepted.map (fun p => (p.1, some p.2)) ∧ (body = some b ∧ b ≠ .absent) ∧
        (∀ p ∈ accepted, Declares p) ∧ (accepted.map (·.1)).Nodup ∧ e = .letIn accepted b := by
  constructor
  · intro h
    obtain ⟨accepted, hv, h⟩ := bind_eq_ok.mp h
    obtain ⟨b, hb, h⟩ := bind_eq_ok.mp h
    cases h
    obtain ⟨hvars, hvalid, hnodup, _⟩ := checkVariables_eq_ok.mp hv
    exact ⟨accepted, b, hvars, need_eq_ok.mp hb, hvalid, hnodup, rfl⟩
  · rintro ⟨accepted, b, hvars, hb, hvalid, hnodup, rfl⟩
    have hv := (@checkVariables_eq_ok 0 [] vars accepted).mpr
      ⟨hvars, hvalid, hnodup, fun p _ => List.not_mem_nil⟩
    exact bind_eq_ok.mpr ⟨accepted, hv, bind_eq_ok.mpr ⟨b, need_eq_ok.mpr hb, rfl⟩⟩

/-- An object in the making: a fault, or entries with distinct keys whose values satisfy `P`. -/
def ObjectOf (P : Expr → Prop) : Expr → Prop
  | .object entries => (entries.map (·.1)).Nodup ∧ ∀ p ∈ entries, P p.2
  | .faulty _ => True
  | _ => False

theorem addEntry_objectOf {P : Expr → Prop} {key : Text} {value o : Expr} (hv : P value)
    (h : ObjectOf P o) : ObjectOf P (addEntry key value o) := by
  unfold addEntry
  split
  next entries =>
    split
    next => trivial
    next hkey =>
      refine ⟨?_, ?_⟩
      · rw [List.map_append, List.nodup_append]
        refine ⟨h.1, by simp, ?_⟩
        intro k hk l hl heq
        obtain ⟨p, hp, hpk⟩ := List.mem_map.mp hk
        have hlk : l = key := by simpa using hl
        apply hkey
        rw [List.any_eq_true]
        exact ⟨p, hp, by simp [hpk, heq, hlk]⟩
      · rw [List.forall_mem_append]
        exact ⟨h.2, by simpa using hv⟩
  next => exact h

theorem orNull_of {P : Expr → Prop} {part : Option Expr} (hnull : P null)
    (hsome : ∀ e, part = some e → P e) : P (orNull part) := by
  cases part with
  | none => exact hnull
  | some e => exact hsome e rfl

theorem forall_orNull {P : Expr → Prop} {parts : List (Option Expr)} (hnull : P null)
    (hsome : ∀ e, some e ∈ parts → P e) : ∀ c ∈ parts.map orNull, P c := by
  intro c hc
  obtain ⟨part, hp, rfl⟩ := List.mem_map.mp hc
  exact orNull_of hnull fun e he => hsome e (he ▸ hp)

theorem objectOf_objectOf {P : Expr → Prop} (keys : List Text) {values : List (Option Expr)}
    (hnull : P null) (parts : ∀ e, some e ∈ values → P e) : ObjectOf P (objectOf keys values) := by
  have fold : ∀ (pairs : List (Text × Option Expr)) (o : Expr), ObjectOf P o →
      (∀ e k, (k, some e) ∈ pairs → P e) →
      ObjectOf P (pairs.foldl (fun o p => addEntry p.1 (orNull p.2) o) o) := by
    intro pairs
    induction pairs with
    | nil =>
      intro o ho _
      exact ho
    | cons pair pairs ih =>
      intro o ho hp
      obtain ⟨k, v⟩ := pair
      refine ih _ (addEntry_objectOf (orNull_of hnull ?_) ho) fun e k he => hp e k (by simp [he])
      intro e he
      have hv : v = some e := he
      exact hp e k (by simp [hv])
  unfold objectOf
  split
  next =>
    refine fold _ _ ⟨by simp, by simp⟩ ?_
    intro e k he
    exact parts e (List.of_mem_zip he).2
  next => trivial

/-- Entries added one after another. -/
def addEntries (entries : List (Text × Expr)) (o : Expr) : Expr :=
  entries.foldl (fun o p => addEntry p.1 p.2 o) o

theorem addEntries_faulty (entries : List (Text × Expr)) (error : CompileError) :
    addEntries entries (.faulty error) = .faulty error := by
  induction entries with
  | nil => rfl
  | cons p entries ih => exact ih

theorem addEntries_object (entries acc : List (Text × Expr)) (h : (acc.map (·.1)).Nodup) :
    (addEntries entries (.object acc) = .object (acc ++ entries) ∧
      ((acc ++ entries).map (·.1)).Nodup) ∨
    (∃ error, addEntries entries (.object acc) = .faulty error) ∧
      ¬ ((acc ++ entries).map (·.1)).Nodup := by
  induction entries generalizing acc with
  | nil => simpa [addEntries] using h
  | cons p entries ih =>
    have hcons : addEntries (p :: entries) (.object acc) =
      addEntries entries (addEntry p.1 p.2 (.object acc)) := rfl
    by_cases hp : p.1 ∈ acc.map (·.1)
    · right
      have hany : acc.any (·.1 = p.1) = true := by simpa using hp
      refine ⟨?_, ?_⟩
      · rw [hcons, addEntry, if_pos hany]
        exact ⟨_, addEntries_faulty entries _⟩
      · intro hnodup
        rw [List.map_append, List.nodup_append] at hnodup
        exact hnodup.2.2 p.1 hp p.1 (by simp) rfl
    · have hany : ¬ acc.any (·.1 = p.1) = true := by simpa using hp
      have hnext : ((acc ++ [p]).map (·.1)).Nodup := by
        rw [List.map_append, List.nodup_append]
        refine ⟨h, by simp, ?_⟩
        intro k hk l hl heq
        have hlp : l = p.1 := by simpa using hl
        exact hp (hlp ▸ heq ▸ hk)
      rw [hcons, addEntry, if_neg hany]
      simpa using ih (acc ++ [p]) hnext

/-- Given entries make the object with these entries, unless a key stands twice. -/
theorem objectOf_entries (entries : List (Text × Expr)) :
    (objectOf (entries.map (·.1)) (entries.map fun (_, e) => some e) = .object entries ∧
      (entries.map (·.1)).Nodup) ∨
    (∃ error, objectOf (entries.map (·.1)) (entries.map fun (_, e) => some e) = .faulty error) ∧
      ¬ (entries.map (·.1)).Nodup := by
  have hadd : objectOf (entries.map (·.1)) (entries.map fun (_, e) => some e) =
      addEntries entries (.object []) := by
    unfold objectOf
    rw [if_pos (by simp), List.zip_map', List.foldl_map]
    rfl
  rw [hadd]
  exact addEntries_object entries [] (by simp)

theorem addPairs_objectOf {P : Expr → Prop} {arguments : List Argument} {o : Expr}
    (hliteral : ∀ v, P (.literal v)) (parts : ∀ e, .expr (some e) ∈ arguments → P e)
    (h : ObjectOf P o) : ObjectOf P (addPairs o arguments) := by
  fun_induction addPairs o arguments with
  | case1 entries key value rest ih =>
    refine ih (fun e he => parts e (by simp [he])) (addEntry_objectOf ?_ h)
    cases value with
    | plain p => exact hliteral p.toValue
    | expr e => exact orNull_of (hliteral .null) fun e he => parts e (by simp [he])
  | case2 => trivial
  | case3 => exact h

theorem objectOfPairs_objectOf {P : Expr → Prop} {arguments : List Argument}
    (hliteral : ∀ v, P (.literal v)) (parts : ∀ e, .expr (some e) ∈ arguments → P e) :
    ObjectOf P (objectOfPairs arguments) := by
  unfold objectOfPairs
  split
  next => exact addPairs_objectOf hliteral parts ⟨by simp, by simp⟩
  next => trivial

/-- The fault that an object keeps is one of its construction. -/
def KeepsOwnFault : Expr → Prop
  | .faulty error => error.kind = .invalidArgument
  | _ => True

theorem addEntry_keepsOwnFault {key : Text} {value o : Expr} (h : KeepsOwnFault o) :
    KeepsOwnFault (addEntry key value o) := by
  unfold addEntry
  split
  next =>
    split
    next => rfl
    next => trivial
  next => exact h

theorem addEntries_keepsOwnFault {entries : List (Text × Expr)} {o : Expr} (h : KeepsOwnFault o) :
    KeepsOwnFault (addEntries entries o) := by
  induction entries generalizing o with
  | nil => exact h
  | cons p entries ih => exact ih (addEntry_keepsOwnFault h)

theorem objectOf_keepsOwnFault (keys : List Text) (values : List (Option Expr)) :
    KeepsOwnFault (objectOf keys values) := by
  unfold objectOf
  split
  next =>
    have hadd := @addEntries_keepsOwnFault ((keys.zip values).map fun p => (p.1, orNull p.2))
      (.object []) trivial
    rw [addEntries, List.foldl_map] at hadd
    exact hadd
  next => rfl

theorem addPairs_keepsOwnFault {arguments : List Argument} {o : Expr} (h : KeepsOwnFault o) :
    KeepsOwnFault (addPairs o arguments) := by
  fun_induction addPairs o arguments with
  | case1 entries key value rest ih => exact ih (addEntry_keepsOwnFault h)
  | case2 => rfl
  | case3 => exact h

theorem objectOfPairs_keepsOwnFault (arguments : List Argument) :
    KeepsOwnFault (objectOfPairs arguments) := by
  unfold objectOfPairs
  split
  next => exact addPairs_keepsOwnFault trivial
  next => rfl

/-- What the builders see to at a node. -/
def IsSound (e : Expr) : Prop := e.WellFormed ∧ e.KeepsOwnFault

theorem ObjectOf.every {e : Expr} (h : ObjectOf (Every IsSound) e) (own : e.KeepsOwnFault) :
    e.Every IsSound := by
  cases e with
  | object entries => exact .node ⟨h.1, own⟩ (by simpa [children] using fun e k he => h.2 (k, e) he)
  | faulty error => exact .node ⟨trivial, own⟩ (by simp [children])
  | _ => exact h.elim

theorem every_sound_literal (v : Value) : (literal v).Every IsSound :=
  .node ⟨trivial, trivial⟩ (by simp [children])

/-- The parts of an accepted input. -/
theorem forall_parts {P : Expr → Prop} {s : Source} (h : ∀ e, some s = some (Source.expr e) → P e) :
    ∀ c ∈ s.parts, P c := by
  cases s with
  | field path => simp [Source.parts]
  | expr e => simpa [Source.parts] using h e rfl

/-- Every node of a built tree is sound. -/
theorem Built.every_sound {e : Expr} (h : e.Built) : e.Every IsSound := by
  induction h with
  | absent => exact .node ⟨trivial, trivial⟩ (by simp [children])
  | field path => exact .node ⟨trivial, trivial⟩ (by simp [children])
  | var name => exact .node ⟨trivial, trivial⟩ (by simp [children])
  | literal v => exact every_sound_literal v
  | raw v => exact .node ⟨trivial, trivial⟩ (by simp [children])
  | operator op parts ih =>
    exact .node ⟨trivial, trivial⟩ (forall_orNull (every_sound_literal .null) ih)
  | array parts ih =>
    exact .node ⟨trivial, trivial⟩ (forall_orNull (every_sound_literal .null) ih)
  | object keys parts ih =>
    have hobject := objectOf_objectOf keys (every_sound_literal .null) ih
    exact hobject.every (objectOf_keepsOwnFault keys _)
  | pairs parts ih =>
    have hobject := objectOfPairs_objectOf every_sound_literal ih
    exact hobject.every (objectOfPairs_keepsOwnFault _)
  | map source inner accepted ihs ihb =>
    obtain ⟨s, b, ⟨rfl, _, hn, rfl, _⟩, rfl⟩ := mapItems_eq_ok.mp accepted
    refine .node ⟨hn, trivial⟩ (List.forall_mem_append.mpr ⟨forall_parts ihs, ?_⟩)
    simpa only [List.forall_mem_singleton] using ihb b rfl
  | filter source inner accepted ihs ihb =>
    obtain ⟨s, b, ⟨rfl, _, hn, rfl, _⟩, rfl⟩ := filterItems_eq_ok.mp accepted
    refine .node ⟨hn, trivial⟩ (List.forall_mem_append.mpr ⟨forall_parts ihs, ?_⟩)
    simpa only [List.forall_mem_singleton] using ihb b rfl
  | reduce source start inner accepted ihs ihi ihb =>
    obtain ⟨s, i, b, ⟨rfl, _⟩, ⟨rfl, _⟩, ⟨rfl, _⟩, rfl⟩ := reduceItems_eq_ok.mp accepted
    refine .node ⟨trivial, trivial⟩ (List.forall_mem_append.mpr ⟨forall_parts ihs, ?_⟩)
    rw [List.forall_mem_cons, List.forall_mem_singleton]
    exact ⟨ihi i rfl, ihb b rfl⟩
  | letIn values inner accepted ihv ihb =>
    obtain ⟨vars, b, rfl, ⟨rfl, _⟩, hvars, hnodup, rfl⟩ := define_eq_ok.mp accepted
    refine .node ⟨⟨fun p hp => (hvars p hp).1, hnodup⟩, trivial⟩ (List.forall_mem_append.mpr ⟨?_, ?_⟩)
    · intro c hc
      obtain ⟨p, hp, rfl⟩ := List.mem_map.mp hc
      exact ihv p.1 p.2 (List.mem_map.mpr ⟨p, hp, rfl⟩)
    · simpa only [List.forall_mem_singleton] using ihb b rfl

/-- Every node of a built tree is well formed. -/
theorem Built.every {e : Expr} (h : e.Built) : e.Every WellFormed :=
  h.every_sound.mono fun _ sound => sound.1

end ScopedAggregation.Expr

namespace ScopedAggregation

/-- The operators that are constructs of their own, and the one that quotes its argument. -/
def reservedOperators : List Text :=
  [text "$literal", text "$map", text "$filter", text "$reduce", text "$let"]

theorem ne_literal_of_ordinary {op : Text} (h : reservedOperators.contains op = false) :
    op ≠ text "$literal" := by
  rintro rfl
  exact absurd h (by decide)

theorem ordinary_of_plain {key : Text} (h : isReference key = false) :
    reservedOperators.contains key = false := by
  by_contra hc
  have sigils : ∀ op ∈ reservedOperators, isReference op = true := by decide
  have hk := sigils key (by simpa using hc)
  rw [h] at hk
  cases hk

/-- A field path without a sigil, or an expression. -/
def Source.isPlain : Source → Bool
  | .field path => !isReference path
  | .expr _ => true

namespace Expr

/-- No verbatim document, and sigils where they belong: on operators, which are not reserved ones,
and neither on field paths nor on keys. -/
def isPlainNode : Expr → Bool
  | .field path => !isReference path
  | .raw _ => false
  | .operator op _ => isReference op && !reservedOperators.contains op
  | .object entries => entries.all fun p => !isReference p.1
  | .map input _ _ => input.isPlain
  | .filter input _ _ => input.isPlain
  | .reduce input _ _ => input.isPlain
  | _ => true

theorem plain_keys {entries : List (Text × Expr)} (h : (object entries).isPlainNode = true) :
    ∀ p ∈ entries, isReference p.1 = false := by
  intro p hp
  simpa using List.all_eq_true.mp h p hp

/-- A tree of plain nodes. -/
def isPlain (e : Expr) : Bool := e.all isPlainNode

/-- A node that the builders accept and that is plain. -/
def Regular (e : Expr) : Prop := e.WellFormed ∧ e.isPlainNode = true

theorem Built.regular {e : Expr} (built : e.Built) (plain : e.isPlain = true) : e.Every Regular :=
  built.every.and (every_of_all e plain)

end Expr

end ScopedAggregation
