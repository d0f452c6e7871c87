import Mathlib.Data.List.Induction
import Mathlib.Logic.Function.Basic
import ScopedAggregation.Proofs.StoreCalls
import ScopedAggregation.Proofs.TableOrder
import ScopedAggregation.Store.Shared

namespace ScopedAggregation

/-- What clients call. -/
inductive StoreCall where
  | create (name source description : Text) (labels : Labels)
  | put (name source : Text)
  | update (name source description : Text)
  | delete (name : Text)
  | get (name : Text)
  | list
deriving DecidableEq, Repr

/-- What a call returns. -/
inductive StoreReturn where
  | definition (result : Except StoreError StoredDefinition)
  | put (result : Except StoreError StoredDefinition) (created : Bool)
  | deleted (result : Except StoreError Unit)
  | definitions (ds : List StoredDefinition)

/-- The second step of putting a definition whose name was not found. -/
def StoreCall.creating (clock : Clock) (name source : Text) : Program SharedStore StoreReturn := do
  let result ← SharedStore.create clock name source [] none
  pure (.put result true)

def StoreCall.program (clock : Clock) : StoreCall → Program SharedStore StoreReturn
  | .create name source description labels => do
    let result ← SharedStore.create clock name source description labels
    pure (.definition result)
  | .put name source => do
    let (result, created) ← SharedStore.put clock name source
    pure (.put result created)
  | .update name source description => do
    let result ← SharedStore.update clock name source description
    pure (.definition result)
  | .delete name => do
    let result ← SharedStore.delete name
    pure (.deleted result)
  | .get name => do
    let result ← SharedStore.get name
    pure (.definition result)
  | .list => do
    let ds ← SharedStore.list
    pure (.definitions ds)

/-- A call that has not returned, and what is left of it. -/
structure PendingCall where
  call : StoreCall
  start : Nat
  program : Program SharedStore StoreReturn

/-- A call that has returned. -/
structure FinishedCall where
  call : StoreCall
  result : StoreReturn
  start : Nat
  finish : Nat

/-- A store in memory with its clients, and the number of moves so far. -/
structure StoreRun where
  shared : SharedStore := {}
  time : Nat := 0
  pending : List PendingCall := []
  finished : List FinishedCall := []

/-- A client makes a call, or the call at a place among the pending ones takes its next step. -/
inductive StoreMove where
  | call (call : StoreCall)
  | step (place : Nat)
deriving DecidableEq, Repr

namespace StoreRun

/-- The call at a place takes a step; it returns with its last one. -/
def advance (r : StoreRun) (place : Nat) (c : PendingCall) : StoreRun :=
  match c.program with
  | .done _ => r
  | .step change next =>
    match next r.shared with
    | .done result =>
      { shared := change r.shared, time := r.time + 1, pending := r.pending.eraseIdx place
        finished := r.finished ++ [⟨c.call, result, c.start, r.time⟩] }
    | program =>
      { r with shared := change r.shared, time := r.time + 1,
               pending := r.pending.set place { c with program := program } }

def move (clock : Clock) (r : StoreRun) : StoreMove → StoreRun
  | .call call =>
    { r with time := r.time + 1, pending := r.pending ++ [⟨call, r.time, call.program clock⟩] }
  | .step place =>
    match r.pending[place]? with
    | none => r
    | some c => r.advance place c

/-- An empty store after the moves of its clients, in any order. -/
def after (clock : Clock) (moves : List StoreMove) : StoreRun := moves.foldl (move clock) {}

end StoreRun

/-- The definitions by name. -/
abbrev Contents := Text → Option StoredDefinition

def SharedStore.contents (s : SharedStore) : Contents := fun name => s.store.definitions.get? name

/-- A definition as it is created. -/
structure StoredDefinition.IsNew (name source description : Text) (labels : Labels)
    (d : StoredDefinition) : Prop where
  name_eq : d.name = name
  source_eq : d.source = source
  description_eq : d.description = description
  labels_eq : d.labels = labels
  updated_eq : d.updated = d.created

/-- A definition with another source and description. Its revision changes exactly if its source
does. -/
structure StoredDefinition.Revises (source description : Text) (old d : StoredDefinition) : Prop where
  name_eq : d.name = old.name
  source_eq : d.source = source
  description_eq : d.description = description
  revision_eq_iff : d.revision = old.revision ↔ source = old.source
  created_eq : d.created = old.created
  labels_eq : d.labels = old.labels

open StoredDefinition (IsNew Revises)

/-- What a call of a map returns, and the map after it. -/
inductive Serves (m : Contents) : StoreCall → StoreReturn → Contents → Prop
  | created {name source description : Text} {labels : Labels} {d : StoredDefinition}
    (free : m name = none) (valid : DefinitionName.check name = .ok ())
    (new : IsNew name source description labels d) :
    Serves m (.create name source description labels) (.definition (.ok d))
      (Function.update m name (some d))
  | taken {name source description : Text} {labels : Labels} {old : StoredDefinition}
    (held : m name = some old) :
    Serves m (.create name source description labels) (.definition (.error (.alreadyExists name))) m
  | misnamed {name source description : Text} {labels : Labels} {e : StoreError}
    (invalid : DefinitionName.check name = .error e) :
    Serves m (.create name source description labels) (.definition (.error e)) m
  | putNew {name source : Text} {d : StoredDefinition}
    (free : m name = none) (valid : DefinitionName.check name = .ok ())
    (new : IsNew name source [] none d) :
    Serves m (.put name source) (.put (.ok d) true) (Function.update m name (some d))
  | replaced {name source : Text} {old d : StoredDefinition}
    (held : m name = some old) (revises : Revises source old.description old d) :
    Serves m (.put name source) (.put (.ok d) false) (Function.update m name (some d))
  | putMisnamed {name source : Text} {e : StoreError}
    (invalid : DefinitionName.check name = .error e) :
    Serves m (.put name source) (.put (.error e) true) m
  | updated {name source description : Text} {old d : StoredDefinition} (held : m name = some old)
    (revises : Revises (if source = [] then old.source else source)
      (if description = [] then old.description else description) old d) :
    Serves m (.update name source description) (.definition (.ok d)) (Function.update m name (some d))
  | notUpdated {name source description : Text} (free : m name = none) :
    Serves m (.update name source description) (.definition (.error (.notFound name))) m
  | deleted {name : Text} {old : StoredDefinition} (held : m name = some old) :
    Serves m (.delete name) (.deleted (.ok ())) (Function.update m name none)
  | notDeleted {name : Text} (free : m name = none) :
    Serves m (.delete name) (.deleted (.error (.notFound name))) m
  | got {name : Text} {d : StoredDefinition} (held : m name = some d) :
    Serves m (.get name) (.definition (.ok d)) m
  | notGot {name : Text} (free : m name = none) :
    Serves m (.get name) (.definition (.error (.notFound name))) m
  | listed {ds : List StoredDefinition} (found : ∀ name d, m name = some d ↔ d ∈ ds ∧ d.name = name)
    (sorted : ds.Pairwise fun d e => Text.lt d.name e.name = true) : Serves m .list (.definitions ds) m

/-- What a put does that a map would not: it keeps the source instead of emptying it, or it fails on a
name that is there. -/
inductive PutSlips (m : Contents) : StoreCall → StoreReturn → Contents → Prop
  | kept {name : Text} {old d : StoredDefinition} (held : m name = some old)
    (valid : DefinitionName.check name = .ok ()) (given : old.source ≠ [])
    (revises : Revises old.source old.description old d) :
    PutSlips m (.put name []) (.put (.ok d) false) (Function.update m name (some d))
  | overtaken {name source : Text} {old : StoredDefinition} (held : m name = some old)
    (valid : DefinitionName.check name = .ok ()) :
    PutSlips m (.put name source) (.put (.error (.alreadyExists name)) true) m

def ServesOrSlips (m : Contents) (call : StoreCall) (result : StoreReturn) (m' : Contents) : Prop :=
  Serves m call result m' ∨ PutSlips m call result m'

/-- Calls one after the other, from the contents before to those after them. -/
inductive Sequential (serves : Contents → StoreCall → StoreReturn → Contents → Prop) :
    Contents → List FinishedCall → Contents → Prop
  | nil (m : Contents) : Sequential serves m [] m
  | cons {m m' m'' : Contents} {c : FinishedCall} {rest : List FinishedCall}
    (first : serves m c.call c.result m') (then_rest : Sequential serves m' rest m'') :
    Sequential serves m (c :: rest) m''

/-- Some order of the calls that have returned gives what they returned and what is stored now, and no
call stands in it before one that had returned when it began. -/
def StoreRun.Linearizable (serves : Contents → StoreCall → StoreReturn → Contents → Prop)
    (r : StoreRun) : Prop :=
  ∃ order : List FinishedCall, order.Perm r.finished ∧
    order.Pairwise (fun a b => ¬ b.finish < a.start) ∧
    Sequential serves (fun _ => none) order r.shared.contents

namespace Sequential

variable {serves serves' : Contents → StoreCall → StoreReturn → Contents → Prop}
  {m m' m'' : Contents} {calls : List FinishedCall} {c : FinishedCall}

theorem concat (h : Sequential serves m calls m') (last : serves m' c.call c.result m'') :
    Sequential serves m (calls ++ [c]) m'' := by
  induction h with
  | nil m => exact .cons last (.nil _)
  | cons first _ ih => exact .cons first (ih last)

theorem served (h : Sequential serves m calls m') (hc : c ∈ calls) :
    ∃ n n', serves n c.call c.result n' := by
  induction h with
  | nil m => cases hc
  | cons first _ ih =>
    rcases List.mem_cons.mp hc with rfl | hc
    · exact ⟨_, _, first⟩
    · exact ih hc

theorem imp (h : Sequential serves m calls m')
    (himp : ∀ c ∈ calls, ∀ n n', serves n c.call c.result n' → serves' n c.call c.result n') :
    Sequential serves' m calls m' := by
  induction h with
  | nil m => exact .nil m
  | cons first _ ih =>
    obtain ⟨hfirst, hrest⟩ := List.forall_mem_cons.mp himp
    exact .cons (hfirst _ _ first) (ih hrest)

end Sequential

namespace Store

variable {s : Store}

theorem run_look_bind {α β : Type} (f : Store → Except StoreError α) (g : α → Call β) (s : Store) :
    (look f >>= g).run.run s =
      match f s with
      | .ok a => (g a).run.run s
      | .error e => (.error e, s) := by
  rw [run_bind]
  show (match (f s, s) with | (.ok a, t) => (g a).run.run t | (.error e, t) => (.error e, t)) = _
  cases f s <;> rfl

theorem run_save (memory : s.database = none) (d : StoredDefinition) :
    (save d).run.run s = (.ok d, s.saved d) := by
  obtain ⟨definitions, database⟩ := s
  cases memory
  rfl

theorem run_create (memory : s.database = none) (stamp : Stamp) (name source description : Text)
    (labels : Labels) :
    (create stamp name source description labels).run.run s =
      match DefinitionName.check name, s.definitions.get? name with
      | .error e, _ => (.error e, s)
      | .ok _, some _ => (.error (.alreadyExists name), s)
      | .ok _, none =>
        (.ok (fresh stamp name source description labels),
          s.saved (fresh stamp name source description labels)) := by
  unfold create
  rw [run_look_bind]
  cases DefinitionName.check name with
  | error e => rfl
  | ok _ =>
    dsimp only
    rw [run_look_bind, checkFree, Table.contains]
    cases s.definitions.get? name with
    | some old => rfl
    | none => exact run_save memory _

theorem run_update (memory : s.database = none) (stamp : Stamp) (name source description : Text) :
    (update stamp name source description).run.run s =
      match s.definitions.get? name with
      | none => (.error (.notFound name), s)
      | some old =>
        (.ok (revised stamp source description old), s.saved (revised stamp source description old)) := by
  unfold update
  rw [run_look_bind, get]
  cases s.definitions.get? name with
  | none => rfl
  | some old => exact run_save memory _

theorem run_delete (memory : s.database = none) (name : Text) :
    (delete name).run.run s =
      match s.definitions.get? name with
      | none => (.error (.notFound name), s)
      | some _ => (.ok (), s.changed (Table.erase name) (Table.erase name)) := by
  unfold delete
  rw [run_look_bind, get]
  cases s.definitions.get? name with
  | none => rfl
  | some old =>
    obtain ⟨definitions, database⟩ := s
    cases memory
    rfl

theorem isNew_fresh (stamp : Stamp) (name source description : Text) (labels : Labels) :
    (fresh stamp name source description labels).IsNew name source description labels :=
  ⟨rfl, rfl, rfl, rfl, rfl⟩

/-- A new revision differs from the one before. -/
theorem revises_revised {stamp : Stamp} {old : StoredDefinition}
    (unused : stamp.revision ≠ old.revision) (source description : Text) :
    Revises (if source = [] then old.source else source)
      (if description = [] then old.description else description) old
      (revised stamp source description old) := by
  have hkept : (if source = [] then old.source else source) = old.source ↔
      (source.isEmpty || source = old.source) = true := by
    by_cases hempty : source = [] <;> simp [hempty]
  unfold revised
  by_cases hsame : (source.isEmpty || source = old.source) = true
  · rw [if_pos hsame, hkept.mpr hsame]
    cases description with
    | nil => exact ⟨rfl, rfl, rfl, by simp, rfl, rfl⟩
    | cons b description => exact ⟨rfl, rfl, rfl, by simp, rfl, rfl⟩
  · have hsource : source ≠ [] ∧ source ≠ old.source := by simpa using hsame
    have hrevision : stamp.revision = old.revision ↔ source = old.source :=
      iff_of_false unused hsource.2
    rw [if_neg hsame, if_neg hsource.1]
    cases description with
    | nil => exact ⟨rfl, rfl, rfl, hrevision, rfl, rfl⟩
    | cons b description => exact ⟨rfl, rfl, rfl, hrevision, rfl, rfl⟩

end Store

/-- A store in memory under its clients' calls: definitions stand in order under their names, which are
valid, and their revisions were given out before. -/
structure SharedStore.IsKept (clock : Clock) (s : SharedStore) : Prop where
  memory : s.store.database = none
  sorted : s.store.definitions.IsSorted
  named : ∀ p ∈ s.store.definitions, p.1 = p.2.name
  checked : ∀ p ∈ s.store.definitions, DefinitionName.check p.1 = .ok ()
  given : ∀ p ∈ s.store.definitions, ∃ n < s.ticks, p.2.revision = (clock n).revision

namespace SharedStore

variable {clock : Clock} {s : SharedStore}

theorem isKept_empty (clock : Clock) : IsKept clock {} where
  memory := rfl
  sorted := .nil
  named := by simp
  checked := by simp
  given := by simp

theorem IsKept.tick (h : s.IsKept clock) : IsKept clock { s with ticks := s.ticks + 1 } where
  memory := h.memory
  sorted := h.sorted
  named := h.named
  checked := h.checked
  given p hp := by
    obtain ⟨n, hn, hrevision⟩ := h.given p hp
    exact ⟨n, Nat.lt_succ_of_lt hn, hrevision⟩

theorem IsKept.saved (h : s.IsKept clock) {d : StoredDefinition}
    (checked : DefinitionName.check d.name = .ok ())
    (given : ∃ n < s.ticks, d.revision = (clock n).revision) :
    IsKept clock { s with store := s.store.saved d } where
  memory := by simp [Store.saved, Store.changed, h.memory]
  sorted := h.sorted.insert d.name d
  named p hp := by
    rcases Table.mem_insert hp with rfl | hp
    · rfl
    · exact h.named p hp
  checked p hp := by
    rcases Table.mem_insert hp with rfl | hp
    · exact checked
    · exact h.checked p hp
  given p hp := by
    rcases Table.mem_insert hp with rfl | hp
    · exact given
    · exact h.given p hp

theorem IsKept.erased (h : s.IsKept clock) (name : Text) :
    IsKept clock { s with store := s.store.changed (Table.erase name) (Table.erase name) } where
  memory := by simp [Store.changed, h.memory]
  sorted := h.sorted.erase name
  named p hp := h.named p ((Table.erase_sublist name _).subset hp)
  checked p hp := h.checked p ((Table.erase_sublist name _).subset hp)
  given p hp := h.given p ((Table.erase_sublist name _).subset hp)

theorem contents_saved (s : SharedStore) (n : Nat) (d : StoredDefinition) :
    contents { store := s.store.saved d, ticks := n } = Function.update s.contents d.name (some d) := by
  funext name
  rw [Function.update_apply]
  exact Table.get?_insert d.name d s.store.definitions name

theorem IsKept.contents_erased (h : s.IsKept clock) (name : Text) :
    contents { s with store := s.store.changed (Table.erase name) (Table.erase name) } =
      Function.update s.contents name none := by
  funext n
  rw [Function.update_apply]
  exact h.sorted.get?_erase name n

/-- A definition under a name has that name. -/
theorem IsKept.name_eq (h : s.IsKept clock) {name : Text} {d : StoredDefinition}
    (held : s.contents name = some d) : d.name = name :=
  (h.named _ (Table.mem_of_get? held)).symm

theorem IsKept.check_name (h : s.IsKept clock) {name : Text} {d : StoredDefinition}
    (held : s.contents name = some d) : DefinitionName.check name = .ok () :=
  h.checked _ (Table.mem_of_get? held)

/-- The next revision is none of those in the store. -/
theorem IsKept.unused (distinct : Function.Injective fun n => (clock n).revision) (h : s.IsKept clock)
    {name : Text} {d : StoredDefinition} (held : s.contents name = some d) :
    (clock s.ticks).revision ≠ d.revision := by
  obtain ⟨n, hn, hrevision⟩ := h.given _ (Table.mem_of_get? held)
  intro heq
  have hsame : s.ticks = n := distinct (heq.trans hrevision)
  omega

theorem IsKept.listed (h : s.IsKept clock) :
    Serves s.contents .list (.definitions s.store.list) s.contents := by
  refine .listed (fun name d => ?_) ?_
  · have hfound : s.contents name = some d ↔ (name, d) ∈ s.store.definitions := h.sorted.get?_eq_some
    rw [hfound, Store.list, List.mem_map]
    constructor
    · intro hmem
      exact ⟨⟨_, hmem, rfl⟩, (h.named _ hmem).symm⟩
    · rintro ⟨⟨p, hp, rfl⟩, rfl⟩
      rw [← h.named p hp]
      exact hp
  · rw [Store.list, List.pairwise_map]
    refine (List.pairwise_map.mp h.sorted).imp_of_mem fun {p q} hp hq hlt => ?_
    rw [← h.named p hp, ← h.named q hq]
    exact hlt

/-- The revision of a revised definition is the one before or the one given. -/
theorem revised_revision (stamp : Stamp) (source description : Text) (old : StoredDefinition) :
    (Store.revised stamp source description old).revision = old.revision ∨
      (Store.revised stamp source description old).revision = stamp.revision := by
  unfold Store.revised
  split <;> split <;> simp

theorem IsKept.create (h : s.IsKept clock) (name source description : Text) (labels : Labels) :
    ∃ result t, stamped clock (Store.create · name source description labels) s = (result, t) ∧
      t.IsKept clock ∧
      Serves s.contents (.create name source description labels) (.definition result) t.contents := by
  have hrun := Store.run_create h.memory (clock s.ticks) name source description labels
  have hstep : stamped clock (Store.create · name source description labels) s =
      let outcome := (Store.create (clock s.ticks) name source description labels).run.run s.store
      (outcome.1, { store := outcome.2, ticks := s.ticks + 1 }) := rfl
  rw [hrun] at hstep
  rw [hstep]
  cases hcheck : DefinitionName.check name with
  | error e => exact ⟨_, _, rfl, h.tick, .misnamed hcheck⟩
  | ok _ =>
    cases hheld : s.store.definitions.get? name with
    | some old => exact ⟨_, _, rfl, h.tick, .taken hheld⟩
    | none =>
      let d := Store.fresh (clock s.ticks) name source description labels
      have hcontents := contents_saved s (s.ticks + 1) d
      refine ⟨_, _, rfl, h.tick.saved hcheck ⟨s.ticks, Nat.lt_succ_self _, rfl⟩, ?_⟩
      exact hcontents ▸ .created hheld hcheck (Store.isNew_fresh _ _ _ _ _)

theorem IsKept.update (distinct : Function.Injective fun n => (clock n).revision)
    (h : s.IsKept clock) (name source description : Text) :
    ∃ result t, stamped clock (Store.update · name source description) s = (result, t) ∧
      t.IsKept clock ∧
      Serves s.contents (.update name source description) (.definition result) t.contents := by
  have hrun := Store.run_update h.memory (clock s.ticks) name source description
  have hstep : stamped clock (Store.update · name source description) s =
      let outcome := (Store.update (clock s.ticks) name source description).run.run s.store
      (outcome.1, { store := outcome.2, ticks := s.ticks + 1 }) := rfl
  rw [hrun] at hstep
  rw [hstep]
  cases hheld : s.store.definitions.get? name with
  | none => exact ⟨_, _, rfl, h.tick, .notUpdated hheld⟩
  | some old =>
    let d := Store.revised (clock s.ticks) source description old
    have hrevises := Store.revises_revised (h.unused distinct hheld) source description
    have hname : d.name = name := hrevises.name_eq.trans (h.name_eq hheld)
    have hcontents := contents_saved s (s.ticks + 1) d
    rw [hname] at hcontents
    have hgiven : ∃ n < s.ticks + 1, d.revision = (clock n).revision := by
      rcases revised_revision (clock s.ticks) source description old with hold | hnew
      · obtain ⟨n, hn, hrevision⟩ := h.given _ (Table.mem_of_get? hheld)
        exact ⟨n, Nat.lt_succ_of_lt hn, hold.trans hrevision⟩
      · exact ⟨s.ticks, Nat.lt_succ_self _, hnew⟩
    refine ⟨_, _, rfl, h.tick.saved ?_ hgiven, ?_⟩
    · rw [hname]
      exact h.check_name hheld
    · exact hcontents ▸ .updated hheld hrevises

theorem IsKept.delete (h : s.IsKept clock) (name : Text) :
    ∃ result t, call (Store.delete name) s = (result, t) ∧ t.IsKept clock ∧
      Serves s.contents (.delete name) (.deleted result) t.contents := by
  have hrun := Store.run_delete h.memory name
  have hstep : call (Store.delete name) s =
      let outcome := (Store.delete name).run.run s.store
      (outcome.1, { s with store := outcome.2 }) := rfl
  rw [hrun] at hstep
  rw [hstep]
  cases hheld : s.store.definitions.get? name with
  | none => exact ⟨_, _, rfl, h, .notDeleted hheld⟩
  | some old =>
    have hcontents := h.contents_erased name
    exact ⟨_, _, rfl, h.erased name, hcontents ▸ .deleted hheld⟩

end SharedStore

theorem Serves.put_of_update {m m' : Contents} {name source : Text} {d : StoredDefinition}
    (h : Serves m (.update name source []) (.definition (.ok d)) m')
    (valid : ∀ old, m name = some old → DefinitionName.check name = .ok ()) :
    ServesOrSlips m (.put name source) (.put (.ok d) false) m' := by
  cases h with
  | @updated _ _ _ old _ held revises =>
    rw [if_pos rfl] at revises
    by_cases hempty : source = []
    · subst hempty
      rw [if_pos rfl] at revises
      by_cases hold : old.source = []
      · exact .inl (.replaced held (hold ▸ revises))
      · exact .inr (.kept held (valid old held) hold revises)
    · rw [if_neg hempty] at revises
      exact .inl (.replaced held revises)

theorem Serves.put_of_create {m m' : Contents} {name source : Text}
    {result : Except StoreError StoredDefinition}
    (h : Serves m (.create name source [] none) (.definition result) m')
    (valid : ∀ old, m name = some old → DefinitionName.check name = .ok ()) :
    ServesOrSlips m (.put name source) (.put result true) m' := by
  cases h with
  | created free valid new => exact .inl (.putNew free valid new)
  | taken held => exact .inr (.overtaken held (valid _ held))
  | misnamed invalid => exact .inl (.putMisnamed invalid)

namespace StoreCall

variable {clock : Clock} {s : SharedStore}

/-- A call of the store that is answered at once. -/
theorem atomic_step {α : Type} {call : StoreCall} {f : SharedStore → α × SharedStore}
    {g : α → StoreReturn} {a : α} {t : SharedStore} (hstep : f s = (a, t)) (hkept : t.IsKept clock)
    (hserves : ServesOrSlips s.contents call (g a) t.contents) :
    ∃ change next, (Program.atomic f >>= fun a => pure (g a)) = .step change next ∧
      next s = .done (g a) ∧ (change s).IsKept clock ∧
      ServesOrSlips s.contents call (g a) (change s).contents := by
  refine ⟨fun s => (f s).2, fun s => .done (g (f s).1), rfl, ?_⟩
  dsimp only
  rw [hstep]
  exact ⟨rfl, hkept, hserves⟩

/-- The first step of a put, and how it goes on. -/
theorem program_put (clock : Clock) (name source : Text) :
    program clock (.put name source) =
      .step (fun s => (SharedStore.stamped clock (Store.update · name source []) s).2) fun s =>
        match (SharedStore.stamped clock (Store.update · name source []) s).1 with
        | .ok d => .done (.put (.ok d) false)
        | .error (.notFound _) => creating clock name source
        | .error e => .done (.put (.error e) false) := by
  show Program.step _ _ = _
  congr 1
  funext s
  dsimp only
  generalize SharedStore.stamped clock _ s = outcome
  obtain ⟨result, t⟩ := outcome
  cases result with
  | ok d => rfl
  | error e => cases e <;> rfl

/-- The second step of a put ends it. -/
theorem creating_step (h : s.IsKept clock) (name source : Text) :
    ∃ change next result, creating clock name source = .step change next ∧
      next s = .done result ∧ (change s).IsKept clock ∧
      ServesOrSlips s.contents (.put name source) result (change s).contents := by
  obtain ⟨result, t, hstep, hkept, hserves⟩ := h.create name source [] none
  have hput := hserves.put_of_create fun _ held => h.check_name held
  obtain ⟨change, next, hends⟩ := atomic_step (g := fun result => .put result true) hstep hkept hput
  exact ⟨change, next, .put result true, hends⟩

/-- The first step of a call ends it, unless a put does not find its name. -/
theorem program_step (distinct : Function.Injective fun n => (clock n).revision)
    (h : s.IsKept clock) (call : StoreCall) :
    ∃ change next, call.program clock = .step change next ∧ (change s).IsKept clock ∧
      ((∃ result, next s = .done result ∧
          ServesOrSlips s.contents call result (change s).contents ∧
          ∀ e created, result ≠ .put (.error e) created) ∨
        ∃ name source, call = .put name source ∧ next s = creating clock name source ∧
          s.contents name = none ∧ (change s).contents = s.contents) := by
  cases call with
  | create name source description labels =>
    obtain ⟨result, t, hstep, hkept, hserves⟩ := h.create name source description labels
    obtain ⟨change, next, hprogram, hnext, hkept, hserved⟩ :=
      atomic_step (g := .definition) hstep hkept (.inl hserves)
    exact ⟨change, next, hprogram, hkept, .inl ⟨_, hnext, hserved, by simp⟩⟩
  | put name source =>
    obtain ⟨result, t, hstep, hkept, hserves⟩ := h.update distinct name source []
    refine ⟨_, _, program_put clock name source, ?_, ?_⟩
    · rw [hstep]
      exact hkept
    · rw [hstep]
      cases result with
      | ok d => exact .inl ⟨_, rfl, hserves.put_of_update fun _ held => h.check_name held, by simp⟩
      | error e =>
        have hmissing : e = .notFound name ∧ s.contents name = none ∧ t.contents = s.contents := by
          generalize t.contents = m' at hserves
          cases hserves with
          | notUpdated free => exact ⟨rfl, free, rfl⟩
        obtain ⟨rfl, hfree, hsame⟩ := hmissing
        exact .inr ⟨name, source, rfl, rfl, hfree, hsame⟩
  | update name source description =>
    obtain ⟨result, t, hstep, hkept, hserves⟩ := h.update distinct name source description
    obtain ⟨change, next, hprogram, hnext, hkept, hserved⟩ :=
      atomic_step (g := .definition) hstep hkept (.inl hserves)
    exact ⟨change, next, hprogram, hkept, .inl ⟨_, hnext, hserved, by simp⟩⟩
  | delete name =>
    obtain ⟨result, t, hstep, hkept, hserves⟩ := h.delete name
    obtain ⟨change, next, hprogram, hnext, hkept, hserved⟩ :=
      atomic_step (g := .deleted) hstep hkept (.inl hserves)
    exact ⟨change, next, hprogram, hkept, .inl ⟨_, hnext, hserved, by simp⟩⟩
  | get name =>
    have hserves : Serves s.contents (.get name) (.definition (s.store.get name)) s.contents := by
      cases hheld : s.store.definitions.get? name with
      | none =>
        have hget : s.store.get name = .error (.notFound name) := by simp [Store.get, hheld]
        exact hget ▸ .notGot hheld
      | some d => exact Store.get_eq_ok.mpr hheld ▸ .got hheld
    exact ⟨_, _, rfl, h, .inl ⟨_, rfl, .inl hserves, by simp⟩⟩
  | list => exact ⟨_, _, rfl, h, .inl ⟨_, rfl, .inl h.listed, by simp⟩⟩

end StoreCall

/-- A call that put a definition under a name that had none. -/
def FinishedCall.Adds (name : Text) (c : FinishedCall) : Prop :=
  ∃ source d, (∃ description labels, c.call = .create name source description labels ∧
      c.result = .definition (.ok d)) ∨
    c.call = .put name source ∧ c.result = .put (.ok d) true

/-- No other call makes a name appear. -/
theorem ServesOrSlips.adds {m m' : Contents} {c : FinishedCall} {name : Text}
    (h : ServesOrSlips m c.call c.result m') (free : m name = none) (found : m' name ≠ none) :
    c.Adds name := by
  obtain ⟨call, result, start, finish⟩ := c
  have hsame {n : Text} {x : Option StoredDefinition} (hx : Function.update m n x name ≠ none) :
      name = n := by
    by_contra hne
    rw [Function.update_of_ne hne] at hx
    exact hx free
  rcases h with h | h
  · cases h with
    | @created _ source description labels d _ _ _ =>
      cases hsame found
      exact ⟨source, d, .inl ⟨description, labels, rfl, rfl⟩⟩
    | @putNew _ source d _ _ _ =>
      cases hsame found
      exact ⟨source, d, .inr ⟨rfl, rfl⟩⟩
    | replaced held _ | updated held _ | deleted held =>
      cases hsame found
      rw [free] at held
      cases held
    | _ => exact absurd free found
  · cases h with
    | kept held _ _ _ =>
      cases hsame found
      rw [free] at held
      cases held
    | overtaken _ _ => exact absurd free found

/-- The source of the definition that a put returned. -/
def StoreReturn.putSource? : StoreReturn → Option Text
  | .put (.ok d) _ => some d.source
  | _ => none

/-- A put of a valid name has succeeded, with its own source. -/
def FinishedCall.PutDone (c : FinishedCall) : Prop :=
  match c.call with
  | .put name source => DefinitionName.check name = .ok () → c.result.putSource? = some source
  | _ => True

instance : DecidablePred FinishedCall.PutDone
  | ⟨.put name source, result, _, _⟩ =>
    inferInstanceAs (Decidable (DefinitionName.check name = .ok () → result.putSource? = some source))
  | ⟨.create .., _, _, _⟩ => isTrue trivial
  | ⟨.update .., _, _, _⟩ => isTrue trivial
  | ⟨.delete _, _, _, _⟩ => isTrue trivial
  | ⟨.get _, _, _, _⟩ => isTrue trivial
  | ⟨.list, _, _, _⟩ => isTrue trivial

/-- If a put of a valid name failed, the name was there, since another call added it meanwhile. -/
def FinishedCall.IsExcused (finished : List FinishedCall) (c : FinishedCall) : Prop :=
  ∀ name source e created, c.call = .put name source → DefinitionName.check name = .ok () →
    c.result = .put (.error e) created →
    e = .alreadyExists name ∧
      ∃ b ∈ finished, b.Adds name ∧ c.start < b.finish ∧ b.finish < c.finish

theorem Serves.putDone {m m' : Contents} {c : FinishedCall} (h : Serves m c.call c.result m') :
    c.PutDone := by
  obtain ⟨call, result, start, finish⟩ := c
  cases h with
  | putNew _ _ new => exact fun _ => congrArg some new.source_eq
  | replaced _ revises => exact fun _ => congrArg some revises.source_eq
  | putMisnamed invalid =>
    intro valid
    rw [valid] at invalid
    cases invalid
  | _ => exact trivial

/-- A put that slips has not succeeded with its own source. -/
theorem PutSlips.not_putDone {m m' : Contents} {c : FinishedCall}
    (h : PutSlips m c.call c.result m') : ¬ c.PutDone := by
  obtain ⟨call, result, start, finish⟩ := c
  intro hdone
  cases h with
  | @kept _ _ d held valid given revises =>
    have hsource : d.source = [] := Option.some.inj (hdone valid)
    exact given (revises.source_eq.symm.trans hsource)
  | overtaken held valid => cases hdone valid

/-- A put that failed on a valid name found it there. -/
theorem ServesOrSlips.overtaken {m m' : Contents} {name source : Text} {e : StoreError}
    {created : Bool} (h : ServesOrSlips m (.put name source) (.put (.error e) created) m')
    (valid : DefinitionName.check name = .ok ()) : e = .alreadyExists name ∧ m name ≠ none := by
  rcases h with h | h
  · cases h with
    | putMisnamed invalid =>
      rw [valid] at invalid
      cases invalid
  · cases h with
    | overtaken held _ => exact ⟨rfl, by simp [held]⟩

/-- A pending call has yet to begin, or it is a put that did not find its name; if the name is there by
now, another call has added it. -/
def PendingCall.IsUnderway (clock : Clock) (m : Contents) (finished : List FinishedCall)
    (c : PendingCall) : Prop :=
  c.program = c.call.program clock ∨
    ∃ name source, c.call = .put name source ∧ c.program = StoreCall.creating clock name source ∧
      (m name ≠ none → ∃ b ∈ finished, b.Adds name ∧ c.start < b.finish)

namespace StoreRun

/-- What holds of a run after every move. The calls that have returned are told in order. -/
structure IsSound (clock : Clock) (r : StoreRun) : Prop where
  kept : r.shared.IsKept clock
  sequential : Sequential ServesOrSlips (fun _ => none) r.finished r.shared.contents
  pending : ∀ c ∈ r.pending, c.start < r.time ∧ c.IsUnderway clock r.shared.contents r.finished
  finished : ∀ c ∈ r.finished, c.start < c.finish ∧ c.finish < r.time ∧ c.IsExcused r.finished
  ordered : r.finished.Pairwise (·.finish < ·.finish)

variable {clock : Clock} {r : StoreRun}

theorem isSound_empty (clock : Clock) : IsSound clock {} where
  kept := SharedStore.isKept_empty clock
  sequential := .nil _
  pending := by simp
  finished := by simp
  ordered := .nil

theorem IsSound.call (h : r.IsSound clock) (call : StoreCall) :
    (r.move clock (.call call)).IsSound clock where
  kept := h.kept
  sequential := h.sequential
  pending c hc := by
    rcases List.mem_append.mp hc with hc | hc
    · exact ⟨Nat.lt_succ_of_lt (h.pending c hc).1, (h.pending c hc).2⟩
    · cases List.mem_singleton.mp hc
      exact ⟨Nat.lt_succ_self _, .inl rfl⟩
  finished c hc := by
    obtain ⟨hstart, hfinish, hexcused⟩ := h.finished c hc
    exact ⟨hstart, Nat.lt_succ_of_lt hfinish, hexcused⟩
  ordered := h.ordered

/-- A step that returns. -/
theorem IsSound.finish (h : r.IsSound clock) {place : Nat} {c : PendingCall} {s : SharedStore}
    {result : StoreReturn} (hc : c ∈ r.pending) (kept : s.IsKept clock)
    (served : ServesOrSlips r.shared.contents c.call result s.contents)
    (excused : FinishedCall.IsExcused r.finished ⟨c.call, result, c.start, r.time⟩) :
    IsSound clock
      { shared := s, time := r.time + 1, pending := r.pending.eraseIdx place
        finished := r.finished ++ [⟨c.call, result, c.start, r.time⟩] } where
  kept := kept
  sequential := h.sequential.concat served
  pending b hb := by
    obtain ⟨hstart, hunderway⟩ := h.pending b (List.mem_of_mem_eraseIdx hb)
    refine ⟨Nat.lt_succ_of_lt hstart, ?_⟩
    rcases hunderway with hfirst | ⟨name, source, hcall, hprogram, hadded⟩
    · exact .inl hfirst
    · refine .inr ⟨name, source, hcall, hprogram, fun hfound => ?_⟩
      -- A put that waits to create the name can blame this call, if the name appears with it.
      by_cases hfree : r.shared.contents name = none
      · exact ⟨_, List.mem_append_right _ (List.mem_singleton_self _), served.adds hfree hfound, hstart⟩
      · obtain ⟨a, ha, hadds, hafter⟩ := hadded hfree
        exact ⟨a, List.mem_append_left _ ha, hadds, hafter⟩
  finished b hb := by
    have hmore {a : FinishedCall} (ha : a.IsExcused r.finished) :
        a.IsExcused (r.finished ++ [⟨c.call, result, c.start, r.time⟩]) := by
      intro name source e created hcall valid hresult
      obtain ⟨he, b, hb, hrest⟩ := ha name source e created hcall valid hresult
      exact ⟨he, b, List.mem_append_left _ hb, hrest⟩
    rcases List.mem_append.mp hb with hb | hb
    · obtain ⟨hstart, hfinish, hexcused⟩ := h.finished b hb
      exact ⟨hstart, Nat.lt_succ_of_lt hfinish, hmore hexcused⟩
    · cases List.mem_singleton.mp hb
      exact ⟨(h.pending c hc).1, Nat.lt_succ_self _, hmore excused⟩
  ordered := by
    rw [List.pairwise_append]
    refine ⟨h.ordered, List.pairwise_singleton _ _, fun a ha b hb => ?_⟩
    cases List.mem_singleton.mp hb
    exact (h.finished a ha).2.1

/-- A step after which a put tries to create its name. -/
theorem IsSound.goOn (h : r.IsSound clock) {place : Nat} {c : PendingCall} {s : SharedStore}
    {name source : Text} (hc : c ∈ r.pending) (kept : s.IsKept clock)
    (same : s.contents = r.shared.contents) (hcall : c.call = .put name source)
    (free : r.shared.contents name = none) :
    IsSound clock
      { r with shared := s, time := r.time + 1, pending := r.pending.set place
                 { c with program := StoreCall.creating clock name source } } where
  kept := kept
  sequential := same ▸ h.sequential
  pending b hb := by
    dsimp only
    rw [same]
    rcases List.mem_or_eq_of_mem_set hb with hb | rfl
    · exact ⟨Nat.lt_succ_of_lt (h.pending b hb).1, (h.pending b hb).2⟩
    · refine ⟨Nat.lt_succ_of_lt (h.pending c hc).1, .inr ⟨name, source, hcall, rfl, fun hfound => ?_⟩⟩
      exact absurd free hfound
  finished b hb := by
    obtain ⟨hstart, hfinish, hexcused⟩ := h.finished b hb
    exact ⟨hstart, Nat.lt_succ_of_lt hfinish, hexcused⟩
  ordered := h.ordered

theorem advance_done {place : Nat} {c : PendingCall} {change : SharedStore → SharedStore}
    {next : SharedStore → Program SharedStore StoreReturn} {result : StoreReturn}
    (hprogram : c.program = .step change next) (hnext : next r.shared = .done result) :
    r.advance place c =
      { shared := change r.shared, time := r.time + 1, pending := r.pending.eraseIdx place
        finished := r.finished ++ [⟨c.call, result, c.start, r.time⟩] } := by
  simp only [advance, hprogram, hnext]

theorem advance_creating {place : Nat} {c : PendingCall} {change : SharedStore → SharedStore}
    {next : SharedStore → Program SharedStore StoreReturn} {name source : Text}
    (hprogram : c.program = .step change next)
    (hnext : next r.shared = StoreCall.creating clock name source) :
    r.advance place c =
      { r with shared := change r.shared, time := r.time + 1, pending := r.pending.set place
                 { c with program := StoreCall.creating clock name source } } := by
  simp only [advance, hprogram, hnext]
  rfl

theorem IsSound.advance (distinct : Function.Injective fun n => (clock n).revision)
    (h : r.IsSound clock) {place : Nat} {c : PendingCall} (hc : c ∈ r.pending) :
    (r.advance place c).IsSound clock := by
  obtain ⟨hstart, hfirst | ⟨name, source, hcall, hcreating, hadded⟩⟩ := h.pending c hc
  · obtain ⟨change, next, hprogram, hkept, hends | hgoes⟩ := StoreCall.program_step distinct h.kept c.call
    · obtain ⟨result, hnext, hserved, hfine⟩ := hends
      rw [advance_done (hfirst.trans hprogram) hnext]
      refine h.finish hc hkept hserved ?_
      intro name source e created _ _ hresult
      exact absurd hresult (hfine e created)
    · obtain ⟨name, source, hcall, hnext, hfree, hsame⟩ := hgoes
      rw [advance_creating (hfirst.trans hprogram) hnext]
      exact h.goOn hc hkept hsame hcall hfree
  · -- The second step of a put, which fails only on a name that came after the first.
    obtain ⟨change, next, result, hprogram, hnext, hkept, hserved⟩ :=
      StoreCall.creating_step h.kept name source
    rw [advance_done (hcreating.trans hprogram) hnext]
    rw [← hcall] at hserved
    refine h.finish hc hkept hserved ?_
    intro name' source' e created hcall' valid hresult
    have hput : c.call = .put name' source' := hcall'
    cases hcall.symm.trans hput
    rw [hcall, show result = .put (.error e) created from hresult] at hserved
    obtain ⟨he, hfound⟩ := hserved.overtaken valid
    obtain ⟨b, hb, hadds, hafter⟩ := hadded hfound
    exact ⟨he, b, hb, hadds, hafter, (h.finished b hb).2.1⟩

theorem IsSound.move (distinct : Function.Injective fun n => (clock n).revision)
    (h : r.IsSound clock) (move : StoreMove) : (r.move clock move).IsSound clock := by
  cases move with
  | call call => exact h.call call
  | step place =>
    cases hplace : r.pending[place]? with
    | none => simpa [StoreRun.move, hplace] using h
    | some c =>
      have hmove : r.move clock (.step place) = r.advance place c := by simp [StoreRun.move, hplace]
      rw [hmove]
      exact h.advance distinct (List.mem_of_getElem? hplace)

theorem isSound_after (distinct : Function.Injective fun n => (clock n).revision)
    (moves : List StoreMove) : (after clock moves).IsSound clock := by
  induction moves using List.reverseRecOn with
  | nil => exact isSound_empty clock
  | append_singleton moves move ih =>
    have hlast : after clock (moves ++ [move]) = (after clock moves).move clock move := by
      simp [after]
    rw [hlast]
    exact ih.move distinct move

theorem IsSound.realTime (h : r.IsSound clock) :
    r.finished.Pairwise fun a b => ¬ b.finish < a.start := by
  -- A call begins before it returns, so the order of returning respects real time.
  refine h.ordered.imp_of_mem fun {a b} ha hb hlt => ?_
  have hstart := (h.finished a ha).1
  omega

theorem IsSound.linearizable (h : r.IsSound clock) : r.Linearizable ServesOrSlips :=
  ⟨r.finished, .refl _, h.realTime, h.sequential⟩

theorem Linearizable.putDone (h : r.Linearizable Serves) {c : FinishedCall} (hc : c ∈ r.finished) :
    c.PutDone := by
  obtain ⟨order, hperm, -, hsequential⟩ := h
  obtain ⟨n, n', hserves⟩ := hsequential.served (hperm.mem_iff.mpr hc)
  exact hserves.putDone

theorem IsSound.linearizable_of_putDone (h : r.IsSound clock) (done : ∀ c ∈ r.finished, c.PutDone) :
    r.Linearizable Serves := by
  refine ⟨r.finished, .refl _, h.realTime, h.sequential.imp fun c hc n n' hserved => ?_⟩
  rcases hserved with hserves | hslips
  · exact hserves
  · exact absurd (done c hc) hslips.not_putDone

/-- Whatever clients call and however their steps come, the calls give what a map gives in some order
of whole calls, except that a put may slip. It is a map without exception exactly if every put of a
valid name has put its source there; one that failed had another call add its name meanwhile. -/
theorem linearizable_iff_puts_done (distinct : Function.Injective fun n => (clock n).revision)
    (moves : List StoreMove) :
    (after clock moves).Linearizable ServesOrSlips ∧
      ((after clock moves).Linearizable Serves ↔ ∀ c ∈ (after clock moves).finished, c.PutDone) ∧
      ∀ c ∈ (after clock moves).finished, c.IsExcused (after clock moves).finished := by
  have hsound := isSound_after distinct moves
  refine ⟨hsound.linearizable, ⟨?_, hsound.linearizable_of_putDone⟩, ?_⟩
  · exact fun hlinearizable c hc => hlinearizable.putDone hc
  · exact fun c hc => (hsound.finished c hc).2.2

/-- A clock whose revisions grow. -/
def growingClock : Clock := fun n => ⟨List.replicate n 0x61, .none⟩

theorem growingClock_distinct : Function.Injective fun n => (growingClock n).revision := by
  intro a b hab
  simpa [growingClock] using congrArg List.length hab

/-- A definition is put while another client looks for it, and again while it is deleted and created. -/
def busyMoves : List StoreMove :=
  [.call (.put (text "sum") (text "a + b")), .call (.get (text "sum")), .step 0, .step 1, .step 0,
    .call (.put (text "sum") (text "b + a")), .call (.delete (text "sum")), .step 1, .step 0,
    .call (.create (text "sum") [] [] none), .step 0, .step 0, .call .list, .step 0]

theorem busyMoves_linearizable :
    ((after growingClock busyMoves).finished.map fun c => (c.start, c.finish)) =
        [(1, 3), (0, 4), (6, 7), (5, 10), (9, 11), (12, 13)] ∧
      (after growingClock busyMoves).Linearizable Serves :=
  ⟨by decide, (linearizable_iff_puts_done growingClock_distinct busyMoves).2.1.mpr (by decide)⟩

/-- An empty source is put in the place of another, with no other call meanwhile. -/
def emptyPutMoves : List StoreMove :=
  [.call (.create (text "a") (text "x") [] none), .step 0, .call (.put (text "a") []), .step 0]

/-- A definition is created between the steps of a put. -/
def overtakenPutMoves : List StoreMove :=
  [.call (.put (text "a") (text "x")), .step 0, .call (.create (text "a") (text "y") [] none), .step 1,
    .step 0]

/-- The store is not a map, even if its clients call it one after the other. -/
theorem puts_not_linearizable :
    ¬ (after growingClock emptyPutMoves).Linearizable Serves ∧
      ¬ (after growingClock overtakenPutMoves).Linearizable Serves := by
  -- In any order, a map has done the puts that it served.
  have hempty : ¬ ∀ c ∈ (after growingClock emptyPutMoves).finished, c.PutDone := by decide
  have hovertaken : ¬ ∀ c ∈ (after growingClock overtakenPutMoves).finished, c.PutDone := by decide
  exact ⟨fun h => hempty fun _ hc => h.putDone hc, fun h => hovertaken fun _ hc => h.putDone hc⟩

end StoreRun

end ScopedAggregation
