import ScopedAggregation.Proofs.Success
import ScopedAggregation.Store

namespace ScopedAggregation.Store

variable {α β : Type}

theorem run_bind (c : Call α) (f : α → Call β) (s : Store) :
    (c >>= f).run.run s =
      match c.run.run s with
      | (.ok a, t) => (f a).run.run t
      | (.error e, t) => (.error e, t) := by
  change (match c.run.run s with | (x, t) => ExceptT.bindCont f x t) = _
  cases c.run.run s with
  | mk x t => cases x <;> rfl

/-- A call that finds what it looks for goes on from there. -/
theorem look_bind_ok {f : Store → Except StoreError α} {g : α → Call β} {s : Store} {a : α}
    (h : f s = .ok a) : (look f >>= g).run.run s = (g a).run.run s := by
  rw [run_bind, show (look f).run.run s = (f s, s) from rfl, h]

theorem look_bind_error {f : Store → Except StoreError α} {g : α → Call β} {s : Store}
    {e : StoreError} (h : f s = .error e) : (look f >>= g).run.run s = (.error e, s) := by
  rw [run_bind, show (look f).run.run s = (f s, s) from rfl, h]

/-- The call fails and changes nothing, or it has a result and a store after it that are as told. -/
def AllOrNothing (c : Call α) (s : Store) (success : α → Store → Prop) : Prop :=
  (∃ e, c.run.run s = (.error e, s)) ∨ ∃ a t, c.run.run s = (.ok a, t) ∧ success a t

/-- Looking before a call changes nothing. -/
theorem AllOrNothing.look_bind {f : Store → Except StoreError α} {g : α → Call β} {s : Store}
    {success : β → Store → Prop} (h : ∀ a, f s = .ok a → AllOrNothing (g a) s success) :
    AllOrNothing (look f >>= g) s success := by
  cases hf : f s with
  | error e => exact .inl ⟨e, look_bind_error hf⟩
  | ok a => simpa only [AllOrNothing, look_bind_ok hf] using h a hf

theorem AllOrNothing.error {c : Call α} {s t : Store} {success : α → Store → Prop} {e : StoreError}
    (h : AllOrNothing c s success) (hrun : c.run.run s = (.error e, t)) : t = s := by
  rcases h with ⟨e', he⟩ | ⟨a, u, ha, -⟩
  · rw [he] at hrun
    cases hrun
    rfl
  · rw [ha] at hrun
    cases hrun

theorem AllOrNothing.ok {c : Call α} {s t : Store} {success : α → Store → Prop} {a : α}
    (h : AllOrNothing c s success) (hrun : c.run.run s = (.ok a, t)) : success a t := by
  rcases h with ⟨e, he⟩ | ⟨b, u, hb, hsuccess⟩
  · rw [he] at hrun
    cases hrun
  · rw [hb] at hrun
    cases hrun
    exact hsuccess

theorem AllOrNothing.imp {c : Call α} {s : Store} {p q : α → Store → Prop}
    (h : AllOrNothing c s p) (hpq : ∀ a t, p a t → q a t) : AllOrNothing c s q := by
  rcases h with h | ⟨a, t, hrun, hp⟩
  · exact .inl h
  · exact .inr ⟨a, t, hrun, hpq a t hp⟩

/-- The store with other definitions and, if it has a database, other entries there. -/
def changed (definitions : Table StoredDefinition → Table StoredDefinition)
    (entries : Table Text → Table Text) (s : Store) : Store :=
  { definitions := definitions s.definitions
    database := s.database.map fun db => { db with entries := entries db.entries } }

/-- The store when its file takes no writes for the given reason, or takes them again. -/
def withFault (fault : Option Text) (s : Store) : Store :=
  { s with database := s.database.map fun db => { db with fault := fault } }

/-- The database, if there is one, is open and its file takes writes. -/
def TakesWrites (s : Store) : Prop :=
  ∀ db, s.database = some db → db.isOpen = true ∧ db.fault = none

instance : DecidablePred TakesWrites := fun s =>
  decidable_of_iff (s.database.all (fun db => db.isOpen && db.fault.isNone) = true) <| by
    cases h : s.database <;> simp [TakesWrites, h]

/-- A change of memory follows one of the database, and is made only if that is. -/
theorem persist_modify (entries : Table Text → Table Text)
    (definitions : Table StoredDefinition → Table StoredDefinition) (a : α) (s : Store) :
    AllOrNothing
      (do
        persist entries
        modify fun s => { s with definitions := definitions s.definitions }
        pure a) s fun b t => b = a ∧ s.TakesWrites ∧ t = s.changed definitions entries := by
  obtain ⟨table, database⟩ := s
  cases database with
  | none => exact .inr ⟨a, _, rfl, rfl, by simp [TakesWrites], rfl⟩
  | some db =>
    obtain ⟨held, isOpen, fault⟩ := db
    cases isOpen with
    | false => exact .inl ⟨.closed, rfl⟩
    | true =>
      cases fault with
      | some reason => exact .inl ⟨.unwritten reason, rfl⟩
      | none => exact .inr ⟨a, _, rfl, rfl, by simp [TakesWrites], rfl⟩

/-- The store after a definition was saved. -/
def saved (d : StoredDefinition) : Store → Store :=
  changed (Table.insert d.name d) (Table.insert d.name d.encode)

/-- The times have a form, if there is a database to write them to. -/
def TimesWritable (d : StoredDefinition) (s : Store) : Prop :=
  s.database.isSome = true → d.created.hasStamp = true ∧ d.updated.hasStamp = true

theorem save_allOrNothing (d : StoredDefinition) (s : Store) :
    AllOrNothing (save d) s fun b t =>
      b = d ∧ s.TakesWrites ∧ s.TimesWritable d ∧ t = s.saved d := by
  refine .look_bind fun _ htimes => .look_bind fun _ _ => ?_
  have writable : TimesWritable d s := by
    intro hdb
    unfold checkTimes at htimes
    split at htimes
    next => cases htimes
    next hno => simpa [hdb] using hno
  have written := persist_modify (Table.insert d.name d.encode) (Table.insert d.name d) d s
  exact written.imp fun b t h => ⟨h.1, h.2.1, writable, h.2.2⟩

theorem create_allOrNothing (stamp : Stamp) (name source description : Text) (labels : Labels)
    (s : Store) :
    AllOrNothing (create stamp name source description labels) s fun d t =>
      d = fresh stamp name source description labels ∧ DefinitionName.check name = .ok () ∧
        s.definitions.get? name = none ∧ s.TakesWrites ∧ s.TimesWritable d ∧ t = s.saved d := by
  refine .look_bind fun _ hname => .look_bind fun _ hfree => ?_
  have free : s.definitions.get? name = none := by
    unfold checkFree at hfree
    split at hfree
    next => cases hfree
    next h => simpa [Table.contains] using h
  refine (save_allOrNothing _ s).imp fun d t h => ?_
  obtain ⟨rfl, taken, writable, rfl⟩ := h
  exact ⟨rfl, hname, free, taken, writable, rfl⟩

theorem get_eq_ok {name : Text} {d : StoredDefinition} {s : Store} :
    s.get name = .ok d ↔ s.definitions.get? name = some d := by
  unfold get
  split
  next e h => simp [h]
  next h => simp [h]

theorem update_allOrNothing (stamp : Stamp) (name source description : Text) (s : Store) :
    AllOrNothing (update stamp name source description) s fun d t =>
      ∃ old, s.definitions.get? name = some old ∧ d = revised stamp source description old ∧
        s.TakesWrites ∧ s.TimesWritable d ∧ t = s.saved d := by
  refine .look_bind fun old hold => ?_
  have held := get_eq_ok.mp hold
  refine (save_allOrNothing _ s).imp fun d t h => ?_
  obtain ⟨rfl, taken, writable, rfl⟩ := h
  exact ⟨old, held, rfl, taken, writable, rfl⟩

theorem delete_allOrNothing (name : Text) (s : Store) :
    AllOrNothing (delete name) s fun _ t =>
      s.TakesWrites ∧ t = s.changed (Table.erase name) (Table.erase name) := by
  refine .look_bind fun old hold => ?_
  exact (persist_modify (Table.erase name) (Table.erase name) () s).imp fun _ _ h => h.2

theorem run_put (stamp : Stamp) (name source : Text) (s : Store) :
    (put stamp name source).run s =
      match (update stamp name source []).run.run s with
      | (.ok d, t) => ((.ok d, false), t)
      | (.error (.notFound _), t) =>
        let (result, u) := (create stamp name source [] none).run.run t
        ((result, true), u)
      | (.error e, t) => ((.error e, false), t) := by
  unfold put
  rw [StateT.run_bind]
  generalize hupdate : StateT.run _ s = outcome
  obtain ⟨result, t⟩ := outcome
  cases result with
  | ok d => rfl
  | error e => cases e <;> rfl

/-- Putting a definition updates the one of its name or else creates it; it fails as one of them
does. -/
theorem put_cases (stamp : Stamp) (name source : Text) (s : Store) :
    (∃ e created, (put stamp name source).run s = ((.error e, created), s)) ∨
      ∃ d t created, (put stamp name source).run s = ((.ok d, created), t) ∧
        ((update stamp name source []).run.run s = (.ok d, t) ∨
          (create stamp name source [] none).run.run s = (.ok d, t)) := by
  rw [run_put]
  rcases update_allOrNothing stamp name source [] s with ⟨e, he⟩ | ⟨d, t, hd, -⟩
  · rw [he]
    cases e with
    | notFound n =>
      rcases create_allOrNothing stamp name source [] none s with ⟨e, he⟩ | ⟨d, t, hd, -⟩
      · exact .inl ⟨e, true, by simp only [he]⟩
      · exact .inr ⟨d, t, true, by simp only [hd], .inr hd⟩
    | _ => exact .inl ⟨_, false, rfl⟩
  · exact .inr ⟨d, t, false, by rw [hd], .inl hd⟩

theorem run_reopen (s : Store) :
    reopen.run.run s =
      match opened s.close with
      | .ok t => (.ok (), t)
      | .error e => (.error e, s.close) := by
  have looked : reopen.run.run s = (look opened >>= set).run.run s.close := rfl
  have found : (look opened).run.run s.close = (opened s.close, s.close) := rfl
  rw [looked, run_bind, found]
  cases opened s.close <;> rfl

section Writes

variable {s : Store} {name source description : Text} {stamp : Stamp} {labels : Labels}

/-- The name of a definition is a key that a database takes. -/
theorem checkKey_of_check (checked : DefinitionName.check name = .ok ()) :
    checkKey name s = .ok () := by
  have short : ¬ (name.isEmpty || decide (64 < name.length)) = true := by
    intro long
    rw [DefinitionName.check, if_pos long] at checked
    cases checked
  simp only [Bool.or_eq_true, decide_eq_true_eq, not_or] at short
  have fits : ¬ maxKeyLength < name.length := by
    unfold maxKeyLength
    omega
  unfold checkKey
  split
  next => simp [short.1, fits]
  next => rfl

theorem checkTimes_of_writable {d : StoredDefinition} (times : s.TimesWritable d) :
    checkTimes d s = .ok () := by
  unfold checkTimes
  split
  next bad =>
    simp only [Bool.and_eq_true] at bad
    obtain ⟨created, updated⟩ := times bad.1
    simp [created, updated] at bad
  next => rfl

/-- A change that is written is made. -/
theorem persist_modify_run (entries : Table Text → Table Text)
    (definitions : Table StoredDefinition → Table StoredDefinition) (a : α) (takes : s.TakesWrites) :
    (do
      persist entries
      modify fun s => { s with definitions := definitions s.definitions }
      pure a : Call α).run.run s = (.ok a, s.changed definitions entries) := by
  obtain ⟨table, database⟩ := s
  cases database with
  | none => rfl
  | some db =>
    obtain ⟨held, isOpen, fault⟩ := db
    obtain ⟨rfl, rfl⟩ := takes _ rfl
    rfl

theorem save_run {d : StoredDefinition} (takes : s.TakesWrites) (times : s.TimesWritable d)
    (checked : DefinitionName.check d.name = .ok ()) :
    (save d).run.run s = (.ok d, s.saved d) := by
  rw [save, look_bind_ok (checkTimes_of_writable times), look_bind_ok (checkKey_of_check checked)]
  exact persist_modify_run (Table.insert d.name d.encode) (Table.insert d.name d) d takes

theorem update_run {old : StoredDefinition} (held : s.definitions.get? name = some old)
    (takes : s.TakesWrites) (times : s.TimesWritable (revised stamp source description old))
    (checked : DefinitionName.check (revised stamp source description old).name = .ok ()) :
    (update stamp name source description).run.run s =
      (.ok (revised stamp source description old),
        s.saved (revised stamp source description old)) := by
  rw [update, look_bind_ok (get_eq_ok.mpr held)]
  exact save_run takes times checked

theorem get_of_missing (missing : s.definitions.get? name = none) :
    s.get name = .error (.notFound name) := by
  rw [get, missing]

theorem update_missing (missing : s.definitions.get? name = none) :
    (update stamp name source description).run.run s = (.error (.notFound name), s) :=
  look_bind_error (get_of_missing missing)

theorem create_run (missing : s.definitions.get? name = none) (takes : s.TakesWrites)
    (times : s.TimesWritable (fresh stamp name source description labels))
    (checked : DefinitionName.check name = .ok ()) :
    (create stamp name source description labels).run.run s =
      (.ok (fresh stamp name source description labels),
        s.saved (fresh stamp name source description labels)) := by
  have free : checkFree name s = .ok () := by simp [checkFree, Table.contains, missing]
  rw [create, look_bind_ok checked, look_bind_ok free]
  exact save_run takes times checked

theorem delete_missing (missing : s.definitions.get? name = none) :
    (delete name).run.run s = (.error (.notFound name), s) :=
  look_bind_error (get_of_missing missing)

theorem delete_run {old : StoredDefinition} (held : s.definitions.get? name = some old)
    (takes : s.TakesWrites) :
    (delete name).run.run s = (.ok (), s.changed (Table.erase name) (Table.erase name)) := by
  rw [delete, look_bind_ok (get_eq_ok.mpr held)]
  exact persist_modify_run (Table.erase name) (Table.erase name) () takes

end Writes

end ScopedAggregation.Store
