import ScopedAggregation.Proofs.StoreCalls
import ScopedAggregation.Proofs.StoredRecords

namespace ScopedAggregation

/-- What a client asks of a store. -/
inductive StoreRequest where
  | create (name source description : Text) (labels : Labels)
  | put (name source : Text)
  | update (name source description : Text)
  | delete (name : Text)
  | get (name : Text)
  | list
  | close
  | reopen
deriving DecidableEq, Repr

/-- The requests that change a definition. -/
def StoreRequest.isWrite : StoreRequest → Bool
  | .create .. | .put .. | .update .. | .delete _ => true
  | _ => false

/-- A request at some moment: with the stamp that a change gets, and with the reason why the file
takes no writes then, if it does not. -/
structure StoreStep where
  request : StoreRequest
  stamp : Stamp
  fault : Option Text := none
deriving DecidableEq, Repr

inductive StoreAnswer where
  | definition (d : StoredDefinition)
  | definitions (ds : List StoredDefinition)
  | done
deriving DecidableEq, Repr

/-- Clients send valid texts, and revisions are valid too. Names may be anything. -/
def StoreStep.IsValid (step : StoreStep) : Prop :=
  Utf8.isValid step.stamp.revision = true ∧
    match step.request with
    | .create _ source description labels =>
      Utf8.isValid source = true ∧ Utf8.isValid description = true ∧ labels.IsStorable
    | .put _ source => Utf8.isValid source = true
    | .update _ source description => Utf8.isValid source = true ∧ Utf8.isValid description = true
    | _ => True

namespace Store

def new : Store := { database := some {} }

example : ofEntries [] = .ok new := rfl

/-- The call that a request makes. -/
def serve (stamp : Stamp) : StoreRequest → Call StoreAnswer
  | .create name source description labels =>
    StoreAnswer.definition <$> create stamp name source description labels
  | .put name source =>
    ExceptT.mk ((fun outcome => outcome.1.map StoreAnswer.definition) <$> put stamp name source)
  | .update name source description =>
    StoreAnswer.definition <$> update stamp name source description
  | .delete name => (fun _ => StoreAnswer.done) <$> delete name
  | .get name => StoreAnswer.definition <$> look (Store.get name)
  | .list => look fun s => .ok (.definitions s.list)
  | .close => do
    modify close
    pure .done
  | .reopen => (fun _ => StoreAnswer.done) <$> reopen

/-- Takes a step: the answer and the store after it. -/
def perform (step : StoreStep) (s : Store) : Except StoreError StoreAnswer × Store :=
  (serve step.stamp step.request).run.run (s.withFault step.fault)

/-- The store after steps that began with a new database. -/
def after (steps : List StoreStep) : Store := steps.foldl (fun s step => (perform step s).2) new

def bucket (s : Store) : Option (Table Text) := s.database.map (·.entries)

/-- Every definition is stored under its name and can be written, and the database holds the record
of each in the same order. -/
structure Consistent (s : Store) : Prop where
  sorted : s.definitions.IsSorted
  named : ∀ p ∈ s.definitions, p.1 = p.2.name
  checked : ∀ p ∈ s.definitions, DefinitionName.check p.1 = .ok ()
  storable : ∀ p ∈ s.definitions, p.2.IsStorable
  written : s.bucket = some (s.definitions.map fun p => (p.1, p.2.encode))

variable {s t : Store}

theorem consistent_new : new.Consistent where
  sorted := .nil
  named := by simp [new]
  checked := by simp [new]
  storable := by simp [new]
  written := rfl

/-- Consistency is about the definitions and the entries alone. -/
theorem Consistent.congr (h : s.Consistent) (definitions : t.definitions = s.definitions)
    (bucket : t.bucket = s.bucket) : t.Consistent := by
  obtain ⟨sorted, named, checked, storable, written⟩ := h
  rw [← definitions] at sorted named checked storable written
  exact ⟨sorted, named, checked, storable, bucket.trans written⟩

theorem bucket_changed (f : Table StoredDefinition → Table StoredDefinition)
    (g : Table Text → Table Text) (s : Store) : (s.changed f g).bucket = s.bucket.map g := by
  obtain ⟨definitions, database⟩ := s
  cases database <;> rfl

theorem bucket_withFault (fault : Option Text) (s : Store) :
    (s.withFault fault).bucket = s.bucket := by
  obtain ⟨definitions, database⟩ := s
  cases database <;> rfl

theorem bucket_close (s : Store) : s.close.bucket = s.bucket := by
  obtain ⟨definitions, database⟩ := s
  cases database <;> rfl

theorem Consistent.saved (h : s.Consistent) {d : StoredDefinition}
    (checked : DefinitionName.check d.name = .ok ()) (storable : d.IsStorable) :
    (s.saved d).Consistent where
  sorted := h.sorted.insert d.name d
  named p hp := by
    rcases Table.mem_insert hp with rfl | hp
    · rfl
    · exact h.named p hp
  checked p hp := by
    rcases Table.mem_insert hp with rfl | hp
    · exact checked
    · exact h.checked p hp
  storable p hp := by
    rcases Table.mem_insert hp with rfl | hp
    · exact storable
    · exact h.storable p hp
  written := by
    rw [Store.saved, bucket_changed, h.written]
    exact congrArg some (Table.map_insert StoredDefinition.encode d.name d s.definitions).symm

theorem Consistent.erased (h : s.Consistent) (name : Text) :
    (s.changed (Table.erase name) (Table.erase name)).Consistent where
  sorted := h.sorted.erase name
  named p hp := h.named p ((Table.erase_sublist name s.definitions).subset hp)
  checked p hp := h.checked p ((Table.erase_sublist name s.definitions).subset hp)
  storable p hp := h.storable p ((Table.erase_sublist name s.definitions).subset hp)
  written := by
    rw [bucket_changed, h.written]
    exact congrArg some (Table.map_erase StoredDefinition.encode name s.definitions).symm

theorem isStorable_fresh {stamp : Stamp} {name source description : Text} {labels : Labels}
    (checked : DefinitionName.check name = .ok ())
    (valid : StoreStep.IsValid ⟨.create name source description labels, stamp, none⟩)
    (writable : stamp.time.hasStamp = true) :
    (fresh stamp name source description labels).IsStorable where
  name := DefinitionName.isValid_of_check checked
  description := valid.2.2.1
  source := valid.2.1
  revision := valid.1
  created := writable
  updated := writable
  labels := valid.2.2.2

theorem revised_name (stamp : Stamp) (source description : Text) (d : StoredDefinition) :
    (revised stamp source description d).name = d.name := by
  unfold revised
  split <;> split <;> rfl

/-- A definition stays storable if what is new in it is. -/
theorem isStorable_revised {stamp : Stamp} {source description : Text} {d : StoredDefinition}
    (h : d.IsStorable) (hrevision : Utf8.isValid stamp.revision = true)
    (hsource : Utf8.isValid source = true) (hdescription : Utf8.isValid description = true)
    (writable : stamp.time.hasStamp = true) : (revised stamp source description d).IsStorable := by
  obtain ⟨name, oldDescription, oldSource, revision, created, updated, labels⟩ := h
  unfold revised
  split <;> split <;> constructor <;> assumption

theorem Consistent.isSome (h : s.Consistent) : s.database.isSome = true := by
  have := congrArg Option.isSome h.written
  simpa [bucket] using this

theorem Consistent.create (h : s.Consistent) {stamp : Stamp} {name source description : Text}
    {labels : Labels} {d : StoredDefinition}
    (valid : StoreStep.IsValid ⟨.create name source description labels, stamp, none⟩)
    (hrun : (create stamp name source description labels).run.run s = (.ok d, t)) :
    t.Consistent := by
  obtain ⟨rfl, checked, -, -, writable, rfl⟩ :=
    (create_allOrNothing stamp name source description labels s).ok hrun
  exact h.saved checked (isStorable_fresh checked valid (writable h.isSome).1)

theorem Consistent.update (h : s.Consistent) {stamp : Stamp} {name source description : Text}
    {d : StoredDefinition}
    (valid : StoreStep.IsValid ⟨.update name source description, stamp, none⟩)
    (hrun : (update stamp name source description).run.run s = (.ok d, t)) : t.Consistent := by
  obtain ⟨old, held, rfl, -, writable, rfl⟩ :=
    (update_allOrNothing stamp name source description s).ok hrun
  have member := Table.mem_of_get? held
  have checked := h.checked _ member
  rw [h.named _ member] at checked
  refine h.saved ?_ ?_
  · rw [revised_name]
    exact checked
  · have updated := (writable h.isSome).2
    exact isStorable_revised (h.storable _ member) valid.1 valid.2.1 valid.2.2 updated

theorem load_records (ds : Table StoredDefinition) (acc : Table StoredDefinition)
    (h : ∀ p ∈ ds, p.1 = p.2.name ∧ p.2.IsStorable) :
    load acc (ds.map fun p => (p.1, p.2.encode)) =
      .ok (ds.foldl (fun t p => t.insert p.1 p.2.tidy) acc) := by
  induction ds generalizing acc with
  | nil => rfl
  | cons p ds ih =>
    obtain ⟨⟨hname, hstorable⟩, hrest⟩ := List.forall_mem_cons.mp h
    have tidyName : p.2.tidy.name = p.1 := hname.symm
    simp only [List.map_cons, load, StoredDefinition.decode_encode hstorable, tidyName, ih _ hrest,
      List.foldl_cons]

/-- The database gives the definitions back. -/
theorem Consistent.ofEntries_eq (h : s.Consistent) {entries : Table Text}
    (hbucket : s.bucket = some entries) :
    ofEntries entries = .ok
      { definitions := s.definitions.map fun p => (p.1, p.2.tidy)
        database := some { entries := entries } } := by
  have records := Option.some.inj (hbucket.symm.trans h.written)
  have sorted : ((s.definitions.map fun p => (p.1, p.2.tidy)).map (·.1)).Pairwise
      (Text.lt · · = true) := by
    rw [List.map_map]
    exact h.sorted
  have table := Table.ofList_of_sorted sorted
  rw [Table.ofList, List.foldl_map] at table
  have loaded := load_records s.definitions [] fun p hp => ⟨h.named p hp, h.storable p hp⟩
  rw [← records] at loaded
  simp only [ofEntries, loaded, ok_bind]
  rw [table]
  rfl

theorem Consistent.reopened (h : s.Consistent) {entries : Table Text}
    (hbucket : s.bucket = some entries) :
    Consistent
      { definitions := s.definitions.map fun p => (p.1, p.2.tidy)
        database := some { entries := entries } } := by
  have members : ∀ p ∈ s.definitions.map fun p => (p.1, p.2.tidy),
      ∃ q ∈ s.definitions, (q.1, q.2.tidy) = p := fun p hp => List.mem_map.mp hp
  constructor
  · have : ((s.definitions.map fun p => (p.1, p.2.tidy)).map (·.1)) = s.definitions.map (·.1) := by
      simp
    simpa [Table.IsSorted, this] using h.sorted
  · intro p hp
    obtain ⟨q, hq, rfl⟩ := members p hp
    exact h.named q hq
  · intro p hp
    obtain ⟨q, hq, rfl⟩ := members p hp
    exact h.checked q hq
  · intro p hp
    obtain ⟨q, hq, rfl⟩ := members p hp
    exact (h.storable q hq).tidy
  · have records := Option.some.inj (hbucket.symm.trans h.written)
    simp [bucket, records, StoredDefinition.encode_tidy, Function.comp_def]

theorem run_map {α β : Type} (c : Call α) (f : α → β) (s : Store) :
    (f <$> c).run.run s = ((c.run.run s).1.map f, (c.run.run s).2) := by
  rw [map_eq_pure_bind, run_bind]
  generalize c.run.run s = outcome
  obtain ⟨result, u⟩ := outcome
  cases result <;> rfl

theorem of_map_ok {α β : Type} {c : Call α} {f : α → β} {b : β}
    (h : (f <$> c).run.run s = (.ok b, t)) : ∃ a, c.run.run s = (.ok a, t) := by
  rw [run_map] at h
  generalize c.run.run s = outcome at h ⊢
  obtain ⟨result, u⟩ := outcome
  cases result with
  | ok a =>
    cases h
    exact ⟨a, rfl⟩
  | error e => cases h

theorem of_map_error {α β : Type} {c : Call α} {f : α → β} {e : StoreError}
    (h : (f <$> c).run.run s = (.error e, t)) : c.run.run s = (.error e, t) := by
  rw [run_map] at h
  generalize c.run.run s = outcome at h ⊢
  obtain ⟨result, u⟩ := outcome
  cases result with
  | ok a => cases h
  | error e =>
    cases h
    rfl

theorem serve_put (stamp : Stamp) (name source : Text) (s : Store) :
    (serve stamp (.put name source)).run.run s =
      let outcome := (put stamp name source).run s
      (outcome.1.1.map StoreAnswer.definition, outcome.2) := rfl

/-- A request that fails changes neither memory nor database. -/
theorem serve_error {stamp : Stamp} {request : StoreRequest} {e : StoreError}
    (hrun : (serve stamp request).run.run s = (.error e, t)) :
    t.definitions = s.definitions ∧ t.bucket = s.bucket := by
  have unchanged : t = s → t.definitions = s.definitions ∧ t.bucket = s.bucket := by
    rintro rfl
    exact ⟨rfl, rfl⟩
  cases request with
  | create name source description labels =>
    exact unchanged ((create_allOrNothing _ _ _ _ _ _).error (of_map_error hrun))
  | put name source =>
    rw [serve_put] at hrun
    rcases put_cases stamp name source s with ⟨e, created, hput⟩ | ⟨d, u, created, hput, -⟩
    · rw [hput] at hrun
      exact unchanged (Prod.mk.inj hrun).2.symm
    · rw [hput] at hrun
      cases hrun
  | update name source description =>
    exact unchanged ((update_allOrNothing _ _ _ _ _).error (of_map_error hrun))
  | delete name => exact unchanged ((delete_allOrNothing _ _).error (of_map_error hrun))
  | get name => exact unchanged (Prod.mk.inj (of_map_error hrun)).2.symm
  | list => cases hrun
  | close => cases hrun
  | reopen =>
    have failed := of_map_error hrun
    rw [run_reopen] at failed
    split at failed
    next => cases failed
    next =>
      -- The database stays closed, with what it holds.
      cases failed
      exact ⟨rfl, bucket_close s⟩

/-- No write succeeds on a database that takes none. -/
theorem serve_write {stamp : Stamp} {request : StoreRequest} (write : request.isWrite = true)
    {answer : StoreAnswer} (hrun : (serve stamp request).run.run s = (.ok answer, t)) :
    s.TakesWrites := by
  cases request with
  | create name source description labels =>
    obtain ⟨d, hd⟩ := of_map_ok hrun
    obtain ⟨-, -, -, taken, -, -⟩ := (create_allOrNothing _ _ _ _ _ _).ok hd
    exact taken
  | put name source =>
    rw [serve_put] at hrun
    rcases put_cases stamp name source s with ⟨e, created, hput⟩ | ⟨d, u, created, hput, hd | hd⟩
    · rw [hput] at hrun
      cases hrun
    · obtain ⟨-, -, -, taken, -, -⟩ := (update_allOrNothing _ _ _ _ _).ok hd
      exact taken
    · obtain ⟨-, -, -, taken, -, -⟩ := (create_allOrNothing _ _ _ _ _ _).ok hd
      exact taken
  | update name source description =>
    obtain ⟨d, hd⟩ := of_map_ok hrun
    obtain ⟨-, -, -, taken, -, -⟩ := (update_allOrNothing _ _ _ _ _).ok hd
    exact taken
  | delete name =>
    obtain ⟨_, hd⟩ := of_map_ok hrun
    exact ((delete_allOrNothing name s).ok hd).1
  | get | list | close | reopen => cases write

/-- Opening a database whose file takes writes gives its definitions. -/
theorem Consistent.opened_eq (h : s.Consistent) {db : Database} (hdb : s.database = some db)
    (sound : db.fault = none) :
    opened s.close = .ok
      { definitions := s.definitions.map fun p => (p.1, p.2.tidy)
        database := some { entries := db.entries } } := by
  have closed : s.close.database = some { db with isOpen := false } := by simp [close, hdb]
  rw [opened, closed]
  simp only [sound]
  exact h.ofEntries_eq (by simp [bucket, hdb])

/-- A request keeps memory and database consistent. -/
theorem Consistent.serve (h : s.Consistent) {step : StoreStep} (valid : step.IsValid)
    {result : Except StoreError StoreAnswer}
    (hrun : (serve step.stamp step.request).run.run s = (result, t)) : t.Consistent := by
  cases result with
  | error e =>
    obtain ⟨definitions, bucket⟩ := serve_error hrun
    exact h.congr definitions bucket
  | ok answer =>
    obtain ⟨request, stamp, fault⟩ := step
    cases request with
    | create name source description labels =>
      obtain ⟨d, hd⟩ := of_map_ok hrun
      exact h.create valid hd
    | put name source =>
      rw [serve_put] at hrun
      rcases put_cases stamp name source s with ⟨e, created, hput⟩ | ⟨d, u, created, hput, hd⟩
      · rw [hput] at hrun
        cases hrun
      · rw [hput] at hrun
        obtain ⟨-, rfl⟩ := Prod.mk.inj hrun
        rcases hd with hd | hd
        · exact h.update ⟨valid.1, valid.2, rfl⟩ hd
        · exact h.create ⟨valid.1, valid.2, rfl, fun t ht => by cases ht⟩ hd
    | update name source description =>
      obtain ⟨d, hd⟩ := of_map_ok hrun
      exact h.update valid hd
    | delete name =>
      obtain ⟨_, hd⟩ := of_map_ok hrun
      rw [((delete_allOrNothing name s).ok hd).2]
      exact h.erased name
    | get name =>
      obtain ⟨d, hd⟩ := of_map_ok hrun
      exact (Prod.mk.inj hd).2 ▸ h
    | list => exact (Prod.mk.inj hrun).2 ▸ h
    | close =>
      cases hrun
      exact h.congr rfl (bucket_close s)
    | reopen =>
      obtain ⟨_, hd⟩ := of_map_ok hrun
      obtain ⟨db, hdb⟩ := Option.isSome_iff_exists.mp h.isSome
      rw [run_reopen] at hd
      cases hfault : db.fault with
      | none =>
        rw [h.opened_eq hdb hfault] at hd
        cases hd
        exact h.reopened (by simp [bucket, hdb])
      | some reason =>
        have failed : opened s.close = .error (.unwritten reason) := by
          simp [opened, close, hdb, hfault]
        rw [failed] at hd
        cases hd

theorem Consistent.perform (h : s.Consistent) {step : StoreStep} (valid : step.IsValid) :
    (perform step s).2.Consistent := by
  have prepared : (s.withFault step.fault).Consistent := h.congr rfl (bucket_withFault _ s)
  exact prepared.serve valid rfl

theorem consistent_after {steps : List StoreStep} (valid : ∀ step ∈ steps, step.IsValid) :
    (after steps).Consistent := by
  have kept : ∀ s : Store, s.Consistent →
      (steps.foldl (fun s step => (perform step s).2) s).Consistent := by
    induction steps with
    | nil => exact fun _ h => h
    | cons step steps ih =>
      obtain ⟨hstep, hsteps⟩ := List.forall_mem_cons.mp valid
      exact fun s h => ih hsteps _ (h.perform hstep)
  exact kept new consistent_new

/-- Memory and database agree: the entries are records of the definitions, one of each, under its
name; names are checked and strictly increasing, and what is listed is what is found. -/
structure Agrees (s : Store) (entries : Table Text) : Prop where
  records : List.Forall₂ (fun entry d => entry.1 = d.name ∧
    ∃ e, StoredDefinition.decode entry.2 = some e ∧ e.tidy = d.tidy) entries s.list
  names : ∀ d ∈ s.list, DefinitionName.check d.name = .ok ()
  increasing : s.list.Pairwise fun d e => Text.lt d.name e.name = true
  found : ∀ name d, s.get name = .ok d ↔ d ∈ s.list ∧ d.name = name

theorem Consistent.agrees (h : s.Consistent) {entries : Table Text}
    (hbucket : s.bucket = some entries) : s.Agrees entries := by
  have records := Option.some.inj (hbucket.symm.trans h.written)
  refine ⟨?_, ?_, ?_, ?_⟩
  · rw [records, list, List.forall₂_map_left_iff, List.forall₂_map_right_iff, List.forall₂_same]
    intro p hp
    exact ⟨h.named p hp, _, StoredDefinition.decode_encode (h.storable p hp), p.2.tidy_tidy⟩
  · intro d hd
    obtain ⟨p, hp, rfl⟩ := List.mem_map.mp hd
    rw [← h.named p hp]
    exact h.checked p hp
  · rw [list, List.pairwise_map]
    have sorted := List.pairwise_map.mp h.sorted
    refine sorted.imp_of_mem fun {p q} hp hq hlt => ?_
    rw [← h.named p hp, ← h.named q hq]
    exact hlt
  · intro name d
    rw [get_eq_ok, h.sorted.get?_eq_some, list, List.mem_map]
    constructor
    · intro hmem
      exact ⟨⟨_, hmem, rfl⟩, (h.named _ hmem).symm⟩
    · rintro ⟨⟨p, hp, rfl⟩, rfl⟩
      rw [← h.named p hp]
      exact hp

theorem Consistent.reopen_eq (h : s.Consistent) {entries : Table Text}
    (hbucket : s.bucket = some entries) (stamp : Stamp) :
    Store.perform ⟨.reopen, stamp, none⟩ s =
      (.ok .done, { definitions := s.definitions.map fun p => (p.1, p.2.tidy)
                    database := some { entries := entries } }) := by
  have prepared : (s.withFault none).Consistent := h.congr rfl (bucket_withFault _ s)
  obtain ⟨db, hdb⟩ := Option.isSome_iff_exists.mp h.isSome
  have faultless : (s.withFault none).database = some { db with fault := none } := by
    simp [withFault, hdb]
  have opened := prepared.opened_eq faultless rfl
  have held : db.entries = entries := by simpa [bucket, hdb] using hbucket
  have served : Store.perform ⟨.reopen, stamp, none⟩ s =
      ((reopen.run.run (s.withFault none)).1.map fun _ => .done,
        (reopen.run.run (s.withFault none)).2) := run_map _ _ _
  rw [served, run_reopen, opened, held]
  rfl

theorem Consistent.write_closed (h : s.Consistent) {step : StoreStep}
    (write : step.request.isWrite = true) :
    ∃ e t, Store.perform step s.close = (.error e, t) := by
  obtain ⟨db, hdb⟩ := Option.isSome_iff_exists.mp h.isSome
  cases hrun : Store.perform step s.close with
  | mk result t =>
    cases result with
    | error e => exact ⟨e, t, rfl⟩
    | ok answer =>
      have taken := serve_write write hrun { db with isOpen := false, fault := step.fault }
        (by simp [withFault, close, hdb])
      cases taken.1

/-- Memory and database never disagree, whatever a client asks and whichever writes fail: no request
that fails changes either of them, no write succeeds on a closed database, and opening it anew gives
the same definitions. -/
theorem memory_agrees_with_database (steps : List StoreStep)
    (valid : ∀ step ∈ steps, step.IsValid) :
    ∃ entries, (after steps).bucket = some entries ∧ (after steps).Agrees entries ∧
      (∀ step e t, perform step (after steps) = (.error e, t) →
        t.definitions = (after steps).definitions ∧ t.bucket = some entries) ∧
      (∀ step, step.request.isWrite = true →
        ∃ e t, perform step (after steps).close = (.error e, t)) ∧
      (∀ stamp, ∃ t, perform ⟨.reopen, stamp, none⟩ (after steps) = (.ok .done, t) ∧
        t.list = (after steps).list.map StoredDefinition.tidy ∧ t.bucket = some entries) := by
  have consistent := consistent_after valid
  refine ⟨_, consistent.written, consistent.agrees consistent.written, ?_,
    fun step write => consistent.write_closed write, ?_⟩
  · intro step e t hrun
    obtain ⟨definitions, bucket⟩ := serve_error hrun
    exact ⟨definitions, (bucket.trans (bucket_withFault _ _)).trans consistent.written⟩
  · intro stamp
    refine ⟨_, consistent.reopen_eq consistent.written stamp, ?_, rfl⟩
    simp [list]

/-- Two definitions, one of them with empty labels; a write that fails, and one after the database is
closed. -/
def failingSteps : List StoreStep :=
  let stamp (revision : String) : Stamp := ⟨text revision, .ofSeconds 1700000000⟩
  [⟨.create (text "sum") (text "a + b") (text "é") (some []), stamp "1", none⟩,
    ⟨.put (text "count") (text "c"), stamp "2", none⟩,
    ⟨.update (text "sum") (text "b + a") [], stamp "3", some (text "no space left on device")⟩,
    ⟨.close, stamp "4", none⟩, ⟨.delete (text "sum"), stamp "5", none⟩]

theorem failingSteps_agree :
    (∀ step ∈ failingSteps, step.IsValid) ∧
      (after failingSteps).list.map (·.name) = [text "count", text "sum"] ∧
      ∃ entries, (after failingSteps).bucket = some entries ∧
        (after failingSteps).Agrees entries := by
  have noLabels : Labels.IsStorable (some []) := by
    intro t ht
    cases ht
    exact ⟨.nil, by simp⟩
  have valid : ∀ step ∈ failingSteps, step.IsValid := by
    simp only [failingSteps, List.forall_mem_cons, List.not_mem_nil, false_implies, implies_true]
    exact ⟨⟨rfl, rfl, rfl, noLabels⟩, ⟨rfl, rfl⟩, ⟨rfl, rfl, rfl⟩, ⟨rfl, trivial⟩, ⟨rfl, trivial⟩,
      trivial⟩
  obtain ⟨entries, bucket, agrees, -⟩ := memory_agrees_with_database failingSteps valid
  exact ⟨valid, by decide, entries, bucket, agrees⟩

end Store

end ScopedAggregation
