import ScopedAggregation.Proofs.StoreConsistency
import ScopedAggregation.Proofs.TableOrder
import ScopedAggregation.Service.Directory
import ScopedAggregation.Service.Rest
import ScopedAggregation.Service.Rpc

namespace ScopedAggregation

namespace ServiceState

/-- The definition of a name. -/
def entry (name : Text) (s : ServiceState) : Option StoredDefinition :=
  s.shared.store.definitions.get? name

/-- The name is known to have come from the directory. -/
def isMarked (name : Text) (s : ServiceState) : Bool := s.fromDirectory.contains name

end ServiceState

/-- A call that writes a definition. -/
inductive StoreWrite where
  | create (source description : Text) (labels : Labels)
  | update (source description : Text)
  | delete

/-- Whether a write of a name succeeds, and the store after it. -/
def StoreWrite.perform (clock : Clock) (name : Text) (w : StoreWrite) (s : SharedStore) :
    Bool × SharedStore :=
  match w with
  | .create source description labels =>
    let outcome := SharedStore.stamped clock (Store.create · name source description labels) s
    (outcome.1.isOk, outcome.2)
  | .update source description =>
    let outcome := SharedStore.stamped clock (Store.update · name source description) s
    (outcome.1.isOk, outcome.2)
  | .delete =>
    let outcome := SharedStore.call (Store.delete name) s
    (outcome.1.isOk, outcome.2)

/-- What a step may do to the store and to the marks. -/
inductive StepEffect where
  | aside
  | write (name : Text) (w : StoreWrite)
  | mark (name : Text)
  | forget (name : Text)

namespace StepEffect

/-- The step has the effect, whatever state it sees. -/
def Is (clock : Clock) : StepEffect → (ServiceState → ServiceState) → Prop
  | .aside, change => ∀ s, (change s).shared = s.shared ∧ (change s).fromDirectory = s.fromDirectory
  | .write name w, change => ∀ s, (change s).shared = (w.perform clock name s.shared).2 ∧
      (change s).fromDirectory = s.fromDirectory
  | .mark name, change => ∀ s, (change s).shared = s.shared ∧
      (change s).fromDirectory = s.fromDirectory.insert name ()
  | .forget name, change => ∀ s, (change s).shared = s.shared ∧
      (change s).fromDirectory = s.fromDirectory.erase name

/-- The effect is on one name only. -/
def Concerns (name : Text) : StepEffect → Prop
  | .aside => True
  | .write n _ | .mark n | .forget n => n = name

/-- The effect neither writes nor marks the name. -/
def Avoids (name : Text) : StepEffect → Prop
  | .write n _ | .mark n => n ≠ name
  | _ => True

/-- The effect takes no definition away and changes no mark. -/
def Adds : StepEffect → Prop
  | .aside | .write _ (.create ..) | .write _ (.update ..) => True
  | _ => False

/-- The effect is not to mark a name. -/
def Unmarking : StepEffect → Prop
  | .mark _ => False
  | _ => True

end StepEffect

namespace Service

variable {α β : Type} {clock : Clock} {allowed allowed' : StepEffect → Prop}

/-- Every step of the request has an effect that is allowed. -/
def Effects (clock : Clock) (allowed : StepEffect → Prop) : Request α → Prop
  | .done _ => True
  | .step change next =>
    (∃ e, allowed e ∧ e.Is clock change) ∧ ∀ s, Effects clock allowed (next s)

theorem Effects.mono {p : Request α} (h : Effects clock allowed p)
    (himp : ∀ e, allowed e → allowed' e) : Effects clock allowed' p := by
  induction p with
  | done a => exact trivial
  | step change next ih =>
    obtain ⟨⟨e, he, his⟩, hnext⟩ := h
    exact ⟨⟨e, himp e he, his⟩, fun s => ih s (hnext s)⟩

theorem Effects.bind {p : Request α} {f : α → Request β} (hp : Effects clock allowed p)
    (hf : ∀ a, Effects clock allowed (f a)) : Effects clock allowed (p >>= f) := by
  induction p with
  | done a => exact hf a
  | step change next ih => exact ⟨hp.1, fun s => ih s (hp.2 s)⟩

theorem effects_pure (a : α) : Effects clock allowed (pure a : Request α) := trivial

theorem effects_modify {f : ServiceState → ServiceState} {e : StepEffect} (he : allowed e)
    (his : e.Is clock f) : Effects clock allowed (.modify f) :=
  ⟨⟨e, he, his⟩, fun _ => trivial⟩

theorem effects_write {f : SharedStore → α × SharedStore} {name : Text} {w : StoreWrite}
    (he : allowed (.write name w)) (hf : ∀ s, (f s).2 = (w.perform clock name s).2) :
    Effects clock allowed (onStore (.atomic f)) :=
  ⟨⟨_, he, fun s => ⟨hf s.shared, rfl⟩⟩, fun _ => trivial⟩

theorem effects_create {name source description : Text} {labels : Labels}
    (he : allowed (.write name (.create source description labels))) :
    Effects clock allowed (onStore (SharedStore.create clock name source description labels)) :=
  effects_write he fun _ => rfl

theorem effects_update {name source description : Text}
    (he : allowed (.write name (.update source description))) :
    Effects clock allowed (onStore (SharedStore.update clock name source description)) :=
  effects_write he fun _ => rfl

theorem effects_delete {name : Text} (he : allowed (.write name .delete)) :
    Effects clock allowed (onStore (SharedStore.delete name)) :=
  effects_write he fun _ => rfl

theorem effects_read (he : allowed .aside) (f : ServiceState → α) :
    Effects clock allowed (.read f : Request α) :=
  ⟨⟨.aside, he, fun _ => ⟨rfl, rfl⟩⟩, fun _ => trivial⟩

theorem effects_look (he : allowed .aside) (f : SharedStore → α) :
    Effects clock allowed (onStore (.read f)) :=
  ⟨⟨.aside, he, fun _ => ⟨rfl, rfl⟩⟩, fun _ => trivial⟩

theorem effects_logged (he : allowed .aside) (l : LogLine) : Effects clock allowed (logged l) :=
  effects_modify he fun _ => ⟨rfl, rfl⟩

theorem effects_remember (he : allowed .aside) (d : StoredDefinition) (definition : Definition) :
    Effects clock allowed (remember d definition) :=
  effects_modify he fun _ => ⟨rfl, rfl⟩

theorem effects_countDefinitions (he : allowed .aside) : Effects clock allowed countDefinitions :=
  (effects_look he _).bind fun _ => effects_modify he fun _ => ⟨rfl, rfl⟩

theorem effects_mark {name : Text} (he : allowed (.mark name)) :
    Effects clock allowed
      (.modify fun s => { s with fromDirectory := s.fromDirectory.insert name () }) :=
  effects_modify he fun _ => ⟨rfl, rfl⟩

theorem effects_forget {name : Text} (he : allowed (.forget name)) :
    Effects clock allowed (forget name) :=
  effects_modify he fun _ => ⟨rfl, rfl⟩

variable {srv : Service}

theorem effects_createDefinition (name source description : Text) (labels : Labels)
    (definition : Definition) :
    Effects srv.clock StepEffect.Adds
      (srv.createDefinition name source description labels definition) := by
  refine Effects.bind (effects_create trivial) fun result => ?_
  cases result with
  | error e => exact effects_pure _
  | ok d =>
    refine (effects_remember trivial d definition).bind fun _ => ?_
    exact (effects_countDefinitions trivial).bind fun _ => (effects_logged trivial _).bind
      fun _ => effects_pure _

theorem effects_updateDefinition (name source description : Text) (definition : Option Definition) :
    Effects srv.clock StepEffect.Adds (srv.updateDefinition name source description definition) := by
  refine Effects.bind (effects_update trivial) fun result => ?_
  cases result with
  | error e => exact effects_pure _
  | ok d =>
    have hrest : Effects srv.clock StepEffect.Adds (do
        logged (.of .info "updated definition"
          [("name", .text name), ("revision", .text d.revision)])
        pure (.ok d) : Request (Except StoreError StoredDefinition)) :=
      (effects_logged trivial _).bind fun _ => effects_pure _
    cases definition with
    | none => exact hrest
    | some definition => exact (effects_remember trivial d definition).bind fun _ => hrest

theorem effects_deleteDefinition (name : Text) :
    Effects clock StepEffect.Unmarking (deleteDefinition name) := by
  refine Effects.bind (effects_delete trivial) fun result => ?_
  cases result with
  | error e => exact effects_pure _
  | ok _ =>
    refine (effects_forget trivial).bind fun _ => (effects_countDefinitions trivial).bind fun _ => ?_
    exact (effects_logged trivial _).bind fun _ => effects_pure _

theorem effects_answerCreate (r : Http.Request) :
    Effects srv.clock StepEffect.Adds (srv.answerCreate r) := by
  unfold answerCreate
  dsimp only
  split
  next => exact effects_pure _
  next =>
    split
    next => exact effects_pure _
    next =>
      split
      next => exact effects_pure _
      next =>
        split
        next => exact effects_pure _
        next =>
          split
          next => exact effects_pure _
          next definition _ =>
            refine (effects_createDefinition _ _ _ _ definition).bind fun outcome => ?_
            cases outcome <;> exact effects_pure _

theorem effects_answerUpdate (name : Text) (r : Http.Request) :
    Effects srv.clock StepEffect.Adds (srv.answerUpdate name r) := by
  unfold answerUpdate
  split
  next => exact effects_pure _
  next body _ =>
    dsimp only
    split
    next => exact effects_pure _
    next definition _ =>
      refine (effects_updateDefinition name _ _ definition).bind fun outcome => ?_
      cases outcome <;> exact effects_pure _

theorem effects_answerDelete (name : Text) :
    Effects clock StepEffect.Unmarking (answerDelete name) := by
  refine (effects_deleteDefinition name).bind fun outcome => ?_
  cases outcome <;> exact effects_pure _

theorem effects_noted (he : allowed .aside) (attempts : List Attempt) :
    Effects clock allowed (noted attempts) :=
  effects_modify he fun _ => ⟨rfl, rfl⟩

theorem effects_parsedForm (he : allowed .aside) (d : StoredDefinition) :
    Effects clock allowed (parsedForm d) := by
  have hfresh : Effects clock allowed (parsedForm.fresh d) := by
    unfold parsedForm.fresh
    split
    · exact effects_pure _
    · exact (effects_remember he d _).bind fun _ => effects_pure _
  refine (effects_read he _).bind fun found => ?_
  split
  · split
    · exact effects_pure _
    · exact hfresh
  · exact hfresh

theorem effects_compileDefinition (he : allowed .aside) (name : Text) :
    Effects clock allowed (srv.compileDefinition name) := by
  refine Effects.bind (effects_look he _) fun outcome => ?_
  cases outcome with
  | error e => exact effects_pure _
  | ok d =>
    refine Effects.bind ((effects_parsedForm he d).bind fun form => ?_) fun _ => effects_pure _
    cases form with
    | error r => exact effects_pure _
    | ok definition => exact (effects_noted he _).bind fun _ => effects_pure _

theorem effects_answerCompile (he : allowed .aside) (r : Http.Request) :
    Effects clock allowed (srv.answerCompile r) := by
  unfold answerCompile
  split
  · exact effects_pure _
  · split
    · exact effects_pure _
    · refine Effects.bind ((effects_noted he _).bind fun _ => effects_pure _) fun outcome => ?_
      cases outcome <;> exact effects_pure _

theorem effects_answerGet (he : allowed .aside) (name : Text) :
    Effects clock allowed (answerGet name) := by
  refine Effects.bind (effects_look he _) fun outcome => ?_
  cases outcome <;> exact effects_pure _

/-- All answers but those to requests to delete. -/
theorem effects_answerOf {resource : Resource} {method : Http.Method}
    (hdelete : ∀ name, ¬ (resource = .definition name ∧ method = .delete)) (r : Http.Request) :
    Effects srv.clock StepEffect.Adds (srv.answerOf resource method r) := by
  have look {γ : Type} (f : SharedStore → γ) :
      Effects srv.clock StepEffect.Adds (onStore (.read f)) := effects_look trivial f
  have read {γ : Type} (f : ServiceState → γ) :
      Effects srv.clock StepEffect.Adds (.read f : Request γ) := effects_read trivial f
  unfold answerOf
  split
  · exact effects_answerCompile trivial r
  · exact effects_answerCreate r
  · exact (look _).bind fun _ => effects_pure _
  · exact effects_answerUpdate _ r
  · exact absurd ⟨rfl, rfl⟩ (hdelete _)
  · exact effects_answerGet trivial _
  · exact (effects_compileDefinition trivial _).bind fun _ => effects_pure _
  · exact (look _).bind fun _ => effects_pure _
  · exact (read _).bind fun _ => effects_pure _
  · exact (look _).bind fun _ => (read _).bind fun _ => effects_pure _
  · exact (effects_compileDefinition trivial _).bind fun _ => (look _).bind fun _ =>
      (read _).bind fun _ => effects_pure _
  · exact effects_pure _

theorem effects_documentOf (he : allowed .aside) (server : RpcServer) (source : Text) :
    Effects clock allowed (server.documentOf source) := by
  unfold RpcServer.documentOf
  dsimp only
  split
  · exact (effects_noted he _).bind fun _ => effects_pure _
  · exact effects_pure _

theorem effects_call (he : allowed .aside) (server : RpcServer) (method : Rpc.Method)
    (m : Rpc.Message) : Effects clock allowed (server.call method m) := by
  have compiled : Effects clock allowed (server.compile m) := by
    unfold RpcServer.compile
    split
    · exact effects_pure _
    · exact (effects_documentOf he server _).bind fun _ => effects_pure _
  have validated : Effects clock allowed (server.validate m) := by
    unfold RpcServer.validate
    split
    · exact effects_pure _
    · exact (effects_documentOf he server _).bind fun _ => effects_pure _
  have stored : Effects clock allowed (server.compileDefinition m) := by
    unfold RpcServer.compileDefinition
    dsimp only
    split
    · exact effects_pure _
    · refine Effects.bind (effects_look he _) fun outcome => ?_
      cases outcome with
      | error e => exact effects_pure _
      | ok d => exact (effects_documentOf he server _).bind fun _ => effects_pure _
  have logs (result : Except Rpc.Failure Rpc.Message) : Effects clock allowed (do
      if server.logsCalls then logged (RpcServer.callLine method result)
      pure result) := by
    split
    · exact (effects_logged he _).bind fun _ => effects_pure _
    · exact effects_pure _
  cases method with
  | compile => exact compiled.bind logs
  | validate => exact validated.bind logs
  | compileDefinition => exact stored.bind logs

theorem onStore_bind (p : Program SharedStore α) (f : α → Program SharedStore β) :
    onStore (p >>= f) = onStore p >>= fun a => onStore (f a) := by
  induction p with
  | done a => rfl
  | step change next ih =>
    show Program.step _ _ = Program.step _ _
    congr 1
    funext s
    exact ih s.shared

/-- Putting a definition tries to update it, and then to create it if it was not found. -/
theorem onStore_put (clock : Clock) (name source : Text) :
    onStore (SharedStore.put clock name source) =
      (onStore (SharedStore.update clock name source []) >>= fun result =>
        match result with
        | .ok d => pure (.ok d, false)
        | .error (.notFound _) => do
          let result ← onStore (SharedStore.create clock name source [] none)
          pure (result, true)
        | .error e => pure (.error e, false)) := by
  unfold SharedStore.put
  rw [onStore_bind]
  congr 1
  funext result
  cases result with
  | ok d => rfl
  | error e =>
    cases e with
    | notFound n => exact onStore_bind _ _
    | _ => rfl

theorem effects_put {name source : Text} (hupdate : allowed (.write name (.update source [])))
    (hcreate : allowed (.write name (.create source [] none))) :
    Effects clock allowed (onStore (SharedStore.put clock name source)) := by
  rw [onStore_put]
  refine Effects.bind (effects_update hupdate) fun result => ?_
  split
  · exact effects_pure _
  · exact (effects_create hcreate).bind fun _ => effects_pure _
  · exact effects_pure _

theorem effects_loadSource (file name source : Text) :
    Effects srv.clock (StepEffect.Concerns name) (srv.loadSource file name source) := by
  unfold loadSource
  split
  next => exact (effects_logged trivial _).bind fun _ => effects_pure _
  next definition _ =>
    refine Effects.bind (effects_put rfl rfl) fun outcome => ?_
    obtain ⟨result, created⟩ := outcome
    cases result with
    | error e => exact (effects_logged trivial _).bind fun _ => effects_pure _
    | ok d =>
      refine (effects_remember trivial d definition).bind fun _ => ?_
      refine Effects.bind (effects_mark rfl) fun _ => ?_
      exact (effects_logged trivial _).bind fun _ => effects_pure _

/-- An entry of a directory is passed over, or its source is loaded. -/
theorem loadEntry_cases (srv : Service) (l : Loading) (file : Text) (entry : DirectoryEntry) :
    (∀ allowed : StepEffect → Prop, allowed .aside →
        Effects srv.clock allowed (srv.loadEntry l file entry)) ∨
      ∃ (source : Text) (counted : Bool → Loading), srv.loadEntry l file entry =
        srv.loadSource file (Path.stem file) source >>= fun stored => pure (counted stored) := by
  unfold loadEntry
  dsimp only
  split
  next => exact .inl fun _ _ => effects_pure _
  next =>
    split
    next => exact .inl fun _ he => (effects_logged he _).bind fun _ => effects_pure _
    next =>
      split
      next => exact .inl fun _ he => (effects_logged he _).bind fun _ => effects_pure _
      next =>
        split
        next => exact .inr ⟨_, _, rfl⟩
        next => exact .inl fun _ he => (effects_logged he _).bind fun _ => effects_pure _
        next => exact .inl fun _ _ => effects_pure _

theorem effects_loadEntry (l : Loading) (file : Text) (entry : DirectoryEntry) :
    Effects srv.clock (StepEffect.Concerns (Path.stem file)) (srv.loadEntry l file entry) := by
  rcases loadEntry_cases srv l file entry with hquiet | ⟨source, counted, heq⟩
  · exact hquiet _ trivial
  · rw [heq]
    exact (effects_loadSource file _ source).bind fun _ => effects_pure _

theorem effects_removeStale (name : Text) :
    Effects clock (StepEffect.Concerns name) (removeStale name) := by
  have hgone := (@effects_forget clock (StepEffect.Concerns name) name rfl).bind fun _ =>
    effects_logged trivial (.of .info "removed definition" [("name", .text name)])
  refine Effects.bind (effects_delete rfl) fun result => ?_
  split
  · exact hgone
  · exact hgone
  · exact effects_logged trivial _

theorem effects_loadDirectory (dir : Directory) :
    Effects srv.clock (fun _ => True) (srv.loadDirectory dir) := by
  have hentries : ∀ (entries : List (Text × DirectoryEntry)) (l : Loading),
      Effects srv.clock (fun _ => True) (srv.loadEntries l entries) := by
    intro entries
    induction entries with
    | nil => exact fun _ => trivial
    | cons entry entries ih =>
      exact fun l => ((effects_loadEntry l _ _).mono fun _ _ => trivial).bind fun l => ih l
  have hremove : ∀ stale, Effects srv.clock (fun _ => True) (Program.forEach removeStale stale) := by
    intro stale
    induction stale with
    | nil => exact trivial
    | cons name stale ih =>
      refine Effects.bind ((effects_removeStale name).mono fun _ _ => trivial) fun _ => ?_
      exact ih.bind fun _ => effects_pure _
  refine (hentries dir {}).bind fun l => (effects_read trivial _).bind fun stale => ?_
  refine (hremove stale).bind fun _ => (effects_countDefinitions trivial).bind fun _ => ?_
  exact (effects_logged trivial _).bind fun _ => effects_pure _

end Service

/-- Definitions stand under their names, and the marks are in order. -/
structure ServiceState.IsOrdered (s : ServiceState) : Prop where
  named : ∀ p ∈ s.shared.store.definitions, p.1 = p.2.name
  sorted : s.fromDirectory.IsSorted

theorem ServiceState.isMarked_eq_false {s : ServiceState} {n : Text} :
    s.isMarked n = false ↔ s.fromDirectory.get? n = none := by
  simp [isMarked, Table.contains]

namespace StoreWrite

variable {clock : Clock} {name : Text} {s : SharedStore}

/-- A write fails and leaves the store, or the store takes it and saves or deletes a definition. -/
theorem perform_store (w : StoreWrite) :
    ((w.perform clock name s).1 = false ∧ (w.perform clock name s).2.store = s.store) ∨
      (w.perform clock name s).1 = true ∧ s.store.TakesWrites ∧
        ((∃ d, ((∀ p ∈ s.store.definitions, p.1 = p.2.name) → d.name = name) ∧
            s.store.TimesWritable d ∧ (w.perform clock name s).2.store = s.store.saved d) ∨
          w = .delete ∧ (w.perform clock name s).2.store =
            s.store.changed (Table.erase name) (Table.erase name)) := by
  cases w with
  | create source description labels =>
    rcases Store.create_allOrNothing (clock s.ticks) name source description labels s.store with
      ⟨e, he⟩ | ⟨d, t, hd, rfl, -, -, takes, times, rfl⟩
    · simp [perform, SharedStore.stamped, SharedStore.call, he, Except.isOk, Except.toBool]
    · refine .inr ⟨?_, takes, .inl ⟨_, fun _ => rfl, times, ?_⟩⟩
      · simp [perform, SharedStore.stamped, SharedStore.call, hd, Except.isOk, Except.toBool]
      · simp [perform, SharedStore.stamped, SharedStore.call, hd]
  | update source description =>
    rcases Store.update_allOrNothing (clock s.ticks) name source description s.store with
      ⟨e, he⟩ | ⟨d, t, hd, old, held, rfl, takes, times, rfl⟩
    · simp [perform, SharedStore.stamped, SharedStore.call, he, Except.isOk, Except.toBool]
    · refine .inr ⟨?_, takes, .inl ⟨_, fun named => ?_, times, ?_⟩⟩
      · simp [perform, SharedStore.stamped, SharedStore.call, hd, Except.isOk, Except.toBool]
      · rw [Store.revised_name]
        exact (named _ (Table.mem_of_get? held)).symm
      · simp [perform, SharedStore.stamped, SharedStore.call, hd]
  | delete =>
    rcases Store.delete_allOrNothing name s.store with ⟨e, he⟩ | ⟨_, t, hd, takes, rfl⟩
    · simp [perform, SharedStore.call, he, Except.isOk, Except.toBool]
    · refine .inr ⟨?_, takes, .inr ⟨rfl, ?_⟩⟩
      · simp [perform, SharedStore.call, hd, Except.isOk, Except.toBool]
      · simp [perform, SharedStore.call, hd]

/-- A write fails and leaves the store, or it puts a definition under its name or takes it away. -/
theorem perform_cases (named : ∀ p ∈ s.store.definitions, p.1 = p.2.name) (w : StoreWrite) :
    ((w.perform clock name s).1 = false ∧ (w.perform clock name s).2.store = s.store) ∨
      ((w.perform clock name s).1 = true ∧
        ((∃ d, d.name = name ∧
            (w.perform clock name s).2.store.definitions = s.store.definitions.insert name d) ∨
          w = .delete ∧
            (w.perform clock name s).2.store.definitions = s.store.definitions.erase name)) := by
  rcases @perform_store clock name s w with h | ⟨hdone, -, ⟨d, hname, -, hsaved⟩ | ⟨hdelete, herased⟩⟩
  · exact .inl h
  · have hkey : d.name = name := hname named
    refine .inr ⟨hdone, .inl ⟨d, hkey, ?_⟩⟩
    rw [hsaved, ← hkey]
    rfl
  · refine .inr ⟨hdone, .inr ⟨hdelete, ?_⟩⟩
    rw [herased]
    rfl

theorem named_perform (named : ∀ p ∈ s.store.definitions, p.1 = p.2.name) (w : StoreWrite) :
    ∀ p ∈ (w.perform clock name s).2.store.definitions, p.1 = p.2.name := by
  rcases @perform_cases clock name s named w with ⟨-, hsame⟩ | ⟨-, ⟨d, hd, hinsert⟩ | ⟨-, herase⟩⟩
  · rw [hsame]
    exact named
  · rw [hinsert]
    intro p hp
    rcases Table.mem_insert hp with rfl | hp
    · exact hd.symm
    · exact named p hp
  · rw [herase]
    exact fun p hp => named p ((Table.erase_sublist name _).subset hp)

/-- A write changes the definition of its own name only, and only if it succeeds. -/
theorem get?_perform (named : ∀ p ∈ s.store.definitions, p.1 = p.2.name) (w : StoreWrite)
    {n : Text} (h : n ≠ name ∨ (w.perform clock name s).1 = false) :
    (w.perform clock name s).2.store.definitions.get? n = s.store.definitions.get? n := by
  rcases @perform_cases clock name s named w with ⟨-, hsame⟩ | ⟨hdone, hchanged⟩
  · rw [hsame]
  · have hne : n ≠ name := h.resolve_right (by simp [hdone])
    rcases hchanged with ⟨d, -, hinsert⟩ | ⟨-, herase⟩
    · rw [hinsert, Table.get?_insert, if_neg hne]
    · rw [herase, Table.get?_erase_of_ne hne]

/-- Only deleting takes a definition away. -/
theorem get?_perform_ne_none (named : ∀ p ∈ s.store.definitions, p.1 = p.2.name) {w : StoreWrite}
    (hw : w ≠ .delete) {n : Text} (held : s.store.definitions.get? n ≠ none) :
    (w.perform clock name s).2.store.definitions.get? n ≠ none := by
  rcases @perform_cases clock name s named w with ⟨-, hsame⟩ | ⟨-, ⟨d, -, hinsert⟩ | ⟨hdelete, -⟩⟩
  · rw [hsame]
    exact held
  · rw [hinsert, Table.get?_insert]
    split
    · exact Option.some_ne_none d
    · exact held
  · exact absurd hdelete hw

/-- What was written with success is there, unless it was deleted. -/
theorem held_perform (named : ∀ p ∈ s.store.definitions, p.1 = p.2.name) {w : StoreWrite}
    (hw : w ≠ .delete) (hdone : (w.perform clock name s).1 = true) :
    (w.perform clock name s).2.store.definitions.get? name ≠ none := by
  rcases @perform_cases clock name s named w with
    ⟨hfailed, -⟩ | ⟨-, ⟨d, -, hinsert⟩ | ⟨hdelete, -⟩⟩
  · rw [hdone] at hfailed
    cases hfailed
  · rw [hinsert, Table.get?_insert, if_pos rfl]
    exact Option.some_ne_none d
  · exact absurd hdelete hw

end StoreWrite

namespace StepEffect

variable {clock : Clock} {e : StepEffect} {change : ServiceState → ServiceState} {s : ServiceState}
  {n : Text}

theorem Is.ordered (his : e.Is clock change) (h : s.IsOrdered) : (change s).IsOrdered := by
  cases e with
  | aside =>
    obtain ⟨hshared, hmarks⟩ := his s
    exact ⟨hshared ▸ h.named, hmarks ▸ h.sorted⟩
  | write name w =>
    obtain ⟨hshared, hmarks⟩ := his s
    exact ⟨hshared ▸ w.named_perform h.named, hmarks ▸ h.sorted⟩
  | mark name =>
    obtain ⟨hshared, hmarks⟩ := his s
    exact ⟨hshared ▸ h.named, hmarks ▸ h.sorted.insert name ()⟩
  | forget name =>
    obtain ⟨hshared, hmarks⟩ := his s
    exact ⟨hshared ▸ h.named, hmarks ▸ h.sorted.erase name⟩

/-- The definition of a name stays unless the step writes it with success. -/
theorem Is.entry (his : e.Is clock change) (h : s.IsOrdered) :
    (change s).entry n = s.entry n ∨
      ∃ w, e = .write n w ∧ (w.perform clock n s.shared).1 = true := by
  cases e with
  | write name w =>
    have hshared := (his s).1
    by_cases hwritten : n = name ∧ (w.perform clock name s.shared).1 = true
    · obtain ⟨rfl, hdone⟩ := hwritten
      exact .inr ⟨w, rfl, hdone⟩
    · rw [not_and_or, Bool.not_eq_true] at hwritten
      left
      rw [ServiceState.entry, hshared]
      exact w.get?_perform h.named hwritten
  | aside | mark _ | forget _ =>
    left
    rw [ServiceState.entry, (his s).1, ServiceState.entry]

theorem Is.unmarked (his : e.Is clock change) (he : e ≠ .mark n) (h : s.isMarked n = false) :
    (change s).isMarked n = false := by
  rw [ServiceState.isMarked_eq_false] at h ⊢
  cases e with
  | aside | write _ _ => rwa [(his s).2]
  | mark name =>
    have hne : n ≠ name := by
      rintro rfl
      exact he rfl
    rwa [(his s).2, Table.get?_insert, if_neg hne]
  | forget name =>
    rw [Table.get?_eq_none] at h
    rw [(his s).2, Table.get?_eq_none]
    exact fun p hp => h p ((Table.erase_sublist name _).subset hp)

theorem Is.adds (his : e.Is clock change) (he : e.Adds) (h : s.IsOrdered) :
    (change s).fromDirectory = s.fromDirectory ∧ (s.entry n ≠ none → (change s).entry n ≠ none) := by
  cases e with
  | aside =>
    obtain ⟨hshared, hmarks⟩ := his s
    rw [ServiceState.entry, ServiceState.entry, hshared]
    exact ⟨hmarks, id⟩
  | write name w =>
    obtain ⟨hshared, hmarks⟩ := his s
    have hw : w ≠ .delete := by
      rintro rfl
      exact he
    refine ⟨hmarks, fun hheld => ?_⟩
    rw [ServiceState.entry, hshared]
    exact w.get?_perform_ne_none h.named hw hheld
  | mark _ | forget _ => exact he.elim

theorem Concerns.avoids {m : Text} (h : e.Concerns m) (hne : m ≠ n) : e.Avoids n := by
  cases e with
  | aside | forget _ => exact trivial
  | write name w | mark name => exact fun heq => hne (h.symm.trans heq)

end StepEffect

end ScopedAggregation
