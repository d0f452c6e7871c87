import ScopedAggregation.Proofs.CacheFreshness
import ScopedAggregation.Proofs.RequestEffects

namespace ScopedAggregation

/-- What changes definitions: requests, and loading the directory. -/
inductive DefinitionTask where
  | post (r : Http.Request)
  | patch (name : Text) (r : Http.Request)
  | delete (name : Text)
  | load (dir : Directory)

namespace DefinitionTask

def program (srv : Service) : DefinitionTask → Service.Request Unit
  | .post r => do
    let _ ← srv.answerCreate r
    pure ()
  | .patch name r => do
    let _ ← srv.answerUpdate name r
    pure ()
  | .delete name => do
    let _ ← Service.answerDelete name
    pure ()
  | .load dir => do
    let _ ← srv.loadDirectory dir
    pure ()

def isPost : DefinitionTask → Bool
  | .post _ => true
  | _ => false

def isLoad : DefinitionTask → Bool
  | .load _ => true
  | _ => false

end DefinitionTask

/-- A task and what is left of it. -/
structure RunningTask where
  task : DefinitionTask
  program : Service.Request Unit

def RunningTask.isDone (t : RunningTask) : Bool :=
  match t.program with
  | .done _ => true
  | .step _ _ => false

/-- A service with its tasks, in the order in which they began. -/
structure ServiceRun where
  state : ServiceState
  running : List RunningTask := []

/-- A task begins, or the task at a place takes its next step. -/
inductive ServiceMove where
  | start (task : DefinitionTask)
  | step (place : Nat)

namespace ServiceRun

def move (srv : Service) (r : ServiceRun) : ServiceMove → ServiceRun
  | .start task => { r with running := r.running ++ [⟨task, task.program srv⟩] }
  | .step place =>
    match r.running[place]? with
    | some ⟨task, .step change next⟩ =>
      ⟨change r.state, r.running.set place ⟨task, next r.state⟩⟩
    | _ => r

def moves (srv : Service) (r : ServiceRun) (ms : List ServiceMove) : ServiceRun :=
  ms.foldl (move srv) r

/-- The task that makes a move. -/
def actor? (r : ServiceRun) : ServiceMove → Option DefinitionTask
  | .start _ => none
  | .step place => r.running[place]?.map (·.task)

/-- A request that creates definitions adds one of the given name. -/
def Creates (srv : Service) (name : Text) (r : ServiceRun) (m : ServiceMove) : Prop :=
  (r.actor? m).any (·.isPost) = true ∧ r.state.entry name = none ∧
    (r.move srv m).state.entry name ≠ none

/-- A load deletes the definition of a name. -/
def Removes (srv : Service) (name : Text) (r : ServiceRun) (m : ServiceMove) : Prop :=
  (r.actor? m).any (·.isLoad) = true ∧ r.state.entry name ≠ none ∧
    (r.move srv m).state.entry name = none

end ServiceRun

/-- A move writes the definition of a name, with success. -/
def ServiceRun.Writes (srv : Service) (name : Text) (r : ServiceRun) (m : ServiceMove) : Prop :=
  ∃ place task change next w, m = .step place ∧ r.running[place]? = some ⟨task, .step change next⟩ ∧
    (StepEffect.write name w).Is srv.clock change ∧ (w.perform srv.clock name r.state.shared).1 = true

/-- No move writes the definition of a name. -/
def ServiceRun.Unwritten (srv : Service) (name : Text) : ServiceRun → List ServiceMove → Prop
  | _, [] => True
  | r, m :: ms => ¬ r.Writes srv name m ∧ Unwritten srv name (r.move srv m) ms

/-- Every task begins when those before it are done. -/
def ServiceRun.OneByOne (srv : Service) : ServiceRun → List ServiceMove → Prop
  | _, [] => True
  | r, .start task :: ms => (∀ t ∈ r.running, t.isDone = true) ∧ OneByOne srv (r.move srv (.start task)) ms
  | r, .step place :: ms => OneByOne srv (r.move srv (.step place)) ms

namespace ServiceRun

instance (srv : Service) (name : Text) (r : ServiceRun) (m : ServiceMove) :
    Decidable (r.Creates srv name m) :=
  inferInstanceAs (Decidable (_ ∧ _ ∧ _))

instance (srv : Service) (name : Text) (r : ServiceRun) (m : ServiceMove) :
    Decidable (r.Removes srv name m) :=
  inferInstanceAs (Decidable (_ ∧ _ ∧ _))

instance decidableOneByOne (srv : Service) :
    (r : ServiceRun) → (ms : List ServiceMove) → Decidable (r.OneByOne srv ms)
  | _, [] => isTrue trivial
  | r, .start task :: ms =>
    have := decidableOneByOne srv (r.move srv (.start task)) ms
    inferInstanceAs (Decidable (_ ∧ _))
  | r, .step place :: ms => decidableOneByOne srv (r.move srv (.step place)) ms

end ServiceRun

/-- The name has a definition and is not marked. -/
structure ServiceState.IsClear (n : Text) (s : ServiceState) : Prop where
  ordered : s.IsOrdered
  held : s.entry n ≠ none
  unmarked : s.isMarked n = false

namespace Service

variable {α β : Type} {clock : Clock} {n : Text} {post : α → Prop}

/-- A step that creates or updates the definition of a name. -/
def Puts (clock : Clock) (n : Text) (s : ServiceState) (change : ServiceState → ServiceState) : Prop :=
  ∃ w, w ≠ .delete ∧ (StepEffect.write n w).Is clock change ∧ (w.perform clock n s.shared).1 = true

/-- Where a name has a definition that is not marked, the steps of the request leave it so, until one
of them writes the definition. -/
def Spares (clock : Clock) (n : Text) (post : α → Prop) : Request α → Prop
  | .done a => post a
  | .step change next => ∀ s, s.IsClear n →
      Puts clock n s change ∨ (change s).IsClear n ∧ Spares clock n post (next s)

theorem Puts.held {s : ServiceState} {change : ServiceState → ServiceState}
    (h : Puts clock n s change) (hs : s.IsClear n) : (change s).entry n ≠ none := by
  obtain ⟨w, hw, his, -⟩ := h
  rw [ServiceState.entry, (his s).1]
  exact w.get?_perform_ne_none hs.ordered.named hw hs.held

theorem Spares.bind {p : Request α} {f : α → Request β} {q : β → Prop} (hp : Spares clock n post p)
    (hf : ∀ a, post a → Spares clock n q (f a)) : Spares clock n q (p >>= f) := by
  induction p with
  | done a => exact hf a hp
  | step change next ih =>
    intro s hs
    rcases hp s hs with hputs | ⟨hclear, hnext⟩
    · exact .inl hputs
    · exact .inr ⟨hclear, ih s hnext⟩

/-- Steps that neither write nor mark a name leave it as it is. -/
theorem spares_of_effects {p : Request α} (h : Effects clock (StepEffect.Avoids n) p) :
    Spares clock n (fun _ => True) p := by
  induction p with
  | done a => exact trivial
  | step change next ih =>
    obtain ⟨⟨e, he, his⟩, hnext⟩ := h
    intro s hs
    have hentry : (change s).entry n = s.entry n := by
      rcases his.entry (n := n) hs.ordered with hsame | ⟨w, rfl, -⟩
      · exact hsame
      · exact absurd rfl he
    have hmark : e ≠ .mark n := by
      rintro rfl
      exact he rfl
    exact .inr ⟨⟨his.ordered hs.ordered, hentry ▸ hs.held, his.unmarked hmark hs.unmarked⟩,
      ih s (hnext s)⟩

variable {srv : Service}

/-- A write that fails leaves the definition. -/
theorem spares_write {γ : Type} {f : SharedStore → Except StoreError γ × SharedStore} {w : StoreWrite}
    (hw : w ≠ .delete) (hf : ∀ s, ((f s).1.isOk, (f s).2) = w.perform clock n s) :
    Spares clock n (fun result => result.isOk = false) (onStore (.atomic f)) := by
  intro s hs
  have his : (StepEffect.write n w).Is clock fun s => { s with shared := (f s.shared).2 } :=
    fun s => ⟨congrArg Prod.snd (hf s.shared), rfl⟩
  have hdone := congrArg Prod.fst (hf s.shared)
  by_cases hok : (w.perform clock n s.shared).1 = true
  · exact .inl ⟨w, hw, his, hok⟩
  · rw [Bool.not_eq_true] at hok
    have hentry : ServiceState.entry n { s with shared := (f s.shared).2 } = s.entry n := by
      rw [ServiceState.entry, (his s).1]
      exact w.get?_perform hs.ordered.named (.inr hok)
    refine .inr ⟨⟨his.ordered hs.ordered, ?_, ?_⟩, hdone.trans hok⟩
    · exact hentry ▸ hs.held
    · exact his.unmarked (by simp) hs.unmarked

theorem spares_put (source : Text) :
    Spares clock n (fun outcome => outcome.1.isOk = false)
      (onStore (SharedStore.put clock n source)) := by
  have hupdate : Spares clock n (fun result => result.isOk = false)
      (onStore (SharedStore.update clock n source [])) :=
    @spares_write clock n _ _ (.update source []) (by simp) fun _ => rfl
  have hcreate : Spares clock n (fun result => result.isOk = false)
      (onStore (SharedStore.create clock n source [] none)) :=
    @spares_write clock n _ _ (.create source [] none) (by simp) fun _ => rfl
  rw [onStore_put]
  refine hupdate.bind fun result hfailed => ?_
  split
  · cases hfailed
  · exact hcreate.bind fun result hfailed => hfailed
  · rfl

theorem spares_loadSource (file name source : Text) :
    Spares srv.clock n (fun _ => True) (srv.loadSource file name source) := by
  by_cases hname : name = n
  · -- The source is put before the name is marked, so the mark comes with a write.
    subst hname
    unfold loadSource
    split
    next =>
      exact spares_of_effects ((effects_logged trivial _).bind fun _ => effects_pure _)
    next definition _ =>
      refine (spares_put source).bind fun outcome hfailed => ?_
      obtain ⟨result, created⟩ := outcome
      cases result with
      | error e => exact spares_of_effects ((effects_logged trivial _).bind fun _ => effects_pure _)
      | ok d => cases hfailed
  · exact spares_of_effects ((effects_loadSource file name source).mono fun _ he => he.avoids hname)

theorem spares_loadEntry (l : Loading) (file : Text) (entry : DirectoryEntry) :
    Spares srv.clock n (fun _ => True) (srv.loadEntry l file entry) := by
  rcases loadEntry_cases srv l file entry with hquiet | ⟨source, counted, heq⟩
  · exact spares_of_effects (hquiet _ trivial)
  · rw [heq]
    exact (spares_loadSource file _ source).bind fun _ _ => trivial

theorem spares_loadEntries (entries : List (Text × DirectoryEntry)) (l : Loading) :
    Spares srv.clock n (fun _ => True) (srv.loadEntries l entries) := by
  induction entries generalizing l with
  | nil => exact trivial
  | cons entry entries ih => exact (spares_loadEntry l _ _).bind fun l _ => ih l

theorem spares_removeAll {stale : List Text} (h : n ∉ stale) :
    Spares clock n (fun _ => True) (Program.forEach removeStale stale) := by
  induction stale with
  | nil => exact trivial
  | cons name stale ih =>
    rw [List.mem_cons, not_or] at h
    have hfirst := (@effects_removeStale clock name).mono fun _ he => he.avoids (Ne.symm h.1)
    exact (spares_of_effects hfirst).bind fun _ _ => (ih h.2).bind fun _ _ => trivial

/-- A load that begins when a name is not marked does not find it stale. -/
theorem spares_loadDirectory (dir : Directory) :
    Spares srv.clock n (fun _ => True) (srv.loadDirectory dir) := by
  -- The names to delete are read in one step, when this name is still without a mark.
  have hstale (l : Loading) : Spares srv.clock n (fun stale => n ∉ stale)
      (.read fun s => (s.fromDirectory.filter fun p => !l.seen.contains p.1).map (·.1)) := by
    intro s hs
    refine .inr ⟨hs, ?_⟩
    show n ∉ (s.fromDirectory.filter fun p => !l.seen.contains p.1).map (·.1)
    have hunmarked := Table.get?_eq_none.mp (ServiceState.isMarked_eq_false.mp hs.unmarked)
    intro hmem
    obtain ⟨p, hp, rfl⟩ := List.mem_map.mp hmem
    exact hunmarked p (List.mem_of_mem_filter hp) rfl
  refine (spares_loadEntries dir {}).bind fun l _ => (hstale l).bind fun stale hn => ?_
  refine (spares_removeAll hn).bind fun _ _ => spares_of_effects ?_
  exact (effects_countDefinitions trivial).bind fun _ => (effects_logged trivial _).bind
    fun _ => effects_pure _

end Service

/-- The effects that the steps of a task may have. -/
def DefinitionTask.May : DefinitionTask → StepEffect → Prop
  | .post _ | .patch _ _ => StepEffect.Adds
  | .delete _ => StepEffect.Unmarking
  | .load _ => fun _ => True

theorem DefinitionTask.May.ne_mark {task : DefinitionTask} (hload : task.isLoad = false)
    {e : StepEffect} (h : task.May e) (n : Text) : e ≠ .mark n := by
  rintro rfl
  cases task with
  | load dir => cases hload
  | _ => exact h

namespace ServiceRun

variable {srv : Service} {r : ServiceRun} {m : ServiceMove} {n : Text} {place : Nat}
  {task : DefinitionTask} {change : ServiceState → ServiceState}
  {next : ServiceState → Service.Request Unit}

theorem effects_program (task : DefinitionTask) :
    Service.Effects srv.clock task.May (task.program srv) := by
  cases task with
  | post req => exact (Service.effects_answerCreate req).bind fun _ => Service.effects_pure _
  | patch name req => exact (Service.effects_answerUpdate name req).bind fun _ => Service.effects_pure _
  | delete name => exact (Service.effects_answerDelete name).bind fun _ => Service.effects_pure _
  | load dir => exact (Service.effects_loadDirectory dir).bind fun _ => Service.effects_pure _

/-- A move starts a task, is a step of one, or does nothing. -/
theorem move_cases (srv : Service) (r : ServiceRun) (m : ServiceMove) :
    (∃ task, m = .start task) ∨ (r.move srv m = r ∧ ∃ place, m = .step place) ∨
      ∃ place task change next, m = .step place ∧
        r.running[place]? = some ⟨task, .step change next⟩ ∧
        r.move srv m = ⟨change r.state, r.running.set place ⟨task, next r.state⟩⟩ := by
  cases m with
  | start task => exact .inl ⟨task, rfl⟩
  | step place =>
    right
    cases hplace : r.running[place]? with
    | none => exact .inl ⟨by simp [move, hplace], place, rfl⟩
    | some t =>
      obtain ⟨task, program⟩ := t
      cases program with
      | done a => exact .inl ⟨by simp [move, hplace], place, rfl⟩
      | step change next =>
        exact .inr ⟨place, task, change, next, rfl, hplace, by simp [move, hplace]⟩

/-- What holds of a run after all moves: the state is in order, and tasks do what they may. -/
structure IsSteady (srv : Service) (r : ServiceRun) : Prop where
  ordered : r.state.IsOrdered
  effects : ∀ t ∈ r.running, Service.Effects srv.clock t.task.May t.program

theorem IsSteady.start (h : r.IsSteady srv) (task : DefinitionTask) :
    (r.move srv (.start task)).IsSteady srv := by
  refine ⟨h.ordered, fun t ht => ?_⟩
  rcases List.mem_append.mp ht with ht | ht
  · exact h.effects t ht
  · cases List.mem_singleton.mp ht
    exact effects_program task

theorem IsSteady.step (h : r.IsSteady srv)
    (hplace : r.running[place]? = some ⟨task, .step change next⟩) :
    IsSteady srv ⟨change r.state, r.running.set place ⟨task, next r.state⟩⟩ := by
  obtain ⟨⟨e, -, his⟩, hnext⟩ := h.effects _ (List.mem_of_getElem? hplace)
  refine ⟨his.ordered h.ordered, fun t ht => ?_⟩
  rcases List.mem_or_eq_of_mem_set ht with ht | rfl
  · exact h.effects t ht
  · exact hnext r.state

theorem IsSteady.move (h : r.IsSteady srv) (m : ServiceMove) : (r.move srv m).IsSteady srv := by
  rcases move_cases srv r m with ⟨task, rfl⟩ | ⟨hsame, -⟩ | ⟨place, task, change, next, -, hplace, hmove⟩
  · exact h.start task
  · rwa [hsame]
  · exact hmove ▸ h.step hplace

theorem IsSteady.moves (h : r.IsSteady srv) (ms : List ServiceMove) : (r.moves srv ms).IsSteady srv := by
  induction ms generalizing r with
  | nil => exact h
  | cons m ms ih => exact ih (h.move m)

/-- A name whose definition no load will take away before it is written. -/
structure Guards (srv : Service) (n : Text) (r : ServiceRun) : Prop where
  steady : r.IsSteady srv
  clear : r.state.IsClear n
  loads : ∀ t ∈ r.running, t.task.isLoad = true →
    Service.Spares srv.clock n (fun _ => True) t.program

theorem Guards.start (h : r.Guards srv n) (task : DefinitionTask) :
    (r.move srv (.start task)).Guards srv n := by
  refine ⟨h.steady.start task, h.clear, fun t ht hload => ?_⟩
  rcases List.mem_append.mp ht with ht | ht
  · exact h.loads t ht hload
  · cases List.mem_singleton.mp ht
    cases task with
    | load dir => exact (Service.spares_loadDirectory dir).bind fun _ _ => trivial
    | _ => cases hload

/-- A step of a load writes the definition without taking it away, or leaves it. -/
theorem Guards.load_step (h : r.Guards srv n)
    (hplace : r.running[place]? = some ⟨task, .step change next⟩) (hload : task.isLoad = true) :
    Service.Puts srv.clock n r.state change ∨
      (change r.state).IsClear n ∧ Service.Spares srv.clock n (fun _ => True) (next r.state) :=
  h.loads _ (List.mem_of_getElem? hplace) hload r.state h.clear

/-- A step of a request writes the definition or leaves it. -/
theorem Guards.request_step (h : r.Guards srv n)
    (hplace : r.running[place]? = some ⟨task, .step change next⟩) (hload : task.isLoad = false) :
    (∃ w, (StepEffect.write n w).Is srv.clock change ∧
        (w.perform srv.clock n r.state.shared).1 = true) ∨
      (change r.state).IsClear n := by
  obtain ⟨⟨e, hmay, his⟩, -⟩ := h.steady.effects _ (List.mem_of_getElem? hplace)
  rcases his.entry (n := n) h.clear.ordered with hsame | ⟨w, rfl, hdone⟩
  · right
    exact ⟨his.ordered h.clear.ordered, hsame ▸ h.clear.held,
      his.unmarked (hmay.ne_mark hload n) h.clear.unmarked⟩
  · exact .inl ⟨w, his, hdone⟩

theorem Guards.step (h : r.Guards srv n)
    (hplace : r.running[place]? = some ⟨task, .step change next⟩)
    (unwritten : ¬ r.Writes srv n (.step place)) :
    Guards srv n ⟨change r.state, r.running.set place ⟨task, next r.state⟩⟩ := by
  have hwrites {w : StoreWrite} (his : (StepEffect.write n w).Is srv.clock change)
      (hdone : (w.perform srv.clock n r.state.shared).1 = true) : False :=
    unwritten ⟨place, task, change, next, w, rfl, hplace, his, hdone⟩
  have hkept (hclear : (change r.state).IsClear n)
      (hspares : task.isLoad = true → Service.Spares srv.clock n (fun _ => True) (next r.state)) :
      Guards srv n ⟨change r.state, r.running.set place ⟨task, next r.state⟩⟩ := by
    refine ⟨h.steady.step hplace, hclear, fun t ht hload => ?_⟩
    rcases List.mem_or_eq_of_mem_set ht with ht | rfl
    · exact h.loads t ht hload
    · exact hspares hload
  cases hload : task.isLoad with
  | true =>
    rcases h.load_step hplace hload with ⟨w, -, his, hdone⟩ | ⟨hclear, hspares⟩
    · exact (hwrites his hdone).elim
    · exact hkept hclear fun _ => hspares
  | false =>
    rcases h.request_step hplace hload with ⟨w, his, hdone⟩ | hclear
    · exact (hwrites his hdone).elim
    · exact hkept hclear fun hload' => absurd (hload.symm.trans hload') Bool.false_ne_true

theorem Guards.moves (h : r.Guards srv n) {ms : List ServiceMove} (unwritten : r.Unwritten srv n ms) :
    (r.moves srv ms).Guards srv n := by
  induction ms generalizing r with
  | nil => exact h
  | cons m ms ih =>
    refine ih ?_ unwritten.2
    rcases move_cases srv r m with ⟨task, rfl⟩ | ⟨hsame, -⟩ |
      ⟨place, task, change, next, rfl, hplace, hmove⟩
    · exact h.start task
    · rwa [hsame]
    · exact hmove ▸ h.step hplace unwritten.1

theorem Guards.not_removes (h : r.Guards srv n) (m : ServiceMove) : ¬ r.Removes srv n m := by
  rintro ⟨hactor, hheld, hgone⟩
  rcases move_cases srv r m with ⟨task, rfl⟩ | ⟨hsame, -⟩ |
    ⟨place, task, change, next, rfl, hplace, hmove⟩
  · exact hheld hgone
  · rw [hsame] at hgone
    exact hheld hgone
  · have hload : task.isLoad = true := by simpa [actor?, hplace] using hactor
    rw [hmove] at hgone
    rcases h.load_step hplace hload with hputs | ⟨hclear, -⟩
    · exact hputs.held h.clear hgone
    · exact hclear.held hgone

/-- No load is under way. -/
def IsIdle (r : ServiceRun) : Prop := ∀ t ∈ r.running, t.task.isLoad = true → t.isDone = true

instance : DecidablePred IsIdle := fun r =>
  inferInstanceAs (Decidable (∀ t ∈ r.running, t.task.isLoad = true → t.isDone = true))

theorem IsIdle.guards (hidle : r.IsIdle) (h : r.IsSteady srv) (hheld : r.state.entry n ≠ none)
    (hunmarked : r.state.isMarked n = false) : r.Guards srv n := by
  refine ⟨h, ⟨h.ordered, hheld, hunmarked⟩, fun t ht hload => ?_⟩
  have hdone := hidle t ht hload
  obtain ⟨task, program⟩ := t
  cases program with
  | done a => exact trivial
  | step change next => cases hdone

end ServiceRun

/-- All names but the given one have definitions if they are marked. -/
structure ServiceState.IsSettledBut (name : Text) (s : ServiceState) : Prop where
  ordered : s.IsOrdered
  held : ∀ n, n ≠ name → s.isMarked n = true → s.entry n ≠ none

/-- All names that are marked have definitions. -/
structure ServiceState.IsSettled (s : ServiceState) : Prop where
  ordered : s.IsOrdered
  held : ∀ n, s.isMarked n = true → s.entry n ≠ none

namespace Service

variable {α β : Type} {clock : Clock} {srv : Service}

/-- A request that is taken alone leaves no mark without a definition. -/
def Settles (p : Request α) : Prop := ∀ s, s.IsSettled → (p.run s).2.IsSettled

theorem Settles.bind {p : Request α} {f : α → Request β} (hp : Settles p) (hf : ∀ a, Settles (f a)) :
    Settles (p >>= f) := by
  intro s hs
  rw [Program.run_bind]
  exact hf _ _ (hp s hs)

theorem settled_of_adds {e : StepEffect} {change : ServiceState → ServiceState} {s : ServiceState}
    (his : e.Is clock change) (he : e.Adds) (hs : s.IsSettled) : (change s).IsSettled := by
  refine ⟨his.ordered hs.ordered, fun n hn => ?_⟩
  obtain ⟨hmarks, hkept⟩ := his.adds (n := n) he hs.ordered
  rw [ServiceState.isMarked, hmarks] at hn
  exact hkept (hs.held n hn)

theorem Effects.settled {p : Request α} (h : Effects clock StepEffect.Adds p) {s : ServiceState}
    (hs : s.IsSettled) :
    (p.run s).2.IsSettled ∧ ∀ n, s.entry n ≠ none → (p.run s).2.entry n ≠ none := by
  induction p generalizing s with
  | done a => exact ⟨hs, fun _ hn => hn⟩
  | step change next ih =>
    obtain ⟨⟨e, he, his⟩, hnext⟩ := h
    obtain ⟨hsettled, hheld⟩ := ih s (hnext s) (settled_of_adds his he hs)
    exact ⟨hsettled, fun n hn => hheld n ((his.adds he hs.ordered).2 hn)⟩

theorem settles_of_adds {p : Request α} (h : Effects clock StepEffect.Adds p) : Settles p :=
  fun _ hs => (h.settled hs).1

/-- Forgetting a name settles it. -/
theorem settled_forget {name : Text} {s : ServiceState} (hs : s.IsSettledBut name) :
    ((forget name).run s).2.IsSettled := by
  refine ⟨⟨hs.ordered.named, hs.ordered.sorted.erase name⟩, fun n hn => ?_⟩
  have hmarks : (s.fromDirectory.erase name).contains n = true := hn
  by_cases hname : n = name
  · subst hname
    rw [Table.contains, hs.ordered.sorted.get?_erase_self] at hmarks
    cases hmarks
  · rw [Table.contains, Table.get?_erase_of_ne hname] at hmarks
    exact hs.held n hname hmarks

/-- Deleting a definition leaves at most its own mark without one. -/
theorem settled_delete (clock : Clock) (name : Text) {s : ServiceState} (hs : s.IsSettled) :
    ((onStore (SharedStore.delete name)).run s).2.IsSettledBut name ∧
      (((onStore (SharedStore.delete name)).run s).1.isOk = false →
        ((onStore (SharedStore.delete name)).run s).2.IsSettled) := by
  let t := ((onStore (SharedStore.delete name)).run s).2
  have hentry {n : Text} (h : n ≠ name ∨
      ((onStore (SharedStore.delete name)).run s).1.isOk = false) : t.entry n = s.entry n :=
    @StoreWrite.get?_perform clock name s.shared hs.ordered.named .delete n h
  have hordered : t.IsOrdered :=
    ⟨@StoreWrite.named_perform clock name s.shared hs.ordered.named .delete, hs.ordered.sorted⟩
  refine ⟨⟨hordered, fun n hne hn => ?_⟩, fun hfailed => ⟨hordered, fun n hn => ?_⟩⟩
  · exact hentry (.inl hne) ▸ hs.held n hn
  · exact hentry (.inr hfailed) ▸ hs.held n hn

/-- A definition is deleted and then forgotten, whatever comes after that. -/
theorem settled_deleted (clock : Clock) {name : Text} {rest : Request α} (hrest : Settles rest)
    {s : ServiceState} (hs : s.IsSettled) :
    ((forget name >>= fun _ => rest).run ((onStore (SharedStore.delete name)).run s).2).2.IsSettled := by
  rw [Program.run_bind]
  exact hrest _ (settled_forget (settled_delete clock name hs).1)

theorem settles_deleteDefinition (clock : Clock) (name : Text) : Settles (deleteDefinition name) := by
  have hrest : Effects clock StepEffect.Adds (do
      countDefinitions
      logged (.of .info "deleted definition" [("name", .text name)])
      pure (.ok ()) : Request (Except StoreError Unit)) :=
    (effects_countDefinitions trivial).bind fun _ => (effects_logged trivial _).bind
      fun _ => effects_pure _
  intro s hs
  unfold deleteDefinition
  rw [Program.run_bind]
  cases hresult : ((onStore (SharedStore.delete name)).run s).1 with
  | error e => exact (settled_delete clock name hs).2 (by rw [hresult]; rfl)
  | ok _ => exact settled_deleted clock (settles_of_adds hrest) hs

theorem settles_removeStale (clock : Clock) (name : Text) : Settles (removeStale name) := by
  have hlogged (l : LogLine) : Settles (logged l) :=
    settles_of_adds (@effects_logged clock StepEffect.Adds trivial l)
  intro s hs
  unfold removeStale
  rw [Program.run_bind]
  cases hresult : ((onStore (SharedStore.delete name)).run s).1 with
  | ok _ => exact settled_deleted clock (hlogged _) hs
  | error e =>
    have hunchanged := (settled_delete clock name hs).2 (by rw [hresult]; rfl)
    cases e with
    | notFound n => exact settled_deleted clock (hlogged _) hs
    | _ => exact hlogged _ _ hunchanged

/-- A definition that was put is there. -/
theorem held_of_put {name source : Text} {s : ServiceState} (hs : s.IsOrdered)
    (hok : ((onStore (SharedStore.put clock name source)).run s).1.1.isOk = true) :
    ((onStore (SharedStore.put clock name source)).run s).2.entry name ≠ none := by
  -- `t` is the state between the two steps.
  let t := ((onStore (SharedStore.update clock name source [])).run s).2
  have ht : t.IsOrdered :=
    ⟨@StoreWrite.named_perform clock name s.shared hs.named (.update source []), hs.sorted⟩
  have hupdated := @StoreWrite.held_perform clock name s.shared hs.named (.update source [])
    (by simp)
  have hcreated := @StoreWrite.held_perform clock name t.shared ht.named (.create source [] none)
    (by simp)
  rw [onStore_put, Program.run_bind] at hok ⊢
  cases hresult : ((onStore (SharedStore.update clock name source [])).run s).1 with
  | ok d => exact hupdated (congrArg Except.isOk hresult)
  | error e =>
    rw [hresult] at hok
    cases e with
    | notFound n => exact hcreated hok
    | _ => cases hok

/-- Marking a name that has a definition. -/
theorem settled_mark {name : Text} {s : ServiceState} (hs : s.IsSettled) (hheld : s.entry name ≠ none) :
    ServiceState.IsSettled { s with fromDirectory := s.fromDirectory.insert name () } := by
  refine ⟨⟨hs.ordered.named, hs.ordered.sorted.insert name ()⟩, fun n hn => ?_⟩
  have hmarks : (s.fromDirectory.insert name ()).contains n = true := hn
  by_cases hname : n = name
  · subst hname
    exact hheld
  · rw [Table.contains, Table.get?_insert, if_neg hname] at hmarks
    exact hs.held n hmarks

theorem settles_loadSource (file name source : Text) : Settles (srv.loadSource file name source) := by
  have hlogged {γ : Type} (l : LogLine) (a : γ) : Settles (logged l >>= fun _ => pure a) :=
    settles_of_adds (@Effects.bind _ _ srv.clock StepEffect.Adds _ _ (effects_logged trivial l)
      fun _ => effects_pure a)
  unfold loadSource
  split
  next => exact hlogged _ _
  next definition _ =>
    intro s hs
    have hput : Effects srv.clock StepEffect.Adds (onStore (SharedStore.put srv.clock name source)) :=
      effects_put trivial trivial
    obtain ⟨hsettled, -⟩ := hput.settled hs
    have hheld := @held_of_put srv.clock name source s hs.ordered
    rw [Program.run_bind]
    generalize (onStore (SharedStore.put srv.clock name source)).run s = outcome at hsettled hheld ⊢
    obtain ⟨⟨result, created⟩, t⟩ := outcome
    cases result with
    | error e => exact hlogged _ _ t hsettled
    | ok d =>
      have hremember := @effects_remember srv.clock StepEffect.Adds trivial d definition
      obtain ⟨hremembered, hkept⟩ := hremember.settled hsettled
      have hmarked := settled_mark hremembered (hkept name (hheld rfl))
      exact hlogged _ _ _ hmarked

theorem settles_loadEntry (l : Loading) (file : Text) (entry : DirectoryEntry) :
    Settles (srv.loadEntry l file entry) := by
  rcases loadEntry_cases srv l file entry with hquiet | ⟨source, counted, heq⟩
  · exact settles_of_adds (hquiet _ trivial)
  · rw [heq]
    exact (settles_loadSource file _ source).bind fun _ _ hs => hs

theorem settles_loadDirectory (dir : Directory) : Settles (srv.loadDirectory dir) := by
  have hentries : ∀ (entries : List (Text × DirectoryEntry)) (l : Loading),
      Settles (srv.loadEntries l entries) := by
    intro entries
    induction entries with
    | nil => exact fun _ _ hs => hs
    | cons entry entries ih => exact fun l => (settles_loadEntry l _ _).bind fun l => ih l
  have hremove : ∀ stale, Settles (Program.forEach removeStale stale) := by
    intro stale
    induction stale with
    | nil => exact fun _ hs => hs
    | cons name stale ih =>
      exact (settles_removeStale srv.clock name).bind fun _ => ih.bind fun _ _ hs => hs
  have hrest {γ : Type} (l : LogLine) (a : γ) :
      Settles (countDefinitions >>= fun _ => logged l >>= fun _ => pure a) :=
    settles_of_adds (@Effects.bind _ _ srv.clock StepEffect.Adds _ _ (effects_countDefinitions trivial)
      fun _ => (effects_logged trivial l).bind fun _ => effects_pure a)
  refine (hentries dir {}).bind fun l => ?_
  refine Settles.bind (fun _ hs => hs) fun stale => (hremove stale).bind fun _ => hrest _ _

end Service

namespace ServiceRun

variable {srv : Service} {r : ServiceRun} {m : ServiceMove} {n : Text} {place : Nat}
  {task : DefinitionTask} {change : ServiceState → ServiceState}
  {next : ServiceState → Service.Request Unit}

theorem settles_program (task : DefinitionTask) : Service.Settles (task.program srv) := by
  cases task with
  | post req =>
    exact (Service.settles_of_adds (Service.effects_answerCreate req)).bind fun _ _ hs => hs
  | patch name req =>
    exact (Service.settles_of_adds (Service.effects_answerUpdate name req)).bind fun _ _ hs => hs
  | delete name =>
    refine Service.Settles.bind ?_ fun _ _ hs => hs
    refine (Service.settles_deleteDefinition srv.clock name).bind fun outcome => ?_
    cases outcome <;> exact fun _ hs => hs
  | load dir => exact (Service.settles_loadDirectory dir).bind fun _ _ hs => hs

/-- All tasks but the last are done, and when that is done no mark will be without a definition. While
definitions are created, none is. -/
def IsOrderly (r : ServiceRun) : Prop :=
  (r.running = [] ∧ r.state.IsSettled) ∨
    ∃ before t, r.running = before ++ [t] ∧ (∀ u ∈ before, u.isDone = true) ∧
      (t.program.run r.state).2.IsSettled ∧ (t.task.isPost = true → r.state.IsSettled)

theorem IsOrderly.start (h : r.IsOrderly) (done : ∀ t ∈ r.running, t.isDone = true)
    (task : DefinitionTask) : (r.move srv (.start task)).IsOrderly := by
  have hsettled : r.state.IsSettled := by
    rcases h with ⟨-, hsettled⟩ | ⟨before, t, hrunning, -, hlast, -⟩
    · exact hsettled
    · have hdone := done t (by simp [hrunning])
      obtain ⟨task, program⟩ := t
      cases program with
      | done a => exact hlast
      | step change next => cases hdone
  exact .inr ⟨r.running, _, rfl, done, settles_program task _ hsettled, fun _ => hsettled⟩

/-- Only the last task can take a step. -/
theorem last_of_step {before : List RunningTask} {t : RunningTask} (hrunning : r.running = before ++ [t])
    (done : ∀ u ∈ before, u.isDone = true)
    (hplace : r.running[place]? = some ⟨task, .step change next⟩) :
    place = before.length ∧ t = ⟨task, .step change next⟩ := by
  rw [hrunning] at hplace
  by_cases hlt : place < before.length
  · rw [List.getElem?_append_left hlt] at hplace
    cases done _ (List.mem_of_getElem? hplace)
  · rw [List.getElem?_append_right (by omega)] at hplace
    have hzero : place - before.length = 0 := by
      by_contra hne
      rw [List.getElem?_eq_none (by simp; omega)] at hplace
      cases hplace
    rw [hzero] at hplace
    exact ⟨by omega, by simpa using hplace⟩

theorem IsOrderly.step (h : r.IsOrderly) (hsteady : r.IsSteady srv)
    (hplace : r.running[place]? = some ⟨task, .step change next⟩) :
    IsOrderly ⟨change r.state, r.running.set place ⟨task, next r.state⟩⟩ := by
  rcases h with ⟨hnone, -⟩ | ⟨before, t, hrunning, hdone, hlast, hpost⟩
  · simp [hnone] at hplace
  · obtain ⟨rfl, rfl⟩ := last_of_step hrunning hdone hplace
    refine .inr ⟨before, ⟨task, next r.state⟩, by simp [hrunning], hdone, hlast, fun hp => ?_⟩
    obtain ⟨⟨e, hmay, his⟩, -⟩ := hsteady.effects _ (List.mem_of_getElem? hplace)
    cases task with
    | post req => exact Service.settled_of_adds his hmay (hpost rfl)
    | _ => cases hp

theorem IsOrderly.moves (h : r.IsOrderly) (hsteady : r.IsSteady srv) {ms : List ServiceMove}
    (apart : r.OneByOne srv ms) : (r.moves srv ms).IsOrderly := by
  induction ms generalizing r with
  | nil => exact h
  | cons m ms ih =>
    refine ih ?_ (hsteady.move m) ?_
    · rcases move_cases srv r m with ⟨task, rfl⟩ | ⟨hsame, -⟩ |
        ⟨place, task, change, next, -, hplace, hmove⟩
      · exact h.start apart.1 task
      · rwa [hsame]
      · exact hmove ▸ h.step hsteady hplace
    · cases m with
      | start task => exact apart.2
      | step place => exact apart

/-- Where tasks come one after the other, a definition is created under a name that is not marked and
while no load is under way. -/
theorem IsOrderly.created (h : r.IsOrderly) (hsteady : r.IsSteady srv) (created : r.Creates srv n m) :
    (r.move srv m).state.isMarked n = false ∧ (r.move srv m).IsIdle := by
  obtain ⟨hactor, hfree, hheld⟩ := created
  rcases move_cases srv r m with ⟨task, rfl⟩ | ⟨hsame, -⟩ |
    ⟨place, task, change, next, rfl, hplace, hmove⟩
  · exact absurd hfree hheld
  · rw [hsame] at hheld
    exact absurd hfree hheld
  · have hpost : task.isPost = true := by simpa [actor?, hplace] using hactor
    rcases h with ⟨hnone, -⟩ | ⟨before, t, hrunning, hdone, -, hsettled⟩
    · simp [hnone] at hplace
    · obtain ⟨rfl, rfl⟩ := last_of_step hrunning hdone hplace
      have hunmarked : r.state.isMarked n = false := by
        cases hmarked : r.state.isMarked n with
        | false => rfl
        | true => exact absurd hfree ((hsettled hpost).held n hmarked)
      obtain ⟨⟨e, hmay, his⟩, -⟩ := hsteady.effects _ (List.mem_of_getElem? hplace)
      have hload : task.isLoad = false := by
        cases task with
        | post req => rfl
        | _ => cases hpost
      have hset : r.running.set before.length ⟨task, next r.state⟩ =
          before ++ [⟨task, next r.state⟩] := by simp [hrunning]
      rw [hmove, hset]
      refine ⟨his.unmarked (hmay.ne_mark hload n) hunmarked, fun u hu huload => ?_⟩
      rcases List.mem_append.mp hu with hu | hu
      · exact hdone u hu
      · cases List.mem_singleton.mp hu
        rw [hload] at huload
        cases huload

theorem not_writes_start (r : ServiceRun) (task : DefinitionTask) :
    ¬ r.Writes srv n (.start task) := by
  rintro ⟨place, _, _, _, _, hm, -⟩
  cases hm

/-- A move that leaves a store from which the name could be deleted does not write it. -/
theorem not_writes_of_same (hsame : (r.move srv m).state.shared = r.state.shared)
    (hdelete : (StoreWrite.delete.perform srv.clock n r.state.shared).2 ≠ r.state.shared) :
    ¬ r.Writes srv n m := by
  rintro ⟨place, task, change, next, w, rfl, hplace, his, -⟩
  have hmove : (r.move srv (.step place)).state = change r.state := by simp [move, hplace]
  rw [hmove, (his r.state).1] at hsame
  cases w with
  | delete => exact hdelete hsame
  | create source description labels | update source description =>
    have hticks : r.state.shared.ticks + 1 = r.state.shared.ticks := congrArg SharedStore.ticks hsame
    omega

/-- A service without tasks. -/
def new (store : SharedStore) (withMetrics : Bool) : ServiceRun :=
  { state := Service.start store withMetrics }

/-- A request creates a definition and, with no write of it in between, a load deletes it. -/
def Loses (srv : Service) (n : Text) (r : ServiceRun) (m : ServiceMove) (between : List ServiceMove)
    (last : ServiceMove) : Prop :=
  r.Creates srv n m ∧ (r.move srv m).Unwritten srv n between ∧
    ((r.move srv m).moves srv between).Removes srv n last

/-- A definition that a request has created is not lost if the tasks before came one after the other,
or if its name was not marked and no load was under way when it was created. -/
theorem created_definition_spared {srv : Service} {store : SharedStore} {withMetrics : Bool}
    (initial : store.store.IsInitial) {before : List ServiceMove} {m : ServiceMove} {n : Text}
    (apart : (new store withMetrics).OneByOne srv before ∨
      (((new store withMetrics).moves srv before).move srv m).state.isMarked n = false ∧
        (((new store withMetrics).moves srv before).move srv m).IsIdle)
    (between : List ServiceMove) (last : ServiceMove) :
    ¬ ((new store withMetrics).moves srv before).Loses srv n m between last := by
  rintro ⟨hcreated, hunwritten, hremoved⟩
  have hordered : (Service.start store withMetrics).IsOrdered := ⟨initial.named.2, .nil⟩
  have hnew : (new store withMetrics).IsSteady srv := ⟨hordered, by simp [new]⟩
  have hsteady := hnew.moves before
  -- Tasks that come one by one are a case of the other condition.
  have hapart : (((new store withMetrics).moves srv before).move srv m).state.isMarked n = false ∧
      (((new store withMetrics).moves srv before).move srv m).IsIdle := by
    rcases apart with hone | happart
    · have hsettled : (Service.start store withMetrics).IsSettled := ⟨hordered, by intro n hn; cases hn⟩
      have horderly := IsOrderly.moves (.inl ⟨rfl, hsettled⟩) hnew hone
      exact horderly.created hsteady hcreated
    · exact happart
  have hguards := hapart.2.guards (hsteady.move m) hcreated.2.2 hapart.1
  exact (hguards.moves hunwritten).not_removes last hremoved

/-- A request for a definition. -/
def postOf (name : String) : Http.Request where
  method := text "POST"
  target := text "/v1/definitions?definitionId=" ++ text name
  contentType := text "application/json"
  body := text "\x7b\"source\": \"expression: 1\"\x7d"

/-- A directory with one file. -/
def directoryOf (name : String) : Directory :=
  [(text name ++ text ".yaml", .file (text "expression: 1"))]

/-- A directory is loaded, and another definition is asked for. -/
def manualMoves : List ServiceMove :=
  .start (.load (directoryOf "a")) :: List.replicate 9 (.step 0) ++ [.start (.post (postOf "manual"))]

theorem manual_spared :
    ((new {} false).moves numberedService manualMoves).Creates numberedService (text "manual")
        (.step 1) ∧
      ∀ between last, ¬ ((new {} false).moves numberedService manualMoves).Loses numberedService
        (text "manual") (.step 1) between last :=
  ⟨by decide +kernel, created_definition_spared (.inl rfl) (.inl (by decide +kernel))⟩

/-- A load finds the name stale; then it is deleted and created again. -/
def staleMoves : List ServiceMove :=
  .start (.load (directoryOf "a")) :: List.replicate 9 (.step 0) ++
    [.start (.load []), .step 1, .start (.delete (text "a")), .step 2, .step 2,
      .start (.post (postOf "a"))]

/-- A name is marked after its definition was deleted and forgotten; when all is done, it is created
again. -/
def lateMoves : List ServiceMove :=
  .start (.load (directoryOf "a")) :: List.replicate 3 (.step 0) ++
    .start (.delete (text "a")) :: List.replicate 5 (.step 1) ++ List.replicate 6 (.step 0) ++
    [.start (.post (postOf "a"))]

/-- A definition that a request has created may be lost, if a load has found its name stale, or if its
name was marked late. -/
theorem created_definition_lost :
    ((new {} false).moves numberedService staleMoves).Loses numberedService (text "a")
        (.step 3) [] (.step 1) ∧
      ((new {} false).moves numberedService lateMoves).IsIdle ∧
      ((new {} false).moves numberedService lateMoves).Loses numberedService (text "a")
        (.step 2) [.start (.load []), .step 3] (.step 3) := by
  refine ⟨⟨by decide +kernel, trivial, by decide +kernel⟩, by decide +kernel, by decide +kernel,
    ⟨not_writes_start _ _, ?_, trivial⟩, by decide +kernel⟩
  exact not_writes_of_same (by decide +kernel) (by decide +kernel)

end ServiceRun

end ScopedAggregation
