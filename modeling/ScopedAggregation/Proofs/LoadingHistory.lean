import ScopedAggregation.Proofs.DirectoryLoading
import ScopedAggregation.Proofs.DirectoryRemoval
import Mathlib.Data.List.Induction

namespace ScopedAggregation

/-- The definition of a name is taken away. -/
def ServiceState.Takes (n : Text) (s t : ServiceState) : Prop :=
  s.entry n ≠ none ∧ t.entry n = none

instance (n : Text) (s t : ServiceState) : Decidable (s.Takes n t) :=
  inferInstanceAs (Decidable (_ ∧ _))

/-- The state is regular, and every name that is marked has a definition. -/
structure ServiceState.IsSound (clock : Clock) (s : ServiceState) : Prop where
  regular : s.IsRegular clock
  held : ∀ n, s.isMarked n = true → s.entry n ≠ none

theorem ServiceState.IsSound.settled {clock : Clock} {s : ServiceState} (h : s.IsSound clock) :
    s.IsSettled := ⟨h.regular.ordered, h.held⟩

namespace Store

variable {s : Store} {name : Text}

/-- Deleting fails, but not because there was nothing to delete. -/
theorem delete_refused (held : s.definitions.get? name ≠ none) (refuses : ¬ s.TakesWrites) :
    ∃ e, (delete name).run.run s = (.error e, s) ∧ ∀ n, e ≠ .notFound n := by
  obtain ⟨old, hold⟩ := Option.ne_none_iff_exists'.mp held
  rw [delete, look_bind_ok (get_eq_ok.mpr hold)]
  obtain ⟨definitions, database⟩ := s
  cases database with
  | none => exact absurd (by simp [TakesWrites]) refuses
  | some db =>
    obtain ⟨entries, isOpen, fault⟩ := db
    cases isOpen with
    | false => exact ⟨.closed, rfl, fun n h => by cases h⟩
    | true =>
      cases fault with
      | some reason => exact ⟨.unwritten reason, rfl, fun n h => by cases h⟩
      | none => exact absurd (by simp [TakesWrites]) refuses

end Store

/-- The effect changes no mark. -/
def StepEffect.KeepsMarks : StepEffect → Prop
  | .aside | .write _ _ => True
  | _ => False

namespace Service

variable {α β : Type} {clock : Clock} {srv : Service} {s t : ServiceState}

theorem Effects.refused {p : Request α} (h : Effects clock StepEffect.KeepsMarks p)
    (refuses : ¬ s.shared.store.TakesWrites) : s.Alike (p.run s).2 := by
  induction p generalizing s with
  | done a => exact .refl s
  | step change next ih =>
    obtain ⟨⟨e, he, his⟩, hnext⟩ := h
    have hstep : s.Alike (change s) := by
      cases e with
      | aside => exact ⟨congrArg SharedStore.store (his s).1, (his s).2⟩
      | write name w =>
        refine ⟨?_, (his s).2⟩
        rw [(his s).1]
        exact w.perform_refused refuses
      | mark _ | forget _ => exact he.elim
    exact hstep.trans (ih s (hnext s) (by rwa [hstep.1]))

theorem put_refused {s : SharedStore} (refuses : ¬ s.store.TakesWrites) (name source : Text) :
    ((SharedStore.put clock name source).run s).1.1.isOk = false := by
  have hcreate (n : Nat) : ∃ e, (Store.create (clock n) name source [] none).run.run s.store =
      (.error e, s.store) := by
    rcases Store.create_allOrNothing (clock n) name source [] none s.store with
      h | ⟨d, t, -, -, -, -, takes, -⟩
    · exact h
    · exact absurd takes refuses
  rw [SharedStore.run_put]
  rcases Store.update_allOrNothing (clock s.ticks) name source [] s.store with
    ⟨e, he⟩ | ⟨d, t, -, old, -, -, takes, -⟩
  · obtain ⟨e', he'⟩ := hcreate (s.ticks + 1)
    cases e <;> simp [SharedStore.stamped, SharedStore.call, he, he', Except.isOk, Except.toBool]
  · exact absurd takes refuses

theorem loadSource_refused (refuses : ¬ s.shared.store.TakesWrites) (file name source : Text) :
    s.Alike ((srv.loadSource file name source).run s).2 := by
  unfold loadSource
  cases Definition.parse source with
  | error r => exact ⟨rfl, rfl⟩
  | ok definition =>
    have hkeeps : s.Alike ((onStore (SharedStore.put srv.clock name source)).run s).2 :=
      (@effects_put srv.clock StepEffect.KeepsMarks name source trivial trivial).refused refuses
    have hfails := @put_refused srv.clock s.shared refuses name source
    dsimp only
    rw [Program.run_bind]
    rw [run_onStore] at hkeeps ⊢
    generalize (SharedStore.put srv.clock name source).run s.shared = outcome at hkeeps hfails ⊢
    obtain ⟨⟨result, created⟩, shared⟩ := outcome
    cases result with
    | error e => exact hkeeps
    | ok d => cases hfails

theorem loadEntries_refused (refuses : ¬ s.shared.store.TakesWrites) (l : Loading)
    (entries : Directory) : s.Alike ((srv.loadEntries l entries).run s).2 := by
  induction entries generalizing s l with
  | nil => exact .refl s
  | cons p entries ih =>
    have hentry : s.Alike ((srv.loadEntry l p.1 p.2).run s).2 := by
      rcases loadEntry_cases srv l p.1 p.2 with hquiet | ⟨source, counted, heq⟩
      · exact (hquiet StepEffect.KeepsMarks trivial).refused refuses
      · rw [heq, Program.run_bind]
        exact loadSource_refused refuses p.1 _ source
    rw [loadEntries, Program.run_bind]
    exact hentry.trans (ih (by rwa [hentry.1]) _)

theorem removeStale_refused {name : Text} (held : s.entry name ≠ none)
    (refuses : ¬ s.shared.store.TakesWrites) : s.Alike ((removeStale name).run s).2 := by
  obtain ⟨e, he, hfound⟩ := Store.delete_refused held refuses
  have hrun : (onStore (SharedStore.delete name)).run s = (.error e, s) := by
    show ((SharedStore.call (Store.delete name) s.shared).1,
      { s with shared := (SharedStore.call (Store.delete name) s.shared).2 }) = _
    simp only [SharedStore.call, he]
  unfold removeStale
  rw [Program.run_bind, hrun]
  cases e with
  | notFound n => exact absurd rfl (hfound n)
  | _ => exact ⟨rfl, rfl⟩

theorem removeAll_refused {stale : List Text} (held : ∀ n ∈ stale, s.entry n ≠ none)
    (refuses : ¬ s.shared.store.TakesWrites) :
    s.Alike ((Program.forEach removeStale stale).run s).2 := by
  induction stale generalizing s with
  | nil => exact .refl s
  | cons name stale ih =>
    obtain ⟨hname, hstale⟩ := List.forall_mem_cons.mp held
    have hfirst := removeStale_refused hname refuses
    have hrest := ih (fun n hn => by rw [hfirst.entry]; exact hstale n hn) (by rwa [hfirst.1])
    rw [Program.forEach, Program.run_bind, Program.run_bind]
    exact hfirst.trans hrest

/-- A load changes nothing where the database takes no writes. -/
theorem loadDirectory_refused (hs : s.IsSound srv.clock) (refuses : ¬ s.shared.store.TakesWrites)
    (dir : Directory) : s.Alike ((srv.loadDirectory dir).run s).2 := by
  have hentries := @loadEntries_refused srv s refuses {} dir
  obtain ⟨-, halike⟩ := run_loadDirectory srv dir s
  generalize (srv.loadEntries {} dir).run s = outcome at hentries halike
  obtain ⟨l, t⟩ := outcome
  have ordered : t.IsOrdered := by
    refine ⟨?_, ?_⟩
    · rw [hentries.1]
      exact hs.regular.ordered.named
    · rw [hentries.2]
      exact hs.regular.ordered.sorted
  have hremoved : t.Alike ((Program.forEach removeStale (staleNames l t)).run t).2 := by
    refine removeAll_refused (fun n hn => ?_) (by rwa [hentries.1])
    have hmarked := ((mem_staleNames ordered).mp hn).1
    rw [hentries.isMarked] at hmarked
    rw [hentries.entry]
    exact hs.held n hmarked
  exact (hentries.trans hremoved).trans halike

/-- A job that stores nothing from files: marks go with the definitions that it takes away. -/
def Tracks (clock : Clock) (p : Request α) : Prop :=
  ∀ s, s.IsSound clock → (p.run s).2.IsRegular clock ∧
    ∀ n, (p.run s).2.isMarked n = true ↔ s.isMarked n = true ∧ ¬ s.Takes n (p.run s).2

/-- Marks that stay, on definitions that stay. -/
theorem marked_iff_of_kept (hs : s.IsSound clock) {n : Text} (hmarked : t.isMarked n = s.isMarked n)
    (hentry : s.entry n ≠ none → t.entry n ≠ none) :
    t.isMarked n = true ↔ s.isMarked n = true ∧ ¬ s.Takes n t := by
  rw [hmarked, iff_self_and]
  exact fun hn htakes => hentry (hs.held n hn) htakes.2

theorem marked_iff_of_alike (hs : s.IsSound clock) (h : s.Alike t) (n : Text) :
    t.isMarked n = true ↔ s.isMarked n = true ∧ ¬ s.Takes n t :=
  marked_iff_of_kept hs (h.isMarked n) (by rw [h.entry]; exact id)

theorem Effects.marks {p : Request α} (h : Effects clock StepEffect.Adds p) (hs : s.IsOrdered) :
    (p.run s).2.fromDirectory = s.fromDirectory := by
  induction p generalizing s with
  | done a => rfl
  | step change next ih =>
    obtain ⟨⟨e, he, his⟩, hnext⟩ := h
    exact (ih s (hnext s) (his.ordered hs)).trans (his.adds (n := []) he hs).1

theorem tracks_of_adds {p : Request α} (h : Effects clock StepEffect.Adds p) : Tracks clock p := by
  refine fun s hs => ⟨(h.continues hs.regular).regular, fun n => marked_iff_of_kept hs ?_ ?_⟩
  · rw [ServiceState.isMarked, h.marks hs.regular.ordered, ServiceState.isMarked]
  · exact (h.settled hs.settled).2 n

theorem Tracks.bind_still {p : Request α} {f : α → Request β} (hp : Tracks clock p)
    (still : ∀ a s, ((f a).run s).2 = s) : Tracks clock (p >>= f) := by
  intro s hs
  have hrun : ((p >>= f).run s).2 = (p.run s).2 := by rw [Program.run_bind, still]
  rw [hrun]
  exact hp s hs

theorem Tracks.read_bind {f : ServiceState → α} {g : α → Request β}
    (hg : ∀ a, Tracks clock (g a)) : Tracks clock (.read f >>= g) :=
  fun s hs => hg (f s) s hs

/-- A definition that was deleted has lost its mark too. -/
theorem tracks_deleteDefinition (clock : Clock) (name : Text) :
    Tracks clock (deleteDefinition name) := by
  intro s hs
  have hrun : (onStore (SharedStore.delete name)).run s =
      ((SharedStore.call (Store.delete name) s.shared).1,
        { s with shared := (SharedStore.call (Store.delete name) s.shared).2 }) := rfl
  refine ⟨((effects_deleteDefinition name).continues hs.regular).regular, fun n => ?_⟩
  unfold deleteDefinition
  rw [Program.run_bind, hrun]
  rcases Store.delete_allOrNothing name s.shared.store with ⟨e, he⟩ | ⟨_, t, hd, -, rfl⟩
  · simp only [SharedStore.call, he]
    exact marked_iff_of_alike hs ⟨rfl, rfl⟩ n
  · simp only [SharedStore.call, hd]
    have hentry := hs.regular.sorted.get?_erase name n
    have hmarks := hs.regular.ordered.sorted.get?_erase name n
    by_cases hn : n = name
    · rw [if_pos hn] at hentry hmarks
      constructor
      · intro hmarked
        rw [ServiceState.isMarked_eq_false.mpr hmarks] at hmarked
        cases hmarked
      · rintro ⟨hmarked, hkept⟩
        exact absurd ⟨hs.held n hmarked, hentry⟩ hkept
    · rw [if_neg hn] at hentry hmarks
      refine marked_iff_of_kept hs ?_ ?_
      · exact congrArg Option.isSome hmarks
      · intro hheld hgone
        exact hheld (hentry.symm.trans hgone)

theorem tracks_answerOf (resource : Resource) (method : Http.Method) (r : Http.Request) :
    Tracks srv.clock (srv.answerOf resource method r) := by
  by_cases hdelete : ∃ name, resource = .definition name ∧ method = .delete
  · obtain ⟨name, rfl, rfl⟩ := hdelete
    refine (tracks_deleteDefinition srv.clock name).bind_still fun outcome s => ?_
    cases outcome <;> rfl
  · exact tracks_of_adds (effects_answerOf (not_exists.mp hdelete) r)

theorem tracks_handle (r : Http.Request) : Tracks srv.clock (srv.handle r) := by
  unfold handle
  split
  next => exact tracks_of_adds (effects_pure _)
  next method _ =>
    refine Tracks.read_bind fun hasMetrics => ?_
    dsimp only
    split
    next resource _ => exact (tracks_answerOf resource method r).bind_still fun _ _ => rfl
    next => exact (tracks_of_adds (effects_pure _)).bind_still fun _ _ => rfl

end Service

namespace Job

variable {srv : Service} {s : ServiceState}

/-- The job is a load that stores the definition of a name from a file. -/
def Stores (n : Text) (s : ServiceState) : Job → Prop
  | .load dir => s.shared.store.TakesWrites ∧
      ∃ file content, dir.Decides n file (.file content) ∧ (Definition.parse content).isOk = true
  | _ => False

/-- A change of the database that leaves its entries. -/
theorem tracks_onStore {clock : Clock} {f : Store → Store}
    (definitions : ∀ s, (f s).definitions = s.definitions)
    (isSome : ∀ s, (f s).database.isSome = s.database.isSome) :
    Service.Tracks clock (onStore f) := by
  intro s hs
  have hrun : ((onStore f).run s).2 =
      { s with shared := { s.shared with store := f s.shared.store } } := rfl
  rw [hrun]
  refine ⟨⟨⟨?_, hs.regular.ordered.sorted⟩, ?_, ?_⟩, fun n => Service.marked_iff_of_kept hs rfl ?_⟩
  · rw [definitions]
    exact hs.regular.ordered.named
  · rw [definitions]
    exact hs.regular.sorted
  · have times := hs.regular.times
    rwa [Store.TakesTimes, ← isSome, ← definitions] at times
  · intro hheld
    rw [ServiceState.entry, definitions]
    exact hheld

def isRequest : Job → Bool
  | .http _ => true
  | _ => false

theorem stores_load {dir : Directory} (sorted : dir.IsSorted) (takes : s.shared.store.TakesWrites)
    {n : Text} : Stores n s (.load dir) ↔ ∃ source, Directory.source? n dir = some source := by
  rw [Stores, and_iff_right takes, exists_comm]
  exact exists_congr fun _ => (Directory.source?_eq_some sorted).symm

/-- A load marks what it stores, and keeps the other marks whose definitions it leaves. -/
theorem isMarked_load (hs : s.IsSound srv.clock) {dir : Directory} (sorted : dir.IsSorted) (n : Text) :
    ((srv.loadDirectory dir).run s).2.isMarked n = true ↔
      Stores n s (.load dir) ∨
        s.isMarked n = true ∧ ¬ s.Takes n ((srv.loadDirectory dir).run s).2 := by
  by_cases takes : s.shared.store.TakesWrites
  · have h := Service.loadDirectory_reconciles hs.regular takes dir
    rw [stores_load sorted takes]
    cases hsource : Directory.source? n dir with
    | some source =>
      rw [iff_true_left (h.stored n source hsource).1]
      exact .inl ⟨source, rfl⟩
    | none =>
      have unstored : ¬ ∃ source : Text, none = some source := by simp
      rw [or_iff_right unstored]
      by_cases hfile : dir.HasFile n
      · obtain ⟨hentry, hmarked⟩ := h.failed n hfile hsource
        exact Service.marked_iff_of_kept hs hmarked (by rw [hentry]; exact id)
      · rw [h.unmarked n hfile, iff_false_left Bool.false_ne_true]
        rintro ⟨hmarked, hkept⟩
        exact hkept ⟨hs.held n hmarked, h.gone n hfile hmarked⟩
  · rw [Stores, or_iff_right fun hstores => takes hstores.1]
    exact Service.marked_iff_of_alike hs (Service.loadDirectory_refused hs takes dir) n

/-- What a job does to the marks. -/
theorem isMarked_run (hs : s.IsSound srv.clock) (job : Job)
    (ordered : ∀ dir, job = .load dir → dir.IsSorted) :
    ((job.program srv).run s).2.IsRegular srv.clock ∧
      ∀ n, ((job.program srv).run s).2.isMarked n = true ↔
        job.Stores n s ∨ s.isMarked n = true ∧ ¬ s.Takes n ((job.program srv).run s).2 := by
  have quiet {p : Service.Request Result} (h : Service.Tracks srv.clock p) :
      (p.run s).2.IsRegular srv.clock ∧ ∀ n, (p.run s).2.isMarked n = true ↔
        False ∨ s.isMarked n = true ∧ ¬ s.Takes n (p.run s).2 := by
    simpa only [false_or] using h s hs
  cases job with
  | http r => exact quiet ((Service.tracks_handle r).bind_still fun _ _ => rfl)
  | compile name =>
    have hcompile := @Service.effects_compileDefinition srv.clock StepEffect.Adds srv trivial name
    exact quiet ((Service.tracks_of_adds hcompile).bind_still fun _ _ => rfl)
  | call server method m =>
    have hcall := @Service.effects_call srv.clock StepEffect.Adds trivial server method m
    exact quiet ((Service.tracks_of_adds hcall).bind_still fun _ _ => rfl)
  | fault reason =>
    have hfault : Service.Tracks srv.clock (onStore (Store.withFault reason)) :=
      tracks_onStore (fun _ => rfl) fun s => by simp [Store.withFault]
    exact quiet (hfault.bind_still fun _ _ => rfl)
  | close =>
    have hclose : Service.Tracks srv.clock (onStore Store.close) :=
      tracks_onStore (fun _ => rfl) fun s => by simp [Store.close]
    exact quiet (hclose.bind_still fun _ _ => rfl)
  | load dir =>
    have hrun : ((Job.program srv (.load dir)).run s).2 = ((srv.loadDirectory dir).run s).2 := by
      rw [program, Program.run_bind]
      rfl
    rw [hrun]
    have hcontinues := (@Service.effects_loadDirectory srv dir).continues hs.regular
    exact ⟨hcontinues.regular, isMarked_load hs (ordered dir rfl)⟩

theorem isSound_run (hs : s.IsSound srv.clock) (job : Job)
    (ordered : ∀ dir, job = .load dir → dir.IsSorted) :
    ((job.program srv).run s).2.IsSound srv.clock := by
  obtain ⟨hregular, hmarks⟩ := isMarked_run hs job ordered
  refine ⟨hregular, fun n hn hgone => ?_⟩
  rcases (hmarks n).mp hn with hstores | ⟨hmarked, hkept⟩
  · cases job with
    | load dir =>
      rw [program, Program.run_bind] at hn hgone
      exact (Service.settles_loadDirectory dir s hs.settled).held n hn hgone
    | _ => exact hstores
  · exact hkept ⟨hs.held n hmarked, hgone⟩

end Job

namespace Service

variable {srv : Service} {s : ServiceState} {n : Text} {jobs : List Job}

/-- The state after jobs that are taken one after the other. -/
def after (srv : Service) (s : ServiceState) (jobs : List Job) : ServiceState :=
  jobs.foldl (fun s job => ((job.program srv).run s).2) s

theorem after_concat (srv : Service) (s : ServiceState) (jobs : List Job) (job : Job) :
    srv.after s (jobs ++ [job]) = ((job.program srv).run (srv.after s jobs)).2 := by
  simp [after]

/-- A load has stored the definition of a name from a file, and none of the jobs after it that count has
taken the definition away. -/
def LoadedBefore (srv : Service) (s : ServiceState) (counts : Job → Bool) (n : Text)
    (jobs : List Job) : Prop :=
  ∃ i job, jobs[i]? = some job ∧ job.Stores n (srv.after s (jobs.take i)) ∧
    ∀ k other, i < k → jobs[k]? = some other → counts other = true →
      ¬ (srv.after s (jobs.take k)).Takes n (srv.after s (jobs.take (k + 1)))

theorem loadedBefore_nil (counts : Job → Bool) : ¬ LoadedBefore srv s counts n [] := by
  rintro ⟨i, job, hjob, -⟩
  simp at hjob

/-- The last job of a history has stored the name, or the name was loaded before and the job has not
taken its definition away. -/
theorem loadedBefore_concat (job : Job) :
    LoadedBefore srv s (fun _ => true) n (jobs ++ [job]) ↔
      job.Stores n (srv.after s jobs) ∨
        LoadedBefore srv s (fun _ => true) n jobs ∧
          ¬ (srv.after s jobs).Takes n (srv.after s (jobs ++ [job])) := by
  have hlast : (jobs ++ [job])[jobs.length]? = some job := by simp
  have hget {i : Nat} (hi : i < jobs.length) : (jobs ++ [job])[i]? = jobs[i]? :=
    List.getElem?_append_left hi
  have htake {i : Nat} (hi : i ≤ jobs.length) : (jobs ++ [job]).take i = jobs.take i :=
    List.take_append_of_le_length hi
  have hall : (jobs ++ [job]).take (jobs.length + 1) = jobs ++ [job] := by
    rw [List.take_of_length_le (by simp)]
  have hbound {i : Nat} {other : Job} (h : (jobs ++ [job])[i]? = some other) :
      i < jobs.length ∨ i = jobs.length ∧ other = job := by
    have hlt := (List.getElem?_eq_some_iff.mp h).1
    rw [List.length_append, List.length_singleton] at hlt
    by_cases hi : i < jobs.length
    · exact .inl hi
    · obtain rfl : i = jobs.length := by omega
      exact .inr ⟨rfl, Option.some.inj (h.symm.trans hlast)⟩
  constructor
  · rintro ⟨i, first, hfirst, hstores, hkept⟩
    rcases hbound hfirst with hi | ⟨rfl, rfl⟩
    · right
      rw [hget hi] at hfirst
      rw [htake hi.le] at hstores
      refine ⟨⟨i, first, hfirst, hstores, fun k other hk hother _ => ?_⟩, ?_⟩
      · have hlt := (List.getElem?_eq_some_iff.mp hother).1
        have hnot := hkept k other hk ((hget hlt).trans hother) rfl
        rwa [htake hlt.le, htake hlt] at hnot
      · have hnot := hkept jobs.length job hi hlast rfl
        rwa [htake (Nat.le_refl _), List.take_length, hall] at hnot
    · left
      rwa [htake (Nat.le_refl _), List.take_length] at hstores
  · rintro (hstores | ⟨⟨i, first, hfirst, hstores, hkept⟩, hlastkept⟩)
    · refine ⟨jobs.length, job, hlast, ?_, fun k other hk hother _ => ?_⟩
      · rwa [htake (Nat.le_refl _), List.take_length]
      · rcases hbound hother with hlt | ⟨rfl, -⟩ <;> omega
    · have hi := (List.getElem?_eq_some_iff.mp hfirst).1
      refine ⟨i, first, (hget hi).trans hfirst, by rwa [htake hi.le], fun k other hk hother _ => ?_⟩
      rcases hbound hother with hlt | ⟨rfl, -⟩
      · rw [htake hlt.le, htake hlt]
        exact hkept k other hk ((hget hlt).symm.trans hother) rfl
      · rwa [htake (Nat.le_refl _), List.take_length, hall]

/-- The marks are exactly the names that were loaded before. -/
theorem isMarked_after (hs : s.IsSound srv.clock) (unmarked : ∀ n, s.isMarked n = false)
    (ordered : ∀ dir, .load dir ∈ jobs → dir.IsSorted) :
    (srv.after s jobs).IsSound srv.clock ∧
      ∀ n, (srv.after s jobs).isMarked n = true ↔ LoadedBefore srv s (fun _ => true) n jobs := by
  induction jobs using List.reverseRecOn with
  | nil =>
    refine ⟨hs, fun n => ?_⟩
    rw [iff_false_right (loadedBefore_nil _)]
    show ¬ s.isMarked n = true
    simp [unmarked]
  | append_singleton jobs job ih =>
    obtain ⟨hsound, hmarks⟩ := ih fun dir hdir => ordered dir (by simp [hdir])
    have hjob : ∀ dir, job = .load dir → dir.IsSorted := fun dir hdir => ordered dir (by simp [hdir])
    rw [after_concat]
    refine ⟨Job.isSound_run hsound job hjob, fun n => ?_⟩
    rw [(Job.isMarked_run hsound job hjob).2, hmarks, loadedBefore_concat, after_concat]

end Service

end ScopedAggregation
