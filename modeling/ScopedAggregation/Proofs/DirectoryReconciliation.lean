import ScopedAggregation.Proofs.LoadingHistory

namespace ScopedAggregation

namespace StoredDefinition

/-- All of a definition but the moment of its last update. -/
def untimed (d : StoredDefinition) : StoredDefinition := { d with updated := .none }

/-- The definition has the given source. It keeps the description and the labels of the one before, if
there was one, and its revision exactly if the source is the same. -/
structure Replaces (source : Text) (old? : Option StoredDefinition) (d : StoredDefinition) : Prop where
  source_eq : d.source = source
  description_eq : d.description = (old?.map (·.description)).getD []
  labels_eq : d.labels = old?.bind (·.labels)
  revision_eq : ∀ old, old? = some old → (d.revision = old.revision ↔ source = old.source)

end StoredDefinition

namespace Store

variable {stamp : Stamp} {source : Text} {old : StoredDefinition}

theorem revised_same (same : source = old.source) :
    revised stamp source [] old = { old with updated := stamp.time } := by
  simp [revised, same]

theorem revised_other (hne : source ≠ []) (other : source ≠ old.source) :
    revised stamp source [] old =
      { old with source := source, revision := stamp.revision, updated := stamp.time } := by
  simp [revised, hne, other]

end Store

namespace PutFrom

variable {clock : Clock} {first : Nat} {name source : Text} {old? : Option StoredDefinition}
  {d : StoredDefinition}

theorem source_eq (h : PutFrom clock first name source old? d) (hne : source ≠ []) :
    d.source = source := by
  obtain ⟨n, -, rfl⟩ := h
  cases old? with
  | none => rfl
  | some old =>
    dsimp only
    by_cases same : source = old.source
    · rw [Store.revised_same same]
      exact same.symm
    · rw [Store.revised_other hne same]

theorem replaces (h : PutFrom clock first name source old? d) (hne : source ≠ [])
    (new : ∀ n, first ≤ n → ∀ old, old? = some old → (clock n).revision ≠ old.revision) :
    d.Replaces source old? := by
  have hsource := h.source_eq hne
  obtain ⟨n, hn, rfl⟩ := h
  cases old? with
  | none => exact ⟨hsource, rfl, rfl, nofun⟩
  | some old =>
    dsimp only at hsource ⊢
    by_cases same : source = old.source
    · rw [Store.revised_same same] at hsource ⊢
      refine ⟨hsource, rfl, rfl, fun old' hold => ?_⟩
      cases hold
      exact iff_of_true rfl same
    · rw [Store.revised_other hne same] at hsource ⊢
      refine ⟨hsource, rfl, rfl, fun old' hold => ?_⟩
      cases hold
      exact iff_of_false (new n hn old rfl) same

/-- Putting a source again changes the moment of the last update alone. -/
theorem untimed_eq {old : StoredDefinition} (h : PutFrom clock first name source (some old) d)
    (same : source = old.source) : d.untimed = old.untimed := by
  obtain ⟨n, -, rfl⟩ := h
  dsimp only
  rw [Store.revised_same same]
  rfl

end PutFrom

/-- What a load has to make of the definitions before it. -/
structure Directory.Reconciled (dir : Directory) (loaded : Text → Prop) (before : ServiceState)
    (count : Nat) (after : ServiceState) : Prop where
  stored : ∀ name file content, dir.Decides name file (.file content) →
    (Definition.parse content).isOk = true →
      ∃ d, after.entry name = some d ∧ d.name = name ∧ d.Replaces content (before.entry name)
  failed : ∀ name file entry, dir.Decides name file entry →
    (∀ content, entry = .file content → (Definition.parse content).isOk = false) →
      after.entry name = before.entry name
  gone : ∀ name, ¬ dir.HasFile name → loaded name → after.entry name = none
  others : ∀ name, ¬ dir.HasFile name → ¬ loaded name → after.entry name = before.entry name
  counted : ∃ files : List Text, files.Nodup ∧ count = files.length ∧
    ∀ file, file ∈ files ↔ ∃ name content, dir.Decides name file (.file content) ∧
      (Definition.parse content).isOk = true

/-- Revisions to come differ from the stored ones. -/
theorem ServiceState.Tied.new {clock : Clock} {w : Ties} {s : ServiceState} (hs : s.Tied clock w)
    {n : Nat} (hn : s.shared.ticks ≤ n) {name : Text} {old : StoredDefinition}
    (held : s.entry name = some old) : (clock n).revision ≠ old.revision := by
  intro heq
  have htie := hs.stored.tied _ (Table.mem_of_get? held)
  have hnone := hs.stored.unused n hn old.name
  rw [heq] at hnone
  cases htie.symm.trans hnone

namespace Service

variable {srv : Service} {s : ServiceState} {jobs : List Job} {dir : Directory}

theorem tied_after (distinct : Function.Injective fun n => (srv.clock n).revision) {w : Ties}
    (hs : s.Tied srv.clock w) : ∃ v, (srv.after s jobs).Tied srv.clock v := by
  induction jobs using List.reverseRecOn with
  | nil => exact ⟨w, hs⟩
  | append_singleton jobs job ih =>
    obtain ⟨v, hv⟩ := ih
    obtain ⟨u, -, hu⟩ := (job.keeps_program distinct v).run hv
    rw [after_concat]
    exact ⟨u, hu⟩

theorem Reconciles.reconciled {count : Nat} {t : ServiceState} (h : Reconciles srv dir s count t)
    (hs : s.IsRegular srv.clock) (sorted : dir.IsSorted) {w : Ties} (tied : s.Tied srv.clock w)
    {loaded : Text → Prop} (hloaded : ∀ n, s.isMarked n = true ↔ loaded n) :
    dir.Reconciled loaded s count t where
  stored name file content decides parsed := by
    obtain ⟨-, d, hentry, hput⟩ :=
      h.stored name content ((Directory.source?_eq_some sorted).mpr ⟨file, decides, parsed⟩)
    obtain ⟨definition, hparse⟩ := isOk_iff.mp parsed
    refine ⟨d, hentry, hput.name_eq fun old held => ?_, hput.replaces (source_ne_nil hparse) ?_⟩
    · exact (hs.ordered.named _ (Table.mem_of_get? held)).symm
    · exact fun n hn old held => tied.new hn held
  failed name file entry decides bad := by
    have hfirst := (Directory.first?_eq_some sorted).mpr decides
    refine (h.failed name ⟨_, decides.1, decides.2.1, decides.2.2.1⟩ ?_).1
    cases hsource : Directory.source? name dir with
    | none => rfl
    | some source =>
      rw [Directory.source?, hfirst] at hsource
      obtain ⟨rfl, parsed⟩ := DirectoryEntry.source?_eq_some.mp hsource
      rw [bad source rfl] at parsed
      cases parsed
  gone name hfile hname := h.gone name hfile ((hloaded name).mpr hname)
  others name hfile hname := by
    refine h.others name hfile ?_
    rw [← hloaded, Bool.not_eq_true] at hname
    exact hname
  counted := by
    obtain ⟨files, distinct, hlength, hfiles⟩ := h.counted
    refine ⟨files, distinct, hlength.symm, fun file => ?_⟩
    rw [hfiles]
    refine exists_congr fun name => ⟨?_, ?_⟩
    · rintro ⟨entry, hfirst, usable⟩
      obtain ⟨content, hcontent⟩ := Option.isSome_iff_exists.mp usable
      obtain ⟨rfl, parsed⟩ := DirectoryEntry.source?_eq_some.mp hcontent
      exact ⟨content, (Directory.first?_eq_some sorted).mp hfirst, parsed⟩
    · rintro ⟨content, decides, parsed⟩
      refine ⟨_, (Directory.first?_eq_some sorted).mpr decides, ?_⟩
      rw [DirectoryEntry.source?_eq_some.mpr ⟨rfl, parsed⟩]
      rfl

/-- What was stored is stored again, and what was taken away has no mark any more. -/
theorem Reconciles.again {count count' : Nat} {t u : ServiceState} (h : Reconciles srv dir s count t)
    (h' : Reconciles srv dir t count' u) (name : Text) :
    (u.entry name).map StoredDefinition.untimed = (t.entry name).map StoredDefinition.untimed := by
  cases hsource : Directory.source? name dir with
  | some source =>
    obtain ⟨-, d, hentry, hput⟩ := h.stored name source hsource
    obtain ⟨-, d', hentry', hput'⟩ := h'.stored name source hsource
    have hne : source ≠ [] := by
      rw [Directory.source?, Option.bind_eq_some_iff] at hsource
      obtain ⟨p, -, hp⟩ := hsource
      obtain ⟨definition, hparse⟩ := isOk_iff.mp (DirectoryEntry.source?_eq_some.mp hp).2
      exact source_ne_nil hparse
    rw [hentry] at hput' ⊢
    rw [hentry']
    exact congrArg some (hput'.untimed_eq (hput.source_eq hne).symm)
  | none =>
    by_cases hfile : dir.HasFile name
    · rw [(h'.failed name hfile hsource).1]
    · rw [h'.others name hfile (h.unmarked name hfile)]

/-- A load makes the definitions agree with the directory, and a second one changes nothing but the
times of updates. -/
theorem directory_reconciled (srv : Service) {shared : SharedStore} (withMetrics : Bool)
    (initial : shared.store.IsInitial) (times : shared.store.TakesTimes srv.clock)
    (distinct : Function.Injective fun n => (srv.clock n).revision)
    (new : ∀ n, ∀ d ∈ shared.store.list, (srv.clock n).revision ≠ d.revision) {jobs : List Job}
    (ordered : ∀ dir, .load dir ∈ jobs → dir.IsSorted) {dir : Directory} (sorted : dir.IsSorted)
    (takes : (srv.after (start shared withMetrics) jobs).shared.store.TakesWrites) :
    let before := srv.after (start shared withMetrics) jobs
    let once := (srv.loadDirectory dir).run before
    let twice := (srv.loadDirectory dir).run once.2
    dir.Reconciled (LoadedBefore srv (start shared withMetrics) (fun _ => true) · jobs) before once.1
        once.2 ∧
      ∀ name, (twice.2.entry name).map StoredDefinition.untimed =
        (once.2.entry name).map StoredDefinition.untimed := by
  intro before once twice
  have hstart : (start shared withMetrics).IsSound srv.clock := by
    refine ⟨⟨⟨initial.named.2, .nil⟩, initial.named.1, times⟩, fun n hn => ?_⟩
    cases hn
  have htied : (start shared withMetrics).Tied srv.clock shared.store.ties :=
    ⟨SharedStore.tied_ties initial new, by simp [start]⟩
  obtain ⟨hsound, hmarks⟩ := @isMarked_after srv _ jobs hstart (fun _ => rfl) ordered
  obtain ⟨w, tied⟩ := @tied_after srv _ jobs distinct _ htied
  have hfirst := loadDirectory_reconciles hsound.regular takes dir
  have hsecond := loadDirectory_reconciles hfirst.continues.regular (hfirst.continues.takes.mpr takes)
    dir
  exact ⟨hfirst.reconciled hsound.regular sorted tied hmarks, hfirst.again hsecond⟩

/-- A service with numbered revisions in which no time passes. -/
def stillService : Service := { clock := fun n => ⟨Text.ofNat n, .ofSeconds 0⟩ }

theorem still_distinct : Function.Injective fun n => (stillService.clock n).revision := by
  intro m n h
  have values := congrArg Text.digitsValue h
  rwa [stillService, Text.digitsValue_ofNat, Text.digitsValue_ofNat] at values

/-- The state of a service that starts on a new database. -/
def newState : ServiceState := start { store := .new } false

def sourceOne : Text := text "expression: 1"

/-- Two definitions come from files, and one is asked for. -/
def earlierJobs : List Job :=
  [.load [(text "a.yaml", .file sourceOne), (text "c.yaml", .file sourceOne)],
    .http (ServiceRun.postOf "b")]

/-- One of the files is gone, one cannot be read, and there are two for what was asked for. -/
def laterFiles : Directory :=
  [(text "b.YAML", .file sourceOne), (text "b.yml", .unreadable (text "denied")),
    (text "c.yml", .unreadable (text "denied"))]

/-- The state before the later files are loaded, and the state after that. -/
def beforeLater : ServiceState := stillService.after newState earlierJobs

def afterLater : ServiceState := ((stillService.loadDirectory laterFiles).run beforeLater).2

theorem loadedBefore_a :
    LoadedBefore stillService newState (fun _ => true) (text "a") earlierJobs := by
  refine ⟨0, _, rfl, ⟨by decide +kernel, text "a.yaml", sourceOne, by decide +kernel,
    by decide +kernel⟩, fun k other hk hother _ => ?_⟩
  match k, hk, hother with
  | 1, _, _ => decide +kernel

theorem laterFiles_reconciled :
    Store.new.IsInitial ∧ Store.new.TakesTimes stillService.clock ∧
      (Function.Injective fun n => (stillService.clock n).revision) ∧
      (∀ n, ∀ d ∈ Store.new.list, (stillService.clock n).revision ≠ d.revision) ∧
      (∀ dir, .load dir ∈ earlierJobs → dir.IsSorted) ∧ laterFiles.IsSorted ∧
      beforeLater.shared.store.TakesWrites ∧ afterLater.entry (text "a") = none ∧
      (∃ d, afterLater.entry (text "b") = some d ∧ d.name = text "b" ∧
        d.Replaces sourceOne (beforeLater.entry (text "b"))) ∧
      afterLater.entry (text "c") = beforeLater.entry (text "c") := by
  have initial : Store.new.IsInitial := .inr ⟨[], rfl⟩
  have times : Store.new.TakesTimes stillService.clock := by
    refine fun _ => ⟨fun _ => ?_, by simp [Store.new]⟩
    show (Instant.ofSeconds 0).hasStamp = true
    decide +kernel
  have new : ∀ n, ∀ d ∈ Store.new.list, (stillService.clock n).revision ≠ d.revision := by
    simp [Store.new, Store.list]
  have ordered : ∀ dir, .load dir ∈ earlierJobs → dir.IsSorted := by
    intro dir hdir
    rcases List.mem_cons.mp hdir with hdir | hdir
    · cases hdir
      unfold Table.IsSorted
      decide
    · simp at hdir
  have sorted : laterFiles.IsSorted := by
    unfold Table.IsSorted
    decide
  unfold afterLater beforeLater newState
  have takes : (stillService.after (start { store := .new } false)
      earlierJobs).shared.store.TakesWrites := by
    decide +kernel
  obtain ⟨h, -⟩ := @directory_reconciled stillService { store := .new } false initial times
    still_distinct new earlierJobs ordered laterFiles sorted takes
  refine ⟨initial, times, still_distinct, new, ordered, sorted, takes, ?_, ?_, ?_⟩
  · exact h.gone (text "a") (by decide +kernel) loadedBefore_a
  · exact h.stored (text "b") (text "b.YAML") sourceOne (by decide +kernel) (by decide +kernel)
  · refine h.failed (text "c") (text "c.yml") (.unreadable (text "denied")) (by decide +kernel) ?_
    intro source hsource
    cases hsource

/-- A definition comes from a file, is deleted when the file is gone, and is asked for again. -/
def recreatingJobs : List Job :=
  [.load (ServiceRun.directoryOf "a"), .load [], .http (ServiceRun.postOf "a")]

/-- A definition without a file stays where it was created after a load has deleted it, although no
request has deleted it since it was loaded. -/
theorem recreated_definition_kept :
    LoadedBefore stillService newState Job.isRequest (text "a") recreatingJobs ∧
      ¬ Directory.HasFile [] (text "a") ∧
      (stillService.after newState recreatingJobs).shared.store.TakesWrites ∧
      ((stillService.loadDirectory []).run (stillService.after newState recreatingJobs)).2.entry
        (text "a") ≠ none := by
  refine ⟨⟨0, _, rfl, ⟨by decide +kernel, text "a.yaml", sourceOne, by decide +kernel,
    by decide +kernel⟩,
    fun k other hk hother hcounts => ?_⟩, by decide +kernel, by decide +kernel, by decide +kernel⟩
  match k, hk, hother with
  | 1, _, hother =>
    cases hother
    cases hcounts
  | 2, _, _ => decide +kernel

end Service

end ScopedAggregation
