import ScopedAggregation.Proofs.Interleaving
import ScopedAggregation.Proofs.RequestEffects

namespace ScopedAggregation

/-- If there is a database, then it can be given all times: those of the clock, and those at which the
stored definitions were created. -/
def Store.TakesTimes (clock : Clock) (s : Store) : Prop :=
  s.database.isSome = true →
    (∀ n, (clock n).time.hasStamp = true) ∧ ∀ p ∈ s.definitions, p.2.created.hasStamp = true

namespace Store

variable {clock : Clock} {s : Store}

theorem isSome_changed (f : Table StoredDefinition → Table StoredDefinition)
    (g : Table Text → Table Text) : (s.changed f g).database.isSome = s.database.isSome := by
  obtain ⟨definitions, database⟩ := s
  cases database <;> rfl

theorem takesWrites_changed (f : Table StoredDefinition → Table StoredDefinition)
    (g : Table Text → Table Text) : (s.changed f g).TakesWrites ↔ s.TakesWrites := by
  obtain ⟨definitions, database⟩ := s
  cases database <;> simp [TakesWrites, changed]

theorem TakesTimes.saved (h : s.TakesTimes clock) {d : StoredDefinition}
    (hd : s.database.isSome = true → d.created.hasStamp = true) : (s.saved d).TakesTimes clock := by
  intro hsome
  rw [Store.saved, isSome_changed] at hsome
  obtain ⟨hclock, hstored⟩ := h hsome
  refine ⟨hclock, fun p hp => ?_⟩
  rcases Table.mem_insert hp with rfl | hp
  · exact hd hsome
  · exact hstored p hp

theorem TakesTimes.erased (h : s.TakesTimes clock) (name : Text) :
    (s.changed (Table.erase name) (Table.erase name)).TakesTimes clock := by
  intro hsome
  rw [isSome_changed] at hsome
  obtain ⟨hclock, hstored⟩ := h hsome
  exact ⟨hclock, fun p hp => hstored p ((Table.erase_sublist name _).subset hp)⟩

theorem TakesTimes.writable_fresh (h : s.TakesTimes clock) (n : Nat) (name source description : Text)
    (labels : Labels) : s.TimesWritable (fresh (clock n) name source description labels) :=
  fun hsome => ⟨(h hsome).1 n, (h hsome).1 n⟩

theorem revised_created (stamp : Stamp) (source description : Text) (d : StoredDefinition) :
    (revised stamp source description d).created = d.created := by
  unfold revised
  dsimp only
  split <;> split <;> rfl

theorem revised_updated (stamp : Stamp) (source description : Text) (d : StoredDefinition) :
    (revised stamp source description d).updated = stamp.time := rfl

theorem TakesTimes.writable_revised (h : s.TakesTimes clock) {name : Text} {old : StoredDefinition}
    (held : s.definitions.get? name = some old) (n : Nat) (source description : Text) :
    s.TimesWritable (revised (clock n) source description old) := by
  intro hsome
  obtain ⟨hclock, hstored⟩ := h hsome
  have created : old.created.hasStamp = true := hstored (name, old) (Table.mem_of_get? held)
  refine ⟨?_, ?_⟩
  · rw [revised_created]
    exact created
  · rw [revised_updated]
    exact hclock n

end Store

/-- What every step keeps: definitions and marks are in order, and times can be written. -/
structure ServiceState.IsRegular (clock : Clock) (s : ServiceState) : Prop where
  ordered : s.IsOrdered
  sorted : s.shared.store.definitions.IsSorted
  times : s.shared.store.TakesTimes clock

/-- The second state may come after the first one: it is regular too, its database takes writes if that
of the first one does, and its clock has gone on. -/
structure ServiceState.Continues (clock : Clock) (s t : ServiceState) : Prop where
  regular : t.IsRegular clock
  takes : t.shared.store.TakesWrites ↔ s.shared.store.TakesWrites
  ticks : s.shared.ticks ≤ t.shared.ticks

theorem ServiceState.Continues.trans {clock : Clock} {s t u : ServiceState} (hst : s.Continues clock t)
    (htu : t.Continues clock u) : s.Continues clock u :=
  ⟨htu.regular, htu.takes.trans hst.takes, hst.ticks.trans htu.ticks⟩

namespace StoreWrite

variable {clock : Clock} {name : Text} {s : SharedStore}

theorem perform_refused (refuses : ¬ s.store.TakesWrites) (w : StoreWrite) :
    (w.perform clock name s).2.store = s.store := by
  rcases @perform_store clock name s w with ⟨-, h⟩ | ⟨-, takes, -⟩
  · exact h
  · exact absurd takes refuses

theorem ticks_perform (w : StoreWrite) : s.ticks ≤ (w.perform clock name s).2.ticks := by
  cases w with
  | delete => exact Nat.le_refl _
  | create _ _ _ | update _ _ => exact Nat.le_succ _

theorem takesWrites_perform (w : StoreWrite) :
    (w.perform clock name s).2.store.TakesWrites ↔ s.store.TakesWrites := by
  rcases @perform_store clock name s w with ⟨-, h⟩ | ⟨-, -, ⟨d, -, -, h⟩ | ⟨-, h⟩⟩
  · rw [h]
  · rw [h, Store.saved, Store.takesWrites_changed]
  · rw [h, Store.takesWrites_changed]

theorem sorted_perform (sorted : s.store.definitions.IsSorted) (w : StoreWrite) :
    (w.perform clock name s).2.store.definitions.IsSorted := by
  rcases @perform_store clock name s w with ⟨-, h⟩ | ⟨-, -, ⟨d, -, -, h⟩ | ⟨-, h⟩⟩
  · rwa [h]
  · rw [h]
    exact sorted.insert d.name d
  · rw [h]
    exact sorted.erase name

theorem takesTimes_perform (times : s.store.TakesTimes clock) (w : StoreWrite) :
    (w.perform clock name s).2.store.TakesTimes clock := by
  rcases @perform_store clock name s w with ⟨-, h⟩ | ⟨-, -, ⟨d, -, hd, h⟩ | ⟨-, h⟩⟩
  · rwa [h]
  · rw [h]
    exact times.saved fun hsome => (hd hsome).1
  · rw [h]
    exact times.erased name

end StoreWrite

namespace Service

variable {α : Type} {clock : Clock} {allowed : StepEffect → Prop} {s : ServiceState}

theorem continues_refl (hs : s.IsRegular clock) : s.Continues clock s := ⟨hs, .rfl, Nat.le_refl _⟩

theorem continues_of_shared {t : ServiceState} (hs : s.IsRegular clock) (shared : t.shared = s.shared)
    (ordered : t.IsOrdered) : s.Continues clock t := by
  refine ⟨⟨ordered, ?_, ?_⟩, ?_, ?_⟩
  · rw [shared]
    exact hs.sorted
  · rw [shared]
    exact hs.times
  · rw [shared]
  · rw [shared]

theorem continues_step {e : StepEffect} {change : ServiceState → ServiceState}
    (his : e.Is clock change) (hs : s.IsRegular clock) : s.Continues clock (change s) := by
  have ordered := his.ordered hs.ordered
  cases e with
  | write name w =>
    have shared := (his s).1
    refine ⟨⟨ordered, ?_, ?_⟩, ?_, ?_⟩
    · rw [shared]
      exact w.sorted_perform hs.sorted
    · rw [shared]
      exact w.takesTimes_perform hs.times
    · rw [shared, w.takesWrites_perform]
    · rw [shared]
      exact w.ticks_perform
  | aside | mark _ | forget _ => exact continues_of_shared hs (his s).1 ordered

/-- A request that is taken alone. -/
theorem Effects.continues {p : Request α} (h : Effects clock allowed p) (hs : s.IsRegular clock) :
    s.Continues clock (p.run s).2 := by
  induction p generalizing s with
  | done a => exact continues_refl hs
  | step change next ih =>
    obtain ⟨⟨e, -, his⟩, hnext⟩ := h
    have hstep := continues_step his hs
    exact hstep.trans (ih s (hnext s) hstep.regular)

theorem run_onStore (p : Program SharedStore α) (s : ServiceState) :
    (onStore p).run s = ((p.run s.shared).1, { s with shared := (p.run s.shared).2 }) := by
  induction p generalizing s with
  | done a => rfl
  | step change next ih => exact ih s.shared { s with shared := change s.shared }

end Service

/-- What becomes of the definition of a name, if there is one, when a source is put there at some step
from the given one on. -/
def PutFrom (clock : Clock) (first : Nat) (name source : Text) (old? : Option StoredDefinition)
    (d : StoredDefinition) : Prop :=
  ∃ n, first ≤ n ∧
    d = match old? with
      | some old => Store.revised (clock n) source [] old
      | none => Store.fresh (clock n) name source [] none

theorem PutFrom.name_eq {clock : Clock} {first : Nat} {name source : Text}
    {old? : Option StoredDefinition} {d : StoredDefinition} (h : PutFrom clock first name source old? d)
    (named : ∀ old, old? = some old → old.name = name) : d.name = name := by
  obtain ⟨n, -, rfl⟩ := h
  cases old? with
  | none => rfl
  | some old => exact (Store.revised_name _ _ _ _).trans (named old rfl)

theorem PutFrom.later {clock : Clock} {first first' : Nat} {name source : Text}
    {old? : Option StoredDefinition} {d : StoredDefinition}
    (h : PutFrom clock first' name source old? d) (hle : first ≤ first') :
    PutFrom clock first name source old? d := by
  obtain ⟨n, hn, hd⟩ := h
  exact ⟨n, hle.trans hn, hd⟩

namespace SharedStore

variable {clock : Clock} {s : SharedStore} {name : Text}

theorem run_put (clock : Clock) (name source : Text) (s : SharedStore) :
    (put clock name source).run s =
      match stamped clock (Store.update · name source []) s with
      | (.ok d, t) => ((.ok d, false), t)
      | (.error (.notFound _), t) =>
        let (result, u) := stamped clock (Store.create · name source [] none) t
        ((result, true), u)
      | (.error e, t) => ((.error e, false), t) := by
  have updated : (update clock name source []).run s =
      stamped clock (Store.update · name source []) s := rfl
  rw [put, Program.run_bind, updated]
  rcases stamped clock (Store.update · name source []) s with ⟨result, t⟩
  cases result with
  | ok d => rfl
  | error e => cases e <;> rfl

/-- Putting a source under the name of a definition saves the definition. -/
theorem put_saves (named : ∀ p ∈ s.store.definitions, p.1 = p.2.name)
    (times : s.store.TakesTimes clock) (takes : s.store.TakesWrites)
    (checked : DefinitionName.check name = .ok ()) (source : Text) :
    ∃ d created t, (put clock name source).run s = ((.ok d, created), t) ∧
      t.store = s.store.saved d ∧
      PutFrom clock s.ticks name source (s.store.definitions.get? name) d := by
  rw [run_put]
  cases held : s.store.definitions.get? name with
  | some old =>
    have hname : (Store.revised (clock s.ticks) source [] old).name = name :=
      (Store.revised_name _ _ _ _).trans (named _ (Table.mem_of_get? held)).symm
    have updated := Store.update_run held takes (times.writable_revised held s.ticks source [])
      (hname.symm ▸ checked)
    refine ⟨_, false, ⟨s.store.saved _, s.ticks + 1⟩, ?_, rfl, s.ticks, Nat.le_refl _, rfl⟩
    simp only [stamped, call, updated]
  | none =>
    have updated := @Store.update_missing s.store name source [] (clock s.ticks) held
    have created := Store.create_run held takes
      (times.writable_fresh (s.ticks + 1) name source [] none) checked
    refine ⟨_, true, ⟨s.store.saved _, s.ticks + 2⟩, ?_, rfl, s.ticks + 1, Nat.le_succ _, rfl⟩
    simp only [stamped, call, updated, created]

end SharedStore

end ScopedAggregation
