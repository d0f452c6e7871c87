import ScopedAggregation.Proofs.Interleaving
import ScopedAggregation.Proofs.StoreCalls
import ScopedAggregation.Proofs.TableOrder
import ScopedAggregation.Store.Shared

namespace ScopedAggregation

open Program (Keeps keeps_pure keeps_atomic keeps_read)

/-- The sources that revisions of names stand for, as far as there have been any. -/
structure Ties where
  source? : Text → Text → Option Text

namespace Ties

instance : Preorder Ties where
  le w v := ∀ name revision source,
    w.source? name revision = some source → v.source? name revision = some source
  le_refl _ _ _ _ h := h
  le_trans _ _ _ hwv hvu name revision source h := hvu name revision source (hwv name revision source h)

variable {w v : Ties} {d : StoredDefinition} {name revision source : Text}

/-- The revision of a definition stands for its source. -/
def Tied (w : Ties) (d : StoredDefinition) : Prop := w.source? d.name d.revision = some d.source

theorem Tied.later (h : w.Tied d) (hv : w ≤ v) : v.Tied d := hv _ _ _ h

def tie (w : Ties) (name revision source : Text) : Ties where
  source? n r := if n = name ∧ r = revision then some source else w.source? n r

theorem le_tie (h : w.source? name revision = none) : w ≤ w.tie name revision source := by
  intro n r x hx
  have other : ¬ (n = name ∧ r = revision) := by
    rintro ⟨rfl, rfl⟩
    rw [h] at hx
    cases hx
  exact (if_neg other).trans hx

theorem tied_tie (w : Ties) (d : StoredDefinition) : (w.tie d.name d.revision d.source).Tied d :=
  if_pos ⟨rfl, rfl⟩

end Ties

/-- Every stored definition is the one its revision stands for, and revisions to come stand for
nothing yet. -/
structure SharedStore.Tied (clock : Clock) (w : Ties) (s : SharedStore) : Prop where
  named : ∀ p ∈ s.store.definitions, p.1 = p.2.name
  tied : ∀ p ∈ s.store.definitions, w.Tied p.2
  unused : ∀ n, s.ticks ≤ n → ∀ name, w.source? name (clock n).revision = none

namespace SharedStore

variable {clock : Clock} {w v : Ties} {s : SharedStore}

/-- A definition that a call saves has the new revision, or it is one that is stored in all that its
revision stands for. -/
def SavesTied (stamp : Stamp) (s : Store) (d : StoredDefinition) : Prop :=
  d.revision = stamp.revision ∨
    ∃ p ∈ s.definitions, d.name = p.2.name ∧ d.revision = p.2.revision ∧ d.source = p.2.source

/-- Saving keeps every revision with its source. -/
theorem Tied.saved (distinct : Function.Injective fun n => (clock n).revision)
    (h : s.Tied clock w) {d : StoredDefinition} (hd : SavesTied (clock s.ticks) s.store d) :
    ∃ v, w ≤ v ∧ v.Tied d ∧
      Tied clock v { store := s.store.saved d, ticks := s.ticks + 1 } := by
  have kept : ∀ v, w ≤ v → v.Tied d →
      (∀ n, s.ticks + 1 ≤ n → ∀ name, v.source? name (clock n).revision = none) →
      Tied clock v { store := s.store.saved d, ticks := s.ticks + 1 } := by
    intro v hv hd unused
    refine ⟨fun p hp => ?_, fun p hp => ?_, unused⟩
    · rcases Table.mem_insert hp with rfl | hp
      · rfl
      · exact h.named p hp
    · rcases Table.mem_insert hp with rfl | hp
      · exact hd
      · exact (h.tied p hp).later hv
  -- A new revision gets its tie here; one that is saved again has it since it was new.
  rcases hd with hrevision | ⟨p, hp, hname, hrevision, hsource⟩
  · have new : w.source? d.name d.revision = none := by
      rw [hrevision]
      exact h.unused s.ticks (Nat.le_refl _) d.name
    refine ⟨_, Ties.le_tie new, w.tied_tie d, kept _ (Ties.le_tie new) (w.tied_tie d) ?_⟩
    intro n hn name
    have other : (clock n).revision ≠ d.revision := by
      rw [hrevision]
      intro heq
      have := distinct heq
      omega
    exact (if_neg fun both => other both.2).trans (h.unused n (by omega) name)
  · have old : w.Tied d := by
      rw [Ties.Tied, hname, hrevision, hsource]
      exact h.tied p hp
    exact ⟨w, le_refl w, old, kept w (le_refl w) old fun n hn => h.unused n (by omega)⟩

/-- A step that saves a definition, or fails. -/
theorem keeps_stamped (distinct : Function.Injective fun n => (clock n).revision)
    {c : Stamp → Store.Call StoredDefinition} {q : StoredDefinition → Prop}
    (saves : ∀ stamp s, Store.AllOrNothing (c stamp) s fun d t =>
      t = s.saved d ∧ SavesTied stamp s d ∧ q d) (w : Ties) :
    Keeps (Tied clock) (fun v r => ∀ d, r = .ok d → v.Tied d ∧ q d) (.atomic (stamped clock c)) w := by
  refine keeps_atomic fun v hv s hs => ?_
  rcases saves (clock s.ticks) s.store with ⟨e, he⟩ | ⟨d, t, hd, rfl, htied, hq⟩
  · have outcome : stamped clock c s = (.error e, { s with ticks := s.ticks + 1 }) := by
      simp only [stamped, call, he]
    rw [outcome]
    refine ⟨v, le_refl v, ⟨hs.named, hs.tied, fun n hn => hs.unused n (Nat.le_of_succ_le hn)⟩, ?_⟩
    intro x _ d hd
    cases hd
  · have outcome : stamped clock c s =
        (.ok d, { store := s.store.saved d, ticks := s.ticks + 1 }) := by
      simp only [stamped, call, hd]
    obtain ⟨u, hu, hdu, hsaved⟩ := hs.saved distinct htied
    rw [outcome]
    refine ⟨u, hu, hsaved, fun x hx e he => ?_⟩
    cases he
    exact ⟨hdu.later hx, hq⟩

theorem keeps_create (distinct : Function.Injective fun n => (clock n).revision)
    (name source description : Text) (labels : Labels) (w : Ties) :
    Keeps (Tied clock) (fun v r => ∀ d, r = .ok d → v.Tied d ∧ d.source = source)
      (create clock name source description labels) w := by
  refine keeps_stamped distinct (fun stamp s => ?_) w
  refine (Store.create_allOrNothing stamp name source description labels s).imp ?_
  rintro d t ⟨rfl, -, -, -, -, rfl⟩
  exact ⟨rfl, .inl rfl, rfl⟩

theorem savesTied_revised {stamp : Stamp} {s : Store} {name source description : Text}
    {old : StoredDefinition} (held : s.definitions.get? name = some old) :
    SavesTied stamp s (Store.revised stamp source description old) ∧
      (source ≠ [] → (Store.revised stamp source description old).source = source) := by
  have member := Table.mem_of_get? held
  unfold Store.revised
  split
  next same =>
    simp only [Bool.or_eq_true, List.isEmpty_iff, decide_eq_true_eq] at same
    split <;> exact ⟨.inr ⟨_, member, rfl, rfl, rfl⟩, fun hne => (same.resolve_left hne).symm⟩
  next => split <;> exact ⟨.inl rfl, fun _ => rfl⟩

theorem keeps_update (distinct : Function.Injective fun n => (clock n).revision)
    (name source description : Text) (w : Ties) :
    Keeps (Tied clock) (fun v r => ∀ d, r = .ok d → v.Tied d ∧ (source ≠ [] → d.source = source))
      (update clock name source description) w := by
  refine keeps_stamped distinct (fun stamp s => ?_) w
  refine (Store.update_allOrNothing stamp name source description s).imp ?_
  rintro d t ⟨old, held, rfl, -, -, rfl⟩
  exact ⟨rfl, savesTied_revised held⟩

/-- What a step that puts a definition tells. -/
def PutTied (source : Text) (v : Ties) (r : Except StoreError StoredDefinition × Bool) : Prop :=
  ∀ d, r.1 = .ok d → v.Tied d ∧ (source ≠ [] → d.source = source)

theorem keeps_put (distinct : Function.Injective fun n => (clock n).revision)
    (name source : Text) (w : Ties) :
    Keeps (Tied clock) (PutTied source) (put clock name source) w := by
  refine (keeps_update distinct name source [] w).bind fun v _ r hr => ?_
  cases r with
  | ok d =>
    refine keeps_pure fun u hu e he => ?_
    cases he
    exact ⟨(hr d rfl).1.later hu, (hr d rfl).2⟩
  | error e =>
    have failed : Keeps (Tied clock) (PutTied source) (pure (.error e, false)) v :=
      keeps_pure fun u hu d hd => by cases hd
    cases e with
    | notFound n =>
      refine (keeps_create distinct name source [] none v).bind fun u _ r hr => ?_
      refine keeps_pure fun x hx d hd => ?_
      exact ⟨(hr d hd).1.later hx, fun _ => (hr d hd).2⟩
    | _ => exact failed

theorem keeps_delete (name : Text) (w : Ties) :
    Keeps (Tied clock) (fun _ _ => True) (delete name) w := by
  refine keeps_atomic fun v hv s hs => ⟨v, le_refl v, ?_, fun _ _ => trivial⟩
  rcases Store.delete_allOrNothing name s.store with ⟨e, he⟩ | ⟨_, t, hd, -, rfl⟩
  · simp only [call, he]
    exact hs
  · simp only [call, hd]
    have sub := (Table.erase_sublist name s.store.definitions).subset
    exact ⟨fun p hp => hs.named p (sub hp), fun p hp => hs.tied p (sub hp), hs.unused⟩

theorem keeps_get (name : Text) (w : Ties) :
    Keeps (Tied clock) (fun v r => ∀ d, r = .ok d → v.Tied d ∧ d.name = name) (get name) w := by
  refine keeps_read fun v hv s hs x hx d hd => ?_
  have member := Table.mem_of_get? (Store.get_eq_ok.mp hd)
  exact ⟨(hs.tied _ member).later hx, (hs.named _ member).symm⟩

end SharedStore

end ScopedAggregation
