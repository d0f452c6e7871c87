import ScopedAggregation.Program
import Mathlib.Logic.Relation
import Mathlib.Order.Basic

namespace ScopedAggregation.Program

variable {σ τ α β W : Type}

/-- Programs under way over a shared state. -/
structure Pool (σ β : Type) where
  state : σ
  programs : List (Program σ β)

/-- One of the programs takes its next step, or one of those allowed begins. -/
inductive Pool.Next (allowed : Program σ β → Prop) : Pool σ β → Pool σ β → Prop
  | start {p : Program σ β} (h : allowed p) (s : σ) (programs : List (Program σ β)) :
    Next allowed ⟨s, programs⟩ ⟨s, p :: programs⟩
  | step (s : σ) (before after : List (Program σ β)) (change : σ → σ) (next : σ → Program σ β) :
    Next allowed ⟨s, before ++ .step change next :: after⟩ ⟨change s, before ++ next s :: after⟩

/-- The pools that a state can come to, in any interleaving. -/
def Pool.Reaches (allowed : Program σ β → Prop) (s : σ) (pool : Pool σ β) : Prop :=
  Relation.ReflTransGen (Pool.Next allowed) ⟨s, []⟩ pool

theorem run_bind (p : Program σ α) (f : α → Program σ β) (s : σ) :
    (p >>= f).run s = (f (p.run s).1).run (p.run s).2 := by
  induction p generalizing s with
  | done a => rfl
  | step change next ih => exact ih s (change s)

/-- A program may take all its remaining steps while the others wait. -/
theorem Pool.Reaches.run {allowed : Program σ β → Prop} {s t : σ} {p : Program σ β}
    {before after : List (Program σ β)} (h : Reaches allowed s ⟨t, before ++ p :: after⟩) :
    Reaches allowed s ⟨(p.run t).2, before ++ .done (p.run t).1 :: after⟩ := by
  induction p generalizing t with
  | done b => exact h
  | step change next ih => exact ih t (h.tail (.step t before after change next))

variable [Preorder W] {inv : W → σ → Prop} {post : W → α → Prop}

/-- From world `w` on, every step of the program keeps the invariant, in some later world, and its
result is as told. -/
def Keeps (inv : W → σ → Prop) (post : W → α → Prop) : Program σ α → W → Prop
  | .done a, w => ∀ v, w ≤ v → post v a
  | .step change next, w =>
    ∀ v, w ≤ v → ∀ s, inv v s → ∃ u, v ≤ u ∧ inv u (change s) ∧ Keeps inv post (next s) u

theorem Keeps.later {p : Program σ α} {w v : W} (h : Keeps inv post p w) (hv : w ≤ v) :
    Keeps inv post p v := by
  cases p with
  | done a => exact fun u hu => h u (hv.trans hu)
  | step change next => exact fun u hu => h u (hv.trans hu)

theorem Keeps.imp {q : W → α → Prop} {p : Program σ α} {w : W} (h : Keeps inv post p w)
    (hq : ∀ v a, post v a → q v a) : Keeps inv q p w := by
  induction p generalizing w with
  | done a => exact fun v hv => hq v a (h v hv)
  | step change next ih =>
    intro v hv s hs
    obtain ⟨u, hu, hinv, hnext⟩ := h v hv s hs
    exact ⟨u, hu, hinv, ih s hnext⟩

theorem Keeps.bind {q : W → β → Prop} {p : Program σ α} {f : α → Program σ β} {w : W}
    (h : Keeps inv post p w) (hf : ∀ v, w ≤ v → ∀ a, post v a → Keeps inv q (f a) v) :
    Keeps inv q (p >>= f) w := by
  induction p generalizing w with
  | done a => exact hf w (le_refl w) a (h w (le_refl w))
  | step change next ih =>
    intro v hv s hs
    obtain ⟨u, hu, hinv, hnext⟩ := h v hv s hs
    exact ⟨u, hu, hinv, ih s hnext fun x hx => hf x ((hv.trans hu).trans hx)⟩

/-- A program that takes all its steps keeps the invariant. -/
theorem Keeps.run {p : Program σ α} {w : W} {s : σ} (h : Keeps inv post p w) (hs : inv w s) :
    ∃ v, w ≤ v ∧ inv v (p.run s).2 := by
  induction p generalizing w s with
  | done a => exact ⟨w, le_refl w, hs⟩
  | step change next ih =>
    obtain ⟨u, hu, hinv, hnext⟩ := h w (le_refl w) s hs
    obtain ⟨v, hv, hrun⟩ := ih s hnext hinv
    exact ⟨v, hu.trans hv, hrun⟩

theorem keeps_pure {a : α} {w : W} (h : ∀ v, w ≤ v → post v a) :
    Keeps inv post (pure a : Program σ α) w := h

theorem keeps_atomic {f : σ → α × σ} {w : W}
    (h : ∀ v, w ≤ v → ∀ s, inv v s → ∃ u, v ≤ u ∧ inv u (f s).2 ∧ ∀ x, u ≤ x → post x (f s).1) :
    Keeps inv post (atomic f) w := h

theorem keeps_read {f : σ → α} {w : W}
    (h : ∀ v, w ≤ v → ∀ s, inv v s → ∀ x, v ≤ x → post x (f s)) : Keeps inv post (read f) w :=
  fun v hv s hs => ⟨v, le_refl v, hs, h v hv s hs⟩

/-- A change that the invariant does not mind. -/
theorem keeps_modify {f : σ → σ} {w : W} (h : ∀ v, w ≤ v → ∀ s, inv v s → inv v (f s)) :
    Keeps inv (fun _ _ => True) (modify f) w :=
  fun v hv s hs => ⟨v, le_refl v, h v hv s hs, fun _ _ => trivial⟩

/-- A program on a part of the state keeps what is told of the whole, if that lasts while the part
changes. -/
theorem Keeps.within {inner : W → τ → Prop} {part : σ → τ} {replace : σ → τ → σ}
    (hpart : ∀ v s, inv v s → inner v (part s))
    (hreplace : ∀ v u s t, v ≤ u → inv v s → inner u t → inv u (replace s t))
    {p : Program τ α} {w : W} (h : Keeps inner post p w) :
    Keeps inv post (p.within part replace) w := by
  induction p generalizing w with
  | done a => exact h
  | step change next ih =>
    intro v hv s hs
    obtain ⟨u, hu, hinner, hnext⟩ := h v hv (part s) (hpart v s hs)
    exact ⟨u, hu, hreplace v u s _ hu hs hinner, ih (part s) hnext⟩

theorem keeps_forEach {f : α → Program σ β} (hf : ∀ a w, Keeps inv (fun _ _ => True) (f a) w)
    (xs : List α) (w : W) : Keeps inv (fun _ _ => True) (forEach f xs) w := by
  induction xs generalizing w with
  | nil => exact keeps_pure fun _ _ => trivial
  | cons x xs ih =>
    refine (hf x w).bind fun v _ y _ => (ih v).bind fun u _ ys _ => ?_
    exact keeps_pure fun _ _ => trivial

/-- One step in the pool leads to a world in which the invariant holds and all programs still keep
it. -/
theorem Pool.Next.keeps {allowed : Program σ α → Prop}
    (starts : ∀ p, allowed p → ∀ w, Keeps inv post p w) {a b : Pool σ α} (hnext : Next allowed a b)
    {w : W} (hinv : inv w a.state) (hkeeps : ∀ p ∈ a.programs, Keeps inv post p w) :
    ∃ v, w ≤ v ∧ inv v b.state ∧ ∀ p ∈ b.programs, Keeps inv post p v := by
  cases hnext with
  | @start p h s programs =>
    exact ⟨w, le_refl w, hinv, List.forall_mem_cons.mpr ⟨starts p h w, hkeeps⟩⟩
  | step s before after change next =>
    obtain ⟨hbefore, hrest⟩ := List.forall_mem_append.mp hkeeps
    obtain ⟨hstep, hafter⟩ := List.forall_mem_cons.mp hrest
    -- The step may lead to a later world, where the programs that wait are as good as before.
    obtain ⟨v, hv, hchanged, hnext⟩ := hstep w (le_refl w) s hinv
    refine ⟨v, hv, hchanged, List.forall_mem_append.mpr ⟨?_, List.forall_mem_cons.mpr ⟨hnext, ?_⟩⟩⟩
    · exact fun p hp => (hbefore p hp).later hv
    · exact fun p hp => (hafter p hp).later hv

theorem Pool.Reaches.keeps {allowed : Program σ α → Prop}
    (starts : ∀ p, allowed p → ∀ w, Keeps inv post p w) {s : σ} {pool : Pool σ α}
    (hreaches : Reaches allowed s pool) {w : W} (hinv : inv w s) :
    ∃ v, w ≤ v ∧ inv v pool.state ∧ ∀ p ∈ pool.programs, Keeps inv post p v := by
  induction hreaches with
  | refl => exact ⟨w, le_refl w, hinv, by simp⟩
  | tail _ hnext ih =>
    obtain ⟨v, hv, hstate, hkeeps⟩ := ih
    obtain ⟨u, hu, hstate', hkeeps'⟩ := hnext.keeps starts hstate hkeeps
    exact ⟨u, hv.trans hu, hstate', hkeeps'⟩

/-- A result in the pool is as told, in any interleaving of programs that keep the invariant. -/
theorem Pool.Reaches.result {allowed : Program σ α → Prop}
    (starts : ∀ p, allowed p → ∀ w, Keeps inv post p w) {s : σ} {pool : Pool σ α}
    (hreaches : Reaches allowed s pool) {w : W} (hinv : inv w s) {a : α}
    (finished : .done a ∈ pool.programs) : ∃ v, w ≤ v ∧ post v a := by
  obtain ⟨v, hv, -, hkeeps⟩ := hreaches.keeps starts hinv
  exact ⟨v, hv, hkeeps _ finished v (le_refl v)⟩

end ScopedAggregation.Program
