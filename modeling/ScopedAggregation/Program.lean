namespace ScopedAggregation

/-- A program over a shared state: it is done, or it takes a step, which changes the state and goes
on by what it saw before the change. -/
inductive Program (σ α : Type) where
  | done (a : α)
  | step (change : σ → σ) (next : σ → Program σ α)

namespace Program

variable {σ τ α β : Type}

def bind : Program σ α → (α → Program σ β) → Program σ β
  | .done a, f => f a
  | .step change next, f => .step change fun s => bind (next s) f

instance : Monad (Program σ) where
  pure := .done
  bind := bind

/-- One step that gives a result and a new state. -/
def atomic (f : σ → α × σ) : Program σ α := .step (fun s => (f s).2) fun s => .done (f s).1

/-- One step that only looks. -/
def read (f : σ → α) : Program σ α := .step id fun s => .done (f s)

/-- One step that only changes the state. -/
def modify (f : σ → σ) : Program σ Unit := .step f fun _ => .done ()

/-- A program on a part of the state. -/
def within (part : σ → τ) (replace : σ → τ → σ) : Program τ α → Program σ α
  | .done a => .done a
  | .step change next =>
    .step (fun s => replace s (change (part s))) fun s => within part replace (next (part s))

/-- Takes all steps of a program, with none of another between them. -/
def run : Program σ α → σ → α × σ
  | .done a, s => (a, s)
  | .step change next, s => run (next s) (change s)

/-- The results of programs for all items of a list, in order. -/
def forEach (f : α → Program σ β) : List α → Program σ (List β)
  | [] => .done []
  | x :: xs => do
    let y ← f x
    let ys ← forEach f xs
    pure (y :: ys)

end Program

end ScopedAggregation
