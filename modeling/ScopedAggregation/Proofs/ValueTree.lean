import ScopedAggregation.Expr.Compile

namespace ScopedAggregation

theorem Value.eq_int_of_asInt {v : Value} {i : Int64} (h : v.asInt.toOption = some i) :
    v = .int i := by
  cases v with
  | int j =>
    cases h
    rfl
  | _ => cases h

theorem Value.eq_string_of_asString {v : Value} {s : Text} (h : v.asString.toOption = some s) :
    v = .string s := by
  cases v with
  | string t =>
    cases h
    rfl
  | _ => cases h

theorem Entries.mem_of_get? {k : Text} {v : Value} {es : Entries} (h : es.get? k = some v) :
    (k, v) ∈ es := by
  induction es with
  | nil => cases h
  | cons p es ih =>
    obtain ⟨l, w⟩ := p
    rw [Entries.get?] at h
    split at h
    next heq =>
      cases h
      rw [heq]
      exact List.mem_cons_self
    next => exact List.mem_cons_of_mem _ (ih h)

/-- What holds of a list or document once it holds of all its members holds of every value. -/
@[elab_as_elim]
theorem Value.memberInduction {motive : Value → Prop} (null : motive .null)
    (bool : ∀ b, motive (.bool b)) (int : ∀ i, motive (.int i)) (double : ∀ x, motive (.double x))
    (string : ∀ s, motive (.string s))
    (list : ∀ items, (∀ v ∈ items, motive v) → motive (.list items))
    (document : ∀ entries, (∀ p ∈ entries, motive p.2) → motive (.document entries)) (v : Value) :
    motive v :=
  @Value.rec motive (fun items => ∀ v ∈ items, motive v)
    (fun entries => ∀ p ∈ entries, motive p.2) (fun p => motive p.2)
    null bool int double string (fun items ih => list items ih)
    (fun entries ih => document entries ih) (by simp)
    (fun _ _ hv hvs => List.forall_mem_cons.mpr ⟨hv, hvs⟩) (by simp)
    (fun _ _ hp hps => List.forall_mem_cons.mpr ⟨hp, hps⟩) (fun _ _ hv => hv) v

mutual

/-- Tests a value and everything in it. -/
def Value.all (p : Value → Bool) : Value → Bool
  | .list items => p (.list items) && allItems p items
  | .document entries => p (.document entries) && allEntries p entries
  | v => p v

def allItems (p : Value → Bool) : List Value → Bool
  | [] => true
  | v :: vs => v.all p && allItems p vs

def allEntries (p : Value → Bool) : List (Text × Value) → Bool
  | [] => true
  | (_, v) :: es => v.all p && allEntries p es

end

theorem Value.all_list {p : Value → Bool} {items : List Value} :
    (Value.list items).all p = true ↔ p (.list items) = true ∧ ∀ v ∈ items, v.all p = true := by
  have hitems : ∀ vs, allItems p vs = true ↔ ∀ v ∈ vs, v.all p = true := by
    intro vs
    induction vs with
    | nil => simp [allItems]
    | cons v vs ih => simp [allItems, ih]
  rw [all, Bool.and_eq_true, hitems]

theorem Value.all_document {p : Value → Bool} {entries : List (Text × Value)} :
    (Value.document entries).all p = true ↔
      p (.document entries) = true ∧ ∀ q ∈ entries, q.2.all p = true := by
  have hentries : ∀ es, allEntries p es = true ↔ ∀ q ∈ es, q.2.all p = true := by
    intro es
    induction es with
    | nil => simp [allEntries]
    | cons q es ih =>
      obtain ⟨k, v⟩ := q
      rw [allEntries, Bool.and_eq_true, ih, List.forall_mem_cons]
  rw [all, Bool.and_eq_true, hentries]

mutual

/-- How deeply lists and documents nest in a value. -/
def Value.nesting : Value → Nat
  | .list items => nestingOfItems items + 1
  | .document entries => nestingOfEntries entries + 1
  | _ => 0

def nestingOfItems : List Value → Nat
  | [] => 0
  | v :: vs => max v.nesting (nestingOfItems vs)

def nestingOfEntries : List (Text × Value) → Nat
  | [] => 0
  | (_, v) :: es => max v.nesting (nestingOfEntries es)

end

theorem Value.nesting_item {items : List Value} {v : Value} (h : v ∈ items) :
    v.nesting < (Value.list items).nesting := by
  rw [nesting]
  induction items with
  | nil => simp at h
  | cons w items ih =>
    rw [nestingOfItems]
    rcases List.mem_cons.mp h with rfl | h
    · omega
    · have hv := ih h
      omega

theorem Value.nesting_entry {entries : List (Text × Value)} {q : Text × Value} (h : q ∈ entries) :
    q.2.nesting < (Value.document entries).nesting := by
  rw [nesting]
  induction entries with
  | nil => simp at h
  | cons p entries ih =>
    obtain ⟨k, w⟩ := p
    rw [nestingOfEntries]
    rcases List.mem_cons.mp h with rfl | h
    · exact Nat.lt_succ_of_le (Nat.le_max_left _ _)
    · have hv := ih h
      omega

theorem isReference_cons {b : UInt8} {rest : Text} :
    isReference (b :: rest) = true ↔ b = Ascii.dollar := by
  simp only [isReference, Text.startsWith, List.isPrefixOf_cons_cons, List.isPrefixOf_nil_left,
    Bool.and_true, beq_iff_eq]
  exact eq_comm

theorem holdsReferenceItems_eq_false {items : List Value} :
    holdsReferenceItems items = false ↔ ∀ v ∈ items, v.holdsReference = false := by
  induction items with
  | nil => simp [holdsReferenceItems]
  | cons v vs ih => simp [holdsReferenceItems, ih]

theorem holdsReferenceEntries_eq_false {entries : List (Text × Value)} :
    holdsReferenceEntries entries = false ↔
      ∀ p ∈ entries, isReference p.1 = false ∧ p.2.holdsReference = false := by
  induction entries with
  | nil => simp [holdsReferenceEntries]
  | cons p ps ih =>
    obtain ⟨k, v⟩ := p
    simp [holdsReferenceEntries, ih, and_assoc]

end ScopedAggregation
