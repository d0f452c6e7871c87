import Mathlib.Data.List.Perm.Subperm
import ScopedAggregation.Definition.Scalar
import ScopedAggregation.Proofs.Success

namespace ScopedAggregation

open Yaml (Node Document)

mutual

/-- The numbers of the anchored nodes that the aliases in a node refer to. -/
def Yaml.Node.targets : Node → List Nat
  | .scalar .. => []
  | .sequence _ items => itemTargets items
  | .mapping _ entries => entryTargets entries
  | .backReference _ _ target => [target]

def itemTargets : List Node → List Nat
  | [] => []
  | n :: ns => n.targets ++ itemTargets ns

def entryTargets : List (Node × Node) → List Nat
  | [] => []
  | (_, n) :: ns => n.targets ++ entryTargets ns

end

theorem mem_itemTargets {items : List Node} {t : Nat} :
    t ∈ itemTargets items ↔ ∃ n ∈ items, t ∈ n.targets := by
  induction items with
  | nil => simp [itemTargets]
  | cons n items ih => simp [itemTargets, ih]

theorem mem_entryTargets {entries : List (Node × Node)} {t : Nat} :
    t ∈ entryTargets entries ↔ ∃ p ∈ entries, t ∈ p.2.targets := by
  induction entries with
  | nil => simp [entryTargets]
  | cons p entries ih => simp [entryTargets, ih]

namespace Definition

section

variable {A B : Nat → Plain}

mutual

/-- Only the data of what its aliases refer to matters to a node. -/
theorem nodeData_congr : ∀ n : Node, (∀ t ∈ n.targets, A t = B t) → nodeData A n = nodeData B n
  | .scalar .., _ => by simp only [nodeData]
  | .sequence _ items, h => by
    simp only [nodeData]
    rw [nodeItems_congr items h]
  | .mapping _ entries, h => by
    simp only [nodeData]
    rw [nodeEntries_congr entries h]
  | .backReference _ _ target, h => by
    simp only [nodeData]
    exact h target (by simp [Node.targets])

theorem nodeItems_congr :
    ∀ items : List Node, (∀ t ∈ itemTargets items, A t = B t) → nodeItems A items = nodeItems B items
  | [], _ => rfl
  | n :: ns, h => by
    obtain ⟨here, rest⟩ := List.forall_mem_append.mp h
    simp only [nodeItems]
    rw [nodeData_congr n here, nodeItems_congr ns rest]

theorem nodeEntries_congr : ∀ entries : List (Node × Node), (∀ t ∈ entryTargets entries, A t = B t) →
    nodeEntries A entries = nodeEntries B entries
  | [], _ => rfl
  | (k, n) :: ns, h => by
    obtain ⟨here, rest⟩ := List.forall_mem_append.mp h
    simp only [nodeEntries]
    rw [nodeData_congr n here, nodeEntries_congr ns rest]

end

theorem nodeItems_eq_map (items : List Node) : nodeItems A items = items.map (nodeData A) := by
  induction items with
  | nil => rfl
  | cons n items ih => rw [nodeItems, ih, List.map_cons]

theorem nodeEntries_eq_map (entries : List (Node × Node)) :
    nodeEntries A entries = entries.map fun p => (p.1.value, nodeData A p.2) := by
  induction entries with
  | nil => rfl
  | cons p entries ih => rw [nodeEntries, ih, List.map_cons]

end

variable {d d' : Document}

/-- From the anchored node of the number no more than `k` aliases follow each other, and all of them
are found. -/
def Settled (d : Document) : Nat → Nat → Prop
  | 0, _ => False
  | k + 1, t => ∃ node, d.node? t = some node ∧ ∀ u ∈ node.targets, Settled d k u

theorem Settled.mono {k l t : Nat} (h : Settled d k t) (hle : k ≤ l) : Settled d l t := by
  induction k generalizing l t with
  | zero => exact h.elim
  | succ k ih =>
    obtain ⟨node, found, below⟩ := h
    obtain ⟨l, rfl⟩ : ∃ l', l = l' + 1 := ⟨l - 1, by omega⟩
    exact ⟨node, found, fun u hu => ih (below u hu) (by omega)⟩

theorem anchoredData_settled {k l t : Nat} (h : Settled d k t) (hle : k ≤ l) :
    anchoredData d l t = anchoredData d k t := by
  induction k generalizing l t with
  | zero => exact h.elim
  | succ k ih =>
    obtain ⟨node, found, below⟩ := h
    obtain ⟨l, rfl⟩ : ∃ l', l = l' + 1 := ⟨l - 1, by omega⟩
    simp only [anchoredData, found]
    exact nodeData_congr node fun u hu => ih (below u hu) (by omega)

theorem mem_anchored {t : Nat} {node : Node} (h : d.node? t = some node) :
    t ∈ d.anchored.map (·.1) := by
  obtain ⟨p, hp, -⟩ := Option.map_eq_some_iff.mp h
  have ht : p.1 = t := by simpa using List.find?_some hp
  exact ht ▸ List.mem_map_of_mem (List.mem_of_find?_eq_some hp)

/-- A number that needs `k + 1` levels is at the end of a chain of so many different numbers. -/
theorem settled_chain {k t : Nat} (h : Settled d (k + 1) t) (late : ¬ Settled d k t) :
    ∃ chain : List Nat, chain.length = k + 1 ∧ chain.Nodup ∧
      ∀ u ∈ chain, u ∈ d.anchored.map (·.1) ∧ Settled d (k + 1) u := by
  induction k generalizing t with
  | zero =>
    obtain ⟨node, found, -⟩ := id h
    exact ⟨[t], rfl, by simp, List.forall_mem_singleton.mpr ⟨mem_anchored found, h⟩⟩
  | succ k ih =>
    obtain ⟨node, found, below⟩ := id h
    obtain ⟨u, hu, hdeep⟩ : ∃ u ∈ node.targets, ¬ Settled d k u := by
      by_contra hnone
      refine late ⟨node, found, fun u hu => ?_⟩
      by_contra hdeep
      exact hnone ⟨u, hu, hdeep⟩
    obtain ⟨chain, hlength, hnodup, hchain⟩ := ih (below u hu) hdeep
    -- The number itself is settled later than the whole chain below it.
    have hnew : t ∉ chain := fun hmem => late (hchain t hmem).2
    refine ⟨t :: chain, by rw [List.length_cons, hlength], List.nodup_cons.mpr ⟨hnew, hnodup⟩, ?_⟩
    refine List.forall_mem_cons.mpr ⟨⟨mem_anchored found, h⟩, ?_⟩
    intro v hv
    exact ⟨(hchain v hv).1, (hchain v hv).2.mono (by omega)⟩

theorem Settled.within {k t : Nat} (h : Settled d k t) : Settled d d.anchored.length t := by
  induction k with
  | zero => exact h.elim
  | succ k ih =>
    by_cases hk : Settled d k t
    · exact ih hk
    · obtain ⟨chain, hlength, hnodup, hchain⟩ := settled_chain h hk
      have hle := (List.subperm_of_subset hnodup fun u hu => (hchain u hu).1).length_le
      rw [hlength, List.length_map] at hle
      exact h.mono hle

/-- A settled alias has the data of its node. -/
theorem anchoredData_eq {k t : Nat} {node : Node} (h : Settled d k t) (found : d.node? t = some node) :
    anchoredData d d.anchored.length t = dataOf d node := by
  have within := h.within
  unfold dataOf
  generalize d.anchored.length = n at within
  cases n with
  | zero => exact within.elim
  | succ n =>
    obtain ⟨node', found', below⟩ := within
    cases found.symm.trans found'
    have hnode : anchoredData d (n + 1) t = nodeData (anchoredData d n) node := by
      simp only [anchoredData, found]
    rw [hnode]
    exact nodeData_congr node fun u hu => (anchoredData_settled (below u hu) (by omega)).symm

/-- The nodes are the same once all their aliases are followed, in the one document and in the other.
Nodes that contain themselves are not. -/
inductive Copied (d d' : Document) : Node → Node → Prop
  | scalar {line line' : Nat} {kind : Yaml.ScalarKind} {style : Yaml.ScalarStyle} {s : Text} :
    Copied d d' (.scalar line kind style s) (.scalar line' kind style s)
  | sequence {line line' : Nat} {items items' : List Node} (length : items.length = items'.length)
    (h : ∀ n n', (n, n') ∈ items.zip items' → Copied d d' n n') :
    Copied d d' (.sequence line items) (.sequence line' items')
  | mapping {line line' : Nat} {entries entries' : List (Node × Node)}
    (keys : entries.map (·.1.value) = entries'.map (·.1.value))
    (h : ∀ n n', (n, n') ∈ (entries.map (·.2)).zip (entries'.map (·.2)) → Copied d d' n n') :
    Copied d d' (.mapping line entries) (.mapping line' entries')
  | left {line target : Nat} {name : Text} {node node' : Node} (found : d.node? target = some node)
    (h : Copied d d' node node') : Copied d d' (.backReference line name target) node'
  | right {line target : Nat} {name : Text} {node node' : Node} (found : d'.node? target = some node')
    (h : Copied d d' node node') : Copied d d' node (.backReference line name target)

section

variable {entries entries' : List (Node × Node)}

theorem length_values (keys : entries.map (·.1.value) = entries'.map (·.1.value)) :
    (entries.map (·.2)).length = (entries'.map (·.2)).length := by
  have length := congrArg List.length keys
  simpa using length

theorem entries_ext {α : Type} {f g : Node → α}
    (keys : entries.map (·.1.value) = entries'.map (·.1.value))
    (values : (entries.map (·.2)).map f = (entries'.map (·.2)).map g) :
    (entries.map fun p => (p.1.value, f p.2)) = entries'.map fun p => (p.1.value, g p.2) := by
  have hzip : ∀ (h : Node → α) (es : List (Node × Node)), (es.map fun p => (p.1.value, h p.2)) =
      (es.map (·.1.value)).zip ((es.map (·.2)).map h) := by
    intro h es
    induction es with
    | nil => rfl
    | cons p es ih => simp [ih]
  rw [hzip, hzip, keys, values]

end

theorem Copied.symm {n n' : Node} (h : Copied d d' n n') : Copied d' d n' n := by
  induction h with
  | scalar => exact .scalar
  | sequence length _ ih =>
    obtain ⟨-, h⟩ := List.forall₂_iff_zip.mp (List.forall₂_iff_zip.mpr ⟨length, @ih⟩).flip
    exact .sequence length.symm fun n n' => @h n n'
  | mapping keys _ ih =>
    have length := length_values keys
    obtain ⟨-, h⟩ := List.forall₂_iff_zip.mp (List.forall₂_iff_zip.mpr ⟨length, @ih⟩).flip
    exact .mapping keys.symm fun n n' => @h n n'
  | left found _ ih => exact .right found ih
  | right found _ ih => exact .left found ih

theorem exists_settled {ts : List Nat} (h : ∀ t ∈ ts, ∃ k, Settled d k t) :
    ∃ k, ∀ t ∈ ts, Settled d k t := by
  induction ts with
  | nil => exact ⟨0, by simp⟩
  | cons t ts ih =>
    obtain ⟨⟨k, hk⟩, hrest⟩ := List.forall_mem_cons.mp h
    obtain ⟨l, hl⟩ := ih hrest
    refine ⟨max k l, List.forall_mem_cons.mpr ⟨hk.mono (by omega), ?_⟩⟩
    intro u hu
    exact (hl u hu).mono (by omega)

theorem Copied.settled {n n' : Node} (h : Copied d d' n n') :
    ∀ t ∈ n.targets, ∃ k, Settled d k t := by
  induction h with
  | scalar => simp [Node.targets]
  | sequence length _ ih =>
    intro t ht
    obtain ⟨n, hn, ht⟩ := mem_itemTargets.mp ht
    obtain ⟨n', -, h⟩ := forall₂_mem_left (List.forall₂_iff_zip.mpr ⟨length, @ih⟩) hn
    exact h t ht
  | mapping keys _ ih =>
    intro t ht
    obtain ⟨p, hp, ht⟩ := mem_entryTargets.mp ht
    obtain ⟨n', -, h⟩ := forall₂_mem_left
      (List.forall₂_iff_zip.mpr ⟨length_values keys, @ih⟩) (List.mem_map_of_mem hp)
    exact h t ht
  | @left line target name node node' found _ ih =>
    obtain ⟨k, hk⟩ := exists_settled ih
    intro t ht
    cases List.mem_singleton.mp ht
    exact ⟨k + 1, node, found, hk⟩
  | right _ _ ih => exact ih

/-- Copies have the same data. -/
theorem dataOf_copied {n n' : Node} (h : Copied d d' n n') : dataOf d n = dataOf d' n' := by
  induction h with
  | scalar => simp only [dataOf, nodeData]
  | sequence length _ ih =>
    have items := forall₂_map_eq (List.forall₂_iff_zip.mpr ⟨length, @ih⟩) fun _ _ h => h
    simp only [dataOf, nodeData, nodeItems_eq_map]
    exact congrArg Plain.list items
  | mapping keys _ ih =>
    have values := forall₂_map_eq (List.forall₂_iff_zip.mpr ⟨length_values keys, @ih⟩) fun _ _ h => h
    simp only [dataOf, nodeData, nodeEntries_eq_map]
    exact congrArg (fun es => Plain.map (Table.ofList es)) (entries_ext keys values)
  | @left line target name node node' found h ih =>
    obtain ⟨k, hk⟩ := exists_settled h.settled
    have settled : Settled d (k + 1) target := ⟨node, found, hk⟩
    rw [← ih, ← anchoredData_eq settled found]
    simp only [dataOf, nodeData]
  | @right line target name node node' found h ih =>
    obtain ⟨k, hk⟩ := exists_settled h.symm.settled
    have settled : Settled d' (k + 1) target := ⟨node', found, hk⟩
    rw [ih, ← anchoredData_eq settled found]
    simp only [dataOf, nodeData]

end Definition

end ScopedAggregation
