import ScopedAggregation.Definition.Scalar
import ScopedAggregation.Proofs.DecimalNumerals
import ScopedAggregation.Proofs.Success
import ScopedAggregation.Proofs.TableOrder
import ScopedAggregation.Proofs.ValueTree

namespace ScopedAggregation

/-- The keys of a document are in increasing order. -/
def Value.isSortedNode : Value → Bool
  | .document entries => (entries.map (·.1)).Pairwise (Text.lt · · = true)
  | _ => true

end ScopedAggregation

namespace ScopedAggregation.Definition

open Yaml (Node ScalarKind ScalarStyle)

/-- A string between double quotes. -/
def IsQuoted (node : Node) (s : Text) : Prop := ∃ line, node = .scalar line .str .doubleQuoted s

/-- The nodes that a value is written as, on any lines. There is none for a double. -/
inductive Represents : Node → Value → Prop
  | null {line : Nat} : Represents (.scalar line .null .plain (text "null")) .null
  | bool {line : Nat} {b : Bool} : Represents (.scalar line .bool .plain (Json.bool b)) (.bool b)
  | int {line : Nat} {i : Int64} : Represents (.scalar line .int .plain (Json.int i)) (.int i)
  | string {node : Node} {s : Text} (quoted : IsQuoted node s) : Represents node (.string s)
  | list {line : Nat} {items : List Node} {vs : List Value}
    (parts : List.Forall₂ Represents items vs) : Represents (.sequence line items) (.list vs)
  | document {line : Nat} {nodes : List (Node × Node)} {entries : List (Text × Value)}
    (keys : List.Forall₂ IsQuoted (nodes.map (·.1)) (entries.map (·.1)))
    (values : List.Forall₂ Represents (nodes.map (·.2)) (entries.map (·.2))) :
    Represents (.mapping line nodes) (.document entries)

mutual

/-- The nodes of a value on a single line. -/
def nodeOf : Value → Node
  | .null => .scalar 1 .null .plain (text "null")
  | .bool b => .scalar 1 .bool .plain (Json.bool b)
  | .int i => .scalar 1 .int .plain (Json.int i)
  | .double x => .scalar 1 .float .plain (x.write .document)
  | .string s => .scalar 1 .str .doubleQuoted s
  | .list items => .sequence 1 (nodesOf items)
  | .document entries => .mapping 1 (entryNodesOf entries)

def nodesOf : List Value → List Node
  | [] => []
  | v :: vs => nodeOf v :: nodesOf vs

def entryNodesOf : List (Text × Value) → List (Node × Node)
  | [] => []
  | (k, v) :: es => (.scalar 1 .str .doubleQuoted k, nodeOf v) :: entryNodesOf es

end

/-- Every value without doubles is written as nodes. -/
theorem represents_nodeOf {v : Value} (h : v.all (fun w => w.kind ≠ .double) = true) :
    Represents (nodeOf v) v := by
  induction v using Value.memberInduction with
  | null => exact .null
  | bool b => exact .bool
  | int i => exact .int
  | double x => simp [Value.all, Value.kind] at h
  | string s => exact .string ⟨1, rfl⟩
  | list items ih =>
    have hitems := (Value.all_list.mp h).2
    refine .list ?_
    clear h
    induction items with
    | nil => exact .nil
    | cons v items ihs =>
      obtain ⟨hv, hrest⟩ := List.forall_mem_cons.mp hitems
      exact .cons (ih v (by simp) hv) (ihs (fun w hw => ih w (List.mem_cons_of_mem v hw)) hrest)
  | document entries ih =>
    have hentries := (Value.all_document.mp h).2
    clear h
    rw [nodeOf]
    refine .document ?_ ?_
    · clear ih hentries
      induction entries with
      | nil => exact .nil
      | cons q entries ihs => exact .cons ⟨1, rfl⟩ ihs
    · induction entries with
      | nil => exact .nil
      | cons q entries ihs =>
        obtain ⟨hq, hrest⟩ := List.forall_mem_cons.mp hentries
        exact .cons (ih q (by simp) hq) (ihs (fun p hp => ih p (List.mem_cons_of_mem q hp)) hrest)

/-- A key and a value are written as an entry is. -/
def EntryRepresents (p : Node × Node) (q : Text × Value) : Prop :=
  p.1.value = q.1 ∧ Represents p.2 q.2

theorem entryRepresents_of {nodes : List (Node × Node)} {entries : List (Text × Value)}
    (keys : List.Forall₂ IsQuoted (nodes.map (·.1)) (entries.map (·.1)))
    (values : List.Forall₂ Represents (nodes.map (·.2)) (entries.map (·.2))) :
    List.Forall₂ EntryRepresents nodes entries := by
  apply (forall₂_of_parts keys values).imp
  rintro p q ⟨⟨line, hkey⟩, hvalue⟩
  refine ⟨?_, hvalue⟩
  rw [hkey]
  rfl

theorem represents_list {node : Node} {vs : List Value} (h : Represents node (.list vs)) :
    ∃ line items, node = .sequence line items ∧ List.Forall₂ Represents items vs := by
  cases h with
  | list parts => exact ⟨_, _, rfl, parts⟩

theorem represents_document {node : Node} {entries : List (Text × Value)}
    (h : Represents node (.document entries)) :
    ∃ line nodes, node = .mapping line nodes ∧ List.Forall₂ EntryRepresents nodes entries := by
  cases h with
  | document keys values => exact ⟨_, _, rfl, entryRepresents_of keys values⟩

theorem scalarData_bool (b : Bool) : scalarData .bool .plain (Json.bool b) = .bool b := by
  cases b with
  | true => rfl
  | false => rfl

theorem scalarData_int (i : Int64) : scalarData .int .plain (Json.int i) = .int i := by
  simp [scalarData, Numeral.scanInt?_int]

theorem keys_nodeEntries {anchored : Nat → Plain} {nodes : List (Node × Node)}
    {entries : List (Text × Value)} (h : List.Forall₂ EntryRepresents nodes entries) :
    (nodeEntries anchored nodes).map (·.1) = entries.map (·.1) := by
  induction h with
  | nil => rfl
  | @cons p q nodes entries hp _ ih =>
    obtain ⟨k, node⟩ := p
    rw [nodeEntries, List.map_cons, List.map_cons, ih]
    exact congrArg (· :: _) hp.1

theorem toValues_nodeItems {anchored : Nat → Plain} {items : List Node} {vs : List Value}
    (h : List.Forall₂ (fun node v => (nodeData anchored node).toValue = v) items vs) :
    Plain.toValues (nodeItems anchored items) = vs := by
  induction h with
  | nil => rfl
  | cons hv _ ih => rw [nodeItems, Plain.toValues, hv, ih]

theorem toEntries_nodeEntries {anchored : Nat → Plain} {nodes : List (Node × Node)}
    {entries : List (Text × Value)}
    (h : List.Forall₂ (fun p q => p.1.value = q.1 ∧ (nodeData anchored p.2).toValue = q.2)
      nodes entries) : Plain.toEntries (nodeEntries anchored nodes) = entries := by
  induction h with
  | nil => rfl
  | @cons p q nodes entries hq _ ih =>
    obtain ⟨k, node⟩ := p
    rw [nodeEntries, Plain.toEntries, ih, hq.1, hq.2]

/-- The data of the nodes of a value with sorted keys is that value. -/
theorem toValue_nodeData (anchored : Nat → Plain) {v : Value} :
    ∀ {node : Node}, Represents node v → v.all Value.isSortedNode = true →
      (nodeData anchored node).toValue = v := by
  induction v using Value.memberInduction with
  | null =>
    rintro node ⟨⟩ _
    rfl
  | bool b =>
    rintro node ⟨⟩ _
    rw [nodeData, scalarData_bool, Plain.toValue]
  | int i =>
    rintro node ⟨⟩ _
    rw [nodeData, scalarData_int, Plain.toValue]
  | double x => rintro node ⟨⟩
  | string s =>
    intro node h _
    cases h with
    | string quoted =>
      obtain ⟨line, rfl⟩ := quoted
      rfl
  | list items ih =>
    intro node h sorted
    obtain ⟨line, nodes, rfl, parts⟩ := represents_list h
    have hitems := (Value.all_list.mp sorted).2
    rw [nodeData, Plain.toValue, toValues_nodeItems]
    exact forall₂_imp_of_mem parts fun node v hv hr => ih v hv hr (hitems v hv)
  | document entries ih =>
    intro node h sorted
    obtain ⟨line, nodes, rfl, parts⟩ := represents_document h
    obtain ⟨hkeys, hentries⟩ := Value.all_document.mp sorted
    have hsorted : (entries.map (·.1)).Pairwise (Text.lt · · = true) := by
      simpa [Value.isSortedNode] using hkeys
    have hvalues : List.Forall₂
        (fun p q => p.1.value = q.1 ∧ (nodeData anchored p.2).toValue = q.2) nodes entries :=
      forall₂_imp_of_mem parts fun p q hq hr => ⟨hr.1, ih q hq hr.2 (hentries q hq)⟩
    have hnodes : ((nodeEntries anchored nodes).map (·.1)).Pairwise (Text.lt · · = true) := by
      rw [keys_nodeEntries parts]
      exact hsorted
    rw [nodeData, Table.ofList_of_sorted hnodes, Plain.toValue, toEntries_nodeEntries hvalues,
      Table.ofList_of_sorted hsorted]

end ScopedAggregation.Definition
