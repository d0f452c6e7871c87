import ScopedAggregation.Scope
import ScopedAggregation.Proofs.Success
import Mathlib.Tactic.Common

namespace ScopedAggregation

/-- The first segment of a dotted name. -/
abbrev Text.head (name : Text) : Text := (Text.splitHead name).1

/-- What follows the first segment of a dotted name, with the dot. -/
abbrev Text.rest (name : Text) : Text := (Text.splitHead name).2

theorem Text.head_append_rest (name : Text) : name.head ++ name.rest = name :=
  List.takeWhile_append_dropWhile

namespace Fields

theorem find?_distinct (name : Text) (fs : List Field) :
    (distinct fs).find? (·.name = name) = fs.find? (·.name = name) := by
  induction fs with
  | nil => rfl
  | cons f fs ih =>
    simp only [distinct]
    by_cases hf : f.name = name
    · simp [hf]
    · rw [List.find?_cons_of_neg (by simpa using hf), List.find?_cons_of_neg (by simpa using hf),
        List.find?_filter, ← ih]
      congr 1
      funext g
      by_cases hg : g.name = name
      · simp [hg, Ne.symm hf]
      · simp [hg]

theorem lookup?_ofList (name : Text) (fs : List Field) :
    (ofList fs).lookup? name = fs.find? (·.name = name) :=
  find?_distinct name fs

theorem nodup_distinct (fs : List Field) : ((distinct fs).map (·.name)).Nodup := by
  induction fs with
  | nil => exact List.nodup_nil
  | cons f fs ih =>
    simp only [distinct, List.map_cons, List.nodup_cons]
    refine ⟨?_, ih.sublist (List.filter_sublist.map _)⟩
    intro hf
    obtain ⟨g, hg, he⟩ := List.mem_map.mp hf
    have hne := (List.mem_filter.mp hg).2
    exact absurd he (by simpa using hne)

theorem distinct_eq_self {fs : List Field} (h : (fs.map (·.name)).Nodup) :
    distinct fs = fs := by
  induction fs with
  | nil => rfl
  | cons f fs ih =>
    rw [List.map_cons, List.nodup_cons] at h
    have hother : ∀ g ∈ fs, decide (g.name ≠ f.name) = true := by
      intro g hg
      refine decide_eq_true ?_
      intro heq
      exact h.1 (heq ▸ List.mem_map_of_mem hg)
    rw [distinct, ih h.2, List.filter_eq_self.mpr hother]

theorem lookup?_eq_none {name : Text} {s : Fields} : s.lookup? name = none ↔ name ∉ s.names := by
  unfold lookup? names
  rw [List.find?_eq_none]
  constructor
  · intro h hn
    obtain ⟨f, hf, rfl⟩ := List.mem_map.mp hn
    exact h f hf (by simp)
  · intro h f hf he
    rw [decide_eq_true_eq] at he
    exact h (he ▸ List.mem_map_of_mem hf)

theorem contains_eq_false {name : Text} {s : Fields} :
    s.contains name = false ↔ name ∉ s.names := by
  rw [contains, Option.isSome_eq_false_iff, Option.isNone_iff_eq_none, lookup?_eq_none]

theorem mem_names_ofList {name : Text} {fs : List Field} :
    name ∈ (ofList fs).names ↔ name ∈ fs.map (·.name) := by
  rw [← not_iff_not, ← contains_eq_false, contains, lookup?_ofList, Option.isSome_eq_false_iff,
    Option.isNone_iff_eq_none, List.find?_eq_none]
  simp

/-- A name among plain names stands for itself. -/
theorem lookup?_ofNames_of_mem {name : Text} {names : List Text} (h : name ∈ names) :
    (ofNames names).lookup? name = some (Field.ofName name) := by
  rw [ofNames, lookup?_ofList]
  induction names with
  | nil => simp at h
  | cons n names ih =>
    by_cases hn : (Field.ofName n).name = name
    · rw [List.map_cons, List.find?_cons_of_pos (by simpa using hn), ← hn]
      rfl
    · rw [List.map_cons, List.find?_cons_of_neg (by simpa using hn)]
      exact ih ((List.mem_cons.mp h).resolve_left (Ne.symm hn))

theorem lookup?_ofNames_of_notMem {name : Text} {names : List Text} (h : name ∉ names) :
    (ofNames names).lookup? name = none := by
  rw [ofNames, lookup?_ofList, List.find?_eq_none]
  intro f hf
  obtain ⟨n, hn, rfl⟩ := List.mem_map.mp hf
  rw [decide_eq_true_eq]
  rintro rfl
  exact h hn

end Fields

namespace Context

/-- The field of the nearest scope that exposes a first segment. -/
def nearest? (head : Text) : Context → Option Field
  | .root => none
  | .restricted _ => none
  | .child _ fields parent => (fields.lookup? head).or (parent.nearest? head)

/-- Some scope of the chain hides the document. -/
def hidesDocument : Context → Bool
  | .root => false
  | .restricted _ => false
  | .child exposure _ parent => exposure = .synthetic || parent.hidesDocument

/-- The path into the document that the root reads a name as. -/
def documentPath? (name : Text) : Context → Option Text
  | .root => some name
  | .restricted fields => (fields.lookup? name.head).map fun f => f.target ++ name.rest
  | .child _ _ parent => parent.documentPath? name

/-- What a name can resolve to. -/
inductive Resolves (ctx : Context) (name : Text) : Resolution → Prop
  | exposed {f : Field} (nearest : ctx.nearest? name.head = some f) :
    Resolves ctx name ⟨.variable, name, f.target ++ name.rest⟩
  | system (unexposed : ctx.nearest? name.head = none)
    (system : systemVariables.contains name.head = true) : Resolves ctx name ⟨.variable, name, name⟩
  | document {path : Text} (unexposed : ctx.nearest? name.head = none)
    (ordinary : systemVariables.contains name.head = false) (shown : ctx.hidesDocument = false)
    (reads : ctx.documentPath? name = some path) : Resolves ctx name ⟨.field, name, path⟩

theorem resolves_of_resolveAtRoot {ctx : Context} {restriction : Option Fields} {name : Text}
    {r : Resolution} (unexposed : ctx.nearest? name.head = none) (shown : ctx.hidesDocument = false)
    (reads : ctx.documentPath? name = match restriction with
      | none => some name
      | some fields => (fields.lookup? name.head).map fun f => f.target ++ name.rest)
    (h : resolveAtRoot restriction name = .ok r) : name ≠ [] ∧ ctx.Resolves name r := by
  unfold resolveAtRoot at h
  split at h
  next => cases h
  next hn =>
    refine ⟨hn, ?_⟩
    simp only at h
    split at h
    next hs =>
      cases h
      exact .system unexposed hs
    next hs =>
      have hs' : systemVariables.contains name.head = false := by simpa using hs
      split at h
      next =>
        cases h
        exact .document unexposed hs' shown reads
      next fields =>
        split at h
        next f hf =>
          cases h
          refine .document unexposed hs' shown (reads.trans ?_)
          simp only [hf, Option.map_some]
        next => cases h

/-- The nearest scope that exposes the first segment decides, whatever the others hide. -/
theorem resolve_nearest {ctx : Context} {name : Text} {f : Field} (hn : name ≠ [])
    (h : ctx.nearest? name.head = some f) :
    ctx.resolve name = .ok ⟨.variable, name, f.target ++ name.rest⟩ := by
  induction ctx with
  | root => cases h
  | restricted fields => cases h
  | child exposure fields parent ih =>
    simp only [resolve, if_neg hn]
    cases hf : fields.lookup? name.head with
    | some g =>
      rw [nearest?, hf, Option.some_or] at h
      cases Option.some.inj h
      rfl
    | none =>
      rw [nearest?, hf, Option.none_or] at h
      simp only [ih h, ok_bind, reduceCtorEq, decide_false, Bool.and_false, Bool.false_eq_true,
        if_false]
      rfl

theorem resolve_ok {ctx : Context} {name : Text} {r : Resolution}
    (h : ctx.resolve name = .ok r) : name ≠ [] ∧ ctx.Resolves name r := by
  induction ctx generalizing r with
  | root => exact resolves_of_resolveAtRoot rfl rfl rfl h
  | restricted fields => exact resolves_of_resolveAtRoot rfl rfl rfl h
  | child exposure fields parent ih =>
    simp only [resolve] at h
    split at h
    next => cases h
    next hn =>
      refine ⟨hn, ?_⟩
      split at h
      next f hf =>
        cases h
        exact .exposed (by simp [nearest?, hf])
      next hf =>
        obtain ⟨r', hr, h⟩ := bind_eq_ok.mp h
        split at h
        next => cases h
        next hkind =>
          cases h
          have pass : (child exposure fields parent).nearest? name.head =
              parent.nearest? name.head := by simp [nearest?, hf]
          cases (ih hr).2 with
          | exposed nearest => exact .exposed (pass.trans nearest)
          | system unexposed system => exact .system (pass.trans unexposed) system
          | document unexposed ordinary shown reads =>
            refine .document (pass.trans unexposed) ordinary ?_ reads
            simpa [hidesDocument, shown] using hkind

end Context

end ScopedAggregation
