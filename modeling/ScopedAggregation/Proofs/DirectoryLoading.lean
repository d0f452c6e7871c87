import ScopedAggregation.Proofs.WritableStates

namespace ScopedAggregation

/-- A visible file with the ending of definitions, in any case, and with the name of one. -/
def DirectoryEntry.IsEligible (file : Text) (entry : DirectoryEntry) : Prop :=
  entry ≠ .directory ∧ Path.isHidden file = false ∧
    Text.lowerCase (Path.ending file) ∈ definitionEndings ∧
    DefinitionName.check (Path.stem file) = .ok ()

instance (file : Text) (entry : DirectoryEntry) : Decidable (entry.IsEligible file) :=
  inferInstanceAs (Decidable (_ ∧ _ ∧ _ ∧ _))

/-- The source in an entry that can be read and parsed. -/
def DirectoryEntry.source? : DirectoryEntry → Option Text
  | .file content => if (Definition.parse content).isOk then some content else none
  | _ => none

theorem DirectoryEntry.source?_eq_some {entry : DirectoryEntry} {source : Text} :
    entry.source? = some source ↔
      entry = .file source ∧ (Definition.parse source).isOk = true := by
  cases entry with
  | file content =>
    rw [source?]
    split
    next ok =>
      rw [Option.some_inj, DirectoryEntry.file.injEq]
      exact ⟨fun h => ⟨h, h ▸ ok⟩, And.left⟩
    next bad =>
      refine ⟨nofun, fun ⟨h, ok⟩ => ?_⟩
      rw [DirectoryEntry.file.injEq] at h
      exact absurd (h ▸ ok) bad
  | unreadable reason | directory => simp [source?]

namespace Directory

/-- The first entry that may give the definition of a name. -/
def first? (name : Text) (dir : Directory) : Option (Text × DirectoryEntry) :=
  dir.find? fun p => decide (p.2.IsEligible p.1 ∧ Path.stem p.1 = name)

/-- The source that a directory has for a name. -/
def source? (name : Text) (dir : Directory) : Option Text :=
  (first? name dir).bind (·.2.source?)

variable {dir : Directory} {file name : Text} {entry : DirectoryEntry}

/-- The entry decides what becomes of a name: of those that may give its definition, it has the least
file name. -/
def Decides (dir : Directory) (name file : Text) (entry : DirectoryEntry) : Prop :=
  (file, entry) ∈ dir ∧ entry.IsEligible file ∧ Path.stem file = name ∧
    ∀ p ∈ dir, p.2.IsEligible p.1 → Path.stem p.1 = name → Text.le file p.1 = true

instance (dir : Directory) (name file : Text) (entry : DirectoryEntry) :
    Decidable (dir.Decides name file entry) :=
  inferInstanceAs (Decidable (_ ∧ _ ∧ _ ∧ _))

/-- Some entry may give the definition of a name. -/
def HasFile (dir : Directory) (name : Text) : Prop :=
  ∃ p ∈ dir, p.2.IsEligible p.1 ∧ Path.stem p.1 = name

instance (dir : Directory) (name : Text) : Decidable (dir.HasFile name) :=
  inferInstanceAs (Decidable (∃ p ∈ dir, _))

theorem of_first? (h : first? name dir = some (file, entry)) :
    entry.IsEligible file ∧ Path.stem file = name := by
  simpa using List.find?_some h

theorem first?_eq_none : first? name dir = none ↔ ¬ dir.HasFile name := by
  simp [first?, HasFile]

theorem source?_eq_none_of_not_hasFile (h : ¬ dir.HasFile name) : source? name dir = none := by
  rw [source?, first?_eq_none.mpr h, Option.bind_none]

theorem hasFile_of_source? {source : Text} (h : source? name dir = some source) : dir.HasFile name := by
  by_contra hno
  rw [source?_eq_none_of_not_hasFile hno] at h
  cases h

theorem first?_eq_some (sorted : dir.IsSorted) :
    first? name dir = some (file, entry) ↔ dir.Decides name file entry := by
  constructor
  · intro h
    obtain ⟨found, before, after, rfl, earlier⟩ := List.find?_eq_some_iff_append.mp h
    obtain ⟨eligible, hstem⟩ := of_decide_eq_true found
    refine ⟨by simp, eligible, hstem, fun p hp hp' hname => ?_⟩
    rcases List.mem_append.mp hp with hp | hp
    · simpa [hp', hname] using earlier p hp
    · rcases List.mem_cons.mp hp with rfl | hp
      · exact Text.le_refl _
      · exact Text.le_of_lt (sorted.lt_of_append p hp)
  · rintro ⟨hmem, eligible, hstem, least⟩
    cases h : first? name dir with
    | none => exact absurd ⟨_, hmem, eligible, hstem⟩ (first?_eq_none.mp h)
    | some q =>
      obtain ⟨found, before, after, rfl, earlier⟩ := List.find?_eq_some_iff_append.mp h
      obtain ⟨eligible', hstem'⟩ := of_decide_eq_true found
      rcases List.mem_append.mp hmem with hmem | hmem
      · simpa [eligible, hstem] using earlier _ hmem
      · rcases List.mem_cons.mp hmem with rfl | hmem
        · rfl
        · have hlt := sorted.lt_of_append _ hmem
          have hle := least q (by simp) eligible' hstem'
          simp [Text.lt, hle] at hlt

theorem source?_eq_some (sorted : dir.IsSorted) {source : Text} :
    source? name dir = some source ↔
      ∃ file, dir.Decides name file (.file source) ∧ (Definition.parse source).isOk = true := by
  rw [source?, Option.bind_eq_some_iff]
  constructor
  · rintro ⟨⟨file, entry⟩, hfirst, hsource⟩
    obtain ⟨rfl, parsed⟩ := DirectoryEntry.source?_eq_some.mp hsource
    exact ⟨file, (first?_eq_some sorted).mp hfirst, parsed⟩
  · rintro ⟨file, decides, parsed⟩
    exact ⟨_, (first?_eq_some sorted).mpr decides, DirectoryEntry.source?_eq_some.mpr ⟨rfl, parsed⟩⟩

/-- An entry that gives no definition, or that comes after another for its name, decides nothing. -/
theorem first?_append_of_skipped (done : Directory)
    (skipped : entry.IsEligible file → (first? (Path.stem file) done).isSome = true) (n : Text) :
    first? n (done ++ [(file, entry)]) = first? n done := by
  rw [first?, List.find?_append, ← first?]
  by_cases here : entry.IsEligible file ∧ Path.stem file = n
  · obtain ⟨eligible, rfl⟩ := here
    obtain ⟨p, hp⟩ := Option.isSome_iff_exists.mp (skipped eligible)
    rw [hp, Option.some_or]
  · rw [List.find?_singleton]
    simp [here]

theorem first?_append_of_new {done : Directory} (eligible : entry.IsEligible file)
    (new : first? (Path.stem file) done = none) (n : Text) :
    first? n (done ++ [(file, entry)]) =
      if n = Path.stem file then some (file, entry) else first? n done := by
  rw [first?, List.find?_append, ← first?, List.find?_singleton]
  by_cases here : n = Path.stem file
  · subst here
    simp [new, eligible]
  · simp [here, Ne.symm here]

theorem source?_append_of_skipped (done : Directory)
    (skipped : entry.IsEligible file → (first? (Path.stem file) done).isSome = true) (n : Text) :
    source? n (done ++ [(file, entry)]) = source? n done := by
  rw [source?, first?_append_of_skipped done skipped, ← source?]

theorem source?_append_of_new {done : Directory} (eligible : entry.IsEligible file)
    (new : first? (Path.stem file) done = none) (n : Text) :
    source? n (done ++ [(file, entry)]) =
      if n = Path.stem file then entry.source? else source? n done := by
  rw [source?, first?_append_of_new eligible new]
  split <;> rfl

end Directory

/-- The second state has the definitions, the database and the marks of the first one. -/
def ServiceState.Alike (s t : ServiceState) : Prop :=
  t.shared.store = s.shared.store ∧ t.fromDirectory = s.fromDirectory

namespace ServiceState.Alike

variable {s t u : ServiceState}

theorem refl (s : ServiceState) : s.Alike s := ⟨rfl, rfl⟩

theorem trans (hst : s.Alike t) (htu : t.Alike u) : s.Alike u :=
  ⟨htu.1.trans hst.1, htu.2.trans hst.2⟩

theorem entry (h : s.Alike t) (n : Text) : t.entry n = s.entry n := by
  rw [ServiceState.entry, h.1, ← ServiceState.entry]

theorem isMarked (h : s.Alike t) (n : Text) : t.isMarked n = s.isMarked n := by
  rw [ServiceState.isMarked, h.2, ← ServiceState.isMarked]

end ServiceState.Alike

namespace Service

open Directory (first? source? first?_append_of_skipped first?_append_of_new
  source?_append_of_skipped source?_append_of_new)

variable {srv : Service} {s t : ServiceState} {l : Loading} {file name source : Text}
  {entry : DirectoryEntry} {done : Directory}

theorem isEligible_iff : entry.IsEligible file ↔
    ¬ (entry = .directory || !isDefinitionFile file) = true ∧
      DefinitionName.check (Path.stem file) = .ok () := by
  simp [DirectoryEntry.IsEligible, isDefinitionFile, and_left_comm, and_comm]

theorem loadSource_rejected (file name : Text) (rejected : (Definition.parse source).isOk = false)
    (s : ServiceState) : ∃ t, (srv.loadSource file name source).run s = (false, t) ∧ s.Alike t := by
  unfold loadSource
  cases h : Definition.parse source with
  | error r => exact ⟨_, rfl, rfl, rfl⟩
  | ok definition =>
    rw [h] at rejected
    cases rejected

/-- A source that can be parsed is put under its name, and the name is marked. -/
theorem loadSource_stores (hs : s.IsRegular srv.clock) (takes : s.shared.store.TakesWrites)
    (checked : DefinitionName.check name = .ok ()) (parsed : (Definition.parse source).isOk = true)
    (file : Text) :
    ∃ d t, (srv.loadSource file name source).run s = (true, t) ∧
      PutFrom srv.clock s.shared.ticks name source (s.entry name) d ∧
      (∀ n, t.entry n = if n = name then some d else s.entry n) ∧
      ∀ n, t.isMarked n = if n = name then true else s.isMarked n := by
  obtain ⟨definition, hparse⟩ := isOk_iff.mp parsed
  obtain ⟨d, created, shared, hput, hstore, hd⟩ :=
    SharedStore.put_saves hs.ordered.named hs.times takes checked source
  have hname : d.name = name := hd.name_eq fun old held =>
    (hs.ordered.named _ (Table.mem_of_get? held)).symm
  have hrun : (onStore (SharedStore.put srv.clock name source)).run s =
      ((.ok d, created), { s with shared := shared }) := by
    rw [run_onStore, hput]
  unfold loadSource
  rw [hparse]
  dsimp only
  rw [Program.run_bind, hrun]
  refine ⟨d, _, rfl, hd, fun n => ?_, fun n => ?_⟩
  · show shared.store.definitions.get? n = _
    rw [hstore]
    show (s.shared.store.definitions.insert d.name d).get? n = _
    rw [Table.get?_insert, hname, ServiceState.entry]
  · show (s.fromDirectory.insert name ()).contains n = _
    rw [Table.contains, Table.get?_insert, ServiceState.isMarked, Table.contains]
    split <;> rfl

/-- An entry that gives no definition, or that comes after another for its name. -/
theorem loadEntry_skips (skipped : entry.IsEligible file → l.seen.contains (Path.stem file) = true)
    (s : ServiceState) : ∃ t, (srv.loadEntry l file entry).run s = (l, t) ∧ s.Alike t := by
  rw [isEligible_iff] at skipped
  unfold loadEntry
  dsimp only
  split
  next => exact ⟨_, rfl, rfl, rfl⟩
  next visible =>
    split
    next => exact ⟨_, rfl, rfl, rfl⟩
    next checked =>
      rw [if_pos (skipped ⟨visible, checked⟩)]
      exact ⟨_, rfl, rfl, rfl⟩

/-- The first file that may give the definition of a name. -/
theorem loadEntry_file {content : Text} (eligible : (DirectoryEntry.file content).IsEligible file)
    (new : l.seen.contains (Path.stem file) = false) :
    srv.loadEntry l file (.file content) =
      srv.loadSource file (Path.stem file) content >>= fun stored =>
        pure (if stored then ⟨l.seen.insert (Path.stem file) (), l.loaded + 1⟩
          else ⟨l.seen.insert (Path.stem file) (), l.loaded⟩) := by
  obtain ⟨visible, checked⟩ := isEligible_iff.mp eligible
  unfold loadEntry
  dsimp only
  rw [if_neg visible, checked]
  dsimp only
  rw [new, if_neg Bool.false_ne_true]

theorem loadEntry_unreadable {reason : Text}
    (eligible : (DirectoryEntry.unreadable reason).IsEligible file)
    (new : l.seen.contains (Path.stem file) = false) (s : ServiceState) :
    ∃ t, (srv.loadEntry l file (.unreadable reason)).run s =
      (⟨l.seen.insert (Path.stem file) (), l.loaded⟩, t) ∧ s.Alike t := by
  obtain ⟨visible, checked⟩ := isEligible_iff.mp eligible
  unfold loadEntry
  dsimp only
  rw [if_neg visible, checked]
  dsimp only
  rw [new, if_neg Bool.false_ne_true]
  exact ⟨_, rfl, rfl, rfl⟩

theorem loadEntry_fails (eligible : entry.IsEligible file)
    (new : l.seen.contains (Path.stem file) = false) (unusable : entry.source? = none)
    (s : ServiceState) :
    ∃ t, (srv.loadEntry l file entry).run s =
      (⟨l.seen.insert (Path.stem file) (), l.loaded⟩, t) ∧ s.Alike t := by
  cases entry with
  | file content =>
    have rejected : (Definition.parse content).isOk = false := by
      simpa [DirectoryEntry.source?] using unusable
    obtain ⟨t, hrun, halike⟩ := @loadSource_rejected srv content file (Path.stem file) rejected s
    refine ⟨t, ?_, halike⟩
    rw [loadEntry_file eligible new, Program.run_bind, hrun]
    rfl
  | unreadable reason => exact loadEntry_unreadable eligible new s
  | directory => exact absurd rfl eligible.1

theorem loadEntry_stores (hs : s.IsRegular srv.clock) (takes : s.shared.store.TakesWrites)
    (eligible : entry.IsEligible file) (new : l.seen.contains (Path.stem file) = false)
    (usable : entry.source? = some source) :
    ∃ d t, (srv.loadEntry l file entry).run s =
        (⟨l.seen.insert (Path.stem file) (), l.loaded + 1⟩, t) ∧
      PutFrom srv.clock s.shared.ticks (Path.stem file) source (s.entry (Path.stem file)) d ∧
      (∀ n, t.entry n = if n = Path.stem file then some d else s.entry n) ∧
      ∀ n, t.isMarked n = if n = Path.stem file then true else s.isMarked n := by
  obtain ⟨rfl, parsed⟩ := DirectoryEntry.source?_eq_some.mp usable
  obtain ⟨d, t, hrun, hd, hentry, hmarked⟩ :=
    loadSource_stores hs takes eligible.2.2.2 parsed file
  refine ⟨d, t, ?_, hd, hentry, hmarked⟩
  rw [loadEntry_file eligible new, Program.run_bind, hrun]
  rfl

/-- How it stands after the entries `done` of a directory were loaded, which began in `s`. -/
structure Loads (srv : Service) (s : ServiceState) (done : Directory) (l : Loading)
    (t : ServiceState) : Prop where
  continues : s.Continues srv.clock t
  seen : ∀ n, l.seen.contains n = (first? n done).isSome
  stored : ∀ n source, source? n done = some source → t.isMarked n = true ∧
    ∃ d, t.entry n = some d ∧ PutFrom srv.clock s.shared.ticks n source (s.entry n) d
  kept : ∀ n, source? n done = none → t.entry n = s.entry n ∧ t.isMarked n = s.isMarked n
  counted : ∃ files : List Text, files.Nodup ∧ files.length = l.loaded ∧
    ∀ f, f ∈ files ↔ ∃ n entry, first? n done = some (f, entry) ∧ entry.source?.isSome = true

theorem loads_nothing (hs : s.IsRegular srv.clock) : Loads srv s [] {} s where
  continues := continues_refl hs
  seen _ := rfl
  stored := nofun
  kept _ _ := ⟨rfl, rfl⟩
  counted := ⟨[], by simp, rfl, by simp [first?]⟩

/-- An entry that changes neither a definition nor a mark, nor what is first for a name. -/
theorem Loads.skip (h : Loads srv s done l t)
    (skipped : entry.IsEligible file → (first? (Path.stem file) done).isSome = true)
    {u : ServiceState} (hu : t.Continues srv.clock u) (halike : t.Alike u) :
    Loads srv s (done ++ [(file, entry)]) l u where
  continues := h.continues.trans hu
  seen n := by rw [h.seen, first?_append_of_skipped done skipped]
  stored n source hn := by
    rw [source?_append_of_skipped done skipped] at hn
    rw [halike.isMarked, halike.entry]
    exact h.stored n source hn
  kept n hn := by
    rw [source?_append_of_skipped done skipped] at hn
    rw [halike.isMarked, halike.entry]
    exact h.kept n hn
  counted := by
    obtain ⟨files, distinct, hlength, hfiles⟩ := h.counted
    refine ⟨files, distinct, hlength, fun f => ?_⟩
    simp only [hfiles, first?_append_of_skipped done skipped]

theorem contains_insert (seen : Table Unit) (name n : Text) :
    (seen.insert name ()).contains n = if n = name then true else seen.contains n := by
  rw [Table.contains, Table.get?_insert, Table.contains]
  split <;> rfl

/-- An entry that decides that its name stays as it is. -/
theorem Loads.fail (h : Loads srv s done l t) (eligible : entry.IsEligible file)
    (new : first? (Path.stem file) done = none) (unusable : entry.source? = none)
    {u : ServiceState} (hu : t.Continues srv.clock u) (halike : t.Alike u) :
    Loads srv s (done ++ [(file, entry)]) ⟨l.seen.insert (Path.stem file) (), l.loaded⟩ u := by
  have hsource (n : Text) : source? n (done ++ [(file, entry)]) = source? n done := by
    rw [source?_append_of_new eligible new]
    split
    next hn => rw [hn, unusable, source?, new, Option.bind_none]
    next => rfl
  obtain ⟨files, distinct, hlength, hfiles⟩ := h.counted
  refine ⟨h.continues.trans hu, fun n => ?_, fun n source hn => ?_, fun n hn => ?_, files, distinct,
    hlength, fun f => ?_⟩
  · rw [contains_insert, first?_append_of_new eligible new, h.seen]
    split <;> rfl
  · rw [halike.isMarked, halike.entry]
    exact h.stored n source (hsource n ▸ hn)
  · rw [halike.isMarked, halike.entry]
    exact h.kept n (hsource n ▸ hn)
  · rw [hfiles]
    refine exists_congr fun n => exists_congr fun other => and_congr_left fun usable => ?_
    rw [first?_append_of_new eligible new]
    split
    next hn =>
      subst hn
      rw [new]
      refine ⟨nofun, fun hother => ?_⟩
      cases hother
      rw [unusable] at usable
      cases usable
    next => rfl

/-- The files that decide and can be used, after one more of them. -/
theorem files_append_of_new (eligible : entry.IsEligible file)
    (new : first? (Path.stem file) done = none) (usable : entry.source? = some source)
    {files : List Text} (distinct : files.Nodup)
    (hfiles : ∀ f, f ∈ files ↔ ∃ n other, first? n done = some (f, other) ∧
      other.source?.isSome = true) :
    (file :: files).Nodup ∧ ∀ f, f ∈ file :: files ↔ ∃ n other,
      first? n (done ++ [(file, entry)]) = some (f, other) ∧ other.source?.isSome = true := by
  have hfirst := @first?_append_of_new _ _ done eligible new
  -- The file is new: another name has another stem.
  have fresh : file ∉ files := by
    intro hmem
    obtain ⟨n, other, hn, -⟩ := (hfiles file).mp hmem
    rw [← (Directory.of_first? hn).2, new] at hn
    cases hn
  refine ⟨List.nodup_cons.mpr ⟨fresh, distinct⟩, fun f => ?_⟩
  rw [List.mem_cons, hfiles]
  constructor
  · rintro (rfl | ⟨n, other, hn, hother⟩)
    · exact ⟨Path.stem f, entry, by rw [hfirst, if_pos rfl], by rw [usable]; rfl⟩
    · have here : n ≠ Path.stem file := by
        rintro rfl
        rw [new] at hn
        cases hn
      exact ⟨n, other, by rw [hfirst, if_neg here, hn], hother⟩
  · rintro ⟨n, other, hn, hother⟩
    rw [hfirst] at hn
    split at hn
    next =>
      cases hn
      exact .inl rfl
    next => exact .inr ⟨n, other, hn, hother⟩

/-- An entry whose source is stored. -/
theorem Loads.store (h : Loads srv s done l t) (eligible : entry.IsEligible file)
    (new : first? (Path.stem file) done = none) (usable : entry.source? = some source)
    {u : ServiceState} (hu : t.Continues srv.clock u) {d : StoredDefinition}
    (hd : PutFrom srv.clock t.shared.ticks (Path.stem file) source (t.entry (Path.stem file)) d)
    (hentry : ∀ n, u.entry n = if n = Path.stem file then some d else t.entry n)
    (hmarked : ∀ n, u.isMarked n = if n = Path.stem file then true else t.isMarked n) :
    Loads srv s (done ++ [(file, entry)]) ⟨l.seen.insert (Path.stem file) (), l.loaded + 1⟩ u := by
  have hnone : source? (Path.stem file) done = none := by rw [source?, new, Option.bind_none]
  have hfirst := @first?_append_of_new _ _ done eligible new
  have hsource := @source?_append_of_new _ _ done eligible new
  refine ⟨h.continues.trans hu, fun n => ?_, fun n source' hn => ?_, fun n hn => ?_, ?_⟩
  · rw [contains_insert, hfirst, h.seen]
    split <;> rfl
  · rw [hsource] at hn
    rw [hentry, hmarked]
    by_cases here : n = Path.stem file
    · subst here
      rw [if_pos rfl, usable] at hn
      cases hn
      rw [(h.kept _ hnone).1] at hd
      rw [if_pos rfl, if_pos rfl]
      exact ⟨rfl, d, rfl, hd.later h.continues.ticks⟩
    · rw [if_neg here] at hn
      rw [if_neg here, if_neg here]
      exact h.stored n source' hn
  · rw [hsource] at hn
    have here : n ≠ Path.stem file := by
      intro here
      rw [if_pos here, usable] at hn
      cases hn
    rw [if_neg here] at hn
    rw [hentry, hmarked, if_neg here, if_neg here]
    exact h.kept n hn
  · obtain ⟨files, distinct, hlength, hfiles⟩ := h.counted
    obtain ⟨distinct', hfiles'⟩ := files_append_of_new eligible new usable distinct hfiles
    exact ⟨file :: files, distinct', by rw [List.length_cons, hlength], hfiles'⟩

theorem Loads.step (h : Loads srv s done l t) (takes : s.shared.store.TakesWrites) (file : Text)
    (entry : DirectoryEntry) :
    Loads srv s (done ++ [(file, entry)]) ((srv.loadEntry l file entry).run t).1
      ((srv.loadEntry l file entry).run t).2 := by
  have hcontinues := (@effects_loadEntry srv l file entry).continues h.continues.regular
  by_cases skipped : entry.IsEligible file → (first? (Path.stem file) done).isSome = true
  · have hseen : entry.IsEligible file → l.seen.contains (Path.stem file) = true := by
      rwa [h.seen]
    obtain ⟨u, hrun, halike⟩ := @loadEntry_skips srv l file entry hseen t
    rw [hrun] at hcontinues ⊢
    exact h.skip skipped hcontinues halike
  · obtain ⟨eligible, hnew⟩ := Classical.not_imp.mp skipped
    have new : first? (Path.stem file) done = none := by simpa using hnew
    have unseen : l.seen.contains (Path.stem file) = false := by rw [h.seen, new]; rfl
    cases usable : entry.source? with
    | none =>
      obtain ⟨u, hrun, halike⟩ := @loadEntry_fails srv l file entry eligible unseen usable t
      rw [hrun] at hcontinues ⊢
      exact h.fail eligible new usable hcontinues halike
    | some source =>
      obtain ⟨d, u, hrun, hd, hentry, hmarked⟩ := loadEntry_stores h.continues.regular
        (h.continues.takes.mpr takes) eligible unseen usable
      rw [hrun] at hcontinues ⊢
      exact h.store eligible new usable hcontinues hd hentry hmarked

theorem Loads.entries (h : Loads srv s done l t) (takes : s.shared.store.TakesWrites)
    (rest : Directory) :
    Loads srv s (done ++ rest) ((srv.loadEntries l rest).run t).1
      ((srv.loadEntries l rest).run t).2 := by
  induction rest generalizing done l t with
  | nil =>
    rw [List.append_nil]
    exact h
  | cons p rest ih =>
    have hrest := ih (h.step takes p.1 p.2)
    rw [List.append_assoc] at hrest
    rw [loadEntries, Program.run_bind]
    exact hrest

/-- Where the store takes writes, a definition that is deleted is gone, if there was one at all. -/
theorem delete_takes (ht : t.IsRegular srv.clock) (takes : t.shared.store.TakesWrites) (name : Text) :
    ∃ result u, (onStore (SharedStore.delete name)).run t = (result, u) ∧
      (result = .ok () ∨ result = .error (.notFound name)) ∧
      (∀ n, u.entry n = if n = name then none else t.entry n) ∧
      u.fromDirectory = t.fromDirectory := by
  have hrun : (onStore (SharedStore.delete name)).run t =
      ((SharedStore.call (Store.delete name) t.shared).1,
        { t with shared := (SharedStore.call (Store.delete name) t.shared).2 }) := rfl
  cases held : t.shared.store.definitions.get? name with
  | none =>
    have hcall : SharedStore.call (Store.delete name) t.shared =
        (.error (.notFound name), t.shared) := by
      simp only [SharedStore.call, Store.delete_missing held]
    refine ⟨_, _, hrun, .inr (by rw [hcall]), fun n => ?_, rfl⟩
    rw [hcall]
    split
    next hn =>
      subst hn
      exact held
    next => rfl
  | some old =>
    have hcall : SharedStore.call (Store.delete name) t.shared =
        (.ok (), { t.shared with
          store := t.shared.store.changed (Table.erase name) (Table.erase name) }) := by
      simp only [SharedStore.call, Store.delete_run held takes]
    refine ⟨_, _, hrun, .inl (by rw [hcall]), fun n => ?_, rfl⟩
    rw [hcall]
    exact ht.sorted.get?_erase name n

theorem removeStale_removes (ht : t.IsRegular srv.clock) (takes : t.shared.store.TakesWrites)
    (name : Text) :
    (∀ n, ((removeStale name).run t).2.entry n = if n = name then none else t.entry n) ∧
      ∀ n, ((removeStale name).run t).2.isMarked n = if n = name then false else t.isMarked n := by
  obtain ⟨result, u, hrun, hresult, hentry, hmarks⟩ := delete_takes ht takes name
  have hmarked (n : Text) : (t.fromDirectory.erase name).contains n =
      if n = name then false else t.isMarked n := by
    rw [Table.contains, ht.ordered.sorted.get?_erase, ServiceState.isMarked, Table.contains]
    split <;> rfl
  rw [← hmarks] at hmarked
  unfold removeStale
  rw [Program.run_bind, hrun]
  rcases hresult with rfl | rfl
  · exact ⟨hentry, hmarked⟩
  · exact ⟨hentry, hmarked⟩

theorem removeAll_removes (ht : t.IsRegular srv.clock) (takes : t.shared.store.TakesWrites)
    (stale : List Text) :
    (∀ n, ((Program.forEach removeStale stale).run t).2.entry n =
        if n ∈ stale then none else t.entry n) ∧
      ∀ n, ((Program.forEach removeStale stale).run t).2.isMarked n =
        if n ∈ stale then false else t.isMarked n := by
  induction stale generalizing t with
  | nil => simp [Program.forEach, Program.run]
  | cons name stale ih =>
    have hfirst := (@effects_removeStale srv.clock name).continues ht
    obtain ⟨hentry, hmarked⟩ := removeStale_removes ht takes name
    obtain ⟨hentries, hmarks⟩ := ih hfirst.regular (hfirst.takes.mpr takes)
    have hrun : ((Program.forEach removeStale (name :: stale)).run t).2 =
        ((Program.forEach removeStale stale).run ((removeStale name).run t).2).2 := by
      rw [Program.forEach, Program.run_bind, Program.run_bind]
      rfl
    rw [hrun]
    refine ⟨fun n => ?_, fun n => ?_⟩
    · rw [hentries, hentry]
      by_cases hn : n = name <;> simp [hn]
    · rw [hmarks, hmarked]
      by_cases hn : n = name <;> simp [hn]

/-- The marked names without a file. -/
def staleNames (l : Loading) (t : ServiceState) : List Text :=
  (t.fromDirectory.filter fun (name, _) => !l.seen.contains name).map (·.1)

theorem mem_staleNames (ht : t.IsOrdered) {n : Text} :
    n ∈ staleNames l t ↔ t.isMarked n = true ∧ l.seen.contains n = false := by
  have hmarked : t.isMarked n = true ↔ (n, ()) ∈ t.fromDirectory := by
    rw [ServiceState.isMarked, Table.contains, Option.isSome_iff_exists, ← ht.sorted.get?_eq_some]
    constructor
    · rintro ⟨_, h⟩
      exact h
    · exact fun h => ⟨(), h⟩
  rw [hmarked]
  constructor
  · intro h
    obtain ⟨p, hp, rfl⟩ := List.mem_map.mp h
    rw [List.mem_filter] at hp
    exact ⟨hp.1, by simpa using hp.2⟩
  · rintro ⟨hmem, unseen⟩
    exact List.mem_map.mpr ⟨(n, ()), List.mem_filter.mpr ⟨hmem, by simp [unseen]⟩, rfl⟩

theorem Loads.mem_staleNames (h : Loads srv s dir l t) {n : Text} :
    n ∈ staleNames l t ↔ t.isMarked n = true ∧ ¬ dir.HasFile n := by
  rw [Service.mem_staleNames h.continues.regular.ordered, h.seen, ← Directory.first?_eq_none]
  simp

theorem run_loadDirectory (srv : Service) (dir : Directory) (s : ServiceState) :
    ((srv.loadDirectory dir).run s).1 = ((srv.loadEntries {} dir).run s).1.loaded ∧
      ((Program.forEach removeStale (staleNames ((srv.loadEntries {} dir).run s).1
        ((srv.loadEntries {} dir).run s).2)).run ((srv.loadEntries {} dir).run s).2).2.Alike
        ((srv.loadDirectory dir).run s).2 := by
  unfold loadDirectory
  rw [Program.run_bind, Program.run_bind, Program.run_bind]
  exact ⟨rfl, rfl, rfl⟩

/-- What a load that began in `s` has made of definitions and marks when it is done. -/
structure Reconciles (srv : Service) (dir : Directory) (s : ServiceState) (count : Nat)
    (t : ServiceState) : Prop where
  continues : s.Continues srv.clock t
  stored : ∀ n source, source? n dir = some source → t.isMarked n = true ∧
    ∃ d, t.entry n = some d ∧ PutFrom srv.clock s.shared.ticks n source (s.entry n) d
  failed : ∀ n, dir.HasFile n → source? n dir = none →
    t.entry n = s.entry n ∧ t.isMarked n = s.isMarked n
  gone : ∀ n, ¬ dir.HasFile n → s.isMarked n = true → t.entry n = none
  others : ∀ n, ¬ dir.HasFile n → s.isMarked n = false → t.entry n = s.entry n
  unmarked : ∀ n, ¬ dir.HasFile n → t.isMarked n = false
  counted : ∃ files : List Text, files.Nodup ∧ files.length = count ∧
    ∀ f, f ∈ files ↔ ∃ n entry, first? n dir = some (f, entry) ∧ entry.source?.isSome = true

theorem loadDirectory_reconciles (hs : s.IsRegular srv.clock) (takes : s.shared.store.TakesWrites)
    (dir : Directory) :
    Reconciles srv dir s ((srv.loadDirectory dir).run s).1 ((srv.loadDirectory dir).run s).2 := by
  have hloads := (loads_nothing hs).entries takes dir
  rw [List.nil_append] at hloads
  have hcontinues := (@effects_loadDirectory srv dir).continues hs
  obtain ⟨hcount, halike⟩ := run_loadDirectory srv dir s
  generalize ((srv.loadDirectory dir).run s).2 = u at halike hcontinues ⊢
  rw [hcount]
  generalize (srv.loadEntries {} dir).run s = outcome at hloads halike ⊢
  obtain ⟨l, t⟩ := outcome
  obtain ⟨hentry, hmarked⟩ := removeAll_removes hloads.continues.regular
    (hloads.continues.takes.mpr takes) (staleNames l t)
  have hkept (n : Text) (hn : dir.HasFile n) : u.entry n = t.entry n ∧ u.isMarked n = t.isMarked n := by
    have hno : n ∉ staleNames l t := fun h => (hloads.mem_staleNames.mp h).2 hn
    rw [halike.entry, halike.isMarked, hentry, hmarked, if_neg hno, if_neg hno]
    exact ⟨rfl, rfl⟩
  refine ⟨hcontinues, fun n source hn => ?_, fun n hn hfail => ?_, fun n hn hmark => ?_,
    fun n hn hmark => ?_, fun n hn => ?_, hloads.counted⟩
  · obtain ⟨hsame, hmarks⟩ := hkept n (Directory.hasFile_of_source? hn)
    rw [hsame, hmarks]
    exact hloads.stored n source hn
  · obtain ⟨hsame, hmarks⟩ := hkept n hn
    rw [hsame, hmarks]
    exact hloads.kept n hfail
  · rw [← (hloads.kept n (Directory.source?_eq_none_of_not_hasFile hn)).2] at hmark
    rw [halike.entry, hentry, if_pos (hloads.mem_staleNames.mpr ⟨hmark, hn⟩)]
  · obtain ⟨hsame, hmarks⟩ := hloads.kept n (Directory.source?_eq_none_of_not_hasFile hn)
    have hno : n ∉ staleNames l t := by
      intro h
      rw [← hmarks, (hloads.mem_staleNames.mp h).1] at hmark
      cases hmark
    rw [halike.entry, hentry, if_neg hno, hsame]
  · rw [halike.isMarked, hmarked]
    split
    next => rfl
    next hno => simpa [hloads.mem_staleNames, hn] using hno

end Service

end ScopedAggregation
