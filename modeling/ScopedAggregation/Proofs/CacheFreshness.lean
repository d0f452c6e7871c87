import ScopedAggregation.Proofs.DecimalNumerals
import ScopedAggregation.Proofs.RevisionTies
import ScopedAggregation.Service.Directory
import ScopedAggregation.Service.Rest
import ScopedAggregation.Service.Rpc

namespace ScopedAggregation

open Program (Keeps keeps_pure keeps_read keeps_modify keeps_forEach)

/-- The store is tied, and what is remembered for a revision is what its source is parsed to. -/
structure ServiceState.Tied (clock : Clock) (w : Ties) (s : ServiceState) : Prop where
  stored : s.shared.Tied clock w
  remembered : ∀ p ∈ s.parsed, ∃ source, w.source? p.1 p.2.revision = some source ∧
    Definition.parse source = .ok p.2.definition

namespace Service

variable {α β : Type} {clock : Clock} {w : Ties}

/-- Whatever else goes on, the steps of the request keep revisions with their sources. -/
def Safe (clock : Clock) (p : Request α) : Prop :=
  ∀ w, Keeps (ServiceState.Tied clock) (fun _ _ => True) p w

theorem Safe.bind {p : Request α} {f : α → Request β} (hp : Safe clock p)
    (hf : ∀ a, Safe clock (f a)) : Safe clock (p >>= f) :=
  fun w => (hp w).bind fun v _ a _ => hf a v

theorem safe_pure (a : α) : Safe clock (pure a : Request α) :=
  fun _ => keeps_pure fun _ _ => trivial

theorem safe_read (f : ServiceState → α) : Safe clock (.read f : Request α) :=
  fun _ => keeps_read fun _ _ _ _ _ _ => trivial

/-- A change beside the store and what is remembered. -/
theorem safe_aside {f : ServiceState → ServiceState} (shared : ∀ s, (f s).shared = s.shared)
    (parsed : ∀ s, (f s).parsed = s.parsed) : Safe clock (.modify f) := by
  refine fun w => keeps_modify fun v _ s hs => ⟨?_, ?_⟩
  · rw [shared]
    exact hs.stored
  · rw [parsed]
    exact hs.remembered

theorem keeps_onStore {post : Ties → α → Prop} {p : Program SharedStore α}
    (h : Keeps (SharedStore.Tied clock) post p w) :
    Keeps (ServiceState.Tied clock) post (onStore p) w := by
  refine h.within (fun v s hs => hs.stored) fun v u s t hvu hs ht => ⟨ht, fun p hp => ?_⟩
  obtain ⟨source, htie, hparse⟩ := hs.remembered p hp
  exact ⟨source, hvu _ _ _ htie, hparse⟩

theorem safe_logged (l : LogLine) : Safe clock (logged l) :=
  safe_aside (fun _ => rfl) fun _ => rfl

theorem safe_noted (attempts : List Attempt) : Safe clock (noted attempts) :=
  safe_aside (fun _ => rfl) fun _ => rfl

theorem safe_looked {f : SharedStore → α} : Safe clock (onStore (.read f)) :=
  fun _ => keeps_onStore (keeps_read fun _ _ _ _ _ _ => trivial)

theorem safe_countDefinitions : Safe clock countDefinitions :=
  safe_looked.bind fun _ => safe_aside (fun _ => rfl) fun _ => rfl

/-- What is remembered late is remembered for the revision it was parsed for. -/
theorem keeps_remember {d : StoredDefinition} {definition : Definition} (hd : w.Tied d)
    (hparse : Definition.parse d.source = .ok definition) :
    Keeps (ServiceState.Tied clock) (fun _ _ => True) (remember d definition) w := by
  refine keeps_modify fun v hv s hs => ⟨hs.stored, fun p hp => ?_⟩
  rcases Table.mem_insert hp with rfl | hp
  · exact ⟨d.source, hd.later hv, hparse⟩
  · exact hs.remembered p hp

theorem safe_forget (name : Text) : Safe clock (forget name) := by
  refine fun w => keeps_modify fun v _ s hs => ⟨hs.stored, fun p hp => ?_⟩
  exact hs.remembered p ((Table.erase_sublist name s.parsed).subset hp)

/-- The parsed form, remembered or not, is that of the source. -/
theorem keeps_parsedForm {d : StoredDefinition} (hd : w.Tied d) :
    Keeps (ServiceState.Tied clock) (fun _ r => r = Definition.parse d.source) (parsedForm d) w := by
  have fresh : ∀ v, w ≤ v → Keeps (ServiceState.Tied clock)
      (fun _ r => r = Definition.parse d.source) (parsedForm.fresh d) v := by
    intro v hv
    unfold parsedForm.fresh
    split
    next r hr => exact keeps_pure fun _ _ => hr.symm
    next definition hdefinition =>
      refine (keeps_remember (hd.later hv) hdefinition).bind fun u _ _ _ => ?_
      exact keeps_pure fun _ _ => hdefinition.symm
  have looked : Keeps (ServiceState.Tied clock)
      (fun v found => ∀ p, found = some p → p.revision = d.revision →
        Definition.parse d.source = .ok p.definition)
      (.read fun s => s.parsed.get? d.name) w := by
    refine keeps_read fun v hv s hs x _ p hp hrevision => ?_
    obtain ⟨source, htie, hparse⟩ := hs.remembered _ (Table.mem_of_get? hp)
    -- `d` may be out of date by now, but its revision stands for the same source as ever.
    have same : source = d.source := by
      have := (hd.later hv).symm.trans (hrevision ▸ htie)
      exact (Option.some.inj this).symm
    rw [← same]
    exact hparse
  refine looked.bind fun v hv found hfound => ?_
  split
  next p =>
    split
    next hrevision => exact keeps_pure fun _ _ => (hfound p rfl hrevision).symm
    next => exact fresh v hv
  next => exact fresh v hv

variable {srv : Service}

theorem keeps_compileStored {d : StoredDefinition} (hd : w.Tied d) :
    Keeps (ServiceState.Tied clock)
      (fun _ result => result = (Definition.outcomeOf srv.compiler d.source).1)
      (srv.compileStored d) w := by
  refine (keeps_parsedForm hd).bind fun v _ form hform => ?_
  cases form with
  | error r =>
    have outcome : Definition.outcomeOf srv.compiler d.source = (.error (.rejected r), []) := by
      rw [Definition.outcomeOf, ← hform]
    exact keeps_pure fun _ _ => congrArg Prod.fst outcome.symm
  | ok definition =>
    have outcome : Definition.outcomeOf srv.compiler d.source = definition.outcome srv.compiler := by
      rw [Definition.outcomeOf, ← hform]
    refine (safe_noted (definition.outcome srv.compiler).2 v).bind fun _ _ _ _ => ?_
    exact keeps_pure fun _ _ => congrArg Prod.fst outcome.symm

/-- What compiling the definition of a name has to give: what the source of that definition comes
to. -/
def Fresh (c : Compiler) (name : Text)
    (r : Except StoreError (StoredDefinition × Except Definition.Failure Value)) : Prop :=
  ∀ d result, r = .ok (d, result) → d.name = name ∧ result = (Definition.outcomeOf c d.source).1

theorem keeps_compileDefinition (name : Text) (w : Ties) :
    Keeps (ServiceState.Tied clock) (fun _ => Fresh srv.compiler name)
      (srv.compileDefinition name) w := by
  refine (keeps_onStore (SharedStore.keeps_get name w)).bind fun v _ r hr => ?_
  cases r with
  | error e => exact keeps_pure fun _ _ d result h => by cases h
  | ok d =>
    obtain ⟨hd, hname⟩ := hr d rfl
    refine (keeps_compileStored hd).bind fun _ _ result hresult => keeps_pure fun _ _ e r h => ?_
    cases h
    exact ⟨hname, hresult⟩

theorem safe_compileSource (source : Text) : Safe clock (srv.compileSource source) :=
  (safe_noted _).bind fun _ => safe_pure _

theorem safe_createDefinition (distinct : Function.Injective fun n => (srv.clock n).revision)
    {name source description : Text} {labels : Labels} {definition : Definition}
    (hparse : Definition.parse source = .ok definition) :
    Safe srv.clock (srv.createDefinition name source description labels definition) := by
  intro w
  refine (keeps_onStore (SharedStore.keeps_create distinct name source description labels w)).bind
    fun v _ r hr => ?_
  cases r with
  | error e => exact safe_pure _ v
  | ok d =>
    obtain ⟨hd, hsource⟩ := hr d rfl
    refine (keeps_remember hd (hsource ▸ hparse)).bind fun u _ _ _ => ?_
    exact (safe_countDefinitions.bind fun _ => (safe_logged _).bind fun _ => safe_pure _) u

theorem safe_updateDefinition (distinct : Function.Injective fun n => (srv.clock n).revision)
    {name source description : Text} {definition : Option Definition}
    (hparse : ∀ d, definition = some d → source ≠ [] ∧ Definition.parse source = .ok d) :
    Safe srv.clock (srv.updateDefinition name source description definition) := by
  intro w
  refine (keeps_onStore (SharedStore.keeps_update distinct name source description w)).bind
    fun v _ r hr => ?_
  cases r with
  | error e => exact safe_pure _ v
  | ok d =>
    have rest : Safe srv.clock (do
        logged (.of .info "updated definition"
          [("name", .text name), ("revision", .text d.revision)])
        pure (.ok d) : Request (Except StoreError StoredDefinition)) :=
      (safe_logged _).bind fun _ => safe_pure _
    cases definition with
    | none => exact rest v
    | some definition =>
      obtain ⟨hne, hparse⟩ := hparse definition rfl
      obtain ⟨hd, hsource⟩ := hr d rfl
      exact (keeps_remember hd (hsource hne ▸ hparse)).bind fun u _ _ _ => rest u

theorem safe_deleteDefinition (name : Text) : Safe clock (deleteDefinition name) := by
  have deleted : Safe clock (onStore (SharedStore.delete name)) :=
    fun w => keeps_onStore (SharedStore.keeps_delete name w)
  refine deleted.bind fun r => ?_
  cases r with
  | error e => exact safe_pure _
  | ok _ =>
    exact (safe_forget name).bind fun _ => safe_countDefinitions.bind fun _ =>
      (safe_logged _).bind fun _ => safe_pure _

/-- There is no definition in an empty source. -/
theorem source_ne_nil {source : Text} {definition : Definition}
    (h : Definition.parse source = .ok definition) : source ≠ [] := by
  rintro rfl
  cases h

theorem safe_loadSource (distinct : Function.Injective fun n => (srv.clock n).revision)
    (file name source : Text) : Safe srv.clock (srv.loadSource file name source) := by
  unfold loadSource
  split
  next => exact (safe_logged _).bind fun _ => safe_pure _
  next definition hparse =>
    intro w
    refine (keeps_onStore (SharedStore.keeps_put distinct name source w)).bind fun v _ r hr => ?_
    obtain ⟨r, created⟩ := r
    cases r with
    | error e => exact ((safe_logged _).bind fun _ => safe_pure _) v
    | ok d =>
      obtain ⟨hd, hsource⟩ := hr d rfl
      have parsed : Definition.parse d.source = .ok definition := by
        rw [hsource (source_ne_nil hparse)]
        exact hparse
      refine (keeps_remember hd parsed).bind fun u _ _ _ => ?_
      have noted : Safe srv.clock
          (.modify fun s => { s with fromDirectory := s.fromDirectory.insert name () }) :=
        safe_aside (fun _ => rfl) fun _ => rfl
      exact (noted.bind fun _ => (safe_logged _).bind fun _ => safe_pure _) u

theorem safe_loadEntry (distinct : Function.Injective fun n => (srv.clock n).revision)
    (l : Loading) (file : Text) (entry : DirectoryEntry) :
    Safe srv.clock (srv.loadEntry l file entry) := by
  unfold loadEntry
  dsimp only
  split
  next => exact safe_pure _
  next =>
    split
    next => exact (safe_logged _).bind fun _ => safe_pure _
    next =>
      split
      next => exact (safe_logged _).bind fun _ => safe_pure _
      next =>
        split
        next => exact (safe_loadSource distinct file _ _).bind fun _ => safe_pure _
        next => exact (safe_logged _).bind fun _ => safe_pure _
        next => exact safe_pure _

theorem safe_loadEntries (distinct : Function.Injective fun n => (srv.clock n).revision)
    (entries : List (Text × DirectoryEntry)) (l : Loading) :
    Safe srv.clock (srv.loadEntries l entries) := by
  induction entries generalizing l with
  | nil => exact safe_pure _
  | cons entry entries ih => exact (safe_loadEntry distinct l _ _).bind fun l => ih l

theorem safe_removeStale (name : Text) : Safe clock (removeStale name) := by
  have deleted : Safe clock (onStore (SharedStore.delete name)) :=
    fun w => keeps_onStore (SharedStore.keeps_delete name w)
  have gone := (@safe_forget clock name).bind fun _ =>
    safe_logged (.of .info "removed definition" [("name", .text name)])
  refine deleted.bind fun r => ?_
  split
  · exact gone
  · exact gone
  · exact safe_logged _

theorem safe_loadDirectory (distinct : Function.Injective fun n => (srv.clock n).revision)
    (dir : Directory) : Safe srv.clock (srv.loadDirectory dir) := by
  refine (safe_loadEntries distinct dir {}).bind fun l => (safe_read _).bind fun stale => ?_
  refine Safe.bind (fun w => keeps_forEach (fun name v => safe_removeStale name v) stale w) fun _ => ?_
  exact safe_countDefinitions.bind fun _ => (safe_logged _).bind fun _ => safe_pure _

theorem safe_answerCreate (distinct : Function.Injective fun n => (srv.clock n).revision)
    (r : Http.Request) : Safe srv.clock (srv.answerCreate r) := by
  unfold answerCreate
  dsimp only
  split
  next => exact safe_pure _
  next =>
    split
    next => exact safe_pure _
    next =>
      split
      next => exact safe_pure _
      next =>
        split
        next => exact safe_pure _
        next =>
          split
          next => exact safe_pure _
          next definition hparse =>
            refine (safe_createDefinition distinct hparse).bind fun outcome => ?_
            cases outcome <;> exact safe_pure _

theorem safe_answerUpdate (distinct : Function.Injective fun n => (srv.clock n).revision)
    (name : Text) (r : Http.Request) : Safe srv.clock (srv.answerUpdate name r) := by
  unfold answerUpdate
  split
  next => exact safe_pure _
  next body _ =>
    dsimp only
    split
    next => exact safe_pure _
    next definition hdefinition =>
      have hparse : ∀ d, definition = some d →
          body.source ≠ [] ∧ Definition.parse body.source = .ok d := by
        rintro d rfl
        split at hdefinition
        next => cases hdefinition
        next =>
          obtain ⟨e, he, hed⟩ := map_eq_ok.mp hdefinition
          cases hed
          exact ⟨source_ne_nil he, he⟩
      refine (safe_updateDefinition distinct hparse).bind fun outcome => ?_
      cases outcome <;> exact safe_pure _

theorem safe_answerCompile (r : Http.Request) : Safe clock (srv.answerCompile r) := by
  unfold answerCompile
  split
  next => exact safe_pure _
  next =>
    split
    next => exact safe_pure _
    next =>
      refine (safe_compileSource _).bind fun outcome => ?_
      cases outcome <;> exact safe_pure _

/-- The answers of resources that show what became of a definition show what its source comes
to. -/
def ServesFresh (c : Compiler) : Resource → Http.Response → Prop
  | .compilation name, answer => ∃ outcome, Fresh c name outcome ∧ answer = compilationAnswer outcome
  | .page name, answer =>
    ∃ outcome t count, Fresh c name outcome ∧ answer = pageAnswer t count name outcome
  | _, _ => True

theorem keeps_answerCompilation (name : Text) (w : Ties) :
    Keeps (ServiceState.Tied clock) (fun _ => ServesFresh srv.compiler (.compilation name))
      (srv.answerCompilation name) w := by
  refine (keeps_compileDefinition name w).bind fun v _ outcome hfresh => ?_
  exact keeps_pure fun _ _ => ⟨outcome, hfresh, rfl⟩

theorem keeps_answerPage (name : Text) (w : Ties) :
    Keeps (ServiceState.Tied clock) (fun _ => ServesFresh srv.compiler (.page name))
      (srv.answerPage name) w := by
  refine (keeps_compileDefinition name w).bind fun v _ outcome hfresh => ?_
  refine (safe_looked v).bind fun u _ count _ => (safe_read _ u).bind fun _ _ t _ => ?_
  exact keeps_pure fun _ _ => ⟨outcome, t, count, hfresh, rfl⟩

theorem keeps_answerOf (distinct : Function.Injective fun n => (srv.clock n).revision)
    (resource : Resource) (method : Http.Method) (r : Http.Request) (w : Ties) :
    Keeps (ServiceState.Tied srv.clock) (fun _ => ServesFresh srv.compiler resource)
      (srv.answerOf resource method r) w := by
  have got : ∀ name, Safe srv.clock (answerGet name) := by
    intro name
    refine safe_looked.bind fun outcome => ?_
    cases outcome <;> exact safe_pure _
  have deleted : ∀ name, Safe srv.clock (answerDelete name) := by
    intro name
    refine (safe_deleteDefinition name).bind fun outcome => ?_
    cases outcome <;> exact safe_pure _
  unfold answerOf
  split
  · exact safe_answerCompile r w
  · exact safe_answerCreate distinct r w
  · exact (safe_looked.bind fun _ => safe_pure _) w
  · exact safe_answerUpdate distinct _ r w
  · exact deleted _ w
  · exact got _ w
  · exact keeps_answerCompilation _ w
  · exact (safe_looked.bind fun _ => safe_pure _) w
  · exact ((safe_read _).bind fun _ => safe_pure _) w
  · exact (safe_looked.bind fun _ => (safe_read _).bind fun _ => safe_pure _) w
  · exact keeps_answerPage _ w
  · exact safe_pure _ w

/-- A request that is answered by a resource is answered freshly. -/
def AnswersFresh (c : Compiler) (r : Http.Request) (response : Http.Response) : Prop :=
  ∀ method, r.method? = some method → ∃ hasMetrics, ∀ resource,
    (Resource.ofPath hasMetrics r.path).find? (·.answers method) = some resource →
      ∃ answer, ServesFresh c resource answer ∧ response = r.sent answer

theorem keeps_handle (distinct : Function.Injective fun n => (srv.clock n).revision)
    (r : Http.Request) (w : Ties) :
    Keeps (ServiceState.Tied srv.clock) (fun _ => AnswersFresh srv.compiler r) (srv.handle r) w := by
  unfold handle
  split
  next none => exact keeps_pure fun _ _ method hmethod => by simp [none] at hmethod
  next method hmethod =>
    have only : ∀ m, r.method? = some m → m = method := fun m hm =>
      Option.some.inj (hm.symm.trans hmethod)
    refine (safe_read _ w).bind fun v _ hasMetrics _ => ?_
    dsimp only
    split
    next resource hfind =>
      refine (keeps_answerOf distinct resource method r v).bind fun _ _ answer hanswer => ?_
      refine keeps_pure fun _ _ m hm => ⟨hasMetrics, fun other hother => ?_⟩
      cases only m hm
      cases hother.symm.trans hfind
      exact ⟨answer, hanswer, rfl⟩
    next hfind =>
      refine keeps_pure fun _ _ m hm => ⟨hasMetrics, fun other hother => ?_⟩
      cases only m hm
      cases hother.symm.trans hfind

end Service

namespace RpcServer

open Service (Safe safe_pure safe_noted safe_looked safe_logged)

variable {clock : Clock} {srv : RpcServer}

theorem safe_documentOf (source : Text) : Safe clock (srv.documentOf source) := by
  unfold documentOf
  dsimp only
  split
  next => exact (safe_noted _).bind fun _ => safe_pure _
  next => exact safe_pure _

theorem safe_call (method : Rpc.Method) (m : Rpc.Message) : Safe clock (srv.call method m) := by
  have compiled : Safe clock (srv.compile m) := by
    unfold compile
    split
    next => exact safe_pure _
    next => exact (safe_documentOf _).bind fun _ => safe_pure _
  have validated : Safe clock (srv.validate m) := by
    unfold validate
    split
    next => exact safe_pure _
    next => exact (safe_documentOf _).bind fun _ => safe_pure _
  have stored : Safe clock (srv.compileDefinition m) := by
    unfold compileDefinition
    dsimp only
    split
    next => exact safe_pure _
    next =>
      refine safe_looked.bind fun outcome => ?_
      cases outcome with
      | error e => exact safe_pure _
      | ok d => exact (safe_documentOf _).bind fun _ => safe_pure _
  have logs : ∀ result, Safe clock (do
      if srv.logsCalls then Service.logged (callLine method result)
      pure result : Service.Request (Except Rpc.Failure Rpc.Message)) := by
    intro result
    split
    next => exact (safe_logged _).bind fun _ => safe_pure _
    next => exact safe_pure _
  cases method with
  | compile => exact compiled.bind logs
  | validate => exact validated.bind logs
  | compileDefinition => exact stored.bind logs

end RpcServer

/-- What goes on in a service: requests, and a file that ceases to take writes or takes them again. -/
inductive Job where
  | http (r : Http.Request)
  | load (dir : Directory)
  | compile (name : Text)
  | call (server : RpcServer) (method : Rpc.Method) (m : Rpc.Message)
  | fault (reason : Option Text)
  | close

namespace Job

inductive Result where
  | response (r : Http.Request) (answer : Http.Response)
  | loaded (count : Nat)
  | compiled (name : Text)
    (outcome : Except StoreError (StoredDefinition × Except Definition.Failure Value))
  | reply (outcome : Except Rpc.Failure Rpc.Message)
  | done

def onStore (f : Store → Store) : Service.Request Unit :=
  Service.onStore (.modify fun s => { s with store := f s.store })

def program (srv : Service) : Job → Service.Request Result
  | .http r => do
    let answer ← srv.handle r
    pure (.response r answer)
  | .load dir => do
    let count ← srv.loadDirectory dir
    pure (.loaded count)
  | .compile name => do
    let outcome ← srv.compileDefinition name
    pure (.compiled name outcome)
  | .call server method m => do
    let outcome ← server.call method m
    pure (.reply outcome)
  | .fault reason => do
    onStore (Store.withFault reason)
    pure .done
  | .close => do
    onStore Store.close
    pure .done

/-- What a job shows of definitions is what their sources come to. -/
def Result.IsFresh (c : Compiler) : Result → Prop
  | .response r answer => Service.AnswersFresh c r answer
  | .compiled name outcome => Service.Fresh c name outcome
  | _ => True

theorem safe_onStore {clock : Clock} {f : Store → Store}
    (hf : ∀ s, (f s).definitions = s.definitions) : Service.Safe clock (onStore f) := by
  refine fun w => Service.keeps_onStore (keeps_modify fun v _ s hs => ⟨?_, ?_, hs.unused⟩)
  · simp only [hf]
    exact hs.named
  · simp only [hf]
    exact hs.tied

theorem keeps_program {srv : Service}
    (distinct : Function.Injective fun n => (srv.clock n).revision) (job : Job) (w : Ties) :
    Keeps (ServiceState.Tied srv.clock) (fun _ => Result.IsFresh srv.compiler) (job.program srv) w := by
  cases job with
  | http r =>
    exact (Service.keeps_handle distinct r w).bind fun _ _ _ hfresh => keeps_pure fun _ _ => hfresh
  | load dir =>
    exact (Service.safe_loadDirectory distinct dir w).bind fun _ _ _ _ => keeps_pure fun _ _ => trivial
  | compile name =>
    exact (Service.keeps_compileDefinition name w).bind fun _ _ _ hfresh => keeps_pure fun _ _ => hfresh
  | call server method m =>
    exact (RpcServer.safe_call method m w).bind fun _ _ _ _ => keeps_pure fun _ _ => trivial
  | fault reason =>
    have safe : Service.Safe srv.clock (onStore (Store.withFault reason)) := safe_onStore fun _ => rfl
    exact (safe w).bind fun _ _ _ _ => keeps_pure fun _ _ => trivial
  | close =>
    have safe : Service.Safe srv.clock (onStore Store.close) := safe_onStore fun _ => rfl
    exact (safe w).bind fun _ _ _ _ => keeps_pure fun _ _ => trivial

end Job

namespace Store

/-- A store as it is at first: empty, or with what its database holds. -/
def IsInitial (s : Store) : Prop := s = {} ∨ ∃ entries, ofEntries entries = .ok s

theorem load_named {entries : List (Text × Text)} {acc t : Table StoredDefinition}
    (h : load acc entries = .ok t) (sorted : acc.IsSorted) (named : ∀ p ∈ acc, p.1 = p.2.name) :
    t.IsSorted ∧ ∀ p ∈ t, p.1 = p.2.name := by
  induction entries generalizing acc with
  | nil =>
    cases h
    exact ⟨sorted, named⟩
  | cons entry entries ih =>
    obtain ⟨key, data⟩ := entry
    rw [load] at h
    split at h
    next d _ =>
      refine ih h (sorted.insert d.name d) fun p hp => ?_
      rcases Table.mem_insert hp with rfl | hp
      · rfl
      · exact named p hp
    next => cases h

theorem IsInitial.named {s : Store} (h : s.IsInitial) :
    s.definitions.IsSorted ∧ ∀ p ∈ s.definitions, p.1 = p.2.name := by
  rcases h with rfl | ⟨entries, h⟩
  · exact ⟨.nil, by simp⟩
  · obtain ⟨definitions, hload, h⟩ := bind_eq_ok.mp h
    cases h
    exact load_named hload .nil (by simp)

/-- The revisions that are stored stand for the sources that are stored. -/
def ties (s : Store) : Ties where
  source? name revision :=
    match s.definitions.get? name with
    | some d => if d.revision = revision then some d.source else none
    | none => none

end Store

theorem SharedStore.tied_ties {clock : Clock} {s : SharedStore} (initial : s.store.IsInitial)
    (new : ∀ n, ∀ d ∈ s.store.list, (clock n).revision ≠ d.revision) :
    s.Tied clock s.store.ties := by
  obtain ⟨sorted, named⟩ := initial.named
  refine ⟨named, fun p hp => ?_, fun n _ name => ?_⟩
  · have held : s.store.definitions.get? p.2.name = some p.2 := by
      rw [sorted.get?_eq_some, ← named p hp]
      exact hp
    simp [Ties.Tied, Store.ties, held]
  · simp only [Store.ties]
    split
    next d held =>
      have listed : d ∈ s.store.list := List.mem_map_of_mem (Table.mem_of_get? held)
      exact if_neg (Ne.symm (new n d listed))
    next => rfl

namespace RpcServer

variable {server : RpcServer}

theorem run_documentOf (source : Text) (s : ServiceState) :
    ((server.documentOf source).run s).1 =
      (Definition.outcomeOf server.compiler source).1.mapError .definition := by
  unfold documentOf
  dsimp only
  split <;> rfl

/-- The call that parses anew gives what the source of the definition comes to. -/
theorem run_compileDefinition {m : Rpc.Message} {d : StoredDefinition} {s : ServiceState}
    (hname : Rpc.textOf "name" m = d.name) (hne : d.name ≠ [])
    (held : s.shared.store.get d.name = .ok d) :
    ((server.compileDefinition m).run s).1 =
      ((Definition.outcomeOf server.compiler d.source).1.mapError .definition).bind fun v =>
        Rpc.documentMessage v
          [(text "name", .string d.name), (text "revisionId", .string d.revision)] := by
  have looked : ((Service.onStore (SharedStore.get d.name)).run s) = (.ok d, s) := by
    rw [← held]
    rfl
  have named : ¬ d.name.isEmpty = true := by simpa using hne
  unfold compileDefinition
  dsimp only
  rw [hname, if_neg named, Program.run_bind, looked]
  dsimp only
  rw [Program.run_bind, ← run_documentOf d.source s]
  rfl

end RpcServer

/-- Whatever else goes on, compiling a stored definition gives what its source comes to, which is what
the call that parses anew gives; so do the answers that show it. Revisions only have to be all
different, and different from those stored at first. -/
theorem compiled_definitions_fresh (srv : Service) (shared : SharedStore) (withMetrics : Bool)
    (initial : shared.store.IsInitial)
    (distinct : Function.Injective fun n => (srv.clock n).revision)
    (new : ∀ n, ∀ d ∈ shared.store.list, (srv.clock n).revision ≠ d.revision)
    (pool : Program.Pool ServiceState Job.Result)
    (reached : Program.Pool.Reaches (fun p => ∃ job : Job, p = job.program srv)
      (Service.start shared withMetrics) pool) :
    (∀ name d result, .done (.compiled name (.ok (d, result))) ∈ pool.programs →
      d.name = name ∧ result = (Definition.outcomeOf srv.compiler d.source).1 ∧
        ∀ (server : RpcServer) m s, server.compiler = srv.compiler →
          Rpc.textOf "name" m = d.name → d.name ≠ [] → s.shared.store.get d.name = .ok d →
          ((server.compileDefinition m).run s).1 =
            (result.mapError .definition).bind fun v => Rpc.documentMessage v
              [(text "name", .string d.name), (text "revisionId", .string d.revision)]) ∧
    ∀ r answer, .done (.response r answer) ∈ pool.programs →
      Service.AnswersFresh srv.compiler r answer := by
  have starts : ∀ p, (∃ job : Job, p = job.program srv) → ∀ w,
      Keeps (ServiceState.Tied srv.clock) (fun _ => Job.Result.IsFresh srv.compiler) p w := by
    rintro p ⟨job, rfl⟩ w
    exact job.keeps_program distinct w
  have tied : (Service.start shared withMetrics).Tied srv.clock shared.store.ties :=
    ⟨SharedStore.tied_ties initial new, by simp [Service.start]⟩
  refine ⟨fun name d result finished => ?_, fun r answer finished => ?_⟩
  · obtain ⟨-, -, fresh⟩ := reached.result starts tied finished
    obtain ⟨hname, hresult⟩ := fresh d result rfl
    refine ⟨hname, hresult, fun server m s hcompiler hm hne held => ?_⟩
    rw [RpcServer.run_compileDefinition hm hne held, hcompiler, hresult]
  · obtain ⟨-, -, fresh⟩ := reached.result starts tied finished
    exact fresh

/-- A service whose revisions are numbered. -/
def numberedService : Service := { clock := fun n => ⟨Text.ofNat n, .ofSeconds n⟩ }

def storedSum : StoredDefinition :=
  { name := text "sum", source := text "expression: $a", revision := text "first" }

/-- The store of a database with one definition. -/
def openedSum : SharedStore where
  store :=
    { definitions := [(text "sum", storedSum)]
      database := some { entries := [(text "sum", storedSum.encode)] } }

/-- Compiling goes on with the definition that was found, whatever happens to it meanwhile. -/
theorem compile_after_look {srv : Service} {name : Text} {s : ServiceState} {d : StoredDefinition}
    (held : s.shared.store.get name = .ok d) :
    ∃ change next, (Job.compile name).program srv = .step change next ∧ change s = s ∧
      ∀ t, ∃ result, ((next s).run t).1 = .compiled name (.ok (d, result)) := by
  refine ⟨_, _, rfl, rfl, fun t => ⟨((srv.compileStored d).run t).1, ?_⟩⟩
  -- Only the first step looks at the store, so the state `t` of the others does not matter.
  simp only [held]
  change (((srv.compileStored d >>= fun result => pure (Except.ok (d, result))) >>= fun outcome =>
    pure (Job.Result.compiled name outcome)).run t).1 = _
  rw [Program.run_bind, Program.run_bind]
  rfl

/-- A definition can be compiled with any other job between finding it and going on. -/
theorem exists_compiled (srv : Service) {name : Text} {s : ServiceState} {d : StoredDefinition}
    (held : s.shared.store.get name = .ok d) (other : Job) :
    ∃ pool result, Program.Pool.Reaches (fun p => ∃ job : Job, p = job.program srv) s pool ∧
      .done (.compiled name (.ok (d, result))) ∈ pool.programs := by
  obtain ⟨change, next, first, unchanged, last⟩ := @compile_after_look srv name s d held
  have started : Program.Pool.Reaches (fun p => ∃ job : Job, p = job.program srv) s
      ⟨s, [(Job.compile name).program srv]⟩ := .tail .refl (.start ⟨_, rfl⟩ _ [])
  rw [first] at started
  have looked := started.tail (.step s [] [] change next)
  rw [unchanged] at looked
  have begun := looked.tail (.start ⟨other, rfl⟩ s [next s])
  have ended := @Program.Pool.Reaches.run _ _ _ _ _ _ [] _ begun
  have compiled := @Program.Pool.Reaches.run _ _ _ _ _ _ [_] [] ended
  obtain ⟨result, finished⟩ := last ((other.program srv).run s).2
  rw [finished] at compiled
  exact ⟨_, result, compiled, by simp⟩

/-- A definition is compiled from its old source although a directory with another is loaded after it
was found. -/
theorem openedSum_compiled_fresh :
    ∃ pool result,
      Program.Pool.Reaches (fun p => ∃ job : Job, p = job.program numberedService)
        (Service.start openedSum false) pool ∧
      .done (.compiled (text "sum") (.ok (storedSum, result))) ∈ pool.programs ∧
      result = (Definition.outcomeOf numberedService.compiler (text "expression: $a")).1 := by
  have initial : openedSum.store.IsInitial :=
    .inr ⟨[(text "sum", storedSum.encode)], by decide +kernel⟩
  have distinct : Function.Injective fun n => (numberedService.clock n).revision := by
    intro m n h
    have values := congrArg Text.digitsValue h
    rwa [numberedService, Text.digitsValue_ofNat, Text.digitsValue_ofNat] at values
  have new : ∀ n, ∀ d ∈ openedSum.store.list, (numberedService.clock n).revision ≠ d.revision := by
    intro n d hd heq
    cases List.mem_singleton.mp hd
    have revision : Text.ofNat n = text "first" := heq
    have letter : (0x66 : UInt8) ∈ Text.ofNat n := by
      rw [revision]
      decide
    exact absurd (Text.isDigit_of_mem_ofNat letter) (by decide)
  obtain ⟨pool, result, reached, finished⟩ :=
    @exists_compiled numberedService (text "sum") (Service.start openedSum false) storedSum rfl
      (.load [(text "sum.yaml", .file (text "expression: $b"))])
  obtain ⟨fresh, -⟩ := compiled_definitions_fresh numberedService openedSum false initial distinct new
    pool reached
  exact ⟨pool, result, reached, finished, (fresh _ _ _ finished).2.1⟩

end ScopedAggregation
