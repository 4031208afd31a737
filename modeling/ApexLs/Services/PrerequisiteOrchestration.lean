import ApexLs.Collections.Runs
import ApexLs.Services.InFlightPrerequisiteRegistry

/-! The orchestration of prerequisites. Requests and the runners they start are interleaved at
their awaits; what they were answered is recorded in a log. -/
namespace ApexLs.Services

open ApexLs.Collections ApexLs.Types

inductive CoordinatedRequestType where
  | fileOpenSingle
  | documentOpen
  | diagnostics
  | definition
  | signatureHelp
  | references
  | rename
  deriving DecidableEq, Repr

structure PrerequisiteRequirements where
  requiredDetailLevel : Option DetailLevel
  requiresCrossFileResolution : Bool
  blocking : Bool
  deriving DecidableEq, Repr

structure CachedDocument where
  documentVersion : Int
  detailLevel : Option DetailLevel
  enrichmentFailed : Bool
  deriving DecidableEq, Repr

/-- What is known of a file at some moment: it was observed at a level, or enriching it to that
level was awaited; or its cross-file resolution was observed complete or awaited. -/
inductive Fact where
  | level (fileUri : String) (level : DetailLevel)
  | crossFile (fileUri : String)
  deriving DecidableEq, Repr

def pickHighestDetailLevel (a b : Option DetailLevel) : Option DetailLevel :=
  match a,b with
  | none,_ => b
  | _,none => a
  | some x,some y => if y.order ≤ x.order then a else b

inductive RequestStage where
  | detailLevel (cacheDetailLevel : Option DetailLevel)
  | symbolTable (currentDetailLevel : Option DetailLevel)
  deriving DecidableEq, Repr

structure Request where
  requestType : CoordinatedRequestType
  fileUri : String
  requirements : PrerequisiteRequirements
  stage : RequestStage
  deriving DecidableEq, Repr

/-- What a runner awaits. `returned` and `thrown` stand between the end of its loop and the
callback of `then` or `catch`. -/
inductive RunnerStage where
  | detailLevel (cacheDetailLevel : Option DetailLevel)
  | symbolTable (currentDetailLevel : Option DetailLevel)
  | enriching (level : DetailLevel) (needsCrossFileResolution : Bool)
  | resolving
  | missingArtifacts
  | signalling
  | returned
  | thrown
  deriving DecidableEq, Repr

/-- A run of `runCoordinatedPrerequisites`, with the entry its request acquired. -/
structure Runner where
  requestType : CoordinatedRequestType
  key : PrerequisiteKey
  acquired : Nat
  entry : Nat
  revision : Nat := 0
  lastObservedRevision : Option Nat := none
  iterations : Nat := 0
  stage : RunnerStage
  deriving DecidableEq, Repr

/-- The service: the registry, the documents, the log, and what waits. `joined` lists the entries
that blocking requests joined, with what they asked for; `completions` the entry each finished
runner had acquired and the one it completed. -/
structure Orchestration where
  registry : InFlightPrerequisiteRegistry
  documents : String → Option CachedDocument
  log : List Fact := []
  requests : List Request := []
  runners : List Runner := []
  joined : List (Nat × PrerequisiteRequestSpec) := []
  completions : List (Nat × Nat) := []

namespace Orchestration

def MAX_REVISION_ITERATIONS : Nat := 10

def start (documents : String → Option CachedDocument) : Orchestration where
  registry := .empty
  documents := documents

def cacheDetailLevel (s : Orchestration) (fileUri : String) : Option DetailLevel :=
  (s.documents fileUri).bind CachedDocument.detailLevel

def loopHead (s : Orchestration) (r : Runner) : Runner :=
  match s.registry.entries.get? r.key with
  | none => { r with stage := .returned }
  | some id =>
    { r with
      entry := id
      revision := (s.registry.object id).revision
      stage := .detailLevel (s.cacheDetailLevel r.key.fileUri) }

/-- `requestType === 'file-open-single' || requestType === 'documentOpen'`. -/
def signalsRefresh (requestType : CoordinatedRequestType) : Bool :=
  requestType = .fileOpenSingle || requestType = .documentOpen

/-- The bottom of the runner's loop: has the entry been raised meanwhile? -/
def loopEnd (s : Orchestration) (r : Runner) : Runner :=
  match s.registry.entries.get? r.key with
  | none => { r with stage := .returned }
  | some id =>
    let latestRevision := (s.registry.object id).revision
    if latestRevision = r.revision then
      { r with stage := if signalsRefresh r.requestType then .signalling else .returned }
    else if r.lastObservedRevision = some latestRevision then { r with stage := .returned }
    else
      let r := { r with lastObservedRevision := some latestRevision,iterations := r.iterations + 1 }
      if r.iterations < MAX_REVISION_ITERATIONS then s.loopHead r else { r with stage := .returned }

/-- The coordinated branch of `runPrerequisitesForLspRequestType`, after its awaits. -/
def coordinate (s : Orchestration) (request : Request) (currentDetailLevel : Option DetailLevel)
    (hasCrossFileResolution : Bool) : Orchestration :=
  let document := s.documents request.fileUri
  let required := request.requirements.requiredDetailLevel
  let needsEnrichment := !document.any CachedDocument.enrichmentFailed && !reaches currentDetailLevel required
  let needsCrossFileResolution := request.requirements.requiresCrossFileResolution && !hasCrossFileResolution
  if needsEnrichment || needsCrossFileResolution then
    let cachedVersion := document.elim (-1) CachedDocument.documentVersion
    let s := { s with registry := s.registry.evictStaleForUri request.fileUri cachedVersion }
    let requestSpec : PrerequisiteRequestSpec := ⟨request.fileUri,cachedVersion,required,needsCrossFileResolution⟩
    if s.registry.isSatisfied requestSpec then s
    else
      let (registry,acquired) := s.registry.acquireOrJoin s.log.length requestSpec
      let s := { s with registry := registry }
      if acquired.joined then
        if request.requirements.blocking then { s with joined := s.joined ++ [(acquired.entry,requestSpec)] } else s
      else
        let runner : Runner :=
          { requestType := request.requestType,key := requestSpec.key,acquired := acquired.entry
            entry := acquired.entry,stage := .returned }
        { s with runners := s.runners ++ [s.loopHead runner] }
  else s

inductive Answer where
  | detailLevel (level : Option DetailLevel)
  | symbolTable (hasCrossFileResolution : Bool)
  | done
  | rejects
  deriving DecidableEq, Repr

def note (s : Orchestration) (facts : List Fact) : Orchestration := { s with log := s.log ++ facts }

def levelSeen (fileUri : String) (current : Option DetailLevel) : List Fact := current.toList.map (.level fileUri)

def crossFileSeen (fileUri : String) (resolved : Bool) : List Fact := if resolved then [.crossFile fileUri] else []

def resumeRequest (s : Orchestration) (i : Nat) (answer : Answer) : Orchestration :=
  match s.requests[i]? with
  | none => s
  | some request =>
    match request.stage,answer with
    | .detailLevel cached,.detailLevel level =>
      let current := pickHighestDetailLevel level cached
      { s with requests := s.requests.set i { request with stage := .symbolTable current } }.note
        (levelSeen request.fileUri current)
    | .symbolTable current,.symbolTable resolved =>
      ({ s with requests := s.requests.eraseIdx i }.note (crossFileSeen request.fileUri resolved)).coordinate request
        current resolved
    | _,.rejects => { s with requests := s.requests.eraseIdx i }
    | _,_ => s

def advance (s : Orchestration) (i : Nat) (r : Runner) : Orchestration := { s with runners := s.runners.set i r }

/-- The symbol table has come: what the entry asks for by now is compared with what there is. -/
def afterTable (s : Orchestration) (r : Runner) (current : Option DetailLevel) (resolved : Bool) : Runner :=
  let entry := s.registry.object r.entry
  let needsCrossFileResolution := entry.needsCrossFileResolution && !resolved
  match entry.targetDetailLevel with
  | some target =>
    if reaches current (some target) then
      if needsCrossFileResolution then { r with stage := .resolving } else s.loopEnd r
    else { r with stage := .enriching target needsCrossFileResolution }
  | none => if needsCrossFileResolution then { r with stage := .resolving } else s.loopEnd r

/-- The callback of `then`: the runner completes what stands under its key. -/
def finish (s : Orchestration) (i : Nat) (r : Runner) : Orchestration :=
  { s with
    registry := s.registry.complete r.key
    runners := s.runners.eraseIdx i
    completions := s.completions ++ (s.registry.entries.get? r.key).toList.map (r.acquired,·) }

def resumeRunner (s : Orchestration) (i : Nat) (answer : Answer) : Orchestration :=
  match s.runners[i]? with
  | none => s
  | some r =>
    match r.stage,answer with
    | .detailLevel cached,.detailLevel level =>
      let current := pickHighestDetailLevel level cached
      (s.note (levelSeen r.key.fileUri current)).advance i { r with stage := .symbolTable current }
    | .symbolTable current,.symbolTable resolved =>
      let s := s.note (crossFileSeen r.key.fileUri resolved)
      s.advance i (s.afterTable r current resolved)
    | .enriching level needsCrossFileResolution,.done =>
      let s := s.note [.level r.key.fileUri level]
      s.advance i (if needsCrossFileResolution then { r with stage := .resolving } else s.loopEnd r)
    | .resolving,.done =>
      let s := s.note [.crossFile r.key.fileUri]
      s.advance i (if r.requestType ≠ .diagnostics then { r with stage := .missingArtifacts } else s.loopEnd r)
    | .missingArtifacts,.done => s.advance i (s.loopEnd r)
    | .signalling,.done | .signalling,.rejects => s.advance i { r with stage := .returned }
    | .returned,.done => s.finish i r
    | .thrown,.done => { s with registry := s.registry.fail r.key,runners := s.runners.eraseIdx i }
    | .returned,_ | .thrown,_ => s
    | _,.rejects => s.advance i { r with stage := .thrown }
    | _,_ => s

inductive Event where
  | document (fileUri : String) (state : Option CachedDocument)
  | evictStale (fileUri : String) (currentVersion : Int)
  | request (requestType : CoordinatedRequestType) (fileUri : String) (requirements : PrerequisiteRequirements)
  | resumeRequest (i : Nat) (answer : Answer)
  | resumeRunner (i : Nat) (answer : Answer)

def step (s : Orchestration) : Event → Orchestration
  | .document fileUri state => { s with documents := Function.update s.documents fileUri state }
  | .evictStale fileUri currentVersion => { s with registry := s.registry.evictStaleForUri fileUri currentVersion }
  | .request requestType fileUri requirements =>
    { s with requests := s.requests ++ [⟨requestType,fileUri,requirements,.detailLevel (s.cacheDetailLevel fileUri)⟩] }
  | .resumeRequest i answer => s.resumeRequest i answer
  | .resumeRunner i answer => s.resumeRunner i answer

/-- The log since some moment has a level that reaches the target, and the cross-file
resolution where it is needed. -/
structure Covered (log : List Fact) (since : Nat) (fileUri : String) (target : Option DetailLevel)
    (crossFile : Bool) : Prop where
  level : ∀ t, target = some t → ∃ l, Fact.level fileUri l ∈ log.drop since ∧ t.order ≤ l.order
  crossFile : crossFile = true → Fact.crossFile fileUri ∈ log.drop since

def Done (s : Orchestration) (id : Nat) (spec : PrerequisiteRequestSpec) : Prop :=
  Covered s.log (s.registry.object id).createdAt spec.fileUri spec.targetDetailLevel spec.needsCrossFileResolution

/-- A prerequisite is reported satisfied only if it was done, and a runner completes its own
entry only. -/
structure Sound (s : Orchestration) : Prop where
  satisfied : ∀ spec, s.registry.isSatisfied spec = true →
    ∃ id, (s.registry.object id).key = spec.key ∧ (s.registry.object id).promise = some .completed ∧ s.Done id spec
  resolved : ∀ id spec, (id,spec) ∈ s.joined → (s.registry.object id).promise = some .completed → s.Done id spec
  own : ∀ acquired completed, (acquired,completed) ∈ s.completions → acquired = completed

/-- When a runner comes to complete its key, the entry there is the one it acquired, and nobody
has raised it since the runner last read its revision. -/
def Steady (s : Orchestration) : Event → Prop
  | .resumeRunner i .done => ∀ r, s.runners[i]? = some r → r.stage = .returned →
      ∀ id, s.registry.entries.get? r.key = some id →
        id = r.acquired ∧ (s.registry.object id).revision = r.revision
  | _ => True

instance (s : Orchestration) : (event : Event) → Decidable (s.Steady event)
  | .resumeRunner i .done => inferInstanceAs (Decidable (∀ r ∈ s.runners[i]?,r.stage = .returned →
      ∀ id ∈ s.registry.entries.get? r.key,id = r.acquired ∧ (s.registry.object id).revision = r.revision))
  | .resumeRunner _ (.detailLevel _) | .resumeRunner _ (.symbolTable _) | .resumeRunner _ .rejects => .isTrue trivial
  | .document _ _ | .evictStale _ _ | .request _ _ _ | .resumeRequest _ _ => .isTrue trivial

/-- What a runner knows at its stage, as long as its entry has not been raised. -/
def Knows (log : List Fact) (e : InFlightPrerequisiteEntry) : RunnerStage → Prop
  | .detailLevel _ | .thrown => True
  | .symbolTable current => ∀ l, current = some l → Fact.level e.key.fileUri l ∈ log.drop e.createdAt
  | .enriching level needsCrossFileResolution => e.targetDetailLevel = some level ∧
      (e.needsCrossFileResolution = true → needsCrossFileResolution = false →
        Fact.crossFile e.key.fileUri ∈ log.drop e.createdAt)
  | .resolving => Covered log e.createdAt e.key.fileUri e.targetDetailLevel false
  | .missingArtifacts | .signalling | .returned =>
    Covered log e.createdAt e.key.fileUri e.targetDetailLevel e.needsCrossFileResolution

/-- A runner and the entry it acquired. While that entry is pending it is the one the runner
looks at, and what the runner knows is about it unless it has been raised. -/
structure Tended (registry : InFlightPrerequisiteRegistry) (log : List Fact) (r : Runner) : Prop where
  made : r.acquired < registry.made
  key : (registry.object r.acquired).key = r.key
  entry : (registry.object r.acquired).promise = none → r.entry = r.acquired
  revision : (registry.object r.acquired).promise = none → r.revision ≤ (registry.object r.acquired).revision
  knows : (registry.object r.acquired).promise = none → r.revision = (registry.object r.acquired).revision →
    Knows log (registry.object r.acquired) r.stage

structure Kept (s : Orchestration) : Prop where
  filed : s.registry.Filed
  created : ∀ id, id < s.registry.made → (s.registry.object id).createdAt ≤ s.log.length
  completed : ∀ key c, s.registry.completed.get? key = some c →
    c.entry < s.registry.made ∧ (s.registry.object c.entry).key = key ∧
      (s.registry.object c.entry).promise = some .completed ∧
      (s.registry.object c.entry).targetDetailLevel = c.targetDetailLevel ∧
      (s.registry.object c.entry).needsCrossFileResolution = c.needsCrossFileResolution
  covered : ∀ id, id < s.registry.made → (s.registry.object id).promise = some .completed →
    Covered s.log (s.registry.object id).createdAt (s.registry.object id).key.fileUri
      (s.registry.object id).targetDetailLevel (s.registry.object id).needsCrossFileResolution
  tended : ∀ r ∈ s.runners, Tended s.registry s.log r
  joined : ∀ id spec, (id,spec) ∈ s.joined → id < s.registry.made ∧ (s.registry.object id).key = spec.key ∧
    reaches (s.registry.object id).targetDetailLevel spec.targetDetailLevel = true ∧
    (spec.needsCrossFileResolution = true → (s.registry.object id).needsCrossFileResolution = true)
  own : ∀ acquired completed, (acquired,completed) ∈ s.completions → acquired = completed

section

variable {log : List Fact} {target target' : Option DetailLevel} {crossFile crossFile' : Bool}
  {registry after : InFlightPrerequisiteRegistry} {r : Runner}

theorem drop_append_of_mem (member : f ∈ log.drop n) (more : List Fact) :
    f ∈ (log ++ more).drop n := by
  rw [List.drop_append]
  exact List.mem_append_left _ member

theorem mem_drop_of_new (before : n ≤ log.length) (member : f ∈ more) :
    f ∈ (log ++ more).drop n := by
  rw [List.drop_append,Nat.sub_eq_zero_of_le before,List.drop_zero]
  exact List.mem_append_right _ member

theorem Covered.append (covered : Covered log since fileUri target crossFile) (more : List Fact) :
    Covered (log ++ more) since fileUri target crossFile where
  level t asked := by
    obtain ⟨l,member,deep⟩ := covered.level t asked
    exact ⟨l,drop_append_of_mem member more,deep⟩
  crossFile needed := drop_append_of_mem (covered.crossFile needed) more

theorem Covered.weaken (covered : Covered log since fileUri target crossFile)
    (less : reaches target target' = true) (narrower : crossFile' = true → crossFile = true) :
    Covered log since fileUri target' crossFile' where
  level t asked := by
    subst asked
    cases target with
    | none => simp [reaches] at less
    | some u =>
      simp only [reaches,Option.all_some,Option.any_some,decide_eq_true_eq] at less
      obtain ⟨l,member,deep⟩ := covered.level u rfl
      exact ⟨l,member,by omega⟩
  crossFile needed := covered.crossFile (narrower needed)

theorem Knows.append (knows : Knows log e stage) (more : List Fact) : Knows (log ++ more) e stage := by
  cases stage with
  | detailLevel _ => trivial
  | thrown => trivial
  | symbolTable current => exact fun l seen => drop_append_of_mem (knows l seen) more
  | enriching level needs => exact ⟨knows.1,fun asked none_ => drop_append_of_mem (knows.2 asked none_) more⟩
  | resolving | missingArtifacts | signalling | returned => exact Covered.append knows more

theorem Knows.of_same {e e' : InFlightPrerequisiteEntry} (knows : Knows log e stage) (key : e'.key = e.key)
    (createdAt : e'.createdAt = e.createdAt) (target : e'.targetDetailLevel = e.targetDetailLevel)
    (cross : e'.needsCrossFileResolution = e.needsCrossFileResolution) : Knows log e' stage := by
  cases stage with
  | detailLevel _ => trivial
  | thrown => trivial
  | symbolTable _ | enriching _ _ | resolving | missingArtifacts | signalling | returned =>
    simpa only [Knows,key,createdAt,target,cross] using knows

theorem Tended.append (tended : Tended registry log r) (more : List Fact) :
    Tended registry (log ++ more) r :=
  ⟨tended.made,tended.key,tended.entry,tended.revision,
    fun pending same => (tended.knows pending same).append more⟩

theorem Tended.later (tended : Tended registry log r)
    (later : registry.Later after) : Tended after log r := by
  have grown := later.grown r.acquired tended.made
  have pending : (after.object r.acquired).promise = none → (registry.object r.acquired).promise = none := by
    intro open_
    by_contra settled
    rw [grown.settled settled] at open_
    exact settled open_
  refine ⟨Nat.lt_of_lt_of_le tended.made later.made,grown.key.trans tended.key,
    fun open_ => tended.entry (pending open_),fun open_ => ?_,fun open_ same => ?_⟩
  · exact Nat.le_trans (tended.revision (pending open_)) grown.revision
  · have low := tended.revision (pending open_)
    have up := grown.revision
    have asks := grown.same (by omega)
    exact (tended.knows (pending open_) (by omega)).of_same grown.key grown.createdAt asks.1 asks.2

theorem loopHead_tended {s : Orchestration} (filed : s.registry.Filed) (made : r.acquired < s.registry.made)
    (key : (s.registry.object r.acquired).key = r.key) : Tended s.registry s.log (s.loopHead r) := by
  have stands : (s.registry.object r.acquired).promise = none → s.registry.entries.get? r.key = some r.acquired := by
    intro pending
    rw [← key]
    exact filed.pending r.acquired made pending
  rw [loopHead]
  cases found : s.registry.entries.get? r.key with
  | none =>
    rw [found] at stands
    refine ⟨made,key,fun pending => ?_,fun pending => ?_,fun pending => ?_⟩
    all_goals exact absurd (stands pending) (by simp)
  | some id =>
    rw [found] at stands
    refine ⟨made,key,fun pending => Option.some.inj (stands pending),fun pending => ?_,fun _ _ => trivial⟩
    exact Nat.le_of_eq (by rw [Option.some.inj (stands pending)])

theorem loopEnd_tended {s : Orchestration} (filed : s.registry.Filed)
    (tended : Tended s.registry s.log { r with stage := .missingArtifacts }) :
    Tended s.registry s.log (s.loopEnd r) := by
  have stands : (s.registry.object r.acquired).promise = none → s.registry.entries.get? r.key = some r.acquired := by
    intro pending
    have own := filed.pending r.acquired tended.made pending
    rwa [show (s.registry.object r.acquired).key = r.key from tended.key] at own
  rw [loopEnd]
  cases found : s.registry.entries.get? r.key with
  | none =>
    rw [found] at stands
    refine ⟨tended.made,tended.key,fun pending => ?_,fun pending => ?_,fun pending => ?_⟩
    all_goals exact absurd (stands pending) (by simp)
  | some id =>
    rw [found] at stands
    dsimp only
    split
    · refine ⟨tended.made,tended.key,tended.entry,tended.revision,fun pending same => ?_⟩
      dsimp only
      split <;> exact tended.knows pending same
    · next raised =>
      have stale : (s.registry.object r.acquired).promise = none →
          r.revision ≠ (s.registry.object r.acquired).revision := by
        intro pending same
        apply raised
        rw [Option.some.inj (stands pending)]
        exact same.symm
      split
      · exact ⟨tended.made,tended.key,tended.entry,tended.revision,
          fun pending same => absurd same (stale pending)⟩
      · split
        · exact loopHead_tended filed tended.made tended.key
        · exact ⟨tended.made,tended.key,tended.entry,tended.revision,
            fun pending same => absurd same (stale pending)⟩

theorem Tended.stage {stage : RunnerStage} (tended : Tended registry log r)
    (knows : (registry.object r.acquired).promise = none → r.revision = (registry.object r.acquired).revision →
      Knows log (registry.object r.acquired) stage) :
    Tended registry log { r with stage := stage } :=
  ⟨tended.made,tended.key,tended.entry,tended.revision,knows⟩

/-- The symbol table tells what is missing of what the entry asks for: the next stage is to do
it, and the end of the loop is reached when nothing is missing. -/
theorem afterTable_tended {s : Orchestration} (filed : s.registry.Filed) (tended : Tended s.registry s.log r)
    (stage : r.stage = .symbolTable current)
    (seen : resolved = true → Fact.crossFile r.key.fileUri ∈ s.log.drop (s.registry.object r.acquired).createdAt) :
    Tended s.registry s.log (s.afterTable r current resolved) := by
  have known : (s.registry.object r.acquired).promise = none →
      r.revision = (s.registry.object r.acquired).revision → ∀ l, current = some l →
      Fact.level (s.registry.object r.acquired).key.fileUri l ∈ s.log.drop (s.registry.object r.acquired).createdAt := by
    intro pending same
    have knows := tended.knows pending same
    rwa [stage] at knows
  have looks := tended.entry
  rw [← tended.key] at seen
  -- what is known once the level is reached
  have reached : ∀ target, (s.registry.object r.entry).targetDetailLevel = target → reaches current target = true →
      (s.registry.object r.acquired).promise = none → r.revision = (s.registry.object r.acquired).revision →
      Covered s.log (s.registry.object r.acquired).createdAt (s.registry.object r.acquired).key.fileUri
        (s.registry.object r.acquired).targetDetailLevel false := by
    intro target asks deep pending same
    rw [looks pending] at asks
    refine ⟨fun t asked => ?_,fun needed => by cases needed⟩
    have deep : reaches current (some t) = true := by rwa [← asked,asks]
    cases current with
    | none => simp [reaches] at deep
    | some l =>
      simp only [reaches,Option.all_some,Option.any_some,decide_eq_true_eq] at deep
      exact ⟨l,known pending same l rfl,deep⟩
  have finish : ∀ target, (s.registry.object r.entry).targetDetailLevel = target → reaches current target = true →
      Tended s.registry s.log
        (if (s.registry.object r.entry).needsCrossFileResolution && !resolved then { r with stage := .resolving }
          else s.loopEnd r) := by
    intro target asks deep
    split
    · exact tended.stage (reached target asks deep)
    · next complete =>
      apply loopEnd_tended filed
      apply tended.stage
      intro pending same
      rw [looks pending] at complete
      refine ⟨(reached target asks deep pending same).level,fun needed => seen ?_⟩
      simpa [needed] using complete
  rw [afterTable]
  split
  · next target asks =>
    split
    · next deep => exact finish _ asks deep
    · apply tended.stage
      intro pending _
      rw [looks pending] at asks ⊢
      refine ⟨asks,fun needed none_ => seen ?_⟩
      simpa [needed] using none_
  · next asks => exact finish none asks rfl

end

section

variable {s : Orchestration}

theorem Kept.change {registry : InFlightPrerequisiteRegistry} (kept : s.Kept)
    (filed : registry.Filed) (quiet : s.registry.Quiet registry)
    (created : ∀ id, id < registry.made → id < s.registry.made ∨ (registry.object id).createdAt = s.log.length) :
    { s with registry := registry }.Kept := by
  have same : ∀ id, id < s.registry.made → (s.registry.object id).promise = some .completed →
      registry.object id = s.registry.object id := by
    intro id bound settled
    exact (quiet.later.grown id bound).settled (by simp [settled])
  constructor
  · exact filed
  · intro id bound
    rcases created id bound with old | new
    · dsimp only
      rw [(quiet.later.grown id old).createdAt]
      exact kept.created id old
    · exact Nat.le_of_eq new
  · intro key c found
    have before := kept.completed key c (quiet.completed key c found)
    dsimp only
    rw [same c.entry before.1 before.2.2.1]
    exact ⟨Nat.lt_of_lt_of_le before.1 quiet.later.made,before.2⟩
  · intro id bound settled
    obtain ⟨old,was⟩ := quiet.settled id bound settled
    dsimp only
    rw [same id old was]
    exact kept.covered id old was
  · exact fun r member => (kept.tended r member).later quiet.later
  · intro id spec member
    obtain ⟨bound,key,detail,cross⟩ := kept.joined id spec member
    have grown := quiet.later.grown id bound
    exact ⟨Nat.lt_of_lt_of_le bound quiet.later.made,grown.key.trans key,
      InFlightPrerequisiteRegistry.reaches_trans detail grown.detail,fun needed => grown.cross (cross needed)⟩
  · exact kept.own

theorem Kept.note (kept : s.Kept) (facts : List Fact) : (s.note facts).Kept where
  filed := kept.filed
  created id bound := by
    have before := kept.created id bound
    simp only [Orchestration.note,List.length_append] at before ⊢
    omega
  completed := kept.completed
  covered id bound settled := (kept.covered id bound settled).append facts
  tended r member := (kept.tended r member).append facts
  joined := kept.joined
  own := kept.own

theorem Kept.runners {runners : List Runner} (kept : s.Kept)
    (tended : ∀ r ∈ runners, Tended s.registry s.log r) :
    { s with runners := runners }.Kept :=
  ⟨kept.filed,kept.created,kept.completed,kept.covered,tended,kept.joined,kept.own⟩

theorem Kept.advance {r : Runner} (kept : s.Kept) (i : Nat) (tended : Tended s.registry s.log r) :
    (s.advance i r).Kept := by
  apply kept.runners
  intro other member
  rcases List.mem_or_eq_of_mem_set member with old | rfl
  · exact kept.tended other old
  · exact tended

theorem Kept.evict (kept : s.Kept) (fileUri : String) (currentVersion : Int) :
    { s with registry := s.registry.evictStaleForUri fileUri currentVersion }.Kept := by
  obtain ⟨filed,quiet,made⟩ := InFlightPrerequisiteRegistry.evictStaleForUri_spec kept.filed fileUri currentVersion
  exact kept.change filed quiet (fun id bound => .inl (made ▸ bound))

theorem Kept.coordinate (kept : s.Kept) (request : Request) (current : Option DetailLevel)
    (resolved : Bool) : (s.coordinate request current resolved).Kept := by
  rw [Orchestration.coordinate]
  dsimp only
  split
  · have evicted := kept.evict request.fileUri
      ((s.documents request.fileUri).elim (-1) CachedDocument.documentVersion)
    split
    · exact evicted
    · have acquired := InFlightPrerequisiteRegistry.acquireOrJoin_spec evicted.filed s.log.length
        ⟨request.fileUri,(s.documents request.fileUri).elim (-1) CachedDocument.documentVersion,
          request.requirements.requiredDetailLevel,request.requirements.requiresCrossFileResolution && !resolved⟩
      generalize InFlightPrerequisiteRegistry.acquireOrJoin _ _ _ = got at acquired ⊢
      obtain ⟨registry,result⟩ := got
      have next := evicted.change acquired.filed acquired.quiet acquired.created
      have inside := acquired.filed.filed _ _ acquired.found
      dsimp only
      split
      · split
        · refine ⟨next.filed,next.created,next.completed,next.covered,next.tended,?_,next.own⟩
          intro id spec member
          rcases List.mem_append.mp member with old | new
          · exact next.joined id spec old
          · cases List.mem_singleton.mp new
            exact ⟨inside.1,inside.2.1,acquired.detail,acquired.cross⟩
        · exact next
      · apply next.runners
        intro r member
        rcases List.mem_append.mp member with old | new
        · exact next.tended r old
        · cases List.mem_singleton.mp new
          exact loopHead_tended next.filed inside.1 inside.2.1
  · exact kept

theorem Kept.requests (kept : s.Kept) (requests : List Request) :
    { s with requests := requests }.Kept :=
  ⟨kept.filed,kept.created,kept.completed,kept.covered,kept.tended,kept.joined,kept.own⟩

theorem Kept.resumeRequest (kept : s.Kept) (i : Nat) (answer : Answer) :
    (s.resumeRequest i answer).Kept := by
  rw [Orchestration.resumeRequest]
  split
  · exact kept
  · split
    · exact (kept.requests _).note _
    · exact ((kept.requests _).note _).coordinate _ _ _
    · exact kept.requests _
    · exact kept

theorem Kept.finish (kept : s.Kept) (present : s.runners[i]? = some r)
    (stage : r.stage = .returned) (steady : s.Steady (.resumeRunner i .done)) : (s.finish i r).Kept := by
  have left : ∀ r' ∈ s.runners.eraseIdx i, Tended s.registry s.log r' :=
    fun r' member => kept.tended r' (List.mem_of_mem_eraseIdx member)
  rw [Orchestration.finish]
  cases found : s.registry.entries.get? r.key with
  | none =>
    rw [InFlightPrerequisiteRegistry.complete_absent found]
    refine ⟨kept.filed,kept.created,kept.completed,kept.covered,left,kept.joined,?_⟩
    simpa using kept.own
  | some id =>
    obtain ⟨rfl,unraised⟩ := steady r present stage id found
    have done := InFlightPrerequisiteRegistry.complete_spec kept.filed found
    have inside := kept.filed.filed r.key r.acquired found
    have knows := (kept.tended r (List.mem_of_getElem? present)).knows inside.2.2 unraised.symm
    rw [stage] at knows
    generalize s.registry.complete r.key = registry at done ⊢
    have object : ∀ other, registry.object other = s.registry.object other ∨
        other = r.acquired ∧ registry.object other = { s.registry.object other with promise := some .completed } := by
      intro other
      by_cases same : other = r.acquired
      · exact .inr ⟨same,by rw [same]; exact done.object⟩
      · exact .inl (done.others other same)
    constructor
    · exact done.filed
    · intro id bound
      have before := kept.created id (done.made ▸ bound)
      rcases object id with same | ⟨_,now⟩
      · dsimp only
        rwa [same]
      · dsimp only
        rwa [now]
    · intro key c entry
      dsimp only at entry ⊢
      rw [done.completed,OrderedMap.get?_set] at entry
      split at entry
      · next same =>
        cases entry
        dsimp only
        rw [done.made,done.object]
        exact ⟨inside.1,inside.2.1.trans same.symm,rfl,rfl,rfl⟩
      · have before := kept.completed key c entry
        have other : c.entry ≠ r.acquired := by
          intro same
          rw [same,inside.2.2] at before
          cases before.2.2.1
        rw [done.made,done.others c.entry other]
        exact before
    · intro id bound settled
      dsimp only at bound settled ⊢
      rcases object id with same | ⟨rfl,now⟩
      · rw [same] at settled ⊢
        exact kept.covered id (done.made ▸ bound) settled
      · rw [now]
        exact knows
    · exact fun r' member => (left r' member).later done.later
    · intro id spec member
      obtain ⟨bound,key,detail,cross⟩ := kept.joined id spec member
      dsimp only
      rw [done.made]
      rcases object id with same | ⟨_,now⟩
      · rw [same]
        exact ⟨bound,key,detail,cross⟩
      · rw [now]
        exact ⟨bound,key,detail,cross⟩
    · intro acquired completed member
      rcases List.mem_append.mp member with old | new
      · exact kept.own acquired completed old
      · simp only [Option.toList_some,List.map_cons,List.map_nil,List.mem_singleton,Prod.mk.injEq] at new
        exact new.1.trans new.2.symm

theorem Kept.fail (kept : s.Kept) (key : PrerequisiteKey) :
    { s with registry := s.registry.fail key }.Kept := by
  apply kept.change (kept.filed.remove key .rejected)
    (InFlightPrerequisiteRegistry.remove_quiet kept.filed key (by decide))
  intro id bound
  rw [InFlightPrerequisiteRegistry.remove_made] at bound
  exact .inl bound

theorem Kept.resumeRunner (kept : s.Kept) (i : Nat) (answer : Answer)
    (steady : s.Steady (.resumeRunner i answer)) : (s.resumeRunner i answer).Kept := by
  rw [Orchestration.resumeRunner]
  split
  · exact kept
  · next r present =>
    have tended := kept.tended r (List.mem_of_getElem? present)
    have before := kept.created r.acquired tended.made
    have knows := tended.knows
    have file := tended.key
    split
    · next cached level _ =>
      apply (kept.note _).advance
      apply (tended.append _).stage
      intro _ _ l seen
      apply mem_drop_of_new before
      simp [levelSeen,seen,file]
    · next current resolved stage =>
      apply (kept.note _).advance
      apply afterTable_tended (kept.note _).filed (tended.append _) stage
      intro yes
      apply mem_drop_of_new before
      simp [crossFileSeen,yes]
    · next level needs stage =>
      rw [stage] at knows
      have covered : ∀ crossFile, ((s.registry.object r.acquired).promise = none →
          r.revision = (s.registry.object r.acquired).revision → crossFile = true →
          Fact.crossFile (s.registry.object r.acquired).key.fileUri ∈ s.log.drop (s.registry.object r.acquired).createdAt) →
          (s.registry.object r.acquired).promise = none → r.revision = (s.registry.object r.acquired).revision →
          Covered (s.log ++ [.level r.key.fileUri level]) (s.registry.object r.acquired).createdAt
            (s.registry.object r.acquired).key.fileUri (s.registry.object r.acquired).targetDetailLevel crossFile := by
        intro crossFile cross pending same
        refine ⟨fun t asked => ⟨level,mem_drop_of_new before (by simp [file]),?_⟩,
          fun needed => drop_append_of_mem (cross pending same needed) _⟩
        rw [(knows pending same).1] at asked
        cases asked
        exact Nat.le_refl _
      apply (kept.note _).advance
      split
      · exact (tended.append _).stage (covered false (fun _ _ no => by cases no))
      · next complete =>
        apply loopEnd_tended (kept.note _).filed
        apply (tended.append _).stage
        apply covered
        exact fun pending same needed => (knows pending same).2 needed (by simpa using complete)
    · next stage =>
      rw [stage] at knows
      have covered : (s.registry.object r.acquired).promise = none →
          r.revision = (s.registry.object r.acquired).revision →
          Covered (s.log ++ [.crossFile r.key.fileUri]) (s.registry.object r.acquired).createdAt
            (s.registry.object r.acquired).key.fileUri (s.registry.object r.acquired).targetDetailLevel
            (s.registry.object r.acquired).needsCrossFileResolution := by
        intro pending same
        refine ⟨((knows pending same).append _).level,fun _ => mem_drop_of_new before (by simp [file])⟩
      apply (kept.note _).advance
      split
      · exact (tended.append _).stage covered
      · apply loopEnd_tended (kept.note _).filed
        exact (tended.append _).stage covered
    · next stage =>
      rw [stage] at knows
      apply kept.advance
      exact loopEnd_tended kept.filed (tended.stage knows)
    · next stage =>
      rw [stage] at knows
      exact kept.advance _ (tended.stage knows)
    · next stage =>
      rw [stage] at knows
      exact kept.advance _ (tended.stage knows)
    · next stage => exact kept.finish present stage steady
    · exact (kept.fail r.key).runners
        (fun r' member => (kept.fail r.key).tended r' (List.mem_of_mem_eraseIdx member))
    · exact kept
    · exact kept
    · exact kept.advance _ (tended.stage (fun _ _ => trivial))
    · exact kept

theorem Kept.step (kept : s.Kept) (event : Event) (steady : s.Steady event) :
    (s.step event).Kept := by
  cases event with
  | document fileUri state =>
    exact ⟨kept.filed,kept.created,kept.completed,kept.covered,kept.tended,kept.joined,kept.own⟩
  | evictStale fileUri currentVersion => exact kept.evict fileUri currentVersion
  | request requestType fileUri requirements => exact kept.requests _
  | resumeRequest i answer => exact kept.resumeRequest i answer
  | resumeRunner i answer => exact kept.resumeRunner i answer steady

theorem Kept.sound (kept : s.Kept) : s.Sound := by
  constructor
  · intro spec satisfied
    obtain ⟨c,found,enough⟩ := (Option.any_eq_true _ _).mp satisfied
    obtain ⟨made,key,settled,target,cross⟩ := kept.completed spec.key c found
    obtain ⟨deep,wide⟩ := Bool.and_eq_true_iff.mp enough
    refine ⟨c.entry,key,settled,?_⟩
    have covered := kept.covered c.entry made settled
    rw [key,target,cross] at covered
    apply covered.weaken deep
    intro needed
    simpa [needed] using wide
  · intro id spec member settled
    obtain ⟨made,key,detail,cross⟩ := kept.joined id spec member
    have covered := kept.covered id made settled
    rw [key] at covered
    exact covered.weaken detail cross
  · exact kept.own

end

theorem start_kept (documents : String → Option CachedDocument) : (start documents).Kept := by
  constructor
  · exact ⟨fun _ _ found => by simp [start,InFlightPrerequisiteRegistry.empty] at found,
      fun _ bound => absurd bound (Nat.not_lt_zero _)⟩
  · exact fun _ bound => absurd bound (Nat.not_lt_zero _)
  · exact fun _ _ found => by simp [start,InFlightPrerequisiteRegistry.empty] at found
  · exact fun _ bound => absurd bound (Nat.not_lt_zero _)
  · exact fun _ member => absurd member List.not_mem_nil
  · exact fun _ _ member => absurd member List.not_mem_nil
  · exact fun _ _ member => absurd member List.not_mem_nil

/-- In every run in which each runner that comes to complete its key finds the entry it acquired
there, unraised since it last looked, what is reported satisfied has been done. -/
theorem reported_only_if_done (documents : String → Option CachedDocument) (events : List Event)
    (steady : EveryStep step Steady (start documents) events) :
    EveryState step Sound (start documents) events := by
  have always := everyState_of_everyStep (I := Kept) (fun _ event kept steady => kept.step event steady)
    (start_kept documents) steady
  exact fun front initial => (always front initial).sound

def coldRequest (requestType : CoordinatedRequestType) (requirements : PrerequisiteRequirements) : List Event :=
  [.request requestType "file:///A.cls" requirements,.resumeRequest 0 (.detailLevel none),
    .resumeRequest 0 (.symbolTable false)]

/-- Two blocking requests share an entry; its runner enriches, resolves and completes. -/
def sharedEntry : List Event :=
  coldRequest .definition ⟨some .full,true,true⟩ ++ coldRequest .references ⟨some .private_,true,true⟩ ++
    [.resumeRunner 0 (.detailLevel none),.resumeRunner 0 (.symbolTable false),.resumeRunner 0 .done,
      .resumeRunner 0 .done,.resumeRunner 0 .done,.resumeRunner 0 .done]

theorem sharedEntry_sound :
    (run step (start fun _ => none) sharedEntry).registry.isSatisfied ⟨"file:///A.cls",-1,some .full,true⟩ = true ∧
      EveryState step Sound (start fun _ => none) sharedEntry :=
  ⟨by decide +kernel,reported_only_if_done (fun _ => none) sharedEntry (by decide +kernel)⟩

/-- A file is opened; while the runner signals the end of the enrichment, which went to the private
level, a blocking request joins and raises the entry to the full level. -/
def raisedTooLate : List Event :=
  coldRequest .fileOpenSingle ⟨some .private_,false,false⟩ ++
    [.resumeRunner 0 (.detailLevel none),.resumeRunner 0 (.symbolTable false),.resumeRunner 0 .done] ++
    coldRequest .definition ⟨some .full,true,true⟩ ++ [.resumeRunner 0 .done,.resumeRunner 0 .done]

/-- The runner completes the raised entry, and the joiner goes on though nothing was done for it. -/
theorem raisedTooLate_unsound : ∃ documents events, ¬ EveryState step Sound (start documents) events := by
  refine ⟨fun _ => none,raisedTooLate,fun always => ?_⟩
  have done := always.last.resolved 0 ⟨"file:///A.cls",-1,some .full,true⟩ (by decide +kernel) (by decide +kernel)
  obtain ⟨l,member,deep⟩ := done.level .full rfl
  cases l with
  | full =>
    revert member
    decide +kernel
  | publicApi | protected_ | private_ => simp [DetailLevel.order] at deep

end Orchestration

end ApexLs.Services
