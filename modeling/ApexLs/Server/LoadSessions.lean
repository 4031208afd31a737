import Mathlib.Data.List.Basic
import ApexLs.Collections.Effects
import ApexLs.Server.WorkspaceUploads

/-! One background processing of a workspace as an effect: what it tells the data owner and the
client, in order, whatever the dispatchers answer. -/
namespace ApexLs.Server.LoadSessions

open ApexLs.Collections ApexLs.Collections.Effect

inductive Action where
  | beginWorkspaceLoadSession (sessionId : String)
  | ingest (sessionId : String) (chunk : List BatchEntry)
  | compile (sessionId : String) (chunk : List BatchEntry)
  | drainDeferredReferences (sessionId : String)
  | enrichCrossFile (fileUris : List String)
  | removeSession (sessionId : String)
  | ingestionComplete
  deriving DecidableEq, Repr

/-- Which dispatchers a processing finds when it looks for them: those for ingestion, those for
sessions and compilation, and an enabled one for cross-file enrichment. -/
structure Wiring where
  batchIngestionDispatcher : Bool
  loadDispatchers : Bool
  crossFileEnrichment : Bool

/-- How the dispatchers answer: the error a promise rejects with, chunk by chunk. -/
structure Answers where
  beginSession : Option String := none
  ingest : Nat → Option String := fun _ => none
  compile : Nat → Option String := fun _ => none
  drain : Option String := none
  enrich : Option String := none

section

variable (unpack : String → Option Archive) (wiring : Wiring) (answers : Answers) (sessionId : String)

def waitForBatchIngestionDispatcher : Effect Action String Unit :=
  if wiring.batchIngestionDispatcher then succeed ()
  else fail "Worker batch ingestion dispatcher unavailable after 5000ms"

def decodeBatches : List SendWorkspaceBatchParams → Effect Action String (List BatchEntry)
  | [] => succeed []
  | batch :: rest =>
    let decoded : Effect Action String (List BatchEntry) :=
      (extractBatchEntries unpack batch.compressedData).elim
        (fail ("Decode failed batch " ++ toString batch.batchIndex)) succeed
    decoded.flatMap fun entries => (decodeBatches rest).flatMap fun more => succeed (entries ++ more)

def chunkCount (entries : List BatchEntry) : Nat := (entries.length + (CHUNK_SIZE - 1)) / CHUNK_SIZE

/-- `entries.slice(i, i + CHUNK_SIZE)` for the chunk with this index. -/
def slice (entries : List BatchEntry) (chunkIndex : Nat) : List BatchEntry :=
  (entries.drop (chunkIndex * CHUNK_SIZE)).take CHUNK_SIZE

def ingestChunks (entries : List BatchEntry) : Effect Action String Unit :=
  forEach (fun i => tryPromise (.ingest sessionId (slice entries i)) (answers.ingest i)) (List.range (chunkCount entries))

/-- The `catch` around the dispatch never runs: a failed `yield*` ends the generator. -/
def compileChunks (entries : List BatchEntry) : Effect Action String Unit :=
  forEach (fun i => tryPromise (.compile sessionId (slice entries i)) (answers.compile i)) (List.range (chunkCount entries))

def closeSession : Effect Action String Unit := tryPromise (.drainDeferredReferences sessionId) answers.drain

def processViaDataOwner (entries : List BatchEntry) : Effect Action String Unit :=
  if wiring.loadDispatchers then
    (tryPromise (.beginWorkspaceLoadSession sessionId) answers.beginSession).andThen
      (((ingestChunks answers sessionId entries).andThen (compileChunks answers sessionId entries)).ensuring
        (closeSession answers sessionId).orDie)
  else fail "Worker workspace load requires session and data-owner compilation dispatchers"

/-- The enrichment that may follow. Its `catch` never runs either. -/
def enrichCrossFile (entries : List BatchEntry) : Effect Action String Unit :=
  if wiring.crossFileEnrichment ∧ entries ≠ [] then tryPromise (.enrichCrossFile (entries.map BatchEntry.uri)) answers.enrich
  else succeed ()

def processing (batches : List SendWorkspaceBatchParams) : Effect Action String Unit :=
  (waitForBatchIngestionDispatcher wiring).andThen <|
    (decodeBatches unpack batches).flatMap fun entries =>
      (perform (.removeSession sessionId)).andThen <|
        (processViaDataOwner wiring answers sessionId entries).andThen <|
          (perform .ingestionComplete).andThen (enrichCrossFile wiring answers entries)

def processStoredBatches (batches : List SendWorkspaceBatchParams) : Effect Action Empty Unit :=
  (processing unpack wiring answers sessionId batches).catchAll fun _ =>
    (perform (.removeSession sessionId)).andThen (perform .ingestionComplete)

end

def IsChunk (sessionId : String) (action : Action) : Prop :=
  (∃ chunk, action = .ingest sessionId chunk) ∨ ∃ chunk, action = .compile sessionId chunk

/-- A session that opens is closed once, and its chunks stand in between. -/
structure Bracketed (answers : Answers) (sessionId : String) (actions : List Action) : Prop where
  closed : ∀ before after, actions = before ++ .beginWorkspaceLoadSession sessionId :: after →
    answers.beginSession = none → after.count (.drainDeferredReferences sessionId) = 1
  inside : ∀ before action after, actions = before ++ action :: after → IsChunk sessionId action →
    answers.beginSession = none ∧ .beginWorkspaceLoadSession sessionId ∈ before ∧
      .drainDeferredReferences sessionId ∉ before ∧ .drainDeferredReferences sessionId ∈ after

/-- What is asked of a processing: its session is closed, and the completion is told once. -/
structure Closes (answers : Answers) (sessionId : String) (actions : List Action) : Prop
    extends Bracketed answers sessionId actions where
  told : actions.count .ingestionComplete = 1

structure Opens (unpack : String → Option Archive) (wiring : Wiring) (answers : Answers)
    (batches : List SendWorkspaceBatchParams) (entries : List BatchEntry) : Prop where
  wired : wiring.batchIngestionDispatcher = true ∧ wiring.loadDispatchers = true
  decoded : filesOf unpack batches = some entries
  begun : answers.beginSession = none

def Loads (answers : Answers) (entries : List BatchEntry) : Prop :=
  ∀ i < chunkCount entries, answers.ingest i = none ∧ answers.compile i = none

/-- The condition on the dispatchers: the drain of a session that opened is answered, and so is a
cross-file enrichment that follows it. -/
structure Settles (unpack : String → Option Archive) (wiring : Wiring) (answers : Answers)
    (batches : List SendWorkspaceBatchParams) : Prop where
  drained : ∀ entries, Opens unpack wiring answers batches entries → answers.drain = none
  enriched : ∀ entries, Opens unpack wiring answers batches entries → Loads answers entries →
    wiring.crossFileEnrichment = true → entries ≠ [] → answers.enrich = none

section

variable {answers : Answers} {sessionId : String}

section

variable {action : Action} (chunk : IsChunk sessionId action)
include chunk

theorem IsChunk.ne_drain :
    action ≠ .drainDeferredReferences sessionId := by
  rintro rfl
  rcases chunk with ⟨_,same⟩ | ⟨_,same⟩ <;> cases same

theorem IsChunk.ne_begin :
    action ≠ .beginWorkspaceLoadSession sessionId := by
  rintro rfl
  rcases chunk with ⟨_,same⟩ | ⟨_,same⟩ <;> cases same

theorem IsChunk.ne_complete : action ≠ .ingestionComplete := by
  rintro rfl
  rcases chunk with ⟨_,same⟩ | ⟨_,same⟩ <;> cases same

end

def Outside (sessionId : String) (action : Action) : Prop :=
  action ≠ .beginWorkspaceLoadSession sessionId ∧ action ≠ .drainDeferredReferences sessionId ∧ ¬ IsChunk sessionId action

/-- The actions of a processing, by whether its session opens, with the condition on which they tell
the completion once. -/
inductive Formed (answers : Answers) (sessionId : String) (settled : Prop) : List Action → Prop where
  | unopened {actions : List Action}
      (unopened : ∀ action ∈ actions, action = .beginWorkspaceLoadSession sessionId → answers.beginSession ≠ none)
      (noChunk : ∀ action ∈ actions, ¬ IsChunk sessionId action)
      (told : actions.count .ingestionComplete = 1 ↔ settled) : Formed answers sessionId settled actions
  | opened {body tail : List Action} (begun : answers.beginSession = none)
      (chunks : ∀ action ∈ body, IsChunk sessionId action) (outside : ∀ action ∈ tail, Outside sessionId action)
      (told : tail.count .ingestionComplete = 1 ↔ settled) :
      Formed answers sessionId settled (.removeSession sessionId :: .beginWorkspaceLoadSession sessionId ::
        (body ++ .drainDeferredReferences sessionId :: tail))

theorem Formed.told_iff {settled : Prop} {actions : List Action} (formed : Formed answers sessionId settled actions) :
    actions.count .ingestionComplete = 1 ↔ settled := by
  cases formed with
  | unopened _ _ told => exact told
  | @opened body tail _ chunks _ told =>
    have noComplete : body.count .ingestionComplete = 0 :=
      List.count_eq_zero.mpr fun member => (chunks _ member).ne_complete rfl
    rw [← told]
    simp [noComplete]

theorem closed_of_opened {body tail before after : List Action} (chunks : ∀ action ∈ body, IsChunk sessionId action)
    (outside : ∀ action ∈ tail, Outside sessionId action)
    (cut : .removeSession sessionId :: .beginWorkspaceLoadSession sessionId ::
      (body ++ .drainDeferredReferences sessionId :: tail) = before ++ .beginWorkspaceLoadSession sessionId :: after) :
    after.count (.drainDeferredReferences sessionId) = 1 := by
  have noDrain : body.count (.drainDeferredReferences sessionId) = 0 :=
    List.count_eq_zero.mpr fun member => (chunks _ member).ne_drain rfl
  have noDrainAfter : tail.count (.drainDeferredReferences sessionId) = 0 :=
    List.count_eq_zero.mpr fun member => (outside _ member).2.1 rfl
  rcases before with _ | ⟨first,_ | ⟨second,before⟩⟩
  · cases (List.cons.inj cut).1
  · obtain ⟨-,rest⟩ := List.cons.inj cut
    obtain ⟨-,rest⟩ := List.cons.inj rest
    rw [← rest]
    simp [noDrain,noDrainAfter]
  · obtain ⟨-,rest⟩ := List.cons.inj cut
    obtain ⟨-,rest⟩ := List.cons.inj rest
    have again : Action.beginWorkspaceLoadSession sessionId ∈ body ++ .drainDeferredReferences sessionId :: tail := by
      rw [rest]
      exact List.mem_append_right _ (.head _)
    rcases List.mem_append.mp again with inBody | later
    · exact absurd rfl (chunks _ inBody).ne_begin
    · rcases List.mem_cons.mp later with same | inTail
      · cases same
      · exact absurd rfl (outside _ inTail).1

theorem inside_of_opened {body tail before after : List Action} {action : Action}
    (chunks : ∀ action ∈ body, IsChunk sessionId action) (outside : ∀ action ∈ tail, Outside sessionId action)
    (cut : .removeSession sessionId :: .beginWorkspaceLoadSession sessionId ::
      (body ++ .drainDeferredReferences sessionId :: tail) = before ++ action :: after) (chunk : IsChunk sessionId action) :
    .beginWorkspaceLoadSession sessionId ∈ before ∧ .drainDeferredReferences sessionId ∉ before ∧
      .drainDeferredReferences sessionId ∈ after := by
  rcases before with _ | ⟨first,_ | ⟨second,before⟩⟩
  · obtain ⟨rfl,-⟩ := List.cons.inj cut
    rcases chunk with ⟨_,same⟩ | ⟨_,same⟩ <;> cases same
  · obtain ⟨-,rest⟩ := List.cons.inj cut
    obtain ⟨rfl,-⟩ := List.cons.inj rest
    exact absurd rfl chunk.ne_begin
  · obtain ⟨removed,later⟩ := List.cons.inj cut
    obtain ⟨opened,inner⟩ := List.cons.inj later
    subst removed opened
    rcases List.append_eq_append_iff.mp inner with ⟨more,rfl,tail_⟩ | ⟨more,rfl,tail_⟩
    · rcases more with _ | ⟨a,more⟩
      · obtain ⟨rfl,-⟩ := List.cons.inj tail_
        exact absurd rfl chunk.ne_drain
      · obtain ⟨-,rfl⟩ := List.cons.inj tail_
        exact absurd chunk (outside action (List.mem_append_right _ (.head _))).2.2
    · rcases more with _ | ⟨a,more⟩
      · obtain ⟨rfl,-⟩ := List.cons.inj tail_
        exact absurd rfl chunk.ne_drain
      · obtain ⟨rfl,rfl⟩ := List.cons.inj tail_
        refine ⟨.tail _ (.head _),?_,List.mem_append_right _ (.head _)⟩
        rintro (_ | ⟨_,_ | ⟨_,inBody⟩⟩)
        exact absurd rfl (chunks _ (List.mem_append_left _ inBody)).ne_drain

theorem Formed.bracketed {settled : Prop} {actions : List Action} (formed : Formed answers sessionId settled actions) :
    Bracketed answers sessionId actions := by
  cases formed with
  | unopened unopened noChunk _ =>
    constructor
    · rintro before after rfl begun
      exact absurd begun (unopened _ (List.mem_append_right _ (.head _)) rfl)
    · rintro before action after rfl chunk
      exact absurd chunk (noChunk action (List.mem_append_right _ (.head _)))
  | opened begun chunks outside _ =>
    exact ⟨fun _ _ cut _ => closed_of_opened chunks outside cut,
      fun _ _ _ cut chunk => ⟨begun,inside_of_opened chunks outside cut chunk⟩⟩

variable {unpack : String → Option Archive} {wiring : Wiring}

theorem decodeBatches_spec (batches : List SendWorkspaceBatchParams) :
    (∃ entries, filesOf unpack batches = some entries ∧ decodeBatches unpack batches = ⟨.success entries,[]⟩) ∨
      (filesOf unpack batches = none ∧ ∃ error, decodeBatches unpack batches = ⟨.failure error,[]⟩) := by
  induction batches with
  | nil => exact .inl ⟨[],rfl,rfl⟩
  | cons batch rest ih =>
    cases here : extractBatchEntries unpack batch.compressedData with
    | none =>
      refine .inr ⟨by simp [filesOf,here],"Decode failed batch " ++ toString batch.batchIndex,?_⟩
      simp [decodeBatches,here,flatMap,fail]
    | some entries =>
      rcases ih with ⟨more,files,decoded⟩ | ⟨files,error,failed⟩
      · refine .inl ⟨entries ++ more,by simp [filesOf,here,files],?_⟩
        simp [decodeBatches,here,flatMap,succeed,decoded]
      · refine .inr ⟨by simp [filesOf,here,files],error,?_⟩
        simp [decodeBatches,here,flatMap,succeed,failed]

theorem chunks_spec (entries : List BatchEntry) :
    (∀ action ∈ ((ingestChunks answers sessionId entries).andThen (compileChunks answers sessionId entries)).actions,
      IsChunk sessionId action) ∧
    ((ingestChunks answers sessionId entries).andThen (compileChunks answers sessionId entries)).exit ≠ .die ∧
    (((ingestChunks answers sessionId entries).andThen (compileChunks answers sessionId entries)).exit = .success () ↔
      Loads answers entries) := by
  refine ⟨fun action member => ?_,?_,?_⟩
  · rcases mem_andThen member with ingested | compiled
    · obtain ⟨i,-,made⟩ := mem_forEach ingested
      exact .inl ⟨_,List.mem_singleton.mp made⟩
    · obtain ⟨i,-,made⟩ := mem_forEach compiled
      exact .inr ⟨_,List.mem_singleton.mp made⟩
  · exact andThen_ne_die (forEach_ne_die fun _ _ => tryPromise_ne_die) (forEach_ne_die fun _ _ => tryPromise_ne_die)
  · rw [andThen_success_iff]
    simp only [ingestChunks,compileChunks,forEach_success_iff,tryPromise_success_iff,List.mem_range,Loads]
    exact ⟨fun both i below => ⟨both.1 i below,both.2 i below⟩,fun each => ⟨fun i below => (each i below).1,
      fun i below => (each i below).2⟩⟩

theorem processViaDataOwner_cases (entries : List BatchEntry) :
    (wiring.loadDispatchers = false ∧ ∃ error, processViaDataOwner wiring answers sessionId entries = ⟨.failure error,[]⟩) ∨
    (answers.beginSession ≠ none ∧ ∃ error, processViaDataOwner wiring answers sessionId entries =
      ⟨.failure error,[.beginWorkspaceLoadSession sessionId]⟩) ∨
    (wiring.loadDispatchers = true ∧ answers.beginSession = none ∧ ∃ body : List Action,
      (∀ action ∈ body, IsChunk sessionId action) ∧
      (processViaDataOwner wiring answers sessionId entries).actions =
        .beginWorkspaceLoadSession sessionId :: (body ++ [.drainDeferredReferences sessionId]) ∧
      (answers.drain ≠ none → (processViaDataOwner wiring answers sessionId entries).exit = .die) ∧
      (answers.drain = none → (processViaDataOwner wiring answers sessionId entries).exit ≠ .die ∧
        ((processViaDataOwner wiring answers sessionId entries).exit = .success () ↔ Loads answers entries))) := by
  cases wired : wiring.loadDispatchers with
  | false =>
    refine .inl ⟨rfl,"Worker workspace load requires session and data-owner compilation dispatchers",?_⟩
    simp only [processViaDataOwner,wired,Bool.false_eq_true,if_false]
    rfl
  | true =>
    right
    cases begun : answers.beginSession with
    | some error =>
      refine .inl ⟨by simp,error,?_⟩
      simp only [processViaDataOwner,wired,if_true,begun]
      rfl
    | none =>
      obtain ⟨chunks,alive,loads⟩ := @chunks_spec answers sessionId entries
      have work : processViaDataOwner wiring answers sessionId entries =
          ⟨(((ingestChunks answers sessionId entries).andThen (compileChunks answers sessionId entries)).ensuring
              (closeSession answers sessionId).orDie).exit,
            .beginWorkspaceLoadSession sessionId ::
              (((ingestChunks answers sessionId entries).andThen (compileChunks answers sessionId entries)).ensuring
                (closeSession answers sessionId).orDie).actions⟩ := by
        simp only [processViaDataOwner,wired,if_true,begun]
        exact andThen_success rfl
      refine .inr ⟨rfl,rfl,_,chunks,?_,fun drained => ?_,fun drained => ?_⟩
      · rw [work,ensuring_actions]
        cases drained : answers.drain with
        | none => simp [closeSession,tryPromise,orDie,drained]
        | some error => simp [closeSession,tryPromise,orDie,drained]
      · rw [work]
        apply ensuring_die
        cases drain : answers.drain with
        | none => exact absurd drain drained
        | some error => simp [closeSession,tryPromise,orDie,drain]
      · rw [work]
        have drained_ : (closeSession answers sessionId).orDie.exit = .success () := by
          simp [closeSession,tryPromise,orDie,drained]
        rw [ensuring_success drained_]
        exact ⟨alive,loads⟩

def handled (sessionId : String) : List Action := [.removeSession sessionId,.ingestionComplete]

theorem handled_outside : ∀ action ∈ handled sessionId, Outside sessionId action := by
  intro action member
  rcases List.mem_cons.mp member with rfl | last
  · refine ⟨by simp,by simp,?_⟩
    rintro (⟨_,same⟩ | ⟨_,same⟩) <;> cases same
  · obtain rfl := List.mem_singleton.mp last
    refine ⟨by simp,by simp,?_⟩
    rintro (⟨_,same⟩ | ⟨_,same⟩) <;> cases same

/-- The actions of a processing whose session was drained, up to the answer of the enrichment. -/
def finished (fileUris : List String) : List Action := [.ingestionComplete,.enrichCrossFile fileUris]

theorem finished_outside (fileUris : List String) : ∀ action ∈ finished fileUris, Outside sessionId action := by
  intro action member
  rcases List.mem_cons.mp member with rfl | last
  · exact handled_outside _ (.tail _ (.head _))
  · obtain rfl := List.mem_singleton.mp last
    refine ⟨by simp,by simp,?_⟩
    rintro (⟨_,same⟩ | ⟨_,same⟩) <;> cases same

variable {batches : List SendWorkspaceBatchParams} {entries : List BatchEntry}

theorem actions_of_success {actions : List Action}
    (run : processing unpack wiring answers sessionId batches = ⟨.success (),actions⟩) :
    (processStoredBatches unpack wiring answers sessionId batches).actions = actions := by
  have ends : (processing unpack wiring answers sessionId batches).exit = .success () := by rw [run]
  unfold processStoredBatches
  rw [catchAll_success ends,run]

theorem actions_of_failure {error : String} {actions : List Action}
    (run : processing unpack wiring answers sessionId batches = ⟨.failure error,actions⟩) :
    (processStoredBatches unpack wiring answers sessionId batches).actions = actions ++ handled sessionId := by
  have ends : (processing unpack wiring answers sessionId batches).exit = .failure error := by rw [run]
  unfold processStoredBatches
  rw [catchAll_failure ends,run]
  rfl

theorem actions_of_die {actions : List Action}
    (run : processing unpack wiring answers sessionId batches = ⟨.die,actions⟩) :
    (processStoredBatches unpack wiring answers sessionId batches).actions = actions := by
  have ends : (processing unpack wiring answers sessionId batches).exit = .die := by rw [run]
  unfold processStoredBatches
  rw [catchAll_die ends,run]

theorem formed_of_failure {error : String} {actions : List Action}
    (failed : processing unpack wiring answers sessionId batches = ⟨.failure error,actions⟩)
    (unopened : ∀ action ∈ actions, action = .beginWorkspaceLoadSession sessionId → answers.beginSession ≠ none)
    (noChunk : ∀ action ∈ actions, ¬ IsChunk sessionId action) (untold : .ingestionComplete ∉ actions)
    (closed : ∀ entries, ¬ Opens unpack wiring answers batches entries) :
    Formed answers sessionId (Settles unpack wiring answers batches)
      (processStoredBatches unpack wiring answers sessionId batches).actions := by
  have settles : Settles unpack wiring answers batches :=
    ⟨fun entries opens => absurd opens (closed entries),fun entries opens => absurd opens (closed entries)⟩
  rw [actions_of_failure failed]
  apply Formed.unopened
  · intro action member same
    rcases List.mem_append.mp member with before | after
    · exact unopened action before same
    · exact absurd same (handled_outside action after).1
  · intro action member
    rcases List.mem_append.mp member with before | after
    · exact noChunk action before
    · exact (handled_outside action after).2.2
  · refine iff_of_true ?_ settles
    rw [List.count_append,List.count_eq_zero.mpr untold]
    simp [handled]

theorem processing_unwired (unwired : wiring.batchIngestionDispatcher = false) :
    processing unpack wiring answers sessionId batches =
      ⟨.failure "Worker batch ingestion dispatcher unavailable after 5000ms",[]⟩ := by
  unfold processing
  rw [waitForBatchIngestionDispatcher,unwired]
  rfl

theorem processing_opened (wired : wiring.batchIngestionDispatcher = true) (files : filesOf unpack batches = some entries) :
    processing unpack wiring answers sessionId batches =
      (perform (.removeSession sessionId)).andThen
        ((processViaDataOwner wiring answers sessionId entries).andThen
          ((perform .ingestionComplete).andThen (enrichCrossFile wiring answers entries))) := by
  rcases @decodeBatches_spec unpack batches with ⟨decoded,found,run⟩ | ⟨none_,-⟩
  · obtain rfl := Option.some.inj (files.symm.trans found)
    unfold processing
    rw [waitForBatchIngestionDispatcher,if_pos wired,andThen_success rfl,flatMap_success (by rw [run])]
    simp [run,succeed]
  · rw [files] at none_
    cases none_

theorem Opens.settles_iff (opens : Opens unpack wiring answers batches entries) (drained : answers.drain = none) :
    Settles unpack wiring answers batches ↔
      (Loads answers entries → wiring.crossFileEnrichment = true → entries ≠ [] → answers.enrich = none) := by
  refine ⟨fun settles => settles.enriched entries opens,fun enriched => ⟨fun _ _ => drained,fun other opens' => ?_⟩⟩
  obtain rfl := Option.some.inj (opens'.decoded.symm.trans opens.decoded)
  exact enriched

theorem formed_of_drained {body : List Action} (opens : Opens unpack wiring answers batches entries)
    (chunks : ∀ action ∈ body, IsChunk sessionId action) (drained : answers.drain = none)
    (performed : (processViaDataOwner wiring answers sessionId entries).actions =
      .beginWorkspaceLoadSession sessionId :: (body ++ [.drainDeferredReferences sessionId]))
    (alive : (processViaDataOwner wiring answers sessionId entries).exit ≠ .die)
    (loads : (processViaDataOwner wiring answers sessionId entries).exit = .success () ↔ Loads answers entries) :
    Formed answers sessionId (Settles unpack wiring answers batches)
      (processStoredBatches unpack wiring answers sessionId batches).actions := by
  have shape := @processing_opened answers sessionId unpack wiring batches entries opens.wired.1 opens.decoded
  rw [andThen_success rfl] at shape
  have settles_iff := opens.settles_iff drained
  cases ends : (processViaDataOwner wiring answers sessionId entries).exit with
  | die => exact absurd ends alive
  | failure error =>
    have failed : ¬ Loads answers entries := fun every => by
      rw [loads.mpr every] at ends
      cases ends
    rw [andThen_failure ends,performed] at shape
    have ran : (processStoredBatches unpack wiring answers sessionId batches).actions =
        .removeSession sessionId :: .beginWorkspaceLoadSession sessionId ::
          (body ++ .drainDeferredReferences sessionId :: handled sessionId) := by
      rw [actions_of_failure shape]
      simp [perform]
    rw [ran]
    refine .opened opens.begun chunks handled_outside (iff_of_true (by simp [handled]) (settles_iff.mpr fun every => ?_))
    exact absurd every failed
  | success value =>
    have every : Loads answers entries := loads.mp ends
    rw [andThen_success ends,andThen_success rfl,performed] at shape
    by_cases enriches : wiring.crossFileEnrichment ∧ entries ≠ []
    · have enrich : enrichCrossFile wiring answers entries =
          tryPromise (.enrichCrossFile (entries.map BatchEntry.uri)) answers.enrich := if_pos enriches
      rw [enrich] at shape
      cases answered : answers.enrich with
      | none =>
        have ran : (processStoredBatches unpack wiring answers sessionId batches).actions =
            .removeSession sessionId :: .beginWorkspaceLoadSession sessionId ::
              (body ++ .drainDeferredReferences sessionId :: finished (entries.map BatchEntry.uri)) := by
          rw [tryPromise,answered] at shape
          rw [actions_of_success shape]
          simp [perform,finished]
        rw [ran]
        refine .opened opens.begun chunks (finished_outside _) (iff_of_true (by simp [finished]) (settles_iff.mpr ?_))
        exact fun _ _ _ => answered
      | some error =>
        have ran : (processStoredBatches unpack wiring answers sessionId batches).actions =
            .removeSession sessionId :: .beginWorkspaceLoadSession sessionId ::
              (body ++ .drainDeferredReferences sessionId ::
                (finished (entries.map BatchEntry.uri) ++ handled sessionId)) := by
          rw [tryPromise,answered] at shape
          rw [actions_of_failure shape]
          simp [perform,finished]
        have outside : ∀ action ∈ finished (entries.map BatchEntry.uri) ++ handled sessionId, Outside sessionId action := by
          intro action member
          rcases List.mem_append.mp member with first | after
          · exact finished_outside _ action first
          · exact handled_outside action after
        rw [ran]
        refine .opened opens.begun chunks outside (iff_of_false (by simp [finished,handled]) fun settles => ?_)
        have answered_ := settles_iff.mp settles every enriches.1 enriches.2
        rw [answered] at answered_
        cases answered_
    · have enrich : enrichCrossFile wiring answers entries = succeed () := if_neg enriches
      rw [enrich] at shape
      have ran : (processStoredBatches unpack wiring answers sessionId batches).actions =
          .removeSession sessionId :: .beginWorkspaceLoadSession sessionId ::
            (body ++ .drainDeferredReferences sessionId :: [.ingestionComplete]) := by
        rw [actions_of_success shape]
        simp [perform,succeed]
      have outside : ∀ action ∈ [Action.ingestionComplete], Outside sessionId action := by
        intro action member
        obtain rfl := List.mem_singleton.mp member
        exact handled_outside _ (.tail _ (.head _))
      rw [ran]
      refine .opened opens.begun chunks outside (iff_of_true (by simp) (settles_iff.mpr fun _ on full => ?_))
      exact absurd ⟨on,full⟩ enriches

theorem processStoredBatches_formed (unpack : String → Option Archive) (wiring : Wiring) (answers : Answers)
    (sessionId : String) (batches : List SendWorkspaceBatchParams) :
    Formed answers sessionId (Settles unpack wiring answers batches)
      (processStoredBatches unpack wiring answers sessionId batches).actions := by
  cases found : wiring.batchIngestionDispatcher with
  | false =>
    refine formed_of_failure (processing_unwired found) (by simp) (by simp) (by simp) fun entries opens => ?_
    rw [opens.wired.1] at found
    cases found
  | true =>
    rcases @decodeBatches_spec unpack batches with ⟨entries,files,-⟩ | ⟨files,error,decoded⟩
    · have shape := @processing_opened answers sessionId unpack wiring batches entries found files
      rw [andThen_success rfl] at shape
      rcases @processViaDataOwner_cases answers sessionId wiring entries with
        ⟨unwired,error,work⟩ | ⟨refused,error,work⟩ | ⟨wired,begun,body,chunks,performed,died,drained⟩
      · rw [work,andThen_failure rfl] at shape
        refine formed_of_failure shape (by simp [perform]) ?_ (by simp [perform]) fun other opens => ?_
        · intro action member
          obtain rfl := List.mem_singleton.mp member
          exact (handled_outside _ (.head _)).2.2
        · rw [opens.wired.2] at unwired
          cases unwired
      · rw [work,andThen_failure rfl] at shape
        refine formed_of_failure shape (fun _ _ _ => refused) ?_ (by simp [perform]) fun other opens => refused opens.begun
        intro action member
        rcases List.mem_cons.mp member with rfl | last
        · exact (handled_outside _ (.head _)).2.2
        · obtain rfl := List.mem_singleton.mp last
          exact fun chunk => chunk.ne_begin rfl
      · have opens : Opens unpack wiring answers batches entries := ⟨⟨found,wired⟩,files,begun⟩
        cases drain : answers.drain with
        | none =>
          obtain ⟨alive,loads⟩ := drained drain
          exact formed_of_drained opens chunks drain performed alive loads
        | some error =>
          have dead := died (by simp [drain])
          have ran : (processStoredBatches unpack wiring answers sessionId batches).actions =
              .removeSession sessionId :: .beginWorkspaceLoadSession sessionId ::
                (body ++ .drainDeferredReferences sessionId :: []) := by
            rw [andThen,flatMap_die dead,performed] at shape
            exact actions_of_die shape
          rw [ran]
          refine .opened begun chunks (by simp) (iff_of_false (by simp) fun settles => ?_)
          rw [settles.drained entries opens] at drain
          cases drain
    · have failed : processing unpack wiring answers sessionId batches = ⟨.failure error,[]⟩ := by
        unfold processing
        rw [waitForBatchIngestionDispatcher,if_pos found,andThen_success rfl,flatMap_failure (by rw [decoded])]
        simp [decoded,succeed]
      refine formed_of_failure failed (by simp) (by simp) (by simp) fun entries opens => ?_
      rw [opens.decoded] at files
      cases files

theorem session_bracketed (unpack : String → Option Archive) (wiring : Wiring) (answers : Answers) (sessionId : String)
    (batches : List SendWorkspaceBatchParams) :
    Bracketed answers sessionId (processStoredBatches unpack wiring answers sessionId batches).actions :=
  (processStoredBatches_formed unpack wiring answers sessionId batches).bracketed

/-- A processing closes what it opens, and is told to be complete once, exactly where the drain of a
session that opened and a cross-file enrichment after it are answered. -/
theorem closes_iff (unpack : String → Option Archive) (wiring : Wiring) (answers : Answers) (sessionId : String)
    (batches : List SendWorkspaceBatchParams) :
    Closes answers sessionId (processStoredBatches unpack wiring answers sessionId batches).actions ↔
      Settles unpack wiring answers batches := by
  constructor
  · intro closes
    exact (processStoredBatches_formed unpack wiring answers sessionId batches).told_iff.mp closes.told
  · intro settles
    exact ⟨session_bracketed unpack wiring answers sessionId batches,
      (processStoredBatches_formed unpack wiring answers sessionId batches).told_iff.mpr settles⟩

end

def oneFile (_ : String) : Option Archive := some ⟨some [⟨"file:///Foo.cls",1⟩],fun _ => some "class Foo {}"⟩

def oneBatch : List SendWorkspaceBatchParams := [⟨"load-1",0,1,"",[⟨"file:///Foo.cls",1⟩]⟩]

def allWired : Wiring := ⟨true,true,true⟩

def lostEnrichment : Answers := { enrich := some "worker lost" }

def lostDrain : Answers := { drain := some "worker lost" }

/-- A cross-file enrichment that is rejected tells the completion again; a drain that is rejected
leaves it untold. -/
theorem lost_answers_miscount :
    (processStoredBatches oneFile allWired lostEnrichment "load-1" oneBatch).actions.count .ingestionComplete = 2 ∧
      ¬ Closes lostEnrichment "load-1" (processStoredBatches oneFile allWired lostEnrichment "load-1" oneBatch).actions ∧
      (processStoredBatches oneFile allWired lostDrain "load-1" oneBatch).actions.count .ingestionComplete = 0 ∧
      ¬ Closes lostDrain "load-1" (processStoredBatches oneFile allWired lostDrain "load-1" oneBatch).actions := by
  have twice : (processStoredBatches oneFile allWired lostEnrichment "load-1" oneBatch).actions.count
      .ingestionComplete = 2 := by
    decide +kernel
  have never : (processStoredBatches oneFile allWired lostDrain "load-1" oneBatch).actions.count
      .ingestionComplete = 0 := by
    decide +kernel
  refine ⟨twice,fun closes => ?_,never,fun closes => ?_⟩
  · exact absurd (twice.symm.trans closes.told) (by decide)
  · exact absurd (never.symm.trans closes.told) (by decide)

end ApexLs.Server.LoadSessions
