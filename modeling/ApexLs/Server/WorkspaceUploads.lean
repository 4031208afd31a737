import Mathlib.Algebra.Ring.Nat
import ApexLs.Collections.NumberedParts
import ApexLs.Collections.Runs
import ApexLs.Server.WorkspaceBatchHandler

/-! Runs of the batch server. Beside the server stands what it cannot know: every payload that
was ever stored, with the session object it went into. -/
namespace ApexLs.Server

open ApexLs.Collections ApexLs.Utils

structure Stored where
  sessionId : String
  serial : Nat
  batch : SendWorkspaceBatchParams

/-- The payload stored last, for an index, in a session. -/
def lastStored (stored : List Stored) (sessionId : String) (serial : Nat) (batchIndex : Int) :
    Option SendWorkspaceBatchParams :=
  (stored.find? fun e => e.sessionId = sessionId && e.serial = serial && e.batch.batchIndex = batchIndex).map Stored.batch

/-- A process request that was answered with success, and the payloads stored until then. -/
structure Acceptance where
  totalBatches : Int
  stored : List Stored

/-- The server, with the stored payloads, newest first, and one acceptance for each processing. -/
structure Uploads where
  server : BatchServer := {}
  stored : List Stored := []
  accepted : List Acceptance := []

inductive UploadEvent where
  | sendBatch (params : SendWorkspaceBatchParams) (now : Nat)
  | process (params : ProcessWorkspaceBatchesParams)
  | background (number : Nat) (succeeds : Bool)
  | cleanup (now : Nat)

namespace Processing

def ingested (p : Processing) : List BatchEntry :=
  p.calls.flatMap fun
    | .ingest chunk => chunk
    | _ => []

def compiled (p : Processing) : List BatchEntry :=
  p.calls.flatMap fun
    | .compile chunk => chunk
    | _ => []

/-- How often the processing has opened a load session at the data owner. -/
def handovers (p : Processing) : Nat := p.calls.count .beginWorkspaceLoadSession

end Processing

/-- The files of some payloads, in order, if all of them unpack. -/
def filesOf (unpack : String → Option Archive) : List SendWorkspaceBatchParams → Option (List BatchEntry)
  | [] => some []
  | batch :: rest => do
    let entries ← extractBatchEntries unpack batch.compressedData
    let others ← filesOf unpack rest
    return entries ++ others

namespace Uploads

def step (unpack : String → Option Archive) (u : Uploads) : UploadEvent → Uploads
  | .sendBatch params now =>
    let (answer,server) := u.server.handleWorkspaceBatchRequest params now
    let session := if answer.success then server.storage.sessions.get? (trim params.sessionId) else none
    { u with
      server := server
      stored := (session.map fun s => ⟨trim params.sessionId,s.serial,params⟩).toList ++ u.stored }
  | .process params =>
    let (answer,server) := u.server.handleProcessWorkspaceBatchesRequest params
    { u with
      server := server
      accepted := if answer.success then u.accepted ++ [⟨params.totalBatches,u.stored⟩] else u.accepted }
  | .background number succeeds => { u with server := u.server.background unpack number succeeds }
  | .cleanup now => { u with server.storage := u.server.storage.cleanupOldSessions now }

def SameUpload (p q : Processing) : Prop := p.sessionId = q.sessionId ∧ p.serial = q.serial

instance : DecidableRel SameUpload := fun p q => inferInstanceAs (Decidable (p.sessionId = q.sessionId ∧ p.serial = q.serial))

structure Processed (unpack : String → Option Archive) (p : Processing) (a : Acceptance) : Prop where
  complete : ∃ n : Nat, a.totalBatches = n ∧
    p.batches.map some = (List.range n).map (fun i : Nat => lastStored a.stored p.sessionId p.serial i)
  inOrder : p.calls ≠ [] → ∃ files, filesOf unpack p.batches = some files ∧ p.ingested <+: files ∧
    p.compiled <+: files ∧ (p.compiled ≠ [] → p.ingested = files) ∧
    (p.stage = .completed → p.ingested = files ∧ p.compiled = files)

/-- Every accepted upload is complete and processed in order, and handed over at most once. -/
structure Sound (unpack : String → Option Archive) (u : Uploads) : Prop where
  answered : u.accepted.length = u.server.processings.length
  processed : ∀ (k : Nat) p a, u.server.processings[k]? = some p → u.accepted[k]? = some a → Processed unpack p a
  once : ∀ p, ((u.server.processings.filter (SameUpload p)).map Processing.handovers).sum ≤ 1

/-- A process request is answered with success only where every index is stored. -/
def AnswersComplete (u : Uploads) : UploadEvent → Prop
  | .process params => (u.server.handleProcessWorkspaceBatchesRequest params).1.success = true →
      ∃ session, u.server.storage.sessions.get? (trim params.sessionId) = some session ∧
        ∀ i : Nat, (i : Int) < params.totalBatches →
          (lastStored u.stored (trim params.sessionId) session.serial i).isSome
  | _ => True

/-- No process request is accepted for a session that an earlier one was accepted for. -/
def FirstRequest (u : Uploads) : UploadEvent → Prop
  | .process params => ∀ session, u.server.storage.sessions.get? (trim params.sessionId) = some session →
      u.server.isComplete params = true →
      ∀ p ∈ u.server.processings, ¬ (p.sessionId = trim params.sessionId ∧ p.serial = session.serial)
  | _ => True

end Uploads

section

variable {unpack : String → Option Archive}

/-- A load session was opened for the files of all batches; these parts of them are left. -/
structure Delivery (unpack : String → Option Archive) (p : Processing)
    (entries ingestLeft compileLeft : List BatchEntry) : Prop where
  files : filesOf unpack p.batches = some entries
  begun : p.handovers = 1
  ingested : p.ingested ++ ingestLeft = entries
  compiled : p.compiled ++ compileLeft = entries
  inOrder : ingestLeft ≠ [] → p.compiled = []

def InStage (unpack : String → Option Archive) (p : Processing) : Prop :=
  match p.stage with
  | .waiting => p.calls = []
  | .decoding entries rest =>
    p.calls = [] ∧ ∃ front, p.batches = front ++ rest ∧ filesOf unpack front = some entries
  | .released entries => p.calls = [] ∧ filesOf unpack p.batches = some entries
  | .beginning entries => Delivery unpack p entries entries entries
  | .ingesting entries rest => Delivery unpack p entries rest entries
  | .compiling rest => ∃ entries, Delivery unpack p entries [] rest
  | .draining true | .enriching | .completed => ∃ entries, Delivery unpack p entries [] []
  | .draining false | .died | .failed =>
    p.calls = [] ∨ ∃ entries ingestLeft compileLeft, Delivery unpack p entries ingestLeft compileLeft

theorem filesOf_append_one {front : List SendWorkspaceBatchParams} {batch : SendWorkspaceBatchParams}
    {entries more : List BatchEntry} (decoded : filesOf unpack front = some entries)
    (next : extractBatchEntries unpack batch.compressedData = some more) :
    filesOf unpack (front ++ [batch]) = some (entries ++ more) := by
  induction front generalizing entries with
  | nil =>
    obtain rfl : [] = entries := Option.some.inj decoded
    simp [filesOf,next]
  | cons first front ih =>
    simp only [filesOf,Option.bind_eq_bind,Option.bind_eq_some_iff] at decoded
    obtain ⟨entries',first',others,rest,sum⟩ := decoded
    obtain rfl : entries' ++ others = entries := Option.some.inj sum
    simp [filesOf,first',ih rest]

theorem Delivery.at_ {p : Processing} (d : Delivery unpack p entries ingestLeft compileLeft) (stage : Stage) :
    Delivery unpack { p with stage := stage } entries ingestLeft compileLeft :=
  ⟨d.files,d.begun,d.ingested,d.compiled,d.inOrder⟩

theorem Delivery.drain {p : Processing} (d : Delivery unpack p entries ingestLeft compileLeft) (stage : Stage) :
    Delivery unpack (p.send .drainDeferredReferences stage) entries ingestLeft compileLeft where
  files := d.files
  begun := by simpa [Processing.send,Processing.handovers] using d.begun
  ingested := by simpa [Processing.send,Processing.ingested] using d.ingested
  compiled := by simpa [Processing.send,Processing.compiled] using d.compiled
  inOrder left := by simpa [Processing.send,Processing.compiled] using d.inOrder left

theorem Delivery.compileNext {p : Processing} (d : Delivery unpack p entries [] rest) :
    InStage unpack (p.compileNext rest) := by
  unfold Processing.compileNext
  split
  next empty =>
    subst empty
    exact ⟨entries,d.drain _⟩
  next =>
    refine ⟨entries,d.files,?_,?_,?_,fun left => absurd rfl left⟩
    · simpa [Processing.send,Processing.handovers] using d.begun
    · simpa [Processing.send,Processing.ingested] using d.ingested
    · simpa [Processing.send,Processing.compiled] using d.compiled

theorem Delivery.ingestNext {p : Processing} (d : Delivery unpack p entries rest entries) :
    InStage unpack (p.ingestNext entries rest) := by
  unfold Processing.ingestNext
  split
  next empty =>
    subst empty
    exact d.compileNext
  next left =>
    refine ⟨d.files,?_,?_,?_,?_⟩
    · simpa [Processing.send,Processing.handovers] using d.begun
    · simpa [Processing.send,Processing.ingested] using d.ingested
    · simpa [Processing.send,Processing.compiled] using d.compiled
    · intro _
      simpa [Processing.send,Processing.compiled] using d.inOrder left

theorem Delivery.begin {p : Processing} (files : filesOf unpack p.batches = some entries) (silent : p.calls = []) :
    Delivery unpack (p.send .beginWorkspaceLoadSession (.beginning entries)) entries entries entries where
  files := files
  begun := by simp [Processing.send,Processing.handovers,silent]
  ingested := by simp [Processing.send,Processing.ingested,silent]
  compiled := by simp [Processing.send,Processing.compiled,silent]
  inOrder _ := by simp [Processing.send,Processing.compiled,silent]

def SameSource (p q : Processing) : Prop := q.batches = p.batches ∧ q.sessionId = p.sessionId ∧ q.serial = p.serial

theorem advance_source (p : Processing) (succeeds : Bool) : SameSource p (p.advance unpack succeeds).1 := by
  obtain ⟨serial,sessionId,batches,stage,calls⟩ := p
  have compileNext : ∀ (p : Processing) rest, SameSource p (p.compileNext rest) := by
    intro p rest
    unfold Processing.compileNext
    split
    all_goals exact ⟨rfl,rfl,rfl⟩
  have ingestNext : ∀ (p : Processing) entries rest, SameSource p (p.ingestNext entries rest) := by
    intro p entries rest
    unfold Processing.ingestNext
    split
    next => exact compileNext p entries
    next => exact ⟨rfl,rfl,rfl⟩
  cases succeeds with
  | true =>
    cases stage with
    | decoding entries rest =>
      cases rest with
      | nil => exact ⟨rfl,rfl,rfl⟩
      | cons batch rest =>
        simp only [Processing.advance]
        split
        all_goals exact ⟨rfl,rfl,rfl⟩
    | beginning entries => exact ingestNext _ entries entries
    | ingesting entries rest => exact ingestNext _ entries rest
    | compiling rest => exact compileNext _ rest
    | draining succeeded =>
      cases succeeded
      all_goals exact ⟨rfl,rfl,rfl⟩
    | _ => exact ⟨rfl,rfl,rfl⟩
  | false =>
    cases stage with
    | decoding entries rest =>
      cases rest with
      | nil => exact ⟨rfl,rfl,rfl⟩
      | cons batch rest =>
        simp only [Processing.advance]
        split
        all_goals exact ⟨rfl,rfl,rfl⟩
    | _ => exact ⟨rfl,rfl,rfl⟩

section

variable {p : Processing} (inStage : InStage unpack p)
include inStage

theorem advance_inStage (succeeds : Bool) :
    InStage unpack (p.advance unpack succeeds).1 := by
  obtain ⟨serial,sessionId,batches,stage,calls⟩ := p
  cases stage with
  | waiting =>
    cases succeeds with
    | true => exact ⟨inStage,[],rfl,rfl⟩
    | false => exact .inl inStage
  | decoding entries rest =>
    obtain ⟨silent,front,parts,decoded⟩ := inStage
    cases rest with
    | nil =>
      have whole : batches = front := parts.trans (List.append_nil front)
      exact ⟨silent,whole.symm ▸ decoded⟩
    | cons batch rest =>
      simp only [Processing.advance]
      split
      next more next => exact ⟨silent,front ++ [batch],by simpa using parts,filesOf_append_one decoded next⟩
      next => exact .inl silent
  | released entries =>
    cases succeeds with
    | true => exact Delivery.begin inStage.2 inStage.1
    | false => exact .inl inStage.1
  | beginning entries =>
    cases succeeds with
    | true => exact Delivery.ingestNext (inStage : Delivery unpack _ entries entries entries)
    | false => exact .inr ⟨_,_,_,Delivery.at_ inStage _⟩
  | ingesting entries rest =>
    cases succeeds with
    | true => exact Delivery.ingestNext (inStage : Delivery unpack _ entries rest entries)
    | false => exact .inr ⟨_,_,_,Delivery.drain inStage _⟩
  | compiling rest =>
    obtain ⟨entries,d⟩ := inStage
    cases succeeds with
    | true => exact d.compileNext
    | false => exact .inr ⟨_,_,_,d.drain _⟩
  | draining succeeded =>
    cases succeeded with
    | true =>
      obtain ⟨entries,d⟩ := inStage
      cases succeeds with
      | true => exact ⟨entries,d.at_ _⟩
      | false => exact .inr ⟨_,_,_,d.at_ _⟩
    | false =>
      have sent : calls = [] ∨ ∃ entries ingestLeft compileLeft stage,
          Delivery unpack ⟨serial,sessionId,batches,stage,calls⟩ entries ingestLeft compileLeft :=
        inStage.imp id (fun ⟨entries,ingestLeft,compileLeft,d⟩ => ⟨entries,ingestLeft,compileLeft,_,d⟩)
      cases succeeds with
      | true => exact sent.imp id (fun ⟨_,_,_,_,d⟩ => ⟨_,_,_,d.at_ .failed⟩)
      | false => exact sent.imp id (fun ⟨_,_,_,_,d⟩ => ⟨_,_,_,d.at_ .died⟩)
  | enriching =>
    obtain ⟨entries,d⟩ := inStage
    cases succeeds with
    | true => exact ⟨entries,d.at_ _⟩
    | false => exact .inr ⟨_,_,_,d.at_ _⟩
  | completed => exact inStage
  | failed => exact inStage
  | died => exact inStage

theorem InStage.sent :
    p.calls = [] ∨ ∃ entries ingestLeft compileLeft, Delivery unpack p entries ingestLeft compileLeft ∧
      (p.stage = .completed → ingestLeft = [] ∧ compileLeft = []) := by
  unfold InStage at inStage
  split at inStage
  next waits => exact .inl inStage
  next => exact .inl inStage.1
  next => exact .inl inStage.1
  next stage => exact .inr ⟨_,_,_,inStage,fun completed => by simp [completed] at stage⟩
  next stage => exact .inr ⟨_,_,_,inStage,fun completed => by simp [completed] at stage⟩
  next stage =>
    obtain ⟨entries,d⟩ := inStage
    exact .inr ⟨_,_,_,d,fun completed => by simp [completed] at stage⟩
  all_goals first
    | (obtain ⟨entries,d⟩ := inStage
       exact .inr ⟨_,_,_,d,fun _ => ⟨rfl,rfl⟩⟩)
    | (next stage =>
        refine inStage.imp id (fun sent => ?_)
        obtain ⟨_,_,_,d⟩ := sent
        exact ⟨_,_,_,d,fun completed => by simp [completed] at stage⟩)

theorem InStage.handovers_le : p.handovers ≤ 1 := by
  rcases inStage.sent with silent | ⟨_,_,_,d,_⟩
  · simp [Processing.handovers,silent]
  · exact d.begun.le

theorem InStage.inOrder (spoke : p.calls ≠ []) :
    ∃ files, filesOf unpack p.batches = some files ∧ p.ingested <+: files ∧ p.compiled <+: files ∧
      (p.compiled ≠ [] → p.ingested = files) ∧
      (p.stage = .completed → p.ingested = files ∧ p.compiled = files) := by
  rcases inStage.sent with silent | ⟨files,ingestLeft,compileLeft,d,finished⟩
  · exact absurd silent spoke
  · refine ⟨files,d.files,⟨ingestLeft,d.ingested⟩,⟨compileLeft,d.compiled⟩,fun compiling => ?_,fun completed => ?_⟩
    · by_cases left : ingestLeft = []
      · simpa [left] using d.ingested
      · exact absurd (d.inOrder left) compiling
    · obtain ⟨rfl,rfl⟩ := finished completed
      exact ⟨by simpa using d.ingested,by simpa using d.compiled⟩

end

end

namespace Uploads

structure SessionKept (stored : List Stored) (created : Nat) (sessionId : String) (s : WorkspaceBatchSession) : Prop where
  old : s.serial < created
  batches : ∀ i batch, s.batches.get? i = some batch → batch.batchIndex = i ∧ 0 ≤ i ∧ i < s.totalBatches ∧
    lastStored stored sessionId s.serial i = some batch

def Complete (p : Processing) (a : Acceptance) : Prop :=
  ∃ n : Nat, a.totalBatches = n ∧
    p.batches.map some = (List.range n).map (fun i : Nat => lastStored a.stored p.sessionId p.serial i)

structure Kept (unpack : String → Option Archive) (u : Uploads) : Prop where
  fresh : ∀ e ∈ u.stored, e.serial < u.server.storage.created
  sessions : ∀ id s, u.server.storage.sessions.get? id = some s →
    SessionKept u.stored u.server.storage.created id s
  stages : ∀ p ∈ u.server.processings, InStage unpack p
  answered : u.accepted.length = u.server.processings.length
  complete : ∀ (k : Nat) p a, u.server.processings[k]? = some p → u.accepted[k]? = some a → Complete p a

/-- The sessions the processings are of, in the order of their acceptance. -/
def sources (u : Uploads) : List (String × Nat) := u.server.processings.map (fun p => (p.sessionId,p.serial))

variable {unpack : String → Option Archive}

theorem lastStored_cons (e : Stored) (stored : List Stored) (id : String) (serial : Nat) (i : Int) :
    lastStored (e :: stored) id serial i =
      if e.sessionId = id ∧ e.serial = serial ∧ e.batch.batchIndex = i then some e.batch
      else lastStored stored id serial i := by
  simp only [lastStored,List.find?_cons]
  split
  next same =>
    have here : e.sessionId = id ∧ e.serial = serial ∧ e.batch.batchIndex = i := by simpa [and_assoc] using same
    simp [here]
  next other =>
    have elsewhere : ¬ (e.sessionId = id ∧ e.serial = serial ∧ e.batch.batchIndex = i) := by
      intro here
      simp [here] at other
    rw [if_neg elsewhere]

theorem storeBatch_cases (s : WorkspaceBatchStorage) (params : SendWorkspaceBatchParams) (now : Nat) :
    (∃ error, s.storeBatch params now = .error error) ∨
    ∃ session created, 0 ≤ params.batchIndex ∧ params.batchIndex < session.totalBatches ∧
      (s.sessions.get? (trim params.sessionId) = some session ∧ created = s.created ∨
        session.serial = s.created ∧ session.batches = .empty ∧ created = s.created + 1) ∧
      s.storeBatch params now = .ok (trim params.sessionId,{
        sessions := s.sessions.set (trim params.sessionId) { session with
          batches := session.batches.set params.batchIndex params
          receivedBatches := session.receivedBatches.add params.batchIndex }
        created := created }) := by
  simp only [WorkspaceBatchStorage.storeBatch]
  split
  next => exact .inl ⟨_,rfl⟩
  next =>
    split
    next => exact .inl ⟨_,rfl⟩
    next =>
      split
      next => exact .inl ⟨_,rfl⟩
      next inside =>
        split
        next => exact .inl ⟨_,rfl⟩
        next same =>
          have total := Decidable.not_not.mp same
          refine .inr ⟨_,_,by omega,by rw [total]; omega,?_,rfl⟩
          cases known : s.sessions.get? (trim params.sessionId) with
          | some session => exact .inl ⟨rfl,by simp [OrderedMap.has,known]⟩
          | none => exact .inr ⟨rfl,rfl,by simp [OrderedMap.has,known]⟩

section

variable {u : Uploads}

theorem sendBatch_kept (kept : Kept unpack u) (params : SendWorkspaceBatchParams) (now : Nat) :
    Kept unpack (u.step unpack (.sendBatch params now)) := by
  rcases storeBatch_cases u.server.storage params now with ⟨error,refused⟩ | ⟨session,created,low,high,origin,stored⟩
  · have same : u.step unpack (.sendBatch params now) = u := by
      simp [step,BatchServer.handleWorkspaceBatchRequest,refused]
    rw [same]
    exact kept
  · generalize filed : { session with
      batches := session.batches.set params.batchIndex params
      receivedBatches := session.receivedBatches.add params.batchIndex } = session' at stored
    have next : u.step unpack (.sendBatch params now) =
        { u with
          server.storage := ⟨u.server.storage.sessions.set (trim params.sessionId) session',created⟩
          stored := ⟨trim params.sessionId,session.serial,params⟩ :: u.stored } := by
      subst filed
      simp [step,BatchServer.handleWorkspaceBatchRequest,stored]
    rw [next]
    have grows : u.server.storage.created ≤ created ∧ session.serial < created := by
      rcases origin with ⟨known,rfl⟩ | ⟨fresh,_,rfl⟩
      · exact ⟨le_rfl,(kept.sessions _ session known).old⟩
      · omega
    refine ⟨?_,?_,kept.stages,kept.answered,kept.complete⟩
    · intro e member
      rcases List.mem_cons.mp member with rfl | before
      · exact grows.2
      · exact (kept.fresh e before).trans_le grows.1
    · intro id s found
      simp only [OrderedMap.get?_set] at found
      split at found
      next here =>
        subst here
        obtain rfl := Option.some.inj found
        subst filed
        refine ⟨grows.2,fun i batch held => ?_⟩
        simp only [OrderedMap.get?_set] at held
        split at held
        next this_ =>
          subst this_
          obtain rfl := Option.some.inj held
          exact ⟨rfl,low,high,by simp [lastStored_cons]⟩
        next other =>
          rcases origin with ⟨known,_⟩ | ⟨_,empty,_⟩
          · obtain ⟨named,least,most,last⟩ := (kept.sessions _ session known).batches i batch held
            refine ⟨named,least,most,?_⟩
            rw [lastStored_cons,if_neg (fun same => other same.2.2.symm)]
            exact last
          · simp [empty] at held
      next elsewhere =>
        obtain ⟨old,batches⟩ := kept.sessions id s found
        refine ⟨old.trans_le grows.1,fun i batch held => ?_⟩
        obtain ⟨named,least,most,last⟩ := batches i batch held
        refine ⟨named,least,most,?_⟩
        rw [lastStored_cons,if_neg (fun same => elsewhere same.1.symm)]
        exact last

theorem Kept.drop (kept : Kept unpack u) (sessions : OrderedMap String WorkspaceBatchSession)
    (fewer : ∀ id s, sessions.get? id = some s → u.server.storage.sessions.get? id = some s) :
    Kept unpack { u with server.storage.sessions := sessions } where
  fresh := kept.fresh
  sessions id s found := kept.sessions id s (fewer id s found)
  stages := kept.stages
  answered := kept.answered
  complete := kept.complete

theorem isComplete_spec (kept : Kept unpack u) {params : ProcessWorkspaceBatchesParams}
    (complete : u.server.isComplete params = true) :
    ∃ session n : _, u.server.storage.sessions.get? (trim params.sessionId) = some session ∧
      params.totalBatches = (n : Nat) ∧
      (u.server.storage.getBatches (trim params.sessionId)).map some =
        (List.range n).map (fun i : Nat => lastStored u.stored (trim params.sessionId) session.serial i) := by
  simp only [BatchServer.isComplete,Bool.and_eq_true,decide_eq_true_eq,WorkspaceBatchStorage.areAllBatchesReceived] at complete
  obtain ⟨⟨_,received⟩,counted⟩ := complete
  obtain ⟨session,known,sizes⟩ := (Option.any_eq_true ..).mp received
  simp only [Bool.and_eq_true,decide_eq_true_eq] at sizes
  have held := (kept.sessions _ session known).batches
  refine ⟨session,session.batches.size,known,?_,?_⟩
  · simpa [WorkspaceBatchStorage.getBatches,known,OrderedMap.size] using counted.symm
  · simp only [WorkspaceBatchStorage.getBatches,known,Option.elim_some]
    have entry : ∀ a ∈ session.batches.entries.map Prod.snd, ∃ i, session.batches.get? i = some a := by
      intro a member
      obtain ⟨⟨i,a'⟩,filed,rfl⟩ := List.mem_map.mp member
      exact ⟨i,OrderedMap.get?_eq_some_iff.mpr filed⟩
    have keys : (session.batches.entries.map Prod.snd).map SendWorkspaceBatchParams.batchIndex = session.batches.keys := by
      rw [List.map_map]
      refine List.map_congr_left (fun entry member => ?_)
      exact (held entry.1 entry.2 (OrderedMap.get?_eq_some_iff.mpr member)).1
    have unique : ((session.batches.entries.map Prod.snd).map SendWorkspaceBatchParams.batchIndex).Nodup := by
      rw [keys]
      exact session.batches.keys_nodup
    have range : ∀ a ∈ session.batches.entries.map Prod.snd,
        0 ≤ a.batchIndex ∧ a.batchIndex < (session.batches.size : Nat) := by
      intro a member
      obtain ⟨i,filed⟩ := entry a member
      obtain ⟨rfl,low,high,_⟩ := held i a filed
      omega
    have last : ∀ a ∈ session.batches.entries.map Prod.snd,
        lastStored u.stored (trim params.sessionId) session.serial a.batchIndex = some a := by
      intro a member
      obtain ⟨i,filed⟩ := entry a member
      obtain ⟨rfl,_,_,last⟩ := held i a filed
      exact last
    exact @sorted_parts _ SendWorkspaceBatchParams.batchIndex _ _ unique range (by simp [OrderedMap.size])
      (lastStored u.stored (trim params.sessionId) session.serial) last

theorem process_cases (params : ProcessWorkspaceBatchesParams) :
    ((u.server.handleProcessWorkspaceBatchesRequest params).1.success = false ∧
      u.step unpack (.process params) = u) ∨
    ∃ session, u.server.storage.sessions.get? (trim params.sessionId) = some session ∧
      u.server.isComplete params = true ∧
      u.step unpack (.process params) = { u with
        server.processings := u.server.processings ++
          [⟨session.serial,trim params.sessionId,u.server.storage.getBatches (trim params.sessionId),.waiting,[]⟩]
        accepted := u.accepted ++ [⟨params.totalBatches,u.stored⟩] } := by
  have handled : (∃ answer, answer.success = false ∧
        u.server.handleProcessWorkspaceBatchesRequest params = (answer,u.server)) ∨
      ∃ session, u.server.storage.sessions.get? (trim params.sessionId) = some session ∧
        u.server.isComplete params = true ∧ u.server.handleProcessWorkspaceBatchesRequest params =
          ({ success := true },{ u.server with
            processings := u.server.processings ++
              [⟨session.serial,trim params.sessionId,u.server.storage.getBatches (trim params.sessionId),.waiting,[]⟩] }) := by
    generalize called : u.server.handleProcessWorkspaceBatchesRequest params = outcome
    simp only [BatchServer.handleProcessWorkspaceBatchesRequest] at called
    split at called
    next _ _ session known complete => exact .inr ⟨session,known,complete,called.symm⟩
    next => exact .inl ⟨_,rfl,called.symm⟩
  rcases handled with ⟨answer,refused,same⟩ | ⟨session,known,complete,accepted⟩
  · exact .inl ⟨by rw [same,refused],by simp [step,same,refused]⟩
  · exact .inr ⟨session,known,complete,by simp [step,accepted]⟩

theorem process_kept (kept : Kept unpack u) (params : ProcessWorkspaceBatchesParams) :
    Kept unpack (u.step unpack (.process params)) := by
  rcases u.process_cases params with ⟨_,same⟩ | ⟨session,known,complete,accepted⟩
  · rw [same]
    exact kept
  · obtain ⟨session',n,known',total,parts⟩ := isComplete_spec kept complete
    obtain rfl : session = session' := Option.some.inj (known.symm.trans known')
    rw [accepted]
    refine ⟨kept.fresh,kept.sessions,?_,?_,?_⟩
    · intro p member
      rcases List.mem_append.mp member with before | new
      · exact kept.stages p before
      · obtain rfl := List.mem_singleton.mp new
        rfl
    · simp [kept.answered]
    · intro k p a found answered
      by_cases before : k < u.server.processings.length
      · rw [List.getElem?_append_left before] at found
        rw [List.getElem?_append_left (by rw [kept.answered]; exact before)] at answered
        exact kept.complete k p a found answered
      · rw [List.getElem?_append_right (by omega)] at found
        rw [List.getElem?_append_right (by rw [kept.answered]; omega),kept.answered] at answered
        obtain rfl := List.mem_singleton.mp (List.mem_of_getElem? found)
        obtain rfl := List.mem_singleton.mp (List.mem_of_getElem? answered)
        exact ⟨n,total,parts⟩

theorem background_kept (kept : Kept unpack u) (number : Nat) (succeeds : Bool) :
    Kept unpack (u.step unpack (.background number succeeds)) ∧
      (u.step unpack (.background number succeeds)).sources = u.sources := by
  simp only [step]
  cases found : u.server.processings[number]? with
  | none =>
    have idle : u.server.background unpack number succeeds = u.server := by simp [BatchServer.background,found]
    rw [idle]
    exact ⟨kept,rfl⟩
  | some p =>
    have moves : u.server.background unpack number succeeds =
        { storage := if (p.advance unpack succeeds).2 then u.server.storage.removeSession p.sessionId else u.server.storage
          processings := u.server.processings.set number (p.advance unpack succeeds).1 } := by
      simp [BatchServer.background,found]
    rw [moves]
    have inStage := advance_inStage (kept.stages p (List.mem_of_getElem? found)) succeeds
    obtain ⟨batches,sessionId,serial⟩ := @advance_source unpack p succeeds
    generalize p.advance unpack succeeds = advanced at inStage batches sessionId serial ⊢
    obtain ⟨p',drops⟩ := advanced
    have atOther : ∀ (k : Nat) q, (u.server.processings.set number p')[k]? = some q →
        ∃ q', u.server.processings[k]? = some q' ∧ SameSource q' q := by
      intro k q member
      rw [List.getElem?_set] at member
      split at member
      next here =>
        split at member
        next =>
          obtain rfl := Option.some.inj member
          exact ⟨p,here ▸ found,batches,sessionId,serial⟩
        next => simp at member
      next => exact ⟨q,member,rfl,rfl,rfl⟩
    have moved : Kept unpack { u with server.processings := u.server.processings.set number p' } := by
      refine ⟨kept.fresh,kept.sessions,?_,by simp [kept.answered],?_⟩
      · intro q member
        rcases List.mem_or_eq_of_mem_set member with before | rfl
        · exact kept.stages q before
        · exact inStage
      · intro k q a there answered
        obtain ⟨q',before,batches',sessionId',serial'⟩ := atOther k q there
        simpa only [Complete,batches',sessionId',serial'] using kept.complete k q' a before answered
    refine ⟨?_,?_⟩
    · cases drops with
      | false => exact moved
      | true => exact moved.drop _ (fun id s held => by
          rw [OrderedMap.get?_erase] at held
          split at held
          next => simp at held
          next => exact held)
    · have same : (u.server.processings.set number p').map (fun q => (q.sessionId,q.serial)) =
          u.server.processings.map (fun q => (q.sessionId,q.serial)) := by
        rw [List.map_set,sessionId,serial]
        refine List.ext_getElem? (fun k => ?_)
        rw [List.getElem?_set]
        split
        next here =>
          obtain ⟨bound,rfl⟩ := List.getElem?_eq_some_iff.mp found
          simp [← here,bound]
        next => rfl
      exact same

theorem cleanup_kept (kept : Kept unpack u) (now : Nat) : Kept unpack (u.step unpack (.cleanup now)) := by
  refine kept.drop _ (fun id s held => ?_)
  rw [OrderedMap.get?_filterMap] at held
  obtain ⟨session,stored,kept_⟩ := Option.bind_eq_some_iff.mp held
  split at kept_
  next => simp at kept_
  next => exact stored.trans kept_

theorem step_kept (kept : Kept unpack u) (e : UploadEvent) : Kept unpack (u.step unpack e) := by
  cases e with
  | sendBatch params now => exact sendBatch_kept kept params now
  | process params => exact process_kept kept params
  | background number succeeds => exact (background_kept kept number succeeds).1
  | cleanup now => exact cleanup_kept kept now

end

theorem once_of_nodup {processings : List Processing} (p : Processing)
    (distinct : (processings.map (fun q => (q.sessionId,q.serial))).Nodup) (each : ∀ q ∈ processings, q.handovers ≤ 1) :
    ((processings.filter (SameUpload p)).map Processing.handovers).sum ≤ 1 := by
  induction processings with
  | nil => simp
  | cons q rest ih =>
    obtain ⟨apart,distinct'⟩ := List.nodup_cons.mp distinct
    by_cases same : SameUpload p q
    · have none_ : rest.filter (SameUpload p) = [] := by
        refine List.filter_eq_nil_iff.mpr (fun r member other => apart ?_)
        have both : SameUpload p r := of_decide_eq_true other
        exact List.mem_map.mpr ⟨r,member,by rw [← both.1,← both.2,same.1,same.2]⟩
      simpa [same,none_] using each q List.mem_cons_self
    · simpa [same] using ih distinct' (fun r member => each r (List.mem_cons_of_mem _ member))

theorem Kept.sound {u : Uploads} (kept : Kept unpack u) (distinct : u.sources.Nodup) : Sound unpack u where
  answered := kept.answered
  processed k p a found answered :=
    ⟨kept.complete k p a found answered,(kept.stages p (List.mem_of_getElem? found)).inOrder⟩
  once p := once_of_nodup p distinct (fun q member => (kept.stages q member).handovers_le)

theorem step_sources {u : Uploads} (kept : Kept unpack u) (distinct : u.sources.Nodup) (e : UploadEvent)
    (first : FirstRequest u e) : (u.step unpack e).sources.Nodup := by
  cases e with
  | sendBatch params now =>
    have same : (u.server.handleWorkspaceBatchRequest params now).2.processings = u.server.processings := by
      simp only [BatchServer.handleWorkspaceBatchRequest]
      cases u.server.storage.storeBatch params now with
      | ok stored => rfl
      | error error => rfl
    simpa only [sources,step,same] using distinct
  | process params =>
    rcases u.process_cases params with ⟨_,same⟩ | ⟨session,known,complete,accepted⟩
    · rwa [same]
    · rw [accepted]
      simp only [sources,List.map_append,List.map_cons,List.map_nil]
      refine List.nodup_append.mpr ⟨distinct,List.nodup_singleton _,?_⟩
      rintro pair member _ last rfl
      obtain rfl := List.mem_singleton.mp last
      obtain ⟨p,earlier,same⟩ := List.mem_map.mp member
      exact first session known complete p earlier ⟨congrArg Prod.fst same,congrArg Prod.snd same⟩
  | background number succeeds => rwa [(background_kept kept number succeeds).2]
  | cleanup now => exact distinct

theorem answersComplete {u : Uploads} (kept : Kept unpack u) (e : UploadEvent) : AnswersComplete u e := by
  cases e with
  | process params =>
    intro success
    rcases @process_cases unpack u params with ⟨refused,_⟩ | ⟨session,known,complete,_⟩
    · rw [refused] at success
      cases success
    · obtain ⟨session',n,known',total,parts⟩ := isComplete_spec kept complete
      obtain rfl : session = session' := Option.some.inj (known.symm.trans known')
      refine ⟨session,known,fun i below => ?_⟩
      have member : lastStored u.stored (trim params.sessionId) session.serial i ∈
          (u.server.storage.getBatches (trim params.sessionId)).map some := by
        rw [parts]
        exact List.mem_map.mpr ⟨i,List.mem_range.mpr (by omega),rfl⟩
      obtain ⟨batch,_,stored⟩ := List.mem_map.mp member
      simp [← stored]
  | _ => trivial

theorem start_kept : Kept unpack {} where
  fresh := by simp
  sessions := by simp
  stages := by simp
  answered := rfl
  complete := by simp

/-- In a run without a second request for a session, every accepted upload is complete,
processed in index order with what was stored last, and handed over once. -/
theorem uploads_processed_once (events : List UploadEvent)
    (every : EveryStep (step unpack) FirstRequest {} events) :
    EveryState (step unpack) (Sound unpack) {} events ∧ EveryStep (step unpack) AnswersComplete {} events := by
  have state : EveryState (step unpack) (fun u => Kept unpack u ∧ u.sources.Nodup) {} events :=
    everyState_of_everyStep (fun u e both first => ⟨step_kept both.1 e,step_sources both.1 both.2 e first⟩)
      ⟨start_kept,List.nodup_nil⟩ every
  exact ⟨fun front initial => (state front initial).1.sound (state front initial).2,
    everyStep_of_everyState (fun _ e both => answersComplete both.1 e) state⟩

def oneClass : String → Option Archive := fun _ =>
  some ⟨some [⟨"file:///A.cls",1⟩],fun _ => some "class A {}"⟩

/-- An upload of one batch, its process request, and the steps of the processing. -/
def oneUpload : List UploadEvent :=
  [.sendBatch ⟨"load-1",0,1,"UEsDBA==",[⟨"file:///A.cls",1⟩]⟩ 0,.process ⟨"load-1",1⟩,.background 0 true,.background 0 true,
    .background 0 true,.background 0 true,.background 0 true,.background 0 true,.background 0 true,.background 0 true,
    .process ⟨"load-1",1⟩]

theorem oneUpload_processed : EveryState (step oneClass) (Sound oneClass) {} oneUpload ∧
    EveryStep (step oneClass) AnswersComplete {} oneUpload := by
  refine uploads_processed_once oneUpload ⟨trivial,?_,trivial,trivial,trivial,trivial,trivial,trivial,trivial,trivial,?_,trivial⟩
  · intro session _ _ p member
    cases member
  · intro session known
    have gone : ((run (step oneClass) {} (oneUpload.take 10)).server.storage.sessions.get? (trim "load-1")).isNone = true := by
      decide +kernel
    have found : (run (step oneClass) {} (oneUpload.take 10)).server.storage.sessions.get? (trim "load-1") = some session :=
      known
    rw [found] at gone
    cases gone

def repeatedRequest : List UploadEvent :=
  [.sendBatch ⟨"load-1",0,1,"UEsDBA==",[⟨"file:///A.cls",1⟩]⟩ 0,.process ⟨"load-1",1⟩,.process ⟨"load-1",1⟩,
    .background 0 true,.background 0 true,.background 0 true,.background 0 true,
    .background 1 true,.background 1 true,.background 1 true,.background 1 true]

/-- Both processings hand the upload over. -/
theorem repeatedRequest_hands_over_twice :
    ¬ EveryState (step oneClass) (Sound oneClass) {} repeatedRequest := by
  intro always
  have once := always.last.once ⟨0,"load-1",[],.waiting,[]⟩
  have twice : (((run (step oneClass) {} repeatedRequest).server.processings.filter
      (SameUpload ⟨0,"load-1",[],.waiting,[]⟩)).map Processing.handovers).sum = 2 := by
    decide +kernel
  omega

end Uploads
end ApexLs.Server
