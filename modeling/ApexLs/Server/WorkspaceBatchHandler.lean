import ApexLs.Collections.OrderedMap
import ApexLs.Utils.Text

/-! Workspace loading on the coordinator. A client sends the batches of an upload in any order
and then asks for their processing, which runs in the background: it decodes the stored batches,
drops the session and hands the files to the data owner. -/
namespace ApexLs.Server

open ApexLs.Collections ApexLs.Utils

structure FileMetadata where
  uri : String
  version : Int
  deriving DecidableEq, Repr

structure SendWorkspaceBatchParams where
  sessionId : String
  batchIndex : Int
  totalBatches : Int
  compressedData : String
  fileMetadata : List FileMetadata := []
  deriving DecidableEq, Repr

structure ProcessWorkspaceBatchesParams where
  sessionId : String
  totalBatches : Int
  deriving DecidableEq, Repr

structure BatchEntry where
  uri : String
  content : String
  languageId : String
  version : Int
  deriving DecidableEq, Repr

/-- What unpacking a batch gives: the parsed `__metadata.json`, where there is one, and the
decoded files. -/
structure Archive where
  fileMetadata : Option (List FileMetadata)
  content : String → Option String

structure WorkspaceBatchSession where
  serial : Nat
  totalBatches : Int
  batches : OrderedMap Int SendWorkspaceBatchParams := .empty
  receivedBatches : OrderedSet Int := .empty
  createdAt : Nat

structure WorkspaceBatchStorage where
  sessions : OrderedMap String WorkspaceBatchSession := .empty
  created : Nat := 0

namespace WorkspaceBatchStorage

def SESSION_TIMEOUT_MS : Nat := 5 * 60 * 1000

def storeBatch (s : WorkspaceBatchStorage) (params : SendWorkspaceBatchParams) (now : Nat) :
    Except String (String × WorkspaceBatchStorage) :=
  let sessionId := trim params.sessionId
  if sessionId = "" then .error "Workspace batch sessionId must not be empty"
  else if params.totalBatches < 1 then
    .error ("Invalid totalBatches " ++ toString params.totalBatches ++ " for session " ++ sessionId)
  else if params.batchIndex < 0 ∨ params.batchIndex ≥ params.totalBatches then
    .error ("Invalid batchIndex " ++ toString params.batchIndex ++ " for " ++ toString params.totalBatches ++ " batches")
  else
    let fresh := { serial := s.created,totalBatches := params.totalBatches,createdAt := now }
    let session := (s.sessions.get? sessionId).getD fresh
    if session.totalBatches ≠ params.totalBatches then
      .error ("Workspace session " ++ sessionId ++ " expected " ++ toString session.totalBatches ++
        " batches, received " ++ toString params.totalBatches)
    else
      .ok (sessionId,{
        sessions := s.sessions.set sessionId { session with
          batches := session.batches.set params.batchIndex params
          receivedBatches := session.receivedBatches.add params.batchIndex }
        created := if s.sessions.has sessionId then s.created else s.created + 1 })

def areAllBatchesReceived (s : WorkspaceBatchStorage) (sessionId : String) : Bool :=
  (s.sessions.get? sessionId).any fun session =>
    (session.receivedBatches.size : Int) = session.totalBatches && session.receivedBatches.size = session.batches.size

def getReceivedBatchCount (s : WorkspaceBatchStorage) (sessionId : String) : Nat :=
  (s.sessions.get? sessionId).elim 0 (fun session => session.receivedBatches.size)

def getBatches (s : WorkspaceBatchStorage) (sessionId : String) : List SendWorkspaceBatchParams :=
  (s.sessions.get? sessionId).elim [] fun session =>
    (session.batches.entries.map Prod.snd).mergeSort (fun a b => a.batchIndex ≤ b.batchIndex)

def removeSession (s : WorkspaceBatchStorage) (sessionId : String) : WorkspaceBatchStorage :=
  { s with sessions := s.sessions.erase sessionId }

def cleanupOldSessions (s : WorkspaceBatchStorage) (now : Nat) : WorkspaceBatchStorage :=
  { s with sessions := s.sessions.filterMap fun _ session =>
      if now - session.createdAt > SESSION_TIMEOUT_MS then none else some session }

end WorkspaceBatchStorage

inductive DataOwnerCall where
  | beginWorkspaceLoadSession
  | ingest (chunk : List BatchEntry)
  | compile (chunk : List BatchEntry)
  | drainDeferredReferences
  deriving DecidableEq, Repr

/-- How far a background processing has come. From `beginning` to `draining`, the last message to
the data owner is still unanswered. -/
inductive Stage where
  | waiting
  | decoding (entries : List BatchEntry) (rest : List SendWorkspaceBatchParams)
  | released (entries : List BatchEntry)
  | beginning (entries : List BatchEntry)
  | ingesting (entries rest : List BatchEntry)
  | compiling (rest : List BatchEntry)
  | draining (succeeded : Bool)
  | enriching
  | completed
  | failed
  | died
  deriving DecidableEq, Repr

/-- A background processing, with the batches the process request found and the messages it
has sent so far. -/
structure Processing where
  serial : Nat
  sessionId : String
  batches : List SendWorkspaceBatchParams
  stage : Stage := .waiting
  calls : List DataOwnerCall := []
  deriving DecidableEq, Repr

def CHUNK_SIZE : Nat := 100

namespace Processing

def send (p : Processing) (call : DataOwnerCall) (stage : Stage) : Processing :=
  { p with calls := p.calls ++ [call],stage := stage }

def compileNext (p : Processing) (rest : List BatchEntry) : Processing :=
  if rest = [] then p.send .drainDeferredReferences (.draining true)
  else p.send (.compile (rest.take CHUNK_SIZE)) (.compiling (rest.drop CHUNK_SIZE))

def ingestNext (p : Processing) (entries rest : List BatchEntry) : Processing :=
  if rest = [] then p.compileNext entries
  else p.send (.ingest (rest.take CHUNK_SIZE)) (.ingesting entries (rest.drop CHUNK_SIZE))

def fail (p : Processing) : Processing := { p with stage := .failed }

end Processing

section

variable (unpack : String → Option Archive)

def extractBatchEntries (compressedDataBase64 : String) : Option (List BatchEntry) := do
  let archive ← unpack compressedDataBase64
  let fileMetadata ← archive.fileMetadata
  return fileMetadata.filterMap fun fileMeta =>
    (archive.content fileMeta.uri).map fun content => ⟨fileMeta.uri,content,"apex",fileMeta.version⟩

/-- One step of a processing, and whether it drops the session. `succeeds` says how what it
waits for ends. -/
def Processing.advance (p : Processing) (succeeds : Bool) : Processing × Bool :=
  match p.stage with
  -- no dispatcher was wired in time
  | .waiting => if succeeds then ({ p with stage := .decoding [] p.batches },false) else (p.fail,true)
  | .decoding entries [] => ({ p with stage := .released entries },true)
  | .decoding entries (batch :: rest) =>
    match extractBatchEntries unpack batch.compressedData with
    | some more => ({ p with stage := .decoding (entries ++ more) rest },false)
    | none => (p.fail,true)
  -- the dispatchers for sessions and compilation may be missing
  | .released entries =>
    if succeeds then (p.send .beginWorkspaceLoadSession (.beginning entries),false) else (p.fail,true)
  | .beginning entries => if succeeds then (p.ingestNext entries entries,false) else (p.fail,true)
  | .ingesting entries rest =>
    (if succeeds then p.ingestNext entries rest else p.send .drainDeferredReferences (.draining false),false)
  | .compiling rest =>
    (if succeeds then p.compileNext rest else p.send .drainDeferredReferences (.draining false),false)
  | .draining succeeded =>
    if succeeds then (if succeeded then ({ p with stage := .enriching },false) else (p.fail,true))
    else ({ p with stage := .died },false)
  -- cross-file enrichment, where it is enabled
  | .enriching => if succeeds then ({ p with stage := .completed },false) else (p.fail,true)
  | .completed => (p,false)
  | .failed => (p,false)
  | .died => (p,false)

end

structure SendWorkspaceBatchResult where
  success : Bool
  enqueuedCount : Nat
  stored : Bool := false
  receivedCount : Option Nat := none
  totalBatches : Option Int := none
  error : Option String := none
  deriving DecidableEq, Repr

structure ProcessWorkspaceBatchesResult where
  success : Bool
  error : Option String := none
  deriving DecidableEq, Repr

structure BatchServer where
  storage : WorkspaceBatchStorage := {}
  processings : List Processing := []

namespace BatchServer

def handleWorkspaceBatchRequest (w : BatchServer) (params : SendWorkspaceBatchParams) (now : Nat) :
    SendWorkspaceBatchResult × BatchServer :=
  match w.storage.storeBatch params now with
  | .ok (sessionId,storage) =>
    ({ success := true,enqueuedCount := params.fileMetadata.length,stored := true
       receivedCount := some (storage.getReceivedBatchCount sessionId),totalBatches := some params.totalBatches },
      { w with storage := storage })
  | .error error => ({ success := false,enqueuedCount := 0,error := some error },w)

def isComplete (w : BatchServer) (params : ProcessWorkspaceBatchesParams) : Bool :=
  let sessionId := trim params.sessionId
  sessionId ≠ "" && w.storage.areAllBatchesReceived sessionId &&
    ((w.storage.getBatches sessionId).length : Int) = params.totalBatches

def handleProcessWorkspaceBatchesRequest (w : BatchServer) (params : ProcessWorkspaceBatchesParams) :
    ProcessWorkspaceBatchesResult × BatchServer :=
  let sessionId := trim params.sessionId
  match w.storage.sessions.get? sessionId,w.isComplete params with
  | some session,true =>
    ({ success := true },
      { w with processings := w.processings ++ [⟨session.serial,sessionId,w.storage.getBatches sessionId,.waiting,[]⟩] })
  | _,_ =>
    ({ success := false
       error := some ("Workspace batch session " ++ (if sessionId = "" then "<empty>" else sessionId) ++ " is incomplete") },w)

def background (w : BatchServer) (unpack : String → Option Archive) (number : Nat) (succeeds : Bool) : BatchServer :=
  match w.processings[number]? with
  | none => w
  | some p =>
    let (p',drops) := p.advance unpack succeeds
    { storage := if drops then w.storage.removeSession p.sessionId else w.storage
      processings := w.processings.set number p' }

end BatchServer
end ApexLs.Server
