import Mathlib.Data.List.Sort
import Mathlib.Data.List.Dedup
import Mathlib.Data.List.Lex
import ApexLs.Collections.InFlightTables
import ApexLs.Queue.PriorityScheduler
import ApexLs.Types.SymbolTable
import ApexLs.Types.UriBasedIdGenerator
import ApexLs.Utils.Runtime
import ApexLs.Utils.Text

/-! Blocking requests for missing artifacts: the key of a request, what is sent, and how a call joins a request in
flight, starts one or is answered at once. -/
namespace ApexLs.Services.MissingArtifacts

open ApexLs.Collections ApexLs.Queue ApexLs.Types ApexLs.Utils

inductive RequestKind where
  | definition | typeDefinition | implementation | hover | references | completion | signatureHelp
  deriving DecidableEq, Repr

def RequestKind.text : RequestKind → String
  | .definition => "definition"
  | .typeDefinition => "typeDefinition"
  | .implementation => "implementation"
  | .hover => "hover"
  | .references => "references"
  | .completion => "completion"
  | .signatureHelp => "signatureHelp"

def completenessText : ParseCompleteness → String
  | .complete => "complete"
  | .incomplete => "incomplete"
  | .unknown => "unknown"

inductive MissingArtifactIdentifierType where
  | sobject | apexClass | trigger
  deriving DecidableEq, Repr

def MissingArtifactIdentifierType.text : MissingArtifactIdentifierType → String
  | .sobject => "sobject"
  | .apexClass => "apex-class"
  | .trigger => "trigger"

structure ReferenceRange where
  startLine : Int
  startColumn : Int
  endLine : Int
  endColumn : Int
  deriving DecidableEq, Repr

structure SemanticArtifactProvenance where
  sourceUri : String
  documentVersion : Option Int := none
  referenceRange : ReferenceRange
  referenceIdentity : String
  parseCompleteness : ParseCompleteness
  deriving DecidableEq, Repr

structure IdentifierSpec where
  name : String
  provenance : Option SemanticArtifactProvenance
  identifierType : Option MissingArtifactIdentifierType := none
  deriving DecidableEq, Repr

structure FindMissingArtifactParams where
  identifiers : List IdentifierSpec
  uri : String
  requestKind : RequestKind
  timeoutMsHint : Option Nat := none
  deriving DecidableEq, Repr

structure MissingArtifactPayload where
  name : String
  describeName : String
  deriving DecidableEq, Repr

inductive FindMissingArtifactResult where
  | opened (uris : List String)
  | artifacts (payloads : List MissingArtifactPayload) (opened : Option (List String))
  | notFound
  | accepted
  deriving DecidableEq, Repr

inductive BlockingResult where
  | resolved (artifacts : Option (List MissingArtifactPayload)) (opened : Option (List String))
  | notFound
  | timeout
  | cancelled
  | unsupported
  deriving DecidableEq, Repr

def validRange (range : ReferenceRange) : Bool :=
  range.startLine ≥ 0 && range.startColumn ≥ 0 && range.endLine ≥ range.startLine &&
    (range.endLine > range.startLine || range.endColumn ≥ range.startColumn)

/-- The identifiers of complete semantic origin, if there are any. -/
def sanitizeMissingArtifactParams (params : FindMissingArtifactParams) : Option FindMissingArtifactParams :=
  let identifiers := params.identifiers.filter fun decoded =>
    trim decoded.name ≠ "" && decoded.provenance.any fun provenance =>
      trim provenance.sourceUri ≠ "" && provenance.sourceUri = params.uri &&
        trim provenance.referenceIdentity ≠ "" && validRange provenance.referenceRange
  if identifiers.isEmpty then none else some { params with identifiers }

def codeUnits (s : String) : List Nat :=
  s.toList.flatMap fun c =>
    if c.toNat < 0x10000 then [c.toNat]
    else [0xd800 + (c.toNat - 0x10000) / 0x400,0xdc00 + (c.toNat - 0x10000) % 0x400]

section

variable [Runtime]

/-- The part of a key for an identifier, empty for one without a name or an origin. -/
def identifierKey (identifier : IdentifierSpec) : String :=
  let name := toLowerCase (trim identifier.name)
  match identifier.provenance with
  | none => ""
  | some provenance =>
    if name = "" then ""
    else "|".intercalate [(identifier.identifierType.getD .apexClass).text,name,provenance.sourceUri,
      (provenance.documentVersion.map toString).getD "unknown",provenance.referenceIdentity,
      completenessText provenance.parseCompleteness]

def blockingKey (params : FindMissingArtifactParams) : String :=
  let names := ", ".intercalate (params.identifiers.map IdentifierSpec.name)
  let normalizedIdentifiers := ",".intercalate
    (((params.identifiers.map identifierKey).filter (· ≠ "")).dedup.insertionSort fun a b => codeUnits a ≤ codeUnits b)
  params.requestKind.text ++ "|" ++ params.uri ++ "|" ++
    (if normalizedIdentifiers = "" then toLowerCase names else normalizedIdentifiers)

def decodeFindMissingArtifactResult (result : Option FindMissingArtifactResult) (params : FindMissingArtifactParams) :
    Option FindMissingArtifactResult :=
  let requestedSObjects := (params.identifiers.filter (·.identifierType = some .sobject)).map fun identifier =>
    toLowerCase (trim identifier.name)
  match result with
  | some (.artifacts payloads opened) =>
    if payloads.all fun artifact =>
        let normalizedName := toLowerCase (trim artifact.name)
        requestedSObjects.contains normalizedName && toLowerCase (trim artifact.describeName) = normalizedName
    then some (.artifacts payloads opened) else none
  | decoded => decoded

def mapResultToBlockingResult (result : Option FindMissingArtifactResult) (params : FindMissingArtifactParams) :
    BlockingResult :=
  match decodeFindMissingArtifactResult result params with
  | some (.opened uris) =>
    if !uris.isEmpty && params.identifiers.any (·.identifierType ≠ some .sobject) then .resolved none (some uris)
    else .notFound
  | some (.artifacts payloads opened) =>
    let artifacts := if payloads.isEmpty then none else some payloads
    let opened := opened.filter fun uris => !uris.isEmpty
    if artifacts.isSome || opened.isSome && params.identifiers.any (·.identifierType ≠ some .sobject)
    then .resolved artifacts opened else .notFound
  | _ => .notFound

end

abbrev Failure := Option String

inductive Outcome where
  | resolves (result : Option FindMissingArtifactResult)
  | rejects (error : Failure)
  deriving DecidableEq, Repr

inductive Channel where
  | proxy
  | queue (priority : Priority)
  deriving DecidableEq, Repr

structure BlockingRequest where
  params : FindMissingArtifactParams
  safeParams : FindMissingArtifactParams
  channel : Channel
  timeoutMs : Nat
  deriving DecidableEq, Repr

structure SettledRequest where
  result : BlockingResult
  settledAt : Nat
  deriving DecidableEq, Repr

/-- What the static maps of the service hold. The promises of the requests are numbered as they were made. -/
structure MissingArtifactResolutionService where
  inFlightBlockingRequests : OrderedMap String Nat := .empty
  recentBlockingTimeouts : OrderedMap String Nat := .empty
  requests : List (Job String BlockingRequest SettledRequest) := []

/-- What a call meets; `thrown` is what the proxy or the queue manager throws before it returns a promise. -/
structure Circumstances where
  now : Nat
  enabled : Bool := true
  connected : Bool := true
  proxied : Bool := false
  blockingWaitTimeoutMs : Nat := 2000
  thrown : Option Failure := none
  deriving DecidableEq, Repr

inductive Reply where
  | immediate (result : BlockingResult)
  | promise (request : Nat)
  deriving DecidableEq, Repr

namespace MissingArtifactResolutionService

def blockingTimeoutCooldownMs : Nat := 3000

section

variable (service : MissingArtifactResolutionService)

def purge (now : Nat) : MissingArtifactResolutionService :=
  { service with
    recentBlockingTimeouts := service.recentBlockingTimeouts.filterMap fun _ timestamp =>
      if now - timestamp ≥ blockingTimeoutCooldownMs then none else some timestamp }

def failed (key : String) (error : Failure) (now : Nat) : BlockingResult × OrderedMap String Nat :=
  if error.any fun message => includes message.toList "timeout"
  then (.timeout,service.recentBlockingTimeouts.set key now)
  else (.notFound,service.recentBlockingTimeouts)

/-- The request up to its first `await`. If something is thrown before, its `catch` and `finally` have run when its
promise enters the table. -/
def start (key : String) (request : BlockingRequest) (circumstances : Circumstances) : MissingArtifactResolutionService :=
  match circumstances.thrown with
  | none =>
    { service with
      inFlightBlockingRequests := service.inFlightBlockingRequests.set key service.requests.length
      requests := service.requests ++ [⟨key,request,none⟩] }
  | some error =>
    let (result,recentBlockingTimeouts) := service.failed key error circumstances.now
    { inFlightBlockingRequests := (service.inFlightBlockingRequests.erase key).set key service.requests.length
      recentBlockingTimeouts
      requests := service.requests ++ [⟨key,request,some ⟨result,circumstances.now⟩⟩] }

end

def newRequest (params safeParams : FindMissingArtifactParams) (circumstances : Circumstances) : BlockingRequest where
  params := params
  safeParams := safeParams
  channel := if !circumstances.connected && circumstances.proxied then .proxy
    else .queue (if params.requestKind = .definition then .high else .normal)
  timeoutMs := (params.timeoutMsHint.filter (· ≠ 0)).getD circumstances.blockingWaitTimeoutMs

section

variable [Runtime] (service : MissingArtifactResolutionService)

def resolveBlocking (params : FindMissingArtifactParams) (circumstances : Circumstances) :
    MissingArtifactResolutionService × Reply :=
  let key := blockingKey params
  let service := service.purge circumstances.now
  match service.inFlightBlockingRequests.get? key with
  | some existing => (service,.promise existing)
  | none =>
    let recentTimeout := (service.recentBlockingTimeouts.get? key).getD 0
    if recentTimeout > 0 && circumstances.now - recentTimeout < blockingTimeoutCooldownMs then
      (service,.immediate .timeout)
    else if !circumstances.enabled then (service,.immediate .unsupported)
    else
      match sanitizeMissingArtifactParams params with
      | none => (service,.immediate .notFound)
      | some safeParams =>
        (service.start key (newRequest params safeParams circumstances) circumstances,.promise service.requests.length)

def settle (i : Nat) (outcome : Outcome) (now : Nat) : MissingArtifactResolutionService :=
  match service.requests[i]? with
  | some ⟨key,request,none⟩ =>
    let (result,recentBlockingTimeouts) :=
      match outcome with
      | .resolves result =>
        (mapResultToBlockingResult result request.safeParams,service.recentBlockingTimeouts.erase key)
      | .rejects error => service.failed key error now
    { inFlightBlockingRequests := service.inFlightBlockingRequests.erase key
      recentBlockingTimeouts
      requests := settleJob service.requests i ⟨result,now⟩ }
  | _ => service

def elapses (i : Nat) (now : Nat) : MissingArtifactResolutionService :=
  match service.requests[i]? with
  | some ⟨_,request,_⟩ =>
    if request.channel = .proxy then
      service.settle i (.rejects (some ("Blocking resolution timeout after " ++ toString request.timeoutMs ++ "ms"))) now
    else service
  | none => service

end

end MissingArtifactResolutionService

end ApexLs.Services.MissingArtifacts
