import ApexLs.Services.MissingArtifactResolution
import ApexLs.Symbols.PublishedTables

/-! The enrichment of the symbol graph with sObjects. A placeholder stands for an object while the client is asked for its
description. Every service of a symbol manager shares the same maps, so a call on any of them is a step on the one state
here. Each step is what runs between two `await`s. -/
namespace ApexLs.Services.SObjects

open ApexLs.Collections ApexLs.Symbols ApexLs.Utils
open MissingArtifacts (MissingArtifactIdentifierType MissingArtifactPayload BlockingResult)

/-- An identifier that a caller misses; `expectsTrigger` says that one of its search hints expects a trigger. -/
structure IdentifierSpec where
  name : String
  identifierType : Option MissingArtifactIdentifierType := none
  expectsTrigger : Bool := false
  deriving DecidableEq, Repr

def customSObjectSuffixes : List String :=
  ["__history","__share","__kav","__mdt","__ka","__c","__e","__b","__x"]

/-- `/^[A-Za-z][A-Za-z0-9_]*$/` -/
def isApexIdentifier (name : List Char) : Bool :=
  name.head?.any Char.isAlpha && name.all fun c => c.isAlphanum || c = '_'

section

variable [Runtime]

def objectIdentifier (name : String) : Option (List Char) :=
  let identifier := match (trim name).toList.splitOn '.' with
    | [only] => some only
    | [schema,object] => if toLowerCase (String.ofList schema) = "schema" then some object else none
    | _ => none
  identifier.filter isApexIdentifier

def hasSuffixWithBase (name suffix : String) : Bool :=
  suffix.toList.isSuffixOf (toLowerCase name).toList && suffix.length < (toLowerCase name).length

def isCustomSObjectName (name : String) : Bool :=
  (objectIdentifier name).any fun identifier => customSObjectSuffixes.any (hasSuffixWithBase (String.ofList identifier))

def classifyMissingArtifactIdentifier (evidence : IdentifierSpec) : MissingArtifactIdentifierType :=
  if evidence.identifierType = some .trigger ∨ evidence.expectsTrigger then .trigger
  else if isCustomSObjectName evidence.name then .sobject
  else .apexClass

/-- The name that the maps know an object by. Its owner URI is this name in percent encoding, so the tables of the graph
stand under it here. -/
def normalizedName (name : String) : String := toLowerCase (trim name)

def identifierKey (identifier : IdentifierSpec) : String :=
  (identifier.identifierType.getD .apexClass).text ++ ":" ++ normalizedName identifier.name

def normalizeParams (identifiers : List IdentifierSpec) : List IdentifierSpec :=
  let byKey := identifiers.foldl (fun byKey identifier =>
    let normalized := { identifier with
      identifierType := some (identifier.identifierType.getD (classifyMissingArtifactIdentifier identifier)) }
    byKey.set (identifierKey normalized) normalized) OrderedMap.empty
  byKey.entries.map Prod.snd

end

def isSObject (identifier : IdentifierSpec) : Bool := identifier.identifierType = some .sobject

structure ObjectTable where
  documentVersion : Nat
  artifact : Option MissingArtifactPayload
  deriving DecidableEq, Repr

/-- The versions given out, the tables of the graph, and all tables that were ever registered. -/
structure Objects where
  latestVersionByName : OrderedMap String Nat := .empty
  tables : OrderedMap String ObjectTable := .empty
  registered : List (String × ObjectTable) := []

namespace Objects

def latest (o : Objects) (name : String) : Nat := (o.latestVersionByName.get? name).getD 0

def setLatest (o : Objects) (name : String) (version : Nat) : Objects :=
  { o with latestVersionByName := o.latestVersionByName.set name version }

def outdated (o : Objects) (name : String) (table : ObjectTable) : Bool :=
  (o.tables.get? name).any (table.documentVersion < ·.documentVersion)

/-- `addSymbolTable`, of which the registration comes before any `await`. Whether the symbols of the old table are merged
into the new one does not matter here. -/
def addSymbolTable (o : Objects) (name : String) (table : ObjectTable) : Objects :=
  if o.outdated name table then o
  else { o with tables := o.tables.set name table,registered := o.registered ++ [(name,table)] }

section

variable [Runtime]

/-- The loop of `applyArtifacts` up to the next table that it adds: what is left then, or nothing when the loop is over. The
payloads are such as the schema lets through, so each makes a table. -/
def applyArtifacts (versions : OrderedMap String Nat) : List MissingArtifactPayload → Objects →
    Objects × Option (List MissingArtifactPayload)
  | [],o => (o,none)
  | artifact :: rest,o =>
    let name := normalizedName artifact.name
    match versions.get? name with
    | none => applyArtifacts versions rest o
    | some version =>
      if version < o.latest name then applyArtifacts versions rest o
      else ((o.setLatest name version).addSymbolTable name ⟨version,some artifact⟩,some rest)

def reserveArtifactVersions (identifiers : List IdentifierSpec) (o : Objects) : OrderedMap String Nat × Objects :=
  (identifiers.filter isSObject).foldl (fun (versions,o) identifier =>
    let name := normalizedName identifier.name
    let nextVersion := o.latest name + 1
    (versions.set name nextVersion,o.setLatest name nextVersion)) (.empty,o)

end

end Objects

/-- How far a placeholder is: the table was looked up, the placeholder is being added, or its promise is settled. -/
inductive PlaceholderStage where
  | looking (existing : Option ObjectTable)
  | adding
  | settled (succeeded : Bool)
  deriving DecidableEq, Repr

structure Placeholder where
  name : String
  stage : PlaceholderStage
  deriving DecidableEq, Repr

/-- How far a request is: it waits for placeholders, is with the client, adds the artifacts of the outcome, or is settled, with
`none` for a rejection; at the end its callbacks have run. -/
inductive RequestStage where
  | preparing (placeholders : List Nat)
  | asking
  | applying (outcome : BlockingResult) (artifacts : List MissingArtifactPayload) (rest : Option (List MissingArtifactPayload))
  | settled (outcome : Option BlockingResult)
  | done (outcome : Option BlockingResult)
  deriving DecidableEq, Repr

structure Request where
  identifiers : List IdentifierSpec
  versions : OrderedMap String Nat := .empty
  stage : RequestStage

structure Application where
  versions : OrderedMap String Nat
  rest : Option (List MissingArtifactPayload)

/-- A call of `resolveInBackground`: its Apex identifiers are forwarded first, then placeholders are made. -/
inductive BackgroundStage where
  | forwarding
  | preparing (placeholders : List Nat)
  | over_
  deriving DecidableEq, Repr

structure Background where
  sObjects : List IdentifierSpec
  stage : BackgroundStage

/-- `SObjectEnrichmentCoordinationState`, the sObjects of the symbol manager, and the work that is going on. -/
structure Coordination where
  inFlightByIdentifier : OrderedMap String Nat := .empty
  notFoundUntilByIdentifier : OrderedMap String Nat := .empty
  placeholderInFlight : OrderedMap String Nat := .empty
  objects : Objects := {}
  placeholders : List Placeholder := []
  requests : List Request := []
  applications : List Application := []
  backgrounds : List Background := []

def notFoundTtlMs : Nat := 3000

namespace Coordination

def setPlaceholder (s : Coordination) (i : Nat) (stage : PlaceholderStage) : Coordination :=
  { s with placeholders := s.placeholders.modify i fun p => { p with stage } }

def setRequest (s : Coordination) (i : Nat) (f : Request → Request) : Coordination :=
  { s with requests := s.requests.modify i f }

/-- What `Promise.all` of some placeholders has come to: it fails with the first that does. -/
def allSettled (s : Coordination) (placeholders : List Nat) : Option Bool :=
  let stages := placeholders.map fun i => (s.placeholders[i]?).map Placeholder.stage
  if some (.settled false) ∈ stages then some false
  else if ∀ stage ∈ stages, stage = some (.settled true) then some true
  else none

section

variable [Runtime]

/-- A name without letters has no owner URI, and its placeholder fails at once. -/
def ensurePlaceholder (s : Coordination) (name : String) : Coordination × Nat :=
  match s.placeholderInFlight.get? (normalizedName name) with
  | some existingRequest => (s,existingRequest)
  | none =>
    let stage := if trim name = "" then .settled false else .looking (s.objects.tables.get? (normalizedName name))
    ({ s with
      placeholders := s.placeholders ++ [⟨normalizedName name,stage⟩]
      placeholderInFlight := s.placeholderInFlight.set (normalizedName name) s.placeholders.length },s.placeholders.length)

def ensurePlaceholders (s : Coordination) (identifiers : List IdentifierSpec) : Coordination × List Nat :=
  (identifiers.filter isSObject).foldl (fun (s,placeholders) identifier =>
    let p := s.ensurePlaceholder identifier.name
    (p.1,placeholders ++ [p.2])) (s,[])

/-- The placeholder goes on after the lookup, with what was found then. -/
def lookedUp (s : Coordination) (i : Nat) : Coordination :=
  match s.placeholders[i]? with
  | some ⟨name,.looking existing⟩ =>
    let existingVersion := existing.elim 0 ObjectTable.documentVersion
    let currentVersion := max (s.objects.latest name) existingVersion
    let objects := s.objects.setLatest name currentVersion
    if existing.isSome then { s with objects }.setPlaceholder i (.settled true)
    else
      let placeholderVersion := currentVersion + 1
      let objects := (objects.setLatest name placeholderVersion).addSymbolTable name ⟨placeholderVersion,none⟩
      { s with objects }.setPlaceholder i .adding
  | _ => s

def placeholderAdded (s : Coordination) (i : Nat) : Coordination :=
  match s.placeholders[i]? with
  | some ⟨_,.adding⟩ => s.setPlaceholder i (.settled true)
  | _ => s

def placeholderLeaves (s : Coordination) (i : Nat) : Coordination :=
  match s.placeholders[i]? with
  | some ⟨name,.settled _⟩ =>
    if s.placeholderInFlight.get? name = some i then { s with placeholderInFlight := s.placeholderInFlight.erase name } else s
  | _ => s

/-- The keys that are negatively cached no more are dropped; the others, and those in flight, are not asked for. -/
def resolveBlocking (s : Coordination) (identifiers : List IdentifierSpec) (now : Nat) : Coordination :=
  let s := { s with notFoundUntilByIdentifier :=
    s.notFoundUntilByIdentifier.filterMap fun _ expiresAt => if expiresAt ≤ now then none else some expiresAt }
  let fresh := (normalizeParams identifiers).filter fun identifier =>
    (s.notFoundUntilByIdentifier.get? (identifierKey identifier)).all (· ≤ now) &&
      (s.inFlightByIdentifier.get? (identifierKey identifier)).isNone
  if fresh = [] then s
  else
    let (s,placeholders) := s.ensurePlaceholders fresh
    { s with
      requests := s.requests ++ [{ identifiers := fresh,stage := .preparing placeholders }]
      inFlightByIdentifier := fresh.foldl (fun inFlight identifier => inFlight.set (identifierKey identifier) s.requests.length)
        s.inFlightByIdentifier }

/-- The request goes on when its placeholders are settled: it reserves the versions and asks the client. -/
def prepared (s : Coordination) (i : Nat) : Coordination :=
  match s.requests[i]? with
  | some ⟨identifiers,_,.preparing placeholders⟩ =>
    match s.allSettled placeholders with
    | none => s
    | some false => s.setRequest i fun r => { r with stage := .settled none }
    | some true =>
      let (versions,objects) := s.objects.reserveArtifactVersions identifiers
      { s with objects }.setRequest i fun r => { r with versions,stage := .asking }
  | _ => s

def applyNext (s : Coordination) (i : Nat) (versions : OrderedMap String Nat) (outcome : BlockingResult)
    (artifacts rest : List MissingArtifactPayload) : Coordination :=
  let (objects,rest) := Objects.applyArtifacts versions rest s.objects
  { s with objects }.setRequest i fun r => { r with stage := .applying outcome artifacts rest }

def answered (s : Coordination) (i : Nat) (outcome : Option BlockingResult) : Coordination :=
  match s.requests[i]? with
  | some ⟨_,versions,.asking⟩ =>
    match outcome with
    | some (.resolved (some artifacts) opened) =>
      s.applyNext i versions (.resolved (some artifacts) opened) artifacts artifacts
    | outcome => s.setRequest i fun r => { r with stage := .settled outcome }
  | _ => s

def artifactAdded (s : Coordination) (i : Nat) : Coordination :=
  match s.requests[i]? with
  | some ⟨_,versions,.applying outcome artifacts (some rest)⟩ => s.applyNext i versions outcome artifacts rest
  | some ⟨_,_,.applying outcome _ none⟩ => s.setRequest i fun r => { r with stage := .settled (some outcome) }
  | _ => s

/-- The callbacks of a request, one right after the other: the outcome is noted, and the keys are in flight no more. -/
def requestLeaves (s : Coordination) (i : Nat) (now : Nat) : Coordination :=
  match s.requests[i]? with
  | some ⟨identifiers,_,.settled outcome⟩ =>
    let keys := identifiers.map identifierKey
    let notFoundUntilByIdentifier := match outcome with
      | some .notFound => keys.foldl (fun m key => m.set key (now + notFoundTtlMs)) s.notFoundUntilByIdentifier
      | some (.resolved _ _) => keys.foldl (fun m key => m.erase key) s.notFoundUntilByIdentifier
      | _ => s.notFoundUntilByIdentifier
    let inFlightByIdentifier := keys.foldl (fun m key => if m.get? key = some i then m.erase key else m) s.inFlightByIdentifier
    { s with notFoundUntilByIdentifier,inFlightByIdentifier }.setRequest i fun r => { r with stage := .done outcome }
  | _ => s

def applyArtifacts (s : Coordination) (artifacts : List MissingArtifactPayload) (versions : OrderedMap String Nat) :
    Coordination :=
  let (objects,rest) := Objects.applyArtifacts versions artifacts s.objects
  { s with objects,applications := s.applications ++ [⟨versions,rest⟩] }

def applicationGoesOn (s : Coordination) (i : Nat) : Coordination :=
  match s.applications[i]? with
  | some ⟨versions,some artifacts⟩ =>
    let (objects,rest) := Objects.applyArtifacts versions artifacts s.objects
    { s with objects,applications := s.applications.modify i fun a => { a with rest } }
  | _ => s

def prepareBackground (s : Coordination) (sObjects : List IdentifierSpec) : Coordination × BackgroundStage :=
  if sObjects = [] then (s,.over_)
  else
    let (s,placeholders) := s.ensurePlaceholders sObjects
    (s,.preparing placeholders)

def resolveInBackground (s : Coordination) (identifiers : List IdentifierSpec) : Coordination :=
  let sObjects := (normalizeParams identifiers).filter isSObject
  if (normalizeParams identifiers).any (!isSObject ·) then
    { s with backgrounds := s.backgrounds ++ [⟨sObjects,.forwarding⟩] }
  else
    let (s,stage) := s.prepareBackground sObjects
    { s with backgrounds := s.backgrounds ++ [⟨sObjects,stage⟩] }

def forwarded (s : Coordination) (i : Nat) (succeeded : Bool) : Coordination :=
  match s.backgrounds[i]? with
  | some ⟨sObjects,.forwarding⟩ =>
    let (s,stage) := if succeeded then s.prepareBackground sObjects else (s,.over_)
    { s with backgrounds := s.backgrounds.modify i fun b => { b with stage } }
  | _ => s

/-- The placeholders of the call are settled, and its request begins. -/
def backgroundPrepared (s : Coordination) (i : Nat) (now : Nat) : Coordination :=
  match s.backgrounds[i]? with
  | some ⟨sObjects,.preparing placeholders⟩ =>
    match s.allSettled placeholders with
    | none => s
    | some succeeded =>
      let s := { s with backgrounds := s.backgrounds.modify i fun b => { b with stage := .over_ } }
      if succeeded then s.resolveBlocking sObjects now else s
  | _ => s

end

end Coordination

inductive Event where
  | resolveBlocking (identifiers : List IdentifierSpec) (now : Nat)
  | resolveInBackground (identifiers : List IdentifierSpec)
  | applyArtifacts (artifacts : List MissingArtifactPayload) (versions : OrderedMap String Nat)
  | lookedUp (placeholder : Nat)
  | placeholderAdded (placeholder : Nat)
  | placeholderLeaves (placeholder : Nat)
  | prepared (request : Nat)
  | answered (request : Nat) (outcome : Option BlockingResult)
  | artifactAdded (request : Nat)
  | requestLeaves (request : Nat) (now : Nat)
  | applicationGoesOn (application : Nat)
  | forwarded (background : Nat) (succeeded : Bool)
  | backgroundPrepared (background : Nat) (now : Nat)

def Coordination.step [Runtime] (s : Coordination) : Event → Coordination
  | .resolveBlocking identifiers now => s.resolveBlocking identifiers now
  | .resolveInBackground identifiers => s.resolveInBackground identifiers
  | .applyArtifacts artifacts versions => s.applyArtifacts artifacts versions
  | .lookedUp placeholder => s.lookedUp placeholder
  | .placeholderAdded placeholder => s.placeholderAdded placeholder
  | .placeholderLeaves placeholder => s.placeholderLeaves placeholder
  | .prepared request => s.prepared request
  | .answered request outcome => s.answered request outcome
  | .artifactAdded request => s.artifactAdded request
  | .requestLeaves request now => s.requestLeaves request now
  | .applicationGoesOn application => s.applicationGoesOn application
  | .forwarded background succeeded => s.forwarded background succeeded
  | .backgroundPrepared background now => s.backgroundPrepared background now

end ApexLs.Services.SObjects
