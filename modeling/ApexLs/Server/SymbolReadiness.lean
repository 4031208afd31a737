import ApexLs.Services.DocumentStateCache
import ApexLs.Symbols.Registrations
import ApexLs.Symbols.SymbolManager

/-! The data owner's handlers around one document: what stores it, what commits a table compiled
from it, and the latch that tells a request whether the symbols of the file are current. -/
namespace ApexLs.Server

open ApexLs.Collections ApexLs.Utils ApexLs.Types ApexLs.Symbols ApexLs.Services

/-- A document version is not negative: `-1` is the version of what was never merged, and below
zero a request asks for whatever version is armed. -/
structure WorkerDocument where
  uri : String
  languageId : String := "apex"
  version : Nat
  text : String
  deriving DecidableEq, Repr

structure ReadinessLatch where
  version : Nat
  deferred : Nat
  settled : Bool := false
  deriving DecidableEq, Repr

/-- What a compilation hands to its commit: the submitted text, the table of that text and the
number of parser diagnostics. -/
structure Compilation where
  uri : String
  version : Nat
  content : String
  symbolTable : SymbolTable
  parserDiagnostics : Nat := 0

/-- The request of `UpdateSymbolSubset`. The text its table was compiled from does not come with it. -/
structure SymbolUpdate where
  uri : String
  documentVersion : Nat
  content : String
  enrichedSymbolTable : SymbolTable
  enrichedDetailLevel : DetailLevel

inductive ReadinessPeek where
  | ready
  | noLatch
  | staleVersion
  | await (deferred : Nat)
  deriving DecidableEq, Repr

/-- The data owner. Deferreds and the tables read off the wire are numbered; `closing` lists the
closes whose cached state is still to be dropped, which happens outside the serial runner. -/
structure DataOwner [Runtime] where
  storage : OrderedMap String WorkerDocument := .empty
  symbolManager : SymbolManager
  documentStateCache : DocumentStateCache Unit Unit Unit := {}
  readinessLatches : OrderedMap String ReadinessLatch := .empty
  deferreds : Nat := 0
  succeeded : List Nat := []
  reconstructed : Nat := 0
  closing : List String := []

inductive OwnerCommand where
  | dispatchDocumentOpen (uri languageId : String) (version : Nat) (content : String)
  | dispatchDocumentChange (uri : String) (version : Nat) (content : String)
  | dispatchDocumentSave (uri : String) (version : Nat) (content : String)
  | dispatchDocumentClose (uri : String)
  | closeFinishes (uri : String)
  | workspaceBatchIngest (entries : List WorkerDocument)
  | compileDocument (compiled : Compilation) (now : Nat)
  | workspaceBatchCompile (compiled : Compilation) (now : Nat)
  | compilationFailed (uri : String) (version : Nat)
  | updateSymbolSubset (update : SymbolUpdate) (now : Nat)

def getLayerOrderIndex : DetailLevel → Nat
  | .publicApi => 1
  | .protected_ => 2
  | .private_ => 3
  | .full => 4

def getSymbolTableForFile [Runtime] (m : SymbolManager) (fileUri : String) : Option TableRef :=
  m.graph.registered (extractFilePathFromUri (createFileUri fileUri))

namespace DataOwner

variable [Runtime]

def succeed (o : DataOwner) (deferred : Nat) : DataOwner := { o with succeeded := deferred :: o.succeeded }

def makeLatch (o : DataOwner) (uri : String) (version : Nat) : DataOwner :=
  { o with
    readinessLatches := o.readinessLatches.set uri { version := version,deferred := o.deferreds }
    deferreds := o.deferreds + 1 }

def armReadiness (o : DataOwner) (uri : String) (version : Nat) : DataOwner :=
  match o.readinessLatches.get? uri with
  | some existing =>
    if existing.version = version then o
    else (if existing.settled then o else o.succeed existing.deferred).makeLatch uri version
  | none => o.makeLatch uri version

def resolveReadiness (o : DataOwner) (uri : String) (version : Nat) : DataOwner :=
  match o.readinessLatches.get? uri with
  | some latch =>
    if latch.version = version ∧ latch.settled = false then
      { o with readinessLatches := o.readinessLatches.set uri { latch with settled := true } }.succeed latch.deferred
    else o
  | none => o

def clearReadiness (o : DataOwner) (uri : String) : DataOwner :=
  let released := match o.readinessLatches.get? uri with
    | some latch => if latch.settled then o else o.succeed latch.deferred
    | none => o
  { released with readinessLatches := released.readinessLatches.erase uri }

/-- The version merged last, `-1` where none is cached. -/
def mergedVersion (o : DataOwner) (uri : String) : Int :=
  ((o.documentStateCache.getCurrentState uri).map DocumentState.documentVersion).getD (-1)

def symbolsAreCurrent (o : DataOwner) (uri : String) (reqVersion : Int) (hasSymbols : Bool) : Bool :=
  if hasSymbols = false then false
  else match o.readinessLatches.get? uri with
    | none => true
    | some latch =>
      let requiredVersion := if reqVersion < 0 then (latch.version : Int) else max reqVersion latch.version
      requiredVersion ≤ o.mergedVersion uri

def hasSymbols (o : DataOwner) (uri : String) : Bool := (getSymbolTableForFile o.symbolManager uri).isSome

def peekReadiness (o : DataOwner) (uri : String) (version : Int) : ReadinessPeek :=
  if o.symbolsAreCurrent uri version (o.hasSymbols uri) then .ready
  else match o.readinessLatches.get? uri with
    | none => .noLatch
    | some latch => if 0 ≤ version ∧ version < latch.version then .staleVersion else .await latch.deferred

/-- The second look of `AwaitSymbolReadiness`, after its deferred was succeeded. -/
def peekAgain (o : DataOwner) (uri : String) (version : Int) : Bool :=
  o.symbolsAreCurrent uri version (o.hasSymbols uri)

def setDocument (o : DataOwner) (doc : WorkerDocument) : DataOwner :=
  { o with storage := o.storage.set doc.uri doc }

def storeAndArm (o : DataOwner) (doc : WorkerDocument) : DataOwner :=
  (o.setDocument doc).armReadiness doc.uri doc.version

def dispatchDocumentOpen (o : DataOwner) (uri languageId : String) (version : Nat) (content : String) : DataOwner :=
  o.storeAndArm { uri := uri,languageId := languageId,version := version,text := content }

def dispatchDocumentChange (o : DataOwner) (uri : String) (version : Nat) (content : String) : DataOwner :=
  o.storeAndArm { uri := uri,languageId := "apex",version := version,text := content }

def dispatchDocumentSave (o : DataOwner) (uri : String) (version : Nat) (content : String) : DataOwner :=
  o.storeAndArm { uri := uri,languageId := "apex",version := version,text := content }

/-- The close takes the document out of the storage before its first suspension and goes on
outside the runner. Symbols stay. -/
def dispatchDocumentClose (o : DataOwner) (uri : String) : DataOwner :=
  { o with
    storage := o.storage.erase uri
    closing := uri :: o.closing }.clearReadiness uri

def closeFinishes (o : DataOwner) (uri : String) : DataOwner :=
  if uri ∈ o.closing then
    { o with
      documentStateCache := o.documentStateCache.invalidate uri
      closing := o.closing.erase uri }
  else o

def workspaceBatchIngest (o : DataOwner) (entries : List WorkerDocument) : DataOwner := entries.foldl setDocument o

def reconstruct (o : DataOwner) (symbolTable : SymbolTable) : SymbolManager :=
  { o.symbolManager with graph := o.symbolManager.graph.setTable (.parsed o.reconstructed) symbolTable }

/-- The arguments of `addSymbolTable` for the table that comes off the wire next. -/
def tableCall (o : DataOwner) (uri : String) (version : Nat) (hasErrors : Bool) : TableCall where
  symbolTable := .parsed o.reconstructed
  fileUri := uri
  documentVersion := some version
  hasErrors := some hasErrors

def addSymbolTable (o : DataOwner) (uri : String) (version : Nat) (symbolTable : SymbolTable) (hasErrors : Bool) : DataOwner :=
  { o with
    symbolManager := (o.reconstruct symbolTable).addSymbolTable (o.tableCall uri version hasErrors)
    reconstructed := o.reconstructed + 1 }

def mergeState (o : DataOwner) (uri : String) (version : Nat) (level : DetailLevel) (now : Nat) : DataOwner :=
  let newData : PartialState Unit Unit Unit :=
    { documentVersion := version,detailLevel := some (some level),timestamp := some now }
  { o with documentStateCache := o.documentStateCache.merge uri newData now }

def commit (o : DataOwner) (compiled : Compilation) (now : Nat) : Bool × DataOwner :=
  match o.storage.get? compiled.uri with
  | none => (false,o.resolveReadiness compiled.uri compiled.version)
  | some currentDocument =>
    if currentDocument.version ≠ compiled.version then (false,o.resolveReadiness compiled.uri compiled.version)
    else
      (true,((o.addSymbolTable compiled.uri compiled.version compiled.symbolTable (0 < compiled.parserDiagnostics)).mergeState
        compiled.uri compiled.version .publicApi now).resolveReadiness compiled.uri compiled.version)

/-- `compiledCount` of `CompileDocument` and the owner after its commit. -/
def compileDocument (o : DataOwner) (compiled : Compilation) (now : Nat) : Nat × DataOwner :=
  let (accepted,o) := o.commit compiled now
  (if accepted then 1 else 0,o)

/-- Whether the commit of `WorkspaceBatchCompileOnDataOwner` answers `compiled`. -/
def workspaceBatchCompile (o : DataOwner) (compiled : Compilation) (now : Nat) : Bool × DataOwner :=
  o.commit compiled now

/-- The write-back would not raise the level recorded for this version or a newer one. -/
def alreadyCurrentOrRicher (o : DataOwner) (update : SymbolUpdate) : Bool :=
  let currentState := o.documentStateCache.getCurrentState update.uri
  let currentOrder := ((currentState.bind DocumentState.detailLevel).map getLayerOrderIndex).getD 0
  update.documentVersion ≤ o.mergedVersion update.uri && getLayerOrderIndex update.enrichedDetailLevel ≤ currentOrder

/-- `accepted` of `UpdateSymbolSubset` and the owner after it. -/
def updateSymbolSubset (o : DataOwner) (update : SymbolUpdate) (now : Nat) : Bool × DataOwner :=
  match o.storage.get? update.uri with
  | none => (false,o.resolveReadiness update.uri update.documentVersion)
  | some currentDoc =>
    if currentDoc.version ≠ update.documentVersion then (false,o.resolveReadiness update.uri update.documentVersion)
    else if o.alreadyCurrentOrRicher update then (false,o.resolveReadiness update.uri update.documentVersion)
    else
      (true,((o.addSymbolTable update.uri update.documentVersion update.enrichedSymbolTable false).mergeState
        update.uri update.documentVersion update.enrichedDetailLevel now).resolveReadiness update.uri
          update.documentVersion)

def step (o : DataOwner) : OwnerCommand → DataOwner
  | .dispatchDocumentOpen uri languageId version content => o.dispatchDocumentOpen uri languageId version content
  | .dispatchDocumentChange uri version content => o.dispatchDocumentChange uri version content
  | .dispatchDocumentSave uri version content => o.dispatchDocumentSave uri version content
  | .dispatchDocumentClose uri => o.dispatchDocumentClose uri
  | .closeFinishes uri => o.closeFinishes uri
  | .workspaceBatchIngest entries => o.workspaceBatchIngest entries
  | .compileDocument compiled now => (o.compileDocument compiled now).2
  | .workspaceBatchCompile compiled now => (o.workspaceBatchCompile compiled now).2
  | .compilationFailed uri version => o.resolveReadiness uri version
  | .updateSymbolSubset update now => (o.updateSymbolSubset update now).2

def accepts (o : DataOwner) : OwnerCommand → Bool
  | .compileDocument compiled now => (o.compileDocument compiled now).1 = 1
  | .workspaceBatchCompile compiled now => (o.workspaceBatchCompile compiled now).1
  | .updateSymbolSubset update now => (o.updateSymbolSubset update now).1
  | _ => false

def armed (o : DataOwner) (uri : String) : Option Nat := (o.readinessLatches.get? uri).map ReadinessLatch.version

def isCurrent (o : DataOwner) (uri : String) : Bool :=
  (o.armed uri).all (fun version : Nat => (version : Int) ≤ o.mergedVersion uri)

theorem isCurrent_iff {o : DataOwner} {uri : String} :
    o.isCurrent uri = true ↔ ∀ version, o.armed uri = some version → (version : Int) ≤ o.mergedVersion uri := by
  cases found : o.armed uri with
  | none => simp [isCurrent,found]
  | some version => simp [isCurrent,found]

/-- Some request would be told that the symbols are ready, exactly when there are symbols and no
latch is armed above what was merged. -/
theorem ready_iff {o : DataOwner} {uri : String} :
    (∃ version, o.peekReadiness uri version = .ready ∨ o.peekAgain uri version = true) ↔
      o.hasSymbols uri = true ∧ o.isCurrent uri = true := by
  have peek : ∀ version, o.peekReadiness uri version = .ready ↔ o.peekAgain uri version = true := by
    intro version
    simp only [peekReadiness,peekAgain]
    split
    next current => simp [current]
    next stale =>
      simp only [stale]
      cases o.readinessLatches.get? uri with
      | none => simp
      | some latch =>
        simp only
        split
        next => simp
        next => simp
  simp only [peek,or_self,peekAgain,symbolsAreCurrent,isCurrent,armed]
  cases o.hasSymbols uri with
  | false => simp
  | true =>
    cases o.readinessLatches.get? uri with
    | none => simp
    | some latch =>
      simp only [Bool.true_eq_false,if_false,true_and,Option.map_some,Option.all_some,decide_eq_true_eq]
      constructor
      · rintro ⟨version,reached⟩
        split at reached
        next => exact reached
        next => exact (le_max_right _ _).trans reached
      · intro reached
        exact ⟨-1,by simpa using reached⟩

/-- The owner's documents, tables, cached states and armed versions are those of another. -/
structure SameRecords (o o' : DataOwner) : Prop where
  storage : o'.storage = o.storage
  symbolManager : o'.symbolManager = o.symbolManager
  documentStateCache : o'.documentStateCache = o.documentStateCache
  reconstructed : o'.reconstructed = o.reconstructed
  armed : ∀ uri, o'.armed uri = o.armed uri

theorem SameRecords.refl (o : DataOwner) : SameRecords o o := ⟨rfl,rfl,rfl,rfl,fun _ => rfl⟩

theorem resolveReadiness_sameRecords (o : DataOwner) (uri : String) (version : Nat) :
    SameRecords o (o.resolveReadiness uri version) := by
  unfold resolveReadiness
  cases found : o.readinessLatches.get? uri with
  | none => exact .refl o
  | some latch =>
    simp only
    split
    next =>
      refine ⟨rfl,rfl,rfl,rfl,fun other => ?_⟩
      simp only [DataOwner.armed,succeed,OrderedMap.get?_set]
      split
      next same => simp [same,found]
      next => rfl
    next => exact .refl o

structure SameSymbolState (o o' : DataOwner) : Prop where
  symbolManager : o'.symbolManager = o.symbolManager
  documentStateCache : o'.documentStateCache = o.documentStateCache
  reconstructed : o'.reconstructed = o.reconstructed

theorem SameSymbolState.mergedVersion {o o' : DataOwner} (same : SameSymbolState o o') (uri : String) :
    o'.mergedVersion uri = o.mergedVersion uri := by
  simp only [DataOwner.mergedVersion,same.documentStateCache]

theorem makeLatch_armed (o : DataOwner) (uri : String) (version : Nat) (other : String) :
    (o.makeLatch uri version).armed other = if other = uri then some version else o.armed other := by
  simp only [armed,makeLatch,OrderedMap.get?_set]
  split
  next => rfl
  next => rfl

theorem armReadiness_spec (o : DataOwner) (uri : String) (version : Nat) :
    (o.armReadiness uri version).storage = o.storage ∧ SameSymbolState o (o.armReadiness uri version) ∧
      ∀ other, (o.armReadiness uri version).armed other = if other = uri then some version else o.armed other := by
  unfold armReadiness
  cases found : o.readinessLatches.get? uri with
  | none => exact ⟨rfl,⟨rfl,rfl,rfl⟩,makeLatch_armed o uri version⟩
  | some existing =>
    simp only
    split
    next same =>
      refine ⟨rfl,⟨rfl,rfl,rfl⟩,fun other => ?_⟩
      split
      next here => simp [armed,here,found,same]
      next => rfl
    next =>
      split
      next => exact ⟨rfl,⟨rfl,rfl,rfl⟩,makeLatch_armed o uri version⟩
      next => exact ⟨rfl,⟨rfl,rfl,rfl⟩,makeLatch_armed (o.succeed existing.deferred) uri version⟩

theorem storeAndArm_spec (o : DataOwner) (doc : WorkerDocument) :
    (o.storeAndArm doc).storage = o.storage.set doc.uri doc ∧ SameSymbolState o (o.storeAndArm doc) ∧
      ∀ other, (o.storeAndArm doc).armed other = if other = doc.uri then some doc.version else o.armed other := by
  obtain ⟨storage,same,armed⟩ := armReadiness_spec (o.setDocument doc) doc.uri doc.version
  exact ⟨storage,⟨same.symbolManager,same.documentStateCache,same.reconstructed⟩,armed⟩

theorem dispatchDocumentClose_spec (o : DataOwner) (uri : String) :
    (o.dispatchDocumentClose uri).storage = o.storage.erase uri ∧ SameSymbolState o (o.dispatchDocumentClose uri) ∧
      ∀ other, other ≠ uri → (o.dispatchDocumentClose uri).armed other = o.armed other := by
  simp only [dispatchDocumentClose,clearReadiness]
  split
  next =>
    split
    next => exact ⟨rfl,⟨rfl,rfl,rfl⟩,fun other apart => by simp [armed,apart]⟩
    next => exact ⟨rfl,⟨rfl,rfl,rfl⟩,fun other apart => by simp [armed,succeed,apart]⟩
  next => exact ⟨rfl,⟨rfl,rfl,rfl⟩,fun other apart => by simp [armed,apart]⟩

theorem workspaceBatchIngest_spec (o : DataOwner) (entries : List WorkerDocument) :
    SameSymbolState o (o.workspaceBatchIngest entries) ∧
      (o.workspaceBatchIngest entries).readinessLatches = o.readinessLatches ∧
      ∀ uri, (o.workspaceBatchIngest entries).storage.get? uri =
        (entries.reverse.find? (fun entry => entry.uri = uri)).or (o.storage.get? uri) := by
  induction entries generalizing o with
  | nil => exact ⟨⟨rfl,rfl,rfl⟩,rfl,fun uri => by simp [workspaceBatchIngest]⟩
  | cons entry rest ih =>
    obtain ⟨same,latches,storage⟩ := ih (o.setDocument entry)
    refine ⟨⟨same.symbolManager,same.documentStateCache,same.reconstructed⟩,latches,fun uri => ?_⟩
    refine (storage uri).trans ?_
    rw [List.reverse_cons,List.find?_append]
    simp only [setDocument,OrderedMap.get?_set,List.find?_cons,List.find?_nil]
    by_cases here : entry.uri = uri
    · simp [here]
    · simp [here,Ne.symm here]

theorem closeFinishes_spec (o : DataOwner) (uri : String) :
    (o.closeFinishes uri).storage = o.storage ∧ (o.closeFinishes uri).symbolManager = o.symbolManager ∧
      (o.closeFinishes uri).reconstructed = o.reconstructed ∧
      ∀ other, (o.closeFinishes uri).isCurrent other = true → o.isCurrent other = true := by
  unfold closeFinishes
  split
  next =>
    refine ⟨rfl,rfl,rfl,fun other current => ?_⟩
    rw [isCurrent_iff] at current ⊢
    intro version latched
    have reached := current version latched
    simp only [mergedVersion,DocumentStateCache.getCurrentState,DocumentStateCache.invalidate,OrderedMap.get?_erase] at reached
    split at reached
    next =>
      simp only [Option.map_none,Option.getD_none] at reached
      omega
    next => exact reached
  next => exact ⟨rfl,rfl,rfl,fun _ => id⟩

theorem mergeState_isCurrent {o : DataOwner} {uri other : String} {version : Nat} {level : DetailLevel} {now : Nat}
    (apart : other ≠ uri) (current : (o.mergeState uri version level now).isCurrent other = true) :
    o.isCurrent other = true := by
  have held : ∀ e, (o.mergeState uri version level now).documentStateCache.getCurrentState other = some e →
      o.documentStateCache.getCurrentState other = some e := by
    intro e
    simp only [mergeState,DocumentStateCache.merge,DocumentStateCache.getCurrentState]
    split
    next => simp [apart]
    next =>
      intro found
      rcases CacheHistory.get?_set found with ⟨same,_⟩ | before
      · exact absurd same apart
      · exact before
  rw [isCurrent_iff] at current ⊢
  intro version' latched
  have reached := current version' latched
  unfold mergedVersion at reached ⊢
  cases found : (o.mergeState uri version level now).documentStateCache.getCurrentState other with
  | none =>
    simp only [found,Option.map_none,Option.getD_none] at reached
    omega
  | some e =>
    rw [held e found]
    rwa [found] at reached

structure Records (o o' : DataOwner) (uri : String) (version : Nat) (level : DetailLevel) (now : Nat) (t : SymbolTable)
    (hasErrors : Bool) : Prop where
  storage : o'.storage = o.storage
  symbolManager : o'.symbolManager = (o.addSymbolTable uri version t hasErrors).symbolManager
  documentStateCache : o'.documentStateCache = (o.mergeState uri version level now).documentStateCache
  reconstructed : o'.reconstructed = o.reconstructed + 1
  armed : ∀ uri, o'.armed uri = o.armed uri

theorem records (o : DataOwner) (uri : String) (version : Nat) (level : DetailLevel) (now : Nat) (t : SymbolTable)
    (hasErrors : Bool) :
    Records o (((o.addSymbolTable uri version t hasErrors).mergeState uri version level now).resolveReadiness uri version)
      uri version level now t hasErrors := by
  obtain ⟨storage,manager,cache,reconstructed,armed⟩ := resolveReadiness_sameRecords
    ((o.addSymbolTable uri version t hasErrors).mergeState uri version level now) uri version
  exact ⟨storage,manager,cache,reconstructed,armed⟩

theorem commit_cases (o : DataOwner) (compiled : Compilation) (now : Nat) :
    ((o.commit compiled now).1 = false ∧ (∀ doc, o.storage.get? compiled.uri = some doc → doc.version ≠ compiled.version) ∧
      SameRecords o (o.commit compiled now).2) ∨
    ∃ doc, o.storage.get? compiled.uri = some doc ∧ doc.version = compiled.version ∧ (o.commit compiled now).1 = true ∧
      Records o (o.commit compiled now).2 compiled.uri compiled.version .publicApi now compiled.symbolTable
        (0 < compiled.parserDiagnostics) := by
  unfold commit
  cases stored : o.storage.get? compiled.uri with
  | none => exact .inl ⟨rfl,by simp,resolveReadiness_sameRecords ..⟩
  | some doc =>
    simp only
    split
    next other => exact .inl ⟨rfl,by simpa using other,resolveReadiness_sameRecords ..⟩
    next same => exact .inr ⟨doc,rfl,by simpa using same,rfl,records ..⟩

theorem updateSymbolSubset_cases (o : DataOwner) (update : SymbolUpdate) (now : Nat) :
    ((o.updateSymbolSubset update now).1 = false ∧
      ((∀ doc, o.storage.get? update.uri = some doc → doc.version ≠ update.documentVersion) ∨
        o.alreadyCurrentOrRicher update = true) ∧
      SameRecords o (o.updateSymbolSubset update now).2) ∨
    ∃ doc, o.storage.get? update.uri = some doc ∧ doc.version = update.documentVersion ∧
      o.alreadyCurrentOrRicher update = false ∧ (o.updateSymbolSubset update now).1 = true ∧
      Records o (o.updateSymbolSubset update now).2 update.uri update.documentVersion update.enrichedDetailLevel now
        update.enrichedSymbolTable false := by
  unfold updateSymbolSubset
  cases stored : o.storage.get? update.uri with
  | none => exact .inl ⟨rfl,.inl (by simp),resolveReadiness_sameRecords ..⟩
  | some doc =>
    simp only
    split
    next other => exact .inl ⟨rfl,.inl (by simpa using other),resolveReadiness_sameRecords ..⟩
    next same =>
      split
      next richer => exact .inl ⟨rfl,.inr richer,resolveReadiness_sameRecords ..⟩
      next poorer => exact .inr ⟨doc,rfl,by simpa using same,by simpa using poorer,rfl,records ..⟩

end DataOwner
end ApexLs.Server
