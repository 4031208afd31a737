import ApexLs.Symbols.SymbolGraph

/-! Issuing a reference and resolving the ones that had to wait. A reference whose ends are
both in the graph becomes an edge at once; any other is deferred under the name of its
target until a drain finds both. -/
namespace ApexLs.Symbols

open ApexLs.Utils ApexLs.Types ApexLs.Collections

def enclosesBlocks (kind : SymbolKind) : Bool :=
  kind = .method || kind = .class_ || kind = .interface || kind = .enum || kind = .trigger

/-- The walk of `findContainingSymbolForBlock`. It goes up one listed id at a time and stops at
one it has seen, so as many steps as there are symbols are enough. -/
def containingSymbol (heap : Heap) (allSymbols : List Ref) : Nat → List String → ParentId → Option Ref
  | steps + 1,visited,.of currentId =>
    if currentId = "" ∨ currentId ∈ visited then none
    else
      (allSymbols.find? (fun s => (heap s).id = currentId)).bind fun parentSymbol =>
        if enclosesBlocks (heap parentSymbol).kind then some parentSymbol
        else if (heap parentSymbol).isBlockSymbol then
          containingSymbol heap allSymbols steps (currentId :: visited) (heap parentSymbol).parentId
        else none
  | _,_,_ => none

inductive BatchReason where
  | success | target_not_found | partial_processing
  deriving DecidableEq, Repr, Inhabited

structure BatchProcessingResult where
  needsRetry : Bool
  reason : BatchReason
  remainingCount : Option Nat := none
  deriving DecidableEq, Repr, Inhabited

inductive Outcome where
  | dropped | waiting | placed
  deriving DecidableEq, Repr

namespace SymbolGraph

variable [Runtime]

def findContainingSymbolForBlock (g : SymbolGraph) (blockSymbol : Ref) (fileUri : String) : Option Ref :=
  if (g.heap blockSymbol).isBlockSymbol then
    (g.fileToSymbolTable.get (extractFilePathFromUri fileUri)).bind fun t =>
      let allSymbols := (g.table t).getAllSymbols
      containingSymbol g.heap allSymbols (allSymbols.length + 1) [] (g.heap blockSymbol).parentId
  else none

/-- The symbol in the graph that stands for a given one: by its id and file, else the first
declaration of its name in its file. -/
def findInGraph (g : SymbolGraph) (symbol : ApexSymbol) : Option Ref × SymbolGraph :=
  match g.getSymbolByIdAndFile symbol.id symbol.fileUri with
  | (some s,g) => (some s,g)
  | (none,g) => g.findSymbolInFileByName symbol.fileUri symbol.name

/-- `createAndAddReference` between two symbols of the graph, counted when it is new. -/
def addEdge (g : SymbolGraph) (source target : Ref) (referenceType : ReferenceType) (location : SymbolLocation)
    (context : Option ReferenceContext) : SymbolGraph :=
  let sourceInGraph := g.heap source
  let targetInGraph := g.heap target
  let (added,refs) := g.refs.createAndAddReference
    sourceInGraph.fileUri (getSymbolId sourceInGraph sourceInGraph.fileUri)
    targetInGraph.fileUri (getSymbolId targetInGraph targetInGraph.fileUri) referenceType location context
  { g with refs := refs,totalEdges := if added then g.totalEdges + 1 else g.totalEdges }

def addDeferredReference (g : SymbolGraph) (targetSymbolName : String) (deferred : DeferredReference) : SymbolGraph :=
  if (g.heap deferred.sourceSymbol).fileUri = "" then g
  else
    let existing := (g.deferredReferences.get targetSymbolName).getD []
    { g with deferredReferences := g.deferredReferences.set targetSymbolName (existing ++ [deferred]) }

/-- `addReferenceToGraph`: the edge to a scalar keyword. Its source is found by name. -/
def addReferenceToGraph (g : SymbolGraph) (source target : Ref) (targetSymbolId : String)
    (referenceType : ReferenceType) (location : SymbolLocation) (context : Option ReferenceContext) :
    SymbolGraph :=
  if (g.heap source).isBlockSymbol ∨ (g.heap target).isBlockSymbol ∨ (g.heap source).fileUri = "" then g
  else
    match g.findSymbolInFileByName (extractFilePathFromUri (g.heap source).fileUri) (g.heap source).name with
    | (none,g) => g
    | (some sourceInGraph,g) =>
      let s := g.heap sourceInGraph
      let entry : RefStoreEntry :=
        { sourceFileUri := s.fileUri
          sourceSymbolId := getSymbolId s s.fileUri
          targetFileUri := (g.heap target).fileUri
          targetSymbolId := targetSymbolId
          referenceType := referenceType
          location := location
          context := context }
      { g with refs := (g.refs.addReferenceToIndexes entry).2 }

/-- The symbol the graph makes for `void` or `null`. -/
def addVirtualSymbol (g : SymbolGraph) (target : Ref) (virtualSymbolId : String) : SymbolGraph :=
  let virtualSymbol := { g.heap target with id := virtualSymbolId }
  let fqn := orElse virtualSymbol.fqn ""
  { g with
    heap := g.heap.put (.scalar virtualSymbolId) virtualSymbol
    symbolIdIndex := g.symbolIdIndex.set virtualSymbolId (.scalar virtualSymbolId)
    symbolFileMap := g.symbolFileMap.set virtualSymbolId virtualSymbol.fileUri
    symbolQualifiedIndex := g.symbolQualifiedIndex.set
      (makeQualifiedSymbolKey virtualSymbol.fileUri virtualSymbolId) (.scalar virtualSymbolId)
    nameIndex := pushId g.nameIndex virtualSymbol.name virtualSymbolId
    fqnIndex := if fqn ≠ "" then pushId g.fqnIndex fqn virtualSymbolId else g.fqnIndex
    totalSymbols := g.totalSymbols + 1 }

def createVirtualSymbolForStdlibScalarKeyword (g : SymbolGraph) (target source : Ref)
    (referenceType : ReferenceType) (location : SymbolLocation) (context : Option ReferenceContext) : SymbolGraph :=
  let virtualSymbolId := generateSymbolId (g.heap target).name (g.heap target).fileUri
  let g := if g.symbolIdIndex.has virtualSymbolId then g else g.addVirtualSymbol target virtualSymbolId
  g.addReferenceToGraph source target virtualSymbolId referenceType location context

def isStdlibScalarKeyword (target : ApexSymbol) : Bool :=
  "apexlib://".toList.isPrefixOf target.fileUri.toList && (target.name = "void" || target.name = "null")

/-- `targetSymbol.fileUri ? extractFilePathFromUri(targetSymbol.fileUri) : undefined` -/
def targetHint (target : ApexSymbol) : Option String :=
  if target.fileUri = "" then none else some (extractFilePathFromUri target.fileUri)

/-- The source a reference is issued for: the declaration around it when it is a block. -/
def declaringSource (g : SymbolGraph) (source : Ref) : Option Ref :=
  if (g.heap source).isBlockSymbol then g.findContainingSymbolForBlock source (g.heap source).fileUri
  else some source

/-- `sourceSymbol.fileUri = extractFilePathFromUri(sourceSymbol.fileUri)` -/
def normalizeSource (g : SymbolGraph) (source : Ref) : SymbolGraph :=
  let normalized := { g.heap source with fileUri := extractFilePathFromUri (g.heap source).fileUri }
  { g with heap := g.heap.put source normalized }

def findTarget (g : SymbolGraph) (target : ApexSymbol) : Option Ref × SymbolGraph :=
  if target.fileUri = "" then (none,g) else g.findInGraph target

def issueReference (g : SymbolGraph) (source target : Ref) (referenceType : ReferenceType)
    (location : SymbolLocation) (context : Option ReferenceContext) : SymbolGraph :=
  let (sourceInGraph,g) := g.findInGraph (g.heap source)
  let (targetInGraph,g) := g.findTarget (g.heap target)
  match sourceInGraph,targetInGraph with
  | some s,some t => g.addEdge s t referenceType location context
  | _,_ =>
    let g := g.addDeferredReference (g.heap target).name
      { sourceSymbol := source
        referenceType := referenceType
        location := location
        targetFileUri := targetHint (g.heap target)
        context := context }
    if isStdlibScalarKeyword (g.heap target) then
      g.createVirtualSymbolForStdlibScalarKeyword target source referenceType location context
    else g

def addReference (g : SymbolGraph) (source target : Ref) (referenceType : ReferenceType)
    (location : SymbolLocation) (context : Option ReferenceContext := none) : SymbolGraph :=
  if (g.heap source).fileUri = "" then g
  else
    let g := g.normalizeSource source
    if (g.heap target).isBlockSymbol then g
    else
      match g.declaringSource source with
      | none => g
      | some s => g.issueReference s target referenceType location context

def enqueueDeferredReference (g : SymbolGraph) (source : Ref) (targetSymbolName : String)
    (referenceType : ReferenceType) (location : SymbolLocation) (context : Option ReferenceContext := none)
    (targetFileUri : Option String := none) : SymbolGraph :=
  if (g.heap source).fileUri = "" then g
  else
    let g := g.normalizeSource source
    match g.declaringSource source with
    | none => g
    | some s =>
      g.addDeferredReference targetSymbolName
        { sourceSymbol := s
          referenceType := referenceType
          location := location
          targetFileUri := if truthy targetFileUri then targetFileUri.map extractFilePathFromUri else none
          context := context }

/-- `pickDeferredTarget`: a target in the source's file, the only one of the hinted namespace,
else the first. -/
def pickDeferredTarget (heap : Heap) (candidates : List Ref) (sourceInGraph : Ref)
    (namespaceHint : Option String) : Option Ref :=
  let sameFile := candidates.find? (fun t => (heap t).fileUri = (heap sourceInGraph).fileUri)
  let byNamespace :=
    if truthy namespaceHint then
      candidates.filter (fun t =>
        toLowerCase ((heap t).namespace_.getD "") = toLowerCase (namespaceHint.getD ""))
    else []
  sameFile.or (match byNamespace with
    | [t] => some t
    | _ => candidates.head?)

def exactTarget (heap : Heap) (candidates : List Ref) (targetFileUri : Option String) : Option Ref :=
  if truthy targetFileUri then
    candidates.find? (fun t => (heap t).fileUri ≠ "" &&
      extractFilePathFromUri (heap t).fileUri = extractFilePathFromUri (targetFileUri.getD ""))
  else none

def pickDeferredTargetForEntry (heap : Heap) (candidates : List Ref) (sourceInGraph : Ref)
    (entry : DeferredReference) : Option Ref :=
  (exactTarget heap candidates entry.targetFileUri).or
    (pickDeferredTarget heap candidates sourceInGraph (entry.context.bind ReferenceContext.namespace_))

/-- How a drain chooses among the candidates for one entry. -/
abbrev Pick := Heap → List Ref → Ref → DeferredReference → Option Ref

/-- The choice of the synchronous drain, which does not look at `targetFileUri`. -/
def syncPick : Pick := fun heap candidates sourceInGraph entry =>
  pickDeferredTarget heap candidates sourceInGraph (entry.context.bind ReferenceContext.namespace_)

/-- The body that the loops of both drains share, up to the choice of the target. -/
def placeEntry (pick : Pick) (candidates : List Ref) (g : SymbolGraph) (entry : DeferredReference) :
    Outcome × SymbolGraph :=
  let sourceSymbol := g.heap entry.sourceSymbol
  if sourceSymbol.fileUri = "" then (.dropped,g)
  else
    match g.findSymbolInFileByName sourceSymbol.fileUri sourceSymbol.name with
    | (none,g) => (.waiting,g)
    | (some sourceInGraph,g) =>
      match pick g.heap candidates sourceInGraph entry with
      -- not reached: a drain places entries only where there are candidates
      | none => (.waiting,g)
      | some target => (.placed,g.addEdge sourceInGraph target entry.referenceType entry.location entry.context)

/-- Place the entries in order: the graph after them, those still waiting, how many were placed. -/
def placeEntries (pick : Pick) (candidates : List Ref) :
    SymbolGraph → List DeferredReference → SymbolGraph × List DeferredReference × Nat
  | g,[] => (g,[],0)
  | g,entry :: rest =>
    let (outcome,g) := placeEntry pick candidates g entry
    let (g,remaining,placed) := placeEntries pick candidates g rest
    match outcome with
    | .dropped => (g,remaining,placed)
    | .waiting => (g,entry :: remaining,placed)
    | .placed => (g,remaining,placed + 1)

def keepDeferred (g : SymbolGraph) (targetName : String) (remaining : List DeferredReference) : SymbolGraph :=
  { g with deferredReferences :=
      if remaining = [] then g.deferredReferences.delete targetName
      else g.deferredReferences.set targetName remaining }

def drainName (state : Nat × SymbolGraph) (targetName : String) : Nat × SymbolGraph :=
  let (resolved,g) := state
  match (g.deferredReferences.get targetName).getD [] with
  | [] => (resolved,{ g with deferredReferences := g.deferredReferences.delete targetName })
  | deferred =>
    match g.findSymbolByName targetName with
    | ([],g) => (resolved,g)
    | (candidates,g) =>
      let (g,remaining,placed) := placeEntries syncPick candidates g deferred
      (resolved + placed,g.keepDeferred targetName remaining)

def drainAllDeferredReferencesSync (g : SymbolGraph) : Nat × SymbolGraph :=
  g.deferredReferences.keys.foldl drainName (0,g)

/-- `processDeferredReferencesBatchEffect`, with `DEFERRED_BATCH_SIZE` a setting. -/
def processDeferredReferencesBatch (g : SymbolGraph) (symbolName : String) (deferredBatchSize : Nat := 50) :
    BatchProcessingResult × SymbolGraph :=
  match (g.deferredReferences.get symbolName).getD [] with
  | [] => (⟨false,.success,none⟩,g)
  | deferred =>
    match g.findSymbolByName symbolName with
    | ([],g) => (⟨true,.target_not_found,some deferred.length⟩,g)
    | (candidates,g) =>
      let batch := deferred.take deferredBatchSize
      let (g,waiting,_) := placeEntries pickDeferredTargetForEntry candidates g batch
      let remaining := deferred.drop deferredBatchSize ++ waiting
      (if remaining = [] then ⟨false,.success,none⟩ else ⟨true,.partial_processing,some remaining.length⟩,
        g.keepDeferred symbolName remaining)

end SymbolGraph
end ApexLs.Symbols
