import ApexLs.Symbols.ReferenceIndexes
import ApexLs.Types.SymbolTable

/-! The symbol graph of a workspace: the tables of the files, the indexes over their symbols,
the reference edges and the references that wait for their target. -/
namespace ApexLs.Symbols

open ApexLs.Utils ApexLs.Types ApexLs.Collections

inductive TableRef where
  | parsed (serial : Nat)
  | ensured (serial : Nat)
  deriving DecidableEq, Repr, Inhabited

/-- A reference whose source or target was not in the graph when it was issued. -/
structure DeferredReference where
  sourceSymbol : Ref
  referenceType : ReferenceType
  location : SymbolLocation
  targetFileUri : Option String := none
  context : Option ReferenceContext := none
  deriving DecidableEq, Repr, Inhabited

structure SymbolGraph [Runtime] where
  heap : Heap
  tables : TableRef → SymbolTable := fun _ => {}
  ensured : Nat := 0
  refs : ReferenceIndexes := {}
  symbolFileMap : CaseInsensitiveMap String := .empty
  nameIndex : CaseInsensitiveMap (List String) := .empty
  fileIndex : CaseInsensitiveMap (List String) := .empty
  fqnIndex : CaseInsensitiveMap (List String) := .empty
  symbolIdIndex : OrderedMap String Ref := .empty
  symbolQualifiedIndex : CaseInsensitiveMap Ref := .empty
  fileToSymbolTable : CaseInsensitiveMap TableRef := .empty
  deferredReferences : CaseInsensitiveMap (List DeferredReference) := .empty
  totalSymbols : Nat := 0
  totalEdges : Nat := 0

def getSymbolId [Runtime] (symbol : ApexSymbol) (fileUri : String) : String :=
  if symbol.id ≠ "" then symbol.id
  else
    let theFileUri := extractFilePathFromUri
      (if fileUri ≠ "" then fileUri else if symbol.fileUri ≠ "" then symbol.fileUri else "unknown")
    generateSymbolId symbol.name theFileUri [] symbol.kind.text

/-- The loop of `calculateFQN`: the names of the enclosing declarations, outermost first. -/
def enclosingNames (heap : Heap) (getParent : String → Option Ref) (symbolId : String) :
    Nat → List String → ParentId → List String → List String
  | depth + 1,visitedIds,.of currentParentId,parts =>
    if currentParentId = "" ∨ currentParentId ∈ visitedIds then parts
    else match getParent currentParentId with
      | none => parts
      | some parent =>
        if (heap parent).id = symbolId then parts
        else
          let skipped := (heap parent).isBlockSymbol || (heap parent).name = ""
          enclosingNames heap getParent symbolId depth (currentParentId :: visitedIds) (heap parent).parentId
            (if skipped then parts else (heap parent).name :: parts)
  | _,_,_,parts => parts

/-- `calculateFQN` with case normalised and blocks left out. -/
def calculateFQN [Runtime] (heap : Heap) (symbol : ApexSymbol) (getParent : String → Option Ref) : String :=
  let parts := enclosingNames heap getParent symbol.id 20 [symbol.id] symbol.parentId [symbol.name]
  let fqn := ".".intercalate parts
  toLowerCase (if truthy symbol.namespace_ then orElse symbol.namespace_ "" ++ "." ++ fqn else fqn)

/-- `getParent` of `addSymbol`: by id, else by name. -/
def parentInTable (heap : Heap) (t : SymbolTable) (parentId : String) : Option Ref :=
  (t.getAllSymbols.find? (fun s => (heap s).id = parentId)).or
    (t.getAllSymbols.find? (fun s => (heap s).name = parentId))

inductive RegistrationDecision where
  | noopSameInstance | rejectedStale | acceptedReplace | acceptedFallbackMerge | acceptedMerge
  deriving DecidableEq, Repr, Inhabited

structure SymbolTableRegistrationResult where
  decision : RegistrationDecision
  fileUri : String
  canonicalTable : TableRef
  incomingVersion : Int
  storedVersion : Option Int
  deriving DecidableEq, Repr, Inhabited

structure RegistrationOptions where
  mergeReferences : Bool := true
  hasErrors : Bool := false
  hasHardIncompleteParse : Bool := false
  deriving DecidableEq, Repr, Inhabited

def keyToString [Runtime] (key : SymbolKey) : String := getUnifiedId key ""

def detailLevelOrder (symbol : ApexSymbol) : Nat := symbol.detailLevel.elim 0 DetailLevel.order

/-- One symbol of the stored table in a merge: kept where the new table lacks its key, and
added again where it was captured at a higher level. The keys are those from before the merge;
`newSymbols` is the array of the table itself, which grows with it. -/
def mergeSymbol [Runtime] (newSymbolKeys : List String) (state : Heap × SymbolTable) (symbol : Ref) :
    Heap × SymbolTable :=
  let (heap,t) := state
  let symbolKey := keyToString (heap symbol).key
  if symbolKey ∉ newSymbolKeys then t.addSymbol heap symbol
  else
    match t.getAllSymbols.find? (fun s => keyToString (heap s).key = symbolKey) with
    | none => (heap,t)
    | some existingInNew =>
      if detailLevelOrder (heap existingInNew) < detailLevelOrder (heap symbol) then t.addSymbol heap symbol
      else (heap,t)

def mergeSymbols [Runtime] (heap : Heap) (t existing : SymbolTable) : Heap × SymbolTable :=
  existing.getAllSymbols.foldl (mergeSymbol (t.getAllSymbols.map (fun s => keyToString (heap s).key))) (heap,t)

def referenceKey (ref : SymbolReference) : Nat × Nat × String :=
  (ref.location.identifierRange.startLine,ref.location.identifierRange.startColumn,ref.name)

def mergeTypeReferences (t existing : SymbolTable) : SymbolTable :=
  let newRefSet := t.references.map referenceKey
  (existing.references.filter (fun ref => referenceKey ref ∉ newRefSet)).foldl SymbolTable.addTypeReference t

/-- The lookups of `getSymbol` behind the id index: by id, by the id on the symbol, by its key,
and last by the name the id ends in. -/
def findInTable (heap : Heap) (t : SymbolTable) (symbolId : String) : Option Ref :=
  let allSymbols := t.getAllSymbols
  let exactMatch := ((t.getSymbolById symbolId).or (allSymbols.find? (fun s => (heap s).id = symbolId))).or
    (allSymbols.find? (fun s => (heap s).key.unifiedId = some symbolId))
  exactMatch.or ((parseSymbolId symbolId).bind fun parsed =>
    if parsed.name = "" then none
    else (allSymbols.find? (fun s => (heap s).name = parsed.name && !(heap s).isBlockSymbol)).or
      (allSymbols.find? (fun s => (heap s).name = parsed.name)))

def heldSymbols (t : SymbolTable) : List Ref := t.symbolArray ++ t.symbolMap.entries.flatMap (fun p => p.2.symbols)

namespace SymbolGraph

variable [Runtime]

def table (g : SymbolGraph) (t : TableRef) : SymbolTable := g.tables t

def setTable (g : SymbolGraph) (t : TableRef) (table : SymbolTable) : SymbolGraph :=
  { g with tables := Function.update g.tables t table }

def resolve (g : SymbolGraph) (symbolId : String) : Option Ref :=
  (g.symbolIdIndex.get? symbolId).or
    ((g.fileToSymbolTable.get (extractFilePathFromUri symbolId)).bind
      (fun t => findInTable g.heap (g.table t) symbolId))

/-- `getSymbol`: an answer found in a table is kept in the id index. -/
def getSymbol (g : SymbolGraph) (symbolId : String) : Option Ref × SymbolGraph :=
  match g.resolve symbolId with
  | none => (none,g)
  | some s => (some s,{ g with symbolIdIndex := g.symbolIdIndex.set symbolId s })

/-- `getSymbol` on each id, leaving out the ids without an answer. -/
def getSymbols (g : SymbolGraph) : List String → List Ref × SymbolGraph
  | [] => ([],g)
  | symbolId :: rest =>
    let (found,g) := g.getSymbol symbolId
    let (others,g) := getSymbols g rest
    (found.toList ++ others,g)

def findSymbolByName (g : SymbolGraph) (name : String) : List Ref × SymbolGraph :=
  if isApexKeyword name then ([],g)
  else
    let (symbols,g) := g.getSymbols ((g.nameIndex.get name).getD [])
    (symbols.filter (fun s => !(g.heap s).isBlockSymbol),g)

def getSymbolsInFile (g : SymbolGraph) (fileUri : String) : List Ref × SymbolGraph :=
  let normalizedUri := extractFilePathFromUri fileUri
  match g.fileToSymbolTable.get normalizedUri with
  | some t => ((g.table t).getAllSymbols,g)
  | none => g.getSymbols ((g.fileIndex.get normalizedUri).getD [])

def findSymbolInFileByName (g : SymbolGraph) (fileUri symbolName : String) : Option Ref × SymbolGraph :=
  let (symbolsInFile,g) := g.getSymbolsInFile (extractFilePathFromUri fileUri)
  (symbolsInFile.find? (fun s => (g.heap s).name = symbolName && !(g.heap s).isBlockSymbol),g)

def getSymbolByIdAndFile (g : SymbolGraph) (symbolId fileUri : String) : Option Ref × SymbolGraph :=
  match g.symbolQualifiedIndex.get (makeQualifiedSymbolKey fileUri symbolId) with
  | some s => (some s,g)
  | none => g.getSymbol symbolId

def ensureSymbolTableForFile (g : SymbolGraph) (fileUri : String) : SymbolGraph :=
  let normalizedUri := extractFilePathFromUri fileUri
  if g.fileToSymbolTable.has normalizedUri then g
  else
    { g with
      tables := Function.update g.tables (.ensured g.ensured) (SymbolTable.setFileUri {} normalizedUri)
      ensured := g.ensured + 1
      fileToSymbolTable := g.fileToSymbolTable.set normalizedUri (.ensured g.ensured) }

/-- Whether a newer version is kept from replacing the stored table, which it may be only when
there are symbols to lose. -/
def isIncompleteParse (incoming stored : SymbolTable) (options : RegistrationOptions) : Bool :=
  let existingSymbolCount := stored.getAllSymbols.length
  (options.hasHardIncompleteParse || incoming.metadata.parseCompleteness = .incomplete ||
    (options.hasErrors && existingSymbolCount > 0 && incoming.getAllSymbols.length = 0)) &&
    existingSymbolCount > 0

def registerSymbolTable (g : SymbolGraph) (symbolTable : TableRef) (fileUri : String)
    (options : RegistrationOptions := {}) : SymbolTableRegistrationResult × SymbolGraph :=
  let normalizedUri := extractFilePathFromUri fileUri
  let incomingVersion := (g.table symbolTable).metadata.documentVersion
  let incoming := (g.table symbolTable).setFileUri normalizedUri
  match g.fileToSymbolTable.get normalizedUri with
  | none =>
    (⟨.acceptedReplace,normalizedUri,symbolTable,incomingVersion,none⟩,
      { g.setTable symbolTable incoming with
        fileToSymbolTable := g.fileToSymbolTable.set normalizedUri symbolTable })
  | some existing =>
    let storedVersion := (g.table existing).metadata.documentVersion
    if existing = symbolTable then
      (⟨.noopSameInstance,normalizedUri,existing,incomingVersion,some incomingVersion⟩,g)
    else if incomingVersion < storedVersion then
      (⟨.rejectedStale,normalizedUri,existing,incomingVersion,some storedVersion⟩,g.setTable symbolTable incoming)
    else
      let stored := g.table existing
      let isNewerVersion : Bool := incomingVersion > storedVersion
      let incomplete := isNewerVersion && isIncompleteParse incoming stored options
      let useReplace := isNewerVersion && !incomplete
      let (heap,merged) := if useReplace then (g.heap,incoming) else mergeSymbols g.heap incoming stored
      let withReferences :=
        if options.mergeReferences ∧ (useReplace = false ∨ merged.references = []) then
          mergeTypeReferences merged stored
        else merged
      (⟨if useReplace then .acceptedReplace else if incomplete then .acceptedFallbackMerge else .acceptedMerge,
          normalizedUri,symbolTable,incomingVersion,some storedVersion⟩,
        { { g with heap := heap }.setTable symbolTable withReferences with
          fileToSymbolTable := g.fileToSymbolTable.set normalizedUri symbolTable })

/-- Push `symbolId` into the array under `key`, once. -/
def pushId (index : CaseInsensitiveMap (List String)) (key symbolId : String) : CaseInsensitiveMap (List String) :=
  let existing := (index.get key).getD []
  if symbolId ∈ existing then index else index.set key (existing ++ [symbolId])

/-- `symbol.fqn` and `symbol.key.fqn` after `addSymbol`, which recalculates what is missing or
differs. -/
def withFqn (symbol : ApexSymbol) (recalculatedFQN : String) : ApexSymbol :=
  if truthy symbol.fqn ∧ symbol.fqn = some recalculatedFQN then symbol
  else { symbol with fqn := some recalculatedFQN,key := { symbol.key with fqn := some recalculatedFQN } }

/-- A path of the bundled library: its first part is a namespace and it names a class. -/
def isStandardClassPath (fileUri : String) : Bool :=
  '/' ∈ fileUri.toList && ".cls".toList.isSuffixOf fileUri.toList &&
    isStdApexNamespace (String.ofList (fileUri.toList.takeWhile (· ≠ '/')))

def markStandardClass (fileUri : String) (symbol : ApexSymbol) : ApexSymbol :=
  if isStandardClassPath fileUri then
    { symbol with modifiers := { symbol.modifiers with isBuiltIn := false,visibility := .global } }
  else symbol

/-- The indexes after `symbol` went into its table. The id index keeps the first symbol of an
id, the artifact-qualified one takes the latest; blocks have no name and no fqn entry. -/
def indexSymbol (g : SymbolGraph) (symbol : Ref) (symbolId normalizedFileUri : String) : SymbolGraph :=
  let isNewSymbolId := !g.symbolIdIndex.has symbolId
  let fqn := orElse (g.heap symbol).fqn ""
  let semantic := !(g.heap symbol).isBlockSymbol
  { g with
    symbolIdIndex := if isNewSymbolId then g.symbolIdIndex.set symbolId symbol else g.symbolIdIndex
    symbolQualifiedIndex :=
      g.symbolQualifiedIndex.set (makeQualifiedSymbolKey normalizedFileUri symbolId) symbol
    symbolFileMap := g.symbolFileMap.set symbolId normalizedFileUri
    fqnIndex := if fqn ≠ "" ∧ semantic then pushId g.fqnIndex fqn symbolId else g.fqnIndex
    nameIndex := if semantic then pushId g.nameIndex (g.heap symbol).name symbolId else g.nameIndex
    fileIndex := pushId g.fileIndex normalizedFileUri symbolId
    totalSymbols := if isNewSymbolId then g.totalSymbols + 1 else g.totalSymbols }

def addToTable (g : SymbolGraph) (t : TableRef) (symbol : Ref) : SymbolGraph :=
  let (heap,table) := (g.table t).addSymbol g.heap symbol
  let fqn := calculateFQN heap (heap symbol) (parentInTable heap table)
  { g.setTable t table with heap := heap.put symbol (withFqn (heap symbol) fqn) }

def addSymbol (g : SymbolGraph) (symbol : Ref) (fileUri : String) (symbolTable : Option TableRef := none) :
    SymbolGraph :=
  let normalizedFileUri := extractFilePathFromUri fileUri
  let symbolId := getSymbolId (g.heap symbol) normalizedFileUri
  let g := match symbolTable with
    | some t => (g.registerSymbolTable t normalizedFileUri).2
    | none => g.ensureSymbolTableForFile normalizedFileUri
  match symbolTable.or (g.fileToSymbolTable.get normalizedFileUri) with
  -- the file got its table under another spelling of its URI: the code throws
  | none => g
  | some t =>
    let g := (g.addToTable t symbol).indexSymbol symbol symbolId normalizedFileUri
    { g with heap := g.heap.put symbol (markStandardClass fileUri (g.heap symbol)) }

/-- The array of ids without `symbolId`, or nothing when it was the last. -/
def withoutId (symbolId : String) (ids : List String) : Option (List String) :=
  let filteredIds := ids.filter (· ≠ symbolId)
  if filteredIds = [] then none else some filteredIds

def forgetSymbol (normalizedUri : String) (g : SymbolGraph) (symbolId : String) : SymbolGraph :=
  { g with
    symbolFileMap := g.symbolFileMap.delete symbolId
    symbolIdIndex := g.symbolIdIndex.erase symbolId
    symbolQualifiedIndex := g.symbolQualifiedIndex.delete (makeQualifiedSymbolKey normalizedUri symbolId)
    fqnIndex := g.fqnIndex.filterMap (withoutId symbolId)
    nameIndex := g.nameIndex.filterMap (withoutId symbolId) }

def syncTotals (g : SymbolGraph) : SymbolGraph :=
  { g with totalSymbols := g.symbolIdIndex.size,totalEdges := g.refs.refStore.size }

def removeFile (g : SymbolGraph) (fileUri : String) : SymbolGraph :=
  let normalizedUri := extractFilePathFromUri fileUri
  let symbolIds := (g.fileIndex.get normalizedUri).getD []
  let refs := (g.refs.removeReferencesFromFile normalizedUri).removeIncomingReferencesToSymbols symbolIds normalizedUri
  let g := symbolIds.foldl (forgetSymbol normalizedUri) { g with refs := refs }
  { g with
    fileIndex := g.fileIndex.delete normalizedUri
    fileToSymbolTable := g.fileToSymbolTable.delete normalizedUri : SymbolGraph }.syncTotals

def evictStaleFileDeclarations (g : SymbolGraph) (fileUri : String) (liveSymbolIds : List String) : SymbolGraph :=
  let normalizedUri := extractFilePathFromUri fileUri
  let previousIds := (g.fileIndex.get normalizedUri).getD []
  let staleIds := previousIds.filter (· ∉ liveSymbolIds)
  if staleIds = [] then g
  else
    let refs := g.refs.removeIncomingReferencesToSymbols staleIds normalizedUri
    let g := staleIds.foldl (forgetSymbol normalizedUri) { g with refs := refs }
    let remainingIds := previousIds.filter (· ∈ liveSymbolIds)
    { g with
      fileIndex :=
        if remainingIds = [] then g.fileIndex.delete normalizedUri
        else g.fileIndex.set normalizedUri remainingIds : SymbolGraph }.syncTotals

def clearReferenceStateForFile (g : SymbolGraph) (fileUri : String) : SymbolGraph :=
  let refs := g.refs.removeReferencesFromFile (extractFilePathFromUri fileUri)
  { g with refs := refs,totalEdges := refs.refStore.size }

def clear (g : SymbolGraph) : SymbolGraph := { heap := g.heap,tables := g.tables,ensured := g.ensured }

end SymbolGraph
end ApexLs.Symbols
