import ApexLs.Symbols.GraphRuns

/-! The counters of the graph. Whoever inserts a symbol or an edge counts it, and removals count
anew. The class field `memoryStats` shares its object with a `Ref`, from which the drains read it
back; `clear` gives the field and the `Ref` an object each. -/
namespace ApexLs.Symbols

open ApexLs.Utils ApexLs.Types ApexLs.Collections

structure MemoryStats where
  totalSymbols : Nat := 0
  totalEdges : Nat := 0
  deriving DecidableEq, Repr

structure ApexSymbolGraphCounts where
  totalSymbols : Nat
  totalFiles : Nat
  totalReferences : Nat
  totalEdges : Nat
  deferredReferences : Nat
  deriving DecidableEq, Repr

section

variable [Runtime]

namespace SymbolGraph

def memoryStats (g : SymbolGraph) : MemoryStats := ⟨g.totalSymbols,g.totalEdges⟩

def getCounts (g : SymbolGraph) : ApexSymbolGraphCounts where
  totalSymbols := g.symbolIdIndex.size
  totalFiles := g.fileIndex.size
  totalReferences := g.memoryStats.totalEdges
  totalEdges := g.memoryStats.totalEdges
  deferredReferences := g.deferredReferences.size

/-- The id index lacks the id, although the table of its file answers it. -/
def Unindexed (g : SymbolGraph) (symbolId : String) : Prop :=
  g.symbolIdIndex.has symbolId = false ∧ (g.resolve symbolId).isSome = true

instance (g : SymbolGraph) (symbolId : String) : Decidable (g.Unindexed symbolId) :=
  inferInstanceAs (Decidable (_ ∧ _))

def AllIndexed (g : SymbolGraph) (symbolIds : List String) : Prop := ∀ symbolId ∈ symbolIds, ¬ g.Unindexed symbolId

instance (g : SymbolGraph) (symbolIds : List String) : Decidable (g.AllIndexed symbolIds) :=
  inferInstanceAs (Decidable (∀ _ ∈ _, _))

def idsNamed (g : SymbolGraph) (name : String) : List String :=
  if isApexKeyword name then [] else (g.nameIndex.get name).getD []

/-- The ids `getSymbolsInFile` asks for: none where the file has a table. -/
def idsOfFile (g : SymbolGraph) (fileUri : String) : List String :=
  match g.fileToSymbolTable.get (extractFilePathFromUri fileUri) with
  | some _ => []
  | none => (g.fileIndex.get (extractFilePathFromUri fileUri)).getD []

def idsSearched (g : SymbolGraph) (fileUri : String) : List String := g.idsOfFile (extractFilePathFromUri fileUri)

def idsIdentified (g : SymbolGraph) (symbolId fileUri : String) : List String :=
  match g.symbolQualifiedIndex.get (makeQualifiedSymbolKey fileUri symbolId) with
  | some _ => []
  | none => [symbolId]

def idsOfStandIn (g : SymbolGraph) (symbol : ApexSymbol) : List String :=
  g.idsIdentified symbol.id symbol.fileUri ++
    match g.identified symbol.id symbol.fileUri with
    | some _ => []
    | none => g.idsSearched symbol.fileUri

def idsOfTarget (g : SymbolGraph) (target : ApexSymbol) : List String :=
  if target.fileUri = "" then [] else g.idsOfStandIn target

def idsOfSource (g : SymbolGraph) (entry : DeferredReference) : List String :=
  if (g.heap entry.sourceSymbol).fileUri = "" then [] else g.idsSearched (g.heap entry.sourceSymbol).fileUri

def idsOfPass (g : SymbolGraph) (name : String) (entries : List DeferredReference) : List String :=
  if g.deferredUnder name = [] then []
  else g.idsNamed name ++ if g.symbolsNamed name = [] then [] else entries.flatMap g.idsOfSource

def withScalarKeyword (g : SymbolGraph) (target : Ref) : SymbolGraph :=
  let virtualSymbolId := generateSymbolId (g.heap target).name (g.heap target).fileUri
  if g.symbolIdIndex.has virtualSymbolId then g else g.addVirtualSymbol target virtualSymbolId

def scalarEdge (g : SymbolGraph) (source target : Ref) (targetSymbolId : String) (referenceType : ReferenceType)
    (location : SymbolLocation) (context : Option ReferenceContext) : RefStoreEntry where
  sourceFileUri := (g.heap source).fileUri
  sourceSymbolId := getSymbolId (g.heap source) (g.heap source).fileUri
  targetFileUri := (g.heap target).fileUri
  targetSymbolId := targetSymbolId
  referenceType := referenceType
  location := location
  context := context

/-- `addReferenceToGraph` adds no edge, because an end is a block, because the source is not in its
file, or because the edge is there already, and asks for no unindexed id. -/
def AddsNone (g : SymbolGraph) (source target : Ref) (targetSymbolId : String) (referenceType : ReferenceType)
    (location : SymbolLocation) (context : Option ReferenceContext) : Prop :=
  ((g.heap source).isBlockSymbol ∨ (g.heap target).isBlockSymbol ∨ (g.heap source).fileUri = "") ∨
    g.AllIndexed (g.idsSearched (extractFilePathFromUri (g.heap source).fileUri)) ∧
      ∀ s ∈ g.firstNamed (extractFilePathFromUri (g.heap source).fileUri) (g.heap source).name,
        g.refs.hasDuplicate (g.scalarEdge s target targetSymbolId referenceType location context) = true

/-- Issuing the reference asks for no unindexed id and adds no edge to a scalar keyword. -/
def IssueCounted (g : SymbolGraph) (source target : Ref) (referenceType : ReferenceType) (location : SymbolLocation)
    (context : Option ReferenceContext) : Prop :=
  g.AllIndexed (g.idsOfStandIn (g.heap source) ++ g.idsOfTarget (g.heap target)) ∧
    (g.standIn (g.heap source) = none ∨ g.targetStandIn (g.heap target) = none →
      isStdlibScalarKeyword (g.heap target) →
      (g.withScalarKeyword target).AddsNone source target
        (generateSymbolId (g.heap target).name (g.heap target).fileUri) referenceType location context)

def CallCounted (g : SymbolGraph) : GraphCall → Prop
  | .getSymbol symbolId => ¬ g.Unindexed symbolId
  | .findSymbolByName name => g.AllIndexed (g.idsNamed name)
  | .addReference source target referenceType location context =>
    (g.heap source).fileUri = "" ∨ ((g.normalizeSource source).heap target).isBlockSymbol ∨
      ∀ s ∈ (g.normalizeSource source).declaringSource source,
        (g.normalizeSource source).IssueCounted s target referenceType location context
  | .drainAllDeferredReferences =>
    g.AllIndexed (g.deferredReferences.keys.flatMap (fun name => g.idsOfPass name (g.deferredUnder name)))
  | .processDeferredReferencesBatch symbolName deferredBatchSize =>
    g.AllIndexed (g.idsOfPass symbolName ((g.deferredUnder symbolName).take deferredBatchSize))
  | .addSymbol _ _ _ | .registerSymbolTable _ _ _ | .enqueueDeferredReference _ _ _ _ _ _
  | .clearReferenceStateForFile _ | .evictStaleFileDeclarations _ _ | .removeFile _ | .clear => True

end SymbolGraph

/-- The graph beside what the `Ref` of its statistics holds where that is not the object of the
class field. -/
structure CountedGraph where
  graph : SymbolGraph
  memoryStatsRef : Option MemoryStats := none

inductive CountedCall where
  | onGraph (c : GraphCall)
  | getDeferredReferences (symbolName : String)
  deriving DecidableEq, Repr

/-- The drains begin by reading the class fields back from the `Ref`s. -/
def GraphCall.readsRefs : GraphCall → Bool
  | drainAllDeferredReferences => true
  | processDeferredReferencesBatch _ _ => true
  | _ => false

namespace CountedGraph

def syncClassFieldsFromRefs (m : CountedGraph) : CountedGraph :=
  match m.memoryStatsRef with
  | none => m
  | some stats => { graph := { m.graph with totalSymbols := stats.totalSymbols,totalEdges := stats.totalEdges } }

def getDeferredReferences (m : CountedGraph) (symbolName : String) : Option (List DeferredReference) × CountedGraph :=
  let m := m.syncClassFieldsFromRefs
  (m.graph.deferredReferences.get symbolName,m)

def clear (m : CountedGraph) : CountedGraph := { graph := m.graph.clear,memoryStatsRef := some {} }

def call (m : CountedGraph) : CountedCall → CountedGraph
  | .onGraph .clear => m.clear
  | .onGraph c =>
    let m := if c.readsRefs then m.syncClassFieldsFromRefs else m
    { m with graph := m.graph.call c }
  | .getDeferredReferences symbolName => (m.getDeferredReferences symbolName).2

def start (heap : Heap) (tables : TableRef → SymbolTable) : CountedGraph where
  graph := { heap := heap,tables := tables }

structure CountsExact (m : CountedGraph) : Prop where
  edges : m.graph.getCounts.totalEdges = m.graph.refs.refStore.size
  symbols : m.graph.getCounts.totalSymbols = m.graph.symbolIdIndex.keys.dedup.length
  stats : m.graph.getCounts.totalSymbols = m.graph.memoryStats.totalSymbols

instance (m : CountedGraph) : Decidable m.CountsExact :=
  decidable_of_iff (_ ∧ _ ∧ _) ⟨fun ⟨edges,symbols,stats⟩ => ⟨edges,symbols,stats⟩,
    fun exact_ => ⟨exact_.edges,exact_.symbols,exact_.stats⟩⟩

def Joined (m : CountedGraph) : Prop := ∀ stats ∈ m.memoryStatsRef, stats = m.graph.memoryStats

/-- The call inserts nothing that is not counted, and reads back no other statistics. -/
def CallCounted (m : CountedGraph) : CountedCall → Prop
  | .onGraph c => (c.readsRefs = true → m.Joined) ∧ m.graph.CallCounted c
  | .getDeferredReferences _ => m.Joined

end CountedGraph
end
end ApexLs.Symbols
