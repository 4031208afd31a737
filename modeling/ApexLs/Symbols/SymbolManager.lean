import ApexLs.Symbols.GraphRuns

/-! The manager's `addSymbolTable`: it registers the table of a file that was read again, hands
its symbols to the graph and takes out what the file no longer declares. -/
namespace ApexLs.Symbols

open ApexLs.Utils ApexLs.Types ApexLs.Collections

structure TableState where
  documentVersion : Int
  symbolCount : Nat
  referenceCount : Nat
  hasErrors : Bool
  deriving DecidableEq, Repr

def getSymbolTableStateSignature (t : SymbolTable) : TableState :=
  ⟨t.metadata.documentVersion,t.getAllSymbols.length,t.references.length,t.metadata.hasErrors.getD false⟩

structure SymbolManager [Runtime] where
  graph : SymbolGraph
  lastProcessedTableStateByFile : OrderedMap String TableState := .empty

structure TableCall where
  symbolTable : TableRef
  fileUri : String
  documentVersion : Option Int := none
  hasErrors : Option Bool := none
  deriving DecidableEq, Repr

def TableCall.normalizedUri (c : TableCall) : String := extractFilePathFromUri (createFileUri c.fileUri)

def TableCall.annotate (c : TableCall) (t : SymbolTable) : SymbolTable :=
  t.setMetadata { t.metadata with
    fileUri := c.normalizedUri
    documentVersion := c.documentVersion.getD t.metadata.documentVersion
    hasErrors := c.hasErrors.or t.metadata.hasErrors }

/-- `symbol.key?.unifiedId || symbol.id` -/
def unifiedIdOf (symbol : ApexSymbol) : String := orElse symbol.key.unifiedId symbol.id

/-- The key gets the parts it lacks; the symbol takes its id and its file from the key. -/
def synchronizeWithKey [Runtime] (properUri : String) (symbol : ApexSymbol) : ApexSymbol :=
  if truthy symbol.key.unifiedId then
    { symbol with
      id := symbol.key.unifiedId.getD ""
      fileUri := orElse symbol.key.fileUri symbol.fileUri }
  else
    let key := { symbol.key with kind := symbol.key.kind.or (some symbol.kind) }
    let id := generateUnifiedId key properUri
    let keyFile := orElse key.fileUri properUri
    { symbol with
      key := { key with unifiedId := some id,fileUri := some keyFile }
      id := id
      fileUri := keyFile }

def GraphCall.overReferences : GraphCall → Bool
  | .addReference .. => true
  | .enqueueDeferredReference .. => true
  | .drainAllDeferredReferences => true
  | .processDeferredReferencesBatch .. => true
  | .getSymbol _ => true
  | .findSymbolByName _ => true
  | _ => false

/-- A step of the manager. `addSymbolTable` is cut where its passes over the references begin,
because resolving a supertype can load another table before the call is over. -/
inductive ManagerStep where
  | addSymbolTable (call : TableCall)
  | overReferences (call : GraphCall) (only : call.overReferences = true)
  | processed (symbolTable : TableRef) (fileUri : String)

namespace SymbolGraph

variable [Runtime]

/-- The loop of `calculateFQN` with parents from the graph and blocks kept in. -/
def namesAbove (symbolId : String) : Nat → List String → ParentId → List String → SymbolGraph → List String × SymbolGraph
  | depth + 1,visitedIds,.of currentParentId,parts,g =>
    if currentParentId = "" ∨ currentParentId ∈ visitedIds then (parts,g)
    else match g.getSymbol currentParentId with
      | (none,g) => (parts,g)
      | (some parent,g) =>
        if (g.heap parent).id = symbolId then (parts,g)
        else
          namesAbove symbolId depth (currentParentId :: visitedIds) (g.heap parent).parentId
            (if (g.heap parent).name = "" then parts else (g.heap parent).name :: parts) g
  | _,_,_,parts,g => (parts,g)

def qualify (g : SymbolGraph) (symbol : Ref) : SymbolGraph :=
  if truthy (g.heap symbol).fqn then g
  else
    let (parts,g) := namesAbove (g.heap symbol).id 20 [(g.heap symbol).id] (g.heap symbol).parentId [(g.heap symbol).name] g
    let s := g.heap symbol
    let fqn := ".".intercalate parts
    let fqn := toLowerCase (if truthy s.namespace_ then orElse s.namespace_ "" ++ "." ++ fqn else fqn)
    { g with heap := g.heap.put symbol { s with fqn := some fqn,key := { s.key with fqn := some fqn } } }

/-- Put `symbol` into the table unless something stands there under its id. -/
def fileSymbol (g : SymbolGraph) (t : TableRef) (symbol : Ref) : SymbolGraph :=
  if (g.table t).getAllSymbolsById (unifiedIdOf (g.heap symbol)) = [] then
    let (heap,table) := (g.table t).addSymbol g.heap symbol
    { g with heap := heap }.setTable t table
  else g

/-- The manager's `addSymbol` with a table given and the bookkeeping skipped. -/
def manageSymbol (g : SymbolGraph) (symbol : Ref) (fileUri : String) (t : TableRef) : SymbolGraph :=
  let properUri := createFileUri fileUri
  let g := { g with heap := g.heap.put symbol (synchronizeWithKey properUri (g.heap symbol)) }
  let g := g.qualify symbol
  let (_,g) := g.getSymbol (unifiedIdOf (g.heap symbol))
  (g.fileSymbol t symbol).addSymbol symbol properUri (some t)

def insertSymbol (normalizedUri : String) (t : TableRef) (g : SymbolGraph) (symbol : Ref) : SymbolGraph :=
  { g with heap := g.heap.put symbol { g.heap symbol with fileUri := normalizedUri } }.manageSymbol
    symbol normalizedUri t

def liveSymbolIds (heap : Heap) (symbols : List Ref) : List String :=
  (symbols.map (fun s => unifiedIdOf (heap s))).filter (· ≠ "")

/-- The part of `addSymbolTable` that fills the graph. The code walks the array of the table,
which grows under it only where a bucket holds a symbol that is not listed. -/
def insertSymbols (g : SymbolGraph) (normalizedUri : String) (t : TableRef) (decision : RegistrationDecision) :
    SymbolGraph :=
  let g := g.clearReferenceStateForFile normalizedUri
  let symbols := (g.table t).getAllSymbols
  let g := symbols.foldl (insertSymbol normalizedUri t) g
  if decision = .acceptedReplace then
    g.evictStaleFileDeclarations normalizedUri (liveSymbolIds g.heap symbols)
  else g

def registerSymbolTableForFile (g : SymbolGraph) (t : TableRef) (fileUri : String) (hasErrors : Option Bool) :
    SymbolTableRegistrationResult × SymbolGraph :=
  g.registerSymbolTable t (extractFilePathFromUri (createFileUri fileUri))
    { mergeReferences := false,hasErrors := hasErrors.getD false }

end SymbolGraph

namespace SymbolManager

variable [Runtime]

def register (m : SymbolManager) (c : TableCall) : SymbolTableRegistrationResult × SymbolGraph :=
  (m.graph.setTable c.symbolTable (c.annotate (m.graph.table c.symbolTable))).registerSymbolTableForFile
    c.symbolTable c.normalizedUri c.hasErrors

def addSymbolTable (m : SymbolManager) (c : TableCall) : SymbolManager :=
  let (registration,g) := m.register c
  let state := getSymbolTableStateSignature (g.table registration.canonicalTable)
  let unchanged := m.lastProcessedTableStateByFile.get? c.normalizedUri = some state
  { m with graph :=
      if registration.decision = .rejectedStale ∨ registration.decision = .noopSameInstance ∧ unchanged then g
      else g.insertSymbols c.normalizedUri registration.canonicalTable registration.decision }

def step (m : SymbolManager) : ManagerStep → SymbolManager
  | .addSymbolTable c => m.addSymbolTable c
  | .overReferences c _ => { m with graph := m.graph.call c }
  | .processed t fileUri =>
    { m with lastProcessedTableStateByFile :=
        m.lastProcessedTableStateByFile.set fileUri (getSymbolTableStateSignature (m.graph.table t)) }

end SymbolManager
end ApexLs.Symbols
