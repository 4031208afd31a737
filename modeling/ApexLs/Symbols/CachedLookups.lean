import ApexLs.Symbols.SymbolManager
import ApexLs.Utils.UnifiedCache

/-! The manager's lookups by id, by name and by fully qualified name. They keep their answers in
one cache, from which every operation that changes the graph takes out the entries that its
patterns are found in. -/
namespace ApexLs.Symbols

open ApexLs.Utils ApexLs.Types ApexLs.Collections

inductive CachedValue where
  | symbol (symbol : Ref)
  | symbols (symbols : List Ref)
  | null
  deriving DecidableEq, Repr

namespace CachedValue

def ofSymbol : Option Ref → CachedValue
  | some s => .symbol s
  | none => .null

def truthy : CachedValue → Bool
  | .null => false
  | _ => true

def held : CachedValue → List Ref
  | .symbol s => [s]
  | .symbols l => l
  | .null => []

end CachedValue

def nameKey [Runtime] (name : String) : String := "symbol_name_" ++ toLowerCase name

def fqnKey (fqn : String) : String := "symbol_fqn_" ++ fqn

def ownKey (symbol : ApexSymbol) (fileUri : String) : String :=
  symbol.name ++ ":" ++ symbol.kind.text ++ ":" ++
    (if fileUri ≠ "" then fileUri else orElse symbol.key.path.head? "unknown")

namespace SymbolGraph

variable [Runtime]

def findSymbolByFQN (g : SymbolGraph) (fqn : String) : Option Ref × SymbolGraph :=
  match (g.fqnIndex.get fqn).getD [] with
  | [] => (none,g)
  | symbolId :: _ => g.getSymbol symbolId

def tableForFile (g : SymbolGraph) (properUri : String) : TableRef × SymbolGraph :=
  match g.fileToSymbolTable.get (extractFilePathFromUri properUri) with
  | some t => (t,g)
  | none =>
    let t := TableRef.ensured g.ensured
    let temporary := SymbolTable.setMetadata {} { fileUri := properUri }
    (t,(({ g with ensured := g.ensured + 1 }.setTable t temporary).registerSymbolTable t properUri).2)

/-- `symbolNamesAdded`: each name as it stands right after its symbol went in. -/
def symbolNamesAdded (normalizedUri : String) (t : TableRef) : SymbolGraph → List Ref → List String
  | _,[] => []
  | g,s :: rest =>
    let g := g.insertSymbol normalizedUri t s
    (g.heap s).name :: symbolNamesAdded normalizedUri t g rest

end SymbolGraph

structure CachedManager [Runtime] extends SymbolManager where
  unifiedCache : UnifiedCache CachedValue := {}

/-- A step: an operation of the manager, a call that its passes over references make, the end of a
pass, or an entry that leaves the cache. The symbols handed in are the parser's. -/
inductive CachedStep where
  | addSymbol (serial : Nat) (fileUri : String) (symbolTable : Option TableRef)
  | addSymbolTable (call : TableCall)
  | removeFile (fileUri : String)
  | getSymbol (symbolId : String)
  | findSymbolByName (name : String)
  | findSymbolByFQN (fqn : String)
  | overReferences (call : GraphCall) (only : call.overReferences = true)
  | processed (symbolTable : TableRef) (fileUri : String)
  | evict (key : String)

namespace CachedManager

variable [Runtime]

/-- What every lookup does: a truthy entry is the answer; else the graph is asked and its answer
is kept where `keeps` says so. -/
def lookup (m : CachedManager) (key : String) (keeps : CachedValue → Bool)
    (ask : SymbolGraph → CachedValue × SymbolGraph) : CachedValue × CachedManager :=
  match (m.unifiedCache.get key).filter CachedValue.truthy with
  | some cached => (cached,m)
  | none =>
    let (value,g) := ask m.graph
    (value,{ m with
      graph := g
      unifiedCache := if keeps value then m.unifiedCache.set key value else m.unifiedCache })

def getSymbol (m : CachedManager) (symbolId : String) : CachedValue × CachedManager :=
  m.lookup symbolId CachedValue.truthy fun g =>
    let (symbol,g) := g.getSymbol symbolId
    (.ofSymbol symbol,g)

/-- Keywords are no symbols, unless they name a namespace or a built-in type. -/
def findSymbolByName (m : CachedManager) (name : String) : CachedValue × CachedManager :=
  if isApexKeyword name ∧ isStdApexNamespace name = false ∧ Runtime.builtinTypeNames (toLowerCase name) = false then
    (.symbols [],m)
  else
    m.lookup (nameKey name) (fun _ => true) fun g =>
      let (symbols,g) := g.findSymbolByName name
      (.symbols symbols,g)

def findSymbolByFQN (m : CachedManager) (fqn : String) : CachedValue × CachedManager :=
  m.lookup (fqnKey fqn) (fun _ => true) fun g =>
    let (symbol,g) := g.findSymbolByFQN fqn
    (.ofSymbol symbol,g)

/-- The manager's `addSymbol`, with its bookkeeping: what was not known by its id before is cached
under the manager's own key, and what may depend on its name is taken out. -/
def addSymbol (test : String → String → Bool) (m : CachedManager) (symbol : Ref) (fileUri : String)
    (symbolTable : Option TableRef) : CachedManager :=
  let properUri := createFileUri fileUri
  let g := m.graph
  let g := { g with heap := g.heap.put symbol (synchronizeWithKey properUri (g.heap symbol)) }
  let g := g.qualify symbol
  let symbolId := ownKey (g.heap symbol) fileUri
  let (existingSymbolById,g) := g.getSymbol (unifiedIdOf (g.heap symbol))
  let (t,g) := match symbolTable with
    | some t => (t,g)
    | none => g.tableForFile properUri
  let g := (g.fileSymbol t symbol).addSymbol symbol properUri (some t)
  let normalizedName := toLowerCase (g.heap symbol).name
  { m with
    graph := g
    unifiedCache :=
      if existingSymbolById.isSome then m.unifiedCache
      else (m.unifiedCache.set symbolId (.symbol symbol)).invalidate test
        ["symbol_name_" ++ normalizedName,normalizedName,"file_symbols_" ++ fileUri] }

/-- The patterns `addSymbolTable` ends with. The ones for the names are tried twice. -/
def tablePatterns (names : List String) (normalizedUri : String) : List String :=
  names.map nameKey ++ ["file_symbols_" ++ normalizedUri] ++ names.map nameKey ++ ["^refs_(to|from)_"]

def addSymbolTable (test : String → String → Bool) (m : CachedManager) (c : TableCall) : CachedManager :=
  let (registration,g) := m.register c
  let t := registration.canonicalTable
  let state := getSymbolTableStateSignature (g.table t)
  let unchanged := m.lastProcessedTableStateByFile.get? c.normalizedUri = some state
  let skips := registration.decision = .rejectedStale ∨ registration.decision = .noopSameInstance ∧ unchanged
  let cleared := g.clearReferenceStateForFile c.normalizedUri
  let names := SymbolGraph.symbolNamesAdded c.normalizedUri t cleared (g.table t).getAllSymbols
  { m with
    toSymbolManager := m.toSymbolManager.addSymbolTable c
    unifiedCache :=
      if skips then m.unifiedCache else m.unifiedCache.invalidate test (tablePatterns names c.normalizedUri) }

def removeFile (test : String → String → Bool) (m : CachedManager) (fileUri : String) : CachedManager :=
  let normalizedUri := extractFilePathFromUri (createFileUri fileUri)
  { m with
    graph := m.graph.removeFile normalizedUri
    unifiedCache := m.unifiedCache.invalidatePattern test normalizedUri
    lastProcessedTableStateByFile := m.lastProcessedTableStateByFile.erase normalizedUri }

def step (test : String → String → Bool) (m : CachedManager) : CachedStep → CachedManager
  | .addSymbol serial fileUri symbolTable => m.addSymbol test (.declared serial) fileUri symbolTable
  | .addSymbolTable c => m.addSymbolTable test c
  | .removeFile fileUri => m.removeFile test fileUri
  | .getSymbol symbolId => (m.getSymbol symbolId).2
  | .findSymbolByName name => (m.findSymbolByName name).2
  | .findSymbolByFQN fqn => (m.findSymbolByFQN fqn).2
  | .overReferences c only => { m with toSymbolManager := m.toSymbolManager.step (.overReferences c only) }
  | .processed t fileUri => { m with toSymbolManager := m.toSymbolManager.step (.processed t fileUri) }
  | .evict key => { m with unifiedCache := m.unifiedCache.delete key }

end CachedManager
end ApexLs.Symbols
