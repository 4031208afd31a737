import ApexLs.Collections.OrderedMap
import ApexLs.Types.Symbol
import ApexLs.Types.UriBasedIdGenerator

/-! The symbol table of one file. `addSymbol` is called by several listener passes over the
same declarations: a later pass enriches what an earlier one filed, and what cannot be the
same declaration is filed beside it as a duplicate. -/
namespace ApexLs.Types

open ApexLs.Utils ApexLs.Collections

def SymbolKind.text : SymbolKind → String
  | .class_ => "class"
  | .interface => "interface"
  | .trigger => "trigger"
  | .method => "method"
  | .constructor => "constructor"
  | .property => "property"
  | .field => "field"
  | .variable => "variable"
  | .parameter => "parameter"
  | .enum => "enum"
  | .enumValue => "enumValue"
  | .block => "block"
  | .sobject => "sobject"

/-- What `symbolMap` holds under an id: one symbol, or the array of its duplicates. -/
inductive Bucket where
  | single (symbol : Ref)
  | many (symbols : List Ref)
  deriving DecidableEq, Repr

namespace Bucket

def symbols : Bucket → List Ref
  | .single s => [s]
  | .many l => l

def first? (b : Bucket) : Option Ref := b.symbols.head?

end Bucket

structure SymbolReference where
  name : String
  location : SymbolLocation
  operatorRange : Option Range := none
  deriving DecidableEq, Repr, Inhabited

structure HierarchicalReference where
  name : String
  location : SymbolLocation
  deriving DecidableEq, Repr, Inhabited

inductive ParseCompleteness where
  | complete | incomplete | unknown
  deriving DecidableEq, Repr, Inhabited

structure SymbolTableMetadata where
  fileUri : String := "unknown"
  documentVersion : Int := 1
  hasErrors : Option Bool := none
  parseCompleteness : ParseCompleteness := .unknown
  deriving DecidableEq, Repr, Inhabited

structure SymbolTable where
  root : Option Ref := none
  symbolMap : OrderedMap String Bucket := .empty
  references : List SymbolReference := []
  referencesByEndPosition : OrderedMap String (List SymbolReference) := .empty
  memberAccessByOperatorStart : OrderedMap String SymbolReference := .empty
  hierarchicalReferences : List HierarchicalReference := []
  symbolArray : List Ref := []
  fileUri : String := "unknown"
  metadata : SymbolTableMetadata := {}

def generateUnifiedId [Runtime] (key : SymbolKey) (fileUri : String) : String :=
  let validFileUri := if fileUri = "" then orElse key.fileUri "unknown" else fileUri
  generateSymbolId key.name validFileUri key.path key.keyPrefix

def getUnifiedId [Runtime] (key : SymbolKey) (fileUri : String) : String :=
  if truthy key.unifiedId then key.unifiedId.getD "" else generateUnifiedId key fileUri

def createFromSymbol [Runtime] (symbol : ApexSymbol) : SymbolKey :=
  let key : SymbolKey :=
    { keyPrefix := if symbol.key.keyPrefix = "" then symbol.kind.text else symbol.key.keyPrefix
      name := if symbol.name = "" then symbol.key.name else symbol.name
      path := symbol.key.path
      kind := some symbol.kind
      fqn := symbol.fqn
      fileUri := some symbol.fileUri }
  { key with unifiedId := some (generateUnifiedId key symbol.fileUri) }

def createFullSymbol [Runtime] (name : String) (kind : SymbolKind) (location : SymbolLocation) (fileUri : String)
    (modifiers : SymbolModifiers) (parentId : ParentId) (fqn namespace_ : Option String := none)
    (annotations : Option (List Annotation) := none) (scopePath : List String := []) : ApexSymbol :=
  let id := generateSymbolId name fileUri scopePath kind.text
  { id := id
    name := name
    kind := kind
    location := location
    fileUri := fileUri
    parentId := parentId
    key := { keyPrefix := kind.text,name := name,path := [fileUri,name],unifiedId := some id,
             fileUri := some fileUri,fqn := fqn,kind := some kind }
    fqn := fqn
    namespace_ := if truthy namespace_ then namespace_ else none
    annotations := annotations
    modifiers := modifiers }

/-- `createFullSymbolWithNamespace` for a symbol without a namespace: the signature takes part
in the id, the kind only for blocks and variables. -/
def createFullSymbolWithNamespace [Runtime] (name : String) (kind : SymbolKind) (location : SymbolLocation)
    (fileUri : String) (modifiers : SymbolModifiers) (parentId : ParentId)
    (parameters : List ParameterInfo := []) (annotations : Option (List Annotation) := none)
    (scopePath : List String := []) : ApexSymbol :=
  let kindPrefix := if kind = .block || kind = .variable then kind.text else ""
  let id := generateSymbolId name fileUri scopePath kindPrefix parameters
  { id := id
    name := name
    kind := kind
    location := location
    fileUri := fileUri
    parentId := parentId
    key := { keyPrefix := kind.text,name := name,path := [fileUri,name],unifiedId := some id,
             fileUri := some fileUri,kind := some kind }
    annotations := annotations
    modifiers := modifiers }

def convertToParameterInfo (parameters : List ParameterSymbol) : List ParameterInfo :=
  parameters.map (fun p => ⟨orElse (p.type.map TypeInfo.name) "Object",some p.name⟩)

/-- `createMethodSymbol` of a listener pass that captures `detailLevel`, with its parameters
attached. -/
def createMethodSymbol [Runtime] (name : String) (location : SymbolLocation) (fileUri : String)
    (modifiers : SymbolModifiers) (parentId : ParentId) (returnType : TypeInfo)
    (parameters : List ParameterSymbol) (cleanScopePath : List String) (detailLevel : DetailLevel) :
    ApexSymbol :=
  { createFullSymbolWithNamespace name .method location fileUri modifiers parentId
      (convertToParameterInfo parameters) none cleanScopePath with
    returnType := some returnType
    parameters := some parameters
    detailLevel := some detailLevel }

/-- The key is the source of truth for the id and, where it names one, for the file. -/
def synchronizeKey [Runtime] (symbol : ApexSymbol) : ApexSymbol :=
  let key := if truthy symbol.key.unifiedId then symbol.key else createFromSymbol symbol
  { symbol with
    key := key
    id := key.unifiedId.getD ""
    fileUri := orElse key.fileUri symbol.fileUri }

/-- A symbol without a parent joins the current scope, or the file level outside any scope. -/
def adoptParent (currentScope : Option String) (symbol : ApexSymbol) : ApexSymbol :=
  match symbol.parentId,currentScope with
  | .undefined,none => { symbol with parentId := .null }
  | .undefined,some scope => { symbol with parentId := .of scope }
  | _,_ => symbol

def prepare [Runtime] (heap : Heap) (symbol : Ref) (currentScope : Option String) : Heap :=
  heap.put symbol (adoptParent currentScope (synchronizeKey (heap symbol)))

/-- `Object.assign(existing, {...symbol, id, key, parentId})`: what the new symbol has wins,
what only some kinds have and it lacks stays. -/
def assign (existing symbol : ApexSymbol) : ApexSymbol :=
  { symbol with
    id := existing.id
    key := existing.key
    parentId := existing.parentId
    superClass := symbol.superClass.or existing.superClass
    interfaces := symbol.interfaces.or existing.interfaces
    returnType := symbol.returnType.or existing.returnType
    parameters := symbol.parameters.or existing.parameters
    isConstructor := symbol.isConstructor.or existing.isConstructor
    hasBody := symbol.hasBody.or existing.hasBody
    type := symbol.type.or existing.type
    initialValue := symbol.initialValue.or existing.initialValue
    initializerType := symbol.initializerType.or existing.initializerType
    scopeType := symbol.scopeType.or existing.scopeType }

namespace SymbolTable

/-- `existingByParent`: the first listed symbol that an earlier pass may have made of the
same declaration under another key. -/
def existingByParent (heap : Heap) (t : SymbolTable) (symbol : Ref) : Option Ref :=
  t.symbolArray.find? (fun s =>
    (heap s).kind = (heap symbol).kind && (heap s).name = (heap symbol).name &&
    (heap s).parentId = (heap symbol).parentId && (heap s).fileUri = (heap symbol).fileUri &&
    (heap s).detailLevel.isSome && s ≠ symbol)

def fallsBack (symbol : ApexSymbol) : Bool :=
  symbol.detailLevel.isSome &&
    (symbol.kind = .class_ || symbol.kind = .method || symbol.kind = .constructor)

/-- The name-and-parent fallback, for the kinds whose key depends on the pass. -/
def fallback (heap : Heap) (t : SymbolTable) (symbol : Ref) : Option Ref :=
  if fallsBack (heap symbol) then t.existingByParent heap symbol else none

def lookupExisting [Runtime] (heap : Heap) (t : SymbolTable) (symbol : Ref) : String × Option Bucket :=
  let symbolKey := getUnifiedId (heap symbol).key (heap symbol).fileUri
  match t.symbolMap.get? symbolKey with
  | some bucket => (symbolKey,some bucket)
  | none =>
    match t.fallback heap symbol with
    | some e =>
      let effectiveKey := getUnifiedId (heap e).key (heap symbol).fileUri
      (effectiveKey,t.symbolMap.get? effectiveKey)
    | none => (symbolKey,none)

inductive Exit where
  | first
  | enrich (existing : Ref)
  | keepHigherLevel
  | keepTopLevelClass
  | keepSamePlace
  | sameObject
  | secondDuplicate (existing : Ref)
  | furtherDuplicate (duplicates : List Ref)
  deriving DecidableEq, Repr

def isTopLevelClass (symbol : ApexSymbol) : Bool := symbol.kind = .class_ && symbol.parentId = .null

def sameLocation (a b : ApexSymbol) : Bool :=
  a.location.symbolRange.startLine = b.location.symbolRange.startLine &&
    a.location.symbolRange.startColumn = b.location.symbolRange.startColumn

def exitAgainst (heap : Heap) (symbol e : Ref) : Exit :=
  if e = symbol then .sameObject
  else match (heap symbol).detailLevel,(heap e).detailLevel with
  | none,_ => .secondDuplicate e
  | some _,none => .enrich e
  | some newLevel,some existingLevel =>
    if newLevel.order > existingLevel.order then .enrich e
    else if newLevel.order < existingLevel.order then .keepHigherLevel
    else if isTopLevelClass (heap symbol) then .keepTopLevelClass
    else if sameLocation (heap e) (heap symbol) then .keepSamePlace
    else .secondDuplicate e

def exitOf (heap : Heap) (symbol : Ref) : Option Bucket → Exit
  | none => .first
  | some (.many duplicates) => .furtherDuplicate duplicates
  | some (.single e) => exitAgainst heap symbol e

/-- The root after `symbol` was filed: a symbol that left the file level gives it up, one at
the file level takes it, and a block never does. -/
def rootAfter (heap : Heap) (root : Option Ref) (symbol : Ref) (previousParentId : ParentId) : Option Ref :=
  let s := heap symbol
  if s.parentId = .null then (if s.isBlockSymbol then root else some symbol)
  else if previousParentId = .null ∧ root.map (fun r => (heap r).id) = some s.id then none
  else root

def updateRootsArray (heap : Heap) (t : SymbolTable) (symbol : Ref) (previousParentId : ParentId) :
    SymbolTable :=
  { t with root := rootAfter heap t.root symbol previousParentId }

def pushIfAbsent (l : List Ref) (r : Ref) : List Ref := if r ∈ l then l else l ++ [r]

/-- File under `key`, with every listed symbol of `symbols` in the flat array. -/
def file (t : SymbolTable) (key : String) (bucket : Bucket) (symbols : List Ref) : SymbolTable :=
  { t with
    symbolMap := t.symbolMap.set key bucket
    symbolArray := symbols.foldl pushIfAbsent t.symbolArray }

def refile (heap : Heap) (t : SymbolTable) (key : String) (e : Ref) : SymbolTable :=
  { t with
    symbolMap := t.symbolMap.set key (.single e)
    symbolArray := t.symbolArray.filter (fun s => (heap s).id ≠ (heap e).id) ++ [e] }

/-- `existingSymbol?.parentId`, before the exit is taken. -/
def previousParentId (heap : Heap) (existing : Option Bucket) : ParentId :=
  (existing.bind Bucket.first?).elim .undefined (fun e => (heap e).parentId)

/-- Take one exit. `symbolKey` is the symbol's own id, `effectiveKey` the key under which the
lookup found something. -/
def perform (heap : Heap) (t : SymbolTable) (symbol : Ref) (symbolKey effectiveKey : String)
    (previous : ParentId) : Exit → Heap × SymbolTable
  | .first => (heap,(t.file symbolKey (.single symbol) [symbol]).updateRootsArray heap symbol previous)
  | .enrich e =>
    let heap := heap.put e (assign (heap e) (heap symbol))
    (heap,(t.refile heap effectiveKey e).updateRootsArray heap e previous)
  | .furtherDuplicate duplicates =>
    -- the array is extended where it stands, under the key the lookup ended at
    let extended := pushIfAbsent duplicates symbol
    (heap,(t.file effectiveKey (.many extended) (symbol :: extended)).updateRootsArray heap symbol previous)
  | .secondDuplicate e =>
    -- the new array is stored under the symbol's own key
    (heap,(t.file symbolKey (.many [e,symbol]) [symbol,e]).updateRootsArray heap symbol previous)
  | .keepHigherLevel => (heap,t)
  | .keepTopLevelClass => (heap,t)
  | .keepSamePlace => (heap,t)
  | .sameObject => (heap,t)

def insertPrepared [Runtime] (heap : Heap) (t : SymbolTable) (symbol : Ref) : Heap × SymbolTable :=
  let symbolKey := getUnifiedId (heap symbol).key (heap symbol).fileUri
  let found := t.lookupExisting heap symbol
  t.perform heap symbol symbolKey found.1 (previousParentId heap found.2) (exitOf heap symbol found.2)

/-- `addSymbol`: the heap changes because the symbol is normalised and an existing one may be
enriched in place. -/
def addSymbol [Runtime] (heap : Heap) (t : SymbolTable) (symbol : Ref) (currentScope : Option String := none) :
    Heap × SymbolTable :=
  t.insertPrepared (prepare heap symbol currentScope) symbol

def getRoots (t : SymbolTable) : List Ref := t.root.toList

def getAllSymbols (t : SymbolTable) : List Ref := t.symbolArray

def getSymbolById (t : SymbolTable) (id : String) : Option Ref := (t.symbolMap.get? id).bind Bucket.first?

def getAllSymbolsById (t : SymbolTable) (id : String) : List Ref :=
  (t.symbolMap.get? id).elim [] Bucket.symbols

def positionKey (line column : Nat) : String := toString line ++ ":" ++ toString column

def indexReferenceSemanticContext (t : SymbolTable) (ref : SymbolReference) : SymbolTable :=
  match ref.operatorRange with
  | none => t
  | some operator =>
    { t with memberAccessByOperatorStart :=
        t.memberAccessByOperatorStart.set (positionKey operator.startLine operator.startColumn) ref }

def addTypeReference (t : SymbolTable) (ref : SymbolReference) : SymbolTable :=
  let range := ref.location.identifierRange
  let key := positionKey range.endLine range.endColumn
  let endingAtPosition := (t.referencesByEndPosition.get? key).getD []
  { t with
    references := t.references ++ [ref]
    referencesByEndPosition := t.referencesByEndPosition.set key (endingAtPosition ++ [ref])
    : SymbolTable }.indexReferenceSemanticContext ref

def addHierarchicalReference (t : SymbolTable) (ref : HierarchicalReference) : SymbolTable :=
  { t with hierarchicalReferences := t.hierarchicalReferences ++ [ref] }

def getReferencesEndingAtPosition (t : SymbolTable) (line character : Nat) : List SymbolReference :=
  (t.referencesByEndPosition.get? (positionKey line character)).getD []

def getReferenceByMemberAccessOperatorStart (t : SymbolTable) (line character : Nat) : Option SymbolReference :=
  t.memberAccessByOperatorStart.get? (positionKey line character)

def setFileUri (t : SymbolTable) (fileUri : String) : SymbolTable :=
  { t with fileUri := fileUri,metadata := { t.metadata with fileUri := fileUri } }

def getMetadata (t : SymbolTable) : SymbolTableMetadata := { t.metadata with fileUri := t.fileUri }

def setMetadata (t : SymbolTable) (metadata : SymbolTableMetadata) : SymbolTable :=
  { t with metadata := metadata,fileUri := metadata.fileUri }

end SymbolTable
end ApexLs.Types
