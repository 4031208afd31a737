import ApexLs.Collections.InvertedIndex
import ApexLs.Collections.Runs
import ApexLs.Types.Symbol
import ApexLs.Types.UriBasedIdGenerator
import ApexLs.Utils.CaseInsensitiveMap

/-! The reference edges. `refStore` holds each edge under a minted key; `forwardIndex` finds the
keys by the file an edge starts in, `reverseIndex` by the artifact-qualified symbol it ends
at. -/
namespace ApexLs.Symbols

open ApexLs.Utils ApexLs.Types ApexLs.Collections

inductive ReferenceType where
  | methodCall | fieldAccess | typeReference | inheritance | interfaceImplementation
  | constructorCall | staticAccess | instanceAccess | importReference | namespaceReference
  | annotationReference | triggerReference | testMethodReference | webserviceReference
  | remoteActionReference | propertyAccess | enumReference | triggerContextReference
  | soqlReference | soslReference | dmlReference | apexPageReference | componentReference
  | customMetadataReference | externalServiceReference
  deriving DecidableEq, Repr, Inhabited

/-- The context of an edge. A parameter index beyond sixteen bits is refused by the code. -/
structure ReferenceContext where
  methodName : Option String := none
  parameterIndex : Option (Fin 65536) := none
  isStatic : Option Bool := none
  namespace_ : Option String := none
  argumentCount : Option Nat := none
  argumentTypes : Option (List String) := none
  deriving DecidableEq, Repr, Inhabited

structure RefStoreEntry where
  sourceFileUri : String
  sourceSymbolId : String
  targetFileUri : String
  targetSymbolId : String
  referenceType : ReferenceType
  location : SymbolLocation
  context : Option ReferenceContext := none
  deriving DecidableEq, Repr, Inhabited

def makeInternalKey (a b : String) : String := a ++ separator ++ b

def makeSourceCounterKey (sourceFileUri sourceSymbolId : String) : String :=
  makeInternalKey sourceFileUri sourceSymbolId

def makeRefKey (sourceFileUri sourceSymbolId : String) (refIndex : Nat) : String :=
  makeInternalKey (makeInternalKey sourceFileUri sourceSymbolId) (toString refIndex)

def makeQualifiedSymbolKey (fileUri symbolId : String) : String :=
  makeInternalKey (extractFilePathFromUri fileUri) symbolId

namespace RefStoreEntry

def targetIndexKey (e : RefStoreEntry) : String := makeQualifiedSymbolKey e.targetFileUri e.targetSymbolId

def SameReference (e e' : RefStoreEntry) : Prop :=
  e.sourceSymbolId = e'.sourceSymbolId ∧ e.targetSymbolId = e'.targetSymbolId ∧
    e.referenceType = e'.referenceType ∧
    e.location.identifierRange.startLine = e'.location.identifierRange.startLine ∧
    e.location.identifierRange.startColumn = e'.location.identifierRange.startColumn

instance (e e' : RefStoreEntry) : Decidable (SameReference e e') := by
  unfold SameReference
  infer_instance

theorem SameReference.symm (same : SameReference e e') : SameReference e' e :=
  ⟨same.1.symm,same.2.1.symm,same.2.2.1.symm,same.2.2.2.1.symm,same.2.2.2.2.symm⟩

theorem SameReference.trans (first : SameReference e e') (second : SameReference e' e'') : SameReference e e'' :=
  ⟨first.1.trans second.1,first.2.1.trans second.2.1,first.2.2.1.trans second.2.2.1,
    first.2.2.2.1.trans second.2.2.2.1,first.2.2.2.2.trans second.2.2.2.2⟩

end RefStoreEntry

structure ReferenceIndexes [Runtime] where
  refStore : CaseInsensitiveMap RefStoreEntry := .empty
  forwardIndex : CaseInsensitiveMap (OrderedSet String) := .empty
  reverseIndex : CaseInsensitiveMap (OrderedSet String) := .empty
  refIndexCounters : CaseInsensitiveMap Nat := .empty

namespace ReferenceIndexes

variable [Runtime]

instance : Inhabited ReferenceIndexes := ⟨{}⟩

def counter (g : ReferenceIndexes) (sourceFileUri sourceSymbolId : String) : Nat :=
  (g.refIndexCounters.get (makeSourceCounterKey sourceFileUri sourceSymbolId)).getD 0

def generateRefKey (g : ReferenceIndexes) (sourceFileUri sourceSymbolId : String) : String × ReferenceIndexes :=
  let currentIndex := g.counter sourceFileUri sourceSymbolId
  let counterKey := makeSourceCounterKey sourceFileUri sourceSymbolId
  (makeRefKey sourceFileUri sourceSymbolId currentIndex,
    { g with refIndexCounters := g.refIndexCounters.set counterKey (currentIndex + 1) })

def hasDuplicate (g : ReferenceIndexes) (entry : RefStoreEntry) : Bool :=
  ((g.reverseIndex.get entry.targetIndexKey).elim [] OrderedSet.elements).any
    (fun refKey => (g.refStore.get refKey).any (fun e => e.SameReference entry))

/-- Create the set under `key` where there is none, and add the item. -/
def addToSet (index : CaseInsensitiveMap (OrderedSet String)) (key refKey : String) :
    CaseInsensitiveMap (OrderedSet String) :=
  index.set key (((index.get key).getD .empty).add refKey)

def addReferenceToIndexes (g : ReferenceIndexes) (entry : RefStoreEntry) : Bool × ReferenceIndexes :=
  if g.hasDuplicate entry then (false,g)
  else
    let (refKey,g) := g.generateRefKey entry.sourceFileUri entry.sourceSymbolId
    (true,{ g with
      reverseIndex := addToSet g.reverseIndex entry.targetIndexKey refKey
      forwardIndex := addToSet g.forwardIndex entry.sourceFileUri refKey
      refStore := g.refStore.set refKey entry })

/-- The context as `createAndAddReference` stores it: a zero parameter index is dropped. -/
def storedContext (context : ReferenceContext) : ReferenceContext :=
  { context with parameterIndex := context.parameterIndex.filter (· ≠ 0) }

def createAndAddReference (g : ReferenceIndexes) (sourceFileUri sourceSymbolId targetFileUri targetSymbolId : String)
    (referenceType : ReferenceType) (location : SymbolLocation) (context : Option ReferenceContext) :
    Bool × ReferenceIndexes :=
  g.addReferenceToIndexes
    { sourceFileUri := sourceFileUri
      sourceSymbolId := sourceSymbolId
      targetFileUri := targetFileUri
      targetSymbolId := targetSymbolId
      referenceType := referenceType
      location := location
      context := context.map storedContext }

/-- Take a key out of the set under `key`; an empty set is deleted. -/
def removeFromSet (index : CaseInsensitiveMap (OrderedSet String)) (key refKey : String) :
    CaseInsensitiveMap (OrderedSet String) :=
  match index.get key with
  | none => index
  | some s => if (s.delete refKey).size = 0 then index.delete key else index.set key (s.delete refKey)

def removeReferenceKey (g : ReferenceIndexes) (refKey : String) : ReferenceIndexes :=
  match g.refStore.get refKey with
  | none => g
  | some entry =>
    { g with
      reverseIndex := removeFromSet g.reverseIndex entry.targetIndexKey refKey
      forwardIndex := removeFromSet g.forwardIndex entry.sourceFileUri refKey
      refStore := g.refStore.delete refKey }

def removeReferenceKeys (g : ReferenceIndexes) (refKeys : List String) : ReferenceIndexes :=
  refKeys.foldl removeReferenceKey g

def removeReferencesFromFile (g : ReferenceIndexes) (fileUri : String) : ReferenceIndexes :=
  g.removeReferenceKeys ((g.forwardIndex.get fileUri).elim [] OrderedSet.elements)

def removeIncomingReferences (normalizedFileUri : String) (g : ReferenceIndexes) (symbolId : String) :
    ReferenceIndexes :=
  g.removeReferenceKeys
    ((g.reverseIndex.get (makeQualifiedSymbolKey normalizedFileUri symbolId)).elim [] OrderedSet.elements)

def removeIncomingReferencesToSymbols (g : ReferenceIndexes) (symbolIds : List String) (fileUri : String) :
    ReferenceIndexes :=
  symbolIds.foldl (removeIncomingReferences (extractFilePathFromUri fileUri)) g

end ReferenceIndexes
end ApexLs.Symbols
