import ApexLs.Collections.InvertedIndex
import ApexLs.Collections.Runs
import ApexLs.Types.Symbol
import ApexLs.Utils.CaseInsensitiveMap

/-! The global registry of types: the entries by their full name, with an index by name, an index by file and counters
beside them. -/
namespace ApexLs.Services

open ApexLs.Collections ApexLs.Types ApexLs.Utils

structure TypeRegistryEntry where
  fqn : String
  name : String
  namespace_ : String
  kind : SymbolKind
  symbolId : String
  fileUri : String
  isStdlib : Bool
  deriving DecidableEq, Repr

structure TypeResolutionOptions where
  currentNamespace : Option String := none
  namespacePreference : Option (List String) := none
  deriving DecidableEq, Repr

structure RegistryCounters where
  totalTypes : Int := 0
  stdlibTypes : Int := 0
  userTypes : Int := 0
  lookupCount : Nat := 0
  hitCount : Nat := 0
  deriving DecidableEq, Repr

def RegistryCounters.count (stats : RegistryCounters) (entry : TypeRegistryEntry) (by_ : Int) : RegistryCounters :=
  { stats with
    totalTypes := stats.totalTypes + by_
    stdlibTypes := if entry.isStdlib then stats.stdlibTypes + by_ else stats.stdlibTypes
    userTypes := if entry.isStdlib then stats.userTypes else stats.userTypes + by_ }

def getRegistryNamespacePreference : List String := ["System","Database"]

structure GlobalTypeRegistry [Runtime] where
  fqnIndex : CaseInsensitiveMap TypeRegistryEntry := .empty
  nameIndex : CaseInsensitiveMap (List String) := .empty
  fileIndex : OrderedMap String (OrderedSet String) := .empty
  stats : RegistryCounters := {}

namespace GlobalTypeRegistry

variable [Runtime]

def namesOf (r : GlobalTypeRegistry) (name : String) : List String := (r.nameIndex.get name).getD []

def current (r : GlobalTypeRegistry) : List TypeRegistryEntry := r.fqnIndex.entries.entries.map (·.2.2)

/-- Whatever is registered under the name, the entry is written, listed and counted. -/
def registerType (r : GlobalTypeRegistry) (entry : TypeRegistryEntry) : GlobalTypeRegistry :=
  let normalizedFqn := toLowerCase entry.fqn
  let existingFqns := r.namesOf entry.name
  { fqnIndex := r.fqnIndex.set normalizedFqn entry
    nameIndex :=
      if normalizedFqn ∈ existingFqns then r.nameIndex
      else r.nameIndex.set entry.name (existingFqns ++ [normalizedFqn])
    fileIndex := r.fileIndex.set entry.fileUri (((r.fileIndex.get? entry.fileUri).getD .empty).add normalizedFqn)
    stats := r.stats.count entry 1 }

def registerTypes (r : GlobalTypeRegistry) (entries : List TypeRegistryEntry) : GlobalTypeRegistry :=
  run registerType r entries

def unregisterType (r : GlobalTypeRegistry) (fqn : String) : GlobalTypeRegistry :=
  let normalizedFqn := toLowerCase fqn
  match r.fqnIndex.get normalizedFqn with
  | none => r
  | some entry =>
    let filtered := (r.namesOf entry.name).filter (· ≠ normalizedFqn)
    { fqnIndex := r.fqnIndex.delete normalizedFqn
      nameIndex :=
        if filtered.length > 0 then r.nameIndex.set entry.name filtered else r.nameIndex.delete entry.name
      fileIndex :=
        match (r.fileIndex.get? entry.fileUri).bind (dropItem normalizedFqn) with
        | none => r.fileIndex.erase entry.fileUri
        | some fqns => r.fileIndex.set entry.fileUri fqns
      stats := r.stats.count entry (-1) }

def takeOut (taken : List TypeRegistryEntry × GlobalTypeRegistry) (fqn : String) :
    List TypeRegistryEntry × GlobalTypeRegistry :=
  match taken.2.fqnIndex.get fqn with
  | none => taken
  | some entry => (taken.1 ++ [entry],taken.2.unregisterType fqn)

def unregisterByFileUri (r : GlobalTypeRegistry) (fileUri : String) : List TypeRegistryEntry × GlobalTypeRegistry :=
  match r.fileIndex.get? fileUri with
  | none => ([],r)
  | some fqns => fqns.elements.foldl takeOut ([],r)

/-- The entry of a name among the candidates: the first namespace of the order that has one decides. -/
def preferred (r : GlobalTypeRegistry) (name : String) (candidateFqns : List String) (priorityNamespaces : List String) :
    Option TypeRegistryEntry :=
  match (priorityNamespaces.map fun ns => toLowerCase ns ++ "." ++ toLowerCase name).find? (· ∈ candidateFqns) with
  | some qualifiedName => r.fqnIndex.get qualifiedName
  | none => candidateFqns.head?.bind r.fqnIndex.get

def resolved (r : GlobalTypeRegistry) (name : String) (options : TypeResolutionOptions) : Option TypeRegistryEntry :=
  if '.' ∈ name.toList then r.fqnIndex.get (toLowerCase name)
  else
    let candidateFqns := r.namesOf name
    match candidateFqns with
    | [] => none
    | [fqn] => r.fqnIndex.get fqn
    | _ =>
      let namespacePreference := options.namespacePreference.getD getRegistryNamespacePreference
      let priorityNamespaces := match options.currentNamespace.filter (· ≠ "") with
        | some currentNamespace => currentNamespace :: namespacePreference
        | none => namespacePreference
      r.preferred name candidateFqns priorityNamespaces

def resolveType (r : GlobalTypeRegistry) (name : String) (options : TypeResolutionOptions := {}) :
    Option TypeRegistryEntry × GlobalTypeRegistry :=
  let entry := r.resolved name options
  (entry,{ r with stats := { r.stats with
    lookupCount := r.stats.lookupCount + 1
    hitCount := if entry.isSome then r.stats.hitCount + 1 else r.stats.hitCount } })

inductive RegistryEvent where
  | registerType (entry : TypeRegistryEntry)
  | registerTypes (entries : List TypeRegistryEntry)
  | unregisterType (fqn : String)
  | unregisterByFileUri (fileUri : String)
  | resolveType (name : String) (options : TypeResolutionOptions)
  | clear

def start : GlobalTypeRegistry := {}

def step (r : GlobalTypeRegistry) : RegistryEvent → GlobalTypeRegistry
  | .registerType entry => r.registerType entry
  | .registerTypes entries => r.registerTypes entries
  | .unregisterType fqn => r.unregisterType fqn
  | .unregisterByFileUri fileUri => (r.unregisterByFileUri fileUri).2
  | .resolveType name options => (r.resolveType name options).2
  | .clear => start

end GlobalTypeRegistry
end ApexLs.Services
