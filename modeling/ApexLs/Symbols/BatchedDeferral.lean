import ApexLs.Collections.Runs
import ApexLs.Symbols.SymbolGraph

/-! The deferred references of one target name, processed by queued batch tasks. A task names its references by their
positions in the list; it copies them when it starts, and when it ends it writes back what its own list has besides. Lists
are objects: a reference that is added is pushed onto one, for all that hold it. -/
namespace ApexLs.Symbols

open ApexLs.Collections ApexLs.Types

structure DeferredItem where
  object : Nat
  reference : DeferredReference
  deriving DecidableEq

structure ReferenceEdge where
  type : ReferenceType
  sourceFileUri : String
  targetFileUri : String
  context : Option ReferenceContext

structure PendingDeferredReference where
  targetSymbolName : String
  targetFileUri : Option String
  referenceType : ReferenceType
  location : SymbolLocation
  context : Option ReferenceContext

structure DeferredService where
  heap : Heap
  findSymbolByName : String → List Ref
  getSymbolId : ApexSymbol → String → String
  addEdge : String → String → ReferenceEdge → Bool
  deferredBatchSize : Nat

inductive Handling where
  | edge (sourceId targetId : String) (edge : ReferenceEdge)
  | pending (sourceName : String) (reference : PendingDeferredReference)
  | failed

def Handling.isTurned : Handling → Bool
  | edge .. | pending .. => true
  | failed => false

structure Handled where
  task : Nat
  item : DeferredItem
  handling : Handling

/-- Where a batch task stands. A running one has the list that it read and its copy of its references. -/
inductive BatchTask where
  | waiting
  | running (list : Nat) (batch : List DeferredItem)
  | done (processed failed : Nat)

/-- The lists by their numbers; the list in the `Ref`, and the one in the manager's own map. -/
structure Deferral where
  symbolName : String
  queued : List DeferredItem
  lists : List (List DeferredItem)
  current : Option Nat
  own : Option Nat
  made : Nat
  queueing : Bool
  tasks : List BatchTask := []
  handled : List Handled := []
  added : List DeferredItem := []

namespace DeferredService

def batchSize (service : DeferredService) : Nat := if service.deferredBatchSize = 0 then 10 else service.deferredBatchSize

/-- The source of a reference among the symbols of its name. A missing file is taken from the first of them. -/
def sourceInGraph (service : DeferredService) (reference : DeferredReference) : Option Ref :=
  let source := service.heap reference.sourceSymbol
  let sourceSymbols := service.findSymbolByName source.name
  let fileUri := if source.fileUri ≠ "" then source.fileUri
    else (sourceSymbols.head?.map fun s => (service.heap s).fileUri).getD ""
  if fileUri ≠ "" then sourceSymbols.find? fun s => (service.heap s).fileUri = fileUri else sourceSymbols.head?

def selectDeferredTargetSymbol (service : DeferredService) (candidates : List Ref) (preferredFileUri : Option String) :
    Option Ref :=
  let preferred := (preferredFileUri.filter (· ≠ "")).bind fun uri =>
    candidates.find? fun s => (service.heap s).fileUri = uri
  preferred.or candidates.head?

/-- `parameterIndex ? toUint16(parameterIndex) : undefined`, and the other fields that an edge takes. -/
def edgeContext (context : ReferenceContext) : ReferenceContext where
  methodName := context.methodName
  parameterIndex := context.parameterIndex.filter (·.val ≠ 0)
  isStatic := context.isStatic
  namespace_ := context.namespace_

def handle (service : DeferredService) (symbolName : String) (target : Ref) (reference : DeferredReference) : Handling :=
  match service.sourceInGraph reference with
  | none => .pending (service.heap reference.sourceSymbol).name
      ⟨symbolName,reference.targetFileUri,reference.referenceType,reference.location,reference.context⟩
  | some source =>
    let s := service.heap source
    let t := service.heap target
    let sourceId := service.getSymbolId s s.fileUri
    let targetId := service.getSymbolId t t.fileUri
    let edge : ReferenceEdge := ⟨reference.referenceType,s.fileUri,t.fileUri,reference.context.map edgeContext⟩
    if service.addEdge sourceId targetId edge then .edge sourceId targetId edge else .failed

end DeferredService

namespace Deferral

def list (s : Deferral) (a : Nat) : List DeferredItem := s.lists.getD a []

def listed (s : Deferral) : List DeferredItem := (s.current.map s.list).getD []

/-- The references become objects, in one list that both maps hold. -/
def called (symbolName : String) (references : List DeferredReference) : Deferral :=
  let queued := references.mapIdx fun i reference => ⟨i,reference⟩
  { symbolName := symbolName
    queued := queued
    lists := [queued]
    current := some 0
    own := some 0
    made := references.length
    queueing := !references.isEmpty }

section
variable (service : DeferredService)

def startIndex (i : Nat) : Nat := i * service.batchSize

def endIndex (s : Deferral) (i : Nat) : Nat := min (startIndex service i + service.batchSize) s.queued.length

def numBatches (s : Deferral) : Nat := (s.queued.length + service.batchSize - 1) / service.batchSize

/-- `slice(startIndex, endIndex)` -/
def slice (s : Deferral) (i : Nat) (items : List DeferredItem) : List DeferredItem :=
  (items.drop (startIndex service i)).take (s.endIndex service i - startIndex service i)

def besides (s : Deferral) (i : Nat) (items : List DeferredItem) : List DeferredItem :=
  items.take (startIndex service i) ++ items.drop (s.endIndex service i)

def offer (s : Deferral) : Deferral :=
  if s.queueing ∧ s.tasks.length < s.numBatches service then { s with tasks := s.tasks ++ [.waiting] } else s

def clear (s : Deferral) : Deferral :=
  if s.queueing ∧ s.tasks.length = s.numBatches service then { s with current := none,queueing := false } else s

def start (s : Deferral) (i : Nat) : Deferral :=
  match s.tasks[i]? with
  | some .waiting =>
    match s.current with
    | none => { s with tasks := s.tasks.set i (.done 0 0) }
    | some a =>
      if (service.findSymbolByName s.symbolName).isEmpty then
        { s with tasks := s.tasks.set i (.done 0 (s.endIndex service i - startIndex service i)) }
      else { s with tasks := s.tasks.set i (.running a (s.slice service i (s.list a))) }
  | _ => s

/-- The target that was picked for a reference; one exists where the loop is entered. -/
def target (s : Deferral) (item : DeferredItem) : Handling :=
  match service.selectDeferredTargetSymbol (service.findSymbolByName s.symbolName) item.reference.targetFileUri with
  | some target => service.handle s.symbolName target item.reference
  | none => .failed

def finish (s : Deferral) (i : Nat) : Deferral :=
  match s.tasks[i]? with
  | some (.running a batch) =>
    let results := batch.map fun item => (⟨i,item,s.target service item⟩ : Handled)
    let remaining := s.besides service i (s.list a)
    { s with
      tasks := s.tasks.set i (.done (results.countP (·.handling.isTurned)) (results.countP (!·.handling.isTurned)))
      handled := s.handled ++ results
      lists := if remaining.isEmpty then s.lists else s.lists ++ [remaining]
      current := if remaining.isEmpty then none else some s.lists.length }
  | _ => s

/-- `addDeferredReference`: a push onto the list in the manager's own map, which then is the map in the `Ref`. -/
def add (s : Deferral) (reference : DeferredReference) : Deferral :=
  if (service.heap reference.sourceSymbol).fileUri = "" then s
  else
    let item : DeferredItem := ⟨s.made,reference⟩
    let s := { s with made := s.made + 1,added := s.added ++ [item] }
    match s.own with
    | some a => { s with lists := s.lists.modify a (· ++ [item]),current := some a }
    | none => { s with lists := s.lists ++ [[item]],own := some s.lists.length,current := some s.lists.length }

inductive BatchEvent where
  | offer
  | clear
  | start (i : Nat)
  | finish (i : Nat)
  | add (reference : DeferredReference)
  | sync

def step (s : Deferral) : BatchEvent → Deferral
  | .offer => s.offer service
  | .clear => s.clear service
  | .start i => s.start service i
  | .finish i => s.finish service i
  | .add reference => s.add service reference
  | .sync => { s with own := s.current }

end

def Turned (s : Deferral) (item : DeferredItem) : Prop :=
  ∃ h ∈ s.handled, h.item = item ∧ h.handling.isTurned = true

def Complete (s : Deferral) : Prop :=
  s.queueing = false ∧ ∀ task ∈ s.tasks, ∃ processed failed, task = .done processed failed

/-- The tasks so far cover the list: no reference is processed twice, one that is off the list became an edge or is
pending, and one that was added is on it. -/
structure Covered (s : Deferral) : Prop where
  once : ∀ item ∈ s.queued, (s.handled.map Handled.item).count item ≤ 1
  turned : ∀ item ∈ s.queued, item ∉ s.listed → s.Turned item
  kept : ∀ item ∈ s.added, item ∈ s.listed

/-- A task that starts finds the target, and its references at its positions. Where the list is replaced, all that is on it
and has not been turned is on the list that replaces it too. -/
def Orderly (service : DeferredService) (s : Deferral) : BatchEvent → Prop
  | .start i => s.tasks[i]? = some .waiting → service.findSymbolByName s.symbolName ≠ [] ∧
      s.slice service i s.listed = s.slice service i s.queued
  | .finish i => ∀ a batch, s.tasks[i]? = some (.running a batch) → ∀ item ∈ s.listed, item ∈ s.list a ∨ s.Turned item
  | .clear => s.queueing = true → s.tasks.length = s.numBatches service → ∀ item ∈ s.listed, s.Turned item
  | .add reference => (service.heap reference.sourceSymbol).fileUri ≠ "" →
      ∀ item ∈ s.listed, item ∈ (s.own.map s.list).getD [] ∨ s.Turned item
  | .offer | .sync => True

end Deferral
end ApexLs.Symbols
