import ApexLs.Collections.Runs
import ApexLs.Symbols.DeferredDrain
import ApexLs.Symbols.ReferenceCoherence

/-! Runs of the graph. Whatever the order of the calls, the three reference indexes describe
one set of edges. -/
namespace ApexLs.Symbols

open ApexLs.Utils ApexLs.Types ApexLs.Collections

inductive GraphCall where
  | addSymbol (symbol : Ref) (fileUri : String) (symbolTable : Option TableRef)
  | registerSymbolTable (symbolTable : TableRef) (fileUri : String) (options : RegistrationOptions)
  | addReference (source target : Ref) (referenceType : ReferenceType) (location : SymbolLocation)
      (context : Option ReferenceContext)
  | enqueueDeferredReference (source : Ref) (targetSymbolName : String) (referenceType : ReferenceType)
      (location : SymbolLocation) (context : Option ReferenceContext) (targetFileUri : Option String)
  | clearReferenceStateForFile (fileUri : String)
  | evictStaleFileDeclarations (fileUri : String) (liveSymbolIds : List String)
  | removeFile (fileUri : String)
  | drainAllDeferredReferences
  | processDeferredReferencesBatch (symbolName : String) (deferredBatchSize : Nat)
  | getSymbol (symbolId : String)
  | findSymbolByName (name : String)
  | clear
  deriving DecidableEq, Repr

namespace SymbolGraph

variable [Runtime]

def call (g : SymbolGraph) : GraphCall → SymbolGraph
  | .addSymbol symbol fileUri symbolTable => g.addSymbol symbol fileUri symbolTable
  | .registerSymbolTable symbolTable fileUri options => (g.registerSymbolTable symbolTable fileUri options).2
  | .addReference source target referenceType location context =>
    g.addReference source target referenceType location context
  | .enqueueDeferredReference source targetSymbolName referenceType location context targetFileUri =>
    g.enqueueDeferredReference source targetSymbolName referenceType location context targetFileUri
  | .clearReferenceStateForFile fileUri => g.clearReferenceStateForFile fileUri
  | .evictStaleFileDeclarations fileUri liveSymbolIds => g.evictStaleFileDeclarations fileUri liveSymbolIds
  | .removeFile fileUri => g.removeFile fileUri
  | .drainAllDeferredReferences => g.drainAllDeferredReferencesSync.2
  | .processDeferredReferencesBatch symbolName deferredBatchSize =>
    (g.processDeferredReferencesBatch symbolName deferredBatchSize).2
  | .getSymbol symbolId => (g.getSymbol symbolId).2
  | .findSymbolByName name => (g.findSymbolByName name).2
  | .clear => g.clear

/-- The graph after some calls on an empty one, over the objects the parser made. -/
def reached (heap : Heap) (tables : TableRef → SymbolTable) (calls : List GraphCall) : SymbolGraph :=
  run call { heap := heap,tables := tables } calls

@[simp] theorem registerSymbolTable_refs (g : SymbolGraph) (t : TableRef) (fileUri : String)
    (options : RegistrationOptions) : (g.registerSymbolTable t fileUri options).2.refs = g.refs := by
  unfold registerSymbolTable
  simp only
  split
  next => rfl
  next =>
    split
    next => rfl
    next =>
      split
      next => rfl
      next => rfl

@[simp] theorem ensureSymbolTableForFile_refs (g : SymbolGraph) (fileUri : String) :
    (g.ensureSymbolTableForFile fileUri).refs = g.refs := by
  simp only [ensureSymbolTableForFile]
  split
  next => rfl
  next => rfl

@[simp] theorem addSymbol_refs (g : SymbolGraph) (symbol : Ref) (fileUri : String) (t : Option TableRef) :
    (g.addSymbol symbol fileUri t).refs = g.refs := by
  simp only [addSymbol]
  cases t with
  | none =>
    split
    next => simp
    next => simp [indexSymbol,addToTable,setTable]
  | some t =>
    split
    next => simp
    next => simp [indexSymbol,addToTable,setTable]

@[simp] theorem addDeferredReference_refs (g : SymbolGraph) (name : String) (deferred : DeferredReference) :
    (g.addDeferredReference name deferred).refs = g.refs := by
  unfold addDeferredReference
  split
  next => rfl
  next => rfl

@[simp] theorem enqueueDeferredReference_refs (g : SymbolGraph) (source : Ref) (name : String)
    (referenceType : ReferenceType) (location : SymbolLocation) (context : Option ReferenceContext)
    (targetFileUri : Option String) :
    (g.enqueueDeferredReference source name referenceType location context targetFileUri).refs = g.refs := by
  simp only [enqueueDeferredReference]
  split
  next => rfl
  next =>
    split
    next => rfl
    next => simp [normalizeSource]

@[simp] theorem foldl_forgetSymbol_refs (normalizedUri : String) (g : SymbolGraph) (symbolIds : List String) :
    (symbolIds.foldl (forgetSymbol normalizedUri) g).refs = g.refs := by
  induction symbolIds generalizing g with
  | nil => rfl
  | cons symbolId rest ih => exact ih (forgetSymbol normalizedUri g symbolId)

section

variable (g : SymbolGraph)
include g

@[simp] theorem removeFile_refs (fileUri : String) :
    (g.removeFile fileUri).refs =
      (g.refs.removeReferencesFromFile (extractFilePathFromUri fileUri)).removeIncomingReferencesToSymbols
        ((g.fileIndex.get (extractFilePathFromUri fileUri)).getD []) (extractFilePathFromUri fileUri) := by
  simp [removeFile,syncTotals]

theorem addReferenceToGraph_refs (source target : Ref) (targetSymbolId : String)
    (referenceType : ReferenceType) (location : SymbolLocation) (context : Option ReferenceContext) :
    ∃ asked, (g.addReferenceToGraph source target targetSymbolId referenceType location context).refs =
      g.refs.addAll asked := by
  simp only [addReferenceToGraph]
  split
  next => exact ⟨[],rfl⟩
  next =>
    obtain ⟨g',looked,after⟩ := findSymbolInFileByName_spec g (extractFilePathFromUri (g.heap source).fileUri)
      (g.heap source).name
    simp only [looked]
    cases g.firstNamed (extractFilePathFromUri (g.heap source).fileUri) (g.heap source).name with
    | none => exact ⟨[],after.refs⟩
    | some s =>
      rw [← after.refs]
      exact ⟨[_],rfl⟩

@[simp] theorem addVirtualSymbol_refs (target : Ref) (virtualSymbolId : String) :
    (g.addVirtualSymbol target virtualSymbolId).refs = g.refs := rfl

theorem createVirtualSymbol_refs (target source : Ref) (referenceType : ReferenceType)
    (location : SymbolLocation) (context : Option ReferenceContext) :
    ∃ asked, (g.createVirtualSymbolForStdlibScalarKeyword target source referenceType location context).refs =
      g.refs.addAll asked := by
  simp only [createVirtualSymbolForStdlibScalarKeyword]
  split
  next => exact addReferenceToGraph_refs g source target _ referenceType location context
  next => exact addReferenceToGraph_refs (g.addVirtualSymbol target _) source target _ referenceType location context

theorem issueReference_refs (source target : Ref) (referenceType : ReferenceType)
    (location : SymbolLocation) (context : Option ReferenceContext) :
    ∃ asked, (g.issueReference source target referenceType location context).refs = g.refs.addAll asked := by
  obtain ⟨g₁,foundSource,first⟩ := findInGraph_spec g (g.heap source)
  obtain ⟨g₂,foundTarget,second⟩ := findTarget_spec g₁ (g₁.heap target)
  have looked := (first.trans second).refs
  simp only [issueReference,foundSource,foundTarget]
  split
  next =>
    rw [← looked]
    exact ⟨[_],rfl⟩
  next =>
    split
    next =>
      have created := createVirtualSymbol_refs (g₂.addDeferredReference (g₂.heap target).name
        ⟨source,referenceType,location,targetHint (g₂.heap target),context⟩) target source referenceType location context
      rwa [addDeferredReference_refs,looked] at created
    next => exact ⟨[],by simpa using looked⟩

theorem addReference_refs (source target : Ref) (referenceType : ReferenceType)
    (location : SymbolLocation) (context : Option ReferenceContext) :
    ∃ asked, (g.addReference source target referenceType location context).refs = g.refs.addAll asked := by
  simp only [addReference]
  split
  next => exact ⟨[],rfl⟩
  next =>
    split
    next => exact ⟨[],rfl⟩
    next =>
      split
      next => exact ⟨[],rfl⟩
      next s _ => exact issueReference_refs (g.normalizeSource source) s target referenceType location context

theorem call_coherent (c : GraphCall) (coherent : g.refs.Coherent) : (g.call c).refs.Coherent := by
  have addAll : ∀ asked, ReferenceIndexes.Coherent (g.refs.addAll asked) := fun asked =>
    ReferenceIndexes.addAll_invariant (I := ReferenceIndexes.Coherent) asked
      (fun _ entry _ kept => ReferenceIndexes.addReferenceToIndexes_coherent kept entry) coherent
  cases c with
  | addSymbol symbol fileUri symbolTable => simpa [call] using coherent
  | registerSymbolTable symbolTable fileUri options => simpa [call] using coherent
  | addReference source target referenceType location context =>
    obtain ⟨asked,added⟩ := addReference_refs g source target referenceType location context
    exact added ▸ addAll asked
  | enqueueDeferredReference source name referenceType location context targetFileUri =>
    simpa [call] using coherent
  | clearReferenceStateForFile fileUri =>
    exact (ReferenceIndexes.removeReferencesFromFile_spec coherent _).1
  | evictStaleFileDeclarations fileUri liveSymbolIds =>
    simp only [call,evictStaleFileDeclarations]
    split
    next => exact coherent
    next =>
      simp only [syncTotals,foldl_forgetSymbol_refs]
      exact (ReferenceIndexes.removeIncomingReferencesToSymbols_spec coherent _ _).1
  | removeFile fileUri =>
    simp only [call,removeFile_refs]
    have cleared := (ReferenceIndexes.removeReferencesFromFile_spec coherent (extractFilePathFromUri fileUri)).1
    exact (ReferenceIndexes.removeIncomingReferencesToSymbols_spec cleared _ _).1
  | drainAllDeferredReferences => exact (drainAllDeferredReferencesSync_spec g).1.refs ▸ addAll _
  | processDeferredReferencesBatch name size =>
    obtain ⟨r,g',batched,drained,_⟩ := processDeferredReferencesBatch_spec g name size
    simp only [call,batched]
    exact drained.refs ▸ addAll _
  | getSymbol symbolId =>
    obtain ⟨g',found,after⟩ := getSymbol_spec g symbolId
    simp only [call,found]
    exact after.refs ▸ coherent
  | findSymbolByName name =>
    obtain ⟨g',found,after⟩ := findSymbolByName_spec g name
    simp only [call,found]
    exact after.refs ▸ coherent
  | clear => exact ReferenceIndexes.Coherent.empty

end

theorem reached_coherent (heap : Heap) (tables : TableRef → SymbolTable) (calls : List GraphCall) :
    (reached heap tables calls).refs.Coherent :=
  run_invariant call_coherent ReferenceIndexes.Coherent.empty calls

end SymbolGraph

namespace ReferenceIndexes

section

variable [Runtime]

/-- After an addition the edges are those from before and at most the added one, and the added
one has the source, target, type and start of an edge. -/
theorem addReferenceToIndexes_spec {g : ReferenceIndexes} (coherent : g.Coherent) (entry : RefStoreEntry) :
    (∀ k e, (g.addReferenceToIndexes entry).2.refStore.Holds k e → g.refStore.Holds k e ∨ e = entry) ∧
      (∀ k e, g.refStore.Holds k e → (g.addReferenceToIndexes entry).2.refStore.Holds k e) ∧
      ∃ k e, (g.addReferenceToIndexes entry).2.refStore.Holds k e ∧ e.SameReference entry := by
  simp only [addReferenceToIndexes]
  split
  next known =>
    refine ⟨fun _ _ => .inl,fun _ _ => id,?_⟩
    obtain ⟨refKey,_,found⟩ := List.any_eq_true.mp known
    obtain ⟨e,got,same⟩ := (Option.any_eq_true ..).mp found
    obtain ⟨k,holds,_⟩ := CaseInsensitiveMap.get_eq_some_iff.mp got
    exact ⟨k,e,holds,of_decide_eq_true same⟩
  next =>
    have added := fun k e => CaseInsensitiveMap.holds_set_fresh (k := k) (v := entry) (w := e)
      (coherent.mint_fresh entry.sourceFileUri entry.sourceSymbolId)
    refine ⟨fun k e holds => ?_,fun k e holds => (added k e).mpr (.inr holds),?_⟩
    · rcases (added k e).mp holds with ⟨_,rfl⟩ | old
      · exact .inr rfl
      · exact .inl old
    · exact ⟨_,entry,(added _ entry).mpr (.inl ⟨rfl,rfl⟩),rfl,rfl,rfl,rfl,rfl⟩

theorem addAll_spec {g : ReferenceIndexes} (coherent : g.Coherent) (asked : List RefStoreEntry) :
    (g.addAll asked).Coherent ∧
      (∀ k e, (g.addAll asked).refStore.Holds k e → g.refStore.Holds k e ∨ e ∈ asked) ∧
      (∀ k e, g.refStore.Holds k e → (g.addAll asked).refStore.Holds k e) ∧
      ∀ entry ∈ asked, ∃ k e, (g.addAll asked).refStore.Holds k e ∧ e.SameReference entry := by
  induction asked generalizing g with
  | nil => exact ⟨coherent,fun _ _ => .inl,fun _ _ => id,by simp⟩
  | cons entry rest ih =>
    obtain ⟨new,kept,met⟩ := addReferenceToIndexes_spec coherent entry
    obtain ⟨coherent',newRest,keptRest,metRest⟩ := ih (addReferenceToIndexes_coherent coherent entry)
    rw [addAll_cons]
    refine ⟨coherent',fun k e holds => ?_,fun k e holds => keptRest k e (kept k e holds),fun a member => ?_⟩
    · rcases newRest k e holds with early | late
      · rcases new k e early with old | rfl
        · exact .inl old
        · exact .inr List.mem_cons_self
      · exact .inr (List.mem_cons_of_mem _ late)
    · rcases List.mem_cons.mp member with rfl | later
      · obtain ⟨k,e,holds,same⟩ := met
        exact ⟨k,e,keptRest k e holds,same⟩
      · exact metRest a later

end


variable [Runtime]

/-- An index lists `refKey` under `key`. -/
def ListsAt (index : CaseInsensitiveMap (OrderedSet String)) (key refKey : String) : Prop :=
  ∃ s, index.get key = some s ∧ refKey ∈ s

structure Consistent (g : ReferenceIndexes) : Prop where
  /-- A key is listed under a file exactly when it is stored with an edge from that file. -/
  forward : ∀ fileUri refKey, ListsAt g.forwardIndex fileUri refKey ↔
    ∃ e, g.refStore.Holds refKey e ∧ toLowerCase e.sourceFileUri = toLowerCase fileUri
  /-- A key is listed under a symbol exactly when it is stored with an edge to that symbol. -/
  reverse : ∀ key refKey, ListsAt g.reverseIndex key refKey ↔
    ∃ e, g.refStore.Holds refKey e ∧
      toLowerCase (makeQualifiedSymbolKey e.targetFileUri e.targetSymbolId) = toLowerCase key
  forwardNonempty : ∀ fileUri s, g.forwardIndex.get fileUri = some s → ∃ refKey, refKey ∈ s
  reverseNonempty : ∀ key s, g.reverseIndex.get key = some s → ∃ refKey, refKey ∈ s
  /-- Keys that differ at most in case are one key with one edge. -/
  apart : ∀ k e k' e', g.refStore.Holds k e → g.refStore.Holds k' e' → toLowerCase k = toLowerCase k' →
    k = k' ∧ e = e'
  /-- An added edge is stored beside every edge there was, under a key of its own. -/
  kept : ∀ entry k e, g.refStore.Holds k e → (g.addReferenceToIndexes entry).2.refStore.Holds k e
  distinct : ∀ k e k' e', g.refStore.Holds k e → g.refStore.Holds k' e' → e.SameReference e' →
    toLowerCase (makeQualifiedSymbolKey e.targetFileUri e.targetSymbolId) =
      toLowerCase (makeQualifiedSymbolKey e'.targetFileUri e'.targetSymbolId) → k = k'

theorem Coherent.consistent {g : ReferenceIndexes} (coherent : Coherent g) : Consistent g where
  forward fileUri refKey := coherent.forward.lists (toLowerCase fileUri) refKey
  reverse key refKey := coherent.reverse.lists (toLowerCase key) refKey
  forwardNonempty fileUri s got := coherent.forward.noneEmpty (toLowerCase fileUri) s got
  reverseNonempty key s got := coherent.reverse.noneEmpty (toLowerCase key) s got
  apart _ _ _ _ holds holds' same := holds.unique holds' same
  kept entry k e holds := by
    simp only [addReferenceToIndexes]
    split
    next => exact holds
    next =>
      have fresh := coherent.mint_fresh entry.sourceFileUri entry.sourceSymbolId
      exact (CaseInsensitiveMap.holds_set_fresh fresh).mpr (.inr holds)
  distinct := coherent.distinct

end ReferenceIndexes

/-- In every state of every run the three reference indexes describe one set of edges. -/
theorem SymbolGraph.reference_indexes_consistent [Runtime] (heap : Heap) (tables : TableRef → SymbolTable)
    (calls : List GraphCall) :
    EveryState SymbolGraph.call (fun g => g.refs.Consistent) { heap := heap,tables := tables } calls := by
  intro front _
  exact (SymbolGraph.reached_coherent heap tables front).consistent

end ApexLs.Symbols
