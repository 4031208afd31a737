import ApexLs.Collections.Batches
import ApexLs.Symbols.GraphLookups

/-! What a drain does. It looks symbols up and adds edges, so the symbols stay as they were
and every entry meets the graph the drain began with: which entries wait and which edge each
of the others asks for can be read off that graph. -/
namespace ApexLs.Symbols

open ApexLs.Utils ApexLs.Types ApexLs.Collections

def edgeBetween [Runtime] (heap : Heap) (source target : Ref) (referenceType : ReferenceType)
    (location : SymbolLocation) (context : Option ReferenceContext) : RefStoreEntry where
  sourceFileUri := (heap source).fileUri
  sourceSymbolId := getSymbolId (heap source) (heap source).fileUri
  targetFileUri := (heap target).fileUri
  targetSymbolId := getSymbolId (heap target) (heap target).fileUri
  referenceType := referenceType
  location := location
  context := context.map ReferenceIndexes.storedContext

namespace ReferenceIndexes

variable [Runtime]

def addAll (refs : ReferenceIndexes) (entries : List RefStoreEntry) : ReferenceIndexes :=
  entries.foldl (fun refs entry => (refs.addReferenceToIndexes entry).2) refs

@[simp] theorem addAll_nil (refs : ReferenceIndexes) : refs.addAll [] = refs := rfl

theorem addAll_cons (refs : ReferenceIndexes) (entry : RefStoreEntry) (rest : List RefStoreEntry) :
    refs.addAll (entry :: rest) = (refs.addReferenceToIndexes entry).2.addAll rest := rfl

theorem addAll_append (refs : ReferenceIndexes) (first second : List RefStoreEntry) :
    refs.addAll (first ++ second) = (refs.addAll first).addAll second :=
  List.foldl_append

theorem addAll_invariant {I : ReferenceIndexes → Prop} (entries : List RefStoreEntry)
    (adds : ∀ refs, ∀ entry ∈ entries, I refs → I (refs.addReferenceToIndexes entry).2) {refs : ReferenceIndexes}
    (holds : I refs) : I (refs.addAll entries) := by
  induction entries generalizing refs with
  | nil => exact holds
  | cons entry rest ih =>
    refine ih (fun refs e member => adds refs e (List.mem_cons_of_mem _ member)) ?_
    exact adds refs entry List.mem_cons_self holds

end ReferenceIndexes

namespace SymbolGraph

variable [Runtime]

def deferredUnder (g : SymbolGraph) (name : String) : List DeferredReference :=
  (g.deferredReferences.get name).getD []

def sourceOf (g : SymbolGraph) (entry : DeferredReference) : Option Ref :=
  g.firstNamed (g.heap entry.sourceSymbol).fileUri (g.heap entry.sourceSymbol).name

def waits (g : SymbolGraph) (entry : DeferredReference) : Bool :=
  (g.heap entry.sourceSymbol).fileUri ≠ "" && (g.sourceOf entry).isNone

def edgeOf (pick : Pick) (candidates : List Ref) (g : SymbolGraph) (entry : DeferredReference) :
    Option RefStoreEntry :=
  if (g.heap entry.sourceSymbol).fileUri = "" then none
  else (g.sourceOf entry).bind fun source =>
    (pick g.heap candidates source entry).map fun target =>
      edgeBetween g.heap source target entry.referenceType entry.location entry.context

def Decides (pick : Pick) : Prop :=
  ∀ heap candidates source entry, candidates ≠ [] →
    ∃ t ∈ candidates, pick heap candidates source entry = some t

theorem pickDeferredTarget_decides (heap : Heap) {candidates : List Ref} (source : Ref) (hint : Option String)
    (present : candidates ≠ []) : ∃ t ∈ candidates, pickDeferredTarget heap candidates source hint = some t := by
  obtain ⟨c,rest,rfl⟩ := List.exists_cons_of_ne_nil present
  simp only [pickDeferredTarget]
  cases sameFile : (c :: rest).find? (fun t => (heap t).fileUri = (heap source).fileUri) with
  | some t => exact ⟨t,List.mem_of_find?_eq_some sameFile,rfl⟩
  | none =>
    split
    next t only =>
      refine ⟨t,?_,rfl⟩
      split at only
      next => exact List.mem_of_mem_filter (only ▸ List.mem_singleton_self t)
      next => simp at only
    next => exact ⟨c,List.mem_cons_self,rfl⟩

theorem syncPick_decides : Decides syncPick :=
  fun heap _ source _ present => pickDeferredTarget_decides heap source _ present

theorem pickDeferredTargetForEntry_decides : Decides pickDeferredTargetForEntry := by
  intro heap candidates source entry present
  simp only [pickDeferredTargetForEntry]
  cases exact_ : exactTarget heap candidates entry.targetFileUri with
  | none => exact pickDeferredTarget_decides heap source _ present
  | some t =>
    refine ⟨t,?_,rfl⟩
    unfold exactTarget at exact_
    split at exact_
    next => exact List.mem_of_find?_eq_some exact_
    next => simp at exact_

namespace SameSymbols

variable {g g' : SymbolGraph} (same : SameSymbols g g')

include same

theorem sourceOf (entry : DeferredReference) : g'.sourceOf entry = g.sourceOf entry := by
  simp only [SymbolGraph.sourceOf,same.heap,same.firstNamed]

theorem waits : g'.waits = g.waits := by
  funext entry
  simp only [SymbolGraph.waits,same.heap,same.sourceOf]

theorem edgeOf (pick : Pick) (candidates : List Ref) :
    SymbolGraph.edgeOf pick candidates g' = SymbolGraph.edgeOf pick candidates g := by
  funext entry
  simp only [SymbolGraph.edgeOf,same.heap,same.sourceOf]

end SameSymbols

theorem addEdge_sameSymbols (g : SymbolGraph) (source target : Ref) (referenceType : ReferenceType)
    (location : SymbolLocation) (context : Option ReferenceContext) :
    SameSymbols g (g.addEdge source target referenceType location context) :=
  ⟨rfl,rfl,rfl,rfl,rfl,rfl,rfl,rfl,fun _ => rfl,fun _ _ => id⟩

theorem placeEntry_spec {pick : Pick} (decides : Decides pick) {candidates : List Ref} (present : candidates ≠ [])
    (g : SymbolGraph) (entry : DeferredReference) :
    SameSymbols g (placeEntry pick candidates g entry).2 ∧
      (placeEntry pick candidates g entry).2.deferredReferences = g.deferredReferences ∧
      (placeEntry pick candidates g entry).2.refs = g.refs.addAll (edgeOf pick candidates g entry).toList ∧
      ((placeEntry pick candidates g entry).1 = .waiting ↔ g.waits entry = true) := by
  obtain ⟨g',looked,after⟩ := findSymbolInFileByName_spec g (g.heap entry.sourceSymbol).fileUri
    (g.heap entry.sourceSymbol).name
  change _ = (g.sourceOf entry,g') at looked
  simp only [placeEntry,edgeOf,waits,looked]
  by_cases file : (g.heap entry.sourceSymbol).fileUri = ""
  · simp [file,SameSymbols.refl g]
  · simp only [file,if_false]
    cases g.sourceOf entry with
    | none => exact ⟨after.toSameSymbols,after.deferredReferences,by simp [after.refs],by simp [file]⟩
    | some source =>
      obtain ⟨target,_,picked⟩ := decides g.heap candidates source entry present
      simp only [after.heap,picked,Option.bind_some,Option.map_some]
      refine ⟨after.toSameSymbols.trans (addEdge_sameSymbols _ _ _ _ _ _),after.deferredReferences,?_,by simp⟩
      rw [← after.refs,← after.heap]
      rfl

theorem placeEntries_spec {pick : Pick} (decides : Decides pick) {candidates : List Ref} (present : candidates ≠ [])
    (g : SymbolGraph) (entries : List DeferredReference) :
    SameSymbols g (placeEntries pick candidates g entries).1 ∧
      (placeEntries pick candidates g entries).1.deferredReferences = g.deferredReferences ∧
      (placeEntries pick candidates g entries).1.refs =
        g.refs.addAll (entries.filterMap (edgeOf pick candidates g)) ∧
      (placeEntries pick candidates g entries).2.1 = entries.filter g.waits := by
  induction entries generalizing g with
  | nil => exact ⟨SameSymbols.refl g,rfl,rfl,rfl⟩
  | cons entry rest ih =>
    obtain ⟨same,deferred,edge,waiting⟩ := placeEntry_spec decides present g entry
    obtain ⟨sameRest,deferredRest,edges,remaining⟩ := ih (placeEntry pick candidates g entry).2
    rw [same.edgeOf,edge,← ReferenceIndexes.addAll_append] at edges
    rw [same.waits] at remaining
    have asked : (edgeOf pick candidates g entry).toList ++ rest.filterMap (edgeOf pick candidates g) =
        (entry :: rest).filterMap (edgeOf pick candidates g) := by
      rw [List.filterMap_cons]
      cases edgeOf pick candidates g entry <;> rfl
    rw [asked] at edges
    rw [List.filter_cons]
    simp only [placeEntries]
    split
    next outcome =>
      rw [outcome] at waiting
      exact ⟨same.trans sameRest,deferredRest.trans deferred,edges,by simp_all⟩
    next outcome =>
      rw [outcome] at waiting
      exact ⟨same.trans sameRest,deferredRest.trans deferred,edges,by simp_all⟩
    next outcome =>
      rw [outcome] at waiting
      exact ⟨same.trans sameRest,deferredRest.trans deferred,edges,by simp_all⟩

theorem keepDeferred_deferredUnder (g : SymbolGraph) (name name' : String) (remaining : List DeferredReference) :
    (g.keepDeferred name remaining).deferredUnder name' =
      if toLowerCase name' = toLowerCase name then remaining else g.deferredUnder name' := by
  simp only [keepDeferred,deferredUnder]
  by_cases nothing : remaining = []
  · simp only [nothing,if_true,CaseInsensitiveMap.get_delete]
    split <;> simp
  · simp only [nothing,if_false,CaseInsensitiveMap.get_set]
    split <;> simp

/-- The edges a drain asks for on behalf of some entries under `name`. -/
def edgesOf (pick : Pick) (g : SymbolGraph) (name : String) (entries : List DeferredReference) : List RefStoreEntry :=
  if g.symbolsNamed name = [] then [] else entries.filterMap (edgeOf pick (g.symbolsNamed name) g)

def leftUnder (g : SymbolGraph) (name : String) : List DeferredReference :=
  if g.symbolsNamed name = [] then g.deferredUnder name else (g.deferredUnder name).filter g.waits

structure Drained (g g' : SymbolGraph) (asked : List RefStoreEntry) : Prop extends SameSymbols g g' where
  refs : g'.refs = g.refs.addAll asked

theorem Drained.trans {g g' g'' : SymbolGraph} (first : Drained g g' asked) (second : Drained g' g'' asked') :
    Drained g g'' (asked ++ asked') where
  toSameSymbols := first.toSameSymbols.trans second.toSameSymbols
  refs := by rw [second.refs,first.refs,ReferenceIndexes.addAll_append]

theorem SameSymbols.edgesOf {g g' : SymbolGraph} (same : SameSymbols g g') (pick : Pick) (name : String)
    (entries : List DeferredReference) : SymbolGraph.edgesOf pick g' name entries =
      SymbolGraph.edgesOf pick g name entries := by
  simp only [SymbolGraph.edgesOf,same.symbolsNamed,same.edgeOf]

theorem place_spec {pick : Pick} (decides : Decides pick) {g g' : SymbolGraph} (after : Memoised g g') {name : String}
    (present : g.symbolsNamed name ≠ []) (entries : List DeferredReference) :
    ∃ h n, placeEntries pick (g.symbolsNamed name) g' entries = (h,entries.filter g.waits,n) ∧
      Drained g h (edgesOf pick g name entries) ∧ h.deferredReferences = g.deferredReferences := by
  obtain ⟨same,deferred,edges,remaining⟩ := placeEntries_spec decides present g' entries
  refine ⟨_,(placeEntries pick (g.symbolsNamed name) g' entries).2.2,?_,?_,deferred.trans after.deferredReferences⟩
  · rw [← after.toSameSymbols.waits,← remaining]
  · refine ⟨after.toSameSymbols.trans same,?_⟩
    rw [edges,after.refs,after.toSameSymbols.edgeOf,edgesOf,if_neg present]

theorem keepDeferred_drained {g g' : SymbolGraph} (drained : Drained g g' asked) (name : String)
    (remaining : List DeferredReference) : Drained g (g'.keepDeferred name remaining) asked :=
  ⟨drained.toSameSymbols.trans ⟨rfl,rfl,rfl,rfl,rfl,rfl,rfl,rfl,fun _ => rfl,fun _ _ => id⟩,drained.refs⟩

theorem drainName_spec (resolved : Nat) (g : SymbolGraph) (name : String) :
    ∃ n g', drainName (resolved,g) name = (n,g') ∧
      Drained g g' (edgesOf syncPick g name (g.deferredUnder name)) ∧
      ∀ name', g'.deferredUnder name' =
        if toLowerCase name' = toLowerCase name then g.leftUnder name else g.deferredUnder name' := by
  simp only [drainName,leftUnder]
  rw [show (g.deferredReferences.get name).getD [] = g.deferredUnder name from rfl]
  cases pending : g.deferredUnder name with
  | nil =>
    refine ⟨_,_,rfl,⟨⟨rfl,rfl,rfl,rfl,rfl,rfl,rfl,rfl,fun _ => rfl,fun _ _ => id⟩,by simp [edgesOf]⟩,fun name' => ?_⟩
    simp only [deferredUnder,CaseInsensitiveMap.get_delete]
    split <;> simp
  | cons entry rest =>
    obtain ⟨g',looked,after⟩ := findSymbolByName_spec g name
    simp only [looked]
    by_cases nobody : g.symbolsNamed name = []
    · simp only [nobody,if_true]
      refine ⟨_,_,rfl,⟨after.toSameSymbols,by simp [edgesOf,nobody,after.refs]⟩,fun name' => ?_⟩
      simp only [deferredUnder,after.deferredReferences]
      split
      next same =>
        rw [CaseInsensitiveMap.get,same]
        exact pending
      next => rfl
    · simp only [nobody,if_false]
      obtain ⟨h,n,placed,drained,deferred⟩ := place_spec syncPick_decides after nobody (entry :: rest)
      simp only [placed]
      refine ⟨_,_,rfl,keepDeferred_drained drained _ _,fun name' => ?_⟩
      rw [keepDeferred_deferredUnder]
      simp only [deferredUnder,deferred]

theorem processDeferredReferencesBatch_spec (g : SymbolGraph) (name : String) (size : Nat) :
    ∃ r g', g.processDeferredReferencesBatch name size = (r,g') ∧
      Drained g g' (edgesOf pickDeferredTargetForEntry g name ((g.deferredUnder name).take size)) ∧
      ∀ name', g'.deferredUnder name' =
        if toLowerCase name' = toLowerCase name ∧ g.symbolsNamed name ≠ [] then
          leaveBatch g.waits size (g.deferredUnder name)
        else g.deferredUnder name' := by
  simp only [processDeferredReferencesBatch]
  rw [show (g.deferredReferences.get name).getD [] = g.deferredUnder name from rfl]
  have sameName : ∀ name', toLowerCase name' = toLowerCase name → g.deferredUnder name' = g.deferredUnder name := by
    intro name' same
    simp only [deferredUnder,CaseInsensitiveMap.get,same]
  cases pending : g.deferredUnder name with
  | nil =>
    refine ⟨_,g,rfl,⟨SameSymbols.refl g,by simp [edgesOf]⟩,fun name' => ?_⟩
    split
    next both => simp [sameName name' both.1,pending,leaveBatch]
    next => rfl
  | cons entry rest =>
    obtain ⟨g',looked,after⟩ := findSymbolByName_spec g name
    simp only [looked]
    by_cases nobody : g.symbolsNamed name = []
    · simp only [nobody,ne_eq,not_true,and_false,if_false]
      refine ⟨_,g',rfl,⟨after.toSameSymbols,by simp [edgesOf,nobody,after.refs]⟩,fun name' => ?_⟩
      simp only [deferredUnder,after.deferredReferences]
    · simp only [nobody,ne_eq,not_false_eq_true,and_true]
      obtain ⟨h,n,placed,drained,deferred⟩ :=
        place_spec pickDeferredTargetForEntry_decides after nobody ((entry :: rest).take size)
      simp only [placed]
      refine ⟨_,_,rfl,keepDeferred_drained drained _ _,fun name' => ?_⟩
      rw [keepDeferred_deferredUnder]
      simp only [deferredUnder,deferred,leaveBatch]

end SymbolGraph
end ApexLs.Symbols
