import Mathlib.Data.List.Dedup
import ApexLs.Symbols.DeferredDrain
import ApexLs.Symbols.GraphCounts

/-! When the counters are exact. No call inserts less than it counts, so counters that are exact
after a call were exact all along it: it suffices to tell, for each part of a call, what it inserts
without counting. -/
namespace ApexLs.Symbols

open ApexLs.Utils ApexLs.Types ApexLs.Collections

section

variable [Runtime]

namespace SymbolGraph

structure Counted (g : SymbolGraph) : Prop where
  symbols : g.totalSymbols = g.symbolIdIndex.size
  edges : g.totalEdges = g.refs.refStore.size

/-- On the way from `g` to `g'` no more was counted than inserted. -/
structure Lags (g g' : SymbolGraph) : Prop where
  symbols : g.symbolIdIndex.size + g'.totalSymbols ≤ g'.symbolIdIndex.size + g.totalSymbols
  edges : g.refs.refStore.size + g'.totalEdges ≤ g'.refs.refStore.size + g.totalEdges

theorem Lags.refl (g : SymbolGraph) : Lags g g := ⟨Nat.le_refl _,Nat.le_refl _⟩

theorem Lags.trans {g g' g'' : SymbolGraph} (first : Lags g g') (second : Lags g' g'') : Lags g g'' := by
  obtain ⟨symbols,edges⟩ := first
  obtain ⟨symbols',edges'⟩ := second
  exact ⟨by omega,by omega⟩

theorem Counted.between {g g' g'' : SymbolGraph} (counted : g.Counted) (first : Lags g g') (second : Lags g' g'')
    (last : g''.Counted) : g'.Counted := by
  obtain ⟨symbols,edges⟩ := counted
  obtain ⟨symbols',edges'⟩ := first
  obtain ⟨symbols'',edges''⟩ := second
  obtain ⟨allSymbols,allEdges⟩ := last
  exact ⟨by omega,by omega⟩

structure Keeps (g : SymbolGraph) (P : Prop) (g' : SymbolGraph) : Prop where
  lags : Lags g g'
  counted : g.Counted → (g'.Counted ↔ P)

theorem Keeps.of_eq {g g' : SymbolGraph} (index : g'.symbolIdIndex = g.symbolIdIndex)
    (totalSymbols : g'.totalSymbols = g.totalSymbols) (refs : g'.refs = g.refs)
    (totalEdges : g'.totalEdges = g.totalEdges) : Keeps g True g' where
  lags := ⟨by rw [index,totalSymbols],by rw [refs,totalEdges]⟩
  counted counted := iff_true_intro ⟨by rw [index,totalSymbols,counted.symbols],by rw [refs,totalEdges,counted.edges]⟩

theorem Keeps.trans {g g' g'' : SymbolGraph} {P Q : Prop} (first : Keeps g P g') (second : P → Keeps g' Q g'')
    (lags : Lags g' g'') : Keeps g (P ∧ Q) g'' where
  lags := first.lags.trans lags
  counted counted := by
    constructor
    · intro last
      have middle := counted.between first.lags lags last
      have fine := (first.counted counted).mp middle
      exact ⟨fine,((second fine).counted middle).mp last⟩
    · rintro ⟨fine,rest⟩
      exact ((second fine).counted ((first.counted counted).mpr fine)).mpr rest

theorem Keeps.after {g g' g'' : SymbolGraph} {P : Prop} (second : Keeps g' P g'') (first : Keeps g True g') :
    Keeps g P g'' := by
  have both := first.trans (fun _ => second) second.lags
  rwa [true_and] at both

theorem Keeps.before {g g' g'' : SymbolGraph} {P : Prop} (first : Keeps g P g') (second : Keeps g' True g'') :
    Keeps g P g'' := by
  have both := first.trans (fun _ => second) second.lags
  rwa [and_true] at both

section Lookups

/-- Looking `symbolIds` up makes `g'` of `g`: the unindexed ones are kept in the id index, and
nothing is counted. -/
structure Looked (g : SymbolGraph) (symbolIds : List String) (g' : SymbolGraph) : Prop extends Memoised g g' where
  totalSymbols : g'.totalSymbols = g.totalSymbols
  totalEdges : g'.totalEdges = g.totalEdges
  still : g.AllIndexed symbolIds → g' = g
  grown : ¬ g.AllIndexed symbolIds → g.symbolIdIndex.size < g'.symbolIdIndex.size

theorem Looked.size_le {g g' : SymbolGraph} (looked : Looked g symbolIds g') :
    g.symbolIdIndex.size ≤ g'.symbolIdIndex.size := by
  by_cases indexed : g.AllIndexed symbolIds
  · rw [looked.still indexed]
  · exact Nat.le_of_lt (looked.grown indexed)

theorem allIndexed_nil (g : SymbolGraph) : g.AllIndexed [] := fun _ member => absurd member List.not_mem_nil

theorem allIndexed_append {g : SymbolGraph} :
    g.AllIndexed (first ++ second) ↔ g.AllIndexed first ∧ g.AllIndexed second := List.forall_mem_append

theorem Looked.refl (g : SymbolGraph) : Looked g [] g :=
  ⟨Memoised.refl g,rfl,rfl,fun _ => rfl,fun absurdly => absurd g.allIndexed_nil absurdly⟩

theorem Looked.trans {g g' g'' : SymbolGraph} (first : Looked g ids g') (second : Looked g' ids' g'') :
    Looked g (ids ++ ids') g'' where
  toMemoised := first.toMemoised.trans second.toMemoised
  totalSymbols := second.totalSymbols.trans first.totalSymbols
  totalEdges := second.totalEdges.trans first.totalEdges
  still indexed := by
    obtain ⟨here,there⟩ := allIndexed_append.mp indexed
    have same := first.still here
    subst same
    exact second.still there
  grown missing := by
    by_cases here : g.AllIndexed ids
    · have same := first.still here
      subst same
      exact second.grown (fun there => missing (allIndexed_append.mpr ⟨here,there⟩))
    · exact Nat.lt_of_lt_of_le (first.grown here) second.size_le

section

variable (g : SymbolGraph)
include g

theorem getSymbol_looked (symbolId : String) : Looked g [symbolId] (g.getSymbol symbolId).2 := by
  obtain ⟨g',got,memoised⟩ := getSymbol_spec g symbolId
  have indexed : g.AllIndexed [symbolId] ↔ ¬ g.Unindexed symbolId := by simp [AllIndexed]
  refine ⟨by rw [got]; exact memoised,?_,?_,?_,?_⟩
  all_goals
    unfold getSymbol
    cases found : g.resolve symbolId with
    | none => simp [indexed,Unindexed,found]
    | some s => ?_
  · rfl
  · rfl
  · intro all
    have known : g.symbolIdIndex.has symbolId = true := by
      simpa [Unindexed,found] using indexed.mp all
    obtain ⟨t,at_⟩ := OrderedMap.has_iff.mp known
    have same : t = s := Option.some.inj ((resolve_known at_).symm.trans found)
    simp only [OrderedMap.set_of_get? (same ▸ at_)]
  · intro missing
    have absent : g.symbolIdIndex.has symbolId = false := by
      by_contra known
      exact missing (indexed.mpr (fun unindexed => known unindexed.1))
    simp [OrderedMap.size_set,absent]

theorem getSymbols_looked (symbolIds : List String) :
    Looked g symbolIds (g.getSymbols symbolIds).2 := by
  induction symbolIds generalizing g with
  | nil => exact Looked.refl g
  | cons symbolId rest ih => exact (getSymbol_looked g symbolId).trans (ih (g.getSymbol symbolId).2)

theorem findSymbolByName_looked (name : String) :
    Looked g (g.idsNamed name) (g.findSymbolByName name).2 := by
  unfold findSymbolByName idsNamed
  split
  next => exact Looked.refl g
  next => exact getSymbols_looked g _

theorem getSymbolsInFile_looked (fileUri : String) :
    Looked g (g.idsOfFile fileUri) (g.getSymbolsInFile fileUri).2 := by
  simp only [getSymbolsInFile,idsOfFile]
  cases g.fileToSymbolTable.get (extractFilePathFromUri fileUri) with
  | some t => exact Looked.refl g
  | none => exact getSymbols_looked g _

theorem findSymbolInFileByName_looked (fileUri symbolName : String) :
    Looked g (g.idsSearched fileUri) (g.findSymbolInFileByName fileUri symbolName).2 :=
  getSymbolsInFile_looked g (extractFilePathFromUri fileUri)

theorem getSymbolByIdAndFile_looked (symbolId fileUri : String) :
    Looked g (g.idsIdentified symbolId fileUri) (g.getSymbolByIdAndFile symbolId fileUri).2 := by
  unfold getSymbolByIdAndFile idsIdentified
  cases g.symbolQualifiedIndex.get (makeQualifiedSymbolKey fileUri symbolId) with
  | some s => exact Looked.refl g
  | none => exact getSymbol_looked g symbolId

theorem findInGraph_looked (symbol : ApexSymbol) :
    Looked g (g.idsOfStandIn symbol) (g.findInGraph symbol).2 := by
  obtain ⟨g',got,memoised⟩ := getSymbolByIdAndFile_spec g symbol.id symbol.fileUri
  have first := getSymbolByIdAndFile_looked g symbol.id symbol.fileUri
  rw [got] at first
  unfold findInGraph idsOfStandIn
  rw [got]
  cases g.identified symbol.id symbol.fileUri with
  | some s => simpa using first
  | none =>
    have searched : g'.idsSearched symbol.fileUri = g.idsSearched symbol.fileUri := by
      simp only [idsSearched,idsOfFile,memoised.fileToSymbolTable,memoised.fileIndex]
    exact first.trans (searched ▸ findSymbolInFileByName_looked g' symbol.fileUri symbol.name)

theorem findTarget_looked (target : ApexSymbol) :
    Looked g (g.idsOfTarget target) (g.findTarget target).2 := by
  unfold findTarget idsOfTarget
  split
  next => exact Looked.refl g
  next => exact findInGraph_looked g target

end

section

variable {g g' : SymbolGraph} (looked : Looked g symbolIds g')
include looked

theorem Looked.lags : Lags g g' where
  symbols := by
    rw [looked.totalSymbols]
    exact Nat.add_le_add_right looked.size_le _
  edges := by rw [looked.totalEdges,looked.refs]

theorem Looked.counted (counted : g.Counted) :
    g'.Counted ↔ g.AllIndexed symbolIds := by
  constructor
  · intro last
    by_contra missing
    have grown := looked.grown missing
    rw [← last.symbols,looked.totalSymbols,counted.symbols] at grown
    exact Nat.lt_irrefl _ grown
  · intro indexed
    rw [looked.still indexed]
    exact counted

theorem Looked.keeps : Keeps g (g.AllIndexed symbolIds) g' :=
  ⟨looked.lags,looked.counted⟩

end

end Lookups

section Drains

/-- A stretch of a drain, which looks `symbolIds` up and counts the edges it adds. -/
structure Sought (g : SymbolGraph) (symbolIds : List String) (g' : SymbolGraph) : Prop extends SameSymbols g g' where
  coherent : g'.refs.Coherent
  lags : Lags g g'
  still : g.AllIndexed symbolIds → g'.symbolIdIndex = g.symbolIdIndex
  counted : g.Counted → (g'.Counted ↔ g.AllIndexed symbolIds)

theorem SameSymbols.allIndexed {g g' : SymbolGraph} (same : SameSymbols g g') (index : g'.symbolIdIndex = g.symbolIdIndex)
    (symbolIds : List String) : g'.AllIndexed symbolIds ↔ g.AllIndexed symbolIds := by
  simp only [AllIndexed,Unindexed,index,same.resolve]

theorem Looked.sought {g g' : SymbolGraph} (looked : Looked g symbolIds g') (coherent : g.refs.Coherent) :
    Sought g symbolIds g' where
  toSameSymbols := looked.toSameSymbols
  coherent := looked.refs ▸ coherent
  lags := looked.lags
  still indexed := by rw [looked.still indexed]
  counted := looked.counted

theorem Sought.refl {g : SymbolGraph} (coherent : g.refs.Coherent) : Sought g [] g := (Looked.refl g).sought coherent

theorem Sought.keeps {g g' : SymbolGraph} (sought : Sought g symbolIds g') : Keeps g (g.AllIndexed symbolIds) g' :=
  ⟨sought.lags,sought.counted⟩

theorem Sought.trans {g g' g'' : SymbolGraph} (first : Sought g ids g') (second : Sought g' ids' g'') :
    Sought g (ids ++ ids') g'' where
  toSameSymbols := first.toSameSymbols.trans second.toSameSymbols
  coherent := second.coherent
  lags := first.lags.trans second.lags
  still indexed := by
    obtain ⟨here,there⟩ := allIndexed_append.mp indexed
    have index := first.still here
    rw [second.still ((first.toSameSymbols.allIndexed index ids').mpr there),index]
  counted counted := by
    rw [allIndexed_append]
    constructor
    · intro last
      have middle := counted.between first.lags second.lags last
      have here := (first.counted counted).mp middle
      exact ⟨here,(first.toSameSymbols.allIndexed (first.still here) ids').mp ((second.counted middle).mp last)⟩
    · rintro ⟨here,there⟩
      have middle := (first.counted counted).mpr here
      exact (second.counted middle).mpr ((first.toSameSymbols.allIndexed (first.still here) ids').mpr there)

theorem Sought.of_eq {g g' : SymbolGraph} (coherent : g.refs.Coherent) (same : SameSymbols g g')
    (index : g'.symbolIdIndex = g.symbolIdIndex) (totalSymbols : g'.totalSymbols = g.totalSymbols)
    (refs : g'.refs = g.refs) (totalEdges : g'.totalEdges = g.totalEdges) : Sought g [] g' where
  toSameSymbols := same
  coherent := refs ▸ coherent
  lags := (Keeps.of_eq index totalSymbols refs totalEdges).lags
  still _ := index
  counted counted := by
    rw [(Keeps.of_eq index totalSymbols refs totalEdges).counted counted]
    exact (iff_true_intro g.allIndexed_nil).symm

end Drains

end SymbolGraph

namespace ReferenceIndexes

theorem size_addReferenceToIndexes {refs : ReferenceIndexes} (coherent : refs.Coherent) (entry : RefStoreEntry) :
    (refs.addReferenceToIndexes entry).2.refStore.size =
      if (refs.addReferenceToIndexes entry).1 then refs.refStore.size + 1 else refs.refStore.size := by
  unfold addReferenceToIndexes
  split
  next => rfl
  next => exact CaseInsensitiveMap.size_set_fresh (coherent.mint_fresh entry.sourceFileUri entry.sourceSymbolId) entry

theorem addReferenceToIndexes_added (refs : ReferenceIndexes) (entry : RefStoreEntry) :
    (refs.addReferenceToIndexes entry).1 = !refs.hasDuplicate entry := by
  unfold addReferenceToIndexes
  cases refs.hasDuplicate entry <;> rfl

end ReferenceIndexes

namespace SymbolGraph

def insertCounted (g : SymbolGraph) (edge : RefStoreEntry) : SymbolGraph :=
  { g with
    refs := (g.refs.addReferenceToIndexes edge).2
    totalEdges := if (g.refs.addReferenceToIndexes edge).1 then g.totalEdges + 1 else g.totalEdges }

theorem addEdge_eq (g : SymbolGraph) (source target : Ref) (referenceType : ReferenceType) (location : SymbolLocation)
    (context : Option ReferenceContext) : g.addEdge source target referenceType location context =
      g.insertCounted (edgeBetween g.heap source target referenceType location context) := rfl

theorem insertCounted_sought {g : SymbolGraph} (coherent : g.refs.Coherent) (edge : RefStoreEntry) :
    Sought g [] (g.insertCounted edge) := by
  have together : (g.insertCounted edge).totalEdges + g.refs.refStore.size =
      (g.insertCounted edge).refs.refStore.size + g.totalEdges := by
    simp only [insertCounted,ReferenceIndexes.size_addReferenceToIndexes coherent]
    split <;> omega
  refine ⟨⟨rfl,rfl,rfl,rfl,rfl,rfl,rfl,rfl,fun _ => rfl,fun _ _ => id⟩,?_,⟨Nat.le_refl _,by omega⟩,fun _ => rfl,?_⟩
  · exact ReferenceIndexes.addReferenceToIndexes_coherent coherent edge
  · intro counted
    refine iff_of_true ⟨counted.symbols,?_⟩ g.allIndexed_nil
    have edges := counted.edges
    omega

section Drains

theorem SameSymbols.idsSearched {g g' : SymbolGraph} (same : SameSymbols g g') (fileUri : String) :
    g'.idsSearched fileUri = g.idsSearched fileUri := by
  simp only [SymbolGraph.idsSearched,idsOfFile,same.fileToSymbolTable,same.fileIndex]

theorem SameSymbols.idsOfSource {g g' : SymbolGraph} (same : SameSymbols g g') : g'.idsOfSource = g.idsOfSource := by
  funext entry
  simp only [SymbolGraph.idsOfSource,same.heap,same.idsSearched]

theorem SameSymbols.idsNamed {g g' : SymbolGraph} (same : SameSymbols g g') (name : String) :
    g'.idsNamed name = g.idsNamed name := by
  simp only [SymbolGraph.idsNamed,same.nameIndex]

theorem placeEntry_sought (pick : Pick) (candidates : List Ref) {g : SymbolGraph} (coherent : g.refs.Coherent)
    (entry : DeferredReference) : Sought g (g.idsOfSource entry) (placeEntry pick candidates g entry).2 := by
  simp only [placeEntry,idsOfSource]
  split
  next => exact Sought.refl coherent
  next =>
    have looked := findSymbolInFileByName_looked g (g.heap entry.sourceSymbol).fileUri (g.heap entry.sourceSymbol).name
    obtain ⟨g',found,_⟩ := findSymbolInFileByName_spec g (g.heap entry.sourceSymbol).fileUri
      (g.heap entry.sourceSymbol).name
    rw [found] at looked
    rw [found]
    have sought := looked.sought coherent
    cases g.firstNamed (g.heap entry.sourceSymbol).fileUri (g.heap entry.sourceSymbol).name with
    | none => exact sought
    | some source =>
      simp only
      split
      next => exact sought
      next target _ =>
        rw [addEdge_eq]
        simpa using sought.trans (insertCounted_sought sought.coherent _)

theorem placeEntries_sought (pick : Pick) (candidates : List Ref) {g : SymbolGraph} (coherent : g.refs.Coherent)
    (entries : List DeferredReference) :
    Sought g (entries.flatMap g.idsOfSource) (placeEntries pick candidates g entries).1 := by
  induction entries generalizing g with
  | nil => exact Sought.refl coherent
  | cons entry rest ih =>
    have first := placeEntry_sought pick candidates coherent entry
    have later := ih first.coherent
    rw [first.toSameSymbols.idsOfSource] at later
    simp only [placeEntries]
    have both := first.trans later
    split <;> exact both

theorem keepDeferred_sought {g : SymbolGraph} (coherent : g.refs.Coherent) (name : String)
    (remaining : List DeferredReference) : Sought g [] (g.keepDeferred name remaining) :=
  .of_eq coherent ⟨rfl,rfl,rfl,rfl,rfl,rfl,rfl,rfl,fun _ => rfl,fun _ _ => id⟩ rfl rfl rfl rfl

theorem pass_sought (pick : Pick) {g : SymbolGraph} (coherent : g.refs.Coherent) (name : String)
    (entries : List DeferredReference) : ∃ h, g.findSymbolByName name = (g.symbolsNamed name,h) ∧ Sought g (g.idsNamed name) h ∧
      ∀ remaining, Sought g (g.idsNamed name ++ entries.flatMap g.idsOfSource)
        ((placeEntries pick (g.symbolsNamed name) h entries).1.keepDeferred name remaining) := by
  obtain ⟨h,found,_⟩ := findSymbolByName_spec g name
  have first := (findSymbolByName_looked g name).sought coherent
  rw [found] at first
  have later := placeEntries_sought pick (g.symbolsNamed name) first.coherent entries
  rw [first.toSameSymbols.idsOfSource] at later
  refine ⟨h,found,first,fun remaining => ?_⟩
  have both := first.trans later
  simpa using both.trans (keepDeferred_sought both.coherent name remaining)

theorem drainName_sought (resolved : Nat) {g : SymbolGraph} (coherent : g.refs.Coherent) (name : String) :
    Sought g (g.idsOfPass name (g.deferredUnder name)) (drainName (resolved,g) name).2 := by
  simp only [drainName,idsOfPass]
  rw [show (g.deferredReferences.get name).getD [] = g.deferredUnder name from rfl]
  cases pending : g.deferredUnder name with
  | nil =>
    exact .of_eq coherent ⟨rfl,rfl,rfl,rfl,rfl,rfl,rfl,rfl,fun _ => rfl,fun _ _ => id⟩ rfl rfl rfl rfl
  | cons entry rest =>
    obtain ⟨h,found,first,both⟩ := pass_sought syncPick coherent name (entry :: rest)
    rw [found]
    cases candidates : g.symbolsNamed name with
    | nil => simpa [candidates] using first
    | cons c others =>
      rw [candidates] at both
      simpa [candidates] using both _

theorem processDeferredReferencesBatch_sought {g : SymbolGraph} (coherent : g.refs.Coherent) (name : String)
    (size : Nat) : Sought g (g.idsOfPass name ((g.deferredUnder name).take size))
      (g.processDeferredReferencesBatch name size).2 := by
  simp only [processDeferredReferencesBatch,idsOfPass]
  rw [show (g.deferredReferences.get name).getD [] = g.deferredUnder name from rfl]
  cases pending : g.deferredUnder name with
  | nil => exact Sought.refl coherent
  | cons entry rest =>
    obtain ⟨h,found,first,both⟩ := pass_sought pickDeferredTargetForEntry coherent name ((entry :: rest).take size)
    rw [found]
    cases candidates : g.symbolsNamed name with
    | nil => simpa [candidates] using first
    | cons c others =>
      rw [candidates] at both
      simpa [candidates] using both _

theorem drainNames_sought (names : List String) (distinct : (names.map toLowerCase).Nodup) (resolved : Nat)
    {g : SymbolGraph} (coherent : g.refs.Coherent) :
    Sought g (names.flatMap (fun name => g.idsOfPass name (g.deferredUnder name)))
      (names.foldl drainName (resolved,g)).2 := by
  induction names generalizing g resolved with
  | nil => exact Sought.refl coherent
  | cons name rest ih =>
    simp only [List.map_cons,List.nodup_cons,List.mem_map,not_exists,not_and] at distinct
    obtain ⟨n,h,drained,_,left⟩ := drainName_spec resolved g name
    have first := drainName_sought resolved coherent name
    rw [drained] at first
    have same := first.toSameSymbols
    have others := ih distinct.2 n first.coherent
    have untouched : rest.flatMap (fun other => h.idsOfPass other (h.deferredUnder other)) =
        rest.flatMap (fun other => g.idsOfPass other (g.deferredUnder other)) := by
      apply List.flatMap_congr
      intro other member
      have waiting : h.deferredUnder other = g.deferredUnder other := by
        rw [left,if_neg (distinct.1 other member)]
      simp only [idsOfPass,waiting,same.idsNamed,same.symbolsNamed,same.idsOfSource]
    rw [untouched] at others
    rw [List.foldl_cons,drained]
    exact first.trans others

end Drains

section Keywords

theorem insert_keeps {g : SymbolGraph} (coherent : g.refs.Coherent) (edge : RefStoreEntry) :
    Keeps g (g.refs.hasDuplicate edge = true) { g with refs := (g.refs.addReferenceToIndexes edge).2 } := by
  have size := ReferenceIndexes.size_addReferenceToIndexes coherent edge
  rw [ReferenceIndexes.addReferenceToIndexes_added] at size
  refine ⟨⟨Nat.le_refl _,?_⟩,fun counted => ?_⟩
  · simp only [size]
    split <;> omega
  · have edges := counted.edges
    constructor
    · intro last
      have same := last.edges
      simp only [size] at same
      cases duplicate : g.refs.hasDuplicate edge with
      | true => rfl
      | false =>
        rw [duplicate] at same
        simp at same
        omega
    · intro duplicate
      rw [duplicate] at size
      exact ⟨counted.symbols,edges.trans size.symm⟩

theorem withScalarKeyword_keeps (g : SymbolGraph) (target : Ref) : Keeps g True (g.withScalarKeyword target) := by
  simp only [withScalarKeyword]
  split
  next => exact .of_eq rfl rfl rfl rfl
  next absent =>
    have size : (g.addVirtualSymbol target
        (generateSymbolId (g.heap target).name (g.heap target).fileUri)).symbolIdIndex.size =
          g.symbolIdIndex.size + 1 := by
      simp only [addVirtualSymbol,OrderedMap.size_set,absent,Bool.false_eq_true,if_false]
    refine ⟨⟨?_,Nat.le_refl _⟩,fun counted => iff_true_intro ⟨?_,counted.edges⟩⟩
    · rw [size]
      simp only [addVirtualSymbol]
      omega
    · rw [size,← counted.symbols]
      rfl

theorem withScalarKeyword_refs (g : SymbolGraph) (target : Ref) : (g.withScalarKeyword target).refs = g.refs := by
  simp only [withScalarKeyword]
  split <;> rfl

theorem addReferenceToGraph_keeps {g : SymbolGraph} (coherent : g.refs.Coherent) (source target : Ref)
    (targetSymbolId : String) (referenceType : ReferenceType) (location : SymbolLocation)
    (context : Option ReferenceContext) :
    Keeps g (g.AddsNone source target targetSymbolId referenceType location context)
      (g.addReferenceToGraph source target targetSymbolId referenceType location context) := by
  unfold addReferenceToGraph AddsNone
  split
  next stops => simpa [stops] using Keeps.of_eq (g := g) rfl rfl rfl rfl
  next goes =>
    have looked := findSymbolInFileByName_looked g (extractFilePathFromUri (g.heap source).fileUri) (g.heap source).name
    obtain ⟨g',found,memoised⟩ := findSymbolInFileByName_spec g (extractFilePathFromUri (g.heap source).fileUri)
      (g.heap source).name
    rw [found] at looked
    rw [found]
    simp only [goes,false_or]
    cases g.firstNamed (extractFilePathFromUri (g.heap source).fileUri) (g.heap source).name with
    | none => simpa using looked.keeps
    | some s =>
      have inserted := insert_keeps (looked.refs ▸ coherent)
        (g'.scalarEdge s target targetSymbolId referenceType location context)
      have both := looked.keeps.trans (fun _ => inserted) inserted.lags
      have duplicate : g'.refs.hasDuplicate (g'.scalarEdge s target targetSymbolId referenceType location context) =
          g.refs.hasDuplicate (g.scalarEdge s target targetSymbolId referenceType location context) := by
        simp only [scalarEdge,memoised.refs,memoised.heap]
      rw [duplicate] at both
      simpa [scalarEdge,memoised.heap] using both

theorem createVirtualSymbol_keeps {g : SymbolGraph} (coherent : g.refs.Coherent) (target source : Ref)
    (referenceType : ReferenceType) (location : SymbolLocation) (context : Option ReferenceContext) :
    Keeps g ((g.withScalarKeyword target).AddsNone source target
        (generateSymbolId (g.heap target).name (g.heap target).fileUri) referenceType location context)
      (g.createVirtualSymbolForStdlibScalarKeyword target source referenceType location context) := by
  have added := addReferenceToGraph_keeps (g := g.withScalarKeyword target)
    (by rw [withScalarKeyword_refs]; exact coherent) source target
    (generateSymbolId (g.heap target).name (g.heap target).fileUri) referenceType location context
  exact added.after (withScalarKeyword_keeps g target)

end Keywords

section Calls

theorem SameSymbols.idsOfTarget {g g' : SymbolGraph} (same : SameSymbols g g') (target : ApexSymbol) :
    g'.idsOfTarget target = g.idsOfTarget target := by
  simp only [SymbolGraph.idsOfTarget,idsOfStandIn,idsIdentified,same.symbolQualifiedIndex,same.identified,
    same.idsSearched]

theorem SameSymbols.targetStandIn {g g' : SymbolGraph} (same : SameSymbols g g') (target : ApexSymbol) :
    g'.targetStandIn target = g.targetStandIn target := by
  simp only [SymbolGraph.targetStandIn,same.standIn]

theorem addDeferredReference_eq (g : SymbolGraph) (name : String) (deferred : DeferredReference) :
    ∃ waiting, g.addDeferredReference name deferred = { g with deferredReferences := waiting } := by
  unfold addDeferredReference
  split
  next => exact ⟨g.deferredReferences,rfl⟩
  next => exact ⟨_,rfl⟩

theorem withScalarKeyword_deferred (g : SymbolGraph) (target : Ref)
    (waiting : CaseInsensitiveMap (List DeferredReference)) :
    { g with deferredReferences := waiting : SymbolGraph }.withScalarKeyword target =
      { g.withScalarKeyword target with deferredReferences := waiting } := by
  simp only [withScalarKeyword]
  split <;> rfl

theorem issueReference_keeps {g : SymbolGraph} (coherent : g.refs.Coherent) (source target : Ref)
    (referenceType : ReferenceType) (location : SymbolLocation) (context : Option ReferenceContext) :
    Keeps g (g.IssueCounted source target referenceType location context)
      (g.issueReference source target referenceType location context) := by
  obtain ⟨g₁,foundSource,first⟩ := findInGraph_spec g (g.heap source)
  obtain ⟨g₂,foundTarget,second⟩ := findTarget_spec g₁ (g₁.heap target)
  have lookedSource := findInGraph_looked g (g.heap source)
  have lookedTarget := findTarget_looked g₁ (g₁.heap target)
  rw [foundSource] at lookedSource
  rw [foundTarget,first.toSameSymbols.idsOfTarget,first.heap] at lookedTarget
  have looked := lookedSource.trans lookedTarget
  rw [first.heap,first.toSameSymbols.targetStandIn] at foundTarget
  have coherent₂ : g₂.refs.Coherent := looked.refs ▸ coherent
  simp only [issueReference,foundSource,foundTarget,first.heap,IssueCounted]
  split
  next s t onSource onTarget =>
    have inserted := (insertCounted_sought coherent₂ (edgeBetween g₂.heap s t referenceType location context)).keeps
    rw [eq_true g₂.allIndexed_nil] at inserted
    simpa [onSource,onTarget,addEdge_eq] using looked.keeps.before inserted
  next missing =>
    have deferring : g.standIn (g.heap source) = none ∨ g.targetStandIn (g.heap target) = none := by
      by_contra present
      simp only [not_or,Option.ne_none_iff_exists'] at present
      obtain ⟨⟨s,onSource⟩,t,onTarget⟩ := present
      exact missing s t onSource onTarget
    obtain ⟨waiting,deferred⟩ := g₂.addDeferredReference_eq (g₂.heap target).name
      { sourceSymbol := source
        referenceType := referenceType
        location := location
        targetFileUri := targetHint (g₂.heap target)
        context := context }
    rw [deferred]
    have kept : Keeps g₂ True { g₂ with deferredReferences := waiting } := .of_eq rfl rfl rfl rfl
    have waits := looked.keeps.before kept
    have sameHeap : g₂.heap = g.heap := looked.heap
    simp only [deferring,true_imp_iff]
    split
    next keyword =>
      change isStdlibScalarKeyword (g₂.heap target) = true at keyword
      rw [sameHeap] at keyword
      have created := createVirtualSymbol_keeps (g := { g₂ with deferredReferences := waiting }) coherent₂ target source
        referenceType location context
      simp only [keyword,true_imp_iff]
      refine waits.trans (fun indexed => ?_) created.lags
      have same : g₂ = g := looked.still indexed
      rw [same] at created ⊢
      rw [withScalarKeyword_deferred] at created
      exact created
    next plain =>
      change ¬ isStdlibScalarKeyword (g₂.heap target) = true at plain
      rw [sameHeap] at plain
      simpa only [plain,Bool.false_eq_true,false_imp_iff,and_true] using waits

theorem addReference_keeps {g : SymbolGraph} (coherent : g.refs.Coherent) (source target : Ref)
    (referenceType : ReferenceType) (location : SymbolLocation) (context : Option ReferenceContext) :
    Keeps g (g.CallCounted (.addReference source target referenceType location context))
      (g.addReference source target referenceType location context) := by
  have normalized : Keeps g True (g.normalizeSource source) := .of_eq rfl rfl rfl rfl
  simp only [addReference,CallCounted]
  split
  next loose => simpa [loose] using Keeps.of_eq (g := g) rfl rfl rfl rfl
  next anchored =>
    split
    next block => simpa [block] using normalized
    next semantic =>
      simp only [anchored,semantic,false_or]
      cases (g.normalizeSource source).declaringSource source with
      | none => simpa using normalized
      | some s =>
        have issued := issueReference_keeps (g := g.normalizeSource source) coherent s target referenceType location
          context
        simpa using issued.after normalized

theorem enqueueDeferredReference_keeps (g : SymbolGraph) (source : Ref) (name : String) (referenceType : ReferenceType)
    (location : SymbolLocation) (context : Option ReferenceContext) (targetFileUri : Option String) :
    Keeps g True (g.enqueueDeferredReference source name referenceType location context targetFileUri) := by
  simp only [enqueueDeferredReference]
  split
  next => exact .of_eq rfl rfl rfl rfl
  next =>
    split
    next => exact .of_eq rfl rfl rfl rfl
    next s _ =>
      obtain ⟨waiting,deferred⟩ := (g.normalizeSource source).addDeferredReference_eq name
        { sourceSymbol := s
          referenceType := referenceType
          location := location
          targetFileUri := if truthy targetFileUri then targetFileUri.map extractFilePathFromUri else none
          context := context }
      rw [deferred]
      exact .of_eq rfl rfl rfl rfl

theorem registerSymbolTable_keeps (g : SymbolGraph) (t : TableRef) (fileUri : String) (options : RegistrationOptions) :
    Keeps g True (g.registerSymbolTable t fileUri options).2 := by
  unfold registerSymbolTable
  simp only
  split
  next => exact .of_eq rfl rfl rfl rfl
  next =>
    split
    next => exact .of_eq rfl rfl rfl rfl
    next =>
      split
      next => exact .of_eq rfl rfl rfl rfl
      next => exact .of_eq rfl rfl rfl rfl

theorem ensureSymbolTableForFile_keeps (g : SymbolGraph) (fileUri : String) :
    Keeps g True (g.ensureSymbolTableForFile fileUri) := by
  simp only [ensureSymbolTableForFile]
  split
  next => exact .of_eq rfl rfl rfl rfl
  next => exact .of_eq rfl rfl rfl rfl

theorem indexSymbol_keeps (g : SymbolGraph) (symbol : Ref) (symbolId normalizedFileUri : String) :
    Keeps g True (g.indexSymbol symbol symbolId normalizedFileUri) := by
  cases known : g.symbolIdIndex.has symbolId with
  | true => exact .of_eq (by simp [indexSymbol,known]) (by simp [indexSymbol,known]) rfl rfl
  | false =>
    have size : (g.indexSymbol symbol symbolId normalizedFileUri).symbolIdIndex.size = g.symbolIdIndex.size + 1 := by
      simp [indexSymbol,known,OrderedMap.size_set]
    have total : (g.indexSymbol symbol symbolId normalizedFileUri).totalSymbols = g.totalSymbols + 1 := by
      simp [indexSymbol,known]
    refine ⟨⟨by omega,Nat.le_refl _⟩,fun counted => iff_true_intro ⟨?_,counted.edges⟩⟩
    rw [size,total,counted.symbols]

theorem addSymbol_keeps (g : SymbolGraph) (symbol : Ref) (fileUri : String) (symbolTable : Option TableRef) :
    Keeps g True (g.addSymbol symbol fileUri symbolTable) := by
  have filed : ∀ g', Keeps g True g' → ∀ t id file,
      Keeps g True { (g'.addToTable t symbol).indexSymbol symbol id file with
        heap := (((g'.addToTable t symbol).indexSymbol symbol id file).heap.put symbol
          (markStandardClass fileUri (((g'.addToTable t symbol).indexSymbol symbol id file).heap symbol))) } := by
    intro g' first t id file
    have stored : Keeps g' True (g'.addToTable t symbol) := .of_eq rfl rfl rfl rfl
    have indexed := indexSymbol_keeps (g'.addToTable t symbol) symbol id file
    exact ((first.before stored).before indexed).before (.of_eq rfl rfl rfl rfl)
  simp only [addSymbol]
  cases symbolTable with
  | none =>
    have ensured := ensureSymbolTableForFile_keeps g (extractFilePathFromUri fileUri)
    split
    next => exact ensured
    next t _ => exact filed _ ensured t _ _
  | some t => exact filed _ (registerSymbolTable_keeps g t (extractFilePathFromUri fileUri) {}) t _ _

theorem readsRefs_lags {g : SymbolGraph} (coherent : g.refs.Coherent) {c : GraphCall} (reads : c.readsRefs = true) :
    Lags g (g.call c) := by
  cases c with
  | drainAllDeferredReferences =>
    exact (drainNames_sought g.deferredReferences.keys g.deferredReferences.keys_toLowerCase_nodup 0 coherent).lags
  | processDeferredReferencesBatch name size => exact (processDeferredReferencesBatch_sought coherent name size).lags
  | _ => simp [GraphCall.readsRefs] at reads

theorem call_counted {g : SymbolGraph} (coherent : g.refs.Coherent) (counted : g.Counted) (c : GraphCall) :
    (g.call c).Counted ↔ g.CallCounted c := by
  cases c with
  | addSymbol symbol fileUri symbolTable => exact (addSymbol_keeps g symbol fileUri symbolTable).counted counted
  | registerSymbolTable t fileUri options => exact (registerSymbolTable_keeps g t fileUri options).counted counted
  | addReference source target referenceType location context =>
    exact (addReference_keeps coherent source target referenceType location context).counted counted
  | enqueueDeferredReference source name referenceType location context targetFileUri =>
    exact (enqueueDeferredReference_keeps g source name referenceType location context targetFileUri).counted counted
  | clearReferenceStateForFile fileUri => exact iff_true_intro ⟨counted.symbols,rfl⟩
  | evictStaleFileDeclarations fileUri liveSymbolIds =>
    refine iff_true_intro ?_
    simp only [call,evictStaleFileDeclarations]
    split
    next => exact counted
    next => exact ⟨rfl,rfl⟩
  | removeFile fileUri => exact iff_true_intro ⟨rfl,rfl⟩
  | drainAllDeferredReferences =>
    exact (drainNames_sought g.deferredReferences.keys g.deferredReferences.keys_toLowerCase_nodup 0
      coherent).counted counted
  | processDeferredReferencesBatch name size =>
    exact (processDeferredReferencesBatch_sought coherent name size).counted counted
  | getSymbol symbolId =>
    have asked := (getSymbol_looked g symbolId).counted counted
    simp only [AllIndexed,List.forall_mem_singleton] at asked
    exact asked
  | findSymbolByName name => exact (findSymbolByName_looked g name).counted counted
  | clear => exact iff_true_intro ⟨rfl,rfl⟩

end Calls

end SymbolGraph

namespace CountedGraph

theorem countsExact_iff {m : CountedGraph} : m.CountsExact ↔ m.graph.Counted := by
  have distinct : m.graph.symbolIdIndex.keys.dedup.length = m.graph.symbolIdIndex.size := by
    rw [List.Nodup.dedup m.graph.symbolIdIndex.keys_nodup,OrderedMap.size_keys]
  constructor
  · rintro ⟨edges,_,stats⟩
    exact ⟨stats.symm,edges⟩
  · rintro ⟨symbols,edges⟩
    exact ⟨edges,distinct.symm,symbols.symm⟩

/-- What the `Ref` holds on its own is what `clear` put there. -/
structure Kept (m : CountedGraph) : Prop where
  coherent : m.graph.refs.Coherent
  zeroed : ∀ stats ∈ m.memoryStatsRef, stats = {}

theorem syncClassFieldsFromRefs_refs (m : CountedGraph) : m.syncClassFieldsFromRefs.graph.refs = m.graph.refs := by
  unfold syncClassFieldsFromRefs
  split <;> rfl

theorem syncClassFieldsFromRefs_kept {m : CountedGraph} (kept : m.Kept) : m.syncClassFieldsFromRefs.Kept := by
  refine ⟨by rw [syncClassFieldsFromRefs_refs]; exact kept.coherent,?_⟩
  unfold syncClassFieldsFromRefs
  split
  next => exact kept.zeroed
  next => simp

theorem syncClassFieldsFromRefs_joined {m : CountedGraph} (joined : m.Joined) :
    m.syncClassFieldsFromRefs.graph = m.graph := by
  unfold syncClassFieldsFromRefs
  split
  next => rfl
  next stats held =>
    have same := joined stats held
    subst same
    rfl

theorem syncClassFieldsFromRefs_wiped {m : CountedGraph} (kept : m.Kept) (counted : m.graph.Counted)
    (apart : ¬ m.Joined) (lags : SymbolGraph.Lags m.syncClassFieldsFromRefs.graph g) : ¬ g.Counted := by
  simp only [Joined,not_forall] at apart
  obtain ⟨stats,held,other⟩ := apart
  have zero := kept.zeroed stats held
  have synced : m.syncClassFieldsFromRefs.graph = { m.graph with totalSymbols := 0,totalEdges := 0 } := by
    unfold syncClassFieldsFromRefs
    rw [Option.mem_def.mp held,zero]
  rw [synced] at lags
  intro last
  have symbols := lags.symbols
  have edges := lags.edges
  rw [last.symbols] at symbols
  rw [last.edges] at edges
  simp only [Nat.add_zero] at symbols edges
  apply other
  rw [zero,SymbolGraph.memoryStats,counted.symbols,counted.edges]
  simp only [MemoryStats.mk.injEq]
  omega

theorem call_onGraph (m : CountedGraph) {c : GraphCall} (other : c ≠ .clear) : m.call (.onGraph c) =
    { (if c.readsRefs then m.syncClassFieldsFromRefs else m) with
      graph := (if c.readsRefs then m.syncClassFieldsFromRefs else m).graph.call c } := by
  cases c with
  | clear => exact absurd rfl other
  | _ => rfl

theorem call_kept {m : CountedGraph} (kept : m.Kept) (c : CountedCall) : (m.call c).Kept := by
  cases c with
  | getDeferredReferences symbolName => exact syncClassFieldsFromRefs_kept kept
  | onGraph c =>
    by_cases cleared : c = .clear
    · subst cleared
      exact ⟨ReferenceIndexes.Coherent.empty,by simp [call,clear]⟩
    · rw [call_onGraph m cleared]
      have read : (if c.readsRefs then m.syncClassFieldsFromRefs else m).Kept := by
        split
        next => exact syncClassFieldsFromRefs_kept kept
        next => exact kept
      exact ⟨SymbolGraph.call_coherent _ c read.coherent,read.zeroed⟩

theorem call_countsExact {m : CountedGraph} (kept : m.Kept) (exact_ : m.CountsExact) (c : CountedCall) :
    (m.call c).CountsExact ↔ m.CallCounted c := by
  rw [countsExact_iff] at exact_ ⊢
  have unread : m.Joined → m.syncClassFieldsFromRefs.graph.Counted := fun joined =>
    (syncClassFieldsFromRefs_joined joined).symm ▸ exact_
  cases c with
  | getDeferredReferences symbolName =>
    refine ⟨fun counted => ?_,unread⟩
    by_contra apart
    exact syncClassFieldsFromRefs_wiped kept exact_ apart (SymbolGraph.Lags.refl _) counted
  | onGraph c =>
    by_cases cleared : c = .clear
    · subst cleared
      exact iff_of_true ⟨rfl,rfl⟩ ⟨by simp [GraphCall.readsRefs],trivial⟩
    · rw [call_onGraph m cleared,CallCounted]
      cases reads : c.readsRefs with
      | false => simpa using SymbolGraph.call_counted kept.coherent exact_ c
      | true =>
        simp only [if_true,true_imp_iff]
        by_cases joined : m.Joined
        · rw [syncClassFieldsFromRefs_joined joined]
          simpa [joined] using SymbolGraph.call_counted kept.coherent exact_ c
        · have lags := SymbolGraph.readsRefs_lags (g := m.syncClassFieldsFromRefs.graph)
            (syncClassFieldsFromRefs_kept kept).coherent reads
          simpa [joined] using syncClassFieldsFromRefs_wiped kept exact_ joined lags

/-- In a run the counters are exact throughout if and only if every call inserts nothing that is
not counted and reads back no other statistics. -/
theorem counts_exact_iff (heap : Heap) (tables : TableRef → SymbolTable) (calls : List CountedCall) :
    EveryState call CountsExact (start heap tables) calls ↔ EveryStep call CallCounted (start heap tables) calls := by
  apply everyState_iff_everyStep (A := Kept)
  · exact fun _ c kept _ _ => call_kept kept c
  · exact fun _ c kept exact_ => call_countsExact kept exact_ c
  · exact ⟨ReferenceIndexes.Coherent.empty,by simp [start]⟩
  · exact countsExact_iff.mpr ⟨rfl,rfl⟩

end CountedGraph
end

namespace CountedGraph

def classAndVoid : Heap
  | .declared 0 => @SymbolGraph.fileClass asciiRuntime "Foo" "file:///Foo.cls"
  | _ => @SymbolGraph.fileClass asciiRuntime "void" "apexlib://resources/StandardApexLibrary/System/void"

def returnsVoid : List CountedCall :=
  [.onGraph (.addSymbol (.declared 0) "file:///Foo.cls" none),
    .onGraph (.addReference (.declared 0) (.declared 1) .typeReference ⟨⟨2,9,2,13⟩,⟨2,9,2,13⟩⟩ none)]

/-- The edge to `void` is stored and not counted. -/
theorem keyword_edge_uncounted :
    ¬ ∀ (heap : Heap) (tables : TableRef → SymbolTable) (calls : List CountedCall),
      EveryState (@call asciiRuntime) (@CountsExact asciiRuntime) (@start asciiRuntime heap tables) calls := by
  intro always
  have last := (always classAndVoid (fun _ => {}) returnsVoid).last
  exact absurd last (of_byteRuntime (fun _ => ¬ CountsExact (run call (start classAndVoid (fun _ => {})) returnsVoid))
    (by decide +kernel))

end CountedGraph
end ApexLs.Symbols
