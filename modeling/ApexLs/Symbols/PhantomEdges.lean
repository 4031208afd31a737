import ApexLs.Utils.AsciiBytes
import ApexLs.Symbols.IssuedReferences

/-! Edges of superseded text. A file that is read again or removed loses its edges, but not the
references it has waiting; a run without such left-overs never shows an edge that the text of
its file does not ask for. -/
namespace ApexLs.Symbols

open ApexLs.Utils ApexLs.Types ApexLs.Collections

def Declared (r : Ref) : Prop := ∃ n, r = .declared n

instance (r : Ref) : Decidable (Declared r) :=
  match r with
  | .declared n => .isTrue ⟨n,rfl⟩
  | .scalar _ => .isFalse (fun ⟨_,same⟩ => by simp at same)

section

variable [Runtime]

def superseded : GraphCall → Option String
  | .clearReferenceStateForFile fileUri => some (toLowerCase (extractFilePathFromUri fileUri))
  | .removeFile fileUri => some (toLowerCase (extractFilePathFromUri fileUri))
  | _ => none

def issueOf (g : SymbolGraph) : GraphCall → Option Issue
  | .addReference source _ referenceType location context =>
    some ⟨homeOf (g.heap source),referenceType,location,context⟩
  | .enqueueDeferredReference source _ referenceType location context _ =>
    some ⟨homeOf (g.heap source),referenceType,location,context⟩
  | _ => none

/-- A graph beside the references issued for each file since its text was last superseded. -/
structure History where
  graph : SymbolGraph
  live : List Issue := []

namespace History

/-- An empty graph over the objects the parser made, before any reference. -/
def start (heap : Heap) (tables : TableRef → SymbolTable) : History where
  graph := { heap := heap,tables := tables }

def call (h : History) (c : GraphCall) : History where
  graph := h.graph.call c
  live := h.live.filter (fun issue => superseded c ≠ some issue.file) ++ (issueOf h.graph c).toList

/-- Every edge is one that a reference issued since can have produced. -/
def NoPhantom (h : History) : Prop :=
  ∀ k e, h.graph.refs.refStore.Holds k e → ∃ issue ∈ h.live, issue.Makes e

end History

namespace SymbolGraph

def TableOf (g : SymbolGraph) (t : TableRef) (fileUri : String) : Prop :=
  g.Made t ∧ toLowerCase (g.tables t).fileUri = toLowerCase (extractFilePathFromUri fileUri) ∧
    extractFilePathFromUri (extractFilePathFromUri fileUri) = extractFilePathFromUri fileUri

/-- The calls hand each file its own declarations and issue references between declarations. -/
def Proper (g : SymbolGraph) : GraphCall → Prop
  | .addSymbol symbol fileUri symbolTable => Declared symbol ∧
      homeOf (g.heap symbol) = toLowerCase (extractFilePathFromUri fileUri) ∧
      extractFilePathFromUri (extractFilePathFromUri fileUri) = extractFilePathFromUri fileUri ∧
      ∀ t ∈ symbolTable, g.TableOf t fileUri
  | .registerSymbolTable symbolTable fileUri _ => g.TableOf symbolTable fileUri
  | .addReference source target _ _ _ => Declared source ∧ Declared target
  | .enqueueDeferredReference source _ _ _ _ _ => Declared source
  | _ => True

def NoneLeftWaiting (g : SymbolGraph) (c : GraphCall) : Prop :=
  ∀ file ∈ superseded c, ∀ name ∈ g.deferredReferences.keys, ∀ entry ∈ g.deferredUnder name,
    homeOf (g.heap entry.sourceSymbol) ≠ file

/-- The effect of a call as far as edges and waiting references go: each comes from before,
from the call's own reference, or from one that waited. -/
structure Follows (g g' : SymbolGraph) (own : Option Issue) : Prop where
  placed : Placed g'
  edges : ∀ k e, g'.refs.refStore.Holds k e → g.refs.refStore.Holds k e ∨ (∃ issue ∈ own, issue.Makes e) ∨
    ∃ name, ∃ entry ∈ g.deferredUnder name, (entryIssue g.heap entry).Makes e
  pending : ∀ name, ∀ entry ∈ g'.deferredUnder name, (entry ∈ g.deferredUnder name ∧
    entryIssue g'.heap entry = entryIssue g.heap entry) ∨ entryIssue g'.heap entry ∈ own

theorem Follows.quiet {g g' : SymbolGraph} (placed : Placed g) (placed' : Placed g') (stays : Stays g.heap g'.heap)
    (edges : ∀ k e, g'.refs.refStore.Holds k e → g.refs.refStore.Holds k e)
    (pending : ∀ name, g'.deferredUnder name ⊆ g.deferredUnder name) (own : Option Issue) : Follows g g' own where
  placed := placed'
  edges k e holds := .inl (edges k e holds)
  pending name entry waiting := by
    have old := pending name waiting
    refine .inl ⟨old,?_⟩
    simp only [entryIssue,(stays _ (placed.pending name entry old)).2]

theorem Issued.follows {g g' : SymbolGraph} (issued : Issued g g' issue) (placed : Placed g) (coherent : g.refs.Coherent) :
    Follows g g' (some issue) where
  placed := issued.placed
  edges k e holds := by
    obtain ⟨asked,refs,makes⟩ := issued.edges
    rw [refs] at holds
    rcases (ReferenceIndexes.addAll_spec coherent asked).2.1 k e holds with old | new
    · exact .inl old
    · exact .inr (.inl ⟨issue,rfl,makes e new⟩)
  pending name entry waiting := by
    rcases issued.pending name entry waiting with old | new
    · refine .inl ⟨old,?_⟩
      simp only [entryIssue,(issued.stays _ (placed.pending name entry old)).2]
    · exact .inr (by rw [new]; rfl)

theorem edgesOf_makes {g : SymbolGraph} (placed : Placed g) {pick : Pick} {entries : List DeferredReference}
    (within : entries ⊆ g.deferredUnder name) (asked : e ∈ edgesOf pick g name entries) :
    ∃ entry ∈ g.deferredUnder name, (entryIssue g.heap entry).Makes e := by
  unfold edgesOf at asked
  split at asked
  next => simp at asked
  next =>
    obtain ⟨entry,member,edge⟩ := List.mem_filterMap.mp asked
    refine ⟨entry,within member,?_⟩
    unfold edgeOf at edge
    split at edge
    next => simp at edge
    next =>
      obtain ⟨source,found,picked⟩ := Option.bind_eq_some_iff.mp edge
      obtain ⟨target,_,rfl⟩ := Option.map_eq_some_iff.mp picked
      obtain ⟨_,home⟩ := placed.sourceOf (placed.pending name entry (within member)) found
      exact (entryIssue g.heap entry).makes_edgeBetween home target

theorem Drained.follows {g g' : SymbolGraph} (drained : Drained g g' asked) (placed : Placed g)
    (coherent : g.refs.Coherent)
    (makes : ∀ e ∈ asked, ∃ name, ∃ entry ∈ g.deferredUnder name, (entryIssue g.heap entry).Makes e)
    (pending : ∀ name, g'.deferredUnder name ⊆ g.deferredUnder name) : Follows g g' none where
  placed := placed.same drained.toSameSymbols pending
  edges k e holds := by
    rw [drained.refs] at holds
    rcases (ReferenceIndexes.addAll_spec coherent asked).2.1 k e holds with old | new
    · exact .inl old
    · exact .inr (.inr (makes e new))
  pending name entry waiting := .inl ⟨pending name waiting,by rw [drained.heap]⟩

theorem leftUnder_subset (g : SymbolGraph) (name : String) : g.leftUnder name ⊆ g.deferredUnder name := by
  unfold leftUnder
  split
  next => exact List.Subset.refl _
  next => exact List.filter_subset_self _

theorem drainAllDeferredReferencesSync_pending (g : SymbolGraph) (name : String) :
    g.drainAllDeferredReferencesSync.2.deferredUnder name ⊆ g.deferredUnder name := by
  rw [(drainAllDeferredReferencesSync_spec g).2]
  cases found : g.deferredReferences.keys.find? (fun other => toLowerCase name = toLowerCase other) with
  | none => exact List.Subset.refl _
  | some other =>
    have same : toLowerCase name = toLowerCase other := by simpa using List.find?_some found
    have under : g.deferredUnder name = g.deferredUnder other := by
      simp only [deferredUnder,CaseInsensitiveMap.get,same]
    rw [under]
    exact leftUnder_subset g other

theorem drainAllDeferredReferencesSync_follows {g : SymbolGraph} (placed : Placed g) (coherent : g.refs.Coherent) :
    Follows g g.drainAllDeferredReferencesSync.2 none := by
  obtain ⟨drained,_⟩ := drainAllDeferredReferencesSync_spec g
  apply drained.follows placed coherent
  · intro e asked
    obtain ⟨name,_,here⟩ := List.mem_flatMap.mp asked
    exact ⟨name,edgesOf_makes placed (List.Subset.refl _) here⟩
  · exact drainAllDeferredReferencesSync_pending g

theorem processDeferredReferencesBatch_pending (g : SymbolGraph) (name : String) (size : Nat) (name' : String) :
    (g.processDeferredReferencesBatch name size).2.deferredUnder name' ⊆ g.deferredUnder name' := by
  obtain ⟨r,h,batched,_,left⟩ := processDeferredReferencesBatch_spec g name size
  rw [batched,left]
  split
  next here =>
    have under : g.deferredUnder name' = g.deferredUnder name := by
      simp only [deferredUnder,CaseInsensitiveMap.get,here.1]
    rw [under]
    intro entry member
    rcases List.mem_append.mp member with later | waiting
    · exact List.mem_of_mem_drop later
    · exact List.mem_of_mem_take (List.mem_of_mem_filter waiting)
  next => exact List.Subset.refl _

section

variable {g : SymbolGraph} (placed : Placed g)
include placed

theorem processDeferredReferencesBatch_follows (coherent : g.refs.Coherent)
    (name : String) (size : Nat) : Follows g (g.processDeferredReferencesBatch name size).2 none := by
  have pending := processDeferredReferencesBatch_pending g name size
  obtain ⟨r,h,batched,drained,_⟩ := processDeferredReferencesBatch_spec g name size
  rw [batched] at pending ⊢
  refine drained.follows placed coherent ?_ pending
  intro e asked
  exact ⟨name,edgesOf_makes placed (List.take_subset _ _) asked⟩

theorem foldl_forgetSymbol_placed (normalizedUri : String) (symbolIds : List String) :
    ∃ g', symbolIds.foldl (forgetSymbol normalizedUri) g = g' ∧ Placed g' ∧ g'.heap = g.heap ∧ g'.refs = g.refs ∧
      g'.deferredReferences = g.deferredReferences ∧ g'.fileIndex = g.fileIndex := by
  induction symbolIds generalizing g with
  | nil => exact ⟨g,rfl,placed,rfl,rfl,rfl,rfl⟩
  | cons symbolId rest ih =>
    have forgotten : Placed (forgetSymbol normalizedUri g symbolId) := by
      refine placed.lessen rfl rfl rfl ?_ ?_ (fun _ _ found => found) (fun _ ids found => ⟨ids,found,List.Subset.refl _⟩)
        (fun _ => List.Subset.refl _)
      · intro id s found
        simp only [forgetSymbol,OrderedMap.get?_erase] at found
        split at found
        next => simp at found
        next => exact found
      · intro key s found
        simp only [forgetSymbol,CaseInsensitiveMap.lookup_delete] at found
        split at found
        next => simp at found
        next => exact found
    obtain ⟨g',rest_,placed',heap,refs,deferred,files⟩ := ih forgotten
    exact ⟨g',rest_,placed',heap,refs,deferred,files⟩

theorem removeFile_follows (coherent : g.refs.Coherent) (fileUri : String) :
    Follows g (g.removeFile fileUri) none := by
  obtain ⟨cleared,kept⟩ := ReferenceIndexes.removeReferencesFromFile_spec coherent (extractFilePathFromUri fileUri)
  obtain ⟨_,kept'⟩ := ReferenceIndexes.removeIncomingReferencesToSymbols_spec cleared
    ((g.fileIndex.get (extractFilePathFromUri fileUri)).getD []) (extractFilePathFromUri fileUri)
  have refs := removeFile_refs g fileUri
  simp only [removeFile] at refs ⊢
  obtain ⟨h,forgotten,placed',heap,_,deferred,files⟩ := foldl_forgetSymbol_placed
    (placed.addRefs ((g.refs.removeReferencesFromFile (extractFilePathFromUri fileUri)).removeIncomingReferencesToSymbols
      ((g.fileIndex.get (extractFilePathFromUri fileUri)).getD []) (extractFilePathFromUri fileUri)) g.totalEdges)
    (extractFilePathFromUri fileUri) ((g.fileIndex.get (extractFilePathFromUri fileUri)).getD [])
  rw [forgotten] at refs ⊢
  have less : Placed (syncTotals { h with
      fileIndex := h.fileIndex.delete (extractFilePathFromUri fileUri)
      fileToSymbolTable := h.fileToSymbolTable.delete (extractFilePathFromUri fileUri) }) := by
    refine placed'.lessen rfl rfl rfl (fun _ _ found => found) (fun _ _ found => found) ?_ ?_ (fun _ => List.Subset.refl _)
    · intro file t found
      simp only [syncTotals,CaseInsensitiveMap.lookup_delete] at found
      split at found
      next => simp at found
      next => exact found
    · intro file ids found
      simp only [syncTotals,CaseInsensitiveMap.lookup_delete] at found
      split at found
      next => simp at found
      next => exact ⟨ids,found,List.Subset.refl _⟩
  refine Follows.quiet placed less (heap ▸ Stays.refl g.heap) ?_ ?_ none
  · intro k e holds
    rw [refs] at holds
    exact ((kept k e).mp ((kept' k e).mp holds).1).1
  · intro name
    simp only [deferredUnder,syncTotals,deferred]
    exact List.Subset.refl _

theorem evictStaleFileDeclarations_placed (fileUri : String)
    (liveSymbolIds : List String) :
    Placed (g.evictStaleFileDeclarations fileUri liveSymbolIds) ∧
      (g.evictStaleFileDeclarations fileUri liveSymbolIds).heap = g.heap ∧
      (g.evictStaleFileDeclarations fileUri liveSymbolIds).deferredReferences = g.deferredReferences := by
  simp only [evictStaleFileDeclarations]
  generalize known : (g.fileIndex.get (extractFilePathFromUri fileUri)).getD [] = previousIds
  split
  next => exact ⟨placed,rfl,rfl⟩
  next =>
    obtain ⟨h,forgotten,placed',heap,_,deferred,files⟩ := foldl_forgetSymbol_placed
      (placed.addRefs (g.refs.removeIncomingReferencesToSymbols (previousIds.filter (· ∉ liveSymbolIds))
        (extractFilePathFromUri fileUri)) g.totalEdges)
      (extractFilePathFromUri fileUri) (previousIds.filter (· ∉ liveSymbolIds))
    rw [forgotten]
    refine ⟨?_,heap,deferred⟩
    refine placed'.lessen rfl rfl rfl (fun _ _ found => found) (fun _ _ found => found) (fun _ _ found => found) ?_
      (fun _ => List.Subset.refl _)
    intro file ids found
    simp only [syncTotals] at found
    split at found
    next =>
      rw [CaseInsensitiveMap.lookup_delete] at found
      split at found
      next => simp at found
      next => exact ⟨ids,found,List.Subset.refl _⟩
    next remaining =>
      rw [CaseInsensitiveMap.lookup_set] at found
      split at found
      next here =>
        obtain rfl := Option.some.inj found
        cases before : g.fileIndex.get (extractFilePathFromUri fileUri) with
        | none =>
          rw [before] at known
          subst known
          simp at remaining
        | some ids =>
          rw [before] at known
          subst known
          refine ⟨ids,?_,List.filter_subset_self _⟩
          rw [files,here]
          exact before
      next => exact ⟨ids,found,List.Subset.refl _⟩

theorem evictStaleFileDeclarations_follows (coherent : g.refs.Coherent)
    (fileUri : String) (liveSymbolIds : List String) :
    Follows g (g.evictStaleFileDeclarations fileUri liveSymbolIds) none := by
  obtain ⟨placed',heap,deferred⟩ := evictStaleFileDeclarations_placed placed fileUri liveSymbolIds
  refine Follows.quiet placed placed' (heap ▸ Stays.refl g.heap) ?_ ?_ none
  · intro k e holds
    simp only [evictStaleFileDeclarations] at holds
    split at holds
    next => exact holds
    next =>
      obtain ⟨_,kept⟩ := ReferenceIndexes.removeIncomingReferencesToSymbols_spec coherent
        (((g.fileIndex.get (extractFilePathFromUri fileUri)).getD []).filter (· ∉ liveSymbolIds))
        (extractFilePathFromUri fileUri)
      simp only [syncTotals,foldl_forgetSymbol_refs] at holds
      exact ((kept k e).mp holds).1
  · intro name
    rw [deferredUnder,deferred]
    exact List.Subset.refl _

theorem call_follows (coherent : g.refs.Coherent) {c : GraphCall} (proper : g.Proper c) :
    Follows g (g.call c) (issueOf g c) := by
  cases c with
  | addSymbol symbol fileUri symbolTable =>
    obtain ⟨⟨n,rfl⟩,home,normal,own⟩ := proper
    obtain ⟨stays,placed',deferred⟩ := addSymbol_placed placed (placed.sound n) home normal
      (fun t given => ⟨(own t given).1,(own t given).2.1⟩)
    refine Follows.quiet placed placed' stays (fun k e holds => ?_) (fun name => ?_) _
    · rwa [addSymbol_refs] at holds
    · rw [deferredUnder,deferred]
      exact List.Subset.refl _
  | registerSymbolTable symbolTable fileUri options =>
    obtain ⟨made,file,_⟩ := proper
    obtain ⟨g',registered,stays,placed',_,_,deferred⟩ := registerSymbolTable_placed placed file made options
    have refs := registerSymbolTable_refs g symbolTable fileUri options
    simp only [call,registered] at refs ⊢
    refine Follows.quiet placed placed' stays (fun k e holds => ?_) (fun name => ?_) _
    · rwa [refs] at holds
    · rw [deferredUnder,deferred]
      exact List.Subset.refl _
  | addReference source target referenceType location context =>
    obtain ⟨⟨n,rfl⟩,⟨m,rfl⟩⟩ := proper
    exact (addReference_issued placed ⟨homeOf (g.heap (.declared n)),referenceType,location,context⟩
      (placed.sound n) rfl (placed.declared m)).follows placed coherent
  | enqueueDeferredReference source name referenceType location context targetFileUri =>
    obtain ⟨n,rfl⟩ := proper
    exact (enqueueDeferredReference_issued placed ⟨homeOf (g.heap (.declared n)),referenceType,location,context⟩
      (placed.sound n) rfl name targetFileUri).follows placed coherent
  | clearReferenceStateForFile fileUri =>
    obtain ⟨_,kept⟩ := ReferenceIndexes.removeReferencesFromFile_spec coherent (extractFilePathFromUri fileUri)
    have cleared : Placed (g.clearReferenceStateForFile fileUri) := placed.addRefs _ _
    exact Follows.quiet placed cleared (Stays.refl g.heap) (fun k e holds => ((kept k e).mp holds).1)
      (fun _ => List.Subset.refl _) _
  | evictStaleFileDeclarations fileUri liveSymbolIds =>
    exact evictStaleFileDeclarations_follows placed coherent fileUri liveSymbolIds
  | removeFile fileUri => exact removeFile_follows placed coherent fileUri
  | drainAllDeferredReferences => exact drainAllDeferredReferencesSync_follows placed coherent
  | processDeferredReferencesBatch name size => exact processDeferredReferencesBatch_follows placed coherent name size
  | getSymbol symbolId =>
    obtain ⟨g',found,after⟩ := getSymbol_spec g symbolId
    simp only [call,found]
    refine Follows.quiet placed (placed.memoised after) (after.heap ▸ Stays.refl g.heap) (fun k e holds => ?_) (fun name => ?_) _
    · rwa [after.refs] at holds
    · rw [deferredUnder,after.deferredReferences]
      exact List.Subset.refl _
  | findSymbolByName name =>
    obtain ⟨g',found,after⟩ := findSymbolByName_spec g name
    simp only [call,found]
    refine Follows.quiet placed (placed.memoised after) (after.heap ▸ Stays.refl g.heap) (fun k e holds => ?_) (fun name => ?_) _
    · rwa [after.refs] at holds
    · rw [deferredUnder,after.deferredReferences]
      exact List.Subset.refl _
  | clear =>
    have empty : Placed g.clear := by
      refine placed.lessen rfl rfl rfl ?_ ?_ ?_ ?_ ?_
      · simp [clear]
      · simp [clear]
      · simp [clear]
      · simp [clear]
      · simp [clear,deferredUnder]
    refine Follows.quiet placed empty (Stays.refl g.heap) (fun k e holds => ?_) (fun name => ?_) _
    · exact absurd holds (CaseInsensitiveMap.not_holds_empty k e)
    · simp [clear,deferredUnder]

end

theorem superseded_cleared {g : SymbolGraph} (coherent : g.refs.Coherent) {c : GraphCall} (file : superseded c = some f)
    (holds : (g.call c).refs.refStore.Holds k e) : toLowerCase e.sourceFileUri ≠ f := by
  cases c with
  | clearReferenceStateForFile fileUri =>
    obtain rfl := Option.some.inj file
    obtain ⟨_,kept⟩ := ReferenceIndexes.removeReferencesFromFile_spec coherent (extractFilePathFromUri fileUri)
    exact ((kept k e).mp holds).2
  | removeFile fileUri =>
    obtain rfl := Option.some.inj file
    obtain ⟨cleared,kept⟩ := ReferenceIndexes.removeReferencesFromFile_spec coherent (extractFilePathFromUri fileUri)
    obtain ⟨_,kept'⟩ := ReferenceIndexes.removeIncomingReferencesToSymbols_spec cleared
      ((g.fileIndex.get (extractFilePathFromUri fileUri)).getD []) (extractFilePathFromUri fileUri)
    simp only [call,removeFile_refs] at holds
    exact ((kept k e).mp ((kept' k e).mp holds).1).2
  | _ => simp [superseded] at file

end SymbolGraph

namespace History

structure Traced (h : History) : Prop where
  placed : h.graph.Placed
  coherent : h.graph.refs.Coherent
  edges : h.NoPhantom
  pending : ∀ name, ∀ entry ∈ h.graph.deferredUnder name, entryIssue h.graph.heap entry ∈ h.live

theorem call_traced {h : History} (traced : Traced h) {c : GraphCall} (proper : h.graph.Proper c)
    (none_ : h.graph.NoneLeftWaiting c) : Traced (h.call c) := by
  have follows := SymbolGraph.call_follows traced.placed traced.coherent proper
  have kept : ∀ issue ∈ h.live, superseded c ≠ some issue.file → issue ∈ (h.call c).live :=
    fun issue member other => List.mem_append.mpr (.inl (List.mem_filter.mpr ⟨member,by simpa using other⟩))
  have own : ∀ issue ∈ issueOf h.graph c, issue ∈ (h.call c).live :=
    fun issue issued => List.mem_append.mpr (.inr (Option.mem_toList.mpr issued))
  -- the references that wait belong to files the call does not supersede
  have waiting : ∀ name, ∀ entry ∈ h.graph.deferredUnder name, entryIssue h.graph.heap entry ∈ (h.call c).live := by
    intro name entry waits
    refine kept _ (traced.pending name entry waits) (fun same => ?_)
    cases pending : h.graph.deferredReferences.get name with
    | none => simp [SymbolGraph.deferredUnder,pending] at waits
    | some entries =>
      obtain ⟨original,holds,spelled⟩ := CaseInsensitiveMap.get_eq_some_iff.mp pending
      have under : h.graph.deferredUnder original = h.graph.deferredUnder name := by
        simp only [SymbolGraph.deferredUnder,CaseInsensitiveMap.get,spelled]
      exact none_ _ same original (CaseInsensitiveMap.holds_iff_mem_keys.mp ⟨_,holds⟩) entry (under ▸ waits) rfl
  refine ⟨follows.placed,SymbolGraph.call_coherent _ c traced.coherent,fun k e holds => ?_,fun name entry waits => ?_⟩
  · rcases follows.edges k e holds with old | ⟨issue,issued,makes⟩ | ⟨name,entry,waits,makes⟩
    · obtain ⟨issue,member,makes⟩ := traced.edges k e old
      refine ⟨issue,kept issue member (fun same => ?_),makes⟩
      exact SymbolGraph.superseded_cleared traced.coherent same holds makes.file
    · exact ⟨issue,own issue issued,makes⟩
    · exact ⟨_,waiting name entry waits,makes⟩
  · rcases follows.pending name entry waits with ⟨old,same⟩ | new
    · exact same ▸ waiting name entry old
    · exact own _ new

theorem noPhantom_iff {h : History} : NoPhantom h ↔ ∀ k ∈ h.graph.refs.refStore.keys,
    ∀ e ∈ h.graph.refs.refStore.get k, ∃ issue ∈ h.live, issue.Makes e := by
  constructor
  · intro traced k _ e found
    obtain ⟨original,holds,_⟩ := CaseInsensitiveMap.get_eq_some_iff.mp found
    exact traced original e holds
  · intro traced k e holds
    exact traced k (CaseInsensitiveMap.holds_iff_mem_keys.mp ⟨e,holds⟩) e holds.get

instance (h : History) : Decidable (NoPhantom h) := decidable_of_iff _ noPhantom_iff.symm

end History

namespace SymbolGraph

instance (g : SymbolGraph) (t : TableRef) : Decidable (g.Made t) :=
  match t with
  | .parsed _ => .isTrue (fun _ same => by simp at same)
  | .ensured n => decidable_of_iff (n < g.ensured) ⟨fun made _ same => TableRef.ensured.inj same ▸ made,fun made => made n rfl⟩

instance (g : SymbolGraph) (t : TableRef) (fileUri : String) : Decidable (g.TableOf t fileUri) :=
  inferInstanceAs (Decidable (_ ∧ _ ∧ _))

instance (g : SymbolGraph) (c : GraphCall) : Decidable (g.Proper c) :=
  match c with
  | .addSymbol _ _ _ => inferInstanceAs (Decidable (_ ∧ _ ∧ _ ∧ _))
  | .registerSymbolTable t fileUri _ => inferInstanceAs (Decidable (g.TableOf t fileUri))
  | .addReference _ _ _ _ _ => inferInstanceAs (Decidable (_ ∧ _))
  | .enqueueDeferredReference source _ _ _ _ _ => inferInstanceAs (Decidable (Declared source))
  | .clearReferenceStateForFile _ | .evictStaleFileDeclarations _ _ | .removeFile _ | .drainAllDeferredReferences
  | .processDeferredReferencesBatch _ _ | .getSymbol _ | .findSymbolByName _ | .clear => .isTrue trivial

instance (g : SymbolGraph) (c : GraphCall) : Decidable (g.NoneLeftWaiting c) :=
  inferInstanceAs (Decidable (∀ _ ∈ _, ∀ _ ∈ _, ∀ _ ∈ _, _))

end SymbolGraph
end

namespace History

def callerAndUtil : Heap
  | .declared 0 => @SymbolGraph.fileClass asciiRuntime "Caller" "file:///Caller.cls"
  | _ => @SymbolGraph.fileClass asciiRuntime "Util" "file:///Util.cls"

theorem callerAndUtil_homed (n : Nat) : @Homed asciiRuntime (callerAndUtil (.declared n)) := by
  let Classes (_ : Runtime) := Homed (SymbolGraph.fileClass "Caller" "file:///Caller.cls") ∧
    Homed (SymbolGraph.fileClass "Util" "file:///Util.cls")
  obtain ⟨caller,util⟩ : Classes asciiRuntime := of_byteRuntime Classes (by decide +kernel)
  cases n with
  | zero => exact caller
  | succ n => exact util

def noTables (_ : TableRef) : SymbolTable := {}

def earlyReference : List GraphCall :=
  [.addSymbol (.declared 0) "file:///Caller.cls" none,
    .addReference (.declared 0) (.declared 1) .typeReference ⟨⟨3,2,3,6⟩,⟨3,2,3,6⟩⟩ none]

def laterDeclaration : List GraphCall :=
  [.addSymbol (.declared 1) "file:///Util.cls" none,.drainAllDeferredReferences]

end History
end ApexLs.Symbols
