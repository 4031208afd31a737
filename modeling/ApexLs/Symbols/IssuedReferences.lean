import ApexLs.Symbols.GraphRuns
import ApexLs.Symbols.Placement
import ApexLs.Types.IdentifierFiles

/-! What issuing a reference leaves behind: an edge that starts in the file of the reference,
or an entry whose source lives there. -/
namespace ApexLs.Symbols

open ApexLs.Utils ApexLs.Types ApexLs.Collections

structure Issue where
  file : String
  referenceType : ReferenceType
  location : SymbolLocation
  context : Option ReferenceContext
  deriving DecidableEq, Repr

section

variable [Runtime]

structure Issue.Makes (issue : Issue) (e : RefStoreEntry) : Prop where
  file : toLowerCase e.sourceFileUri = issue.file
  referenceType : e.referenceType = issue.referenceType
  location : e.location = issue.location
  context : e.context.map ReferenceIndexes.storedContext = issue.context.map ReferenceIndexes.storedContext

instance (issue : Issue) (e : RefStoreEntry) : Decidable (issue.Makes e) :=
  decidable_of_iff (toLowerCase e.sourceFileUri = issue.file ∧ e.referenceType = issue.referenceType ∧
      e.location = issue.location ∧
      e.context.map ReferenceIndexes.storedContext = issue.context.map ReferenceIndexes.storedContext)
    ⟨fun ⟨file,type,location,context⟩ => ⟨file,type,location,context⟩,
      fun made => ⟨made.file,made.referenceType,made.location,made.context⟩⟩

def entryIssue (heap : Heap) (entry : DeferredReference) : Issue :=
  ⟨homeOf (heap entry.sourceSymbol),entry.referenceType,entry.location,entry.context⟩

omit [Runtime] in
theorem storedContext_stored (context : ReferenceContext) :
    ReferenceIndexes.storedContext (ReferenceIndexes.storedContext context) = ReferenceIndexes.storedContext context := by
  simp [ReferenceIndexes.storedContext,Option.filter_filter]

theorem Issue.makes_edgeBetween (issue : Issue) {heap : Heap} (home : homeOf (heap source) = issue.file) (target : Ref) :
    issue.Makes (edgeBetween heap source target issue.referenceType issue.location issue.context) where
  file := home
  referenceType := rfl
  location := rfl
  context := by
    simp only [edgeBetween,Option.map_map]
    congr 1
    funext context
    exact storedContext_stored context

theorem scalarId_file {target : ApexSymbol} (homed : Homed target) (scalar : SymbolGraph.isStdlibScalarKeyword target = true) :
    extractFilePathFromUri (generateSymbolId target.name target.fileUri) = target.fileUri := by
  simp only [SymbolGraph.isStdlibScalarKeyword,Bool.and_eq_true,Bool.or_eq_true,decide_eq_true_eq] at scalar
  obtain ⟨library,keyword⟩ := scalar
  obtain ⟨path,uri⟩ := List.isPrefixOf_iff_prefix.mp library
  have scheme : breakOn "://".toList target.fileUri.toList = some ("apexlib".toList,path) := by
    rw [← uri]
    rfl
  have free : '#' ∉ target.fileUri.toList := by
    apply hash_free_of_extract
    have normal := congrArg String.toList homed.normal
    simpa [extractFilePathFromUri] using normal
  have plain : '.' ∉ target.name.toList := by
    rcases keyword with named | named <;> (rw [named]; decide)
  have given : hasUriScheme target.fileUri = true := by
    rw [hasUriScheme,includes,scheme]
    rfl
  have written : (generateSymbolId target.name target.fileUri).toList = target.fileUri.toList ++ '#' :: target.name.toList := by
    simp [generateSymbolId,convertToUri,given]
  rw [extractFilePathFromUri,written,extractChars_hash free plain scheme]
  exact String.ofList_toList

namespace SymbolGraph

structure Issued (g g' : SymbolGraph) (issue : Issue) : Prop where
  stays : Stays g.heap g'.heap
  placed : Placed g'
  edges : ∃ asked, g'.refs = g.refs.addAll asked ∧ ∀ e ∈ asked, issue.Makes e
  pending : ∀ name, ∀ entry ∈ g'.deferredUnder name, entry ∈ g.deferredUnder name ∨ entryIssue g'.heap entry = issue

theorem Issued.none {g : SymbolGraph} (placed : Placed g) (issue : Issue) : Issued g g issue :=
  ⟨Stays.refl g.heap,placed,⟨[],rfl,by simp⟩,fun _ _ waiting => .inl waiting⟩

theorem Issued.after {g h g' : SymbolGraph} (looked : Memoised g h) (issued : Issued h g' issue) : Issued g g' issue where
  stays := looked.heap ▸ issued.stays
  placed := issued.placed
  edges := looked.refs ▸ issued.edges
  pending name entry waiting := by
    have old := issued.pending name entry waiting
    rwa [deferredUnder,looked.deferredReferences] at old

theorem Placed.memoised {g h : SymbolGraph} (placed : Placed g) (looked : Memoised g h) : Placed h := by
  apply placed.same looked.toSameSymbols
  intro name
  rw [deferredUnder,looked.deferredReferences]
  exact List.Subset.refl _

section

variable {g : SymbolGraph} (placed : Placed g)
include placed

theorem Placed.addRefs (refs : ReferenceIndexes) (n : Nat) :
    Placed { g with refs := refs,totalEdges := n } :=
  ⟨placed.declared,placed.ids,placed.qualified,placed.tables,placed.registered,placed.listed,placed.pending⟩

theorem addEdge_issued {issue : Issue} {source : Ref}
    (home : homeOf (g.heap source) = issue.file) (target : Ref) :
    Issued g (g.addEdge source target issue.referenceType issue.location issue.context) issue where
  stays := Stays.refl g.heap
  placed := placed.addRefs _ _
  edges := ⟨[_],rfl,fun _ member => List.mem_singleton.mp member ▸ issue.makes_edgeBetween home target⟩
  pending _ _ waiting := .inl waiting

theorem addDeferredReference_issued (deferred : DeferredReference)
    (sound : Sound g.heap deferred.sourceSymbol) (name : String) :
    Issued g (g.addDeferredReference name deferred) (entryIssue g.heap deferred) := by
  unfold addDeferredReference
  split
  next => exact Issued.none placed _
  next =>
    have waiting : ∀ name' entry, entry ∈ ((g.deferredReferences.set name
        ((g.deferredReferences.get name).getD [] ++ [deferred])).get name').getD [] →
        entry ∈ g.deferredUnder name' ∨ entry = deferred := by
      intro name' entry waits
      rw [CaseInsensitiveMap.get_set] at waits
      simp only [deferredUnder]
      split at waits
      next same =>
        rw [CaseInsensitiveMap.get,same]
        simpa [CaseInsensitiveMap.get] using waits
      next => exact .inl waits
    refine ⟨Stays.refl g.heap,⟨placed.declared,placed.ids,placed.qualified,placed.tables,placed.registered,placed.listed,?_⟩,
      ⟨[],rfl,by simp⟩,?_⟩
    · intro name' entry waits
      rcases waiting name' entry waits with old | rfl
      · exact placed.pending name' entry old
      · exact sound
    · intro name' entry waits
      rcases waiting name' entry waits with old | rfl
      · exact .inl old
      · exact .inr rfl

theorem addVirtualSymbol_placed {target : Ref} (homed : Homed (g.heap target))
    (scalar : isStdlibScalarKeyword (g.heap target) = true) :
    ∃ g', g.addVirtualSymbol target (generateSymbolId (g.heap target).name (g.heap target).fileUri) = g' ∧
      Stays g.heap g'.heap ∧ Placed g' ∧ g'.refs = g.refs ∧ g'.deferredReferences = g.deferredReferences := by
  have file := scalarId_file homed scalar
  have nonempty := generateSymbolId_ne_empty (g.heap target).name (g.heap target).fileUri [] "" [] ""
  refine ⟨_,rfl,?_⟩
  generalize generateSymbolId (g.heap target).name (g.heap target).fileUri = virtualId at file nonempty
  have byId : toLowerCase (extractFilePathFromUri virtualId) = homeOf (g.heap target) := congrArg toLowerCase file
  have virtual : Homed { g.heap target with id := virtualId } :=
    ⟨homed.normal,nonempty,byId,homed.key,homed.keyFile,homed.plain⟩
  have stays : Stays g.heap (g.heap.put (.scalar virtualId) { g.heap target with id := virtualId }) :=
    Stays.put (fun sound => ⟨virtual,byId.symm.trans (sound.2 virtualId rfl).symm⟩)
  have sound : Sound (g.heap.put (.scalar virtualId) { g.heap target with id := virtualId }) (.scalar virtualId) := by
    refine ⟨by simpa using virtual,fun id same => ?_⟩
    obtain rfl := Ref.scalar.inj same
    rw [Heap.put_self]
    exact byId.symm
  have home : homeOf ((g.heap.put (.scalar virtualId) { g.heap target with id := virtualId }) (.scalar virtualId)) =
      homeOf (g.heap target) := by
    rw [Heap.put_self]
    rfl
  have before := placed.stays stays
  refine ⟨stays,⟨before.declared,?_,?_,before.tables,before.registered,before.listed,before.pending⟩,rfl,rfl⟩
  · intro id s found
    simp only [addVirtualSymbol,OrderedMap.get?_set] at found
    split at found
    next same =>
      obtain rfl := Option.some.inj found
      exact ⟨sound,home.trans (same ▸ byId.symm)⟩
    next => exact before.ids id s found
  · intro key s found
    simp only [addVirtualSymbol,CaseInsensitiveMap.lookup_set] at found
    split at found
    next same =>
      obtain rfl := Option.some.inj found
      refine ⟨sound,toLowerCase virtualId,?_⟩
      change key = homeOf ((g.heap.put (.scalar virtualId) { g.heap target with id := virtualId }) (.scalar virtualId)) ++
        separator ++ _
      rw [home,same,makeQualifiedSymbolKey,makeInternalKey,Runtime.lower_separator,homed.normal]
      rfl
    next => exact before.qualified key s found

end

theorem Issued.trans {g h g' : SymbolGraph} (first : Issued g h issue) (second : Issued h g' issue) : Issued g g' issue where
  stays := first.stays.trans second.stays
  placed := second.placed
  edges := by
    obtain ⟨asked,refs,makes⟩ := first.edges
    obtain ⟨asked',refs',makes'⟩ := second.edges
    refine ⟨asked ++ asked',by rw [refs',refs,ReferenceIndexes.addAll_append],fun e member => ?_⟩
    rcases List.mem_append.mp member with early | late
    · exact makes e early
    · exact makes' e late
  pending name entry waiting := by
    rcases second.pending name entry waiting with old | new
    · rcases first.pending name entry old with older | here
      · exact .inl older
      · refine .inr (Eq.trans ?_ here)
        simp only [entryIssue,(second.stays _ (first.placed.pending name entry old)).2]
    · exact .inr new

section

variable {g : SymbolGraph} (placed : Placed g) {issue : Issue}
include placed

theorem addReferenceToGraph_issued {source : Ref}
    (sound : Sound g.heap source) (home : homeOf (g.heap source) = issue.file) (target : Ref) (targetSymbolId : String) :
    Issued g (g.addReferenceToGraph source target targetSymbolId issue.referenceType issue.location issue.context)
      issue := by
  simp only [addReferenceToGraph]
  split
  next => exact Issued.none placed issue
  next =>
    obtain ⟨h,looked,after⟩ := findSymbolInFileByName_spec g (extractFilePathFromUri (g.heap source).fileUri)
      (g.heap source).name
    simp only [looked]
    cases found : g.firstNamed (extractFilePathFromUri (g.heap source).fileUri) (g.heap source).name with
    | none => exact Issued.after after (Issued.none (placed.memoised after) issue)
    | some s =>
      rw [sound.1.normal] at found
      obtain ⟨_,here⟩ := placed.firstNamed sound.1.normal found
      refine Issued.after after
        ⟨Stays.refl h.heap,(placed.memoised after).addRefs _ _,⟨[_],rfl,?_⟩,fun _ _ waiting => .inl waiting⟩
      intro e member
      rw [List.mem_singleton.mp member]
      refine ⟨?_,rfl,rfl,rfl⟩
      change homeOf (h.heap s) = issue.file
      rw [after.heap]
      exact here.trans home

theorem createVirtualSymbol_issued {source target : Ref}
    (sound : Sound g.heap source) (home : homeOf (g.heap source) = issue.file) (homed : Homed (g.heap target))
    (scalar : isStdlibScalarKeyword (g.heap target) = true) :
    Issued g (g.createVirtualSymbolForStdlibScalarKeyword target source issue.referenceType issue.location issue.context)
      issue := by
  simp only [createVirtualSymbolForStdlibScalarKeyword]
  split
  next => exact addReferenceToGraph_issued placed sound home target _
  next =>
    obtain ⟨h,added,stays,placed',refs,deferred⟩ := addVirtualSymbol_placed placed homed scalar
    rw [added]
    obtain ⟨sound',home'⟩ := stays source sound
    have virtual : Issued g h issue := by
      refine ⟨stays,placed',⟨[],refs,by simp⟩,fun name entry waiting => .inl ?_⟩
      rwa [deferredUnder,deferred] at waiting
    exact virtual.trans (addReferenceToGraph_issued placed' sound' (home'.trans home) target _)

theorem issueReference_issued {source target : Ref}
    (sound : Sound g.heap source) (home : homeOf (g.heap source) = issue.file) (homed : Homed (g.heap target)) :
    Issued g (g.issueReference source target issue.referenceType issue.location issue.context) issue := by
  obtain ⟨g₁,foundSource,first⟩ := findInGraph_spec g (g.heap source)
  obtain ⟨g₂,foundTarget,second⟩ := findTarget_spec g₁ (g₁.heap target)
  have looked := first.trans second
  have placed₂ := placed.memoised looked
  simp only [issueReference,foundSource,foundTarget]
  split
  next s t standing _ =>
    obtain ⟨_,here⟩ := placed.standIn sound.1 standing
    refine Issued.after looked (addEdge_issued placed₂ ?_ t)
    rw [looked.heap]
    exact here.trans home
  next =>
    have sound₂ : Sound g₂.heap source := looked.heap ▸ sound
    have home₂ : homeOf (g₂.heap source) = issue.file := by
      rw [looked.heap]
      exact home
    have deferred := addDeferredReference_issued placed₂
      ⟨source,issue.referenceType,issue.location,targetHint (g₂.heap target),issue.context⟩ sound₂ (g₂.heap target).name
    simp only [entryIssue,home₂] at deferred
    split
    next scalar =>
      refine Issued.after looked (deferred.trans ?_)
      have kept : ∀ name d, (g₂.addDeferredReference name d).heap = g₂.heap := by
        intro name d
        unfold addDeferredReference
        split
        next => rfl
        next => rfl
      apply createVirtualSymbol_issued deferred.placed
      · rw [kept]
        exact sound₂
      · rw [kept]
        exact home₂
      · rw [kept,looked.heap]
        exact homed
      · exact scalar
    next => exact Issued.after looked deferred

end

theorem normalizeSource_of_normal {g : SymbolGraph} {source : Ref}
    (normal : extractFilePathFromUri (g.heap source).fileUri = (g.heap source).fileUri) : g.normalizeSource source = g := by
  simp [normalizeSource,normal]

theorem addReference_issued {g : SymbolGraph} (placed : Placed g) (issue : Issue) {source target : Ref}
    (sound : Sound g.heap source) (home : homeOf (g.heap source) = issue.file) (homed : Homed (g.heap target)) :
    Issued g (g.addReference source target issue.referenceType issue.location issue.context) issue := by
  simp only [addReference]
  split
  next => exact Issued.none placed issue
  next =>
    rw [normalizeSource_of_normal sound.1.normal]
    split
    next => exact Issued.none placed issue
    next =>
      split
      next => exact Issued.none placed issue
      next s found =>
        obtain ⟨sound',home'⟩ := placed.declaringSource sound found
        exact issueReference_issued placed sound' (home'.trans home) homed

theorem enqueueDeferredReference_issued {g : SymbolGraph} (placed : Placed g) (issue : Issue) {source : Ref}
    (sound : Sound g.heap source) (home : homeOf (g.heap source) = issue.file) (name : String)
    (targetFileUri : Option String) : Issued g
      (g.enqueueDeferredReference source name issue.referenceType issue.location issue.context targetFileUri) issue := by
  simp only [enqueueDeferredReference]
  split
  next => exact Issued.none placed issue
  next =>
    rw [normalizeSource_of_normal sound.1.normal]
    split
    next => exact Issued.none placed issue
    next s found =>
      obtain ⟨sound',home'⟩ := placed.declaringSource sound found
      have deferred := addDeferredReference_issued placed ⟨s,issue.referenceType,issue.location,
        if truthy targetFileUri then targetFileUri.map extractFilePathFromUri else none,issue.context⟩ sound' name
      simp only [entryIssue,home'.trans home] at deferred
      exact deferred

end SymbolGraph
end
end ApexLs.Symbols
