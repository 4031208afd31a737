import ApexLs.Collections.WorklistSearch
import ApexLs.Symbols.FindReferences

/-! The transitive subtypes and supertypes of a type. The search follows the inheritance edges of the graph, finds each type
again by its name in its file, and marks the simple names it has met. -/
namespace ApexLs.Symbols

open ApexLs.Utils ApexLs.Types ApexLs.Collections
open ApexLs.Collections.MarkingSearch (Reaches)

def ReferenceType.isInheritance (t : ReferenceType) : Bool := t = .inheritance || t = .interfaceImplementation

def targetResultOf (entry : RefStoreEntry) (targetSymbol : Ref) : ReferenceResult where
  symbolId := entry.targetSymbolId
  symbol := targetSymbol
  fileUri := entry.targetFileUri
  referenceType := entry.referenceType
  location := entry.location
  context := entry.context

namespace SymbolGraph

section

variable [Runtime]

/-- The results for the edges of one source under some reference keys; an edge whose target is gone gives none. -/
def collectTargets (sourceId : String) (g : SymbolGraph) : List String → List ReferenceResult × SymbolGraph
  | [] => ([],g)
  | refKey :: rest =>
    match (g.refs.refStore.get refKey).filter (·.sourceSymbolId = sourceId) with
    | none => collectTargets sourceId g rest
    | some entry =>
      let (targetSymbol,g) := g.getSymbolByIdAndFile entry.targetSymbolId entry.targetFileUri
      let (results,g) := collectTargets sourceId g rest
      ((targetSymbol.map (targetResultOf entry)).toList ++ results,g)

def findReferencesFrom (g : SymbolGraph) (symbol : Ref) : List ReferenceResult × SymbolGraph :=
  let s := g.heap symbol
  if s.fileUri = "" then ([],g)
  else
    match g.findSymbolInFileByName (extractFilePathFromUri s.fileUri) s.name with
    | (none,g) => ([],g)
    | (some sourceSymbolInGraph,g) =>
      let source := g.heap sourceSymbolInGraph
      g.collectTargets (getSymbolId source source.fileUri) ((g.refs.forwardIndex.get source.fileUri).elim [] OrderedSet.elements)

/-- The types at the other end of the inheritance edges among some results. -/
def relatedTypes (g : SymbolGraph) (results : List ReferenceResult) : List Ref :=
  (results.filter fun r => r.referenceType.isInheritance && (g.heap r.symbol).inTypeSymbolGroup).map ReferenceResult.symbol

def findSupertypesViaEdges (g : SymbolGraph) (type : Ref) : List Ref × SymbolGraph :=
  let (results,g) := g.findReferencesFrom type
  (g.relatedTypes results,g)

def findSubtypesViaEdges (g : SymbolGraph) (type : Ref) : List Ref × SymbolGraph :=
  let (results,g) := g.findReferencesViaGraph type
  (g.relatedTypes results,g)

def simpleName (g : SymbolGraph) (type : Ref) : String := toLowerCase (g.heap type).name

/-- Every type is found once and known, so that the search takes no more steps than there are known symbols. -/
def collectTransitiveTypes (g : SymbolGraph) (start : Ref) (step : SymbolGraph → Ref → List Ref × SymbolGraph) :
    Option (List Ref × SymbolGraph) :=
  Worklist.collect g.simpleName step (g.knownSymbols.length + 2) g (Worklist.start g.simpleName start)

def findSubtypes (g : SymbolGraph) (type : Ref) : Option (List Ref × SymbolGraph) :=
  g.drainAllDeferredReferencesSync.2.collectTransitiveTypes type findSubtypesViaEdges

def findSupertypes (g : SymbolGraph) (type : Ref) : Option (List Ref × SymbolGraph) :=
  g.drainAllDeferredReferencesSync.2.collectTransitiveTypes type findSupertypesViaEdges

def targetAt (g : SymbolGraph) (sourceId refKey : String) : Option ReferenceResult :=
  ((g.refs.refStore.get refKey).filter (·.sourceSymbolId = sourceId)).bind fun entry =>
    (g.identified entry.targetSymbolId entry.targetFileUri).map (targetResultOf entry)

theorem Memoised.targetAt {g g' : SymbolGraph} (after : Memoised g g') : g'.targetAt = g.targetAt := by
  funext sourceId refKey
  simp only [SymbolGraph.targetAt,after.refs,after.toSameSymbols.identified]

theorem collectTargets_spec (sourceId : String) (g : SymbolGraph) (refKeys : List String) :
    ∃ g', g.collectTargets sourceId refKeys = (refKeys.filterMap (g.targetAt sourceId),g') ∧ Memoised g g' := by
  induction refKeys generalizing g with
  | nil => exact ⟨g,rfl,Memoised.refl g⟩
  | cons refKey rest ih =>
    simp only [collectTargets,List.filterMap_cons]
    cases stored : (g.refs.refStore.get refKey).filter (·.sourceSymbolId = sourceId) with
    | none =>
      obtain ⟨g',others,after⟩ := ih g
      exact ⟨g',by simp [others,targetAt,stored],after⟩
    | some entry =>
      obtain ⟨g₁,found,first⟩ := getSymbolByIdAndFile_spec g entry.targetSymbolId entry.targetFileUri
      obtain ⟨g₂,others,after⟩ := ih g₁
      refine ⟨g₂,?_,first.trans after⟩
      have here : g.targetAt sourceId refKey =
          (g.identified entry.targetSymbolId entry.targetFileUri).map (targetResultOf entry) := by
        rw [targetAt,stored,Option.bind_some]
      simp only [found,others,first.targetAt,here]
      cases g.identified entry.targetSymbolId entry.targetFileUri <;> rfl

def outgoingResults (g : SymbolGraph) (source : Ref) : List ReferenceResult :=
  let s := g.heap source
  ((g.refs.forwardIndex.get s.fileUri).elim [] OrderedSet.elements).filterMap (g.targetAt (getSymbolId s s.fileUri))

theorem findReferencesFrom_spec (g : SymbolGraph) (symbol : Ref) (file : (g.heap symbol).fileUri ≠ "") :
    ∃ g', g.findReferencesFrom symbol = ((g.queriedTarget symbol).elim [] g.outgoingResults,g') ∧ Memoised g g' := by
  obtain ⟨g₁,looked,first⟩ := findSymbolInFileByName_spec g (extractFilePathFromUri (g.heap symbol).fileUri)
    (g.heap symbol).name
  simp only [findReferencesFrom,file,if_false,looked,queriedTarget]
  cases g.firstNamed (extractFilePathFromUri (g.heap symbol).fileUri) (g.heap symbol).name with
  | none => exact ⟨g₁,rfl,first⟩
  | some t =>
    obtain ⟨g₂,found,after⟩ := collectTargets_spec (getSymbolId (g₁.heap t) (g₁.heap t).fileUri) g₁
      ((g₁.refs.forwardIndex.get (g₁.heap t).fileUri).elim [] OrderedSet.elements)
    refine ⟨g₂,?_,first.trans after⟩
    simp only [first.refs,first.heap,first.targetAt] at found ⊢
    exact found

def subtypesOf (g : SymbolGraph) (type : Ref) : List Ref :=
  if (g.heap type).fileUri = "" then []
  else g.relatedTypes ((g.queriedTarget type).elim [] fun t => (g.keysInto (g.targetKey t)).filterMap g.resultAt)

def supertypesOf (g : SymbolGraph) (type : Ref) : List Ref :=
  if (g.heap type).fileUri = "" then [] else g.relatedTypes ((g.queriedTarget type).elim [] g.outgoingResults)

theorem findSubtypesViaEdges_spec (g : SymbolGraph) (type : Ref) :
    ∃ g', g.findSubtypesViaEdges type = (g.subtypesOf type,g') ∧ Memoised g g' := by
  rw [findSubtypesViaEdges,subtypesOf]
  by_cases file : (g.heap type).fileUri = ""
  · exact ⟨g,by simp [findReferencesViaGraph,file,relatedTypes],Memoised.refl g⟩
  · obtain ⟨g',found,after⟩ := findReferencesViaGraph_spec g type file
    refine ⟨g',?_,after⟩
    rw [found,if_neg file]
    simp only [relatedTypes,after.heap]

theorem findSupertypesViaEdges_spec (g : SymbolGraph) (type : Ref) :
    ∃ g', g.findSupertypesViaEdges type = (g.supertypesOf type,g') ∧ Memoised g g' := by
  rw [findSupertypesViaEdges,supertypesOf]
  by_cases file : (g.heap type).fileUri = ""
  · exact ⟨g,by simp [findReferencesFrom,file,relatedTypes],Memoised.refl g⟩
  · obtain ⟨g',found,after⟩ := findReferencesFrom_spec g type file
    refine ⟨g',?_,after⟩
    rw [found,if_neg file]
    simp only [relatedTypes,after.heap]

theorem Memoised.queriedTarget {g g' : SymbolGraph} (after : Memoised g g') : g'.queriedTarget = g.queriedTarget := by
  funext type
  simp only [SymbolGraph.queriedTarget,after.heap,after.toSameSymbols.firstNamed]

theorem Memoised.subtypesOf {g g' : SymbolGraph} (after : Memoised g g') : g'.subtypesOf = g.subtypesOf := by
  funext type
  simp only [SymbolGraph.subtypesOf,relatedTypes,keysInto,targetKey,after.heap,after.refs,after.queriedTarget,after.resultAt]

theorem Memoised.supertypesOf {g g' : SymbolGraph} (after : Memoised g g') : g'.supertypesOf = g.supertypesOf := by
  have outgoing : g'.outgoingResults = g.outgoingResults := by
    funext source
    simp only [outgoingResults,after.heap,after.refs,after.targetAt]
  funext type
  simp only [SymbolGraph.supertypesOf,relatedTypes,after.heap,after.queriedTarget,outgoing]

theorem findSubtypesViaEdges_answers (g : SymbolGraph) (g' : SymbolGraph) (same : Memoised g g') (type : Ref) :
    ∃ g'', g'.findSubtypesViaEdges type = (g.subtypesOf type,g'') ∧ Memoised g g'' := by
  obtain ⟨g'',found,after⟩ := findSubtypesViaEdges_spec g' type
  exact ⟨g'',by rw [found,same.subtypesOf],same.trans after⟩

theorem findSupertypesViaEdges_answers (g : SymbolGraph) (g' : SymbolGraph) (same : Memoised g g') (type : Ref) :
    ∃ g'', g'.findSupertypesViaEdges type = (g.supertypesOf type,g'') ∧ Memoised g g'' := by
  obtain ⟨g'',found,after⟩ := findSupertypesViaEdges_spec g' type
  exact ⟨g'',by rw [found,same.supertypesOf],same.trans after⟩

/-- The stored edges by which a type extends or implements another. -/
def inheritanceEntries (g : SymbolGraph) : List RefStoreEntry :=
  (g.refs.refStore.entries.entries.map fun p => p.2.2).filter fun e => e.referenceType.isInheritance

def sourceEnd (g : SymbolGraph) (e : RefStoreEntry) : Option Ref := g.identified e.sourceSymbolId e.sourceFileUri

def targetEnd (g : SymbolGraph) (e : RefStoreEntry) : Option Ref := g.identified e.targetSymbolId e.targetFileUri

def InheritanceEdge (g : SymbolGraph) (b a : Ref) : Prop :=
  ∃ e ∈ g.inheritanceEntries, g.sourceEnd e = some b ∧ g.targetEnd e = some a

instance (g : SymbolGraph) (b a : Ref) : Decidable (g.InheritanceEdge b a) :=
  inferInstanceAs (Decidable (∃ e ∈ g.inheritanceEntries, g.sourceEnd e = some b ∧ g.targetEnd e = some a))

/-- The edge carries the file and the id of the declaration as those of its target. -/
def HasTarget (g : SymbolGraph) (e : RefStoreEntry) (t : Ref) : Prop := toLowerCase e.targetIndexKey = toLowerCase (g.targetKey t)

/-- The edge carries the file and the id of the declaration as those of its source. -/
def HasSource (g : SymbolGraph) (e : RefStoreEntry) (t : Ref) : Prop :=
  toLowerCase e.sourceFileUri = toLowerCase (g.heap t).fileUri ∧ e.sourceSymbolId = getSymbolId (g.heap t) (g.heap t).fileUri

instance (g : SymbolGraph) (e : RefStoreEntry) (t : Ref) : Decidable (g.HasTarget e t) := instDecidableEqString _ _

instance (g : SymbolGraph) (e : RefStoreEntry) (t : Ref) : Decidable (g.HasSource e t) := instDecidableAnd

def OffInheritance (g : SymbolGraph) (t : Ref) : Prop := ∀ e ∈ g.inheritanceEntries, ¬ g.HasTarget e t ∧ ¬ g.HasSource e t

instance (g : SymbolGraph) (t : Ref) : Decidable (g.OffInheritance t) := List.decidableBAll _ _

def IsType (g : SymbolGraph) (a : Ref) : Prop := a ∈ g.knownSymbols ∧ (g.heap a).inTypeSymbolGroup = true

abbrev Inherits (g : SymbolGraph) : Ref → Ref → Prop := Relation.TransGen g.InheritanceEdge

theorem mem_inheritanceEntries {g : SymbolGraph} {e : RefStoreEntry} : e ∈ g.inheritanceEntries ↔
    ∃ refKey, g.refs.refStore.Holds refKey e ∧ e.referenceType.isInheritance = true := by
  rw [inheritanceEntries,List.mem_filter,List.mem_map]
  constructor
  · rintro ⟨⟨⟨lowered,refKey,e⟩,listed,rfl⟩,inheritance⟩
    have found := OrderedMap.get?_eq_some_iff.mpr listed
    obtain rfl := g.refs.refStore.spelled _ _ _ found
    exact ⟨refKey,found,inheritance⟩
  · rintro ⟨refKey,holds,inheritance⟩
    exact ⟨⟨_,OrderedMap.get?_eq_some_iff.mp holds,rfl⟩,inheritance⟩

theorem mem_relatedTypes {g : SymbolGraph} {results : List ReferenceResult} : b ∈ g.relatedTypes results ↔
    ∃ r ∈ results, r.referenceType.isInheritance = true ∧ (g.heap r.symbol).inTypeSymbolGroup = true ∧ r.symbol = b := by
  simp only [relatedTypes,List.mem_map,List.mem_filter,Bool.and_eq_true,and_assoc]

omit [Runtime] in
theorem mem_elim_nil {o : Option Ref} {f : Ref → List ReferenceResult} : r ∈ o.elim [] f ↔ ∃ t, o = some t ∧ r ∈ f t := by
  cases o <;> simp

theorem mem_subtypesOf {g : SymbolGraph} (coherent : g.refs.Coherent) : b ∈ g.subtypesOf a ↔
    (g.heap a).fileUri ≠ "" ∧ (g.heap b).inTypeSymbolGroup = true ∧ ∃ t, g.queriedTarget a = some t ∧
      ∃ e ∈ g.inheritanceEntries, g.sourceEnd e = some b ∧ g.HasTarget e t := by
  rw [subtypesOf]
  by_cases file : (g.heap a).fileUri = ""
  · simp [file]
  · rw [if_neg file,mem_relatedTypes]
    constructor
    · rintro ⟨r,listed,inheritance,group,rfl⟩
      obtain ⟨t,queried,listed⟩ := mem_elim_nil.mp listed
      obtain ⟨refKey,into,result⟩ := List.mem_filterMap.mp listed
      obtain ⟨e,holds,key⟩ := (ReferenceIndexes.mem_elements_of_mirror coherent.reverse).mp into
      rw [resultAt,holds.get,Option.bind_some] at result
      obtain ⟨source,identified,rfl⟩ := Option.map_eq_some_iff.mp result
      exact ⟨file,group,t,queried,e,mem_inheritanceEntries.mpr ⟨refKey,holds,inheritance⟩,identified,key⟩
    · rintro ⟨_,group,t,queried,e,listed,source,key⟩
      obtain ⟨refKey,holds,inheritance⟩ := mem_inheritanceEntries.mp listed
      have into : refKey ∈ g.keysInto (g.targetKey t) :=
        (ReferenceIndexes.mem_elements_of_mirror coherent.reverse).mpr ⟨e,holds,key⟩
      have result : g.resultAt refKey = some (resultOf e b) := by
        rw [resultAt,holds.get,Option.bind_some,show g.identified e.sourceSymbolId e.sourceFileUri = some b from source]
        rfl
      exact ⟨resultOf e b,mem_elim_nil.mpr ⟨t,queried,List.mem_filterMap.mpr ⟨refKey,into,result⟩⟩,inheritance,group,rfl⟩

theorem mem_supertypesOf {g : SymbolGraph} (coherent : g.refs.Coherent) : a ∈ g.supertypesOf b ↔
    (g.heap b).fileUri ≠ "" ∧ (g.heap a).inTypeSymbolGroup = true ∧ ∃ t, g.queriedTarget b = some t ∧
      ∃ e ∈ g.inheritanceEntries, g.targetEnd e = some a ∧ g.HasSource e t := by
  rw [supertypesOf]
  by_cases file : (g.heap b).fileUri = ""
  · simp [file]
  · rw [if_neg file,mem_relatedTypes]
    constructor
    · rintro ⟨r,listed,inheritance,group,rfl⟩
      obtain ⟨t,queried,listed⟩ := mem_elim_nil.mp listed
      obtain ⟨refKey,from_,result⟩ := List.mem_filterMap.mp listed
      obtain ⟨e,holds,key⟩ := (ReferenceIndexes.mem_elements_of_mirror coherent.forward).mp from_
      rw [targetAt,holds.get] at result
      obtain ⟨e',kept,result⟩ := Option.bind_eq_some_iff.mp result
      obtain ⟨same,source⟩ := Option.filter_eq_some_iff.mp kept
      obtain rfl := Option.some.inj same
      obtain ⟨target,identified,rfl⟩ := Option.map_eq_some_iff.mp result
      exact ⟨file,group,t,queried,e,mem_inheritanceEntries.mpr ⟨refKey,holds,inheritance⟩,identified,key,by simpa using source⟩
    · rintro ⟨_,group,t,queried,e,listed,target,key,source⟩
      obtain ⟨refKey,holds,inheritance⟩ := mem_inheritanceEntries.mp listed
      have from_ : refKey ∈ (g.refs.forwardIndex.get (g.heap t).fileUri).elim [] OrderedSet.elements :=
        (ReferenceIndexes.mem_elements_of_mirror coherent.forward).mpr ⟨e,holds,key⟩
      have result : g.targetAt (getSymbolId (g.heap t) (g.heap t).fileUri) refKey = some (targetResultOf e a) := by
        rw [targetAt,holds.get,Option.filter_some_pos (by simpa using source),Option.bind_some,
          show g.identified e.targetSymbolId e.targetFileUri = some a from target]
        rfl
      exact ⟨targetResultOf e a,mem_elim_nil.mpr ⟨t,queried,List.mem_filterMap.mpr ⟨refKey,from_,result⟩⟩,inheritance,group,rfl⟩

/-- The one steps are exact: a type is the first declaration of its name in its file, unless no edge carries it or the
declaration taken for it; the edges that carry a type are those that lead to it and from it; and what lies between two edges
is a type. -/
structure Located (g : SymbolGraph) : Prop where
  own : ∀ a ∈ g.knownSymbols, (g.heap a).inTypeSymbolGroup = true →
    (g.heap a).fileUri ≠ "" ∧ g.queriedTarget a = some a ∨ g.OffInheritance a ∧ ∀ t ∈ g.queriedTarget a, g.OffInheritance t
  ends : ∀ a ∈ g.knownSymbols, (g.heap a).inTypeSymbolGroup = true → ∀ e ∈ g.inheritanceEntries,
    (g.targetEnd e = some a ↔ g.HasTarget e a) ∧ (g.sourceEnd e = some a ↔ g.HasSource e a)
  inner : ∀ e ∈ g.inheritanceEntries, ∀ e' ∈ g.inheritanceEntries, ∀ x ∈ g.targetEnd e, g.sourceEnd e' = some x →
    (g.heap x).inTypeSymbolGroup = true

instance (g : SymbolGraph) : Decidable g.Located :=
  decidable_of_iff ((∀ a ∈ g.knownSymbols, (g.heap a).inTypeSymbolGroup = true →
      (g.heap a).fileUri ≠ "" ∧ g.queriedTarget a = some a ∨ g.OffInheritance a ∧ ∀ t ∈ g.queriedTarget a, g.OffInheritance t) ∧
    (∀ a ∈ g.knownSymbols, (g.heap a).inTypeSymbolGroup = true → ∀ e ∈ g.inheritanceEntries,
      (g.targetEnd e = some a ↔ g.HasTarget e a) ∧ (g.sourceEnd e = some a ↔ g.HasSource e a)) ∧
    (∀ e ∈ g.inheritanceEntries, ∀ e' ∈ g.inheritanceEntries, ∀ x ∈ g.targetEnd e, g.sourceEnd e' = some x →
      (g.heap x).inTypeSymbolGroup = true))
    ⟨fun ⟨own,ends,inner⟩ => ⟨own,ends,inner⟩,fun h => ⟨h.own,h.ends,h.inner⟩⟩

section

variable {g : SymbolGraph} (coherent : g.refs.Coherent) (located : g.Located)

include coherent located

theorem subtypesOf_iff (type : g.IsType a) : b ∈ g.subtypesOf a ↔ g.InheritanceEdge b a ∧ g.IsType b := by
  have edge : g.InheritanceEdge b a ↔ ∃ e ∈ g.inheritanceEntries, g.sourceEnd e = some b ∧ g.HasTarget e a :=
    exists_congr fun e => and_congr_right fun listed => and_congr_right fun _ => (located.ends a type.1 type.2 e listed).1
  rw [mem_subtypesOf coherent,edge]
  rcases located.own a type.1 type.2 with ⟨file,itself⟩ | ⟨untouched,taken⟩
  · constructor
    · rintro ⟨_,group,t,queried,e,listed,source,key⟩
      obtain rfl := Option.some.inj (itself.symm.trans queried)
      exact ⟨⟨e,listed,source,key⟩,identified_known source,group⟩
    · rintro ⟨⟨e,listed,source,key⟩,_,group⟩
      exact ⟨file,group,a,itself,e,listed,source,key⟩
  · constructor
    · rintro ⟨_,_,t,queried,e,listed,_,key⟩
      exact absurd key (taken t queried e listed).1
    · rintro ⟨⟨e,listed,_,key⟩,_⟩
      exact absurd key (untouched e listed).1

theorem supertypesOf_iff (type : g.IsType b) : a ∈ g.supertypesOf b ↔ g.InheritanceEdge b a ∧ g.IsType a := by
  have edge : g.InheritanceEdge b a ↔ ∃ e ∈ g.inheritanceEntries, g.HasSource e b ∧ g.targetEnd e = some a :=
    exists_congr fun e => and_congr_right fun listed => and_congr_left fun _ => (located.ends b type.1 type.2 e listed).2
  rw [mem_supertypesOf coherent,edge]
  rcases located.own b type.1 type.2 with ⟨file,itself⟩ | ⟨untouched,taken⟩
  · constructor
    · rintro ⟨_,group,t,queried,e,listed,target,key⟩
      obtain rfl := Option.some.inj (itself.symm.trans queried)
      exact ⟨⟨e,listed,key,target⟩,identified_known target,group⟩
    · rintro ⟨⟨e,listed,key,target⟩,_,group⟩
      exact ⟨file,group,b,itself,e,listed,target,key⟩
  · constructor
    · rintro ⟨_,_,t,queried,e,listed,_,key⟩
      exact absurd key (taken t queried e listed).2
    · rintro ⟨⟨e,listed,key,_⟩,_⟩
      exact absurd key (untouched e listed).2

omit coherent in
theorem isType_between (edge : g.InheritanceEdge b x) (edge' : g.InheritanceEdge x a) : g.IsType x := by
  obtain ⟨e,listed,_,target⟩ := edge
  obtain ⟨e',listed',source,_⟩ := edge'
  exact ⟨identified_known target,located.inner e listed e' listed' x target source⟩

theorem reaches_subtypes_iff (type : g.IsType a) : Reaches g.subtypesOf a b ↔ b = a ∨ g.Inherits b a ∧ g.IsType b := by
  constructor
  · intro reached
    induction reached with
    | refl => exact .inl rfl
    | @tail c b _ link ih =>
      right
      rcases ih with rfl | ⟨path,isType⟩
      · obtain ⟨edge,isType⟩ := (subtypesOf_iff coherent located type).mp link
        exact ⟨.single edge,isType⟩
      · obtain ⟨edge,isType'⟩ := (subtypesOf_iff coherent located isType).mp link
        exact ⟨.head edge path,isType'⟩
  · rintro (rfl | ⟨path,isType⟩)
    · exact .refl
    · induction path using Relation.TransGen.head_induction_on with
      | single edge => exact .single ((subtypesOf_iff coherent located type).mpr ⟨edge,isType⟩)
      | @head b x edge path ih =>
        obtain ⟨y,next,_⟩ := Relation.TransGen.head'_iff.mp path
        have between := isType_between located edge next
        exact (ih between).tail ((subtypesOf_iff coherent located between).mpr ⟨edge,isType⟩)

theorem reaches_supertypes_iff (type : g.IsType b) : Reaches g.supertypesOf b a ↔ a = b ∨ g.Inherits b a ∧ g.IsType a := by
  constructor
  · intro reached
    induction reached with
    | refl => exact .inl rfl
    | @tail c a _ link ih =>
      right
      rcases ih with rfl | ⟨path,isType⟩
      · obtain ⟨edge,isType⟩ := (supertypesOf_iff coherent located type).mp link
        exact ⟨.single edge,isType⟩
      · obtain ⟨edge,isType'⟩ := (supertypesOf_iff coherent located isType).mp link
        exact ⟨.tail path edge,isType'⟩
  · rintro (rfl | ⟨path,isType⟩)
    · exact .refl
    · induction path with
      | single edge => exact .single ((supertypesOf_iff coherent located type).mpr ⟨edge,isType⟩)
      | @tail x a path edge ih =>
        obtain ⟨y,_,last⟩ := Relation.TransGen.tail'_iff.mp path
        have between := isType_between located last edge
        exact (ih between).tail ((supertypesOf_iff coherent located between).mpr ⟨edge,isType⟩)

end

/-- The two queries answer each other and the paths of inheritance edges, for any two types. -/
def SubtypesExact (g : SymbolGraph) : Prop := ∀ a b, g.IsType a → g.IsType b → b ≠ a →
  ∃ subtypes supertypes g₁ g₂, g.findSubtypes a = some (subtypes,g₁) ∧ g.findSupertypes b = some (supertypes,g₂) ∧
    (b ∈ subtypes ↔ g.Inherits b a) ∧ (b ∈ subtypes ↔ a ∈ supertypes)

/-- No two types share a simple name among a type and those below it, nor among a type and those above it. -/
structure NoHomonyms (g : SymbolGraph) : Prop where
  below : ∀ a, g.IsType a → ∀ x y, g.IsType x → g.IsType y → (x = a ∨ g.Inherits x a) → (y = a ∨ g.Inherits y a) →
    g.simpleName x = g.simpleName y → x = y
  above : ∀ b, g.IsType b → ∀ x y, g.IsType x → g.IsType y → (x = b ∨ g.Inherits b x) → (y = b ∨ g.Inherits b y) →
    g.simpleName x = g.simpleName y → x = y

theorem knows_subtypes {g : SymbolGraph} (coherent : g.refs.Coherent) (a : Ref) : ∀ b ∈ g.subtypesOf a, b ∈ g.knownSymbols := by
  intro b listed
  obtain ⟨_,_,_,_,e,_,source,_⟩ := (mem_subtypesOf coherent).mp listed
  exact identified_known source

theorem knows_supertypes {g : SymbolGraph} (coherent : g.refs.Coherent) (b : Ref) :
    ∀ a ∈ g.supertypesOf b, a ∈ g.knownSymbols := by
  intro a listed
  obtain ⟨_,_,_,_,e,_,target,_⟩ := (mem_supertypesOf coherent).mp listed
  exact identified_known target

theorem collectTransitiveTypes_found {g : SymbolGraph} {step : SymbolGraph → Ref → List Ref × SymbolGraph} {next : Ref → List Ref}
    (answers : ∀ g', Memoised g g' → ∀ b, ∃ g'', step g' b = (next b,g'') ∧ Memoised g g'')
    (known : ∀ a, ∀ b ∈ next a, b ∈ g.knownSymbols) (start : Ref) :
    ∃ results g', g.collectTransitiveTypes start step = some (results,g') ∧
      Worklist.Found next g.simpleName start results := by
  have listed : ∀ b, ∀ c ∈ next b, g.simpleName c ∈ g.knownSymbols.map g.simpleName :=
    fun b c link => List.mem_map_of_mem (known b c link)
  have enough : (g.knownSymbols.map g.simpleName).length + 2 ≤ g.knownSymbols.length + 2 := by rw [List.length_map]
  obtain ⟨⟨results,g'⟩,done⟩ := Option.isSome_iff_exists.mp
    (Worklist.collect_ends (a := start) answers listed (Memoised.refl g) enough)
  exact ⟨results,g',done,(Worklist.collect_found answers (Memoised.refl g) done).1⟩

def Settled (g : SymbolGraph) : Prop := g.deferredReferences.keys = []

instance (g : SymbolGraph) : Decidable g.Settled := instDecidableEqList _ _

theorem drainAllDeferredReferencesSync_settled {g : SymbolGraph} (settled : g.Settled) :
    g.drainAllDeferredReferencesSync.2 = g := by
  rw [drainAllDeferredReferencesSync,show g.deferredReferences.keys = [] from settled]
  rfl

theorem findSubtypes_found {g : SymbolGraph} (coherent : g.refs.Coherent) (settled : g.Settled) (a : Ref) :
    ∃ subtypes g', g.findSubtypes a = some (subtypes,g') ∧ Worklist.Found g.subtypesOf g.simpleName a subtypes := by
  rw [findSubtypes,drainAllDeferredReferencesSync_settled settled]
  exact collectTransitiveTypes_found (findSubtypesViaEdges_answers g) (knows_subtypes coherent) a

theorem findSupertypes_found {g : SymbolGraph} (coherent : g.refs.Coherent) (settled : g.Settled) (b : Ref) :
    ∃ supertypes g', g.findSupertypes b = some (supertypes,g') ∧ Worklist.Found g.supertypesOf g.simpleName b supertypes := by
  rw [findSupertypes,drainAllDeferredReferencesSync_settled settled]
  exact collectTransitiveTypes_found (findSupertypesViaEdges_answers g) (knows_supertypes coherent) b

theorem rooted_iff {g : SymbolGraph} {a x : Ref} {path : Prop} (type : g.IsType a) :
    x = a ∨ path ∧ g.IsType x ↔ g.IsType x ∧ (x = a ∨ path) := by
  constructor
  · rintro (rfl | ⟨path,isType⟩)
    · exact ⟨type,.inl rfl⟩
    · exact ⟨isType,.inr path⟩
  · rintro ⟨isType,rfl | path⟩
    · exact .inl rfl
    · exact .inr ⟨path,isType⟩

section

variable {g : SymbolGraph} (coherent : g.refs.Coherent) (located : g.Located)

include coherent located

theorem distinct_below_iff (type : g.IsType a) : Worklist.Distinct g.subtypesOf g.simpleName a ↔
    ∀ x y, g.IsType x → g.IsType y → (x = a ∨ g.Inherits x a) → (y = a ∨ g.Inherits y a) →
      g.simpleName x = g.simpleName y → x = y := by
  have reached {x : Ref} : Reaches g.subtypesOf a x ↔ g.IsType x ∧ (x = a ∨ g.Inherits x a) := by
    rw [reaches_subtypes_iff coherent located type]
    exact rooted_iff type
  simp only [Worklist.Distinct,reached]
  grind

theorem distinct_above_iff (type : g.IsType b) : Worklist.Distinct g.supertypesOf g.simpleName b ↔
    ∀ x y, g.IsType x → g.IsType y → (x = b ∨ g.Inherits b x) → (y = b ∨ g.Inherits b y) →
      g.simpleName x = g.simpleName y → x = y := by
  have reached {x : Ref} : Reaches g.supertypesOf b x ↔ g.IsType x ∧ (x = b ∨ g.Inherits b x) := by
    rw [reaches_supertypes_iff coherent located type]
    exact rooted_iff type
  simp only [Worklist.Distinct,reached]
  grind

theorem subtypesExact_iff_noHomonyms (settled : g.Settled) : g.SubtypesExact ↔ g.NoHomonyms := by
  constructor
  · intro exact_
    constructor
    · intro a type
      rw [← distinct_below_iff coherent located type]
      obtain ⟨subtypes,g₁,found,search⟩ := findSubtypes_found coherent settled a
      refine search.distinct fun b reached other => ?_
      obtain ⟨path,isType⟩ := ((reaches_subtypes_iff coherent located type).mp reached).resolve_left other
      obtain ⟨subtypes',_,_,_,found',_,answer,_⟩ := exact_ a b type isType other
      obtain ⟨rfl,_⟩ := Prod.mk.inj (Option.some.inj (found.symm.trans found'))
      exact answer.mpr path
    · intro b type
      rw [← distinct_above_iff coherent located type]
      obtain ⟨supertypes,g₂,found,search⟩ := findSupertypes_found coherent settled b
      refine search.distinct fun a reached other => ?_
      obtain ⟨path,isType⟩ := ((reaches_supertypes_iff coherent located type).mp reached).resolve_left other
      obtain ⟨_,supertypes',_,_,_,found',answer,dual⟩ := exact_ a b isType type (Ne.symm other)
      obtain ⟨rfl,_⟩ := Prod.mk.inj (Option.some.inj (found.symm.trans found'))
      exact dual.mp (answer.mpr path)
  · rintro ⟨below,above⟩ a b type isType other
    obtain ⟨subtypes,g₁,found,search⟩ := findSubtypes_found coherent settled a
    obtain ⟨supertypes,g₂,found',search'⟩ := findSupertypes_found coherent settled b
    have down : b ∈ subtypes ↔ g.Inherits b a := by
      rw [search.mem_iff ((distinct_below_iff coherent located type).mpr (below a type)),
        reaches_subtypes_iff coherent located type]
      simp [other,isType]
    have up : a ∈ supertypes ↔ g.Inherits b a := by
      rw [search'.mem_iff ((distinct_above_iff coherent located isType).mpr (above b isType)),
        reaches_supertypes_iff coherent located isType]
      simp [Ne.symm other,type]
    exact ⟨subtypes,supertypes,g₁,g₂,found,found',down,down.trans up.symm⟩

end

def Misses (g : SymbolGraph) (a b : Ref) : Prop := g.Settled ∧
  ((g.heap a).inTypeSymbolGroup = true ∧ (g.heap b).inTypeSymbolGroup = true) ∧ g.InheritanceEdge b a ∧
  ((g.findSubtypes a).map Prod.fst).any fun subtypes => b ∉ subtypes

instance (g : SymbolGraph) (a b : Ref) : Decidable (g.Misses a b) := instDecidableAnd

theorem Misses.not_exact {g : SymbolGraph} (misses : g.Misses a b) (other : b ≠ a) : ¬ g.SubtypesExact := by
  intro exact_
  obtain ⟨_,⟨above,below⟩,edge,missed⟩ := misses
  obtain ⟨e,_,source,target⟩ := id edge
  obtain ⟨subtypes,_,_,_,found,_,answer,_⟩ := exact_ a b ⟨identified_known target,above⟩ ⟨identified_known source,below⟩ other
  rw [found] at missed
  exact absurd (answer.mpr (.single edge)) (by simpa using missed)

/-- In every reachable graph with nothing deferred and exact one steps, the two queries are the closures of the inheritance
edges just where no simple name is met twice. -/
theorem subtypes_exact_iff (heap : Heap) (tables : TableRef → SymbolTable) (calls : List GraphCall) :
    let g := reached heap tables calls
    g.Settled → g.Located → (g.SubtypesExact ↔ g.NoHomonyms) :=
  fun settled located => subtypesExact_iff_noHomonyms (reached_coherent heap tables calls) located settled

end

def twoFoos : Heap
  | .declared 0 => @fileClass asciiRuntime "Base" "file:///Base.cls"
  | .declared 1 => @fileClass asciiRuntime "Foo" "file:///a/Foo.cls"
  | _ => @fileClass asciiRuntime "Foo" "file:///b/Foo.cls"

def bothExtend : List GraphCall :=
  [.addSymbol (.declared 0) "file:///Base.cls" none,.addSymbol (.declared 1) "file:///a/Foo.cls" none,
    .addReference (.declared 1) (.declared 0) .inheritance ⟨⟨1,13,1,17⟩,⟨1,26,1,30⟩⟩ none,
    .addSymbol (.declared 2) "file:///b/Foo.cls" none,
    .addReference (.declared 2) (.declared 0) .inheritance ⟨⟨1,13,1,17⟩,⟨1,26,1,30⟩⟩ none]

def oneExtends : List GraphCall :=
  [.addSymbol (.declared 0) "file:///Base.cls" none,.addSymbol (.declared 1) "file:///a/Foo.cls" none,
    .addReference (.declared 1) (.declared 0) .inheritance ⟨⟨1,13,1,17⟩,⟨1,26,1,30⟩⟩ none]

theorem one_foo_exact :
    @SubtypesExact asciiRuntime (@reached asciiRuntime twoFoos (fun _ => {}) oneExtends) ↔
      @NoHomonyms asciiRuntime (@reached asciiRuntime twoFoos (fun _ => {}) oneExtends) := by
  let Meets (_ : Runtime) := (reached twoFoos (fun _ => {}) oneExtends).Settled ∧
    (reached twoFoos (fun _ => {}) oneExtends).Located
  have meets : Meets asciiRuntime := of_byteRuntime Meets (by decide +kernel)
  refine @subtypes_exact_iff asciiRuntime twoFoos (fun _ => {}) oneExtends ?_ ?_
  · exact meets.1
  · exact meets.2

theorem bothExtend_misses : @Misses asciiRuntime (@reached asciiRuntime twoFoos (fun _ => {}) bothExtend) (.declared 0)
    (.declared 2) := by
  have onBytes : @Misses byteRuntime (@reached byteRuntime twoFoos (fun _ => {}) bothExtend) (.declared 0) (.declared 2) := by
    decide +kernel
  exact of_byteRuntime (fun r => @Misses r (@reached r twoFoos (fun _ => {}) bothExtend) (.declared 0) (.declared 2)) onBytes

/-- Of two subtypes with one simple name only one is found. -/
theorem second_foo_missed : ¬ ∀ (heap : Heap) (tables : TableRef → SymbolTable) (calls : List GraphCall),
    @Settled asciiRuntime (@reached asciiRuntime heap tables calls) →
      @SubtypesExact asciiRuntime (@reached asciiRuntime heap tables calls) := by
  intro always
  have exact_ := always twoFoos (fun _ => {}) bothExtend bothExtend_misses.1
  exact @Misses.not_exact asciiRuntime _ _ _ bothExtend_misses (by decide) exact_

end SymbolGraph
end ApexLs.Symbols
