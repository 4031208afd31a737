import ApexLs.Collections.GuardedWalk
import ApexLs.Symbols.GraphRuns
import ApexLs.Utils.AsciiBytes

/-! Find-references. Edges are stored under the id of their target, and the query finds its
target again as the first declaration of that name in the file. -/
namespace ApexLs.Symbols

open ApexLs.Utils ApexLs.Types ApexLs.Collections

structure ReferenceResult where
  symbolId : String
  symbol : Ref
  fileUri : String
  referenceType : ReferenceType
  location : SymbolLocation
  context : Option ReferenceContext
  deriving DecidableEq, Repr

def comparedType [Runtime] (type : Option TypeInfo) : String :=
  orElse (type.map (fun t => toLowerCase (TypeInfo.originalTypeString t)))
    (orElse (type.map (fun t => toLowerCase t.name)) "")

def doesSignatureMatch [Runtime] (existingMethod : ApexSymbol) (methodName : String)
    (parameterTypeStrings : List String) : Bool :=
  existingMethod.isMethodOrConstructorSymbol &&
    toLowerCase existingMethod.name = toLowerCase methodName &&
    (existingMethod.parameters.getD []).map (fun p => comparedType p.type) = parameterTypeStrings.map toLowerCase

def parameterCount (symbol : ApexSymbol) : Nat := (symbol.parameters.getD []).length

def isLocal (symbol : ApexSymbol) : Bool := symbol.kind = .variable || symbol.kind = .parameter

def isInstanceMethod (symbol : ApexSymbol) : Bool :=
  symbol.kind = .method && !symbol.modifiers.isStatic && symbol.isConstructor ≠ some true

/-- The call sites that may mean this overload: of its arity or of unknown arity, and not
typed for another overload of that arity alone. -/
def mayCallOverload [Runtime] (symbol : ApexSymbol) (sameAritySiblings : List ApexSymbol) (r : ReferenceResult) : Bool :=
  match r.context.bind ReferenceContext.argumentCount with
  | none => true
  | some callArity =>
    if callArity ≠ parameterCount symbol then false
    else
      match r.context.bind ReferenceContext.argumentTypes with
      | none => true
      | some callArgumentTypes =>
        sameAritySiblings.isEmpty || doesSignatureMatch symbol symbol.name callArgumentTypes ||
          !sameAritySiblings.any (fun s => doesSignatureMatch s s.name callArgumentTypes)

def resultOf (entry : RefStoreEntry) (sourceSymbol : Ref) : ReferenceResult where
  symbolId := entry.sourceSymbolId
  symbol := sourceSymbol
  fileUri := entry.sourceFileUri
  referenceType := entry.referenceType
  location := entry.location
  context := entry.context

namespace SymbolGraph

section

variable [Runtime]

/-- The results for the edges under some reference keys; an edge whose source is gone gives
none. -/
def collectResults (g : SymbolGraph) : List String → List ReferenceResult × SymbolGraph
  | [] => ([],g)
  | refKey :: rest =>
    match g.refs.refStore.get refKey with
    | none => collectResults g rest
    | some entry =>
      let (sourceSymbol,g) := g.getSymbolByIdAndFile entry.sourceSymbolId entry.sourceFileUri
      let (results,g) := collectResults g rest
      ((sourceSymbol.map (resultOf entry)).toList ++ results,g)

def findReferencesViaGraph (g : SymbolGraph) (symbol : Ref) : List ReferenceResult × SymbolGraph :=
  let s := g.heap symbol
  if s.fileUri = "" then ([],g)
  else
    match g.findSymbolInFileByName (extractFilePathFromUri s.fileUri) s.name with
    | (none,g) => ([],g)
    | (some targetSymbolInGraph,g) =>
      let target := g.heap targetSymbolInGraph
      let targetIndexKey := makeQualifiedSymbolKey target.fileUri (getSymbolId target target.fileUri)
      g.collectResults ((g.refs.reverseIndex.get targetIndexKey).elim [] OrderedSet.elements)

def knownSymbols (g : SymbolGraph) : List Ref :=
  g.symbolIdIndex.entries.map Prod.snd ++ g.symbolQualifiedIndex.entries.entries.map (fun p => p.2.2) ++
    g.fileToSymbolTable.entries.entries.flatMap (fun p => heldSymbols (g.table p.2.2))

/-- The walk of `findDeclaringTypeForMember`. A symbol whose id was met before ends it, so it
takes at most one step for each known symbol after the first. -/
def declaringWalk : Nat → List String → SymbolGraph → Ref → Option Ref × SymbolGraph
  | 0,_,g,_ => (none,g)
  | steps + 1,guard_,g,current =>
    match (g.heap current).parentId with
    | .of parentId =>
      if parentId = "" ∨ (g.heap current).id ∈ guard_ then (none,g)
      else
        match g.getSymbolByIdAndFile parentId (g.heap current).fileUri with
        | (none,g) => (none,g)
        | (some parent,g') =>
          if (g.heap parent).inTypeSymbolGroup then (some parent,g')
          else declaringWalk steps ((g.heap current).id :: guard_) g' parent
    | _ => (none,g)

def findDeclaringTypeForMember (g : SymbolGraph) (symbol : Ref) : Option Ref × SymbolGraph :=
  declaringWalk (g.knownSymbols.length + 2) [] g symbol

/-- The invocable symbols among `candidates` of this name and declaring type. -/
def siblingsAmong (name typeId : String) : SymbolGraph → List Ref → List Ref × SymbolGraph
  | g,[] => ([],g)
  | g,s :: rest =>
    if (g.heap s).name = name ∧ (g.heap s).isMethodOrConstructorSymbol then
      let (declaringType,g) := g.findDeclaringTypeForMember s
      let (others,g) := siblingsAmong name typeId g rest
      (if declaringType.map (fun t => (g.heap t).id) = some typeId then s :: others else others,g)
    else siblingsAmong name typeId g rest

def separateOverloadReferences (g : SymbolGraph) (symbol : Ref) (results : List ReferenceResult) :
    List ReferenceResult × SymbolGraph :=
  if (g.heap symbol).isMethodOrConstructorSymbol then
    match g.findDeclaringTypeForMember symbol with
    | (none,g) => (results,g)
    | (some declaringType,g) =>
      let (symbolsInFile,g) := g.getSymbolsInFile (g.heap symbol).fileUri
      let (siblings,g) := siblingsAmong (g.heap symbol).name (g.heap declaringType).id g symbolsInFile
      if siblings.length ≤ 1 then (results,g)
      else
        let sameAritySiblings := (siblings.map g.heap).filter
          (fun s => s.id ≠ (g.heap symbol).id && parameterCount s = parameterCount (g.heap symbol))
        (results.filter (mayCallOverload (g.heap symbol) sameAritySiblings),g)
  else (results,g)

abbrev Search := SymbolGraph → Ref → List ReferenceResult × SymbolGraph

/-- `findReferencesTo`. The searches for locals and for instance methods are arguments: every
other symbol is searched in the graph alone. -/
def findReferencesTo (findLocalReferences findInstanceMethodReferences : Search) (g : SymbolGraph) (symbol : Ref) :
    List ReferenceResult × SymbolGraph :=
  let s := g.heap symbol
  if s.fileUri = "" then ([],g)
  else if isLocal s then findLocalReferences g symbol
  else if isInstanceMethod s then
    let (results,g) := findInstanceMethodReferences g symbol
    g.separateOverloadReferences symbol results
  else
    let (results,g) := g.findReferencesViaGraph symbol
    g.separateOverloadReferences symbol results

def resultAt (g : SymbolGraph) (refKey : String) : Option ReferenceResult :=
  (g.refs.refStore.get refKey).bind fun entry =>
    (g.identified entry.sourceSymbolId entry.sourceFileUri).map (resultOf entry)

theorem Memoised.resultAt {g g' : SymbolGraph} (after : Memoised g g') : g'.resultAt = g.resultAt := by
  funext refKey
  simp only [SymbolGraph.resultAt,after.refs,after.toSameSymbols.identified]

theorem collectResults_spec (g : SymbolGraph) (refKeys : List String) :
    ∃ g', g.collectResults refKeys = (refKeys.filterMap g.resultAt,g') ∧ Memoised g g' := by
  induction refKeys generalizing g with
  | nil => exact ⟨g,rfl,Memoised.refl g⟩
  | cons refKey rest ih =>
    simp only [collectResults,List.filterMap_cons]
    cases stored : g.refs.refStore.get refKey with
    | none =>
      obtain ⟨g',others,after⟩ := ih g
      exact ⟨g',by simp [others,resultAt,stored],after⟩
    | some entry =>
      obtain ⟨g₁,found,first⟩ := getSymbolByIdAndFile_spec g entry.sourceSymbolId entry.sourceFileUri
      obtain ⟨g₂,others,after⟩ := ih g₁
      refine ⟨g₂,?_,first.trans after⟩
      have here : g.resultAt refKey =
          (g.identified entry.sourceSymbolId entry.sourceFileUri).map (resultOf entry) := by
        simp only [resultAt,stored,Option.bind_some]
      simp only [found,others,first.resultAt,here]
      cases g.identified entry.sourceSymbolId entry.sourceFileUri <;> rfl

/-- The keys of the edges into the symbol under this key of the reverse index. -/
def keysInto (g : SymbolGraph) (targetIndexKey : String) : List String :=
  (g.refs.reverseIndex.get targetIndexKey).elim [] OrderedSet.elements

/-- The key of the reverse index that a symbol's incoming edges stand under. -/
def targetKey (g : SymbolGraph) (symbol : Ref) : String :=
  makeQualifiedSymbolKey (g.heap symbol).fileUri (getSymbolId (g.heap symbol) (g.heap symbol).fileUri)

def queriedTarget (g : SymbolGraph) (symbol : Ref) : Option Ref :=
  g.firstNamed (extractFilePathFromUri (g.heap symbol).fileUri) (g.heap symbol).name

theorem findReferencesViaGraph_spec (g : SymbolGraph) (symbol : Ref) (file : (g.heap symbol).fileUri ≠ "") :
    ∃ g', g.findReferencesViaGraph symbol =
        ((g.queriedTarget symbol).elim [] (fun t => (g.keysInto (g.targetKey t)).filterMap g.resultAt),g') ∧
      Memoised g g' := by
  obtain ⟨g₁,looked,first⟩ := findSymbolInFileByName_spec g (extractFilePathFromUri (g.heap symbol).fileUri)
    (g.heap symbol).name
  simp only [findReferencesViaGraph,file,if_false,looked,queriedTarget]
  cases g.firstNamed (extractFilePathFromUri (g.heap symbol).fileUri) (g.heap symbol).name with
  | none => exact ⟨g₁,rfl,first⟩
  | some t =>
    obtain ⟨g₂,found,after⟩ := collectResults_spec g₁ (g₁.keysInto (g₁.targetKey t))
    refine ⟨g₂,?_,first.trans after⟩
    simp only [keysInto,targetKey,first.refs,first.heap,first.resultAt] at found ⊢
    exact found

theorem identified_known {g : SymbolGraph} (found : g.identified symbolId fileUri = some s) : s ∈ g.knownSymbols := by
  simp only [knownSymbols,List.mem_append]
  rcases Option.or_eq_some_iff.mp found with qualified | ⟨_,resolved⟩
  · obtain ⟨original,holds,_⟩ := CaseInsensitiveMap.get_eq_some_iff.mp qualified
    exact .inl (.inr (List.mem_map.mpr ⟨_,OrderedMap.get?_eq_some_iff.mp holds,rfl⟩))
  · rcases Option.or_eq_some_iff.mp resolved with byId | ⟨_,inTable⟩
    · exact .inl (.inl (List.mem_map.mpr ⟨_,OrderedMap.get?_eq_some_iff.mp byId,rfl⟩))
    · obtain ⟨t,registered,here⟩ := Option.bind_eq_some_iff.mp inTable
      obtain ⟨original,holds,_⟩ := CaseInsensitiveMap.get_eq_some_iff.mp registered
      exact .inr (List.mem_flatMap.mpr ⟨_,OrderedMap.get?_eq_some_iff.mp holds,findInTable_mem here⟩)

def typeAbove (g : SymbolGraph) (current : Ref) : Option (Ref ⊕ Ref) :=
  match (g.heap current).parentId with
  | .of parentId =>
    if parentId = "" then none
    else (g.identified parentId (g.heap current).fileUri).map fun parent =>
      if (g.heap parent).inTypeSymbolGroup then .inl parent else .inr parent
  | _ => none

theorem typeAbove_closed {g : SymbolGraph} (above : g.typeAbove current = some (.inr parent)) :
    parent ∈ g.knownSymbols := by
  unfold typeAbove at above
  split at above
  next =>
    split at above
    next => simp at above
    next =>
      obtain ⟨p,found,side⟩ := Option.map_eq_some_iff.mp above
      split at side
      next => simp at side
      next => exact Sum.inr.inj side ▸ identified_known found
  next => simp at above

theorem SameSymbols.typeAbove {g g' : SymbolGraph} (same : SameSymbols g g') : g'.typeAbove = g.typeAbove := by
  funext current
  simp only [SymbolGraph.typeAbove,same.heap,same.identified]

theorem declaringWalk_spec (steps : Nat) (visited : List String) (g : SymbolGraph) (current : Ref) :
    ∃ g', declaringWalk steps visited g current =
      (guardedWalk (fun s => (g.heap s).id) g.typeAbove steps visited current,g') ∧ Memoised g g' := by
  induction steps generalizing visited g current with
  | zero => exact ⟨g,rfl,Memoised.refl g⟩
  | succ steps ih =>
    simp only [declaringWalk,guardedWalk,typeAbove]
    cases (g.heap current).parentId with
    | undefined => exact ⟨g,by simp,Memoised.refl g⟩
    | null => exact ⟨g,by simp,Memoised.refl g⟩
    | of parentId =>
      by_cases met : (g.heap current).id ∈ visited
      · exact ⟨g,by simp [met],Memoised.refl g⟩
      · by_cases missing : parentId = ""
        · exact ⟨g,by simp [missing],Memoised.refl g⟩
        · obtain ⟨g₁,found,first⟩ := getSymbolByIdAndFile_spec g parentId (g.heap current).fileUri
          simp only [met,missing,or_self,if_false,found]
          cases g.identified parentId (g.heap current).fileUri with
          | none => exact ⟨g₁,rfl,first⟩
          | some parent =>
            simp only [Option.map_some,Option.bind_some]
            cases group : (g.heap parent).inTypeSymbolGroup with
            | true => exact ⟨g₁,rfl,first⟩
            | false =>
              obtain ⟨g₂,walked,after⟩ := ih ((g.heap current).id :: visited) g₁ parent
              rw [first.heap,first.toSameSymbols.typeAbove] at walked
              exact ⟨g₂,walked,first.trans after⟩

def declaringType (g : SymbolGraph) (symbol : Ref) : Option Ref :=
  guardedWalk (fun s => (g.heap s).id) g.typeAbove (g.knownSymbols.length + 2) [] symbol

theorem SameSymbols.declaringType {g g' : SymbolGraph} (same : SameSymbols g g') : g'.declaringType = g.declaringType := by
  funext symbol
  simp only [SymbolGraph.declaringType,same.heap,same.typeAbove]
  have closed : ∀ a a', g.typeAbove a = some (.inr a') → a' ∈ g.knownSymbols := fun _ _ => typeAbove_closed
  have closed' : ∀ a a', g.typeAbove a = some (.inr a') → a' ∈ g'.knownSymbols :=
    fun _ _ above => typeAbove_closed (same.typeAbove ▸ above)
  rcases Nat.le_total g.knownSymbols.length g'.knownSymbols.length with more | fewer
  · exact guardedWalk_enough closed (Nat.le_refl _) (by omega) symbol
  · exact (guardedWalk_enough closed' (Nat.le_refl _) (by omega) symbol).symm

theorem Memoised.declaringType {g g' : SymbolGraph} (after : Memoised g g') : g'.declaringType = g.declaringType :=
  after.toSameSymbols.declaringType

theorem findDeclaringTypeForMember_spec (g : SymbolGraph) (symbol : Ref) :
    ∃ g', g.findDeclaringTypeForMember symbol = (g.declaringType symbol,g') ∧ Memoised g g' :=
  declaringWalk_spec _ _ g symbol

def overloadsAmong (g : SymbolGraph) (name typeId : String) (candidates : List Ref) : List Ref :=
  candidates.filter (fun s => (g.heap s).name = name && (g.heap s).isMethodOrConstructorSymbol &&
    (g.declaringType s).map (fun t => (g.heap t).id) = some typeId)

theorem siblingsAmong_spec (name typeId : String) (g : SymbolGraph) (candidates : List Ref) :
    ∃ g', siblingsAmong name typeId g candidates = (g.overloadsAmong name typeId candidates,g') ∧ Memoised g g' := by
  induction candidates generalizing g with
  | nil => exact ⟨g,rfl,Memoised.refl g⟩
  | cons s rest ih =>
    simp only [siblingsAmong,overloadsAmong,List.filter_cons]
    by_cases named : (g.heap s).name = name ∧ (g.heap s).isMethodOrConstructorSymbol = true
    · obtain ⟨g₁,found,first⟩ := findDeclaringTypeForMember_spec g s
      obtain ⟨g₂,others,after⟩ := ih g₁
      simp only [overloadsAmong,first.heap,first.declaringType] at others
      refine ⟨g₂,?_,first.trans after⟩
      simp only [found,others,named.1,named.2,after.heap,first.heap,and_self,if_true,decide_true,Bool.true_and,
        decide_eq_true_eq]
    · obtain ⟨g₁,others,after⟩ := ih g
      refine ⟨g₁,?_,after⟩
      have skipped : ((g.heap s).name = name && (g.heap s).isMethodOrConstructorSymbol) = false := by
        simpa using named
      simp [named,others,skipped,overloadsAmong]

/-- The symbol shares its name with no other method or constructor of its type. -/
def NoOverload (g : SymbolGraph) (symbol : Ref) : Prop :=
  (g.heap symbol).isMethodOrConstructorSymbol = true → ∀ t, g.declaringType symbol = some t →
    (g.overloadsAmong (g.heap symbol).name (g.heap t).id (g.fileSymbols (g.heap symbol).fileUri)).length ≤ 1

instance (g : SymbolGraph) (symbol : Ref) : Decidable (g.NoOverload symbol) :=
  decidable_of_iff ((g.heap symbol).isMethodOrConstructorSymbol = true → (g.declaringType symbol).all fun t =>
      (g.overloadsAmong (g.heap symbol).name (g.heap t).id (g.fileSymbols (g.heap symbol).fileUri)).length ≤ 1)
    (by simp only [Option.all_eq_true,decide_eq_true_eq,NoOverload])

theorem separateOverloadReferences_alone (g : SymbolGraph) (symbol : Ref) (alone : g.NoOverload symbol)
    (results : List ReferenceResult) : (g.separateOverloadReferences symbol results).1 = results := by
  simp only [separateOverloadReferences]
  cases invocable : (g.heap symbol).isMethodOrConstructorSymbol with
  | false => rfl
  | true =>
    obtain ⟨g₁,found,first⟩ := findDeclaringTypeForMember_spec g symbol
    simp only [if_true,found]
    cases above : g.declaringType symbol with
    | none => rfl
    | some t =>
      obtain ⟨g₂,listed,second⟩ := getSymbolsInFile_spec g₁ (g.heap symbol).fileUri
      rw [first.toSameSymbols.fileSymbols] at listed
      obtain ⟨g₃,siblings,third⟩ := siblingsAmong_spec (g.heap symbol).name (g.heap t).id g₂
        (g.fileSymbols (g.heap symbol).fileUri)
      have both := first.trans second
      simp only [overloadsAmong,both.heap,both.declaringType] at siblings
      have few := alone invocable t above
      simp only [overloadsAmong] at few
      simp only [first.heap,listed,both.heap,siblings,few,if_true]

theorem Memoised.noOverload {g g' : SymbolGraph} (after : Memoised g g') : g'.NoOverload = g.NoOverload := by
  funext symbol
  simp only [NoOverload,overloadsAmong,after.heap,after.declaringType,after.toSameSymbols.fileSymbols]

theorem findReferencesTo_answer (findLocalReferences findInstanceMethodReferences : Search) (g : SymbolGraph)
    (t : Ref) (file : (g.heap t).fileUri ≠ "") (notLocal : isLocal (g.heap t) = false)
    (notInstance : isInstanceMethod (g.heap t) = false) (alone : g.NoOverload t) :
    (g.findReferencesTo findLocalReferences findInstanceMethodReferences t).1 =
      (g.queriedTarget t).elim [] (fun q => (g.keysInto (g.targetKey q)).filterMap g.resultAt) := by
  obtain ⟨g',found,after⟩ := findReferencesViaGraph_spec g t file
  simp only [findReferencesTo,file,notLocal,notInstance,Bool.false_eq_true,if_false,found]
  exact separateOverloadReferences_alone g' t (after.noOverload ▸ alone) _

/-- The keys of the live edges whose target is the symbol under this key, whatever the case. -/
def liveKeysInto (g : SymbolGraph) (targetIndexKey : String) : List String :=
  g.refs.refStore.keys.filter (fun refKey =>
    (g.refs.refStore.get refKey).any (fun e => toLowerCase e.targetIndexKey = toLowerCase targetIndexKey))

/-- One result for each live edge whose target is `t` and whose source still exists. -/
def incomingResults (g : SymbolGraph) (t : Ref) : List ReferenceResult :=
  (g.liveKeysInto (g.targetKey t)).filterMap g.resultAt

theorem mem_liveKeysInto {g : SymbolGraph} : refKey ∈ g.liveKeysInto targetIndexKey ↔
    ∃ e, g.refs.refStore.Holds refKey e ∧ toLowerCase e.targetIndexKey = toLowerCase targetIndexKey := by
  simp only [liveKeysInto,List.mem_filter,← CaseInsensitiveMap.holds_iff_mem_keys]
  constructor
  · rintro ⟨⟨e,holds⟩,into⟩
    rw [holds.get] at into
    exact ⟨e,holds,by simpa using into⟩
  · rintro ⟨e,holds,into⟩
    refine ⟨⟨e,holds⟩,?_⟩
    rw [holds.get]
    simpa using into

theorem keysInto_perm {g : SymbolGraph} (coherent : g.refs.Coherent) (targetIndexKey : String) :
    (g.keysInto targetIndexKey).Perm (g.liveKeysInto targetIndexKey) := by
  apply (List.perm_ext_iff_of_nodup ?_ ?_).mpr
  · intro refKey
    rw [mem_liveKeysInto]
    exact ReferenceIndexes.mem_elements_of_mirror coherent.reverse
  · unfold keysInto
    cases g.refs.reverseIndex.get targetIndexKey with
    | none => exact List.nodup_nil
    | some keys => exact keys.unique
  · exact (List.Nodup.of_map _ g.refs.refStore.keys_toLowerCase_nodup).filter _

/-- Find-references answers one result for each live edge into `t` whose source exists. -/
def FindsExactly (findLocalReferences findInstanceMethodReferences : Search) (g : SymbolGraph) (t : Ref) : Prop :=
  (g.findReferencesTo findLocalReferences findInstanceMethodReferences t).1.Perm (g.incomingResults t)

/-- The first declaration of the symbol's name in its file is the symbol itself, or no live
edge tells the two apart. -/
def QueryMeets (g : SymbolGraph) (t : Ref) : Prop :=
  match g.queriedTarget t with
  | none => g.incomingResults t = []
  | some q => toLowerCase (g.targetKey q) = toLowerCase (g.targetKey t) ∨ (g.incomingResults q).Perm (g.incomingResults t)

instance (g : SymbolGraph) (t : Ref) : Decidable (g.QueryMeets t) :=
  match queried : g.queriedTarget t with
  | none => decidable_of_iff (g.incomingResults t = []) (by simp [QueryMeets,queried])
  | some q =>
    decidable_of_iff
      (toLowerCase (g.targetKey q) = toLowerCase (g.targetKey t) ∨ (g.incomingResults q).Perm (g.incomingResults t))
      (by simp [QueryMeets,queried])

theorem incomingResults_congr {g : SymbolGraph} (same : toLowerCase (g.targetKey a) = toLowerCase (g.targetKey b)) :
    g.incomingResults a = g.incomingResults b := by
  simp only [incomingResults,liveKeysInto,same]

/-- A declaration of some file that is searched in the graph alone and has no overloads. -/
def Searchable (g : SymbolGraph) (t : Ref) : Prop :=
  (g.heap t).fileUri ≠ "" ∧ isLocal (g.heap t) = false ∧ isInstanceMethod (g.heap t) = false ∧ g.NoOverload t

instance (g : SymbolGraph) (t : Ref) : Decidable (g.Searchable t) := instDecidableAnd

theorem findsExactly_iff {g : SymbolGraph} (coherent : g.refs.Coherent)
    (findLocalReferences findInstanceMethodReferences : Search) {t : Ref} (searchable : g.Searchable t) :
    g.FindsExactly findLocalReferences findInstanceMethodReferences t ↔ g.QueryMeets t := by
  obtain ⟨file,notLocal,notInstance,alone⟩ := searchable
  rw [FindsExactly,findReferencesTo_answer _ _ _ _ file notLocal notInstance alone,QueryMeets]
  cases g.queriedTarget t with
  | none => exact List.nil_perm
  | some q =>
    have answered : ((g.keysInto (g.targetKey q)).filterMap g.resultAt).Perm (g.incomingResults q) :=
      (keysInto_perm coherent (g.targetKey q)).filterMap _
    constructor
    · exact fun exact_ => .inr (answered.symm.trans exact_)
    · rintro (same | sameResults)
      · rw [← incomingResults_congr same]
        exact answered
      · exact answered.trans sameResults

end

def classWithConstructor : Heap
  | .declared 0 => @fileClass asciiRuntime "Foo" "file:///Foo.cls"
  | .declared 1 =>
    @createFullSymbolWithNamespace asciiRuntime "Foo" .constructor (lineOf 2) "file:///Foo.cls"
      { visibility := .public_ } (.of "file:///Foo.cls#Foo$class") [] none ["Foo"]
  | _ => @fileClass asciiRuntime "Caller" "file:///Caller.cls"
where
  lineOf (line : Nat) : SymbolLocation := ⟨⟨line,2,line,20⟩,⟨line,9,line,12⟩⟩

def callerOf (target : Ref) : List GraphCall :=
  [.addSymbol (.declared 0) "file:///Foo.cls" none,.addSymbol (.declared 1) "file:///Foo.cls" none,
    .addSymbol (.declared 2) "file:///Caller.cls" none,
    .addReference (.declared 2) target .constructorCall (classWithConstructor.lineOf 5) none]

def noSearch : @Search asciiRuntime := fun g _ => ([],g)

end SymbolGraph
end ApexLs.Symbols
