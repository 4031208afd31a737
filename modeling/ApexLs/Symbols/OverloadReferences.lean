import ApexLs.Collections.FirstOfKey
import ApexLs.Symbols.SubtypeQueries

/-! Find-references for overloads. The search for an instance method reads the edges of the methods of its name on the
related types too, and what is read for an overload is filtered by arity and argument types. -/
namespace ApexLs.Symbols

open ApexLs.Utils ApexLs.Types ApexLs.Collections

def ReferenceResult.dedupeKey (r : ReferenceResult) : String :=
  r.fileUri ++ "#" ++ r.symbolId ++ "#" ++ toString r.location.identifierRange.startLine ++ ":" ++
    toString r.location.identifierRange.startColumn

namespace SymbolGraph

section

variable [Runtime]

/-- The first method in the type's file whose declaring type has the type's id. -/
def methodAmong (type : Ref) : SymbolGraph → List Ref → Option Ref × SymbolGraph
  | g,[] => (none,g)
  | g,s :: rest =>
    if (g.heap s).kind ≠ .method ∨ (g.heap s).fileUri ≠ (g.heap type).fileUri then methodAmong type g rest
    else
      let (declaringType,g) := g.findDeclaringTypeForMember s
      if declaringType.map (fun t => (g.heap t).id) = some (g.heap type).id then (some s,g) else methodAmong type g rest

def findMethodOnType (g : SymbolGraph) (type : Ref) (methodName : String) : Option Ref × SymbolGraph :=
  let (candidates,g) := g.findSymbolByName methodName
  methodAmong type g candidates

def subtypeNames : SymbolGraph → List Ref → Option (List String × SymbolGraph)
  | g,[] => some ([],g)
  | g,root :: rest =>
    (g.findSubtypes root).bind fun subtypes =>
      (subtypeNames subtypes.2 rest).map fun others =>
        (subtypes.1.map (fun t => (subtypes.2.heap t).name) ++ others.1,others.2)

/-- The type, the types above it, and the types below all of these, each name once. -/
def collectRelatedTypeNames (g : SymbolGraph) : Option Ref → Option (List String × SymbolGraph)
  | none => some ([],g)
  | some declaringType =>
    (g.findSupertypes declaringType).bind fun upward =>
      (subtypeNames upward.2 (declaringType :: upward.1)).map fun below =>
        (firstOfKey (fun name => name) [] ((g.heap declaringType).name ::
          upward.1.map (fun t => (upward.2.heap t).name) ++ below.1),below.2)

def referencesOnTypes (symbol : Ref) : SymbolGraph → List Ref → List ReferenceResult × SymbolGraph
  | g,[] => ([],g)
  | g,typeSymbol :: rest =>
    let (methodOnType,g) := g.findMethodOnType typeSymbol (g.heap symbol).name
    let (refs,g) := match methodOnType.filter (fun m => (g.heap m).id ≠ (g.heap symbol).id) with
      | some method => g.findReferencesViaGraph method
      | none => ([],g)
    let (others,g) := referencesOnTypes symbol g rest
    (refs ++ others,g)

def referencesOnNames (symbol : Ref) : SymbolGraph → List String → List ReferenceResult × SymbolGraph
  | g,[] => ([],g)
  | g,typeName :: rest =>
    let (found,g) := g.findSymbolByName typeName
    let (refs,g) := referencesOnTypes symbol g (found.filter fun s => (g.heap s).inTypeSymbolGroup)
    let (others,g) := referencesOnNames symbol g rest
    (refs ++ others,g)

def findInstanceMethodReferences (g : SymbolGraph) (symbol : Ref) : Option (List ReferenceResult × SymbolGraph) :=
  let (declaringType,g) := g.findDeclaringTypeForMember symbol
  (g.collectRelatedTypeNames declaringType).map fun related =>
    let (own,g) := related.2.findReferencesViaGraph symbol
    let (others,g) := referencesOnNames symbol g related.1
    (firstOfKey ReferenceResult.dedupeKey [] (own ++ others),g)

def instanceSearch : Search := fun g symbol => (g.findInstanceMethodReferences symbol).getD ([],g)

def viaGraph (g : SymbolGraph) (symbol : Ref) : List ReferenceResult :=
  if (g.heap symbol).fileUri = "" then []
  else (g.queriedTarget symbol).elim [] fun t => (g.keysInto (g.targetKey t)).filterMap g.resultAt

def methodOn (g : SymbolGraph) (type : Ref) (methodName : String) : Option Ref :=
  (g.symbolsNamed methodName).find? fun s => ((g.heap s).kind = .method && (g.heap s).fileUri = (g.heap type).fileUri) &&
    (g.declaringType s).map (fun t => (g.heap t).id) = some (g.heap type).id

/-- The methods of the symbol's name, other than itself, on the types of some names. -/
def methodsOn (g : SymbolGraph) (symbol : Ref) (typeNames : List String) : List Ref :=
  (typeNames.flatMap fun typeName => (g.symbolsNamed typeName).filter fun s => (g.heap s).inTypeSymbolGroup).filterMap fun type =>
    (g.methodOn type (g.heap symbol).name).filter fun m => (g.heap m).id ≠ (g.heap symbol).id

variable {g g' : SymbolGraph}

theorem findReferencesViaGraph_answers (g : SymbolGraph) (symbol : Ref) :
    ∃ g', g.findReferencesViaGraph symbol = (g.viaGraph symbol,g') ∧ Memoised g g' := by
  by_cases file : (g.heap symbol).fileUri = ""
  · exact ⟨g,by rw [findReferencesViaGraph,viaGraph]; simp only [file,if_true],Memoised.refl g⟩
  · rw [viaGraph,if_neg file]
    exact findReferencesViaGraph_spec g symbol file

theorem methodAmong_spec (type : Ref) (g : SymbolGraph) (candidates : List Ref) :
    ∃ g', methodAmong type g candidates = (candidates.find? fun s =>
        ((g.heap s).kind = .method && (g.heap s).fileUri = (g.heap type).fileUri) &&
          (g.declaringType s).map (fun t => (g.heap t).id) = some (g.heap type).id,g') ∧ Memoised g g' := by
  induction candidates generalizing g with
  | nil => exact ⟨g,rfl,Memoised.refl g⟩
  | cons s rest ih =>
    rw [methodAmong,List.find?_cons]
    by_cases other : (g.heap s).kind ≠ .method ∨ (g.heap s).fileUri ≠ (g.heap type).fileUri
    · have skipped : ((g.heap s).kind = .method && (g.heap s).fileUri = (g.heap type).fileUri) = false := by
        simpa [or_iff_not_imp_left] using other
      obtain ⟨g',found,after⟩ := ih g
      exact ⟨g',by rw [if_pos other,found,skipped,Bool.false_and],after⟩
    · have here : ((g.heap s).kind = .method && (g.heap s).fileUri = (g.heap type).fileUri) = true := by
        simpa [not_or] using other
      obtain ⟨g₁,declared,first⟩ := findDeclaringTypeForMember_spec g s
      rw [if_neg other]
      simp only [declared,here,Bool.true_and,first.heap]
      by_cases same : (g.declaringType s).map (fun t => (g.heap t).id) = some (g.heap type).id
      · exact ⟨g₁,by rw [if_pos same,decide_eq_true same],first⟩
      · obtain ⟨g₂,found,after⟩ := ih g₁
        simp only [first.heap,first.declaringType] at found
        exact ⟨g₂,by rw [if_neg same,found,decide_eq_false same],first.trans after⟩

theorem findMethodOnType_spec (g : SymbolGraph) (type : Ref) (methodName : String) :
    ∃ g', g.findMethodOnType type methodName = (g.methodOn type methodName,g') ∧ Memoised g g' := by
  obtain ⟨g₁,named,first⟩ := findSymbolByName_spec g methodName
  obtain ⟨g₂,found,after⟩ := methodAmong_spec type g₁ (g.symbolsNamed methodName)
  refine ⟨g₂,?_,first.trans after⟩
  simp only [findMethodOnType,named,found,methodOn,first.heap,first.declaringType]

theorem Memoised.viaGraph (after : Memoised g g') : g'.viaGraph = g.viaGraph := by
  funext symbol
  simp only [SymbolGraph.viaGraph,after.heap,after.queriedTarget,keysInto,targetKey,after.refs,after.resultAt]

theorem Memoised.methodOn (after : Memoised g g') : g'.methodOn = g.methodOn := by
  funext type methodName
  simp only [SymbolGraph.methodOn,after.heap,after.toSameSymbols.symbolsNamed,after.declaringType]

theorem referencesOnTypes_spec (symbol : Ref) (g : SymbolGraph) (types : List Ref) :
    ∃ g', referencesOnTypes symbol g types = ((types.filterMap fun type =>
        (g.methodOn type (g.heap symbol).name).filter fun m => (g.heap m).id ≠ (g.heap symbol).id).flatMap g.viaGraph,g') ∧
      Memoised g g' := by
  induction types generalizing g with
  | nil => exact ⟨g,rfl,Memoised.refl g⟩
  | cons type rest ih =>
    obtain ⟨g₁,found,first⟩ := findMethodOnType_spec g type (g.heap symbol).name
    simp only [referencesOnTypes,found,first.heap,List.filterMap_cons]
    cases (g.methodOn type (g.heap symbol).name).filter fun m => (g.heap m).id ≠ (g.heap symbol).id with
    | none =>
      obtain ⟨g₂,others,after⟩ := ih g₁
      simp only [first.heap,first.methodOn,first.viaGraph] at others
      exact ⟨g₂,by simp only [others,List.nil_append],first.trans after⟩
    | some method =>
      obtain ⟨g₂,refs,second⟩ := findReferencesViaGraph_answers g₁ method
      obtain ⟨g₃,others,after⟩ := ih g₂
      simp only [second.heap,second.methodOn,second.viaGraph,first.heap,first.methodOn,first.viaGraph] at others refs
      exact ⟨g₃,by simp only [refs,others,List.flatMap_cons],(first.trans second).trans after⟩

theorem referencesOnNames_spec (symbol : Ref) (g : SymbolGraph) (typeNames : List String) :
    ∃ g', referencesOnNames symbol g typeNames = ((g.methodsOn symbol typeNames).flatMap g.viaGraph,g') ∧ Memoised g g' := by
  induction typeNames generalizing g with
  | nil => exact ⟨g,rfl,Memoised.refl g⟩
  | cons typeName rest ih =>
    obtain ⟨g₁,found,first⟩ := findSymbolByName_spec g typeName
    obtain ⟨g₂,refs,second⟩ := referencesOnTypes_spec symbol g₁
      ((g.symbolsNamed typeName).filter fun s => (g.heap s).inTypeSymbolGroup)
    obtain ⟨g₃,others,after⟩ := ih g₂
    have both := first.trans second
    simp only [methodsOn,both.heap,both.methodOn,both.viaGraph,both.toSameSymbols.symbolsNamed] at others
    simp only [first.heap,first.methodOn,first.viaGraph] at refs
    refine ⟨g₃,?_,both.trans after⟩
    simp only [referencesOnNames,found,first.heap,refs,others,methodsOn,List.flatMap_cons,List.filterMap_append,
      List.flatMap_append]

theorem collectTransitiveTypes_ends {step : SymbolGraph → Ref → List Ref × SymbolGraph} {next : Ref → List Ref}
    (answers : ∀ g', Memoised g g' → ∀ b, ∃ g'', step g' b = (next b,g'') ∧ Memoised g g'')
    (known : ∀ a, ∀ b ∈ next a, b ∈ g.knownSymbols) (start : Ref) :
    ∃ results g', g.collectTransitiveTypes start step = some (results,g') ∧ Memoised g g' := by
  obtain ⟨results,g',done,-⟩ := collectTransitiveTypes_found answers known start
  exact ⟨results,g',done,(Worklist.collect_found answers (Memoised.refl g) done).2⟩

theorem drained_ends (search : SymbolGraph → Ref → Option (List Ref × SymbolGraph)) (coherent : g.refs.Coherent) (a : Ref)
    (ends : ∀ g₀ : SymbolGraph, g₀.refs.Coherent → ∃ results g', search g₀ a = some (results,g') ∧ Memoised g₀ g') :
    ∃ results g', search g.drainAllDeferredReferencesSync.2 a = some (results,g') ∧ SameSymbols g g' ∧ g'.refs.Coherent := by
  have drained := (drainAllDeferredReferencesSync_spec g).1.toSameSymbols
  have after : g.drainAllDeferredReferencesSync.2.refs.Coherent := call_coherent g .drainAllDeferredReferences coherent
  obtain ⟨results,g',done,kept⟩ := ends _ after
  exact ⟨results,g',done,drained.trans kept.toSameSymbols,kept.refs ▸ after⟩

theorem findSubtypes_ends (coherent : g.refs.Coherent) (a : Ref) :
    ∃ subtypes g', g.findSubtypes a = some (subtypes,g') ∧ SameSymbols g g' ∧ g'.refs.Coherent :=
  drained_ends (fun g a => g.collectTransitiveTypes a findSubtypesViaEdges) coherent a fun g₀ coherent₀ =>
    collectTransitiveTypes_ends (findSubtypesViaEdges_answers g₀) (knows_subtypes coherent₀) a

theorem findSupertypes_ends (coherent : g.refs.Coherent) (a : Ref) :
    ∃ supertypes g', g.findSupertypes a = some (supertypes,g') ∧ SameSymbols g g' ∧ g'.refs.Coherent :=
  drained_ends (fun g a => g.collectTransitiveTypes a findSupertypesViaEdges) coherent a fun g₀ coherent₀ =>
    collectTransitiveTypes_ends (findSupertypesViaEdges_answers g₀) (knows_supertypes coherent₀) a

theorem subtypeNames_ends (coherent : g.refs.Coherent) (roots : List Ref) :
    ∃ names g', subtypeNames g roots = some (names,g') ∧ SameSymbols g g' := by
  induction roots generalizing g with
  | nil => exact ⟨[],g,rfl,SameSymbols.refl g⟩
  | cons root rest ih =>
    obtain ⟨subtypes,g₁,found,same,coherent₁⟩ := findSubtypes_ends coherent root
    obtain ⟨names,g₂,others,after⟩ := ih coherent₁
    exact ⟨_,g₂,by rw [subtypeNames,found,Option.bind_some,others,Option.map_some],same.trans after⟩

theorem collectRelatedTypeNames_ends (coherent : g.refs.Coherent) (declaringType : Option Ref) :
    ∃ names g', g.collectRelatedTypeNames declaringType = some (names,g') ∧ SameSymbols g g' := by
  cases declaringType with
  | none => exact ⟨[],g,rfl,SameSymbols.refl g⟩
  | some t =>
    obtain ⟨upward,g₁,found,same,coherent₁⟩ := findSupertypes_ends coherent t
    obtain ⟨names,g₂,below,after⟩ := subtypeNames_ends coherent₁ (t :: upward)
    exact ⟨_,g₂,by rw [collectRelatedTypeNames,found,Option.bind_some,below,Option.map_some],same.trans after⟩

/-- The names that are searched for an instance method, and the graph in which. -/
def searched (g : SymbolGraph) (symbol : Ref) : List String × SymbolGraph :=
  ((g.findDeclaringTypeForMember symbol).2.collectRelatedTypeNames (g.findDeclaringTypeForMember symbol).1).getD ([],g)

/-- What is read for an instance method: its own edges, and those of the other methods of its name. -/
def gathered (g : SymbolGraph) (symbol : Ref) : List ReferenceResult :=
  (symbol :: (g.searched symbol).2.methodsOn symbol (g.searched symbol).1).flatMap (g.searched symbol).2.viaGraph

theorem instanceSearch_spec (coherent : g.refs.Coherent) (symbol : Ref) : ∃ g',
    instanceSearch g symbol = (firstOfKey ReferenceResult.dedupeKey [] (g.gathered symbol),g') ∧ SameSymbols g g' := by
  obtain ⟨g₁,declared,first⟩ := findDeclaringTypeForMember_spec g symbol
  obtain ⟨names,g₂,related,same⟩ := collectRelatedTypeNames_ends (first.refs ▸ coherent) (g.declaringType symbol)
  obtain ⟨g₃,own,third⟩ := findReferencesViaGraph_answers g₂ symbol
  obtain ⟨g₄,others,after⟩ := referencesOnNames_spec symbol g₃ names
  refine ⟨g₄,?_,(first.toSameSymbols.trans same).trans (third.trans after).toSameSymbols⟩
  simp only [methodsOn,third.heap,third.methodOn,third.viaGraph,third.toSameSymbols.symbolsNamed] at others
  simp only [instanceSearch,findInstanceMethodReferences,gathered,searched,declared,related,Option.map_some,Option.getD_some,
    own,others,methodsOn,List.flatMap_cons]

def sameArity (g : SymbolGraph) (siblings : List Ref) (symbol : Ref) : List ApexSymbol :=
  (siblings.map g.heap).filter fun s => s.id ≠ (g.heap symbol).id && parameterCount s = parameterCount (g.heap symbol)

theorem separateOverloadReferences_answer {symbol t : Ref} (invocable : (g.heap symbol).isMethodOrConstructorSymbol = true)
    (above : g.declaringType symbol = some t) (results : List ReferenceResult) :
    (g.separateOverloadReferences symbol results).1 =
      let siblings := g.overloadsAmong (g.heap symbol).name (g.heap t).id (g.fileSymbols (g.heap symbol).fileUri)
      if siblings.length ≤ 1 then results
      else results.filter (mayCallOverload (g.heap symbol) (g.sameArity siblings symbol)) := by
  obtain ⟨g₁,found,first⟩ := findDeclaringTypeForMember_spec g symbol
  obtain ⟨g₂,listed,second⟩ := getSymbolsInFile_spec g₁ (g.heap symbol).fileUri
  have both := first.trans second
  obtain ⟨g₃,siblings,third⟩ := siblingsAmong_spec (g.heap symbol).name (g.heap t).id g₂ (g.fileSymbols (g.heap symbol).fileUri)
  simp only [overloadsAmong,both.heap,both.declaringType] at siblings
  rw [first.toSameSymbols.fileSymbols] at listed
  simp only [separateOverloadReferences,invocable,if_true,found,above,first.heap,listed,both.heap,siblings,overloadsAmong]
  split
  next few => exact (if_pos few).symm
  next many =>
    refine Eq.trans ?_ (if_neg many).symm
    rw [sameArity,third.heap,both.heap]

structure OverloadGroup (g : SymbolGraph) where
  name : String
  typeId : String
  file : String
  placed : file ≠ ""
  homes : ∀ o ∈ g.overloadsAmong name typeId (g.fileSymbols file), (g.heap o).fileUri = file

namespace OverloadGroup

variable (q : OverloadGroup g)

def overloads : List Ref := g.overloadsAmong q.name q.typeId (g.fileSymbols q.file)

def answer (_ : OverloadGroup g) (findLocalReferences : Search) (o : Ref) : List ReferenceResult :=
  (g.findReferencesTo findLocalReferences instanceSearch o).1

def Edge (r : ReferenceResult) : Prop := ∃ o ∈ q.overloads, r ∈ g.incomingResults o

def argumentCount (r : ReferenceResult) : Option Nat := r.context.bind ReferenceContext.argumentCount

def argumentTypes (r : ReferenceResult) : Option (List String) := r.context.bind ReferenceContext.argumentTypes

def FitsOnly (types : List String) (o : Ref) : Prop := doesSignatureMatch (g.heap o) (g.heap o).name types = true ∧
  ∀ other ∈ q.overloads, doesSignatureMatch (g.heap other) (g.heap other).name types = true → other = o

/-- No edge is lost, none appears for an overload of another arity, and one whose types fit one overload only appears for that
overload only. -/
structure Separates (findLocalReferences : Search) : Prop where
  kept : ∀ r, q.Edge r → ∃ o ∈ q.overloads, r ∈ q.answer findLocalReferences o
  counted : ∀ r, q.Edge r → ∀ count, argumentCount r = some count →
    ∀ o ∈ q.overloads, r ∈ q.answer findLocalReferences o → parameterCount (g.heap o) = count
  typed : ∀ r, q.Edge r → ∀ types, argumentTypes r = some types → ∀ o ∈ q.overloads, q.FitsOnly types o →
    r ∈ q.answer findLocalReferences o ∧ ∀ other ∈ q.overloads, other ≠ o → r ∉ q.answer findLocalReferences other

/-- The edge is stored under the first declaration of the overload's name in its file. For an instance method it may also be
stored under that of another method of the name on a related type; of the edges at one place only the first counts. -/
def Reads (_ : OverloadGroup g) (o : Ref) (r : ReferenceResult) : Prop :=
  if isInstanceMethod (g.heap o) then Foremost ReferenceResult.dedupeKey (g.gathered o) r else r ∈ g.viaGraph o

/-- The overload is alone, or its arity and its types do not rule the call out. -/
def Admits (o : Ref) (r : ReferenceResult) : Prop :=
  q.overloads.length ≤ 1 ∨ mayCallOverload (g.heap o) (g.sameArity q.overloads o) r = true

variable {q}

theorem mem_overloads {o : Ref} (member : o ∈ q.overloads) : (g.heap o).fileUri = q.file ∧ (g.heap o).name = q.name ∧
    (g.heap o).isMethodOrConstructorSymbol = true ∧ ∃ t, g.declaringType o = some t ∧ (g.heap t).id = q.typeId := by
  have home := q.homes o member
  obtain ⟨-,is⟩ := List.mem_filter.mp member
  simp only [Bool.and_eq_true,decide_eq_true_eq] at is
  obtain ⟨⟨named,invocable⟩,above⟩ := is
  exact ⟨home,named,invocable,Option.map_eq_some_iff.mp above⟩

omit [Runtime] in
theorem not_isLocal_of_invocable {s : ApexSymbol} (invocable : s.isMethodOrConstructorSymbol = true) : isLocal s = false := by
  rw [ApexSymbol.isMethodOrConstructorSymbol,Bool.or_eq_true,decide_eq_true_eq,decide_eq_true_eq] at invocable
  rw [isLocal]
  rcases invocable with kind | kind <;> rw [kind] <;> rfl

theorem mem_answer (findLocalReferences : Search) (coherent : g.refs.Coherent) {o : Ref} {r : ReferenceResult}
    (member : o ∈ q.overloads) :
    r ∈ q.answer findLocalReferences o ↔ q.Reads o r ∧ q.Admits o r := by
  obtain ⟨home,named,invocable,t,above,ofType⟩ := mem_overloads member
  have file : (g.heap o).fileUri ≠ "" := home ▸ q.placed
  -- whatever the search leaves, the results are filtered by the same overloads
  have filtered (g' : SymbolGraph) (same : SameSymbols g g') (results : List ReferenceResult) :
      r ∈ (g'.separateOverloadReferences o results).1 ↔ r ∈ results ∧ q.Admits o r := by
    have siblings : g'.overloadsAmong (g'.heap o).name (g'.heap t).id (g'.fileSymbols (g'.heap o).fileUri) = q.overloads := by
      simp only [overloads,overloadsAmong,same.heap,same.declaringType,same.fileSymbols,named,ofType,home]
    rw [separateOverloadReferences_answer (by rw [same.heap]; exact invocable) (by rw [same.declaringType]; exact above),
      siblings,same.heap,Admits]
    have alike : g'.sameArity q.overloads o = g.sameArity q.overloads o := by rw [sameArity,sameArity,same.heap]
    dsimp only
    split
    next few => simp only [few,true_or,and_true]
    next many => rw [List.mem_filter,alike,or_iff_right many]
  rw [answer,Reads]
  simp only [findReferencesTo,file,if_false,not_isLocal_of_invocable invocable,Bool.false_eq_true]
  split
  next instance_ =>
    obtain ⟨g',searched,same⟩ := instanceSearch_spec coherent o
    simp only [searched]
    rw [filtered g' same,mem_firstOfKey,and_iff_left List.not_mem_nil]
  next =>
    obtain ⟨g',found,after⟩ := findReferencesViaGraph_answers g o
    simp only [found]
    exact filtered g' after.toSameSymbols _

theorem admits_fitting {types : List String} {o : Ref} {r : ReferenceResult} (typed : argumentTypes r = some types)
    (fits : doesSignatureMatch (g.heap o) (g.heap o).name types = true) : q.Admits o r ↔
      (2 ≤ q.overloads.length → ∀ count, argumentCount r = some count → count = parameterCount (g.heap o)) := by
  rw [Admits,mayCallOverload,← argumentCount,← argumentTypes,typed]
  cases argumentCount r with
  | none => simp
  | some count =>
    simp only [fits,Bool.or_true,Bool.true_or,ite_not,Option.some.injEq,forall_eq']
    rw [or_iff_not_imp_left,Nat.not_le]
    split
    next same => simp [same]
    next other => simp [other,Nat.lt_succ_iff]

theorem any_sameArity_iff {types : List String} {o : Ref} (other : Ref) (member : o ∈ q.overloads) (fits : q.FitsOnly types o) :
    ((g.sameArity q.overloads other).any fun s => doesSignatureMatch s s.name types) = true ↔
      (g.heap o).id ≠ (g.heap other).id ∧ parameterCount (g.heap o) = parameterCount (g.heap other) := by
  rw [List.any_eq_true,sameArity]
  constructor
  · rintro ⟨s,listed,fit⟩
    obtain ⟨held,tells⟩ := List.mem_filter.mp listed
    obtain ⟨sibling,among,rfl⟩ := List.mem_map.mp held
    obtain rfl := fits.2 sibling among fit
    simpa using tells
  · intro tells
    exact ⟨g.heap o,List.mem_filter.mpr ⟨List.mem_map_of_mem member,by simpa using tells⟩,fits.1⟩

theorem not_admits_fitting {types : List String} {o other : Ref} {r : ReferenceResult} (typed : argumentTypes r = some types)
    (member : o ∈ q.overloads) (memberOther : other ∈ q.overloads) (apart : other ≠ o) (fits : q.FitsOnly types o) :
    ¬q.Admits other r ↔ ∃ count, argumentCount r = some count ∧ (count ≠ parameterCount (g.heap other) ∨
      (g.heap o).id ≠ (g.heap other).id ∧ parameterCount (g.heap o) = parameterCount (g.heap other)) := by
  have many : ¬q.overloads.length ≤ 1 := by
    intro few
    obtain none_ | one := Nat.le_one_iff_eq_zero_or_eq_one.mp few
    · rw [List.length_eq_zero_iff.mp none_] at member
      exact List.not_mem_nil member
    · obtain ⟨x,only⟩ := List.length_eq_one_iff.mp one
      rw [only] at member memberOther
      exact apart ((List.mem_singleton.mp memberOther).trans (List.mem_singleton.mp member).symm)
  have unfit : doesSignatureMatch (g.heap other) (g.heap other).name types = false :=
    Bool.eq_false_iff.mpr fun fit => apart (fits.2 other memberOther fit)
  rw [Admits,or_iff_right many,mayCallOverload,← argumentCount,← argumentTypes,typed]
  cases argumentCount r with
  | none => simp
  | some count =>
    simp only [unfit,Bool.or_false,ite_not,Option.some.injEq,exists_eq_left']
    split
    next same =>
      rw [← any_sameArity_iff other member fits,or_iff_right (not_not.mpr same),Bool.or_eq_true,List.isEmpty_iff]
      cases found : (g.sameArity q.overloads other).any fun s => doesSignatureMatch s s.name types with
      | false => simp
      | true =>
        have some_ : g.sameArity q.overloads other ≠ [] := fun none_ => by rw [none_] at found; cases found
        simp [some_]
    next differs => exact ⟨fun _ => .inl differs,fun _ => Bool.false_ne_true⟩

theorem arity_of_admits {o : Ref} {r : ReferenceResult} {count : Nat} (many : ¬q.overloads.length ≤ 1)
    (known : argumentCount r = some count) (admits : q.Admits o r) : parameterCount (g.heap o) = count := by
  rw [Admits,or_iff_right many,mayCallOverload,← argumentCount,known] at admits
  by_contra differs
  simp only [ne_eq,Ne.symm differs,not_false_eq_true,if_true,Bool.false_eq_true] at admits

/-- Overloads are separated if and only if every edge is read for an overload that admits it, an overload that is alone has
no edge of another arity read for it, and an edge whose types fit one overload only is read for it, and its arity and the ids
tell it from every other overload that it is read for. -/
theorem separates_iff (heap : Heap) (tables : TableRef → SymbolTable) (calls : List GraphCall)
    (q : OverloadGroup (reached heap tables calls)) (findLocalReferences : Search) :
    let g := reached heap tables calls
    q.Separates findLocalReferences ↔ (∀ r, q.Edge r → ∃ o ∈ q.overloads, q.Reads o r ∧ q.Admits o r) ∧
      (q.overloads.length ≤ 1 → ∀ r, q.Edge r → ∀ count, argumentCount r = some count →
        ∀ o ∈ q.overloads, q.Reads o r → parameterCount (g.heap o) = count) ∧
      ∀ r, q.Edge r → ∀ types, argumentTypes r = some types → ∀ o ∈ q.overloads, q.FitsOnly types o →
        q.Reads o r ∧
        (2 ≤ q.overloads.length → ∀ count, argumentCount r = some count → count = parameterCount (g.heap o)) ∧
        ∀ other ∈ q.overloads, other ≠ o → q.Reads other r → ∃ count, argumentCount r = some count ∧
          (count ≠ parameterCount (g.heap other) ∨
            (g.heap o).id ≠ (g.heap other).id ∧ parameterCount (g.heap o) = parameterCount (g.heap other)) := by
  intro g
  have coherent := reached_coherent heap tables calls
  have appears (o : Ref) (r : ReferenceResult) (member : o ∈ q.overloads) :=
    mem_answer findLocalReferences (r := r) coherent member
  constructor
  · rintro ⟨kept,counted,typed⟩
    refine ⟨fun r edge => ?_,fun alone r edge count known o member reads_ => ?_,fun r edge types known o member fits => ?_⟩
    · obtain ⟨o,member,shown⟩ := kept r edge
      exact ⟨o,member,(appears o r member).mp shown⟩
    · exact counted r edge count known o member ((appears o r member).mpr ⟨reads_,.inl alone⟩)
    · obtain ⟨shown,hidden⟩ := typed r edge types known o member fits
      obtain ⟨reads_,admits⟩ := (appears o r member).mp shown
      refine ⟨reads_,(admits_fitting known fits.1).mp admits,fun other memberOther apart readsOther => ?_⟩
      refine (not_admits_fitting known member memberOther apart fits).mp fun admitsOther => ?_
      exact hidden other memberOther apart ((appears other r memberOther).mpr ⟨readsOther,admitsOther⟩)
  · rintro ⟨kept,counted,typed⟩
    refine ⟨fun r edge => ?_,fun r edge count known o member shown => ?_,fun r edge types known o member fits => ?_⟩
    · obtain ⟨o,member,shown⟩ := kept r edge
      exact ⟨o,member,(appears o r member).mpr shown⟩
    · obtain ⟨reads_,admits⟩ := (appears o r member).mp shown
      by_cases alone : q.overloads.length ≤ 1
      · exact counted alone r edge count known o member reads_
      · exact arity_of_admits alone known admits
    · obtain ⟨reads_,arity,others⟩ := typed r edge types known o member fits
      refine ⟨(appears o r member).mpr ⟨reads_,(admits_fitting known fits.1).mpr arity⟩,fun other memberOther apart shown => ?_⟩
      obtain ⟨readsOther,admitsOther⟩ := (appears other r memberOther).mp shown
      exact (not_admits_fitting known member memberOther apart fits).mpr (others other memberOther apart readsOther) admitsOther

theorem not_separates_of_silent {q : OverloadGroup g} (into : ∃ o ∈ q.overloads, g.incomingResults o ≠ [])
    (silent : ∀ o ∈ q.overloads, q.answer search o = []) : ¬q.Separates search := by
  intro separates
  obtain ⟨o,member,some_⟩ := into
  obtain ⟨r,edge⟩ := List.exists_mem_of_ne_nil _ some_
  obtain ⟨found,memberFound,shown⟩ := separates.kept r ⟨o,member,edge⟩
  rw [silent found memberFound] at shown
  exact List.not_mem_nil shown

end OverloadGroup

end

/-- `static void m()` and `static void m(Integer n)` of one class, and a caller. -/
def classWithOverloads : Heap
  | .declared 0 => @fileClass asciiRuntime "Foo" "file:///Foo.cls"
  | .declared 1 => method 2 []
  | .declared 2 => method 3 [{ id := "n",name := "n",type := some (.simple "Integer"),location := lineOf 3 }]
  | _ => @fileClass asciiRuntime "Caller" "file:///Caller.cls"
where
  lineOf (line : Nat) : SymbolLocation := ⟨⟨line,2,line,40⟩,⟨line,14,line,15⟩⟩
  method (line : Nat) (parameters : List ParameterSymbol) : ApexSymbol :=
    { @createFullSymbolWithNamespace asciiRuntime "m" .method (lineOf line) "file:///Foo.cls" { isStatic := true }
        (.of (@fileClass asciiRuntime "Foo" "file:///Foo.cls").id) (convertToParameterInfo parameters) none ["Foo"] with
      parameters := some parameters }

def callOfSecond : List GraphCall :=
  [.addSymbol (.declared 0) "file:///Foo.cls" none,.addSymbol (.declared 1) "file:///Foo.cls" none,
    .addSymbol (.declared 2) "file:///Foo.cls" none,.addSymbol (.declared 3) "file:///Caller.cls" none,
    .addReference (.declared 3) (.declared 2) .methodCall (classWithOverloads.lineOf 5)
      (some { argumentCount := some 1,argumentTypes := some ["Integer"] })]

abbrev callGraph [Runtime] : SymbolGraph := reached classWithOverloads (fun _ => {}) callOfSecond

/-- The call carries the id of the second overload, and is found for neither. -/
theorem call_of_second_missed : ∃ homes, ¬@OverloadGroup.Separates asciiRuntime _
    (@OverloadGroup.mk asciiRuntime (@callGraph asciiRuntime) "m" (@fileClass asciiRuntime "Foo" "file:///Foo.cls").id
      "file:///Foo.cls" (by decide) homes) (@noSearch) := by
  let Missed (_ : Runtime) := ∃ homes,
    let group : OverloadGroup callGraph := ⟨"m",(fileClass "Foo" "file:///Foo.cls").id,"file:///Foo.cls",by decide,homes⟩
    (∃ o ∈ group.overloads, callGraph.incomingResults o ≠ []) ∧
      ∀ o ∈ group.overloads, group.answer (fun g _ => ([],g)) o = []
  obtain ⟨homes,into,nothing⟩ : Missed asciiRuntime := of_byteRuntime Missed (by decide +kernel)
  exact ⟨homes,@OverloadGroup.not_separates_of_silent asciiRuntime _ noSearch _ into nothing⟩

end SymbolGraph
end ApexLs.Symbols
