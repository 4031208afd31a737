import ApexLs.Symbols.DeferredReferences

/-! What the lookups of the graph answer. A lookup may keep what it found in the id index;
that never changes an answer. -/
namespace ApexLs.Symbols

open ApexLs.Utils ApexLs.Types ApexLs.Collections

theorem mem_heldSymbols {t : SymbolTable} :
    s ∈ heldSymbols t ↔ s ∈ t.symbolArray ∨ ∃ id b, t.symbolMap.get? id = some b ∧ s ∈ b.symbols := by
  simp only [heldSymbols,List.mem_append,List.mem_flatMap,OrderedMap.get?_eq_some_iff]
  constructor
  · rintro (listed | ⟨⟨id,b⟩,filed,member⟩)
    · exact .inl listed
    · exact .inr ⟨id,b,filed,member⟩
  · rintro (listed | ⟨id,b,filed,member⟩)
    · exact .inl listed
    · exact .inr ⟨(id,b),filed,member⟩

theorem findInTable_mem {heap : Heap} {t : SymbolTable} (found : findInTable heap t symbolId = some s) :
    s ∈ heldSymbols t := by
  rw [mem_heldSymbols]
  have listed : ∀ p : Ref → Bool, t.getAllSymbols.find? p = some s → s ∈ t.symbolArray :=
    fun _ hit => List.mem_of_find?_eq_some hit
  simp only [findInTable,Option.or_eq_some_iff,Option.bind_eq_some_iff] at found
  rcases found with ((byId | ⟨_,byOwnId⟩) | ⟨_,byKey⟩) | ⟨_,parsed,_,byName⟩
  · obtain ⟨bucket,filed,first⟩ := Option.bind_eq_some_iff.mp byId
    exact .inr ⟨symbolId,bucket,filed,List.mem_of_mem_head? first⟩
  · exact .inl (listed _ byOwnId)
  · exact .inl (listed _ byKey)
  · split at byName
    next => simp at byName
    next =>
      rcases Option.or_eq_some_iff.mp byName with first | ⟨_,second⟩
      · exact .inl (listed _ first)
      · exact .inl (listed _ second)

namespace SymbolGraph

variable [Runtime]

structure SameSymbols (g g' : SymbolGraph) : Prop where
  heap : g'.heap = g.heap
  tables : g'.tables = g.tables
  ensured : g'.ensured = g.ensured
  nameIndex : g'.nameIndex = g.nameIndex
  fqnIndex : g'.fqnIndex = g.fqnIndex
  fileIndex : g'.fileIndex = g.fileIndex
  symbolQualifiedIndex : g'.symbolQualifiedIndex = g.symbolQualifiedIndex
  fileToSymbolTable : g'.fileToSymbolTable = g.fileToSymbolTable
  resolve : ∀ symbolId, g'.resolve symbolId = g.resolve symbolId
  known : ∀ symbolId s, g.symbolIdIndex.get? symbolId = some s → g'.symbolIdIndex.get? symbolId = some s

structure Memoised (g g' : SymbolGraph) : Prop extends SameSymbols g g' where
  refs : g'.refs = g.refs
  deferredReferences : g'.deferredReferences = g.deferredReferences

theorem SameSymbols.refl (g : SymbolGraph) : SameSymbols g g :=
  ⟨rfl,rfl,rfl,rfl,rfl,rfl,rfl,rfl,fun _ => rfl,fun _ _ => id⟩

theorem SameSymbols.trans {g g' g'' : SymbolGraph} (first : SameSymbols g g') (second : SameSymbols g' g'') :
    SameSymbols g g'' where
  heap := second.heap.trans first.heap
  tables := second.tables.trans first.tables
  ensured := second.ensured.trans first.ensured
  nameIndex := second.nameIndex.trans first.nameIndex
  fqnIndex := second.fqnIndex.trans first.fqnIndex
  fileIndex := second.fileIndex.trans first.fileIndex
  symbolQualifiedIndex := second.symbolQualifiedIndex.trans first.symbolQualifiedIndex
  fileToSymbolTable := second.fileToSymbolTable.trans first.fileToSymbolTable
  resolve symbolId := (second.resolve symbolId).trans (first.resolve symbolId)
  known symbolId s found := second.known symbolId s (first.known symbolId s found)

theorem Memoised.refl (g : SymbolGraph) : Memoised g g := ⟨SameSymbols.refl g,rfl,rfl⟩

theorem Memoised.trans {g g' g'' : SymbolGraph} (first : Memoised g g') (second : Memoised g' g'') :
    Memoised g g'' :=
  ⟨first.toSameSymbols.trans second.toSameSymbols,second.refs.trans first.refs,
    second.deferredReferences.trans first.deferredReferences⟩

theorem resolve_known {g : SymbolGraph} {id : String} (known : g.symbolIdIndex.get? id = some s) : g.resolve id = some s := by
  rw [resolve,known]
  rfl

theorem getSymbol_spec (g : SymbolGraph) (symbolId : String) :
    ∃ g', g.getSymbol symbolId = (g.resolve symbolId,g') ∧ Memoised g g' := by
  unfold getSymbol
  cases found : g.resolve symbolId with
  | none => exact ⟨g,rfl,Memoised.refl g⟩
  | some s =>
    refine ⟨_,rfl,⟨rfl,rfl,rfl,rfl,rfl,rfl,rfl,rfl,fun other => ?_,fun other r known => ?_⟩,rfl,rfl⟩
    · by_cases same : other = symbolId
      · rw [same,found]
        simp [resolve]
      · simp [resolve,same,table]
    · rw [OrderedMap.get?_set]
      split
      next same =>
        subst same
        simpa [resolve,known] using found.symm
      next => exact known

def symbolsOf (g : SymbolGraph) (symbolIds : List String) : List Ref := symbolIds.filterMap g.resolve

theorem getSymbols_spec (g : SymbolGraph) (symbolIds : List String) :
    ∃ g', g.getSymbols symbolIds = (g.symbolsOf symbolIds,g') ∧ Memoised g g' := by
  induction symbolIds generalizing g with
  | nil => exact ⟨g,rfl,Memoised.refl g⟩
  | cons symbolId rest ih =>
    obtain ⟨g',found,first⟩ := getSymbol_spec g symbolId
    obtain ⟨g'',others,after⟩ := ih g'
    refine ⟨g'',?_,first.trans after⟩
    have sameRest : g'.symbolsOf rest = g.symbolsOf rest := congrArg (rest.filterMap ·) (funext first.resolve)
    simp only [getSymbols,found,others,sameRest]
    rw [symbolsOf,symbolsOf,List.filterMap_cons]
    cases g.resolve symbolId <;> rfl

def symbolsNamed (g : SymbolGraph) (name : String) : List Ref :=
  if isApexKeyword name then []
  else (g.symbolsOf ((g.nameIndex.get name).getD [])).filter (fun s => !(g.heap s).isBlockSymbol)

theorem findSymbolByName_spec (g : SymbolGraph) (name : String) :
    ∃ g', g.findSymbolByName name = (g.symbolsNamed name,g') ∧ Memoised g g' := by
  unfold findSymbolByName symbolsNamed
  split
  next => exact ⟨g,rfl,Memoised.refl g⟩
  next =>
    obtain ⟨g',found,after⟩ := getSymbols_spec g ((g.nameIndex.get name).getD [])
    exact ⟨g',by simp only [found,after.heap],after⟩

def fileSymbols (g : SymbolGraph) (fileUri : String) : List Ref :=
  let normalizedUri := extractFilePathFromUri fileUri
  match g.fileToSymbolTable.get normalizedUri with
  | some t => (g.table t).getAllSymbols
  | none => g.symbolsOf ((g.fileIndex.get normalizedUri).getD [])

theorem getSymbolsInFile_spec (g : SymbolGraph) (fileUri : String) :
    ∃ g', g.getSymbolsInFile fileUri = (g.fileSymbols fileUri,g') ∧ Memoised g g' := by
  simp only [getSymbolsInFile,fileSymbols]
  cases g.fileToSymbolTable.get (extractFilePathFromUri fileUri) with
  | some t => exact ⟨g,rfl,Memoised.refl g⟩
  | none => exact getSymbols_spec g _

def firstNamed (g : SymbolGraph) (fileUri symbolName : String) : Option Ref :=
  (g.fileSymbols (extractFilePathFromUri fileUri)).find?
    (fun s => (g.heap s).name = symbolName && !(g.heap s).isBlockSymbol)

theorem findSymbolInFileByName_spec (g : SymbolGraph) (fileUri symbolName : String) :
    ∃ g', g.findSymbolInFileByName fileUri symbolName = (g.firstNamed fileUri symbolName,g') ∧ Memoised g g' := by
  obtain ⟨g',found,after⟩ := getSymbolsInFile_spec g (extractFilePathFromUri fileUri)
  exact ⟨g',by simp only [findSymbolInFileByName,firstNamed,found,after.heap],after⟩

def identified (g : SymbolGraph) (symbolId fileUri : String) : Option Ref :=
  (g.symbolQualifiedIndex.get (makeQualifiedSymbolKey fileUri symbolId)).or (g.resolve symbolId)

theorem getSymbolByIdAndFile_spec (g : SymbolGraph) (symbolId fileUri : String) :
    ∃ g', g.getSymbolByIdAndFile symbolId fileUri = (g.identified symbolId fileUri,g') ∧ Memoised g g' := by
  unfold getSymbolByIdAndFile identified
  cases g.symbolQualifiedIndex.get (makeQualifiedSymbolKey fileUri symbolId) with
  | some s => exact ⟨g,rfl,Memoised.refl g⟩
  | none => exact getSymbol_spec g symbolId

def standIn (g : SymbolGraph) (symbol : ApexSymbol) : Option Ref :=
  (g.identified symbol.id symbol.fileUri).or (g.firstNamed symbol.fileUri symbol.name)

namespace SameSymbols

variable {g g' : SymbolGraph} (same : SameSymbols g g')

include same

theorem symbolsOf (symbolIds : List String) : g'.symbolsOf symbolIds = g.symbolsOf symbolIds :=
  congrArg (symbolIds.filterMap ·) (funext same.resolve)

theorem symbolsNamed (name : String) : g'.symbolsNamed name = g.symbolsNamed name := by
  simp only [SymbolGraph.symbolsNamed,same.symbolsOf,same.nameIndex,same.heap]

theorem fileSymbols (fileUri : String) : g'.fileSymbols fileUri = g.fileSymbols fileUri := by
  simp only [SymbolGraph.fileSymbols,same.symbolsOf,same.fileIndex,same.fileToSymbolTable,table,same.tables]

theorem firstNamed (fileUri symbolName : String) : g'.firstNamed fileUri symbolName = g.firstNamed fileUri symbolName := by
  simp only [SymbolGraph.firstNamed,same.fileSymbols,same.heap]

theorem identified (symbolId fileUri : String) : g'.identified symbolId fileUri = g.identified symbolId fileUri := by
  simp only [SymbolGraph.identified,same.symbolQualifiedIndex,same.resolve]

theorem standIn (symbol : ApexSymbol) : g'.standIn symbol = g.standIn symbol := by
  simp only [SymbolGraph.standIn,same.identified,same.firstNamed]

end SameSymbols

theorem findInGraph_spec (g : SymbolGraph) (symbol : ApexSymbol) :
    ∃ g', g.findInGraph symbol = (g.standIn symbol,g') ∧ Memoised g g' := by
  obtain ⟨g',found,after⟩ := getSymbolByIdAndFile_spec g symbol.id symbol.fileUri
  unfold findInGraph standIn
  rw [found]
  cases g.identified symbol.id symbol.fileUri with
  | some s => exact ⟨g',rfl,after⟩
  | none =>
    obtain ⟨g'',byName,later⟩ := findSymbolInFileByName_spec g' symbol.fileUri symbol.name
    rw [after.toSameSymbols.firstNamed] at byName
    exact ⟨g'',byName,after.trans later⟩

def targetStandIn (g : SymbolGraph) (target : ApexSymbol) : Option Ref :=
  if target.fileUri = "" then none else g.standIn target

theorem findTarget_spec (g : SymbolGraph) (target : ApexSymbol) :
    ∃ g', g.findTarget target = (g.targetStandIn target,g') ∧ Memoised g g' := by
  unfold findTarget targetStandIn
  split
  next => exact ⟨g,rfl,Memoised.refl g⟩
  next => exact findInGraph_spec g target

end SymbolGraph
end ApexLs.Symbols
