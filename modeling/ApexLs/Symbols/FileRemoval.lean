import ApexLs.Symbols.IndexEntries
import ApexLs.Symbols.Registrations
import ApexLs.Utils.AsciiBytes

/-! The removal of a file. The ids it takes out are those the file index lists; a lookup that was kept under another id, and an
edge to a symbol that only the table knows, go by no such id. -/
namespace ApexLs.Symbols

open ApexLs.Utils ApexLs.Types ApexLs.Collections

section

variable [Runtime]

def IndexEntry.Leaves (fileUri : String) : IndexEntry → Prop
  | .edge _ e => e.Leaves fileUri
  | _ => False

namespace SymbolGraph

def tableSymbols (g : SymbolGraph) (fileUri : String) : List Ref :=
  (g.fileToSymbolTable.get fileUri).elim [] fun t => (g.table t).getAllSymbols

def tableIds (g : SymbolGraph) (fileUri : String) : List String :=
  (g.tableSymbols fileUri).map fun s => getSymbolId (g.heap s) fileUri

/-- The entry has a symbol of the file's table, or is an edge of the file. -/
def Concerns (g : SymbolGraph) (fileUri : String) : IndexEntry → Prop
  | .bound symbolId symbol => symbol ∈ g.tableSymbols fileUri ∨ symbolId ∈ g.tableIds fileUri
  | .qualified key symbol => symbol ∈ g.tableSymbols fileUri ∨
      ∃ id ∈ g.tableIds fileUri, toLowerCase key = toLowerCase (makeQualifiedSymbolKey fileUri id)
  | .located symbolId _ => symbolId ∈ g.tableIds fileUri
  | .named _ symbolId => symbolId ∈ g.tableIds fileUri
  | .fullyNamed _ symbolId => symbolId ∈ g.tableIds fileUri
  | .filed _ symbolId => symbolId ∈ g.tableIds fileUri
  | .edge _ e => e.Leaves fileUri ∨ e.Enters fileUri

def Names (g : SymbolGraph) (fileUri : String) : IndexEntry → Prop
  | .bound symbolId _ => symbolId ∈ listedIds g.fileIndex fileUri
  | .qualified key _ => ∃ id, toLowerCase key = toLowerCase (makeQualifiedSymbolKey fileUri id)
  | .located symbolId file => symbolId ∈ listedIds g.fileIndex fileUri ∨ toLowerCase file = toLowerCase fileUri
  | .named _ symbolId => symbolId ∈ listedIds g.fileIndex fileUri
  | .fullyNamed _ symbolId => symbolId ∈ listedIds g.fileIndex fileUri
  | .filed file symbolId => symbolId ∈ listedIds g.fileIndex fileUri ∨ toLowerCase file = toLowerCase fileUri
  | .edge _ e => e.Leaves fileUri ∨ e.Enters fileUri

def OnlyOthers (g : SymbolGraph) (fileUri : String) (entry : IndexEntry) : Prop :=
  ¬ g.Concerns fileUri entry ∧ ¬ g.Names fileUri entry

/-- What a removal reaches: edges from the file, and what goes by an id listed for it. -/
def Reached (g : SymbolGraph) (fileUri : String) (entry : IndexEntry) : Prop :=
  entry.Leaves fileUri ∨ entry.GoesBy fileUri (listedIds g.fileIndex fileUri)

theorem removeFile_fileIndex (g : SymbolGraph) (fileUri file : String) :
    listedIds (g.removeFile fileUri).fileIndex file =
      if toLowerCase file = toLowerCase (extractFilePathFromUri fileUri) then [] else listedIds g.fileIndex file := by
  unfold removeFile
  extract_lets normalizedUri symbolIds refs forgotten
  have others : forgotten.fileIndex = g.fileIndex := forgetSymbols_fileIndex _ _ _
  change listedIds (forgotten.fileIndex.delete normalizedUri) file = _
  rw [listedIds,CaseInsensitiveMap.get_delete,others]
  split
  next => rfl
  next => rfl

theorem contains_removeFile {g : SymbolGraph} (coherent : g.refs.Coherent) (fileUri : String) (entry : IndexEntry) :
    (g.removeFile fileUri).Contains entry ↔ g.Contains entry ∧ ¬ g.Reached (extractFilePathFromUri fileUri) entry := by
  have forgets (kind : ∀ file id, entry ≠ .filed file id) (kind' : ∀ k e, entry ≠ .edge k e) :=
    contains_forgetSymbols { g with refs := (g.removeFile fileUri).refs } (extractFilePathFromUri fileUri)
      (listedIds g.fileIndex (extractFilePathFromUri fileUri)) kind kind'
  rw [removeFile_refs] at forgets
  cases entry with
  | filed file id =>
    simp only [Contains,Reached,IndexEntry.Leaves,IndexEntry.GoesBy,false_or,removeFile_fileIndex]
    split
    next same =>
      have bucket : listedIds g.fileIndex file = listedIds g.fileIndex (extractFilePathFromUri fileUri) := by
        simp only [listedIds,CaseInsensitiveMap.get,same]
      simp [bucket,same]
    next other => simp [other]
  | edge k e =>
    have cleared := ReferenceIndexes.removeReferencesFromFile_spec coherent (extractFilePathFromUri fileUri)
    simp only [Contains,Reached,IndexEntry.Leaves,RefStoreEntry.Leaves,IndexEntry.GoesBy,removeFile_refs]
    rw [(ReferenceIndexes.removeIncomingReferencesToSymbols_spec cleared.1 _ _).2,cleared.2]
    simp [ReferenceIndexes.reverseKey,listedIds,and_assoc]
  | _ =>
    simp only [Reached,IndexEntry.Leaves,false_or]
    exact forgets (by simp) (by simp)

theorem removeFile_registered (g : SymbolGraph) (fileUri file : String) :
    (g.removeFile fileUri).fileToSymbolTable.get file =
      if toLowerCase file = toLowerCase (extractFilePathFromUri fileUri) then none else g.fileToSymbolTable.get file := by
  unfold removeFile
  extract_lets normalizedUri symbolIds refs forgotten
  have tables : forgotten.fileToSymbolTable = g.fileToSymbolTable := forgetSymbols_fileToSymbolTable _ _ _
  change (forgotten.fileToSymbolTable.delete normalizedUri).get file = _
  rw [CaseInsensitiveMap.get_delete,tables]

omit [Runtime] in
theorem orderedMap_eq {m m' : OrderedMap String ν} (same : m.entries = m'.entries) : m = m' := by
  obtain ⟨entries,unique⟩ := m
  obtain ⟨entries',unique'⟩ := m'
  cases same
  rfl

theorem caseInsensitiveMap_eq {m m' : CaseInsensitiveMap ν} (same : m.entries = m'.entries) : m = m' := by
  obtain ⟨entries,spelled⟩ := m
  obtain ⟨entries',spelled'⟩ := m'
  cases same
  rfl

theorem delete_absent {m : CaseInsensitiveMap ν} {key : String} (absent : m.get key = none) : m.delete key = m := by
  have keys : ∀ p ∈ m.entries.entries, p.1 ≠ toLowerCase key := by
    rintro p member same
    have found := OrderedMap.get?_eq_some_iff.mpr member
    rw [same] at found
    simp [CaseInsensitiveMap.get,CaseInsensitiveMap.lookup,found] at absent
  apply caseInsensitiveMap_eq
  apply orderedMap_eq
  simp only [CaseInsensitiveMap.delete,OrderedMap.erase,OrderedMap.filterMap]
  rw [List.filterMap_congr (g := some) fun p member => by simp [keys p member],List.filterMap_some]

theorem removeFile_nothing {g : SymbolGraph} {fileUri : String}
    (unfiled : g.fileIndex.get (extractFilePathFromUri fileUri) = none)
    (unregistered : g.fileToSymbolTable.get (extractFilePathFromUri fileUri) = none)
    (edgeless : g.refs.forwardIndex.get (extractFilePathFromUri fileUri) = none) :
    g.removeFile fileUri = g.syncTotals := by
  simp only [removeFile,unfiled,Option.getD_none,List.foldl_nil,ReferenceIndexes.removeReferencesFromFile,edgeless,
    Option.elim_none,ReferenceIndexes.removeReferenceKeys,ReferenceIndexes.removeIncomingReferencesToSymbols,
    delete_absent unfiled,delete_absent unregistered]

theorem removeFile_again {g : SymbolGraph} (coherent : g.refs.Coherent) (fileUri : String) :
    (g.removeFile fileUri).removeFile fileUri = g.removeFile fileUri := by
  have settled : (g.removeFile fileUri).refs.Coherent := call_coherent g (.removeFile fileUri) coherent
  have unfiled : (g.removeFile fileUri).fileIndex.get (extractFilePathFromUri fileUri) = none :=
    (CaseInsensitiveMap.get_delete _ _ _).trans (if_pos rfl)
  have edgeless : (g.removeFile fileUri).refs.forwardIndex.get (extractFilePathFromUri fileUri) = none := by
    cases found : (g.removeFile fileUri).refs.forwardIndex.get (extractFilePathFromUri fileUri) with
    | none => rfl
    | some keys =>
      obtain ⟨refKey,member⟩ := settled.forward.noneEmpty _ keys found
      obtain ⟨e,holds,same⟩ := (settled.forward.lists _ refKey).mp ⟨keys,found,member⟩
      have kept := (contains_removeFile coherent fileUri (.edge refKey e)).mp holds
      exact absurd (.inl same) kept.2
  rw [removeFile_nothing unfiled (by simp [removeFile_registered]) edgeless]
  rfl

/-- The removal of a file is complete and local: nothing of its table and no edge of the file is left, what has nothing of the
file stays, in its order, and a second removal changes nothing. -/
structure RemovesFile (g : SymbolGraph) (fileUri : String) : Prop where
  gone : ∀ entry, (g.removeFile fileUri).Contains entry → ¬ g.Concerns (extractFilePathFromUri fileUri) entry
  unregistered : (g.removeFile fileUri).registered fileUri = none
  kept : ∀ entry, g.Contains entry → g.OnlyOthers (extractFilePathFromUri fileUri) entry →
    (g.removeFile fileUri).Contains entry
  buckets : ∀ key, (listedIds (g.removeFile fileUri).nameIndex key).Sublist (listedIds g.nameIndex key) ∧
    (listedIds (g.removeFile fileUri).fqnIndex key).Sublist (listedIds g.fqnIndex key) ∧
    (listedIds (g.removeFile fileUri).fileIndex key).Sublist (listedIds g.fileIndex key)
  keptTables : ∀ file, toLowerCase file ≠ toLowerCase (extractFilePathFromUri fileUri) →
    (g.removeFile fileUri).fileToSymbolTable.get file = g.fileToSymbolTable.get file
  again : (g.removeFile fileUri).removeFile fileUri = g.removeFile fileUri

/-- The file index lists the ids that the other indexes and the edges use for the file. -/
structure ListsWhole (g : SymbolGraph) (fileUri : String) : Prop where
  /-- What an index has of the file's table, and every edge of the file, starts in the file or goes by an id listed for it. -/
  whole : ∀ entry, g.Contains entry → g.Concerns fileUri entry → g.Reached fileUri entry
  /-- What goes by such an id has something of the file. -/
  own : ∀ entry, g.Contains entry → g.Reached fileUri entry → ¬ g.OnlyOthers fileUri entry

theorem removeFile_buckets (g : SymbolGraph) (fileUri key : String) :
    (listedIds (g.removeFile fileUri).nameIndex key).Sublist (listedIds g.nameIndex key) ∧
      (listedIds (g.removeFile fileUri).fqnIndex key).Sublist (listedIds g.fqnIndex key) ∧
      (listedIds (g.removeFile fileUri).fileIndex key).Sublist (listedIds g.fileIndex key) := by
  have drops := removeFile_drops g fileUri
  rw [drops.names,drops.fqns,removeFile_fileIndex]
  refine ⟨List.filter_sublist,List.filter_sublist,?_⟩
  split
  next => exact List.nil_sublist _
  next => exact List.Sublist.refl _

theorem removesFile_iff {g : SymbolGraph} (coherent : g.refs.Coherent) (fileUri : String) :
    g.RemovesFile fileUri ↔ g.ListsWhole (extractFilePathFromUri fileUri) := by
  constructor
  · intro removes
    refine ⟨fun entry present concerns => ?_,fun entry present reached others => ?_⟩
    · by_contra missed
      exact removes.gone entry ((contains_removeFile coherent fileUri entry).mpr ⟨present,missed⟩) concerns
    · exact ((contains_removeFile coherent fileUri entry).mp (removes.kept entry present others)).2 reached
  · rintro ⟨whole,own⟩
    refine ⟨fun entry left concerns => ?_,?_,fun entry present others => ?_,removeFile_buckets g fileUri,fun file other => ?_,
      removeFile_again coherent fileUri⟩
    · obtain ⟨present,missed⟩ := (contains_removeFile coherent fileUri entry).mp left
      exact missed (whole entry present concerns)
    · simp [registered,removeFile_registered]
    · refine (contains_removeFile coherent fileUri entry).mpr ⟨present,fun reached => ?_⟩
      exact own entry present reached others
    · rw [removeFile_registered,if_neg other]

/-- In every reachable graph, a removal is complete and local just where the file index lists the ids that the other indexes and
the edges use for the file, and no others. -/
theorem removeFile_exact_iff (heap : Heap) (tables : TableRef → SymbolTable) (calls : List GraphCall) (fileUri : String) :
    (reached heap tables calls).RemovesFile fileUri ↔
      (reached heap tables calls).ListsWhole (extractFilePathFromUri fileUri) :=
  removesFile_iff (reached_coherent heap tables calls) fileUri

/-- A symbol of the file's table is bound to an id after the removal. -/
def Survives (g : SymbolGraph) (fileUri symbolId : String) (symbol : Ref) : Prop :=
  symbol ∈ g.tableSymbols (extractFilePathFromUri fileUri) ∧ (g.removeFile fileUri).symbolIdIndex.get? symbolId = some symbol

instance (g : SymbolGraph) (fileUri symbolId : String) (symbol : Ref) : Decidable (g.Survives fileUri symbolId symbol) :=
  instDecidableAnd

end SymbolGraph
end

namespace SymbolGraph

def lookedUpCalls : List GraphCall :=
  [.addSymbol (.declared 0) "file:///Foo.cls" none,.getSymbol "file:///Foo.cls#Foo"]

theorem lookup_survives : @Survives asciiRuntime (@reached asciiRuntime (fun _ => @fileClass asciiRuntime "Foo" "file:///Foo.cls")
    (fun _ => {}) lookedUpCalls) "file:///Foo.cls" "file:///Foo.cls#Foo" (.declared 0) := by
  have onBytes : @Survives byteRuntime (@reached byteRuntime (fun _ => @fileClass asciiRuntime "Foo" "file:///Foo.cls")
      (fun _ => {}) lookedUpCalls) "file:///Foo.cls" "file:///Foo.cls#Foo" (.declared 0) := by
    decide +kernel
  exact of_byteRuntime (fun r => @Survives r (@reached r (fun _ => @fileClass asciiRuntime "Foo" "file:///Foo.cls")
    (fun _ => {}) lookedUpCalls) "file:///Foo.cls" "file:///Foo.cls#Foo" (.declared 0)) onBytes

/-- The lookup was kept under an id that the file index does not list, and the removal leaves it. -/
theorem looked_up_class_survives : ¬ @RemovesFile asciiRuntime (@reached asciiRuntime
    (fun _ => @fileClass asciiRuntime "Foo" "file:///Foo.cls") (fun _ => {}) lookedUpCalls) "file:///Foo.cls" := by
  intro removes
  obtain ⟨listed,bound⟩ := lookup_survives
  exact @RemovesFile.gone asciiRuntime _ _ removes (.bound "file:///Foo.cls#Foo" (.declared 0)) bound (.inl listed)

end SymbolGraph
end ApexLs.Symbols
