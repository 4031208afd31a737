import ApexLs.Symbols.GraphRuns
import ApexLs.Symbols.Growth

/-! The entries of the indexes and of the edge store, and what taking ids out of them leaves. -/
namespace ApexLs.Symbols

open ApexLs.Utils ApexLs.Types ApexLs.Collections

inductive IndexEntry where
  | bound (symbolId : String) (symbol : Ref)
  | qualified (key : String) (symbol : Ref)
  | located (symbolId fileUri : String)
  | named (name symbolId : String)
  | fullyNamed (fqn symbolId : String)
  | filed (fileUri symbolId : String)
  | edge (refKey : String) (entry : RefStoreEntry)
  deriving DecidableEq, Repr

section

variable [Runtime]

def RefStoreEntry.Leaves (e : RefStoreEntry) (fileUri : String) : Prop := toLowerCase e.sourceFileUri = toLowerCase fileUri

def RefStoreEntry.Enters (e : RefStoreEntry) (fileUri : String) : Prop :=
  toLowerCase (extractFilePathFromUri e.targetFileUri) = toLowerCase (extractFilePathFromUri fileUri)

/-- What goes by one of the ids, as the index it stands in compares them. -/
def IndexEntry.GoesBy (fileUri : String) (ids : List String) : IndexEntry → Prop
  | .bound symbolId _ => symbolId ∈ ids
  | .qualified key _ => ∃ id ∈ ids, toLowerCase key = toLowerCase (makeQualifiedSymbolKey fileUri id)
  | .located symbolId _ => ∃ id ∈ ids, toLowerCase symbolId = toLowerCase id
  | .named _ symbolId => symbolId ∈ ids
  | .fullyNamed _ symbolId => symbolId ∈ ids
  | .filed file symbolId => toLowerCase file = toLowerCase fileUri ∧ symbolId ∈ ids
  | .edge _ e => ∃ id ∈ ids,
      toLowerCase e.targetIndexKey = toLowerCase (makeQualifiedSymbolKey (extractFilePathFromUri fileUri) id)

theorem makeInternalKey_same_iff {a a' b b' : String} (same : toLowerCase a = toLowerCase a') :
    toLowerCase (makeInternalKey a b) = toLowerCase (makeInternalKey a' b') ↔ toLowerCase b = toLowerCase b' := by
  rw [toLowerCase_makeInternalKey,toLowerCase_makeInternalKey,same]
  constructor
  · intro keys
    have chars := congrArg String.toList keys
    simp only [makeInternalKey,String.toList_append] at chars
    exact String.toList_inj.mp (List.append_cancel_left chars)
  · intro ids
    rw [ids]

theorem holds_deleteAll {m : CaseInsensitiveMap ν} (key : String → String) {ids : List String} :
    (ids.foldl (fun m id => m.delete (key id)) m).Holds k v ↔
      m.Holds k v ∧ ∀ id ∈ ids, toLowerCase k ≠ toLowerCase (key id) := by
  induction ids generalizing m with
  | nil => simp
  | cons id rest ih => rw [List.foldl_cons,ih,CaseInsensitiveMap.holds_delete,List.forall_mem_cons,and_assoc]

namespace SymbolGraph

def Contains (g : SymbolGraph) : IndexEntry → Prop
  | .bound symbolId symbol => g.symbolIdIndex.get? symbolId = some symbol
  | .qualified key symbol => g.symbolQualifiedIndex.Holds key symbol
  | .located symbolId fileUri => g.symbolFileMap.Holds symbolId fileUri
  | .named name symbolId => symbolId ∈ listedIds g.nameIndex name
  | .fullyNamed fqn symbolId => symbolId ∈ listedIds g.fqnIndex fqn
  | .filed fileUri symbolId => symbolId ∈ listedIds g.fileIndex fileUri
  | .edge refKey entry => g.refs.refStore.Holds refKey entry

section

variable (normalizedUri : String) (g : SymbolGraph) (ids : List String)
include normalizedUri g ids

theorem forgetSymbols_symbolFileMap :
    (ids.foldl (forgetSymbol normalizedUri) g).symbolFileMap = ids.foldl (fun m id => m.delete id) g.symbolFileMap := by
  induction ids generalizing g with
  | nil => rfl
  | cons id rest ih => exact ih (g.forgetSymbol normalizedUri id)

theorem forgetSymbols_symbolQualifiedIndex :
    (ids.foldl (forgetSymbol normalizedUri) g).symbolQualifiedIndex =
      ids.foldl (fun m id => m.delete (makeQualifiedSymbolKey normalizedUri id)) g.symbolQualifiedIndex := by
  induction ids generalizing g with
  | nil => rfl
  | cons id rest ih => exact ih (g.forgetSymbol normalizedUri id)

theorem forgetSymbols_fileToSymbolTable :
    (ids.foldl (forgetSymbol normalizedUri) g).fileToSymbolTable = g.fileToSymbolTable := by
  induction ids generalizing g with
  | nil => rfl
  | cons id rest ih => exact ih (g.forgetSymbol normalizedUri id)

end

theorem contains_forgetSymbols (g : SymbolGraph) (normalizedUri : String) (ids : List String) {entry : IndexEntry}
    (kind : ∀ file id, entry ≠ .filed file id) (kind' : ∀ k e, entry ≠ .edge k e) :
    (ids.foldl (forgetSymbol normalizedUri) g).Contains entry ↔ g.Contains entry ∧ ¬ entry.GoesBy normalizedUri ids := by
  have drops := forgetSymbols_drops normalizedUri g ids
  cases entry with
  | bound id s =>
    simp only [Contains,IndexEntry.GoesBy,drops.known]
    split
    next gone => simp [gone]
    next kept => simp [kept]
  | qualified key s =>
    simp only [Contains,IndexEntry.GoesBy,forgetSymbols_symbolQualifiedIndex,holds_deleteAll]
    simp
  | located id file =>
    simp only [Contains,IndexEntry.GoesBy,forgetSymbols_symbolFileMap,holds_deleteAll fun id => id]
    simp
  | named name id => simp [Contains,IndexEntry.GoesBy,drops.names]
  | fullyNamed fqn id => simp [Contains,IndexEntry.GoesBy,drops.fqns]
  | filed file id => exact absurd rfl (kind file id)
  | edge k e => exact absurd rfl (kind' k e)

end SymbolGraph
end
end ApexLs.Symbols
