import ApexLs.Symbols.PhantomEdges
import ApexLs.Symbols.PublishedTables
import ApexLs.Types.IdentifierFiles

/-! What `addSymbolTable` does while it hands the symbols of a table to the graph. They stay in
their file, and an id of the file is bound to a symbol of the table unless it was bound before. -/
namespace ApexLs.Symbols

open ApexLs.Utils ApexLs.Types ApexLs.Collections

section

variable [Runtime]

theorem Homed.relocate {s : ApexSymbol} (homed : Homed s) {file : String} (normal : extractFilePathFromUri file = file)
    (home : homeOf s = toLowerCase file) :
    Homed { s with fileUri := file } ∧ homeOf { s with fileUri := file } = homeOf s := by
  have same : homeOf { s with fileUri := file } = homeOf s := home.symm
  refine ⟨⟨normal,homed.hasId,?_,?_,?_,?_⟩,same⟩
  · rw [same]
    exact homed.ofId
  · rw [same]
    exact homed.key
  · rw [same]
    exact homed.keyFile
  · exact same ▸ homed.plain

theorem synchronizeWithKey_eq {s : ApexSymbol} (homed : Homed s) (properUri : String) :
    synchronizeWithKey properUri s = synchronizeKey s := by
  obtain ⟨u,unified,nonempty,_⟩ := homed.key
  have keyed : truthy s.key.unifiedId = true := by simp [truthy,unified,nonempty]
  simp only [synchronizeWithKey,synchronizeKey,keyed,if_true]

end

namespace SymbolGraph

variable [Runtime]

/-- The graph while the table `t` of a file is handed to it: the symbols are those of `objects`, all
of the file, and `old` are the ids that were bound before. -/
structure Filling (t : TableRef) (file : String) (objects : List Ref) (old : String → Option Ref) (g : SymbolGraph) : Prop where
  placed : Placed g
  known : g.registered file = some t
  held : heldSymbols (g.tables t) ⊆ objects
  own : ∀ s ∈ objects, Sound g.heap s ∧ homeOf (g.heap s) = toLowerCase file
  answered : ∀ id, toLowerCase (extractFilePathFromUri id) = toLowerCase file → ∀ s, g.symbolIdIndex.get? id = some s →
    old id = some s ∨ s ∈ objects

namespace Filling

variable {t : TableRef} {file : String} {objects : List Ref} {old : String → Option Ref} {g g' : SymbolGraph}

section

variable (filling : Filling t file objects old g)
include filling

theorem stays {heap : Heap} (kept : Stays g.heap heap) :
    Filling t file objects old { g with heap := heap } where
  placed := filling.placed.stays kept
  known := filling.known
  held := filling.held
  own s member := by
    obtain ⟨sound,home⟩ := filling.own s member
    obtain ⟨sound',same⟩ := kept s sound
    exact ⟨sound',same.trans home⟩
  answered := filling.answered

theorem memoised (normal : extractFilePathFromUri file = file)
    (looked : Memoised g g') : Filling t file objects old g' where
  placed := filling.placed.memoised looked
  known := by
    rw [registered,looked.fileToSymbolTable]
    exact filling.known
  held := by
    rw [looked.tables]
    exact filling.held
  own := by
    rw [looked.heap]
    exact filling.own
  answered id home s bound := by
    have found : g.resolve id = some s := (looked.resolve id).symm.trans (resolve_known bound)
    rcases Option.or_eq_some_iff.mp found with before | ⟨_,inTable⟩
    · exact filling.answered id home s before
    · obtain ⟨t',stored,is⟩ := Option.bind_eq_some_iff.mp inTable
      have ofFile : g.fileToSymbolTable.get (extractFilePathFromUri id) = some t := by
        rw [CaseInsensitiveMap.get,home,← normal]
        exact filling.known
      obtain rfl := Option.some.inj (ofFile.symm.trans stored)
      exact .inr (filling.held (findInTable_mem is))

theorem fill (normal : extractFilePathFromUri file = file) (member : symbol ∈ objects) :
    Filling t file objects old ({ g with heap := ((g.table t).addSymbol g.heap symbol).1 }.setTable t
      ((g.table t).addSymbol g.heap symbol).2) := by
  obtain ⟨sound,home⟩ := filling.own symbol member
  obtain ⟨ofTable,_⟩ := filling.placed.registered _ t filling.known
  rw [normal] at ofTable
  have within := filling.placed.tables t
  rw [ofTable] at within
  obtain ⟨stays,within'⟩ := within.addSymbol sound home
  have written := filling.stays stays
  have sameFile : toLowerCase ((g.table t).addSymbol g.heap symbol).2.fileUri = toLowerCase file := by
    rw [addSymbol_fileUri]
    exact ofTable
  refine ⟨written.placed.setTable t _ ?_ ?_,filling.known,?_,written.own,filling.answered⟩
  · rw [sameFile]
    exact within'
  · exact sameFile.trans ofTable.symm
  · intro s is
    simp only [setTable,Function.update_self] at is
    rcases addSymbol_held is with before | rfl
    · exact filling.held before
    · exact member

theorem fileSymbol (normal : extractFilePathFromUri file = file)
    (member : symbol ∈ objects) : Filling t file objects old (g.fileSymbol t symbol) := by
  unfold SymbolGraph.fileSymbol
  split
  next => exact filling.fill normal member
  next => exact filling

theorem addToTable (normal : extractFilePathFromUri file = file)
    (member : symbol ∈ objects) : Filling t file objects old (g.addToTable t symbol) := by
  have filed := filling.fill normal member
  exact filed.stays (Stays.put fun sound => withFqn_kept _ _ sound.1)

theorem indexSymbol (normal : extractFilePathFromUri file = file)
    (member : symbol ∈ objects) (byId : toLowerCase (extractFilePathFromUri symbolId) = toLowerCase file) :
    Filling t file objects old (g.indexSymbol symbol symbolId file) := by
  obtain ⟨sound,home⟩ := filling.own symbol member
  refine ⟨indexSymbol_placed filling.placed sound (home.trans byId.symm) home normal,filling.known,filling.held,filling.own,?_⟩
  intro id ofFile s bound
  simp only [SymbolGraph.indexSymbol] at bound
  split at bound
  next =>
    rw [OrderedMap.get?_set] at bound
    split at bound
    next =>
      obtain rfl := Option.some.inj bound
      exact .inr member
    next => exact filling.answered id ofFile s bound
  next => exact filling.answered id ofFile s bound

theorem addSymbol (normal : extractFilePathFromUri file = file)
    (member : symbol ∈ objects) : Filling t file objects old (g.addSymbol symbol file (some t)) := by
  obtain ⟨sound,home⟩ := filling.own symbol member
  have symbolId : getSymbolId (g.heap symbol) (extractFilePathFromUri file) = (g.heap symbol).id := by
    rw [getSymbolId,if_pos sound.1.hasId]
  have known : g.registered (extractFilePathFromUri file) = some t := by
    rw [normal]
    exact filling.known
  simp only [SymbolGraph.addSymbol,symbolId,registerSymbolTable_again known,Option.some_or]
  have filed := filling.addToTable normal member
  have indexed := filed.indexSymbol normal member (sound.1.ofId.trans home)
  rw [normal]
  exact indexed.stays (Stays.put fun kept => markStandardClass_kept file _ kept.1)

theorem qualify (normal : extractFilePathFromUri file = file) (symbol : Ref) :
    Filling t file objects old (g.qualify symbol) := by
  unfold SymbolGraph.qualify
  split
  next => exact filling
  next =>
    have looked := filling.memoised normal (namesAbove_memoised (g.heap symbol).id 20 [(g.heap symbol).id]
      (g.heap symbol).parentId [(g.heap symbol).name] g)
    exact looked.stays (Stays.put fun sound => sound.1.congr rfl rfl rfl rfl)

theorem insertSymbol (normal : extractFilePathFromUri file = file)
    (proper : createFileUri file = file) (member : symbol ∈ objects) :
    Filling t file objects old (g.insertSymbol file t symbol) := by
  obtain ⟨_,home⟩ := filling.own symbol member
  have located : Filling t file objects old
      { g with heap := g.heap.put symbol { g.heap symbol with fileUri := file } } :=
    filling.stays (Stays.put fun sound => sound.1.relocate normal home)
  obtain ⟨sound,_⟩ := located.own symbol member
  have synchronized := located.stays (Stays.put (s := synchronizeWithKey file _) (r := symbol) fun kept => by
    rw [synchronizeWithKey_eq kept.1]
    exact kept.1.synchronizeKey)
  have qualified := synchronized.qualify normal symbol
  simp only [SymbolGraph.insertSymbol,manageSymbol,proper]
  obtain ⟨g',found,after⟩ := getSymbol_spec (SymbolGraph.qualify _ symbol) (unifiedIdOf _)
  rw [found]
  have looked := qualified.memoised normal after
  exact (looked.fileSymbol normal member).addSymbol normal member

theorem insertSymbols (normal : extractFilePathFromUri file = file)
    (proper : createFileUri file = file) {symbols : List Ref} (within : symbols ⊆ objects) :
    Filling t file objects old (symbols.foldl (SymbolGraph.insertSymbol file t) g) := by
  induction symbols generalizing g with
  | nil => exact filling
  | cons symbol rest ih =>
    have first := filling.insertSymbol normal proper (within List.mem_cons_self)
    exact ih first (fun s member => within (List.mem_cons_of_mem _ member))

end

end Filling

theorem addSymbol_bound (g : SymbolGraph) {symbol : Ref} (hasId : (g.heap symbol).id ≠ "") (fileUri : String) (t : TableRef) :
    ∃ s, (g.addSymbol symbol fileUri (some t)).symbolIdIndex.get? (g.heap symbol).id = some s := by
  have symbolId : getSymbolId (g.heap symbol) (extractFilePathFromUri fileUri) = (g.heap symbol).id := by
    rw [getSymbolId,if_pos hasId]
  simp only [SymbolGraph.addSymbol,symbolId,Option.some_or]
  exact indexSymbol_bound _ _ _ _

section

variable {heap : Heap} (named : Named heap) {g : SymbolGraph} (tidy : Tidy heap g)
include named tidy

theorem manageSymbol_bound (fileUri : String)
    (t : TableRef) (n : Nat) :
    ∃ s, (g.manageSymbol (.declared n) fileUri t).symbolIdIndex.get? (heap (.declared n)).id = some s := by
  have qualified : Grows heap [.declared n] g _ := qualifiedWithKey_grows tidy n (createFileUri fileUri)
  have looked := qualified.trans (getSymbol_grows qualified.tidy
    (unifiedIdOf ((g.qualifiedWithKey (.declared n) (createFileUri fileUri)).heap (.declared n))))
  have filed := looked.trans (fileSymbol_grows named looked.tidy t n)
  have bound := addSymbol_bound _ (filed.tidy.rigid.synchronized n).nonempty (createFileUri fileUri) t
  rwa [filed.tidy.rigid.id] at bound

theorem insertSymbol_bound (normalizedUri : String)
    (t : TableRef) (n : Nat) :
    ∃ s, (g.insertSymbol normalizedUri t (.declared n)).symbolIdIndex.get? (heap (.declared n)).id = some s := by
  have located : Grows heap [.declared n] g
      { g with heap := g.heap.put (.declared n) { g.heap (.declared n) with fileUri := normalizedUri } } :=
    .put tidy ⟨rfl,rfl,rfl,rfl⟩
  exact manageSymbol_bound named located.tidy normalizedUri t n

theorem insertSymbols_bound (normalizedUri : String)
    (t : TableRef) {symbols : List Ref} (declared : ∀ s ∈ symbols, ∃ n, s = .declared n) :
    ∀ symbol ∈ symbols, ∃ s, (symbols.foldl (insertSymbol normalizedUri t) g).symbolIdIndex.get? (heap symbol).id = some s := by
  induction symbols generalizing g with
  | nil => simp
  | cons first rest ih =>
    obtain ⟨n,rfl⟩ := declared first List.mem_cons_self
    have others : ∀ s ∈ rest, ∃ n, s = .declared n := fun s member => declared s (List.mem_cons_of_mem _ member)
    have grown : Grows heap (.declared n :: rest) g _ := insertSymbol_grows named tidy List.mem_cons_self normalizedUri t
    intro symbol member
    rcases List.mem_cons.mp member with rfl | later
    · obtain ⟨s,bound⟩ := insertSymbol_bound named tidy normalizedUri t n
      have rest_ : Grows heap rest _ _ := insertSymbols_grows named grown.tidy normalizedUri t (List.Subset.refl rest) others
      exact ⟨s,rest_.known _ s bound⟩
    · exact ih grown.tidy others symbol later

end

end SymbolGraph
end ApexLs.Symbols
