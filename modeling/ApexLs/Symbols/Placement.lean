import ApexLs.Symbols.DrainSpecs
import ApexLs.Symbols.Homes

/-! Whatever the graph answers for a file is a symbol of that file. This holds of every graph
whose files were handed their own declarations; each call keeps it. -/
namespace ApexLs.Symbols

open ApexLs.Utils ApexLs.Types ApexLs.Collections

theorem before_separator {a b a' b' : String} (same : a ++ separator ++ b = a' ++ separator ++ b')
    (plain : '\x1f' ∉ a.toList) (plain' : '\x1f' ∉ a'.toList) : a = a' := by
  have cut : ∀ c d : String, '\x1f' ∉ c.toList →
      (c ++ separator ++ d).toList.takeWhile (fun x => decide (x ≠ '\x1f')) = c.toList := by
    intro c d free
    have split : (c ++ separator ++ d).toList = c.toList ++ '\x1f' :: d.toList := by
      simp [separator]
    rw [split,List.takeWhile_append_of_pos]
    · simp
    · intro x member
      simp only [decide_eq_true_eq]
      rintro rfl
      exact free member
  have taken := cut a b plain
  rw [same,cut a' b' plain'] at taken
  exact String.toList_injective taken.symm

theorem separator_split {a b a' b' : String} (same : a ++ separator ++ b = a' ++ separator ++ b')
    (plain : '\x1f' ∉ a.toList) (plain' : '\x1f' ∉ a'.toList) : a = a' ∧ b = b' := by
  have front := before_separator same plain plain'
  refine ⟨front,?_⟩
  subst front
  apply String.toList_injective
  simpa using congrArg String.toList same

theorem containingSymbol_mem {heap : Heap} {allSymbols : List Ref}
    (found : containingSymbol heap allSymbols steps visited parentId = some s) : s ∈ allSymbols := by
  induction steps generalizing visited parentId with
  | zero => cases parentId <;> simp [containingSymbol] at found
  | succ steps ih =>
    cases parentId with
    | undefined => simp [containingSymbol] at found
    | null => simp [containingSymbol] at found
    | of currentId =>
      simp only [containingSymbol] at found
      split at found
      next => simp at found
      next =>
        obtain ⟨parent,listed,answer⟩ := Option.bind_eq_some_iff.mp found
        split at answer
        next =>
          obtain rfl := Option.some.inj answer
          exact List.mem_of_find?_eq_some listed
        next =>
          split at answer
          next => exact ih answer
          next => simp at answer

namespace SymbolGraph

variable [Runtime]

def Made (g : SymbolGraph) (t : TableRef) : Prop := ∀ n, t = .ensured n → n < g.ensured

structure Placed (g : SymbolGraph) : Prop where
  declared : ∀ n, Homed (g.heap (.declared n))
  ids : ∀ id s, g.symbolIdIndex.get? id = some s →
    Sound g.heap s ∧ homeOf (g.heap s) = toLowerCase (extractFilePathFromUri id)
  qualified : ∀ key s, g.symbolQualifiedIndex.lookup key = some s →
    Sound g.heap s ∧ ∃ rest, key = homeOf (g.heap s) ++ separator ++ rest
  tables : ∀ t, Within g.heap (g.tables t) (toLowerCase (g.tables t).fileUri)
  registered : ∀ file t, g.fileToSymbolTable.lookup file = some t →
    toLowerCase (g.tables t).fileUri = file ∧ g.Made t
  listed : ∀ file ids, g.fileIndex.lookup file = some ids →
    ∀ id ∈ ids, toLowerCase (extractFilePathFromUri id) = file
  pending : ∀ name, ∀ entry ∈ g.deferredUnder name, Sound g.heap entry.sourceSymbol

namespace Placed

variable {g : SymbolGraph} (placed : Placed g)

include placed

theorem sound (n : Nat) : Sound g.heap (.declared n) := ⟨placed.declared n,by simp⟩

theorem resolve (found : g.resolve symbolId = some s) :
    Sound g.heap s ∧ homeOf (g.heap s) = toLowerCase (extractFilePathFromUri symbolId) := by
  rcases Option.or_eq_some_iff.mp found with known | ⟨_,inTable⟩
  · exact placed.ids symbolId s known
  · obtain ⟨t,registered,held⟩ := Option.bind_eq_some_iff.mp inTable
    obtain ⟨file,_⟩ := placed.registered _ t registered
    obtain ⟨sound,home⟩ := placed.tables t s (findInTable_mem held)
    exact ⟨sound,home.trans file⟩

theorem fileSymbols (member : s ∈ g.fileSymbols fileUri) :
    Sound g.heap s ∧ homeOf (g.heap s) = toLowerCase (extractFilePathFromUri fileUri) := by
  simp only [SymbolGraph.fileSymbols] at member
  split at member
  next t registered =>
    obtain ⟨file,_⟩ := placed.registered _ t registered
    obtain ⟨sound,home⟩ := placed.tables t s (mem_heldSymbols.mpr (.inl member))
    exact ⟨sound,home.trans file⟩
  next =>
    obtain ⟨id,listed,found⟩ := List.mem_filterMap.mp member
    obtain ⟨sound,home⟩ := placed.resolve found
    refine ⟨sound,home.trans ?_⟩
    cases ids : g.fileIndex.get (extractFilePathFromUri fileUri) with
    | none => simp [ids] at listed
    | some known => exact placed.listed _ known ids id (by simpa [ids] using listed)

theorem firstNamed (normal : extractFilePathFromUri fileUri = fileUri) (found : g.firstNamed fileUri name = some s) :
    Sound g.heap s ∧ homeOf (g.heap s) = toLowerCase fileUri := by
  have here := placed.fileSymbols (List.mem_of_find?_eq_some found)
  rwa [normal,normal] at here

theorem standIn (homed : Homed symbol) (found : g.standIn symbol = some s) :
    Sound g.heap s ∧ homeOf (g.heap s) = homeOf symbol := by
  rcases Option.or_eq_some_iff.mp found with identified | ⟨_,named⟩
  · rcases Option.or_eq_some_iff.mp identified with qualified | ⟨_,byId⟩
    · obtain ⟨sound,rest,key⟩ := placed.qualified _ s qualified
      rw [makeQualifiedSymbolKey,makeInternalKey,homed.normal,Runtime.lower_separator] at key
      exact ⟨sound,(before_separator key homed.plain sound.1.plain).symm⟩
    · obtain ⟨sound,home⟩ := placed.resolve byId
      exact ⟨sound,home.trans homed.ofId⟩
  · exact placed.firstNamed homed.normal named

theorem sourceOf {entry : DeferredReference} (sound : Sound g.heap entry.sourceSymbol)
    (found : g.sourceOf entry = some s) :
    Sound g.heap s ∧ homeOf (g.heap s) = homeOf (g.heap entry.sourceSymbol) :=
  placed.firstNamed sound.1.normal found

theorem declaringSource (sound : Sound g.heap source) (found : g.declaringSource source = some s) :
    Sound g.heap s ∧ homeOf (g.heap s) = homeOf (g.heap source) := by
  simp only [SymbolGraph.declaringSource,findContainingSymbolForBlock] at found
  split at found
  next =>
    obtain ⟨t,registered,walked⟩ := Option.bind_eq_some_iff.mp found
    obtain ⟨file,_⟩ := placed.registered _ t registered
    obtain ⟨sound',home⟩ := placed.tables t s (mem_heldSymbols.mpr (.inl (containingSymbol_mem walked)))
    refine ⟨sound',home.trans (file.trans ?_)⟩
    rw [sound.1.normal]
    rfl
  next =>
    obtain rfl := Option.some.inj found
    exact ⟨sound,rfl⟩

theorem stays (kept : Stays g.heap heap') : Placed { g with heap := heap' } where
  declared n := (kept (.declared n) (placed.sound n)).1.1
  ids id s found := by
    obtain ⟨sound,home⟩ := placed.ids id s found
    obtain ⟨sound',same⟩ := kept s sound
    exact ⟨sound',same.trans home⟩
  qualified key s found := by
    obtain ⟨sound,rest,home⟩ := placed.qualified key s found
    obtain ⟨sound',same⟩ := kept s sound
    exact ⟨sound',rest,by rw [same]; exact home⟩
  tables t := (placed.tables t).stays kept
  registered := placed.registered
  listed := placed.listed
  pending name entry waiting := (kept _ (placed.pending name entry waiting)).1

theorem lessen {g' : SymbolGraph} (heap : g'.heap = g.heap) (tables : g'.tables = g.tables)
    (ensured : g'.ensured = g.ensured)
    (ids : ∀ id s, g'.symbolIdIndex.get? id = some s → g.symbolIdIndex.get? id = some s)
    (qualified : ∀ key s, g'.symbolQualifiedIndex.lookup key = some s → g.symbolQualifiedIndex.lookup key = some s)
    (registered : ∀ file t, g'.fileToSymbolTable.lookup file = some t → g.fileToSymbolTable.lookup file = some t)
    (listed : ∀ file ids, g'.fileIndex.lookup file = some ids →
      ∃ known, g.fileIndex.lookup file = some known ∧ ids ⊆ known)
    (pending : ∀ name, g'.deferredUnder name ⊆ g.deferredUnder name) : Placed g' where
  declared n := heap ▸ placed.declared n
  ids id s found := heap ▸ placed.ids id s (ids id s found)
  qualified key s found := heap ▸ placed.qualified key s (qualified key s found)
  tables t := by
    rw [heap,tables]
    exact placed.tables t
  registered file t found := by
    obtain ⟨file',made⟩ := placed.registered file t (registered file t found)
    refine ⟨tables ▸ file',fun n is => ?_⟩
    rw [ensured]
    exact made n is
  listed file ids found id member := by
    obtain ⟨known,found',within⟩ := listed file ids found
    exact placed.listed file known found' id (within member)
  pending name entry waiting := heap ▸ placed.pending name entry (pending name waiting)

theorem same {g' : SymbolGraph} (same : SameSymbols g g') (pending : ∀ name, g'.deferredUnder name ⊆ g.deferredUnder name) :
    Placed g' where
  declared n := same.heap ▸ placed.declared n
  ids id s found := by
    have answered : g'.resolve id = some s := by
      rw [SymbolGraph.resolve,found]
      rfl
    rw [same.resolve] at answered
    exact same.heap ▸ placed.resolve answered
  qualified key s found := by
    rw [same.symbolQualifiedIndex] at found
    exact same.heap ▸ placed.qualified key s found
  tables t := by
    rw [same.heap,same.tables]
    exact placed.tables t
  registered file t found := by
    rw [same.fileToSymbolTable] at found
    obtain ⟨file',made⟩ := placed.registered file t found
    refine ⟨same.tables ▸ file',fun n is => ?_⟩
    rw [same.ensured]
    exact made n is
  listed file ids found := placed.listed file ids (same.fileIndex ▸ found)
  pending name entry waiting := same.heap ▸ placed.pending name entry (pending name waiting)

theorem setTable (t : TableRef) (t' : SymbolTable) (within : Within g.heap t' (toLowerCase t'.fileUri))
    (file : toLowerCase t'.fileUri = toLowerCase (g.tables t).fileUri) : Placed (g.setTable t t') where
  declared := placed.declared
  ids := placed.ids
  qualified := placed.qualified
  tables r := by
    by_cases this : r = t
    · subst this
      simpa [SymbolGraph.setTable] using within
    · simpa [SymbolGraph.setTable,this] using placed.tables r
  registered f r found := by
    obtain ⟨home,made⟩ := placed.registered f r found
    refine ⟨?_,made⟩
    by_cases this : r = t
    · subst this
      simpa [SymbolGraph.setTable] using file.trans home
    · simpa [SymbolGraph.setTable,this] using home
  listed := placed.listed
  pending := placed.pending

theorem register (file : toLowerCase (g.tables t).fileUri = toLowerCase fileUri) (made : g.Made t) :
    Placed { g with fileToSymbolTable := g.fileToSymbolTable.set fileUri t } where
  declared := placed.declared
  ids := placed.ids
  qualified := placed.qualified
  tables := placed.tables
  registered f r found := by
    rw [CaseInsensitiveMap.lookup_set] at found
    split at found
    next here =>
      obtain rfl := Option.some.inj found
      exact ⟨file.trans here.symm,made⟩
    next => exact placed.registered f r found
  listed := placed.listed
  pending := placed.pending

end Placed

/-- What registering a table can do to the graph: nothing, note the file's URI on the table, or
put the table in the place of the stored one with what a merge has kept of that. -/
theorem registerSymbolTable_cases (g : SymbolGraph) (t : TableRef) (fileUri : String) (options : RegistrationOptions) :
    (g.registerSymbolTable t fileUri options).2 = g ∨
    (g.registerSymbolTable t fileUri options).2 =
      g.setTable t ((g.table t).setFileUri (extractFilePathFromUri fileUri)) ∨
    ∃ merged table',
      (merged = (g.heap,(g.table t).setFileUri (extractFilePathFromUri fileUri)) ∨
        ∃ existing, g.fileToSymbolTable.get (extractFilePathFromUri fileUri) = some existing ∧ merged =
          mergeSymbols g.heap ((g.table t).setFileUri (extractFilePathFromUri fileUri)) (g.table existing)) ∧
      (table' = merged.2 ∨ ∃ existing, table' = mergeTypeReferences merged.2 existing) ∧
      (g.registerSymbolTable t fileUri options).2 =
        { { g with heap := merged.1 }.setTable t table' with
          fileToSymbolTable := g.fileToSymbolTable.set (extractFilePathFromUri fileUri) t } := by
  unfold registerSymbolTable
  extract_lets normalizedUri incomingVersion incoming
  split
  next => exact .inr (.inr ⟨_,_,.inl rfl,.inl rfl,rfl⟩)
  next existing registered =>
    extract_lets storedVersion stored isNewerVersion incomplete useReplace
    split
    next => exact .inl rfl
    next =>
      split
      next => exact .inr (.inl rfl)
      next =>
        refine .inr (.inr ⟨if useReplace = true then (g.heap,incoming) else mergeSymbols g.heap incoming stored,_,?_,?_,rfl⟩)
        · rcases ite_eq_or_eq (useReplace = true) (g.heap,incoming) (mergeSymbols g.heap incoming stored) with whole | merge
          · exact .inl whole
          · exact .inr ⟨existing,registered,merge⟩
        · exact (ite_eq_or_eq _ _ _).elim (fun referenced => .inr ⟨stored,referenced⟩) .inl

theorem registerSymbolTable_placed {g : SymbolGraph} (placed : Placed g) {t : TableRef} {fileUri : String}
    (file : toLowerCase (g.tables t).fileUri = toLowerCase (extractFilePathFromUri fileUri)) (made : g.Made t)
    (options : RegistrationOptions) :
    ∃ g', (g.registerSymbolTable t fileUri options).2 = g' ∧ Stays g.heap g'.heap ∧ Placed g' ∧
      toLowerCase (g'.tables t).fileUri = toLowerCase (extractFilePathFromUri fileUri) ∧ g'.Made t ∧
      g'.deferredReferences = g.deferredReferences := by
  have within : Within g.heap ((g.table t).setFileUri (extractFilePathFromUri fileUri))
      (toLowerCase (extractFilePathFromUri fileUri)) := by
    rw [← file]
    exact placed.tables t
  rcases registerSymbolTable_cases g t fileUri options with same | noted | ⟨merged,table',from_,filled,registered⟩
  · exact ⟨g,same,Stays.refl g.heap,placed,file,made,rfl⟩
  · refine ⟨_,noted,Stays.refl g.heap,placed.setTable t _ within file.symm,?_,made,rfl⟩
    simp [setTable,SymbolTable.setFileUri]
  · have merged_ : Stays g.heap merged.1 ∧ Within merged.1 merged.2 (toLowerCase (extractFilePathFromUri fileUri)) ∧
        merged.2.fileUri = extractFilePathFromUri fileUri := by
      rcases from_ with rfl | ⟨existing,stored,rfl⟩
      · exact ⟨Stays.refl g.heap,within,rfl⟩
      · have old := placed.tables existing
        rw [(placed.registered _ existing stored).1] at old
        obtain ⟨stays,within'⟩ := mergeSymbols_within within old
        exact ⟨stays,within',mergeSymbols_fileUri _ _ _⟩
    obtain ⟨stays,within',here⟩ := merged_
    have filled' : Within merged.1 table' (toLowerCase (extractFilePathFromUri fileUri)) ∧
        table'.fileUri = extractFilePathFromUri fileUri := by
      rcases filled with rfl | ⟨existing,rfl⟩
      · exact ⟨within',here⟩
      · obtain ⟨held,kept⟩ := mergeTypeReferences_kept merged.2 existing
        exact ⟨fun s member => within' s (held ▸ member),kept.trans here⟩
    obtain ⟨within'',here'⟩ := filled'
    have set := (placed.stays stays).setTable t table' (by rw [here']; exact within'')
      (by rw [here']; exact file.symm)
    refine ⟨_,registered,stays,set.register ?_ made,?_,made,rfl⟩
    · simp [setTable,here']
    · simp [setTable,here']

theorem ensureSymbolTableForFile_placed {g : SymbolGraph} (placed : Placed g) (fileUri : String) :
    ∃ g', g.ensureSymbolTableForFile fileUri = g' ∧ g'.heap = g.heap ∧ Placed g' ∧
      g'.deferredReferences = g.deferredReferences := by
  simp only [SymbolGraph.ensureSymbolTableForFile]
  split
  next => exact ⟨g,rfl,rfl,placed,rfl⟩
  next =>
    refine ⟨_,rfl,rfl,⟨placed.declared,placed.ids,placed.qualified,fun t => ?_,fun file t found => ?_,placed.listed,
      placed.pending⟩,rfl⟩
    · by_cases new : t = .ensured g.ensured
      · subst new
        intro s held
        simp [heldSymbols,SymbolTable.setFileUri,OrderedMap.empty] at held
      · simpa [new] using placed.tables t
    · rw [CaseInsensitiveMap.lookup_set] at found
      split at found
      next here =>
        obtain rfl := Option.some.inj found
        refine ⟨by simp [SymbolTable.setFileUri,here],fun n same => ?_⟩
        obtain rfl := TableRef.ensured.inj same
        exact Nat.lt_succ_self _
      next =>
        obtain ⟨home,made⟩ := placed.registered file t found
        have old : t ≠ .ensured g.ensured := fun same => absurd (made _ same) (Nat.lt_irrefl _)
        exact ⟨by simpa [old] using home,fun n same => Nat.lt_succ_of_lt (made n same)⟩

theorem withFqn_kept (symbol : ApexSymbol) (fqn : String) (homed : Homed symbol) :
    Homed (withFqn symbol fqn) ∧ homeOf (withFqn symbol fqn) = homeOf symbol := by
  unfold withFqn
  split
  next => exact ⟨homed,rfl⟩
  next => exact homed.congr rfl rfl rfl rfl

theorem markStandardClass_kept (fileUri : String) (symbol : ApexSymbol) (homed : Homed symbol) :
    Homed (markStandardClass fileUri symbol) ∧ homeOf (markStandardClass fileUri symbol) = homeOf symbol := by
  unfold markStandardClass
  split
  next => exact homed.congr rfl rfl rfl rfl
  next => exact ⟨homed,rfl⟩

theorem addToTable_placed {g : SymbolGraph} (placed : Placed g) {t : TableRef} {symbol : Ref}
    (sound : Sound g.heap symbol) (home : homeOf (g.heap symbol) = toLowerCase (g.tables t).fileUri) :
    Stays g.heap (g.addToTable t symbol).heap ∧ Placed (g.addToTable t symbol) := by
  obtain ⟨stays,within⟩ := (placed.tables t).addSymbol sound home
  have added := (placed.stays stays).setTable t ((g.tables t).addSymbol g.heap symbol).2
    (by rw [addSymbol_fileUri]; exact within) (by rw [addSymbol_fileUri])
  have named : ∀ fqn, Stays ((g.tables t).addSymbol g.heap symbol).1 (((g.tables t).addSymbol g.heap symbol).1.put symbol
      (withFqn (((g.tables t).addSymbol g.heap symbol).1 symbol) fqn)) :=
    fun fqn => Stays.put (fun sound' => withFqn_kept _ fqn sound'.1)
  exact ⟨stays.trans (named _),added.stays (named _)⟩

theorem mem_pushId {index : CaseInsensitiveMap (List String)} {k listed : String} :
    (∃ ids, (pushId index key symbolId).lookup k = some ids ∧ listed ∈ ids) ↔
      (∃ ids, index.lookup k = some ids ∧ listed ∈ ids) ∨ (k = toLowerCase key ∧ listed = symbolId) := by
  have known : ∀ {i}, i ∈ (index.get key).getD [] ↔ ∃ ids, index.lookup (toLowerCase key) = some ids ∧ i ∈ ids := by
    intro i
    rw [CaseInsensitiveMap.get]
    cases index.lookup (toLowerCase key) <;> simp
  simp only [pushId]
  by_cases present : symbolId ∈ (index.get key).getD []
  · rw [if_pos present]
    constructor
    · exact .inl
    · rintro (old | ⟨rfl,rfl⟩)
      · exact old
      · exact known.mp present
  · rw [if_neg present]
    by_cases here : k = toLowerCase key
    · subst here
      simp only [CaseInsensitiveMap.lookup_set,if_true,Option.some.injEq,exists_eq_left',List.mem_append,known,
        List.mem_singleton,true_and]
    · simp [CaseInsensitiveMap.lookup_set,here]

theorem indexSymbol_placed {g : SymbolGraph} (placed : Placed g) {symbol : Ref} {symbolId file : String}
    (sound : Sound g.heap symbol) (byId : homeOf (g.heap symbol) = toLowerCase (extractFilePathFromUri symbolId))
    (home : homeOf (g.heap symbol) = toLowerCase file) (normal : extractFilePathFromUri file = file) :
    Placed (g.indexSymbol symbol symbolId file) where
  declared := placed.declared
  ids id s found := by
    simp only [indexSymbol] at found
    split at found
    next =>
      rw [OrderedMap.get?_set] at found
      split at found
      next same =>
        obtain rfl := Option.some.inj found
        exact ⟨sound,same ▸ byId⟩
      next => exact placed.ids id s found
    next => exact placed.ids id s found
  qualified key s found := by
    simp only [indexSymbol,CaseInsensitiveMap.lookup_set] at found
    split at found
    next same =>
      obtain rfl := Option.some.inj found
      refine ⟨sound,toLowerCase symbolId,?_⟩
      change key = homeOf (g.heap symbol) ++ separator ++ _
      rw [same,makeQualifiedSymbolKey,makeInternalKey,Runtime.lower_separator,normal,home]
    next => exact placed.qualified key s found
  tables := placed.tables
  registered := placed.registered
  listed key ids found id member := by
    rcases mem_pushId.mp ⟨ids,found,member⟩ with ⟨before,was,old⟩ | ⟨here,rfl⟩
    · exact placed.listed key before was id old
    · exact (byId.symm.trans home).trans here.symm
  pending := placed.pending

theorem addSymbol_placed {g : SymbolGraph} (placed : Placed g) {symbol : Ref} {fileUri : String} {given : Option TableRef}
    (sound : Sound g.heap symbol) (home : homeOf (g.heap symbol) = toLowerCase (extractFilePathFromUri fileUri))
    (normal : extractFilePathFromUri (extractFilePathFromUri fileUri) = extractFilePathFromUri fileUri)
    (own : ∀ t, given = some t →
      g.Made t ∧ toLowerCase (g.tables t).fileUri = toLowerCase (extractFilePathFromUri fileUri)) :
    Stays g.heap (g.addSymbol symbol fileUri given).heap ∧ Placed (g.addSymbol symbol fileUri given) ∧
      (g.addSymbol symbol fileUri given).deferredReferences = g.deferredReferences := by
  have symbolId : getSymbolId (g.heap symbol) (extractFilePathFromUri fileUri) = (g.heap symbol).id := by
    rw [getSymbolId,if_pos sound.1.hasId]
  -- both ways to settle the table leave one of the file
  have indexed : ∀ g' : SymbolGraph, Stays g.heap g'.heap → Placed g' → g'.deferredReferences = g.deferredReferences →
      ∀ t, toLowerCase (g'.tables t).fileUri = toLowerCase (extractFilePathFromUri fileUri) →
      ∃ h, (g'.addToTable t symbol).indexSymbol symbol (g.heap symbol).id (extractFilePathFromUri fileUri) = h ∧
        Stays g.heap (h.heap.put symbol (markStandardClass fileUri (h.heap symbol))) ∧
        Placed { h with heap := h.heap.put symbol (markStandardClass fileUri (h.heap symbol)) } ∧
        h.deferredReferences = g.deferredReferences := by
    intro g' stays placed' deferred t tableFile
    obtain ⟨sound',home'⟩ := stays symbol sound
    obtain ⟨stays',placed''⟩ := addToTable_placed placed' sound' ((home'.trans home).trans tableFile.symm)
    obtain ⟨sound'',home''⟩ := stays' symbol sound'
    have here := home''.trans home'
    have indexed := indexSymbol_placed placed'' sound'' (here.trans sound.1.ofId.symm) (here.trans home) normal
    have marked : Stays (g'.addToTable t symbol).heap ((g'.addToTable t symbol).heap.put symbol
        (markStandardClass fileUri ((g'.addToTable t symbol).heap symbol))) :=
      Stays.put (fun kept => markStandardClass_kept fileUri _ kept.1)
    exact ⟨_,rfl,(stays.trans stays').trans marked,indexed.stays marked,deferred⟩
  cases given with
  | some t =>
    obtain ⟨made,file⟩ := own t rfl
    obtain ⟨g',registered,stays,placed',file',_,deferred⟩ :=
      registerSymbolTable_placed placed (normal.symm ▸ file) made {}
    rw [normal] at file'
    obtain ⟨h,indexed,stays',placed'',deferred'⟩ := indexed g' stays placed' deferred t file'
    simp only [SymbolGraph.addSymbol,symbolId,registered,Option.some_or,indexed]
    exact ⟨stays',placed'',deferred'⟩
  | none =>
    obtain ⟨g',ensured,heap,placed',deferred⟩ := ensureSymbolTableForFile_placed placed (extractFilePathFromUri fileUri)
    simp only [SymbolGraph.addSymbol,symbolId,ensured,Option.none_or]
    cases found : g'.fileToSymbolTable.get (extractFilePathFromUri fileUri) with
    | none => exact ⟨heap ▸ Stays.refl g.heap,placed',deferred⟩
    | some t =>
      obtain ⟨h,indexed,stays',placed'',deferred'⟩ :=
        indexed g' (heap ▸ Stays.refl g.heap) placed' deferred t (placed'.registered _ t found).1
      simp only [indexed]
      exact ⟨stays',placed'',deferred'⟩

end SymbolGraph
end ApexLs.Symbols
