import ApexLs.Symbols.IndexEntries
import ApexLs.Symbols.SymbolManager
import ApexLs.Utils.AsciiBytes

/-! The eviction of what a file no longer declares. It compares ids exactly, while the file of a symbol and the
artifact-qualified entry are found up to letter case. -/
namespace ApexLs.Symbols

open ApexLs.Utils ApexLs.Types ApexLs.Collections

section

variable [Runtime]

/-- The entry of an index has the id; in an index that tells the files apart, as an id of the file. -/
def IndexEntry.Mentions (fileUri id : String) : IndexEntry → Prop
  | .bound symbolId _ => symbolId = id
  | .qualified key _ => key = makeQualifiedSymbolKey fileUri id
  | .located symbolId _ => symbolId = id
  | .named _ symbolId => symbolId = id
  | .fullyNamed _ symbolId => symbolId = id
  | .filed file symbolId => toLowerCase file = toLowerCase fileUri ∧ symbolId = id
  | .edge _ _ => False

theorem IndexEntry.Mentions.goesBy {entry : IndexEntry} {id : String} (mentions : entry.Mentions fileUri id)
    (listed : id ∈ ids) : entry.GoesBy fileUri ids := by
  cases entry with
  | bound symbolId symbol => exact show symbolId ∈ ids from (show symbolId = id from mentions) ▸ listed
  | qualified key symbol => exact ⟨id,listed,congrArg toLowerCase mentions⟩
  | located symbolId file => exact ⟨id,listed,congrArg toLowerCase mentions⟩
  | named name symbolId => exact show symbolId ∈ ids from (show symbolId = id from mentions) ▸ listed
  | fullyNamed fqn symbolId => exact show symbolId ∈ ids from (show symbolId = id from mentions) ▸ listed
  | filed file symbolId => exact ⟨mentions.1,mentions.2 ▸ listed⟩
  | edge k e => exact mentions.elim

namespace SymbolGraph

/-- Every index answers for a declaration; a block has no name and no fqn entry. -/
structure Resolves (g : SymbolGraph) (fileUri id : String) (s : ApexSymbol) : Prop where
  filed : id ∈ listedIds g.fileIndex fileUri
  named : s.isBlockSymbol = false → id ∈ listedIds g.nameIndex s.name
  fullyNamed : s.isBlockSymbol = false → orElse s.fqn "" ≠ "" → id ∈ listedIds g.fqnIndex (orElse s.fqn "")
  located : g.symbolFileMap.get id = some fileUri
  bound : ∃ r, g.symbolIdIndex.get? id = some r
  qualified : ∃ r, g.symbolQualifiedIndex.get (makeQualifiedSymbolKey fileUri id) = some r

/-- `addSymbol` for every symbol of a table. Beside the graph stand the ids the symbols were filed under and what
the calls made of them. -/
def addSymbols (fileUri : String) (t : TableRef) : SymbolGraph → List Ref → List (String × ApexSymbol) × SymbolGraph
  | g,[] => ([],g)
  | g,symbol :: rest =>
    let symbolId := getSymbolId (g.heap symbol) (extractFilePathFromUri fileUri)
    let g := g.addSymbol symbol fileUri (some t)
    let (declared,after) := addSymbols fileUri t g rest
    ((symbolId,g.heap symbol) :: declared,after)

theorem addSymbols_run (fileUri : String) (t : TableRef) (g : SymbolGraph) (symbols : List Ref) :
    (g.addSymbols fileUri t symbols).2 = run call g (symbols.map (fun s => .addSymbol s fileUri (some t))) := by
  induction symbols generalizing g with
  | nil => rfl
  | cons s rest ih => exact ih (g.addSymbol s fileUri (some t))

structure SameIndexes (g g' : SymbolGraph) : Prop where
  filed : g'.fileIndex = g.fileIndex
  named : g'.nameIndex = g.nameIndex
  fullyNamed : g'.fqnIndex = g.fqnIndex
  located : g'.symbolFileMap = g.symbolFileMap
  bound : g'.symbolIdIndex = g.symbolIdIndex
  qualified : g'.symbolQualifiedIndex = g.symbolQualifiedIndex

namespace Resolves

variable {g g' : SymbolGraph} {fileUri id : String} {s s' : ApexSymbol}

theorem of_sameIndexes (resolves : g.Resolves fileUri id s) (same : SameIndexes g g') : g'.Resolves fileUri id s := by
  refine ⟨?_,?_,?_,?_,?_,?_⟩
  · exact same.filed ▸ resolves.filed
  · exact same.named ▸ resolves.named
  · exact same.fullyNamed ▸ resolves.fullyNamed
  · exact same.located ▸ resolves.located
  · exact same.bound ▸ resolves.bound
  · exact same.qualified ▸ resolves.qualified

theorem indexSymbol (resolves : g.Resolves fileUri id s) (symbol : Ref) (symbolId : String) :
    (g.indexSymbol symbol symbolId fileUri).Resolves fileUri id s := by
  refine ⟨?_,fun semantic => ?_,fun semantic nonempty => ?_,?_,?_,?_⟩
  · exact ( listedIds_prefix _ _ _ _).subset resolves.filed
  · have listed := resolves.named semantic
    simp only [SymbolGraph.indexSymbol]
    split
    next => exact ( listedIds_prefix _ _ _ _).subset listed
    next => exact listed
  · have listed := resolves.fullyNamed semantic nonempty
    simp only [SymbolGraph.indexSymbol]
    split
    next => exact ( listedIds_prefix _ _ _ _).subset listed
    next => exact listed
  · simp only [SymbolGraph.indexSymbol,CaseInsensitiveMap.get_set]
    split
    next => rfl
    next => exact resolves.located
  · obtain ⟨r,bound⟩ := resolves.bound
    simp only [SymbolGraph.indexSymbol]
    split
    next =>
      rw [OrderedMap.get?_set]
      split
      next => exact ⟨symbol,rfl⟩
      next => exact ⟨r,bound⟩
    next => exact ⟨r,bound⟩
  · simp only [SymbolGraph.indexSymbol,CaseInsensitiveMap.get_set]
    split
    next => exact ⟨symbol,rfl⟩
    next => exact resolves.qualified

end Resolves

theorem indexSymbol_resolves (g : SymbolGraph) (symbol : Ref) (symbolId fileUri : String) :
    (g.indexSymbol symbol symbolId fileUri).Resolves fileUri symbolId (g.heap symbol) where
  filed := mem_listedIds_pushId_self _ _ _
  named semantic := by
    simp only [indexSymbol,semantic,Bool.not_false,if_true]
    exact mem_listedIds_pushId_self _ _ _
  fullyNamed semantic nonempty := by
    simp only [indexSymbol,semantic,Bool.not_false,nonempty,ne_eq,not_false_eq_true,and_self,if_true]
    exact mem_listedIds_pushId_self _ _ _
  located := by simp [indexSymbol]
  bound := g.indexSymbol_bound symbol symbolId fileUri
  qualified := ⟨symbol,by simp [indexSymbol]⟩

theorem registerSymbolTable_sameIndexes (g : SymbolGraph) (t : TableRef) (fileUri : String) (options : RegistrationOptions) :
    SameIndexes g (g.registerSymbolTable t fileUri options).2 := by
  rcases registerSymbolTable_cases g t fileUri options with same | noted | ⟨_,_,_,_,registered⟩
  · rw [same]
    exact ⟨rfl,rfl,rfl,rfl,rfl,rfl⟩
  · rw [noted]
    exact ⟨rfl,rfl,rfl,rfl,rfl,rfl⟩
  · rw [registered]
    exact ⟨rfl,rfl,rfl,rfl,rfl,rfl⟩

def readied (g : SymbolGraph) (symbol : Ref) (fileUri : String) (t : TableRef) : SymbolGraph :=
  (g.registerSymbolTable t (extractFilePathFromUri fileUri)).2.addToTable t symbol

theorem readied_sameIndexes (g : SymbolGraph) (symbol : Ref) (fileUri : String) (t : TableRef) :
    SameIndexes g (g.readied symbol fileUri t) := by
  obtain ⟨filed,named,fullyNamed,located,bound,qualified⟩ :=
    registerSymbolTable_sameIndexes g t (extractFilePathFromUri fileUri) {}
  exact ⟨filed,named,fullyNamed,located,bound,qualified⟩

theorem addSymbol_eq (g : SymbolGraph) (symbol : Ref) (fileUri : String) (t : TableRef) :
    g.addSymbol symbol fileUri (some t) =
      { (g.readied symbol fileUri t).indexSymbol symbol (getSymbolId (g.heap symbol) (extractFilePathFromUri fileUri))
          (extractFilePathFromUri fileUri) with
        heap := (g.readied symbol fileUri t).heap.put symbol
          (markStandardClass fileUri ((g.readied symbol fileUri t).heap symbol)) } := by
  simp only [addSymbol,Option.some_or]
  rfl

@[simp] theorem markStandardClass_fqn (fileUri : String) (s : ApexSymbol) :
    (markStandardClass fileUri s).fqn = s.fqn := by
  unfold markStandardClass
  split
  next => rfl
  next => rfl

theorem addSymbol_resolves (g : SymbolGraph) (symbol : Ref) (fileUri : String) (t : TableRef) :
    (g.addSymbol symbol fileUri (some t)).Resolves (extractFilePathFromUri fileUri)
      (getSymbolId (g.heap symbol) (extractFilePathFromUri fileUri)) ((g.addSymbol symbol fileUri (some t)).heap symbol) := by
  have indexed := indexSymbol_resolves (g.readied symbol fileUri t) symbol
    (getSymbolId (g.heap symbol) (extractFilePathFromUri fileUri)) (extractFilePathFromUri fileUri)
  have marked := markStandardClass_sameIdentity fileUri ((g.readied symbol fileUri t).heap symbol)
  rw [addSymbol_eq]
  refine ⟨indexed.filed,?_,?_,indexed.located,indexed.bound,indexed.qualified⟩
  · simp only [Heap.put_self,marked.block,marked.name]
    exact indexed.named
  · simp only [Heap.put_self,marked.block,markStandardClass_fqn]
    exact indexed.fullyNamed

theorem Resolves.addSymbol {g : SymbolGraph} {id : String} (resolves : g.Resolves (extractFilePathFromUri fileUri) id s)
    (symbol : Ref) (t : TableRef) : (g.addSymbol symbol fileUri (some t)).Resolves (extractFilePathFromUri fileUri) id s := by
  have indexed := (resolves.of_sameIndexes (readied_sameIndexes g symbol fileUri t)).indexSymbol symbol
    (getSymbolId (g.heap symbol) (extractFilePathFromUri fileUri))
  rw [addSymbol_eq]
  exact ⟨indexed.filed,indexed.named,indexed.fullyNamed,indexed.located,indexed.bound,indexed.qualified⟩

theorem Resolves.addSymbols {g : SymbolGraph} {id : String} (resolves : g.Resolves (extractFilePathFromUri fileUri) id s)
    (t : TableRef) (symbols : List Ref) : (g.addSymbols fileUri t symbols).2.Resolves (extractFilePathFromUri fileUri) id s := by
  induction symbols generalizing g with
  | nil => exact resolves
  | cons symbol rest ih => exact ih (resolves.addSymbol symbol t)

theorem addSymbols_resolves (fileUri : String) (t : TableRef) (g : SymbolGraph) (symbols : List Ref) :
    ∀ d ∈ (g.addSymbols fileUri t symbols).1,
      (g.addSymbols fileUri t symbols).2.Resolves (extractFilePathFromUri fileUri) d.1 d.2 := by
  induction symbols generalizing g with
  | nil => simp [addSymbols]
  | cons symbol rest ih =>
    intro d member
    simp only [addSymbols,List.mem_cons] at member
    rcases member with rfl | later
    · exact (addSymbol_resolves g symbol fileUri t).addSymbols t rest
    · exact ih (g.addSymbol symbol fileUri (some t)) d later

theorem mem_filed_addSymbol {g : SymbolGraph} {symbol : Ref} {fileUri : String} {t : TableRef} {id : String} :
    id ∈ listedIds (g.addSymbol symbol fileUri (some t)).fileIndex (extractFilePathFromUri fileUri) ↔
      id ∈ listedIds g.fileIndex (extractFilePathFromUri fileUri) ∨
        id = getSymbolId (g.heap symbol) (extractFilePathFromUri fileUri) := by
  rw [addSymbol_eq]
  simp only [indexSymbol,(readied_sameIndexes g symbol fileUri t).filed]
  constructor
  · exact mem_listedIds_pushId
  · rintro (old | rfl)
    · exact ( listedIds_prefix _ _ _ _).subset old
    · exact mem_listedIds_pushId_self _ _ _

theorem mem_filed_addSymbols {g : SymbolGraph} {fileUri : String} {t : TableRef} {symbols : List Ref} {id : String} :
    id ∈ listedIds (g.addSymbols fileUri t symbols).2.fileIndex (extractFilePathFromUri fileUri) ↔
      id ∈ listedIds g.fileIndex (extractFilePathFromUri fileUri) ∨
        id ∈ (g.addSymbols fileUri t symbols).1.map Prod.fst := by
  induction symbols generalizing g with
  | nil => simp [addSymbols]
  | cons symbol rest ih => simp only [addSymbols,ih,mem_filed_addSymbol,List.map_cons,List.mem_cons,or_assoc]

theorem evictStaleFileDeclarations_refs (g : SymbolGraph) (fileUri : String) (liveSymbolIds : List String) :
    (g.evictStaleFileDeclarations fileUri liveSymbolIds).refs =
      g.refs.removeIncomingReferencesToSymbols (g.staleIds fileUri liveSymbolIds) (extractFilePathFromUri fileUri) := by
  unfold evictStaleFileDeclarations
  extract_lets normalizedUri previousIds stale refs forgotten remaining
  have here : g.staleIds fileUri liveSymbolIds = stale := rfl
  rw [here]
  split
  next nothing =>
    rw [nothing]
    rfl
  next => exact foldl_forgetSymbol_refs normalizedUri _ stale

theorem contains_evictStaleFileDeclarations {g : SymbolGraph} (coherent : g.refs.Coherent) (fileUri : String)
    (liveSymbolIds : List String) (entry : IndexEntry) :
    (g.evictStaleFileDeclarations fileUri liveSymbolIds).Contains entry ↔
      g.Contains entry ∧ ¬ entry.GoesBy (extractFilePathFromUri fileUri) (g.staleIds fileUri liveSymbolIds) := by
  have others : (∀ file id, entry ≠ .filed file id) → (∀ k e, entry ≠ .edge k e) →
      ((g.evictStaleFileDeclarations fileUri liveSymbolIds).Contains entry ↔
        g.Contains entry ∧ ¬ entry.GoesBy (extractFilePathFromUri fileUri) (g.staleIds fileUri liveSymbolIds)) := by
    intro kind kind'
    rw [← contains_forgetSymbols g _ _ kind kind']
    unfold evictStaleFileDeclarations
    extract_lets normalizedUri previousIds stale refs forgotten remaining
    have here : g.staleIds fileUri liveSymbolIds = stale := rfl
    rw [here]
    split
    next nothing =>
      rw [nothing]
      rfl
    next =>
      rw [contains_forgetSymbols g _ _ kind kind']
      have forgets := contains_forgetSymbols { g with refs := refs } normalizedUri stale kind kind'
      cases entry <;> first | exact forgets | exact absurd rfl (kind _ _) | exact absurd rfl (kind' _ _)
  cases entry with
  | filed file id =>
    simp only [Contains,IndexEntry.GoesBy,evictStaleFileDeclarations_files]
    split
    next same =>
      have bucket : listedIds g.fileIndex file = listedIds g.fileIndex (extractFilePathFromUri fileUri) := by
        simp only [listedIds,CaseInsensitiveMap.get,same]
      simp only [bucket,staleIds,List.mem_filter,same,true_and]
      grind
    next other => simp [other]
  | edge k e =>
    simp only [Contains,IndexEntry.GoesBy,evictStaleFileDeclarations_refs]
    rw [(ReferenceIndexes.removeIncomingReferencesToSymbols_spec coherent _ _).2]
    simp [ReferenceIndexes.reverseKey]
  | _ => exact others (by simp) (by simp)

/-- The eviction takes out all that the file no longer declares and nothing else: every index answers for what the
file declares, and edges into such a declaration stay. -/
structure EvictsExactly (before after : SymbolGraph) (fileUri : String) (declared : List (String × ApexSymbol)) : Prop where
  gone : ∀ id ∈ listedIds before.fileIndex fileUri, id ∉ declared.map Prod.fst →
    ∀ entry, after.Contains entry → ¬ entry.Mentions fileUri id
  resolves : ∀ d ∈ declared, after.Resolves fileUri d.1 d.2
  incoming : ∀ k e, before.refs.refStore.Holds k e → e.Enters (extractFilePathFromUri fileUri) →
    e.targetSymbolId ∈ declared.map Prod.fst → after.refs.refStore.Holds k e

/-- No id that is gone is one of the new ids in other letter case. -/
def KeptApart (gone live : List String) : Prop :=
  ∀ id ∈ gone, id ∉ live → ∀ id' ∈ live, toLowerCase id ≠ toLowerCase id'

instance (gone live : List String) : Decidable (KeptApart gone live) := List.decidableBAll _ _

theorem Resolves.evict {g : SymbolGraph} (coherent : g.refs.Coherent) {fileUri id : String} {s : ApexSymbol}
    (resolves : g.Resolves (extractFilePathFromUri fileUri) id s) {liveSymbolIds : List String} (live : id ∈ liveSymbolIds)
    (apart : KeptApart (listedIds g.fileIndex (extractFilePathFromUri fileUri)) liveSymbolIds) :
    (g.evictStaleFileDeclarations fileUri liveSymbolIds).Resolves (extractFilePathFromUri fileUri) id s := by
  have stays (entry : IndexEntry) (present : g.Contains entry)
      (other : ¬ entry.GoesBy (extractFilePathFromUri fileUri) (g.staleIds fileUri liveSymbolIds)) :=
    (contains_evictStaleFileDeclarations coherent fileUri liveSymbolIds entry).mpr ⟨present,other⟩
  have fresh : id ∉ g.staleIds fileUri liveSymbolIds := by
    simp [staleIds,live]
  have differs : ∀ stale ∈ g.staleIds fileUri liveSymbolIds, toLowerCase id ≠ toLowerCase stale := by
    intro stale member same
    obtain ⟨listed,dead⟩ := List.mem_filter.mp member
    exact apart stale listed (by simpa using dead) id live same.symm
  refine ⟨?_,fun semantic => ?_,fun semantic nonempty => ?_,?_,?_,?_⟩
  · exact stays (.filed _ id) resolves.filed fun goes => fresh goes.2
  · exact stays (.named _ id) (resolves.named semantic) fresh
  · exact stays (.fullyNamed _ id) (resolves.fullyNamed semantic nonempty) fresh
  · obtain ⟨spelled,holds,same⟩ := CaseInsensitiveMap.get_eq_some_iff.mp resolves.located
    refine CaseInsensitiveMap.get_eq_some_iff.mpr ⟨spelled,?_,same⟩
    refine stays (.located spelled _) holds ?_
    rintro ⟨stale,member,equal⟩
    exact differs stale member (same.symm.trans equal)
  · obtain ⟨r,bound⟩ := resolves.bound
    exact ⟨r,stays (.bound id r) bound fresh⟩
  · obtain ⟨r,qualified⟩ := resolves.qualified
    obtain ⟨spelled,holds,same⟩ := CaseInsensitiveMap.get_eq_some_iff.mp qualified
    refine ⟨r,CaseInsensitiveMap.get_eq_some_iff.mpr ⟨spelled,?_,same⟩⟩
    refine stays (.qualified spelled r) holds ?_
    rintro ⟨stale,member,equal⟩
    exact differs stale member ((makeInternalKey_same_iff rfl).mp (same.symm.trans equal))

theorem evictsExactly_iff {g : SymbolGraph} (coherent : g.refs.Coherent) {fileUri : String}
    {declared : List (String × ApexSymbol)}
    (resolves : ∀ d ∈ declared, g.Resolves (extractFilePathFromUri fileUri) d.1 d.2) :
    EvictsExactly g (g.evictStaleFileDeclarations fileUri (declared.map Prod.fst)) (extractFilePathFromUri fileUri) declared ↔
      KeptApart (listedIds g.fileIndex (extractFilePathFromUri fileUri)) (declared.map Prod.fst) := by
  constructor
  · intro exact_ id listed dead id' live same
    obtain ⟨d,member,rfl⟩ := List.mem_map.mp live
    obtain ⟨spelled,holds,here⟩ := CaseInsensitiveMap.get_eq_some_iff.mp (exact_.resolves d member).located
    have gone : ¬ (IndexEntry.located spelled (extractFilePathFromUri fileUri)).GoesBy (extractFilePathFromUri fileUri)
        (g.staleIds fileUri (declared.map Prod.fst)) :=
      ((contains_evictStaleFileDeclarations coherent fileUri _ (.located _ _)).mp holds).2
    exact gone ⟨id,List.mem_filter.mpr ⟨listed,by simpa using dead⟩,here.trans same.symm⟩
  · intro apart
    refine ⟨fun id listed dead entry present mentions => ?_,fun d member => ?_,fun k e holds enters live => ?_⟩
    · have stale : id ∈ g.staleIds fileUri (declared.map Prod.fst) := List.mem_filter.mpr ⟨listed,by simpa using dead⟩
      exact ((contains_evictStaleFileDeclarations coherent fileUri _ entry).mp present).2 (mentions.goesBy stale)
    · exact (resolves d member).evict coherent (List.mem_map_of_mem member) apart
    · refine (contains_evictStaleFileDeclarations coherent fileUri _ (.edge k e)).mpr ⟨holds,?_⟩
      rintro ⟨stale,member,equal⟩
      obtain ⟨listed,dead⟩ := List.mem_filter.mp member
      have same := (makeInternalKey_same_iff enters).mp equal
      exact apart stale listed (by simpa using dead) _ live same.symm

theorem keptApart_addSymbols {g : SymbolGraph} {fileUri : String} {t : TableRef} {symbols : List Ref} :
    KeptApart (listedIds (g.addSymbols fileUri t symbols).2.fileIndex (extractFilePathFromUri fileUri))
        ((g.addSymbols fileUri t symbols).1.map Prod.fst) ↔
      KeptApart (listedIds g.fileIndex (extractFilePathFromUri fileUri)) ((g.addSymbols fileUri t symbols).1.map Prod.fst) := by
  constructor
  · intro apart id listed
    exact apart id (mem_filed_addSymbols.mpr (.inl listed))
  · intro apart id listed dead
    exact apart id ((mem_filed_addSymbols.mp listed).resolve_right dead) dead

theorem evictsExactly_added (heap : Heap) (tables : TableRef → SymbolTable) (calls : List GraphCall) (fileUri : String)
    (t : TableRef) (symbols : List Ref) :
    let added := (reached heap tables calls).addSymbols fileUri t symbols
    EvictsExactly added.2 (added.2.evictStaleFileDeclarations fileUri (added.1.map Prod.fst)) (extractFilePathFromUri fileUri)
        added.1 ↔
      KeptApart (listedIds (reached heap tables calls).fileIndex (extractFilePathFromUri fileUri)) (added.1.map Prod.fst) := by
  have run : ((reached heap tables calls).addSymbols fileUri t symbols).2 =
      reached heap tables (calls ++ symbols.map (fun s => .addSymbol s fileUri (some t))) := by
    rw [addSymbols_run,reached,reached,run_append]
  have coherent : ((reached heap tables calls).addSymbols fileUri t symbols).2.refs.Coherent :=
    run ▸ reached_coherent heap tables _
  exact (evictsExactly_iff coherent (addSymbols_resolves fileUri t _ symbols)).trans keptApart_addSymbols

def KeepsIds (heap heap' : Heap) : Prop := ∀ r, Synchronized (heap r) → Synchronized (heap' r) ∧ (heap' r).id = (heap r).id

namespace KeepsIds

omit [Runtime]

theorem refl (heap : Heap) : KeepsIds heap heap := fun _ sync => ⟨sync,rfl⟩

theorem trans {heap heap' heap'' : Heap} (first : KeepsIds heap heap') (second : KeepsIds heap' heap'') :
    KeepsIds heap heap'' := by
  intro r sync
  obtain ⟨sync',same⟩ := first r sync
  obtain ⟨sync'',same'⟩ := second r sync'
  exact ⟨sync'',same'.trans same⟩

theorem put {heap : Heap} {r : Ref} {s : ApexSymbol} (same : SameIdentity (heap r) s) : KeepsIds heap (heap.put r s) := by
  intro r' sync
  rw [Heap.put_apply]
  split
  next here =>
    subst here
    exact ⟨⟨by rw [same.unifiedId,same.id,sync.keyed],same.id ▸ sync.nonempty⟩,same.id⟩
  next => exact ⟨sync,rfl⟩

end KeepsIds

theorem addSymbol_keepsIds (heap : Heap) (t : SymbolTable) (symbol : Ref) : KeepsIds heap (t.addSymbol heap symbol).1 := by
  intro r sync
  have prepared := prepare_keeps_synchronized symbol none sync
  have same := prepare_keeps_id symbol none sync
  unfold SymbolTable.addSymbol SymbolTable.insertPrepared
  simp only
  cases SymbolTable.exitOf (prepare heap symbol none) symbol (t.lookupExisting (prepare heap symbol none) symbol).2 with
  | enrich e =>
    simp only [SymbolTable.perform]
    exact ⟨put_assign_synchronized e symbol prepared,(put_assign_id _ e symbol r).trans same⟩
  | _ => exact ⟨prepared,same⟩

theorem mergeSymbols_keepsIds (heap : Heap) (t existing : SymbolTable) : KeepsIds heap (mergeSymbols heap t existing).1 :=
  mergeSymbols_keeps (I := fun state => KeepsIds heap state.1)
    (fun heap' t' s _ kept => kept.trans (addSymbol_keepsIds heap' t' s)) (KeepsIds.refl heap)

theorem addSymbol_graph_keepsIds (g : SymbolGraph) (symbol : Ref) (fileUri : String) (t : TableRef) :
    KeepsIds g.heap (g.addSymbol symbol fileUri (some t)).heap := by
  have registered : KeepsIds g.heap (g.registerSymbolTable t (extractFilePathFromUri fileUri)).2.heap := by
    rcases registerSymbolTable_cases g t (extractFilePathFromUri fileUri) {} with same | noted | ⟨merged,_,from_,_,new⟩
    · rw [same]
      exact .refl _
    · rw [noted]
      exact .refl _
    · rw [new]
      rcases from_ with rfl | ⟨_,_,rfl⟩
      · exact .refl _
      · exact mergeSymbols_keepsIds _ _ _
  have filed := registered.trans (addSymbol_keepsIds _ ((g.registerSymbolTable t (extractFilePathFromUri fileUri)).2.table t)
    symbol)
  have readied : KeepsIds g.heap (g.readied symbol fileUri t).heap := filed.trans (.put (withFqn_sameIdentity _ _))
  rw [addSymbol_eq]
  exact readied.trans (.put (markStandardClass_sameIdentity _ _))

theorem addSymbols_ids (fileUri : String) (t : TableRef) {g : SymbolGraph} {symbols : List Ref}
    (synchronized : ∀ s ∈ symbols, Synchronized (g.heap s)) :
    KeepsIds g.heap (g.addSymbols fileUri t symbols).2.heap ∧
      (g.addSymbols fileUri t symbols).1.map Prod.fst = symbols.map (fun s => (g.heap s).id) := by
  induction symbols generalizing g with
  | nil => exact ⟨.refl _,rfl⟩
  | cons symbol rest ih =>
    have kept := addSymbol_graph_keepsIds g symbol fileUri t
    obtain ⟨keptRest,ids⟩ := ih fun s member => (kept s (synchronized s (List.mem_cons_of_mem _ member))).1
    refine ⟨kept.trans keptRest,?_⟩
    simp only [addSymbols,List.map_cons,ids,getSymbolId,(synchronized symbol List.mem_cons_self).nonempty,ne_eq,
      not_false_eq_true,if_true]
    congr 1
    apply List.map_congr_left
    intro s member
    exact (kept s (synchronized s (List.mem_cons_of_mem _ member))).2

theorem liveSymbolIds_addSymbols (fileUri : String) (t : TableRef) {g : SymbolGraph} {symbols : List Ref}
    (synchronized : ∀ s ∈ symbols, Synchronized (g.heap s)) :
    liveSymbolIds (g.addSymbols fileUri t symbols).2.heap symbols = (g.addSymbols fileUri t symbols).1.map Prod.fst := by
  obtain ⟨kept,ids⟩ := addSymbols_ids fileUri t synchronized
  have unified : ∀ s ∈ symbols, unifiedIdOf ((g.addSymbols fileUri t symbols).2.heap s) = (g.heap s).id := by
    intro s member
    obtain ⟨sync,same⟩ := kept s (synchronized s member)
    rw [← same,unifiedIdOf,sync.keyed]
    simp [orElse,sync.nonempty]
  rw [ids,liveSymbolIds,List.map_congr_left unified,List.filter_eq_self]
  intro id listed
  obtain ⟨s,member,rfl⟩ := List.mem_map.mp listed
  simpa using (synchronized s member).nonempty

def classFiled : List (String × ApexSymbol) × SymbolGraph :=
  (reached (fun _ => fileClass "Foo" "file:///Foo.cls") (fun _ => {}) []).addSymbols "file:///Foo.cls" (.parsed 0) [.declared 0]

omit [Runtime] in
theorem liveSymbolIds_class : liveSymbolIds (@heap asciiRuntime (@classFiled asciiRuntime).2) [.declared 0] =
    (@classFiled asciiRuntime).1.map Prod.fst := by
  let _ := asciiRuntime
  apply liveSymbolIds_addSymbols
  intro s member
  obtain rfl := List.mem_singleton.mp member
  exact ⟨rfl,generateSymbolId_ne_empty _ _ _ _ _ _⟩

/-- In every reachable graph, a file read again evicts exactly what it no longer declares just where no id it had and lost is
one of its new ids in other letter case. -/
theorem eviction_exact_iff (heap : Heap) (tables : TableRef → SymbolTable) (calls : List GraphCall) (fileUri : String)
    (t : TableRef) :
    let g := reached heap tables calls
    let added := g.addSymbols fileUri t (g.table t).getAllSymbols
    let live := added.1.map Prod.fst
    EvictsExactly added.2 (added.2.evictStaleFileDeclarations fileUri live) (extractFilePathFromUri fileUri) added.1 ↔
      KeptApart (listedIds g.fileIndex (extractFilePathFromUri fileUri)) live :=
  evictsExactly_added heap tables calls fileUri t _

end SymbolGraph
end

/-- A class, and the class after its name was spelled in lower case. -/
def recased : Heap
  | .declared 0 => @SymbolGraph.fileClass asciiRuntime "Foo" "file:///Foo.cls"
  | _ => @SymbolGraph.fileClass asciiRuntime "foo" "file:///Foo.cls"

def recasedTables : TableRef → SymbolTable
  | .parsed 0 => (@SymbolTable.addSymbol asciiRuntime recased {} (.declared 0) none).2
  | .parsed 1 =>
    { (@SymbolTable.addSymbol asciiRuntime recased {} (.declared 1) none).2 with metadata := { documentVersion := 2 } }
  | _ => {}

/-- The first reading is registered and filed, then the second replaces it. -/
def rereadCalls : List GraphCall :=
  [.registerSymbolTable (.parsed 0) "file:///Foo.cls" {},.addSymbol (.declared 0) "file:///Foo.cls" (some (.parsed 0)),
    .registerSymbolTable (.parsed 1) "file:///Foo.cls" {}]

namespace SymbolGraph

variable [Runtime]

/-- The state after the second reading was filed, before the eviction. -/
def refiled : List (String × ApexSymbol) × SymbolGraph :=
  let g := reached recased recasedTables rereadCalls
  g.addSymbols "file:///Foo.cls" (.parsed 1) (g.table (.parsed 1)).getAllSymbols

/-- The second reading replaces the first, and the class changed its letter case only. -/
def Recased : Prop :=
  (registerSymbolTable (reached recased recasedTables (rereadCalls.take 2)) (.parsed 1) "file:///Foo.cls").1.decision =
      .acceptedReplace ∧
    refiled.1.map Prod.fst = ["file:///Foo.cls#foo$class"] ∧
    ¬ KeptApart (listedIds (reached recased recasedTables rereadCalls).fileIndex (extractFilePathFromUri "file:///Foo.cls"))
      (refiled.1.map Prod.fst)

instance : Decidable Recased := instDecidableAnd

omit [Runtime] in
theorem recased_apart : @Recased asciiRuntime := by
  have onBytes : @Recased byteRuntime := by decide +kernel
  exact of_byteRuntime (fun r => @Recased r) onBytes

omit [Runtime] in
/-- After a reading that only changed the letter case of a class the indexes have lost the class. -/
theorem recased_class_lost :
    (@registerSymbolTable asciiRuntime (@reached asciiRuntime recased recasedTables (rereadCalls.take 2)) (.parsed 1)
      "file:///Foo.cls" {}).1.decision = .acceptedReplace ∧
    ¬ @EvictsExactly asciiRuntime (@refiled asciiRuntime).2
      (@evictStaleFileDeclarations asciiRuntime (@refiled asciiRuntime).2 "file:///Foo.cls"
        ((@refiled asciiRuntime).1.map Prod.fst))
      (extractFilePathFromUri "file:///Foo.cls") (@refiled asciiRuntime).1 := by
  refine ⟨recased_apart.1,fun exact_ => recased_apart.2.2 ?_⟩
  exact (@evictsExactly_added asciiRuntime recased recasedTables rereadCalls "file:///Foo.cls" (.parsed 1) _).mp exact_

end SymbolGraph
end ApexLs.Symbols
