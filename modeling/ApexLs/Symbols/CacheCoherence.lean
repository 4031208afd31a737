import ApexLs.Symbols.PublishedTables

/-! Whether the manager's cached answers are still the graph's. An entry goes stale when its name
gains a symbol, or when a symbol it holds is taken out of the graph; each operation clears the
entries its own patterns are found in and no others. -/
namespace ApexLs.Symbols

open ApexLs.Utils ApexLs.Types ApexLs.Collections

def isLookupKey (key : String) : Bool :=
  "symbol_name_".toList.isPrefixOf key.toList || "symbol_fqn_".toList.isPrefixOf key.toList

theorem fqnKey_lookup (fqn : String) : isLookupKey (fqnKey fqn) = true := by
  simp [isLookupKey,fqnKey]

section

variable [Runtime]

theorem nameKey_lookup (name : String) : isLookupKey (nameKey name) = true := by
  simp [isLookupKey,nameKey]

theorem nameKey_eq {name name' : String} : nameKey name = nameKey name' ↔ toLowerCase name = toLowerCase name' := by
  constructor
  · intro same
    apply String.toList_injective
    simpa [nameKey] using congrArg String.toList same
  · intro same
    rw [nameKey,nameKey,same]

theorem nameKey_ne_fqnKey (name fqn : String) : nameKey name ≠ fqnKey fqn := by
  intro same
  have chars := congrArg (fun s => s.toList[7]?) same
  simp [nameKey,fqnKey] at chars

end

theorem fqnKey_eq {fqn fqn' : String} (same : fqnKey fqn = fqnKey fqn') : fqn = fqn' := by
  apply String.toList_injective
  simpa [fqnKey] using congrArg String.toList same

/-- What the patterns made of a name are found in: `new RegExp(pattern, 'i')` finds a name in its
own key and in a text that begins with it. -/
structure FindsNames [Runtime] (test : String → String → Bool) (heap : Heap) : Prop where
  own : ∀ n, test (nameKey (heap (.declared n)).name) (nameKey (heap (.declared n)).name) = true
  begins : ∀ n rest, test (toLowerCase (heap (.declared n)).name) ((heap (.declared n)).name ++ rest) = true

namespace SymbolGraph

variable [Runtime]

def firstQualified (g : SymbolGraph) (fqn : String) : Option Ref := (listedIds g.fqnIndex fqn).head?.bind g.resolve

theorem findSymbolByFQN_spec (g : SymbolGraph) (fqn : String) :
    ∃ g', g.findSymbolByFQN fqn = (g.firstQualified fqn,g') ∧ Memoised g g' := by
  simp only [findSymbolByFQN,firstQualified,listedIds]
  cases (g.fqnIndex.get fqn).getD [] with
  | nil => exact ⟨g,rfl,Memoised.refl g⟩
  | cons symbolId rest => exact getSymbol_spec g symbolId

theorem getSymbol_known {g : SymbolGraph} {symbolId : String} (found : g.resolve symbolId = some s) :
    (g.getSymbol symbolId).2.symbolIdIndex.get? symbolId = some s := by
  unfold getSymbol
  rw [found]
  exact OrderedMap.get?_set_self _ _ _

theorem symbolsNamed_lower (tables : NameTables) (g : SymbolGraph) {name name' : String}
    (same : toLowerCase name = toLowerCase name') : g.symbolsNamed name = g.symbolsNamed name' := by
  simp only [symbolsNamed,tables.isApexKeyword_lower same,CaseInsensitiveMap.get,same]

inductive ValidEntry (g : SymbolGraph) (key : String) (value : CachedValue) : Prop
  | named (name : String) (here : key = nameKey name) (answer : value = .symbols (g.symbolsNamed name))
  | qualified (fqn : String) (here : key = fqnKey fqn) (s : Ref) (answer : value = .symbol s)
      (found : g.firstQualified fqn = some s)
  | unqualified (fqn : String) (here : key = fqnKey fqn) (answer : value = .null)
  | identified (own : isLookupKey key = false) (s : Ref) (answer : value = .symbol s)
      (known : g.symbolIdIndex.get? key = some s)

omit [Runtime] in
theorem filterMap_filter_of {ids : List String} {find find' : String → Option Ref} {counts : Ref → Bool}
    {stays : String → Bool} (kept : ∀ id ∈ ids, stays id = true → find' id = find id)
    (gone : ∀ id ∈ ids, stays id = false → ∀ s, find id = some s → counts s = false) :
    ((ids.filter stays).filterMap find').filter counts = (ids.filterMap find).filter counts := by
  induction ids with
  | nil => rfl
  | cons id rest ih =>
    have later := ih (fun i member => kept i (List.mem_cons_of_mem _ member))
      (fun i member => gone i (List.mem_cons_of_mem _ member))
    by_cases stay : stays id = true
    · rw [List.filter_cons_of_pos stay,List.filterMap_cons,List.filterMap_cons,kept id List.mem_cons_self stay]
      cases find id with
      | none => exact later
      | some s => simp only [List.filter_cons,later]
    · have leave : stays id = false := by simpa using stay
      rw [List.filter_cons_of_neg stay,List.filterMap_cons,later]
      cases found : find id with
      | none => rfl
      | some s =>
        have uncounted := gone id List.mem_cons_self leave s found
        simp [uncounted]

theorem ValidEntry.evolve {heap : Heap} {new : List Ref} {ids : List String} {g g' g'' : SymbolGraph} (tidy : Tidy heap g)
    (grows : Grows heap new g g') (drops : Drops ids g' g'') {key : String} {value : CachedValue}
    (valid : ValidEntry g key value)
    (listed : ∀ name, key = nameKey name → ∀ s ∈ new, (heap s).isBlockSymbol = false →
      toLowerCase (heap s).name = toLowerCase name → (heap s).id ∈ listedIds g.nameIndex name)
    (spared : ∀ s ∈ value.held, ∀ id ∈ ids, g.symbolIdIndex.get? id ≠ some s) : ValidEntry g'' key value := by
  have kept : ∀ id s, g.symbolIdIndex.get? id = some s → id ∉ ids → g''.symbolIdIndex.get? id = some s := by
    intro id s known stays
    rw [drops.known,if_neg stays]
    exact grows.known id s known
  have block : ∀ s, (g''.heap s).isBlockSymbol = (g.heap s).isBlockSymbol := by
    intro s
    rw [drops.heap,grows.tidy.rigid.block,tidy.rigid.block]
  cases valid with
  | named name here answer =>
    refine .named name here ?_
    rw [answer]
    congr 1
    unfold symbolsNamed
    split
    next => rfl
    next identifier =>
      have same : listedIds g'.nameIndex name = listedIds g.nameIndex name :=
        grows.names name (by simpa using identifier) (listed name here)
      change _ = List.filter _ (List.filterMap _ (listedIds g''.nameIndex name))
      rw [drops.names,same]
      simp only [block]
      symm
      apply filterMap_filter_of
      · intro id member stays
        obtain ⟨s,known⟩ := tidy.named name id member
        rw [resolve_known known,resolve_known (kept id s known (by simpa using stays))]
      · intro id member gone s found
        obtain ⟨s',known⟩ := tidy.named name id member
        obtain rfl : s' = s := Option.some.inj ((resolve_known known).symm.trans found)
        by_contra counts
        refine spared s' ?_ id (by simpa using gone) known
        rw [answer,CachedValue.held,symbolsNamed,if_neg identifier]
        exact List.mem_filter.mpr ⟨List.mem_filterMap.mpr ⟨id,member,found⟩,by simpa using counts⟩
  | qualified fqn here s answer found =>
    refine .qualified fqn here s answer ?_
    obtain ⟨id,head,resolved⟩ := Option.bind_eq_some_iff.mp found
    obtain ⟨s',known⟩ := tidy.qualified fqn id (List.mem_of_mem_head? head)
    obtain rfl : s' = s := Option.some.inj ((resolve_known known).symm.trans resolved)
    have stays : id ∉ ids := fun gone => spared s' (by simp [answer,CachedValue.held]) id gone known
    obtain ⟨rest,first⟩ : ∃ rest, listedIds g.fqnIndex fqn = id :: rest := List.head?_eq_some_iff.mp head
    obtain ⟨added,grown⟩ := grows.fqns fqn
    have later : (listedIds g''.fqnIndex fqn).head? = some id := by
      rw [drops.fqns,← grown,first,List.cons_append,List.filter_cons_of_pos (by simpa using stays)]
      rfl
    rw [firstQualified,later]
    exact resolve_known (kept id s' known stays)
  | unqualified fqn here answer => exact .unqualified fqn here answer
  | identified own s answer known =>
    refine .identified own s answer (kept key s known ?_)
    exact fun gone => spared s (by simp [answer,CachedValue.held]) key gone known

theorem ValidEntry.undisturbed {heap : Heap} {g g' : SymbolGraph} (tidy : Tidy heap g) (grows : Grows heap [] g g')
    {key : String} {value : CachedValue} (valid : ValidEntry g key value) : ValidEntry g' key value :=
  valid.evolve tidy grows (.refl g') (fun _ _ s member => by simp at member) (fun _ _ id member => by simp at member)

theorem resolve_put {g : SymbolGraph} {r : Ref} {s : ApexSymbol} (same : SameIdentity (g.heap r) s) (symbolId : String) :
    SymbolGraph.resolve { g with heap := g.heap.put r s } symbolId = g.resolve symbolId := by
  have identity : ∀ r', SameIdentity (g.heap r') (g.heap.put r s r') := by
    intro r'
    rw [Heap.put_apply]
    split
    next here => exact here ▸ same
    next => exact .refl _
  simp only [resolve,findInTable,table,(identity _).id,(identity _).unifiedId,(identity _).name,(identity _).block]

theorem qualify_resolve (g : SymbolGraph) (symbol : Ref) (symbolId : String) :
    (g.qualify symbol).resolve symbolId = g.resolve symbolId := by
  unfold qualify
  split
  next => rfl
  next =>
    have looked := namesAbove_memoised (g.heap symbol).id 20 [(g.heap symbol).id] (g.heap symbol).parentId
      [(g.heap symbol).name] g
    revert looked
    generalize namesAbove (g.heap symbol).id 20 [(g.heap symbol).id] (g.heap symbol).parentId [(g.heap symbol).name] g =
      outcome
    intro looked
    obtain ⟨parts,g'⟩ := outcome
    refine (resolve_put ?_ symbolId).trans (looked.resolve symbolId)
    exact ⟨rfl,rfl,rfl,rfl⟩

theorem qualifiedWithKey_resolve {g : SymbolGraph} {n : Nat} (sync : Synchronized (g.heap (.declared n)))
    (properUri symbolId : String) : (g.qualifiedWithKey (.declared n) properUri).resolve symbolId = g.resolve symbolId :=
  (qualify_resolve _ _ symbolId).trans (resolve_put (synchronizeWithKey_sameIdentity sync properUri) symbolId)

theorem symbolNamesAdded_eq {heap : Heap} {g : SymbolGraph} (named : Named heap) (tidy : Tidy heap g) (normalizedUri : String)
    (t : TableRef) {symbols : List Ref} (declared : ∀ s ∈ symbols, ∃ n, s = .declared n) :
    symbolNamesAdded normalizedUri t g symbols = symbols.map (fun s => (heap s).name) := by
  induction symbols generalizing g with
  | nil => rfl
  | cons s rest ih =>
    obtain ⟨n,rfl⟩ := declared s List.mem_cons_self
    have first : Grows heap [.declared n] g _ := insertSymbol_grows named tidy List.mem_cons_self normalizedUri t
    simp only [symbolNamesAdded,List.map_cons,first.tidy.rigid.name]
    rw [ih first.tidy (fun s member => declared s (List.mem_cons_of_mem _ member))]

end SymbolGraph

namespace CachedManager

section

variable [Runtime]

/-- The lookups answer what the graph answers, and no symbol that the graph has no id for. -/
structure Fresh (m : CachedManager) : Prop where
  byName : ∀ name, (m.findSymbolByName name).1 = .symbols (m.graph.findSymbolByName name).1
  byFQN : ∀ fqn, (m.findSymbolByFQN fqn).1 = .ofSymbol (m.graph.findSymbolByFQN fqn).1
  contained : ∀ s, (∃ symbolId, s ∈ (m.getSymbol symbolId).1.held) ∨ (∃ name, s ∈ (m.findSymbolByName name).1.held) ∨
    (∃ fqn, s ∈ (m.findSymbolByFQN fqn).1.held) → ∃ symbolId, (m.graph.getSymbol symbolId).1 = some s

/-- No entry that the patterns leave holds a symbol bound to one of the ids. -/
def Spares (test : String → String → Bool) (m : CachedManager) (patterns ids : List String) : Prop :=
  ∀ entry ∈ m.unifiedCache.cache.entries, (∀ pattern ∈ patterns, test pattern entry.1 = false) →
    ∀ s ∈ entry.2.held, ∀ id ∈ ids, m.graph.symbolIdIndex.get? id ≠ some s

/-- What the step takes out of the graph is in no entry that its patterns leave; a symbol that is
added again comes under no cached name it is not listed under; and no symbol is cached by an id
that looks like a key of another lookup. -/
def Covers (test : String → String → Bool) (m : CachedManager) : CachedStep → Prop
  | .addSymbol serial _ _ =>
    let symbol := m.graph.heap (.declared serial)
    m.graph.resolve symbol.id = none ∨ symbol.isBlockSymbol = true ∨
      symbol.id ∈ SymbolGraph.listedIds m.graph.nameIndex symbol.name ∨ m.unifiedCache.get (nameKey symbol.name) = none
  | .addSymbolTable c =>
    let declared := (m.graph.table c.symbolTable).getAllSymbols
    (m.register c).1.decision = .acceptedReplace →
      m.Spares test (tablePatterns (declared.map (fun s => (m.graph.heap s).name)) c.normalizedUri)
        (m.graph.staleIds c.normalizedUri (SymbolGraph.liveSymbolIds m.graph.heap declared))
  | .removeFile fileUri =>
    let normalizedUri := extractFilePathFromUri (createFileUri fileUri)
    m.Spares test [normalizedUri] (SymbolGraph.listedIds m.graph.fileIndex (extractFilePathFromUri normalizedUri))
  | .getSymbol symbolId =>
    isLookupKey symbolId = false ∨ m.graph.resolve symbolId = none ∨
      ((m.unifiedCache.get symbolId).filter CachedValue.truthy).isSome = true
  | _ => True

structure Coherent (heap : Heap) (m : CachedManager) : Prop where
  tidy : SymbolGraph.Tidy heap m.graph
  valid : ∀ key value, m.unifiedCache.get key = some value → SymbolGraph.ValidEntry m.graph key value

theorem lookup_answer (m : CachedManager) (key : String) (keeps : CachedValue → Bool)
    (ask : SymbolGraph → CachedValue × SymbolGraph) :
    (m.lookup key keeps ask).1 = ((m.unifiedCache.get key).filter CachedValue.truthy).getD (ask m.graph).1 := by
  unfold lookup
  cases (m.unifiedCache.get key).filter CachedValue.truthy with
  | some cached => rfl
  | none => rfl

section

variable {heap : Heap} {m : CachedManager}

theorem lookup_coherent (coherent : Coherent heap m) {key : String}
    {keeps : CachedValue → Bool} {ask : SymbolGraph → CachedValue × SymbolGraph} (value : CachedValue) {g' : SymbolGraph}
    (asked : ask m.graph = (value,g')) (grows : SymbolGraph.Grows heap [] m.graph g')
    (entry : (m.unifiedCache.get key).filter CachedValue.truthy = none → keeps value = true →
      SymbolGraph.ValidEntry g' key value) : Coherent heap (m.lookup key keeps ask).2 := by
  unfold lookup
  cases cached : (m.unifiedCache.get key).filter CachedValue.truthy with
  | some cached => exact coherent
  | none =>
    simp only [asked]
    refine ⟨grows.tidy,fun k v stored => ?_⟩
    have old : m.unifiedCache.get k = some v → SymbolGraph.ValidEntry g' k v :=
      fun present => (coherent.valid k v present).undisturbed coherent.tidy grows
    by_cases kept : keeps value = true
    · rw [if_pos kept,UnifiedCache.get_set] at stored
      split at stored
      next here =>
        obtain rfl := Option.some.inj stored
        exact here ▸ entry cached kept
      next => exact old stored
    · rw [if_neg kept] at stored
      exact old stored

theorem getSymbol_coherent (coherent : Coherent heap m) {symbolId : String}
    (covers : isLookupKey symbolId = false ∨ m.graph.resolve symbolId = none ∨
      ((m.unifiedCache.get symbolId).filter CachedValue.truthy).isSome = true) :
    Coherent heap (m.getSymbol symbolId).2 := by
  obtain ⟨g',found,after⟩ := SymbolGraph.getSymbol_spec m.graph symbolId
  refine lookup_coherent coherent (.ofSymbol (m.graph.resolve symbolId)) (by simp only [found])
    (.of_sameSymbols coherent.tidy after.toSameSymbols) fun uncached kept => ?_
  cases answer : m.graph.resolve symbolId with
  | none =>
    rw [answer] at kept
    cases kept
  | some s =>
    rcases covers with own | nothing | cached
    · refine .identified own s rfl ?_
      have known := SymbolGraph.getSymbol_known answer
      rwa [found] at known
    · rw [answer] at nothing
      cases nothing
    · rw [uncached] at cached
      cases cached

theorem findSymbolByName_coherent (coherent : Coherent heap m) (name : String) :
    Coherent heap (m.findSymbolByName name).2 := by
  unfold findSymbolByName
  split
  next => exact coherent
  next =>
    obtain ⟨g',found,after⟩ := SymbolGraph.findSymbolByName_spec m.graph name
    refine lookup_coherent coherent (.symbols (m.graph.symbolsNamed name)) (by simp only [found])
      (.of_sameSymbols coherent.tidy after.toSameSymbols) fun _ _ => ?_
    refine .named name rfl ?_
    rw [after.toSameSymbols.symbolsNamed]

theorem findSymbolByFQN_coherent (coherent : Coherent heap m) (fqn : String) :
    Coherent heap (m.findSymbolByFQN fqn).2 := by
  obtain ⟨g',found,after⟩ := SymbolGraph.findSymbolByFQN_spec m.graph fqn
  refine lookup_coherent coherent (.ofSymbol (m.graph.firstQualified fqn)) (by simp only [found])
    (.of_sameSymbols coherent.tidy after.toSameSymbols) fun _ _ => ?_
  have same : g'.firstQualified fqn = m.graph.firstQualified fqn := by
    simp only [SymbolGraph.firstQualified,after.fqnIndex]
    exact congrArg _ (funext after.toSameSymbols.resolve)
  cases answer : m.graph.firstQualified fqn with
  | none => exact .unqualified fqn rfl rfl
  | some s => exact .qualified fqn rfl s rfl (same.trans answer)

theorem addSymbol_grows (named : Named heap) (coherent : Coherent heap m)
    (test : String → String → Bool) (n : Nat) (fileUri : String) (symbolTable : Option TableRef) :
    SymbolGraph.Grows heap [.declared n] m.graph (m.addSymbol test (.declared n) fileUri symbolTable).graph := by
  have qualified : SymbolGraph.Grows heap [.declared n] m.graph _ :=
    SymbolGraph.qualifiedWithKey_grows coherent.tidy n (createFileUri fileUri)
  have looked := qualified.trans (SymbolGraph.getSymbol_grows qualified.tidy
    (unifiedIdOf ((m.graph.qualifiedWithKey (.declared n) (createFileUri fileUri)).heap (.declared n))))
  have finished : ∀ {g : SymbolGraph} (t : TableRef), SymbolGraph.Grows heap [.declared n] m.graph g →
      SymbolGraph.Grows heap [.declared n] m.graph
        ((g.fileSymbol t (.declared n)).addSymbol (.declared n) (createFileUri fileUri) (some t)) := by
    intro g t grown
    have filed := grown.trans (SymbolGraph.fileSymbol_grows named grown.tidy t n)
    exact filed.trans (SymbolGraph.addSymbol_grows named filed.tidy (createFileUri fileUri) t List.mem_cons_self)
  cases symbolTable with
  | some t => exact finished t looked
  | none =>
    have tabled := looked.trans (SymbolGraph.tableForFile_grows named looked.tidy (createFileUri fileUri))
    exact finished _ tabled

theorem addSymbol_cache (named : Named heap) (coherent : Coherent heap m)
    (test : String → String → Bool) (n : Nat) (fileUri : String) (symbolTable : Option TableRef) :
    ∃ rest, (m.addSymbol test (.declared n) fileUri symbolTable).unifiedCache =
      if (m.graph.resolve (heap (.declared n)).id).isSome then m.unifiedCache
      else (m.unifiedCache.set ((heap (.declared n)).name ++ rest) (.symbol (.declared n))).invalidate test
        [nameKey (heap (.declared n)).name,toLowerCase (heap (.declared n)).name,"file_symbols_" ++ fileUri] := by
  have grown := addSymbol_grows named coherent test n fileUri symbolTable
  have qualified : SymbolGraph.Grows heap [.declared n] m.graph _ :=
    SymbolGraph.qualifiedWithKey_grows coherent.tidy n (createFileUri fileUri)
  have sync := qualified.tidy.rigid.synchronized n
  have asked : ((m.graph.qualifiedWithKey (.declared n) (createFileUri fileUri)).getSymbol
      (unifiedIdOf ((m.graph.qualifiedWithKey (.declared n) (createFileUri fileUri)).heap (.declared n)))).1 =
      m.graph.resolve (heap (.declared n)).id := by
    rw [unifiedIdOf,sync.keyed,orElse,if_neg sync.nonempty,qualified.tidy.rigid.id]
    obtain ⟨g',found,_⟩ := SymbolGraph.getSymbol_spec (m.graph.qualifiedWithKey (.declared n) (createFileUri fileUri))
      (heap (.declared n)).id
    rw [found]
    exact SymbolGraph.qualifiedWithKey_resolve (coherent.tidy.rigid.synchronized n) _ _
  have before := qualified.tidy.rigid.name n
  have after := grown.tidy.rigid.name n
  have own : ∃ rest, ownKey ((m.graph.qualifiedWithKey (.declared n) (createFileUri fileUri)).heap (.declared n)) fileUri =
      (heap (.declared n)).name ++ rest := by
    unfold ownKey
    simp only [before,String.append_assoc]
    exact ⟨_,rfl⟩
  obtain ⟨rest,own⟩ := own
  refine ⟨rest,?_⟩
  rw [← asked,← own,nameKey,← after]
  rfl

theorem addSymbol_coherent {test : String → String → Bool} (named : Named heap)
    (finds : FindsNames test heap) (coherent : Coherent heap m) {n : Nat} {fileUri : String} {symbolTable : Option TableRef}
    (covers : m.Covers test (.addSymbol n fileUri symbolTable)) :
    Coherent heap (m.addSymbol test (.declared n) fileUri symbolTable) := by
  have grown := addSymbol_grows named coherent test n fileUri symbolTable
  refine ⟨grown.tidy,fun key value stored => ?_⟩
  have rigid := coherent.tidy.rigid
  have evolved : m.unifiedCache.get key = some value →
      (key = nameKey (heap (.declared n)).name → (heap (.declared n)).isBlockSymbol = false →
        (heap (.declared n)).id ∈ SymbolGraph.listedIds m.graph.nameIndex (heap (.declared n)).name) →
      SymbolGraph.ValidEntry (m.addSymbol test (.declared n) fileUri symbolTable).graph key value := by
    intro old listed
    refine (coherent.valid key value old).evolve coherent.tidy grown (.refl _) ?_ (fun _ _ id member => by simp at member)
    intro name here s member semantic sameName
    obtain rfl := List.mem_singleton.mp member
    have same : key = nameKey (heap (.declared n)).name := here.trans (nameKey_eq.mpr sameName.symm)
    have under := listed same semantic
    simpa only [SymbolGraph.listedIds,CaseInsensitiveMap.get,sameName] using under
  obtain ⟨rest,cache⟩ := addSymbol_cache named coherent test n fileUri symbolTable
  rw [cache] at stored
  cases known : m.graph.resolve (heap (.declared n)).id with
  | some found =>
    rw [known] at stored
    apply evolved stored
    intro here semantic
    simp only [Covers,rigid.id,rigid.block,rigid.name,known] at covers
    rcases covers with unknown | block | listed | uncached
    · cases unknown
    · rw [block] at semantic
      cases semantic
    · exact listed
    · rw [← here] at uncached
      exact absurd stored (by simp [uncached])
  | none =>
    rw [known] at stored
    simp only [Option.isSome_none,Bool.false_eq_true,if_false,UnifiedCache.get_invalidate] at stored
    split at stored
    next => cases stored
    next missed =>
      rw [UnifiedCache.get_set] at stored
      split at stored
      next own =>
        have found := finds.begins n rest
        rw [← own] at found
        exact absurd ⟨_,by simp,found⟩ missed
      next =>
        apply evolved stored
        intro here _
        have found : test (nameKey (heap (.declared n)).name) key = true := by
          rw [here]
          exact finds.own n
        exact absurd ⟨_,List.mem_cons_self,found⟩ missed

theorem removeFile_coherent {test : String → String → Bool} (coherent : Coherent heap m)
    {fileUri : String} (covers : m.Covers test (.removeFile fileUri)) : Coherent heap (m.removeFile test fileUri) := by
  have drops := SymbolGraph.removeFile_drops m.graph (extractFilePathFromUri (createFileUri fileUri))
  refine ⟨drops.tidy coherent.tidy,fun key value stored => ?_⟩
  change (m.unifiedCache.invalidatePattern test _).get key = some value at stored
  rw [UnifiedCache.get_invalidatePattern] at stored
  split at stored
  next => cases stored
  next missed =>
    have spared := covers (key,value) (OrderedMap.get?_eq_some_iff.mp stored)
      (fun pattern member => by simpa [List.mem_singleton.mp member] using missed)
    have still : SymbolGraph.Grows heap [] m.graph m.graph := .refl coherent.tidy
    exact (coherent.valid key value stored).evolve coherent.tidy still drops (fun _ _ s member => by simp at member) spared

end

theorem addSymbolTable_cases (test : String → String → Bool) (m : CachedManager) (c : TableCall) :
    (m.addSymbolTable test c).graph = (m.register c).2 ∧ (m.addSymbolTable test c).unifiedCache = m.unifiedCache ∨
    (m.addSymbolTable test c).graph =
      (m.register c).2.insertSymbols c.normalizedUri (m.register c).1.canonicalTable (m.register c).1.decision ∧
    (m.addSymbolTable test c).unifiedCache = m.unifiedCache.invalidate test (tablePatterns
      (SymbolGraph.symbolNamesAdded c.normalizedUri (m.register c).1.canonicalTable
        ((m.register c).2.clearReferenceStateForFile c.normalizedUri)
        ((m.register c).2.table (m.register c).1.canonicalTable).getAllSymbols) c.normalizedUri) := by
  by_cases skipped : (m.register c).1.decision = .rejectedStale ∨ (m.register c).1.decision = .noopSameInstance ∧
      m.lastProcessedTableStateByFile.get? c.normalizedUri =
        some (getSymbolTableStateSignature ((m.register c).2.table (m.register c).1.canonicalTable))
  · exact .inl ⟨if_pos skipped,if_pos skipped⟩
  · exact .inr ⟨if_neg skipped,if_neg skipped⟩

section

variable {heap : Heap} {m : CachedManager}

theorem addSymbolTable_coherent {test : String → String → Bool} (named : Named heap)
    (finds : FindsNames test heap) (coherent : Coherent heap m) {c : TableCall}
    (covers : m.Covers test (.addSymbolTable c)) : Coherent heap (m.addSymbolTable test c) := by
  rcases addSymbolTable_cases test m c with ⟨graph,cache⟩ | ⟨graph,cache⟩
  · have registered : SymbolGraph.Grows heap [] m.graph _ := SymbolManager.register_grows named coherent.tidy c
    refine ⟨graph ▸ registered.tidy,fun key value stored => ?_⟩
    rw [cache] at stored
    rw [graph]
    exact (coherent.valid key value stored).undisturbed coherent.tidy registered
  · generalize held : ((m.register c).2.table (m.register c).1.canonicalTable).getAllSymbols = symbols at cache
    have registered : SymbolGraph.Grows heap symbols m.graph _ := SymbolManager.register_grows named coherent.tidy c
    have declared : ∀ s ∈ symbols, ∃ n, s = .declared n := by
      intro s member
      rw [← held] at member
      exact (registered.tidy.keyed _).declared s (mem_heldSymbols.mpr (.inl member))
    have cleared := registered.trans (SymbolGraph.clearReferenceStateForFile_grows registered.tidy c.normalizedUri)
    have inserted := cleared.trans (SymbolGraph.insertSymbols_grows named cleared.tidy c.normalizedUri
      (m.register c).1.canonicalTable (List.Subset.refl symbols) declared)
    obtain ⟨ids,drops,stale⟩ := SymbolManager.insertSymbols_drops (m.register c).2 c.normalizedUri (m.register c).1.canonicalTable
      (m.register c).1.decision
    rw [held] at drops stale
    rw [SymbolGraph.symbolNamesAdded_eq named cleared.tidy _ _ declared] at cache
    refine ⟨graph ▸ drops.tidy inserted.tidy,fun key value stored => ?_⟩
    rw [cache,UnifiedCache.get_invalidate] at stored
    rw [graph]
    split at stored
    next => cases stored
    next missed =>
      refine (coherent.valid key value stored).evolve coherent.tidy inserted drops ?_ ?_
      · -- an entry under the name of a symbol of the table is gone
        intro name here s member semantic sameName
        obtain ⟨n,rfl⟩ := declared s member
        refine absurd ⟨nameKey (heap (.declared n)).name,?_,?_⟩ missed
        · simp only [tablePatterns,List.append_assoc]
          exact List.mem_append_left _ (List.mem_map.mpr ⟨_,List.mem_map.mpr ⟨_,member,rfl⟩,rfl⟩)
        · rw [here,← nameKey_eq.mpr sameName]
          exact finds.own n
      · intro s hold id gone
        obtain ⟨replaced,late⟩ := stale id gone
        have brought : (m.graph.table c.symbolTable).getAllSymbols = symbols :=
          (SymbolManager.register_replaced replaced).symm.trans held
        have spared := covers replaced
        simp only [brought] at spared
        have names : symbols.map (fun s => (m.graph.heap s).name) = symbols.map (fun s => (heap s).name) := by
          apply List.map_congr_left
          intro s' member
          obtain ⟨n,rfl⟩ := declared s' member
          exact coherent.tidy.rigid.name n
        rw [names,SymbolGraph.liveSymbolIds_eq coherent.tidy.rigid declared] at spared
        rw [SymbolGraph.liveSymbolIds_eq inserted.tidy.rigid declared] at late
        obtain ⟨listed,undeclared⟩ := List.mem_filter.mp late
        have old : id ∈ m.graph.staleIds c.normalizedUri (symbols.map (fun s => (heap s).id)) := by
          rcases inserted.files _ id listed with before | ⟨s',member,rfl⟩
          · exact List.mem_filter.mpr ⟨before,undeclared⟩
          · exact absurd (List.mem_map.mpr ⟨s',member,rfl⟩) (by simpa using undeclared)
        refine spared (key,value) (OrderedMap.get?_eq_some_iff.mp stored) ?_ s hold id old
        intro pattern member
        by_contra found
        exact missed ⟨pattern,member,by simpa using found⟩

theorem step_coherent {test : String → String → Bool} (tables : NameTables)
    (named : Named heap) (finds : FindsNames test heap) (coherent : Coherent heap m) (step : CachedStep)
    (covers : m.Covers test step) : Coherent heap (m.step test step) := by
  cases step with
  | addSymbol serial fileUri symbolTable => exact addSymbol_coherent named finds coherent covers
  | addSymbolTable c => exact addSymbolTable_coherent named finds coherent covers
  | removeFile fileUri => exact removeFile_coherent coherent covers
  | getSymbol symbolId => exact getSymbol_coherent coherent covers
  | findSymbolByName name => exact findSymbolByName_coherent coherent name
  | findSymbolByFQN fqn => exact findSymbolByFQN_coherent coherent fqn
  | overReferences c only =>
    have grown : SymbolGraph.Grows heap [] m.graph (m.graph.call c) :=
      SymbolGraph.overReferences_grows tables named coherent.tidy only
    exact ⟨grown.tidy,fun key value stored => (coherent.valid key value stored).undisturbed coherent.tidy grown⟩
  | processed t fileUri => exact ⟨coherent.tidy,coherent.valid⟩
  | evict key =>
    refine ⟨coherent.tidy,fun k value stored => coherent.valid k value ?_⟩
    change (m.unifiedCache.delete key).get k = some value at stored
    rw [UnifiedCache.get_delete] at stored
    split at stored
    next => cases stored
    next => exact stored

theorem Coherent.cached (coherent : Coherent heap m) {key : String} {value : CachedValue}
    (found : (m.unifiedCache.get key).filter CachedValue.truthy = some value) :
    SymbolGraph.ValidEntry m.graph key value ∧ value.truthy = true := by
  obtain ⟨stored,truthy⟩ := Option.filter_eq_some_iff.mp found
  exact ⟨coherent.valid key value stored,truthy⟩

theorem Coherent.findSymbolByName_eq (tables : NameTables) (coherent : Coherent heap m)
    (name : String) : (m.findSymbolByName name).1 = .symbols (m.graph.symbolsNamed name) := by
  unfold findSymbolByName
  split
  next keyword => rw [SymbolGraph.symbolsNamed,if_pos keyword.1]
  next =>
    rw [lookup_answer]
    cases found : (m.unifiedCache.get (nameKey name)).filter CachedValue.truthy with
    | none =>
      obtain ⟨g',asked,_⟩ := SymbolGraph.findSymbolByName_spec m.graph name
      simp only [asked,Option.getD_none]
    | some value =>
      obtain ⟨valid,_⟩ := coherent.cached found
      cases valid with
      | named name' here answer =>
        rw [Option.getD_some,answer,SymbolGraph.symbolsNamed_lower tables _ (nameKey_eq.mp here)]
      | qualified fqn here => exact absurd here (nameKey_ne_fqnKey name fqn)
      | unqualified fqn here => exact absurd here (nameKey_ne_fqnKey name fqn)
      | identified own => exact absurd (nameKey_lookup name) (by simp [own])

theorem Coherent.findSymbolByFQN_eq (coherent : Coherent heap m) (fqn : String) :
    (m.findSymbolByFQN fqn).1 = .ofSymbol (m.graph.firstQualified fqn) := by
  unfold findSymbolByFQN
  rw [lookup_answer]
  cases found : (m.unifiedCache.get (fqnKey fqn)).filter CachedValue.truthy with
  | none =>
    obtain ⟨g',asked,_⟩ := SymbolGraph.findSymbolByFQN_spec m.graph fqn
    simp only [asked,Option.getD_none]
  | some value =>
    obtain ⟨valid,truthy⟩ := coherent.cached found
    cases valid with
    | named name here => exact absurd here.symm (nameKey_ne_fqnKey name fqn)
    | qualified fqn' here s answer first =>
      obtain rfl := fqnKey_eq here
      rw [Option.getD_some,answer,first]
      rfl
    | unqualified fqn' here answer =>
      rw [answer] at truthy
      cases truthy
    | identified own => exact absurd (fqnKey_lookup fqn) (by simp [own])

end

theorem contained_of_valid {g : SymbolGraph} {key : String} {value : CachedValue} (valid : SymbolGraph.ValidEntry g key value)
    (held : s ∈ value.held) : ∃ symbolId, g.resolve symbolId = some s := by
  cases valid with
  | named name here answer =>
    rw [answer] at held
    unfold SymbolGraph.symbolsNamed at held
    split at held
    next => cases held
    next =>
      obtain ⟨symbolId,_,found⟩ := List.mem_filterMap.mp (List.mem_of_mem_filter held)
      exact ⟨symbolId,found⟩
  | qualified fqn here s' answer found =>
    rw [answer] at held
    obtain rfl := List.mem_singleton.mp held
    obtain ⟨symbolId,_,resolved⟩ := Option.bind_eq_some_iff.mp found
    exact ⟨symbolId,resolved⟩
  | unqualified fqn here answer =>
    rw [answer] at held
    cases held
  | identified own s' answer known =>
    rw [answer] at held
    obtain rfl := List.mem_singleton.mp held
    exact ⟨key,SymbolGraph.resolve_known known⟩

theorem Coherent.contained {heap : Heap} {m : CachedManager} (tables : NameTables) (coherent : Coherent heap m)
    (answered : (∃ symbolId, s ∈ (m.getSymbol symbolId).1.held) ∨ (∃ name, s ∈ (m.findSymbolByName name).1.held) ∨
      (∃ fqn, s ∈ (m.findSymbolByFQN fqn).1.held)) : ∃ symbolId, m.graph.resolve symbolId = some s := by
  rcases answered with ⟨symbolId,held⟩ | ⟨name,held⟩ | ⟨fqn,held⟩
  · rw [CachedManager.getSymbol,lookup_answer] at held
    cases found : (m.unifiedCache.get symbolId).filter CachedValue.truthy with
    | some value =>
      rw [found] at held
      exact contained_of_valid (coherent.cached found).1 held
    | none =>
      obtain ⟨g',asked,_⟩ := SymbolGraph.getSymbol_spec m.graph symbolId
      simp only [found,asked,Option.getD_none] at held
      cases answer : m.graph.resolve symbolId with
      | none =>
        rw [answer] at held
        cases held
      | some s' =>
        rw [answer] at held
        obtain rfl := List.mem_singleton.mp held
        exact ⟨symbolId,answer⟩
  · rw [coherent.findSymbolByName_eq tables] at held
    exact contained_of_valid (.named name rfl rfl) held
  · rw [coherent.findSymbolByFQN_eq] at held
    cases answer : m.graph.firstQualified fqn with
    | none =>
      rw [answer] at held
      cases held
    | some s' =>
      rw [answer] at held
      exact contained_of_valid (.qualified fqn rfl s' rfl answer) held

theorem Coherent.fresh {heap : Heap} {m : CachedManager} (tables : NameTables) (coherent : Coherent heap m) : Fresh m where
  byName name := by
    obtain ⟨g',asked,_⟩ := SymbolGraph.findSymbolByName_spec m.graph name
    rw [coherent.findSymbolByName_eq tables,asked]
  byFQN fqn := by
    obtain ⟨g',asked,_⟩ := SymbolGraph.findSymbolByFQN_spec m.graph fqn
    rw [coherent.findSymbolByFQN_eq,asked]
  contained s answered := by
    obtain ⟨symbolId,found⟩ := coherent.contained tables answered
    obtain ⟨g',asked,_⟩ := SymbolGraph.getSymbol_spec m.graph symbolId
    exact ⟨symbolId,by rw [asked,found]⟩

/-- The manager over the parser's objects, before anything was added. -/
def initial (heap : Heap) (tables : TableRef → SymbolTable) : CachedManager := { graph := { heap := heap,tables := tables } }

/-- Where each step covers what it takes out and adds to, no lookup ever answers from a stale entry. -/
theorem lookups_fresh {test : String → String → Bool} {heap : Heap} {tables : TableRef → SymbolTable} (names : NameTables)
    (named : Named heap) (keyed : ∀ t, Keyed heap (tables t)) (finds : FindsNames test heap) {steps : List CachedStep}
    (covered : EveryStep (step test) (Covers test) (initial heap tables) steps) :
    EveryState (step test) Fresh (initial heap tables) steps := by
  have start : Coherent heap (initial heap tables) := by
    refine ⟨⟨named.rigid,keyed,?_,?_,?_⟩,?_⟩
    · intro name id listed
      simp [initial,SymbolGraph.listedIds] at listed
    · intro fqn id listed
      simp [initial,SymbolGraph.listedIds] at listed
    · intro name _ id listed
      simp [initial,SymbolGraph.listedIds] at listed
    · intro key value stored
      cases stored
  have always : EveryState (step test) (Coherent heap) (initial heap tables) steps :=
    everyState_of_everyStep (fun _ step coherent covers => step_coherent names named finds coherent step covers) start covered
  exact fun front initial => (always front initial).fresh names

instance (test : String → String → Bool) (m : CachedManager) (patterns ids : List String) :
    Decidable (m.Spares test patterns ids) :=
  inferInstanceAs (Decidable (∀ _ ∈ _, _ → ∀ _ ∈ _, ∀ _ ∈ _, _))

instance (test : String → String → Bool) (m : CachedManager) (step : CachedStep) : Decidable (m.Covers test step) :=
  match step with
  | .addSymbol _ _ _ => inferInstanceAs (Decidable (_ ∨ _ ∨ _ ∨ _))
  | .addSymbolTable _ => inferInstanceAs (Decidable (_ → Spares _ _ _ _))
  | .removeFile _ => inferInstanceAs (Decidable (Spares _ _ _ _))
  | .getSymbol _ => inferInstanceAs (Decidable (_ ∨ _ ∨ _))
  | .findSymbolByName _ | .findSymbolByFQN _ | .overReferences _ _ | .processed _ _ | .evict _ => .isTrue trivial

end

/-- How `new RegExp(pattern, 'i').test(key)` finds a pattern without special characters. -/
def findsText (pattern key : String) : Bool := includes (asciiLower key).toList (asciiLower pattern)

theorem includes_front (needle rest : List Char) : (breakOn needle (needle ++ rest)).isSome = true := by
  cases needle with
  | nil => cases rest <;> simp [breakOn]
  | cons c needle =>
    have front : (c :: needle).isPrefixOf (c :: (needle ++ rest)) = true := by simp
    rw [List.cons_append,breakOn,if_pos front]
    rfl

theorem findsText_names (heap : Heap) : @FindsNames asciiRuntime findsText heap := by
  refine @FindsNames.mk asciiRuntime _ _ ?_ ?_
  · intro n
    have whole := includes_front (asciiLower (@nameKey asciiRuntime (heap (.declared n)).name)).toList []
    rwa [List.append_nil] at whole
  · intro n rest
    have lower : asciiLower (asciiLower (heap (.declared n)).name) = asciiLower (heap (.declared n)).name :=
      asciiRuntime.lower_lower _
    have text : (asciiLower ((heap (.declared n)).name ++ rest)).toList =
        (asciiLower (heap (.declared n)).name).toList ++ (asciiLower rest).toList := by simp [asciiLower]
    change (breakOn _ _).isSome = true
    change (breakOn (asciiLower (asciiLower (heap (.declared n)).name)).toList _).isSome = true
    rw [lower,text]
    exact includes_front _ _

def utilFile : Heap := fun _ => @SymbolGraph.fileClass asciiRuntime "Util" "file:///Util.cls"

def utilTables (_ : TableRef) : SymbolTable := (@SymbolTable.addSymbol asciiRuntime utilFile {} (.declared 0)).2

theorem utilFile_named : Named utilFile := by
  have sync : Synchronized (@SymbolGraph.fileClass asciiRuntime "Util" "file:///Util.cls") := ⟨by decide,by decide⟩
  exact ⟨fun _ => sync,fun _ _ _ => rfl,fun _ _ _ => rfl,fun _ => rfl⟩

theorem utilTables_keyed (t : TableRef) : Keyed utilFile (utilTables t) :=
  let _ := asciiRuntime
  Keyed.addSymbol utilFile_named.rigid ⟨by simp [heldSymbols,OrderedMap.empty],by simp⟩ 0

def lookedUpById : List CachedStep :=
  [.addSymbolTable ⟨.parsed 0,"file:///Util.cls",none,none⟩,.getSymbol "file:///Util.cls#Util$class"]

theorem removed_after_lookup_fresh :
    EveryState (@step asciiRuntime findsText) (@Fresh asciiRuntime) (@initial asciiRuntime utilFile utilTables)
      (lookedUpById ++ [.removeFile "file:///Util.cls",.findSymbolByName "Util"]) :=
  @lookups_fresh asciiRuntime findsText utilFile utilTables asciiRuntime_names utilFile_named utilTables_keyed
    (findsText_names utilFile) _ (by decide +kernel)

/-- The class is looked up by name; then its file is removed, and its name still finds it. -/
theorem removed_class_found :
    ¬ ∀ (heap : Heap) (tables : TableRef → SymbolTable) (steps : List CachedStep), Named heap →
      (∀ t, Keyed heap (tables t)) → @FindsNames asciiRuntime findsText heap →
      EveryState (@step asciiRuntime findsText) (@Fresh asciiRuntime) (@initial asciiRuntime heap tables) steps := by
  intro always
  have last := (always utilFile utilTables
    [.addSymbolTable ⟨.parsed 0,"file:///Util.cls",none,none⟩,.findSymbolByName "Util",.removeFile "file:///Util.cls"]
    utilFile_named utilTables_keyed (findsText_names utilFile)).last
  have found := @Fresh.byName asciiRuntime _ last "Util"
  revert found
  decide +kernel

end CachedManager
end ApexLs.Symbols
