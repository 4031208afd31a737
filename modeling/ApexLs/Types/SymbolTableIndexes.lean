import ApexLs.Collections.Runs
import ApexLs.Types.SymbolTable

/-! The id map and the flat array of a symbol table. They agree as long as no symbol is
filed through another symbol's key; the one way that happens is a declaration without a
bucket of its own which the name-and-parent fallback carries to a bucket it then joins as
a duplicate. -/
namespace ApexLs.Types

open ApexLs.Utils ApexLs.Collections

structure Synchronized (s : ApexSymbol) : Prop where
  keyed : s.key.unifiedId = some s.id
  nonempty : s.id ≠ ""

theorem generateSymbolId_ne_empty [Runtime] (name fileUri : String) (scopePath kindPrefix parameters namespace_) :
    generateSymbolId name fileUri scopePath kindPrefix parameters namespace_ ≠ "" := by
  intro empty
  have chars := congrArg (fun s => '#' ∈ s.toList) empty
  simp [generateSymbolId] at chars

theorem createFromSymbol_unifiedId [Runtime] (s : ApexSymbol) : truthy (createFromSymbol s).unifiedId = true := by
  simp [createFromSymbol,truthy,generateUnifiedId,generateSymbolId_ne_empty]

theorem truthy_iff {s : Option String} : truthy s = true ↔ ∃ t, s = some t ∧ t ≠ "" := by
  cases s <;> simp [truthy]

theorem synchronizeKey_synchronized [Runtime] (s : ApexSymbol) : Synchronized (synchronizeKey s) := by
  have keyed : truthy (synchronizeKey s).key.unifiedId = true := by
    simp only [synchronizeKey]
    split
    next given => exact given
    next => exact createFromSymbol_unifiedId s
  obtain ⟨id,same,nonempty⟩ := truthy_iff.mp keyed
  have idEq : (synchronizeKey s).id = id := by
    change ((synchronizeKey s).key.unifiedId).getD "" = id
    rw [same]
    rfl
  exact ⟨by rw [same,idEq],idEq ▸ nonempty⟩

theorem Synchronized.truthy {s : ApexSymbol} (sync : Synchronized s) : truthy s.key.unifiedId = true :=
  truthy_iff.mpr ⟨s.id,sync.keyed,sync.nonempty⟩

theorem Synchronized.getUnifiedId [Runtime] {s : ApexSymbol} (sync : Synchronized s) (fileUri : String) :
    getUnifiedId s.key fileUri = s.id := by
  rw [Types.getUnifiedId,if_pos sync.truthy,sync.keyed]
  rfl

theorem Synchronized.synchronizeKey_id [Runtime] {s : ApexSymbol} (sync : Synchronized s) :
    (synchronizeKey s).id = s.id := by
  simp only [synchronizeKey]
  rw [if_pos sync.truthy,sync.keyed]
  rfl

@[simp] theorem adoptParent_id (scope : Option String) (s : ApexSymbol) : (adoptParent scope s).id = s.id := by
  unfold adoptParent
  split <;> rfl

@[simp] theorem adoptParent_key (scope : Option String) (s : ApexSymbol) : (adoptParent scope s).key = s.key := by
  unfold adoptParent
  split <;> rfl

theorem prepare_synchronized [Runtime] (heap : Heap) (symbol : Ref) (scope : Option String) :
    Synchronized (prepare heap symbol scope symbol) := by
  have sync := synchronizeKey_synchronized (heap symbol)
  exact ⟨by simpa [prepare] using sync.keyed,by simpa [prepare] using sync.nonempty⟩

theorem prepare_of_ne [Runtime] (heap : Heap) (scope : Option String) (apart : r ≠ symbol) :
    prepare heap symbol scope r = heap r := by
  simp [prepare,apart]

theorem prepare_keeps_synchronized [Runtime] {heap : Heap} (symbol : Ref) (scope : Option String)
    (sync : Synchronized (heap r)) : Synchronized (prepare heap symbol scope r) := by
  by_cases same : r = symbol
  · exact same ▸ prepare_synchronized heap symbol scope
  · rwa [prepare_of_ne heap scope same]

theorem prepare_keeps_id [Runtime] {heap : Heap} (symbol : Ref) (scope : Option String)
    (sync : Synchronized (heap r)) : (prepare heap symbol scope r).id = (heap r).id := by
  by_cases same : r = symbol
  · subst same
    simpa [prepare] using sync.synchronizeKey_id
  · rw [prepare_of_ne heap scope same]

@[simp] theorem assign_id (e s : ApexSymbol) : (assign e s).id = e.id := rfl

@[simp] theorem assign_key (e s : ApexSymbol) : (assign e s).key = e.key := rfl

@[simp] theorem assign_parentId (e s : ApexSymbol) : (assign e s).parentId = e.parentId := rfl

theorem put_assign_id (heap : Heap) (e symbol r : Ref) :
    (heap.put e (assign (heap e) (heap symbol)) r).id = (heap r).id := by
  rw [Heap.put_apply]
  split
  next same => rw [same,assign_id]
  next => rfl

theorem put_assign_synchronized {heap : Heap} (e symbol : Ref) (sync : Synchronized (heap r)) :
    Synchronized (heap.put e (assign (heap e) (heap symbol)) r) := by
  rw [Heap.put_apply]
  split
  next same => exact same ▸ ⟨sync.keyed,sync.nonempty⟩
  next => exact sync

namespace SymbolTable

@[simp] theorem updateRootsArray_symbolMap (heap : Heap) (t : SymbolTable) (symbol previous) :
    (t.updateRootsArray heap symbol previous).symbolMap = t.symbolMap := rfl

@[simp] theorem updateRootsArray_symbolArray (heap : Heap) (t : SymbolTable) (symbol previous) :
    (t.updateRootsArray heap symbol previous).symbolArray = t.symbolArray := rfl

theorem mem_pushIfAbsent : r ∈ pushIfAbsent l s ↔ r ∈ l ∨ r = s := by
  unfold pushIfAbsent
  split
  next present => exact ⟨.inl,fun h => h.elim id (fun same => same ▸ present)⟩
  next => simp

theorem pushIfAbsent_nodup (once : l.Nodup) : (pushIfAbsent l s).Nodup := by
  unfold pushIfAbsent
  split
  next => exact once
  next absent => exact once.append (List.nodup_singleton s) (by simpa using absent)

theorem mem_foldl_pushIfAbsent {symbols : List Ref} : r ∈ symbols.foldl pushIfAbsent l ↔ r ∈ l ∨ r ∈ symbols := by
  induction symbols generalizing l with
  | nil => simp
  | cons s symbols ih => rw [List.foldl_cons,ih,mem_pushIfAbsent,List.mem_cons,or_assoc]

theorem foldl_pushIfAbsent_nodup {symbols : List Ref} (once : l.Nodup) : (symbols.foldl pushIfAbsent l).Nodup := by
  induction symbols generalizing l with
  | nil => exact once
  | cons s symbols ih => exact ih (pushIfAbsent_nodup once)

theorem mem_getAllSymbolsById {t : SymbolTable} {id : String} :
    s ∈ t.getAllSymbolsById id ↔ ∃ b, t.symbolMap.get? id = some b ∧ s ∈ b.symbols := by
  unfold getAllSymbolsById
  cases t.symbolMap.get? id <;> simp

structure IndexesAgree (heap : Heap) (t : SymbolTable) : Prop where
  listed : ∀ s ∈ t.getAllSymbols, s ∈ t.getAllSymbolsById (heap s).id
  filed : ∀ id b, t.symbolMap.get? id = some b → ∀ s ∈ b.symbols, (heap s).id = id ∧ s ∈ t.getAllSymbols
  once : t.getAllSymbols.Nodup

theorem indexesAgree_empty (heap : Heap) : IndexesAgree heap {} where
  listed := by simp [getAllSymbols]
  filed := by simp
  once := List.nodup_nil

theorem IndexesAgree.transfer {t t' : SymbolTable} (agree : IndexesAgree heap t)
    (sameMap : t'.symbolMap = t.symbolMap) (sameArray : t'.symbolArray = t.symbolArray)
    (sameIds : ∀ s ∈ t.symbolArray, (heap' s).id = (heap s).id) : IndexesAgree heap' t' where
  listed s member := by
    rw [getAllSymbols,sameArray] at member
    rw [mem_getAllSymbolsById,sameMap,sameIds s member,← mem_getAllSymbolsById]
    exact agree.listed s member
  filed id b got s member := by
    rw [sameMap] at got
    obtain ⟨idEq,present⟩ := agree.filed id b got s member
    exact ⟨by rw [sameIds s present,idEq],by rwa [getAllSymbols,sameArray]⟩
  once := by rw [getAllSymbols,sameArray]; exact agree.once

theorem indexesAgree_updateRootsArray {t : SymbolTable} :
    IndexesAgree heap (t.updateRootsArray heap' symbol previous) ↔ IndexesAgree heap t :=
  ⟨fun agree => agree.transfer (by simp) (by simp) (fun _ _ => rfl),
    fun agree => agree.transfer (by simp) (by simp) (fun _ _ => rfl)⟩

theorem IndexesAgree.file_iff {t : SymbolTable} (agree : IndexesAgree heap t)
    (keeps : ∀ s ∈ t.getAllSymbolsById key, s ∈ b.symbols) (same : ∀ s, s ∈ symbols ↔ s ∈ b.symbols) :
    IndexesAgree heap (t.file key b symbols) ↔ ∀ s ∈ b.symbols, (heap s).id = key := by
  constructor
  · intro after s member
    exact (after.filed key b (OrderedMap.get?_set_self _ _ _) s member).1
  · intro owned
    refine ⟨?_,?_,foldl_pushIfAbsent_nodup agree.once⟩
    · intro s member
      rw [mem_getAllSymbolsById]
      by_cases here : (heap s).id = key
      · refine ⟨b,by simp [file,here],?_⟩
        rcases mem_foldl_pushIfAbsent.mp member with old | new
        · exact keeps s (here ▸ agree.listed s old)
        · exact (same s).mp new
      · rcases mem_foldl_pushIfAbsent.mp member with old | new
        · obtain ⟨b',got,inside⟩ := mem_getAllSymbolsById.mp (agree.listed s old)
          exact ⟨b',by simpa [file,here] using got,inside⟩
        · exact absurd (owned s ((same s).mp new)) here
    · intro id b' got s member
      rw [file,OrderedMap.get?_set] at got
      split at got
      next here =>
        obtain rfl := Option.some.inj got
        exact ⟨here ▸ owned s member,mem_foldl_pushIfAbsent.mpr (.inr ((same s).mpr member))⟩
      next =>
        obtain ⟨idEq,present⟩ := agree.filed id b' got s member
        exact ⟨idEq,mem_foldl_pushIfAbsent.mpr (.inl present)⟩

theorem IndexesAgree.refile {t : SymbolTable} (agree : IndexesAgree heap t)
    (alone : t.symbolMap.get? key = some (.single e)) : IndexesAgree heap (t.refile heap key e) := by
  obtain ⟨idEq,present⟩ := agree.filed key _ alone e (by simp [Bucket.symbols])
  have onlyE : ∀ s ∈ t.symbolArray, (heap s).id = key → s = e := by
    intro s member same
    obtain ⟨b,got,inside⟩ := mem_getAllSymbolsById.mp (agree.listed s member)
    rw [same,alone] at got
    obtain rfl := Option.some.inj got
    simpa [Bucket.symbols] using inside
  have memArray : ∀ s, s ∈ (t.refile heap key e).symbolArray ↔ s ∈ t.symbolArray := by
    intro s
    simp only [SymbolTable.refile,List.mem_append,List.mem_filter,List.mem_singleton,decide_eq_true_eq,idEq]
    constructor
    · rintro (⟨member,_⟩ | rfl)
      · exact member
      · exact present
    · intro member
      by_cases same : (heap s).id = key
      · exact .inr (onlyE s member same)
      · exact .inl ⟨member,same⟩
  have sameLookup : ∀ id, (t.refile heap key e).symbolMap.get? id = t.symbolMap.get? id := by
    intro id
    simp only [SymbolTable.refile,OrderedMap.get?_set]
    split
    next same => rw [same,alone]
    next => rfl
  refine ⟨?_,?_,?_⟩
  · intro s member
    rw [mem_getAllSymbolsById,sameLookup,← mem_getAllSymbolsById]
    exact agree.listed s ((memArray s).mp member)
  · intro id b got s member
    rw [sameLookup] at got
    obtain ⟨owned,listed⟩ := agree.filed id b got s member
    exact ⟨owned,(memArray s).mpr listed⟩
  · change (t.symbolArray.filter (fun s => (heap s).id ≠ (heap e).id) ++ [e]).Nodup
    refine (agree.once.filter _).append (List.nodup_singleton e) ?_
    simp

inductive Found (heap : Heap) (t : SymbolTable) (symbol : Ref) : String × Option Bucket → Prop where
  | own (bucket : t.symbolMap.get? (heap symbol).id = some b) : Found heap t symbol ((heap symbol).id,some b)
  | nothing (unfiled : t.symbolMap.get? (heap symbol).id = none) (alone : t.fallback heap symbol = none) :
      Found heap t symbol ((heap symbol).id,none)
  | other (unfiled : t.symbolMap.get? (heap symbol).id = none) (met : t.fallback heap symbol = some e)
      (bucket : t.symbolMap.get? (heap e).id = some b) (inside : e ∈ b.symbols) :
      Found heap t symbol ((heap e).id,some b)

theorem existingByParent_spec {t : SymbolTable} (met : t.existingByParent heap symbol = some e) :
    e ∈ t.symbolArray ∧ (heap e).kind = (heap symbol).kind ∧ (heap e).name = (heap symbol).name ∧
      (heap e).parentId = (heap symbol).parentId ∧ (heap e).fileUri = (heap symbol).fileUri ∧
      (heap e).detailLevel.isSome ∧ e ≠ symbol := by
  refine ⟨List.mem_of_find?_eq_some met,?_⟩
  have pred := List.find?_some met
  simpa [and_assoc] using pred

theorem fallback_spec {t : SymbolTable} (met : t.fallback heap symbol = some e) :
    fallsBack (heap symbol) = true ∧ t.existingByParent heap symbol = some e := by
  unfold fallback at met
  split at met
  next eligible => exact ⟨eligible,met⟩
  next => simp at met

/-- A rival of equal level that starts elsewhere and is no second top-level class. -/
def DuplicateOf (heap : Heap) (symbol e : Ref) : Prop :=
  (heap symbol).detailLevel = (heap e).detailLevel ∧ isTopLevelClass (heap symbol) = false ∧
    sameLocation (heap e) (heap symbol) = false

/-- The symbol has no bucket of its own, the fallback meets another declaration, and the
symbol joins that one's bucket as a duplicate. -/
def Misfiles (heap : Heap) (t : SymbolTable) (symbol : Ref) : Prop :=
  t.symbolMap.get? (heap symbol).id = none ∧
    ∃ e, t.fallback heap symbol = some e ∧
      ((∃ duplicates, t.symbolMap.get? (heap e).id = some (.many duplicates)) ∨
        t.symbolMap.get? (heap e).id = some (.single e) ∧ DuplicateOf heap symbol e)

theorem order_injective {a b : DetailLevel} (same : a.order = b.order) : a = b := by
  cases a <;> cases b <;> simp [DetailLevel.order] at same ⊢

theorem exitAgainst_secondDuplicate {heap : Heap} (apart : e ≠ symbol) (newLevel : (heap symbol).detailLevel.isSome)
    (oldLevel : (heap e).detailLevel.isSome) :
    (∃ e', exitAgainst heap symbol e = .secondDuplicate e') ↔ DuplicateOf heap symbol e := by
  obtain ⟨new,newEq⟩ := Option.isSome_iff_exists.mp newLevel
  obtain ⟨old,oldEq⟩ := Option.isSome_iff_exists.mp oldLevel
  simp only [exitAgainst,if_neg apart,newEq,oldEq,DuplicateOf,Option.some.injEq]
  split
  next gt =>
    simp only [reduceCtorEq,exists_false,false_iff]
    rintro ⟨rfl,_⟩
    omega
  next notGt =>
    split
    next lt =>
      simp only [reduceCtorEq,exists_false,false_iff]
      rintro ⟨rfl,_⟩
      omega
    next notLt =>
      have same : new = old := order_injective (by omega)
      cases isTopLevelClass (heap symbol) <;> cases sameLocation (heap e) (heap symbol) <;> simp [same]

theorem exitAgainst_cases (heap : Heap) (symbol e : Ref) :
    exitAgainst heap symbol e ∈ [.sameObject,.keepHigherLevel,.keepTopLevelClass,.keepSamePlace] ∨
      exitAgainst heap symbol e = .enrich e ∨ (exitAgainst heap symbol e = .secondDuplicate e ∧ e ≠ symbol) := by
  unfold exitAgainst
  split
  next => simp
  next apart =>
    split
    next => simp [apart]
    next => simp
    next =>
      split
      next => simp
      next =>
        split
        next => simp
        next => split <;> [simp;(split <;> simp [apart])]

theorem perform_kept (heap : Heap) (t : SymbolTable) (symbol : Ref) (symbolKey effectiveKey : String) (previous)
    (kept : exit ∈ [Exit.sameObject,.keepHigherLevel,.keepTopLevelClass,.keepSamePlace]) :
    t.perform heap symbol symbolKey effectiveKey previous exit = (heap,t) := by
  simp only [List.mem_cons,List.not_mem_nil,or_false] at kept
  rcases kept with rfl | rfl | rfl | rfl <;> rfl

section

variable {t : SymbolTable} (agree : IndexesAgree heap t)
include agree

theorem perform_enrich_agree (alone : t.symbolMap.get? effectiveKey = some (.single e)) :
    IndexesAgree (t.perform heap symbol symbolKey effectiveKey previous (.enrich e)).1
      (t.perform heap symbol symbolKey effectiveKey previous (.enrich e)).2 := by
  have same := put_assign_id heap e symbol
  have enriched : IndexesAgree (heap.put e (assign (heap e) (heap symbol))) t :=
    agree.transfer rfl rfl (fun s _ => same s)
  exact indexesAgree_updateRootsArray.mpr (enriched.refile alone)

theorem perform_second_agree_iff (keeps : ∀ s ∈ t.getAllSymbolsById (heap symbol).id, s = e) :
    IndexesAgree (t.perform heap symbol (heap symbol).id effectiveKey previous (.secondDuplicate e)).1
      (t.perform heap symbol (heap symbol).id effectiveKey previous (.secondDuplicate e)).2 ↔
      (heap e).id = (heap symbol).id := by
  refine indexesAgree_updateRootsArray.trans ((agree.file_iff ?_ ?_).trans ?_)
  · intro s member
    simp [Bucket.symbols,keeps s member]
  · intro s
    simp [Bucket.symbols,or_comm]
  · simp [Bucket.symbols]

theorem perform_further_agree_iff (bucket : t.symbolMap.get? effectiveKey = some (.many duplicates)) :
    IndexesAgree (t.perform heap symbol symbolKey effectiveKey previous (.furtherDuplicate duplicates)).1
      (t.perform heap symbol symbolKey effectiveKey previous (.furtherDuplicate duplicates)).2 ↔
      (heap symbol).id = effectiveKey := by
  refine indexesAgree_updateRootsArray.trans ((agree.file_iff ?_ ?_).trans ?_)
  · intro s member
    obtain ⟨b,got,inside⟩ := mem_getAllSymbolsById.mp member
    rw [bucket] at got
    obtain rfl := Option.some.inj got
    exact mem_pushIfAbsent.mpr (.inl inside)
  · intro s
    simp only [Bucket.symbols,List.mem_cons,mem_pushIfAbsent]
    tauto
  · constructor
    · intro owned
      exact owned symbol (mem_pushIfAbsent.mpr (.inr rfl))
    · intro same s member
      rcases mem_pushIfAbsent.mp member with old | rfl
      · exact (agree.filed effectiveKey _ bucket s old).1
      · exact same

theorem perform_first_agree (unfiled : t.symbolMap.get? (heap symbol).id = none) :
    IndexesAgree (t.perform heap symbol (heap symbol).id effectiveKey previous .first).1
      (t.perform heap symbol (heap symbol).id effectiveKey previous .first).2 := by
  refine indexesAgree_updateRootsArray.mpr ((agree.file_iff ?_ ?_).mpr ?_)
  · intro s member
    simp [getAllSymbolsById,unfiled] at member
  · simp [Bucket.symbols]
  · simp [Bucket.symbols]

end

theorem exitOf_touches (heap : Heap) (symbol : Ref) (existing : Option Bucket) :
    (∀ e, exitOf heap symbol existing = .enrich e → existing = some (.single e)) ∧
    (∀ e, exitOf heap symbol existing = .secondDuplicate e → existing = some (.single e)) ∧
    (∀ l, exitOf heap symbol existing = .furtherDuplicate l → existing = some (.many l)) ∧
    (exitOf heap symbol existing = .first → existing = none) := by
  rcases existing with _ | (e | l)
  · simp [exitOf]
  · change (∀ e', exitAgainst heap symbol e = .enrich e' → _) ∧ (∀ e', exitAgainst heap symbol e = _ → _) ∧
      (∀ l, exitAgainst heap symbol e = _ → _) ∧ (exitAgainst heap symbol e = _ → _)
    rcases exitAgainst_cases heap symbol e with kept | enrich | ⟨second,_⟩
    · simp only [List.mem_cons,List.not_mem_nil,or_false] at kept
      rcases kept with kept | kept | kept | kept <;> simp [kept]
    · simp [enrich]
    · simp [second]
  · simp [exitOf]

section

variable [Runtime]

theorem lookupExisting_found {t : SymbolTable} (sync : Synchronized (heap symbol))
    (synced : ∀ s ∈ t.symbolArray, Synchronized (heap s)) (agree : IndexesAgree heap t) :
    Found heap t symbol (t.lookupExisting heap symbol) := by
  unfold lookupExisting
  simp only [sync.getUnifiedId]
  split
  next b bucket => exact .own bucket
  next unfiled =>
    split
    next e met =>
      obtain ⟨_,first⟩ := fallback_spec met
      have member := (existingByParent_spec first).1
      rw [(synced e member).getUnifiedId]
      obtain ⟨b,bucket,inside⟩ := mem_getAllSymbolsById.mp (agree.listed e member)
      rw [bucket]
      exact .other unfiled met bucket inside
    next alone => exact .nothing unfiled alone

theorem insertPrepared_agree_iff {t : SymbolTable} (sync : Synchronized (heap symbol))
    (synced : ∀ s ∈ t.symbolArray, Synchronized (heap s)) (agree : IndexesAgree heap t) :
    IndexesAgree (t.insertPrepared heap symbol).1 (t.insertPrepared heap symbol).2 ↔
      ¬ Misfiles heap t symbol := by
  have found := lookupExisting_found sync synced agree
  unfold insertPrepared
  simp only [sync.getUnifiedId]
  generalize t.lookupExisting heap symbol = looked at found
  cases found with
  | @own b bucket =>
    have fits : ¬ Misfiles heap t symbol := by
      rintro ⟨unfiled,_⟩
      rw [unfiled] at bucket
      exact absurd bucket (by simp)
    refine iff_of_true ?_ fits
    cases b with
    | many duplicates => exact (perform_further_agree_iff agree bucket).mpr rfl
    | single e =>
      change IndexesAgree (t.perform _ _ _ _ _ (exitAgainst heap symbol e)).1
        (t.perform _ _ _ _ _ (exitAgainst heap symbol e)).2
      rcases exitAgainst_cases heap symbol e with kept | enrich | ⟨second,_⟩
      · rw [perform_kept _ _ _ _ _ _ kept]
        exact agree
      · rw [enrich]
        exact perform_enrich_agree agree bucket
      · rw [second]
        refine (perform_second_agree_iff agree ?_).mpr (agree.filed _ _ bucket e (by simp [Bucket.symbols])).1
        simp [getAllSymbolsById,bucket,Bucket.symbols]
  | nothing unfiled alone =>
    refine iff_of_true (perform_first_agree agree unfiled) ?_
    rintro ⟨_,e,met,_⟩
    rw [alone] at met
    exact absurd met (by simp)
  | @other e b unfiled met bucket inside =>
    obtain ⟨eligible,first⟩ := fallback_spec met
    obtain ⟨_,_,_,_,_,oldLevel,apart⟩ := existingByParent_spec first
    have foreign : (heap symbol).id ≠ (heap e).id := by
      intro same
      rw [same,bucket] at unfiled
      exact absurd unfiled (by simp)
    cases b with
    | many duplicates =>
      refine iff_of_false (fun after => ?_) (not_not_intro ⟨unfiled,e,met,.inl ⟨duplicates,bucket⟩⟩)
      exact foreign ((perform_further_agree_iff agree bucket).mp after)
    | single e' =>
      obtain rfl : e = e' := by simpa [Bucket.symbols] using inside
      have newLevel : (heap symbol).detailLevel.isSome := by
        simp only [fallsBack,Bool.and_eq_true] at eligible
        exact eligible.1
      have exact_ := exitAgainst_secondDuplicate apart newLevel oldLevel
      have misfiles_iff : Misfiles heap t symbol ↔ DuplicateOf heap symbol e := by
        simp [Misfiles,unfiled,met,bucket]
      change IndexesAgree (t.perform _ _ _ _ _ (exitAgainst heap symbol e)).1
        (t.perform _ _ _ _ _ (exitAgainst heap symbol e)).2 ↔ _
      rw [misfiles_iff,← exact_]
      rcases exitAgainst_cases heap symbol e with kept | enrich | ⟨second,_⟩
      · rw [perform_kept _ _ _ _ _ _ kept]
        refine iff_of_true agree ?_
        rintro ⟨e',same⟩
        simp [same] at kept
      · rw [enrich]
        exact iff_of_true (perform_enrich_agree agree bucket) (by simp)
      · rw [second]
        refine iff_of_false (fun after => foreign ?_) (by simp)
        refine ((perform_second_agree_iff agree ?_).mp after).symm
        simp [getAllSymbolsById,unfiled]

theorem insertPrepared_heap (heap : Heap) (t : SymbolTable) (symbol : Ref) :
    (t.insertPrepared heap symbol).1 = heap ∨
      ∃ e, (t.insertPrepared heap symbol).1 = heap.put e (assign (heap e) (heap symbol)) := by
  unfold insertPrepared
  simp only
  generalize exitOf heap symbol (t.lookupExisting heap symbol).2 = exit
  cases exit with
  | enrich e => exact .inr ⟨e,rfl⟩
  | _ => exact .inl rfl

theorem lookupExisting_bucket {t : SymbolTable} (found : (t.lookupExisting heap symbol).2 = some b) :
    t.symbolMap.get? (t.lookupExisting heap symbol).1 = some b := by
  unfold lookupExisting at found ⊢
  revert found
  simp only
  split
  next bucket => intro same; exact bucket.trans same
  next =>
    split
    next => exact id
    next => simp

theorem insertPrepared_listed {t : SymbolTable} (agree : IndexesAgree heap t)
    (member : s ∈ (t.insertPrepared heap symbol).2.symbolArray) : s ∈ t.symbolArray ∨ s = symbol := by
  obtain ⟨onEnrich,onSecond,onFurther,_⟩ := exitOf_touches heap symbol (t.lookupExisting heap symbol).2
  have filed : ∀ b, (t.lookupExisting heap symbol).2 = some b → ∀ r ∈ b.symbols, r ∈ t.symbolArray :=
    fun b found r inside => (agree.filed _ b (lookupExisting_bucket found) r inside).2
  revert member
  unfold insertPrepared
  simp only
  generalize exitOf heap symbol (t.lookupExisting heap symbol).2 = exit at onEnrich onSecond onFurther ⊢
  cases exit with
  | first =>
    intro member
    simpa [perform,file] using mem_foldl_pushIfAbsent.mp member
  | enrich e =>
    intro member
    simp only [perform,updateRootsArray_symbolArray,refile,List.mem_append,List.mem_filter,
      List.mem_singleton] at member
    rcases member with ⟨member,_⟩ | rfl
    · exact .inl member
    · exact .inl (filed _ (onEnrich s rfl) s (by simp [Bucket.symbols]))
  | secondDuplicate e =>
    intro member
    rcases mem_foldl_pushIfAbsent.mp member with old | new
    · exact .inl old
    · simp only [List.mem_cons,List.not_mem_nil,or_false] at new
      rcases new with rfl | rfl
      · exact .inr rfl
      · exact .inl (filed _ (onSecond s rfl) s (by simp [Bucket.symbols]))
  | furtherDuplicate duplicates =>
    intro member
    rcases mem_foldl_pushIfAbsent.mp member with old | new
    · exact .inl old
    · rcases List.mem_cons.mp new with rfl | new
      · exact .inr rfl
      · rcases mem_pushIfAbsent.mp new with dup | rfl
        · exact .inl (filed _ (onFurther _ rfl) s dup)
        · exact .inr rfl
  | keepHigherLevel => exact .inl
  | keepTopLevelClass => exact .inl
  | keepSamePlace => exact .inl
  | sameObject => exact .inl

theorem insertPrepared_synced {t : SymbolTable} (sync : Synchronized (heap symbol))
    (synced : ∀ s ∈ t.symbolArray, Synchronized (heap s)) (agree : IndexesAgree heap t)
    (member : s ∈ (t.insertPrepared heap symbol).2.symbolArray) :
    Synchronized ((t.insertPrepared heap symbol).1 s) := by
  have before : Synchronized (heap s) := by
    rcases insertPrepared_listed agree member with old | rfl
    · exact synced s old
    · exact sync
  rcases insertPrepared_heap heap t symbol with same | ⟨e,written⟩
  · rwa [same]
  · rw [written]
    exact put_assign_synchronized e symbol before

structure Call where
  symbol : Ref
  currentScope : Option String := none
  deriving DecidableEq, Repr

def call (s : Heap × SymbolTable) (c : Call) : Heap × SymbolTable :=
  s.2.addSymbol s.1 c.symbol c.currentScope

def MisfilingCall (s : Heap × SymbolTable) (c : Call) : Prop :=
  Misfiles (prepare s.1 c.symbol c.currentScope) s.2 c.symbol

theorem call_agree_iff {s : Heap × SymbolTable} (c : Call)
    (synced : ∀ r ∈ s.2.symbolArray, Synchronized (s.1 r)) (agree : IndexesAgree s.1 s.2) :
    IndexesAgree (call s c).1 (call s c).2 ↔ ¬ MisfilingCall s c :=
  insertPrepared_agree_iff (prepare_synchronized _ _ _)
    (fun r member => prepare_keeps_synchronized _ _ (synced r member))
    (agree.transfer rfl rfl (fun r member => prepare_keeps_id _ _ (synced r member)))

theorem call_synced {s : Heap × SymbolTable} (c : Call)
    (synced : ∀ r ∈ s.2.symbolArray, Synchronized (s.1 r)) (agree : IndexesAgree s.1 s.2) :
    ∀ r ∈ (call s c).2.symbolArray, Synchronized ((call s c).1 r) :=
  fun _ member => insertPrepared_synced (prepare_synchronized _ _ _)
    (fun r member => prepare_keeps_synchronized _ _ (synced r member))
    (agree.transfer rfl rfl (fun r member => prepare_keeps_id _ _ (synced r member))) member

/-- The two indexes agree all along a run of `addSymbol` on a new table exactly when none of
its calls misfiles a symbol. -/
theorem indexes_agree_along_iff (heap : Heap) (calls : List Call) :
    EveryState call (fun s => IndexesAgree s.1 s.2) (heap,{}) calls ↔
      EveryStep call (fun s c => ¬ MisfilingCall s c) (heap,{}) calls :=
  everyState_iff_everyStep (A := fun s => ∀ r ∈ s.2.symbolArray, Synchronized (s.1 r))
    (fun _ c synced agree _ => call_synced c synced agree)
    (fun _ c synced agree => call_agree_iff c synced agree) (by simp) (indexesAgree_empty heap)

/-- The array lists no object twice, and what either index holds has the id of its key. This needs no agreement. -/
structure Held (s : Heap × SymbolTable) : Prop where
  once : s.2.symbolArray.Nodup
  listed : ∀ r ∈ s.2.symbolArray, Synchronized (s.1 r)
  filed : ∀ k b, s.2.symbolMap.get? k = some b → ∀ r ∈ b.symbols, Synchronized (s.1 r)

omit [Runtime] in
theorem Held.file {t : SymbolTable} (held : Held (heap,t)) (key : String) (bucket : Bucket) (symbols : List Ref)
    (inBucket : ∀ r ∈ bucket.symbols, Synchronized (heap r)) (new : ∀ r ∈ symbols, Synchronized (heap r)) :
    Held (heap,t.file key bucket symbols) where
  once := foldl_pushIfAbsent_nodup held.once
  listed r member := (mem_foldl_pushIfAbsent.mp member).elim (held.listed r) (new r)
  filed k b filed r member := by
    rw [SymbolTable.file,OrderedMap.get?_set] at filed
    split at filed
    next =>
      obtain rfl := Option.some.inj filed
      exact inBucket r member
    next => exact held.filed k b filed r member

omit [Runtime] in
theorem Held.refile {t : SymbolTable} (held : Held (heap,t)) (key : String) (e symbol : Ref) (sync : Synchronized (heap e)) :
    Held (heap.put e (assign (heap e) (heap symbol)),t.refile (heap.put e (assign (heap e) (heap symbol))) key e) where
  once := by
    refine (held.once.filter _).append (List.nodup_singleton e) fun r kept same => ?_
    obtain rfl := List.mem_singleton.mp same
    simpa using (List.mem_filter.mp kept).2
  listed r member := by
    rcases List.mem_append.mp member with kept | same
    · exact put_assign_synchronized e symbol (held.listed r (List.mem_filter.mp kept).1)
    · exact put_assign_synchronized e symbol (List.mem_singleton.mp same ▸ sync)
  filed k b filed r member := by
    rw [SymbolTable.refile,OrderedMap.get?_set] at filed
    split at filed
    next =>
      obtain rfl := Option.some.inj filed
      obtain rfl := List.mem_singleton.mp member
      exact put_assign_synchronized r symbol sync
    next => exact put_assign_synchronized e symbol (held.filed k b filed r member)

theorem insertPrepared_held {t : SymbolTable} (held : Held (heap,t)) (sync : Synchronized (heap symbol)) :
    Held (t.insertPrepared heap symbol) := by
  obtain ⟨onEnrich,onSecond,onFurther,_⟩ := exitOf_touches heap symbol (t.lookupExisting heap symbol).2
  have found : ∀ b, (t.lookupExisting heap symbol).2 = some b → ∀ r ∈ b.symbols, Synchronized (heap r) :=
    fun b found => held.filed _ b (lookupExisting_bucket found)
  -- the roots play no part
  have rooted {heap : Heap} {t : SymbolTable} {symbol : Ref} {previous : ParentId} (held : Held (heap,t)) :
      Held (heap,t.updateRootsArray heap symbol previous) := ⟨held.once,held.listed,held.filed⟩
  unfold insertPrepared
  simp only
  generalize exitOf heap symbol (t.lookupExisting heap symbol).2 = exit at onEnrich onSecond onFurther ⊢
  cases exit with
  | first => exact rooted (held.file _ _ _ (by simpa [Bucket.symbols] using sync) (by simpa using sync))
  | enrich e => exact rooted (held.refile _ e symbol (found _ (onEnrich e rfl) e (by simp [Bucket.symbols])))
  | secondDuplicate e =>
    have other := found _ (onSecond e rfl) e (by simp [Bucket.symbols])
    exact rooted (held.file _ _ _ (by simpa [Bucket.symbols] using ⟨other,sync⟩) (by simpa using ⟨sync,other⟩))
  | furtherDuplicate duplicates =>
    have extended : ∀ r ∈ pushIfAbsent duplicates symbol, Synchronized (heap r) := fun r member =>
      (mem_pushIfAbsent.mp member).elim (found _ (onFurther duplicates rfl) r) fun same => same ▸ sync
    exact rooted (held.file _ _ _ extended fun r member => (List.mem_cons.mp member).elim (fun same => same ▸ sync) (extended r))
  | keepHigherLevel => exact held
  | keepTopLevelClass => exact held
  | keepSamePlace => exact held
  | sameObject => exact held

theorem call_held {s : Heap × SymbolTable} (c : Call) (held : Held s) : Held (call s c) :=
  insertPrepared_held ⟨held.once,fun r member => prepare_keeps_synchronized _ _ (held.listed r member),
    fun k b filed r member => prepare_keeps_synchronized _ _ (held.filed k b filed r member)⟩ (prepare_synchronized _ _ _)

theorem everyState_held (heap : Heap) (calls : List Call) : EveryState call Held (heap,{}) calls :=
  everyState_of_step (fun _ c held => call_held c held) ⟨List.nodup_nil,by simp,by simp⟩ calls

theorem run_held (heap : Heap) (calls : List Call) : Held (run call (heap,{}) calls) :=
  run_invariant (fun _ c held => call_held c held) ⟨List.nodup_nil,by simp,by simp⟩ calls

end

def lineLocation (line : Nat) : SymbolLocation :=
  ⟨⟨line,2,line,40⟩,⟨line,14,line,17⟩⟩

/-- `void name(T x)` of a class `C`, as the pass for `level` captures it. -/
def methodOfC [Runtime] (name type : String) (level : DetailLevel) (visibility : SymbolVisibility) (line : Nat) :
    ApexSymbol :=
  createMethodSymbol name (lineLocation line) "file:///C.cls" { visibility := visibility }
    (.of "file:///C.cls#C.C$block") (.simple "void")
    [{ id := "",name := "x",type := some (.simple type),location := lineLocation line }] ["C"] level

def publicOverloads : Heap
  | .declared 0 => @methodOfC asciiRuntime "foo" "String" .publicApi .public_ 2
  | _ => @methodOfC asciiRuntime "foo" "Integer" .publicApi .public_ 3

/-- Two public overloads: the second has no bucket, falls back to the first, and the array of
both is stored under the second one's id. -/
theorem public_overloads_disagree :
    ¬ ∀ calls, IndexesAgree (run (@call asciiRuntime) (publicOverloads,{}) calls).1
      (run (@call asciiRuntime) (publicOverloads,{}) calls).2 := by
  intro always
  have agree := always [⟨.declared 0,none⟩,⟨.declared 1,none⟩]
  have foreign := agree.filed "file:///C.cls#C.foo#(Integer)" (.many [.declared 0,.declared 1]) (by decide)
    (.declared 0) (by decide)
  exact absurd foreign.1 (by decide)

end SymbolTable
end ApexLs.Types
