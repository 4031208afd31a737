import ApexLs.Types.SymbolTableIndexes

/-! A table on the wire is its symbols, its references and its metadata. Loading rebuilds the
id map from the flat array, one symbol to an id, takes the last symbol without a parent as
the root, and leaves the position indexes empty. -/
namespace ApexLs.Types

open ApexLs.Utils ApexLs.Collections

structure SerializedSymbolTableData where
  symbols : List Ref
  references : Option (List SymbolReference) := none
  hierarchicalReferences : Option (List HierarchicalReference) := none
  metadata : Option SymbolTableMetadata := none
  fileUri : Option String := none

namespace SymbolTable

/-- `parentId === null || parentId === undefined` -/
def parentless (s : ApexSymbol) : Bool := s.parentId = .null || s.parentId = .undefined

def loadSymbol (heap : Heap) (t : SymbolTable) (sym : Ref) : SymbolTable :=
  let key := (heap sym).key.unifiedId.getD (heap sym).id
  { t with
    symbolMap := t.symbolMap.set key (.single sym)
    symbolArray := t.symbolArray ++ [sym]
    root := if parentless (heap sym) then some sym else t.root }

def fromSerializedData (heap : Heap) (data : SerializedSymbolTableData) : SymbolTable :=
  let uri := data.fileUri.getD ((data.metadata.map SymbolTableMetadata.fileUri).getD "unknown")
  let table := ({} : SymbolTable).setFileUri uri
  let table := data.metadata.elim table table.setMetadata
  let table := data.symbols.foldl (loadSymbol heap) table
  { table with
    references := data.references.getD table.references
    hierarchicalReferences := data.hierarchicalReferences.getD table.hierarchicalReferences }

def serialized (t : SymbolTable) : SerializedSymbolTableData where
  symbols := t.getAllSymbols
  references := some t.references
  hierarchicalReferences := some t.hierarchicalReferences
  metadata := some t.getMetadata
  fileUri := some t.fileUri

structure AnswersAlike (t u : SymbolTable) : Prop where
  byId : ∀ id, t.getSymbolById id = u.getSymbolById id
  allById : ∀ id, t.getAllSymbolsById id = u.getAllSymbolsById id
  roots : t.getRoots = u.getRoots
  endingAt : ∀ line character,
    t.getReferencesEndingAtPosition line character = u.getReferencesEndingAtPosition line character
  operatorAt : ∀ line character, t.getReferenceByMemberAccessOperatorStart line character =
    u.getReferenceByMemberAccessOperatorStart line character

inductive Build where
  | addSymbol (c : Call)
  | addTypeReference (ref : SymbolReference)
  | addHierarchicalReference (ref : HierarchicalReference)

def build [Runtime] (s : Heap × SymbolTable) : Build → Heap × SymbolTable
  | .addSymbol c => call s c
  | .addTypeReference ref => (s.1,s.2.addTypeReference ref)
  | .addHierarchicalReference ref => (s.1,s.2.addHierarchicalReference ref)

def AllSingle (t : SymbolTable) : Prop := ∀ id b, t.symbolMap.get? id = some b → ∃ s, b = .single s

def lastParentless (heap : Heap) (t : SymbolTable) : Option Ref :=
  (t.getAllSymbols.filter (fun s => parentless (heap s))).getLast?

/-- The last symbol without a parent is no block, unless it is the root itself. -/
def RootComesLast (heap : Heap) (t : SymbolTable) : Prop :=
  ∀ s, lastParentless heap t = some s → (heap s).isBlockSymbol = true → t.root = some s

/-! Loading, seen from the finished table. -/

theorem loadSymbols_root (heap : Heap) (symbols : List Ref) (t : SymbolTable) :
    (symbols.foldl (loadSymbol heap) t).root =
      ((symbols.filter (fun s => parentless (heap s))).getLast?).or t.root := by
  induction symbols generalizing t with
  | nil => rfl
  | cons s symbols ih =>
    rw [List.foldl_cons,ih,List.filter_cons]
    cases parent : parentless (heap s) with
    | false => simp [loadSymbol,parent]
    | true =>
      simp only [loadSymbol,parent,if_true,List.getLast?_cons]
      cases (symbols.filter (fun s => parentless (heap s))).getLast? <;> rfl

theorem loadSymbols_single (heap : Heap) (symbols : List Ref) {t : SymbolTable} (single : AllSingle t) :
    AllSingle (symbols.foldl (loadSymbol heap) t) := by
  induction symbols generalizing t with
  | nil => exact single
  | cons s symbols ih =>
    apply ih
    intro id b got
    rw [loadSymbol,OrderedMap.get?_set] at got
    split at got
    next => exact ⟨s,(Option.some.inj got).symm⟩
    next => exact single id b got

theorem loadSymbols_get? (heap : Heap) (symbols : List Ref) (t : SymbolTable)
    (synced : ∀ s ∈ symbols, Synchronized (heap s))
    (one : ∀ s ∈ symbols, ∀ s' ∈ symbols, (heap s).id = (heap s').id → s = s') (id : String) :
    (symbols.foldl (loadSymbol heap) t).symbolMap.get? id =
      ((symbols.find? (fun s => (heap s).id = id)).map Bucket.single).or (t.symbolMap.get? id) := by
  induction symbols generalizing t with
  | nil => rfl
  | cons s symbols ih =>
    have keyEq : (heap s).key.unifiedId.getD (heap s).id = (heap s).id := by
      rw [(synced s List.mem_cons_self).keyed]
      rfl
    rw [List.foldl_cons,ih _ (fun r member => synced r (List.mem_cons_of_mem _ member))
      (fun a ma b mb => one a (List.mem_cons_of_mem _ ma) b (List.mem_cons_of_mem _ mb)),List.find?_cons]
    simp only [loadSymbol,keyEq,OrderedMap.get?_set]
    by_cases here : (heap s).id = id
    · have again : (symbols.find? (fun s => (heap s).id = id)).map Bucket.single = none ∨
          (symbols.find? (fun s => (heap s).id = id)).map Bucket.single = some (.single s) := by
        cases found : symbols.find? (fun s => (heap s).id = id) with
        | none => exact .inl rfl
        | some r =>
          have idEq : (heap r).id = id := by simpa using List.find?_some found
          have same := one r (List.mem_cons_of_mem _ (List.mem_of_find?_eq_some found)) s List.mem_cons_self
            (idEq.trans here.symm)
          exact .inr (by rw [same]; rfl)
      rcases again with again | again <;> simp [again,here]
    · simp [here,Ne.symm here]

/-! What building a table keeps. -/

def ArraysLong (t : SymbolTable) : Prop := ∀ id l, t.symbolMap.get? id = some (.many l) → 2 ≤ l.length

structure ReferencesIndexed (t : SymbolTable) : Prop where
  indexed : ∀ r ∈ t.references, r ∈ t.getReferencesEndingAtPosition r.location.identifierRange.endLine
    r.location.identifierRange.endColumn
  empty : t.references = [] →
    ∀ key, t.referencesByEndPosition.get? key = none ∧ t.memberAccessByOperatorStart.get? key = none

theorem perform_references (heap : Heap) (t : SymbolTable) (symbol symbolKey effectiveKey previous exit) :
    ReferencesIndexed (t.perform heap symbol symbolKey effectiveKey previous exit).2 ↔ ReferencesIndexed t := by
  cases exit <;> exact ⟨fun h => ⟨h.indexed,h.empty⟩,fun h => ⟨h.indexed,h.empty⟩⟩

theorem addTypeReference_indexed {t : SymbolTable} (before : ReferencesIndexed t) (ref : SymbolReference) :
    ReferencesIndexed (t.addTypeReference ref) := by
  have sameReferences : (t.addTypeReference ref).references = t.references ++ [ref] := by
    unfold addTypeReference indexReferenceSemanticContext
    cases ref.operatorRange <;> rfl
  have sameIndex : (t.addTypeReference ref).referencesByEndPosition = t.referencesByEndPosition.set
      (positionKey ref.location.identifierRange.endLine ref.location.identifierRange.endColumn)
      ((t.referencesByEndPosition.get? (positionKey ref.location.identifierRange.endLine
        ref.location.identifierRange.endColumn)).getD [] ++ [ref]) := by
    unfold addTypeReference indexReferenceSemanticContext
    cases ref.operatorRange <;> rfl
  refine ⟨fun r member => ?_,fun none_ => ?_⟩
  · rw [getReferencesEndingAtPosition,sameIndex,OrderedMap.get?_set]
    rw [sameReferences] at member
    rcases List.mem_append.mp member with old | new
    · have found := before.indexed r old
      unfold getReferencesEndingAtPosition at found
      split
      next here =>
        rw [here] at found
        exact List.mem_append_left _ found
      next => exact found
    · obtain rfl : r = ref := by simpa using new
      simp
  · rw [sameReferences] at none_
    simp at none_

inductive MapChange (t : SymbolTable) (symbol : Ref) (id : String) (t' : SymbolTable) : Prop where
  | same (same : ∀ k, t'.symbolMap.get? k = t.symbolMap.get? k)
  | single (unfiled : t.symbolMap.get? id = none) (set : t'.symbolMap = t.symbolMap.set id (.single symbol))
  | many (k : String) (l : List Ref) (set : t'.symbolMap = t.symbolMap.set k (.many l))
      (long : 2 ≤ l.length ∨ ∃ l', t.symbolMap.get? k = some (.many l') ∧ l'.length ≤ l.length)

theorem MapChange.arraysLong {t t' : SymbolTable} (change : MapChange t symbol key t') (before : ArraysLong t) :
    ArraysLong t' := by
  intro id l got
  cases change with
  | same same => exact before id l (by rwa [same] at got)
  | single unfiled set =>
    rw [set,OrderedMap.get?_set] at got
    split at got
    next => simp at got
    next => exact before id l got
  | many k l' set long =>
    rw [set,OrderedMap.get?_set] at got
    split at got
    next =>
      obtain rfl : l' = l := by simpa using got
      rcases long with long | ⟨old,was,grown⟩
      · exact long
      · exact Nat.le_trans (before k old was) grown
    next => exact before id l got

theorem MapChange.allSingle {t t' : SymbolTable} (change : MapChange t symbol key t') (after : AllSingle t') :
    AllSingle t := by
  intro id b got
  cases change with
  | same same => exact after id b (by rwa [same])
  | single unfiled set =>
    have apart : id ≠ key := by
      rintro rfl
      rw [unfiled] at got
      simp at got
    exact after id b (by simpa [set,apart] using got)
  | many k l set long =>
    obtain ⟨s,same⟩ := after k (.many l) (by simp [set])
    simp at same

theorem MapChange.not_allSingle {t t' : SymbolTable} {k : String} {l : List Ref}
    (set : t'.symbolMap = t.symbolMap.set k (.many l)) : ¬ AllSingle t' := by
  intro after
  obtain ⟨s,same⟩ := after k (.many l) (by simp [set])
  simp at same

theorem refile_same {t : SymbolTable} (heap : Heap) (alone : t.symbolMap.get? key = some (.single e)) (k : String) :
    (t.refile heap key e).symbolMap.get? k = t.symbolMap.get? k := by
  simp only [refile,OrderedMap.get?_set]
  split
  next here => rw [here,alone]
  next => rfl

section

variable [Runtime]

theorem lookupExisting_none {t : SymbolTable} (sync : Synchronized (heap symbol))
    (nothing : (t.lookupExisting heap symbol).2 = none) : t.symbolMap.get? (heap symbol).id = none := by
  unfold lookupExisting at nothing
  simp only [sync.getUnifiedId] at nothing
  split at nothing
  next => simp at nothing
  next unfiled => exact unfiled

theorem insertPrepared_mapChange {t : SymbolTable} (sync : Synchronized (heap symbol)) :
    MapChange t symbol (heap symbol).id (t.insertPrepared heap symbol).2 := by
  obtain ⟨onEnrich,onSecond,onFurther,onFirst⟩ := exitOf_touches heap symbol (t.lookupExisting heap symbol).2
  have bucket : ∀ b, (t.lookupExisting heap symbol).2 = some b →
      t.symbolMap.get? (t.lookupExisting heap symbol).1 = some b := fun b => lookupExisting_bucket
  have nothing := lookupExisting_none (t := t) sync
  unfold insertPrepared
  simp only [sync.getUnifiedId]
  generalize exitOf heap symbol (t.lookupExisting heap symbol).2 = exit at onEnrich onSecond onFurther onFirst ⊢
  cases exit with
  | first => exact .single (nothing (onFirst rfl)) rfl
  | enrich e => exact .same (refile_same (heap.put e (assign (heap e) (heap symbol))) (bucket _ (onEnrich e rfl)))
  | secondDuplicate e => exact .many _ _ rfl (.inl (by simp))
  | furtherDuplicate duplicates =>
    refine .many _ _ rfl (.inr ⟨duplicates,bucket _ (onFurther _ rfl),?_⟩)
    unfold pushIfAbsent
    split <;> simp
  | keepHigherLevel => exact .same (fun _ => rfl)
  | keepTopLevelClass => exact .same (fun _ => rfl)
  | keepSamePlace => exact .same (fun _ => rfl)
  | sameObject => exact .same (fun _ => rfl)

end

/-- A table without duplicates: its indexes agree and its root is the last symbol at the file
level, blocks aside. -/
structure Plain (heap : Heap) (t : SymbolTable) : Prop where
  agree : IndexesAgree heap t
  synced : ∀ s ∈ t.symbolArray, Synchronized (heap s)
  adopted : ∀ s ∈ t.symbolArray, (heap s).parentId ≠ .undefined
  rootless : lastParentless heap t = none → t.root = none
  rooted : ∀ s, lastParentless heap t = some s → (heap s).isBlockSymbol = false → t.root = some s

theorem Plain.empty (heap : Heap) : Plain heap {} where
  agree := indexesAgree_empty heap
  synced := by simp
  adopted := by simp
  rootless _ := rfl
  rooted := by simp [lastParentless,getAllSymbols]

theorem Plain.one {t : SymbolTable} (plain : Plain heap t) (single : AllSingle t) :
    ∀ s ∈ t.symbolArray, ∀ s' ∈ t.symbolArray, (heap s).id = (heap s').id → s = s' := by
  intro s member s' member' same
  obtain ⟨b,got,inside⟩ := mem_getAllSymbolsById.mp (plain.agree.listed s member)
  obtain ⟨b',got',inside'⟩ := mem_getAllSymbolsById.mp (plain.agree.listed s' member')
  rw [same,got'] at got
  obtain rfl := Option.some.inj got
  obtain ⟨e,rfl⟩ := single _ _ got'
  simp only [Bucket.symbols,List.mem_singleton] at inside inside'
  rw [inside,inside']

theorem adoptParent_parentId {s : ApexSymbol} (scope : Option String) (adopted : s.parentId ≠ .undefined) :
    (adoptParent scope s).parentId = s.parentId := by
  cases parent : s.parentId <;> cases scope <;> simp_all [adoptParent]

theorem adoptParent_adopted (scope : Option String) (s : ApexSymbol) :
    (adoptParent scope s).parentId ≠ .undefined := by
  cases parent : s.parentId <;> cases scope <;> simp [adoptParent,parent]

@[simp] theorem adoptParent_kind (scope : Option String) (s : ApexSymbol) :
    (adoptParent scope s).kind = s.kind := by
  unfold adoptParent
  split <;> rfl

theorem isBlockSymbol_congr {a b : ApexSymbol} (same : a.kind = b.kind) : a.isBlockSymbol = b.isBlockSymbol := by
  simp [ApexSymbol.isBlockSymbol,same]

theorem parentless_congr {a b : ApexSymbol} (same : a.parentId = b.parentId) : parentless a = parentless b := by
  simp [parentless,same]

section

variable [Runtime]

theorem prepare_kind (heap : Heap) (symbol : Ref) (scope : Option String) (r : Ref) :
    (prepare heap symbol scope r).kind = (heap r).kind := by
  rw [prepare,Heap.put_apply]
  split
  next same => rw [adoptParent_kind,same]; rfl
  next => rfl

theorem prepare_adopted (heap : Heap) (symbol : Ref) (scope : Option String) :
    (prepare heap symbol scope symbol).parentId ≠ .undefined := by
  rw [prepare,Heap.put_self]
  exact adoptParent_adopted _ _

theorem prepare_parentId {heap : Heap} (symbol : Ref) (scope : Option String)
    (adopted : (heap r).parentId ≠ .undefined) : (prepare heap symbol scope r).parentId = (heap r).parentId := by
  rw [prepare,Heap.put_apply]
  split
  next same => rw [adoptParent_parentId scope (by simpa [synchronizeKey,same] using adopted),same]; rfl
  next => rfl

theorem Plain.prepared {t : SymbolTable} (plain : Plain heap t) (symbol : Ref) (scope : Option String) :
    Plain (prepare heap symbol scope) t := by
  have sameLast : lastParentless (prepare heap symbol scope) t = lastParentless heap t := by
    unfold lastParentless
    congr 1
    refine List.filter_congr (fun s member => parentless_congr ?_)
    exact prepare_parentId symbol scope (plain.adopted s member)
  refine ⟨?_,?_,?_,?_,?_⟩
  · exact plain.agree.transfer rfl rfl (fun s member => prepare_keeps_id _ _ (plain.synced s member))
  · exact fun s member => prepare_keeps_synchronized _ _ (plain.synced s member)
  · intro s member
    rw [prepare_parentId symbol scope (plain.adopted s member)]
    exact plain.adopted s member
  · rw [sameLast]
    exact plain.rootless
  · intro s last semantic
    rw [isBlockSymbol_congr (prepare_kind heap symbol scope s)] at semantic
    exact plain.rooted s (by rwa [sameLast] at last) semantic

end

theorem Plain.first {t : SymbolTable} (plain : Plain heap t) (sync : Synchronized (heap symbol))
    (adopted : (heap symbol).parentId ≠ .undefined) (unfiled : t.symbolMap.get? (heap symbol).id = none)
    (effectiveKey : String) :
    Plain (t.perform heap symbol (heap symbol).id effectiveKey .undefined .first).1
      (t.perform heap symbol (heap symbol).id effectiveKey .undefined .first).2 := by
  have absent : symbol ∉ t.symbolArray := by
    intro member
    have found := plain.agree.listed symbol member
    simp [getAllSymbolsById,unfiled] at found
  have array : (t.perform heap symbol (heap symbol).id effectiveKey .undefined .first).2.symbolArray =
      t.symbolArray ++ [symbol] := by
    simp [perform,file,pushIfAbsent,absent]
  have lastEq : lastParentless heap (t.perform heap symbol (heap symbol).id effectiveKey .undefined .first).2 =
      if parentless (heap symbol) then some symbol else lastParentless heap t := by
    unfold lastParentless getAllSymbols
    rw [array,List.filter_append]
    cases level : parentless (heap symbol) <;> simp [level]
  have rootEq : (t.perform heap symbol (heap symbol).id effectiveKey .undefined .first).2.root =
      if parentless (heap symbol) ∧ (heap symbol).isBlockSymbol = false then some symbol else t.root := by
    by_cases null : (heap symbol).parentId = .null
    · cases block : (heap symbol).isBlockSymbol <;>
        simp [perform,updateRootsArray,rootAfter,file,parentless,null,block]
    · simp [perform,updateRootsArray,rootAfter,file,parentless,null,adopted]
  refine ⟨perform_first_agree plain.agree unfiled,?_,?_,?_,?_⟩
  · intro s member
    rw [array] at member
    rcases List.mem_append.mp member with old | new
    · exact plain.synced s old
    · simp only [List.mem_singleton] at new
      exact new ▸ sync
  · intro s member
    rw [array] at member
    rcases List.mem_append.mp member with old | new
    · exact plain.adopted s old
    · simp only [List.mem_singleton] at new
      exact new ▸ adopted
  · intro none_
    change lastParentless heap _ = none at none_
    rw [lastEq] at none_
    cases level : parentless (heap symbol) with
    | true => simp [level] at none_
    | false =>
      rw [rootEq]
      simp only [level,Bool.false_eq_true,if_false,false_and] at none_ ⊢
      exact plain.rootless none_
  · intro s last semantic
    change lastParentless heap _ = some s at last
    change (heap s).isBlockSymbol = false at semantic
    rw [lastEq] at last
    rw [rootEq]
    cases level : parentless (heap symbol) with
    | true =>
      simp only [level,if_true,Option.some.injEq] at last
      simp [← last ▸ semantic,last]
    | false =>
      simp only [level,Bool.false_eq_true,if_false,false_and] at last ⊢
      exact plain.rooted s last semantic

theorem Plain.enrich {t : SymbolTable} (plain : Plain heap t) (single : AllSingle t)
    (alone : t.symbolMap.get? effectiveKey = some (.single e)) (symbolKey : String) :
    Plain (t.perform heap symbol symbolKey effectiveKey (heap e).parentId (.enrich e)).1
      (t.perform heap symbol symbolKey effectiveKey (heap e).parentId (.enrich e)).2 := by
  obtain ⟨_,present⟩ := plain.agree.filed _ _ alone e (by simp [Bucket.symbols])
  let heap' := heap.put e (assign (heap e) (heap symbol))
  have sameParent : ∀ s, (heap' s).parentId = (heap s).parentId := by
    intro s
    simp only [heap',Heap.put_apply]
    split
    next here => rw [here,assign_parentId]
    next => rfl
  have sameLevel : ∀ s, parentless (heap' s) = parentless (heap s) := fun s => parentless_congr (sameParent s)
  have members : ∀ s, s ∈ (t.refile heap' effectiveKey e).symbolArray → s ∈ t.symbolArray := by
    intro s member
    rcases List.mem_append.mp member with old | new
    · exact (List.mem_filter.mp old).1
    · simp only [List.mem_singleton] at new
      exact new ▸ present
  have lastEq : lastParentless heap' (t.refile heap' effectiveKey e) =
      if parentless (heap e) then some e else lastParentless heap t := by
    simp only [lastParentless,getAllSymbols,refile,List.filter_append,sameLevel]
    cases level : parentless (heap e) with
    | true => simp [level]
    | false =>
      have others : (t.symbolArray.filter (fun s => (heap' s).id ≠ (heap' e).id)).filter
          (fun s => parentless (heap s)) = t.symbolArray.filter (fun s => parentless (heap s)) := by
        rw [List.filter_filter]
        refine List.filter_congr (fun s member => ?_)
        by_cases same : (heap' s).id = (heap' e).id
        · rw [put_assign_id,put_assign_id] at same
          rw [plain.one single s member e present same]
          simp [level]
        · simp [same]
      rw [others]
      simp [level]
  have rootEq : rootAfter heap' t.root e (heap e).parentId =
      if parentless (heap e) ∧ (heap' e).isBlockSymbol = false then some e else t.root := by
    have adopted := plain.adopted e present
    by_cases null : (heap e).parentId = .null
    · cases block : (heap' e).isBlockSymbol <;> simp [rootAfter,parentless,sameParent,null,block]
    · simp [rootAfter,parentless,sameParent,null,adopted]
  refine ⟨perform_enrich_agree plain.agree alone,?_,?_,?_,?_⟩
  · exact fun s member => put_assign_synchronized e symbol (plain.synced s (members s member))
  · intro s member
    change (heap' s).parentId ≠ _
    rw [sameParent]
    exact plain.adopted s (members s member)
  · intro none_
    change lastParentless heap' (t.refile heap' effectiveKey e) = none at none_
    change rootAfter heap' t.root e (heap e).parentId = none
    rw [lastEq] at none_
    cases level : parentless (heap e) with
    | true => simp [level] at none_
    | false =>
      rw [rootEq]
      simp only [level,Bool.false_eq_true,if_false,false_and] at none_ ⊢
      exact plain.rootless none_
  · intro s last semantic
    change lastParentless heap' (t.refile heap' effectiveKey e) = some s at last
    change (heap' s).isBlockSymbol = false at semantic
    change rootAfter heap' t.root e (heap e).parentId = some s
    rw [lastEq] at last
    rw [rootEq]
    cases level : parentless (heap e) with
    | true =>
      simp only [level,if_true,Option.some.injEq] at last
      simp [← last ▸ semantic,last]
    | false =>
      simp only [level,Bool.false_eq_true,if_false,false_and] at last ⊢
      refine plain.rooted s last ?_
      have apart : s ≠ e := by
        rintro rfl
        have filtered := List.mem_of_getLast? last
        simp [level] at filtered
      simpa [heap',apart] using semantic

structure Built (s : Heap × SymbolTable) : Prop where
  arraysLong : ArraysLong s.2
  indexed : ReferencesIndexed s.2
  plain : AllSingle s.2 → Plain s.1 s.2

theorem Built.empty (heap : Heap) : Built (heap,{}) where
  arraysLong := by simp [ArraysLong]
  indexed := ⟨by simp,by simp⟩
  plain _ := Plain.empty heap

theorem Built.of_sameSymbols {t t' : SymbolTable} (built : Built (heap,t)) (indexed : ReferencesIndexed t')
    (sameMap : t'.symbolMap = t.symbolMap) (sameArray : t'.symbolArray = t.symbolArray)
    (sameRoot : t'.root = t.root) : Built (heap,t') where
  arraysLong := by simpa [ArraysLong,sameMap] using built.arraysLong
  indexed := indexed
  plain single := by
    have plain := built.plain (by simpa [AllSingle,sameMap] using single)
    have sameLast : lastParentless heap t' = lastParentless heap t := by
      simp [lastParentless,getAllSymbols,sameArray]
    refine ⟨plain.agree.transfer sameMap sameArray (fun _ _ => rfl),?_,?_,?_,?_⟩
    · simpa [sameArray] using plain.synced
    · simpa [sameArray] using plain.adopted
    · simpa [sameLast,sameRoot] using plain.rootless
    · simpa [sameLast,sameRoot] using plain.rooted

/-! The loaded table. -/

theorem loaded_frame (heap : Heap) (symbols : List Ref) (t : SymbolTable) :
    (symbols.foldl (loadSymbol heap) t).referencesByEndPosition = t.referencesByEndPosition ∧
      (symbols.foldl (loadSymbol heap) t).memberAccessByOperatorStart = t.memberAccessByOperatorStart := by
  induction symbols generalizing t with
  | nil => exact ⟨rfl,rfl⟩
  | cons s symbols ih => exact ih (loadSymbol heap t s)

theorem loaded_root (heap : Heap) (t : SymbolTable) :
    (fromSerializedData heap t.serialized).root = lastParentless heap t := by
  change (t.getAllSymbols.foldl (loadSymbol heap) _).root = _
  rw [loadSymbols_root]
  exact Option.or_none

theorem loaded_positions (heap : Heap) (t : SymbolTable) :
    (fromSerializedData heap t.serialized).referencesByEndPosition = .empty ∧
      (fromSerializedData heap t.serialized).memberAccessByOperatorStart = .empty :=
  loaded_frame heap t.getAllSymbols _

theorem loaded_single (heap : Heap) (t : SymbolTable) : AllSingle (fromSerializedData heap t.serialized) := by
  change AllSingle (t.getAllSymbols.foldl (loadSymbol heap) _)
  refine loadSymbols_single heap _ ?_
  intro id b got
  change OrderedMap.empty.get? id = some b at got
  simp at got

theorem Plain.loaded_get? {t : SymbolTable} (plain : Plain heap t) (single : AllSingle t) (id : String) :
    (fromSerializedData heap t.serialized).symbolMap.get? id = t.symbolMap.get? id := by
  change (t.symbolArray.foldl (loadSymbol heap) _).symbolMap.get? id = _
  rw [loadSymbols_get? heap _ _ plain.synced (plain.one single)]
  change Option.or _ none = _
  rw [Option.or_none]
  cases bucket : t.symbolMap.get? id with
  | none =>
    rw [Option.map_eq_none_iff,List.find?_eq_none]
    intro s member same
    have found := plain.agree.listed s member
    simp only [decide_eq_true_eq] at same
    simp [getAllSymbolsById,same,bucket] at found
  | some b =>
    obtain ⟨e,rfl⟩ := single id b bucket
    obtain ⟨idEq,present⟩ := plain.agree.filed id _ bucket e (by simp [Bucket.symbols])
    cases found : t.symbolArray.find? (fun s => (heap s).id = id) with
    | none => exact absurd idEq (by simpa using List.find?_eq_none.mp found e present)
    | some r =>
      have same : (heap r).id = id := by simpa using List.find?_some found
      rw [plain.one single r (List.mem_of_find?_eq_some found) e present (same.trans idEq.symm)]
      rfl

section

variable [Runtime]

theorem Plain.insertPrepared {t : SymbolTable} (plain : Plain heap t) (sync : Synchronized (heap symbol))
    (adopted : (heap symbol).parentId ≠ .undefined) (after : AllSingle (t.insertPrepared heap symbol).2) :
    Plain (t.insertPrepared heap symbol).1 (t.insertPrepared heap symbol).2 := by
  have single := (insertPrepared_mapChange sync).allSingle after
  have found := lookupExisting_found sync plain.synced plain.agree
  revert after
  unfold SymbolTable.insertPrepared
  simp only [sync.getUnifiedId]
  generalize t.lookupExisting heap symbol = looked at found
  have against : ∀ key e, t.symbolMap.get? key = some (.single e) →
      AllSingle (t.perform heap symbol (heap symbol).id key (heap e).parentId (exitAgainst heap symbol e)).2 →
      Plain (t.perform heap symbol (heap symbol).id key (heap e).parentId (exitAgainst heap symbol e)).1
        (t.perform heap symbol (heap symbol).id key (heap e).parentId (exitAgainst heap symbol e)).2 := by
    intro key e alone
    rcases exitAgainst_cases heap symbol e with kept | enrich | ⟨second,_⟩
    · rw [perform_kept _ _ _ _ _ _ kept]
      exact fun _ => plain
    · rw [enrich]
      exact fun _ => plain.enrich single alone _
    · rw [second]
      exact fun after => absurd after (MapChange.not_allSingle rfl)
  cases found with
  | @own b bucket =>
    obtain ⟨e,rfl⟩ := single _ _ bucket
    exact against _ e bucket
  | nothing unfiled alone => exact fun _ => plain.first sync adopted unfiled _
  | @other e b unfiled met bucket inside =>
    obtain ⟨e',rfl⟩ := single _ _ bucket
    exact against _ e' bucket

theorem Built.build {s : Heap × SymbolTable} (built : Built s) (op : Build) : Built (SymbolTable.build s op) := by
  cases op with
  | addSymbol c =>
    have change := insertPrepared_mapChange (t := s.2) (prepare_synchronized s.1 c.symbol c.currentScope)
    refine ⟨change.arraysLong built.arraysLong,?_,fun after => ?_⟩
    · exact (perform_references _ _ _ _ _ _ _).mpr built.indexed
    · have ready := (built.plain (change.allSingle after)).prepared c.symbol c.currentScope
      exact ready.insertPrepared (prepare_synchronized _ _ _) (prepare_adopted _ _ _) after
  | addTypeReference ref =>
    refine built.of_sameSymbols (addTypeReference_indexed built.indexed ref) ?_ ?_ ?_ <;>
      (unfold addTypeReference indexReferenceSemanticContext; cases ref.operatorRange <;> rfl)
  | addHierarchicalReference ref =>
    exact built.of_sameSymbols ⟨built.indexed.indexed,built.indexed.empty⟩ rfl rfl rfl

/-- A built table survives the wire exactly when it has no references, no duplicates, and no
file-level block after its root. -/
theorem lossless_iff (heap : Heap) (ops : List Build) :
    AnswersAlike (run build (heap,{}) ops).2
        (fromSerializedData (run build (heap,{}) ops).1 (run build (heap,{}) ops).2.serialized) ↔
      (run build (heap,{}) ops).2.references = [] ∧ AllSingle (run build (heap,{}) ops).2 ∧
        RootComesLast (run build (heap,{}) ops).1 (run build (heap,{}) ops).2 := by
  have built : Built (run build (heap,{}) ops) := run_invariant (fun _ op built => built.build op) (Built.empty heap) ops
  generalize run build (heap,{}) ops = s at built
  obtain ⟨noPositions,noOperators⟩ := loaded_positions s.1 s.2
  constructor
  · intro alike
    refine ⟨?_,?_,?_⟩
    · rw [List.eq_nil_iff_forall_not_mem]
      intro r member
      have found := built.indexed.indexed r member
      rw [alike.endingAt] at found
      simp [getReferencesEndingAtPosition,noPositions] at found
    · intro id b got
      cases b with
      | single e => exact ⟨e,rfl⟩
      | many l =>
        have long := built.arraysLong id l got
        have answers := alike.allById id
        simp only [getAllSymbolsById,got,Option.elim_some,Bucket.symbols] at answers
        cases loaded : (fromSerializedData s.1 s.2.serialized).symbolMap.get? id with
        | none => simp [loaded] at answers; simp [answers] at long
        | some b' =>
          obtain ⟨e,rfl⟩ := loaded_single s.1 s.2 id b' loaded
          simp [loaded] at answers
          simp [answers,Bucket.symbols] at long
    · intro r last block
      have roots := alike.roots
      rw [getRoots,getRoots,loaded_root,last] at roots
      cases root : s.2.root <;> simp_all
  · rintro ⟨noReferences,single,rootLast⟩
    have plain := built.plain single
    have sameMap := plain.loaded_get? single
    have emptied := built.indexed.empty noReferences
    refine ⟨?_,?_,?_,?_,?_⟩
    · intro id
      rw [getSymbolById,getSymbolById,sameMap]
    · intro id
      rw [getAllSymbolsById,getAllSymbolsById,sameMap]
    · rw [getRoots,getRoots,loaded_root]
      cases last : lastParentless s.1 s.2 with
      | none => rw [plain.rootless last]
      | some r =>
        cases block : (s.1 r).isBlockSymbol with
        | true => rw [rootLast r last block]
        | false => rw [plain.rooted r last block]
    · intro line character
      simp [getReferencesEndingAtPosition,noPositions,emptied]
    · intro line character
      simp [getReferenceByMemberAccessOperatorStart,noOperators,emptied]

end

def accReference : SymbolReference :=
  ⟨"acc",⟨⟨3,4,3,7⟩,⟨3,4,3,7⟩⟩,some ⟨3,7,3,8⟩⟩

/-- After the wire nothing ends at the position where the reference ends. -/
theorem reference_position_lost :
    ¬ ∀ heap ops, AnswersAlike (run (@build asciiRuntime) (heap,{}) ops).2
      (fromSerializedData (run (@build asciiRuntime) (heap,{}) ops).1
        (run (@build asciiRuntime) (heap,{}) ops).2.serialized) := by
  intro always
  have alike := always publicOverloads [.addTypeReference accReference]
  exact absurd (alike.endingAt 3 7) (by decide)

end SymbolTable
end ApexLs.Types
