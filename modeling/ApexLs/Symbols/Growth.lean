import ApexLs.Symbols.CachedLookups
import ApexLs.Symbols.DrainSpecs
import ApexLs.Symbols.Identities
import ApexLs.Symbols.Placement

/-! How the indexes over symbols grow and shrink. What a call adds, it adds under the id and the
name of a symbol it was handed; what it takes out, it takes out by id. -/
namespace ApexLs.Symbols

open ApexLs.Utils ApexLs.Types ApexLs.Collections

/-- What the lookups by name take from the runtime: only the empty text is lower-cased to what
that is, and the scalar keywords are keywords. -/
structure NameTables [Runtime] : Prop where
  lowerEmpty : ∀ s, toLowerCase s = toLowerCase "" → s = ""
  void : isApexKeyword "void" = true
  null : isApexKeyword "null" = true

theorem NameTables.isApexKeyword_lower [Runtime] (tables : NameTables) {name name' : String}
    (same : toLowerCase name = toLowerCase name') : isApexKeyword name = isApexKeyword name' := by
  by_cases empty : name = ""
  · subst empty
    rw [tables.lowerEmpty name' same.symm]
  · have nonempty : name' ≠ "" := by
      rintro rfl
      exact empty (tables.lowerEmpty name same)
    simp only [isApexKeyword,if_neg empty,if_neg nonempty,same]

theorem asciiRuntime_names : @NameTables asciiRuntime := by
  refine @NameTables.mk asciiRuntime ?_ (by decide) (by decide)
  intro s same
  have length : (asciiLower s).length = (asciiLower "").length := congrArg String.length same
  simpa [asciiLower] using length

namespace SymbolGraph

variable [Runtime]

def listedIds (index : CaseInsensitiveMap (List String)) (key : String) : List String := (index.get key).getD []

theorem listedIds_pushId (index : CaseInsensitiveMap (List String)) (key symbolId k : String) :
    listedIds (pushId index key symbolId) k =
      if toLowerCase k = toLowerCase key ∧ symbolId ∉ listedIds index key then listedIds index k ++ [symbolId]
      else listedIds index k := by
  simp only [pushId]
  by_cases listed : symbolId ∈ (index.get key).getD []
  · have present : symbolId ∈ listedIds index key := listed
    simp [listed,present]
  · have absent : symbolId ∉ listedIds index key := listed
    rw [if_neg listed]
    by_cases here : toLowerCase k = toLowerCase key
    · have same : index.get k = index.get key := by simp only [CaseInsensitiveMap.get,here]
      simp only [listedIds,CaseInsensitiveMap.get_set,here,same]
      simp [listed]
    · simp [listedIds,CaseInsensitiveMap.get_set,here]

theorem listedIds_prefix (index : CaseInsensitiveMap (List String)) (key symbolId k : String) :
    listedIds index k <+: listedIds (pushId index key symbolId) k := by
  rw [listedIds_pushId]
  split
  next => exact List.prefix_append _ _
  next => exact List.prefix_refl _

theorem mem_listedIds_pushId {index : CaseInsensitiveMap (List String)} {key symbolId k listed : String}
    (member : listed ∈ listedIds (pushId index key symbolId) k) : listed ∈ listedIds index k ∨ listed = symbolId := by
  rw [listedIds_pushId] at member
  split at member
  next => simpa using member
  next => exact .inl member

theorem mem_listedIds_pushId_self (index : CaseInsensitiveMap (List String)) (key symbolId : String) :
    symbolId ∈ listedIds (pushId index key symbolId) key := by
  rw [listedIds_pushId]
  by_cases listed : symbolId ∈ listedIds index key
  · simp [listed]
  · simp [listed]

theorem listedIds_kept {index : CaseInsensitiveMap (List String)} {key symbolId k : String}
    (listed : toLowerCase k = toLowerCase key → symbolId ∈ listedIds index k) :
    listedIds (pushId index key symbolId) k = listedIds index k := by
  rw [listedIds_pushId,if_neg]
  rintro ⟨here,absent⟩
  apply absent
  have same : listedIds index key = listedIds index k := by simp only [listedIds,CaseInsensitiveMap.get,here]
  exact same ▸ listed here

theorem listedIds_withoutId (index : CaseInsensitiveMap (List String)) (symbolId k : String) :
    listedIds (index.filterMap (withoutId symbolId)) k = (listedIds index k).filter (· ≠ symbolId) := by
  simp only [listedIds,CaseInsensitiveMap.get_filterMap]
  cases index.get k with
  | none => rfl
  | some ids =>
    simp only [Option.bind_some,withoutId,Option.getD_some]
    split
    next nothing => rw [nothing,Option.getD_none]
    next => rfl

/-- The objects and the tables are still the parser's, and whatever the indexes by name list is
bound to a symbol and listed for a file. -/
structure Tidy (heap : Heap) (g : SymbolGraph) : Prop where
  rigid : Rigid heap g.heap
  keyed : ∀ t, Keyed heap (g.tables t)
  named : ∀ name, ∀ id ∈ listedIds g.nameIndex name, ∃ s, g.symbolIdIndex.get? id = some s
  qualified : ∀ fqn, ∀ id ∈ listedIds g.fqnIndex fqn, ∃ s, g.symbolIdIndex.get? id = some s
  filed : ∀ name, isApexKeyword name = false → ∀ id ∈ listedIds g.nameIndex name, ∃ file, id ∈ listedIds g.fileIndex file

/-- What may have happened to the indexes when at most the symbols of `new` came in. -/
structure Grows (heap : Heap) (new : List Ref) (g g' : SymbolGraph) : Prop where
  tidy : Tidy heap g'
  known : ∀ id s, g.symbolIdIndex.get? id = some s → g'.symbolIdIndex.get? id = some s
  /-- The ids of a name change only where one of the symbols has the name and is not listed. -/
  names : ∀ name, isApexKeyword name = false →
    (∀ s ∈ new, (heap s).isBlockSymbol = false → toLowerCase (heap s).name = toLowerCase name →
      (heap s).id ∈ listedIds g.nameIndex name) →
    listedIds g'.nameIndex name = listedIds g.nameIndex name
  fqns : ∀ fqn, listedIds g.fqnIndex fqn <+: listedIds g'.fqnIndex fqn
  listed : ∀ name, isApexKeyword name = false → ∀ id ∈ listedIds g'.nameIndex name,
    id ∈ listedIds g.nameIndex name ∨ ∃ s ∈ new, (heap s).id = id
  files : ∀ file, ∀ id ∈ listedIds g'.fileIndex file, id ∈ listedIds g.fileIndex file ∨ ∃ s ∈ new, (heap s).id = id

structure Drops (ids : List String) (g g' : SymbolGraph) : Prop where
  heap : g'.heap = g.heap
  tables : g'.tables = g.tables
  known : ∀ id, g'.symbolIdIndex.get? id = if id ∈ ids then none else g.symbolIdIndex.get? id
  names : ∀ name, listedIds g'.nameIndex name = (listedIds g.nameIndex name).filter (· ∉ ids)
  fqns : ∀ fqn, listedIds g'.fqnIndex fqn = (listedIds g.fqnIndex fqn).filter (· ∉ ids)
  files : ∀ file, ∀ id ∈ listedIds g.fileIndex file, id ∈ ids ∨ id ∈ listedIds g'.fileIndex file

namespace Grows

variable {heap : Heap} {new : List Ref} {g g' g'' : SymbolGraph}

theorem refl (tidy : Tidy heap g) : Grows heap new g g :=
  ⟨tidy,fun _ _ => id,fun _ _ _ => rfl,fun _ => List.prefix_refl _,fun _ _ _ => .inl,fun _ _ => .inl⟩

theorem trans (first : Grows heap new g g') (second : Grows heap new g' g'') : Grows heap new g g'' where
  tidy := second.tidy
  known id s bound := second.known id s (first.known id s bound)
  names name identifier listed := by
    have same := first.names name identifier listed
    refine (second.names name identifier fun s member semantic named => ?_).trans same
    rw [same]
    exact listed s member semantic named
  fqns fqn := (first.fqns fqn).trans (second.fqns fqn)
  listed name identifier id member := by
    rcases second.listed name identifier id member with early | late
    · exact first.listed name identifier id early
    · exact .inr late
  files file id member := by
    rcases second.files file id member with early | late
    · exact first.files file id early
    · exact .inr late

theorem of_same (tidy : Tidy heap g) (rigid : Rigid heap g'.heap) (keyed : ∀ t, Keyed heap (g'.tables t))
    (ids : g'.symbolIdIndex = g.symbolIdIndex) (names : g'.nameIndex = g.nameIndex) (fqns : g'.fqnIndex = g.fqnIndex)
    (files : g'.fileIndex = g.fileIndex) : Grows heap new g g' where
  tidy := by
    refine ⟨rigid,keyed,?_,?_,?_⟩
    · rw [names,ids]
      exact tidy.named
    · rw [fqns,ids]
      exact tidy.qualified
    · rw [names,files]
      exact tidy.filed
  known id s bound := by rw [ids,bound]
  names _ _ _ := by rw [names]
  fqns fqn := ⟨[],by rw [fqns,List.append_nil]⟩
  listed name _ id member := .inl (by rwa [names] at member)
  files file id member := .inl (by rwa [files] at member)

theorem of_sameSymbols (tidy : Tidy heap g) (same : SameSymbols g g') : Grows heap new g g' where
  tidy := by
    refine ⟨?_,?_,?_,?_,?_⟩
    · rw [same.heap]
      exact tidy.rigid
    · rw [same.tables]
      exact tidy.keyed
    · intro name id listed
      rw [same.nameIndex] at listed
      obtain ⟨s,bound⟩ := tidy.named name id listed
      exact ⟨s,same.known id s bound⟩
    · intro fqn id listed
      rw [same.fqnIndex] at listed
      obtain ⟨s,bound⟩ := tidy.qualified fqn id listed
      exact ⟨s,same.known id s bound⟩
    · rw [same.nameIndex,same.fileIndex]
      exact tidy.filed
  known := same.known
  names _ _ _ := by rw [same.nameIndex]
  fqns fqn := ⟨[],by rw [same.fqnIndex,List.append_nil]⟩
  listed name _ id member := .inl (by rwa [same.nameIndex] at member)
  files file id member := .inl (by rwa [same.fileIndex] at member)

theorem put (tidy : Tidy heap g) {s : ApexSymbol} (same : SameIdentity (g.heap r) s) :
    Grows heap new g { g with heap := g.heap.put r s } :=
  of_same tidy (tidy.rigid.put same) tidy.keyed rfl rfl rfl rfl

theorem setTable (tidy : Tidy heap g) {heap' : Heap} (rigid : Rigid heap heap') (t : TableRef) {table : SymbolTable}
    (keyed : Keyed heap table) : Grows heap new g ({ g with heap := heap' }.setTable t table) := by
  refine of_same tidy rigid (fun r => ?_) rfl rfl rfl rfl
  by_cases this : r = t
  · subst this
    simpa [SymbolGraph.setTable] using keyed
  · simpa [SymbolGraph.setTable,this] using tidy.keyed r

end Grows

namespace Drops

theorem refl (g : SymbolGraph) : Drops [] g g := ⟨rfl,rfl,by simp,by simp,by simp,fun _ _ => .inr⟩

theorem tidy {heap : Heap} {g g' : SymbolGraph} (drops : Drops ids g g') (tidy : Tidy heap g) : Tidy heap g' := by
  have bound : ∀ {listed listed' : List String}, listed' = listed.filter (· ∉ ids) →
      (∀ id ∈ listed, ∃ s, g.symbolIdIndex.get? id = some s) → ∀ id ∈ listed', ∃ s, g'.symbolIdIndex.get? id = some s := by
    rintro listed _ rfl known id member
    obtain ⟨old,stays⟩ := List.mem_filter.mp member
    rw [drops.known,if_neg (by simpa using stays)]
    exact known id old
  refine ⟨?_,?_,?_,?_,?_⟩
  · rw [drops.heap]
    exact tidy.rigid
  · rw [drops.tables]
    exact tidy.keyed
  · exact fun name => bound (drops.names name) (tidy.named name)
  · exact fun fqn => bound (drops.fqns fqn) (tidy.qualified fqn)
  · intro name identifier id member
    rw [drops.names] at member
    obtain ⟨old,stays⟩ := List.mem_filter.mp member
    obtain ⟨file,listed⟩ := tidy.filed name identifier id old
    rcases drops.files file id listed with gone | kept
    · exact absurd gone (by simpa using stays)
    · exact ⟨file,kept⟩

end Drops

omit [Runtime] in
theorem withFqn_sameIdentity (s : ApexSymbol) (fqn : String) : SameIdentity s (withFqn s fqn) := by
  unfold withFqn
  split
  next => exact .refl s
  next => exact ⟨rfl,rfl,rfl,rfl⟩

theorem markStandardClass_sameIdentity (fileUri : String) (s : ApexSymbol) :
    SameIdentity s (markStandardClass fileUri s) := by
  unfold markStandardClass
  split
  next => exact ⟨rfl,rfl,rfl,rfl⟩
  next => exact .refl s

theorem registerSymbolTable_grows {heap : Heap} {new : List Ref} {g : SymbolGraph} (named : Named heap) (tidy : Tidy heap g)
    (t : TableRef) (fileUri : String) (options : RegistrationOptions) :
    Grows heap new g (g.registerSymbolTable t fileUri options).2 := by
  have incoming : Keyed heap ((g.table t).setFileUri (extractFilePathFromUri fileUri)) :=
    ⟨(tidy.keyed t).declared,(tidy.keyed t).single⟩
  rcases registerSymbolTable_cases g t fileUri options with same | noted | ⟨merged,table',from_,filled,registered⟩
  · rw [same]
    exact .refl tidy
  · rw [noted]
    exact .setTable tidy tidy.rigid t incoming
  · have merged_ : Rigid heap merged.1 ∧ Keyed heap merged.2 := by
      rcases from_ with rfl | ⟨existing,_,rfl⟩
      · exact ⟨tidy.rigid,incoming⟩
      · exact mergeSymbols_keyed named tidy.rigid incoming (tidy.keyed existing)
    obtain ⟨rigid,keyed⟩ := merged_
    have filled' : Keyed heap table' := by
      rcases filled with rfl | ⟨existing,rfl⟩
      · exact keyed
      · obtain ⟨_,_,_,referenced⟩ := mergeTypeReferences_eq merged.2 existing
        rw [referenced]
        exact ⟨keyed.declared,keyed.single⟩
    have set : Grows heap new g ({ g with heap := merged.1 }.setTable t table') := .setTable tidy rigid t filled'
    rw [registered]
    exact .of_same tidy rigid set.tidy.keyed rfl rfl rfl rfl

theorem getSymbol_grows {heap : Heap} {new : List Ref} {g : SymbolGraph} (tidy : Tidy heap g) (symbolId : String) :
    Grows heap new g (g.getSymbol symbolId).2 := by
  obtain ⟨g',found,after⟩ := getSymbol_spec g symbolId
  rw [found]
  exact .of_sameSymbols tidy after.toSameSymbols

theorem namesAbove_memoised (symbolId : String) (depth : Nat) (visitedIds : List String) (parentId : ParentId)
    (parts : List String) (g : SymbolGraph) :
    Memoised g (namesAbove symbolId depth visitedIds parentId parts g).2 := by
  induction depth generalizing visitedIds parentId parts g with
  | zero => exact .refl g
  | succ depth ih =>
    cases parentId with
    | of currentParentId =>
      simp only [namesAbove]
      split
      next => exact .refl g
      next =>
        obtain ⟨g',found,after⟩ := getSymbol_spec g currentParentId
        rw [found]
        cases g.resolve currentParentId with
        | none => exact after
        | some parent =>
          simp only
          split
          next => exact after
          next => exact after.trans (ih _ _ _ g')
    | undefined => exact .refl g
    | null => exact .refl g

section

variable {heap : Heap} {new : List Ref} {g : SymbolGraph}

theorem qualify_grows (tidy : Tidy heap g) (symbol : Ref) :
    Grows heap new g (g.qualify symbol) := by
  unfold qualify
  split
  next => exact .refl tidy
  next =>
    have looked := (namesAbove_memoised (g.heap symbol).id 20 [(g.heap symbol).id] (g.heap symbol).parentId
      [(g.heap symbol).name] g).toSameSymbols
    have grown : Grows heap new g _ := .of_sameSymbols tidy looked
    exact grown.trans (.put grown.tidy ⟨rfl,rfl,rfl,rfl⟩)

theorem addSymbolToTable_grows (named : Named heap) (tidy : Tidy heap g)
    (t : TableRef) (n : Nat) :
    Grows heap new g ({ g with heap := ((g.table t).addSymbol g.heap (.declared n)).1 }.setTable t
      ((g.table t).addSymbol g.heap (.declared n)).2) :=
  .setTable tidy (tidy.rigid.addSymbol named (tidy.keyed t) n) t ((tidy.keyed t).addSymbol tidy.rigid n)

theorem fileSymbol_grows (named : Named heap) (tidy : Tidy heap g)
    (t : TableRef) (n : Nat) : Grows heap new g (g.fileSymbol t (.declared n)) := by
  unfold fileSymbol
  split
  next => exact addSymbolToTable_grows named tidy t n
  next => exact .refl tidy

theorem addToTable_grows (named : Named heap) (tidy : Tidy heap g)
    (t : TableRef) (n : Nat) : Grows heap new g (g.addToTable t (.declared n)) := by
  have added : Grows heap new g _ := addSymbolToTable_grows named tidy t n
  exact added.trans (.put added.tidy (withFqn_sameIdentity _ _))

end

theorem indexSymbol_bound (g : SymbolGraph) (symbol : Ref) (symbolId file : String) :
    ∃ s, (g.indexSymbol symbol symbolId file).symbolIdIndex.get? symbolId = some s := by
  simp only [indexSymbol]
  cases present : g.symbolIdIndex.has symbolId with
  | false => exact ⟨symbol,by simp⟩
  | true => simpa using OrderedMap.has_iff.mp present

theorem indexSymbol_grows {heap : Heap} {new : List Ref} {g : SymbolGraph} (tidy : Tidy heap g) {n : Nat}
    (member : .declared n ∈ new) (file : String) :
    Grows heap new g (g.indexSymbol (.declared n) (heap (.declared n)).id file) := by
  have bound := g.indexSymbol_bound (.declared n) (heap (.declared n)).id file
  have known : ∀ id s, g.symbolIdIndex.get? id = some s →
      (g.indexSymbol (.declared n) (heap (.declared n)).id file).symbolIdIndex.get? id = some s := by
    intro id s old
    simp only [indexSymbol]
    cases present : g.symbolIdIndex.has (heap (.declared n)).id with
    | false =>
      have apart : id ≠ (heap (.declared n)).id := by
        rintro rfl
        simp [OrderedMap.has,old] at present
      simpa [apart] using old
    | true => simpa using old
  have pushed : ∀ {index : CaseInsensitiveMap (List String)} {key k id : String},
      (∀ id ∈ listedIds index k, ∃ s, g.symbolIdIndex.get? id = some s) →
      id ∈ listedIds (pushId index key (heap (.declared n)).id) k →
      ∃ s, (g.indexSymbol (.declared n) (heap (.declared n)).id file).symbolIdIndex.get? id = some s := by
    intro index key k id old listed
    rcases mem_listedIds_pushId listed with before | rfl
    · obtain ⟨s,was⟩ := old id before
      exact ⟨s,known id s was⟩
    · exact bound
  have newly : ∀ {name id : String}, id ∈ listedIds (g.indexSymbol (.declared n) (heap (.declared n)).id file).nameIndex name →
      id ∈ listedIds g.nameIndex name ∨ id = (heap (.declared n)).id := by
    intro name id listed
    simp only [indexSymbol] at listed
    split at listed
    next => exact mem_listedIds_pushId listed
    next => exact .inl listed
  refine ⟨⟨tidy.rigid,tidy.keyed,fun name id listed => ?_,fun fqn id listed => ?_,fun name identifier id listed => ?_⟩,known,
    fun name _ listed => ?_,fun fqn => ?_,fun name _ id listed => ?_,fun k id listed => ?_⟩
  · rcases newly listed with before | rfl
    · obtain ⟨s,was⟩ := tidy.named name id before
      exact ⟨s,known id s was⟩
    · exact bound
  · simp only [indexSymbol] at listed
    split at listed
    next => exact pushed (tidy.qualified fqn) listed
    next =>
      obtain ⟨s,was⟩ := tidy.qualified fqn id listed
      exact ⟨s,known id s was⟩
  · rcases newly listed with before | rfl
    · obtain ⟨home,filed⟩ := tidy.filed name identifier id before
      exact ⟨home,List.IsPrefix.subset ( listedIds_prefix _ _ _ _) filed⟩
    · exact ⟨file,mem_listedIds_pushId_self _ _ _⟩
  · simp only [indexSymbol]
    split
    next semantic =>
      apply listedIds_kept
      intro here
      rw [tidy.rigid.name] at here
      refine listed _ member ?_ here.symm
      rw [← tidy.rigid.block]
      simpa using semantic
    next => rfl
  · simp only [indexSymbol]
    split
    next => exact listedIds_prefix _ _ _ _
    next => exact List.prefix_refl _
  · rcases newly listed with before | rfl
    · exact .inl before
    · exact .inr ⟨_,member,rfl⟩
  · rcases mem_listedIds_pushId listed with before | rfl
    · exact .inl before
    · exact .inr ⟨_,member,rfl⟩

theorem addSymbol_grows {heap : Heap} {new : List Ref} {g : SymbolGraph} (named : Named heap) (tidy : Tidy heap g)
    (fileUri : String) (t : TableRef) {n : Nat} (member : .declared n ∈ new) :
    Grows heap new g (g.addSymbol (.declared n) fileUri (some t)) := by
  have symbolId : getSymbolId (g.heap (.declared n)) (extractFilePathFromUri fileUri) = (heap (.declared n)).id := by
    rw [getSymbolId,if_pos (tidy.rigid.synchronized n).nonempty,tidy.rigid.id]
  simp only [addSymbol,symbolId,Option.some_or]
  have registered : Grows heap new g _ := registerSymbolTable_grows named tidy t (extractFilePathFromUri fileUri) {}
  have filed := registered.trans (addToTable_grows named registered.tidy t n)
  have indexed := filed.trans (indexSymbol_grows filed.tidy member (extractFilePathFromUri fileUri))
  exact indexed.trans (.put indexed.tidy (markStandardClass_sameIdentity fileUri _))

theorem synchronizeWithKey_sameIdentity {s : ApexSymbol} (sync : Synchronized s) (properUri : String) :
    SameIdentity s (synchronizeWithKey properUri s) := by
  have keyed : truthy s.key.unifiedId = true := sync.truthy
  unfold synchronizeWithKey
  rw [if_pos keyed]
  exact ⟨by simp [sync.keyed],rfl,rfl,rfl⟩

/-- The graph with a symbol brought in line with its key and qualified, as the manager begins. -/
def qualifiedWithKey (g : SymbolGraph) (symbol : Ref) (properUri : String) : SymbolGraph :=
  { g with heap := g.heap.put symbol (synchronizeWithKey properUri (g.heap symbol)) }.qualify symbol

section

variable {heap : Heap} {new : List Ref} {g : SymbolGraph}

theorem qualifiedWithKey_grows (tidy : Tidy heap g) (n : Nat)
    (properUri : String) : Grows heap new g (g.qualifiedWithKey (.declared n) properUri) := by
  have synchronized : Grows heap new g
      { g with heap := g.heap.put (.declared n) (synchronizeWithKey properUri (g.heap (.declared n))) } :=
    .put tidy (synchronizeWithKey_sameIdentity (tidy.rigid.synchronized n) properUri)
  exact synchronized.trans (qualify_grows synchronized.tidy _)

theorem manageSymbol_grows (named : Named heap) (tidy : Tidy heap g)
    {n : Nat} (member : .declared n ∈ new) (fileUri : String) (t : TableRef) :
    Grows heap new g (g.manageSymbol (.declared n) fileUri t) := by
  have qualified : Grows heap new g _ := qualifiedWithKey_grows tidy n (createFileUri fileUri)
  have looked := qualified.trans (getSymbol_grows qualified.tidy
    (unifiedIdOf ((g.qualifiedWithKey (.declared n) (createFileUri fileUri)).heap (.declared n))))
  have filed := looked.trans (fileSymbol_grows named looked.tidy t n)
  exact filed.trans (addSymbol_grows named filed.tidy (createFileUri fileUri) t member)

theorem insertSymbol_grows (named : Named heap) (tidy : Tidy heap g)
    {n : Nat} (member : .declared n ∈ new) (normalizedUri : String) (t : TableRef) :
    Grows heap new g (g.insertSymbol normalizedUri t (.declared n)) := by
  have located : Grows heap new g
      { g with heap := g.heap.put (.declared n) { g.heap (.declared n) with fileUri := normalizedUri } } :=
    .put tidy ⟨rfl,rfl,rfl,rfl⟩
  exact located.trans (manageSymbol_grows named located.tidy member normalizedUri t)

theorem insertSymbols_grows (named : Named heap) (tidy : Tidy heap g)
    (normalizedUri : String) (t : TableRef) {symbols : List Ref} (within : symbols ⊆ new)
    (declared : ∀ s ∈ symbols, ∃ n, s = .declared n) :
    Grows heap new g (symbols.foldl (insertSymbol normalizedUri t) g) := by
  induction symbols generalizing g with
  | nil => exact .refl tidy
  | cons s rest ih =>
    obtain ⟨n,rfl⟩ := declared s List.mem_cons_self
    have first := insertSymbol_grows named tidy (within List.mem_cons_self) normalizedUri t
    refine first.trans (ih first.tidy ?_ ?_)
    · exact fun s member => within (List.mem_cons_of_mem _ member)
    · exact fun s member => declared s (List.mem_cons_of_mem _ member)

theorem clearReferenceStateForFile_grows (tidy : Tidy heap g)
    (fileUri : String) : Grows heap new g (g.clearReferenceStateForFile fileUri) :=
  .of_same tidy tidy.rigid tidy.keyed rfl rfl rfl rfl

theorem tableForFile_grows (named : Named heap) (tidy : Tidy heap g)
    (properUri : String) : Grows heap new g (g.tableForFile properUri).2 := by
  unfold tableForFile
  split
  next => exact .refl tidy
  next =>
    have counted : Grows heap new g { g with ensured := g.ensured + 1 } :=
      .of_same tidy tidy.rigid tidy.keyed rfl rfl rfl rfl
    have empty : Keyed heap (SymbolTable.setMetadata {} { fileUri := properUri }) :=
      ⟨by simp [heldSymbols,SymbolTable.setMetadata,OrderedMap.empty],by simp [SymbolTable.setMetadata]⟩
    have made : Grows heap new { g with ensured := g.ensured + 1 } _ :=
      .setTable counted.tidy tidy.rigid (.ensured g.ensured) empty
    have grown := counted.trans made
    exact grown.trans (registerSymbolTable_grows named grown.tidy _ properUri {})

theorem normalizeSource_grows (tidy : Tidy heap g) (source : Ref) :
    Grows heap new g (g.normalizeSource source) := .put tidy ⟨rfl,rfl,rfl,rfl⟩

end

theorem addDeferredReference_sameSymbols (g : SymbolGraph) (name : String) (deferred : DeferredReference) :
    SameSymbols g (g.addDeferredReference name deferred) := by
  unfold addDeferredReference
  split
  next => exact .refl g
  next => exact ⟨rfl,rfl,rfl,rfl,rfl,rfl,rfl,rfl,fun _ => rfl,fun _ _ => id⟩

theorem addReferenceToGraph_sameSymbols (g : SymbolGraph) (source target : Ref) (targetSymbolId : String)
    (referenceType : ReferenceType) (location : SymbolLocation) (context : Option ReferenceContext) :
    SameSymbols g (g.addReferenceToGraph source target targetSymbolId referenceType location context) := by
  simp only [addReferenceToGraph]
  split
  next => exact .refl g
  next =>
    obtain ⟨g',looked,after⟩ := findSymbolInFileByName_spec g (extractFilePathFromUri (g.heap source).fileUri)
      (g.heap source).name
    simp only [looked]
    cases g.firstNamed (extractFilePathFromUri (g.heap source).fileUri) (g.heap source).name with
    | none => exact after.toSameSymbols
    | some s => exact after.toSameSymbols.trans ⟨rfl,rfl,rfl,rfl,rfl,rfl,rfl,rfl,fun _ => rfl,fun _ _ => id⟩

section

variable {heap : Heap} {new : List Ref} {g : SymbolGraph} (tables : NameTables) (named : Named heap) (tidy : Tidy heap g)
include tables named tidy

theorem addVirtualSymbol_grows (target : Ref) {virtualSymbolId : String} (semantic : (g.heap target).isBlockSymbol = false)
    (scalar : (g.heap target).name = "void" ∨ (g.heap target).name = "null")
    (unknown : g.symbolIdIndex.has virtualSymbolId = false) :
    Grows heap new g (g.addVirtualSymbol target virtualSymbolId) := by
  have known : ∀ id s, g.symbolIdIndex.get? id = some s →
      (g.addVirtualSymbol target virtualSymbolId).symbolIdIndex.get? id = some s := by
    intro id s old
    have apart : id ≠ virtualSymbolId := by
      rintro rfl
      simp [OrderedMap.has,old] at unknown
    simpa [addVirtualSymbol,apart] using old
  have bound : (g.addVirtualSymbol target virtualSymbolId).symbolIdIndex.get? virtualSymbolId =
      some (.scalar virtualSymbolId) := OrderedMap.get?_set_self _ _ _
  have pushed : ∀ {index : CaseInsensitiveMap (List String)} {key k id : String},
      (∀ id ∈ listedIds index k, ∃ s, g.symbolIdIndex.get? id = some s) →
      id ∈ listedIds (pushId index key virtualSymbolId) k →
      ∃ s, (g.addVirtualSymbol target virtualSymbolId).symbolIdIndex.get? id = some s := by
    intro index key k id old listed
    rcases mem_listedIds_pushId listed with before | rfl
    · obtain ⟨s,was⟩ := old id before
      exact ⟨s,known id s was⟩
    · exact ⟨_,bound⟩
  -- the keyword it is filed under is no name that a lookup looks for
  have kept : ∀ name, isApexKeyword name = false →
      listedIds (g.addVirtualSymbol target virtualSymbolId).nameIndex name = listedIds g.nameIndex name := by
    intro name identifier
    apply listedIds_kept
    intro here
    have keyword : isApexKeyword (g.heap target).name = true := by
      rcases scalar with void | null
      · rw [void]
        exact tables.void
      · rw [null]
        exact tables.null
    rw [tables.isApexKeyword_lower here,keyword] at identifier
    cases identifier
  refine ⟨⟨?_,tidy.keyed,fun name id listed => ?_,fun fqn id listed => ?_,fun name identifier id listed => ?_⟩,known,
    fun name identifier _ => kept name identifier,fun fqn => ?_,fun name identifier id listed => ?_,fun _ _ => .inl⟩
  · exact tidy.rigid.putScalar named semantic
  · exact pushed (tidy.named name) listed
  · simp only [addVirtualSymbol] at listed
    split at listed
    next => exact pushed (tidy.qualified fqn) listed
    next =>
      obtain ⟨s,was⟩ := tidy.qualified fqn id listed
      exact ⟨s,known id s was⟩
  · rw [kept name identifier] at listed
    exact tidy.filed name identifier id listed
  · simp only [addVirtualSymbol]
    split
    next => exact listedIds_prefix _ _ _ _
    next => exact List.prefix_refl _
  · rw [kept name identifier] at listed
    exact .inl listed

theorem createVirtualSymbol_grows {target : Ref} (semantic : (g.heap target).isBlockSymbol = false)
    (scalar : isStdlibScalarKeyword (g.heap target) = true) (source : Ref) (referenceType : ReferenceType)
    (location : SymbolLocation) (context : Option ReferenceContext) :
    Grows heap new g (g.createVirtualSymbolForStdlibScalarKeyword target source referenceType location context) := by
  have name : (g.heap target).name = "void" ∨ (g.heap target).name = "null" := by
    unfold isStdlibScalarKeyword at scalar
    simp only [Bool.and_eq_true,Bool.or_eq_true,decide_eq_true_eq] at scalar
    exact scalar.2
  simp only [createVirtualSymbolForStdlibScalarKeyword]
  split
  next => exact .of_sameSymbols tidy (addReferenceToGraph_sameSymbols g source target _ referenceType location context)
  next unknown =>
    have made : Grows heap new g _ := addVirtualSymbol_grows tables named tidy target semantic name (by simpa using unknown)
    exact made.trans (.of_sameSymbols made.tidy (addReferenceToGraph_sameSymbols _ source target _ referenceType location
      context))

theorem issueReference_grows (source target : Ref) (semantic : (g.heap target).isBlockSymbol = false)
    (referenceType : ReferenceType) (location : SymbolLocation) (context : Option ReferenceContext) :
    Grows heap new g (g.issueReference source target referenceType location context) := by
  obtain ⟨g₁,foundSource,first⟩ := findInGraph_spec g (g.heap source)
  obtain ⟨g₂,foundTarget,second⟩ := findTarget_spec g₁ (g₁.heap target)
  have same := (first.trans second).toSameSymbols
  have looked : Grows heap new g g₂ := .of_sameSymbols tidy same
  simp only [issueReference,foundSource,foundTarget]
  split
  next s t _ _ => exact looked.trans (.of_sameSymbols looked.tidy (addEdge_sameSymbols g₂ s t referenceType location context))
  next =>
    have waits := addDeferredReference_sameSymbols g₂ (g₂.heap target).name
      ⟨source,referenceType,location,targetHint (g₂.heap target),context⟩
    have deferred := looked.trans (.of_sameSymbols looked.tidy waits)
    split
    next scalar =>
      refine deferred.trans (createVirtualSymbol_grows tables named deferred.tidy ?_ ?_ source referenceType location context)
      · rw [waits.heap,same.heap]
        exact semantic
      · exact scalar
    next => exact deferred

theorem addReference_grows (source target : Ref) (referenceType : ReferenceType) (location : SymbolLocation)
    (context : Option ReferenceContext) :
    Grows heap new g (g.addReference source target referenceType location context) := by
  have normalized : Grows heap new g _ := normalizeSource_grows tidy source
  simp only [addReference]
  split
  next => exact .refl tidy
  next =>
    split
    next => exact normalized
    next semantic =>
      split
      next => exact normalized
      next s _ =>
        exact normalized.trans (issueReference_grows tables named normalized.tidy s target (by simpa using semantic)
          referenceType location context)

end

theorem enqueueDeferredReference_grows {heap : Heap} {new : List Ref} {g : SymbolGraph} (tidy : Tidy heap g) (source : Ref)
    (targetSymbolName : String) (referenceType : ReferenceType) (location : SymbolLocation)
    (context : Option ReferenceContext) (targetFileUri : Option String) :
    Grows heap new g (g.enqueueDeferredReference source targetSymbolName referenceType location context targetFileUri) := by
  have normalized : Grows heap new g _ := normalizeSource_grows tidy source
  simp only [enqueueDeferredReference]
  split
  next => exact .refl tidy
  next =>
    split
    next => exact normalized
    next => exact normalized.trans (.of_sameSymbols normalized.tidy (addDeferredReference_sameSymbols _ _ _))

theorem overReferences_grows {heap : Heap} {new : List Ref} {g : SymbolGraph} (tables : NameTables) (named : Named heap)
    (tidy : Tidy heap g) {c : GraphCall} (only : c.overReferences = true) : Grows heap new g (g.call c) := by
  cases c with
  | addReference source target referenceType location context =>
    exact addReference_grows tables named tidy source target referenceType location context
  | enqueueDeferredReference source name referenceType location context targetFileUri =>
    exact enqueueDeferredReference_grows tidy source name referenceType location context targetFileUri
  | drainAllDeferredReferences => exact .of_sameSymbols tidy (drainAllDeferredReferencesSync_spec g).1.toSameSymbols
  | processDeferredReferencesBatch name size =>
    obtain ⟨r,g',batched,drained,_⟩ := processDeferredReferencesBatch_spec g name size
    simp only [call,batched]
    exact .of_sameSymbols tidy drained.toSameSymbols
  | getSymbol symbolId => exact getSymbol_grows tidy symbolId
  | findSymbolByName name =>
    obtain ⟨g',found,after⟩ := findSymbolByName_spec g name
    simp only [call,found]
    exact .of_sameSymbols tidy after.toSameSymbols
  | _ => cases only

theorem forgetSymbol_drops (normalizedUri : String) (g : SymbolGraph) (symbolId : String) :
    Drops [symbolId] g (g.forgetSymbol normalizedUri symbolId) where
  heap := rfl
  tables := rfl
  known id := by simp [forgetSymbol,OrderedMap.get?_erase]
  names name := by
    rw [forgetSymbol,listedIds_withoutId]
    simp
  fqns fqn := by
    rw [forgetSymbol,listedIds_withoutId]
    simp
  files _ _ := .inr

theorem Drops.trans {ids ids' : List String} {g g' g'' : SymbolGraph} (first : Drops ids g g') (second : Drops ids' g' g'') :
    Drops (ids ++ ids') g g'' where
  heap := second.heap.trans first.heap
  tables := second.tables.trans first.tables
  known id := by
    rw [second.known,first.known]
    by_cases late : id ∈ ids'
    · simp [late]
    · simp [late]
  names name := by
    rw [second.names,first.names,List.filter_filter]
    apply List.filter_congr
    intro id _
    simp [Bool.and_comm]
  fqns fqn := by
    rw [second.fqns,first.fqns,List.filter_filter]
    apply List.filter_congr
    intro id _
    simp [Bool.and_comm]
  files file id listed := by
    rcases first.files file id listed with gone | kept
    · exact .inl (List.mem_append_left _ gone)
    · exact (second.files file id kept).imp_left (List.mem_append_right _)

theorem forgetSymbols_drops (normalizedUri : String) (g : SymbolGraph) (symbolIds : List String) :
    Drops symbolIds g (symbolIds.foldl (forgetSymbol normalizedUri) g) := by
  induction symbolIds generalizing g with
  | nil => exact .refl g
  | cons symbolId rest ih => exact (forgetSymbol_drops normalizedUri g symbolId).trans (ih _)

theorem forgetSymbols_fileIndex (normalizedUri : String) (g : SymbolGraph) (symbolIds : List String) :
    (symbolIds.foldl (forgetSymbol normalizedUri) g).fileIndex = g.fileIndex := by
  induction symbolIds generalizing g with
  | nil => rfl
  | cons symbolId rest ih => exact ih (g.forgetSymbol normalizedUri symbolId)

theorem removeFile_drops (g : SymbolGraph) (fileUri : String) :
    Drops (listedIds g.fileIndex (extractFilePathFromUri fileUri)) g (g.removeFile fileUri) := by
  unfold removeFile
  extract_lets normalizedUri symbolIds refs forgotten
  have drops : Drops symbolIds { g with refs := refs } forgotten := forgetSymbols_drops normalizedUri _ symbolIds
  refine ⟨drops.heap,drops.tables,drops.known,drops.names,drops.fqns,fun file id listed => ?_⟩
  by_cases here : toLowerCase file = toLowerCase normalizedUri
  · left
    simpa only [listedIds,CaseInsensitiveMap.get,here] using listed
  · right
    have others : forgotten.fileIndex = g.fileIndex := forgetSymbols_fileIndex _ _ _
    change id ∈ listedIds (forgotten.fileIndex.delete normalizedUri) file
    rw [listedIds,CaseInsensitiveMap.get_delete,if_neg here,others]
    exact listed

def staleIds (g : SymbolGraph) (fileUri : String) (liveSymbolIds : List String) : List String :=
  (listedIds g.fileIndex (extractFilePathFromUri fileUri)).filter (· ∉ liveSymbolIds)

theorem evictStaleFileDeclarations_files (g : SymbolGraph) (fileUri : String) (liveSymbolIds : List String) (file : String) :
    listedIds (g.evictStaleFileDeclarations fileUri liveSymbolIds).fileIndex file =
      if toLowerCase file = toLowerCase (extractFilePathFromUri fileUri) then
        (listedIds g.fileIndex file).filter (· ∈ liveSymbolIds)
      else listedIds g.fileIndex file := by
  have here : toLowerCase file = toLowerCase (extractFilePathFromUri fileUri) →
      listedIds g.fileIndex file = listedIds g.fileIndex (extractFilePathFromUri fileUri) := by
    intro same
    simp only [listedIds,CaseInsensitiveMap.get,same]
  unfold evictStaleFileDeclarations
  extract_lets normalizedUri previousIds stale refs forgotten remaining
  split
  next nothing =>
    split
    next same =>
      rw [here same]
      symm
      rw [List.filter_eq_self]
      intro id listed
      have live := List.filter_eq_nil_iff.mp nothing id listed
      simpa using live
    next => rfl
  next =>
    have others : forgotten.fileIndex = g.fileIndex := forgetSymbols_fileIndex _ _ _
    change listedIds (if remaining = [] then forgotten.fileIndex.delete normalizedUri
      else forgotten.fileIndex.set normalizedUri remaining) file = _
    rw [others]
    by_cases same : toLowerCase file = toLowerCase normalizedUri
    · rw [if_pos same,here same]
      change _ = remaining
      by_cases nothing : remaining = []
      · simp [nothing,listedIds,CaseInsensitiveMap.get_delete,same]
      · simp [nothing,listedIds,CaseInsensitiveMap.get_set,same]
    · rw [if_neg same]
      by_cases nothing : remaining = []
      · simp [nothing,listedIds,CaseInsensitiveMap.get_delete,same]
      · simp [nothing,listedIds,CaseInsensitiveMap.get_set,same]

theorem evictStaleFileDeclarations_drops (g : SymbolGraph) (fileUri : String) (liveSymbolIds : List String) :
    Drops (g.staleIds fileUri liveSymbolIds) g (g.evictStaleFileDeclarations fileUri liveSymbolIds) := by
  have files : ∀ file, ∀ id ∈ listedIds g.fileIndex file, id ∈ g.staleIds fileUri liveSymbolIds ∨
      id ∈ listedIds (g.evictStaleFileDeclarations fileUri liveSymbolIds).fileIndex file := by
    intro file id listed
    rw [evictStaleFileDeclarations_files]
    split
    next same =>
      have previous : id ∈ listedIds g.fileIndex (extractFilePathFromUri fileUri) := by
        simpa only [listedIds,CaseInsensitiveMap.get,same] using listed
      by_cases live : id ∈ liveSymbolIds
      · exact .inr (List.mem_filter.mpr ⟨listed,by simpa using live⟩)
      · exact .inl (List.mem_filter.mpr ⟨previous,by simpa using live⟩)
    next => exact .inr listed
  revert files
  unfold evictStaleFileDeclarations
  extract_lets normalizedUri previousIds stale refs forgotten remaining
  have here : g.staleIds fileUri liveSymbolIds = stale := rfl
  rw [here]
  intro files
  split
  next nothing =>
    rw [nothing]
    exact .refl g
  next nonempty =>
    rw [if_neg nonempty] at files
    have drops : Drops stale { g with refs := refs } forgotten := forgetSymbols_drops normalizedUri _ stale
    exact ⟨drops.heap,drops.tables,drops.known,drops.names,drops.fqns,files⟩

end SymbolGraph
end ApexLs.Symbols
