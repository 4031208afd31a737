import ApexLs.Collections.NestedForest
import ApexLs.Resolution.ScopeTrees

/-! What a table keeps of its scopes while it is built: they stay listed and as they were made, and their ids lead to
scopes. -/
namespace ApexLs.Resolution

open ApexLs.Utils ApexLs.Types ApexLs.Collections

/-- The id is in the key, and it ends as those of blocks do just for a block. -/
structure Kinded (heap : Heap) (r : Ref) : Prop where
  sync : Synchronized (heap r)
  kind : (heap r).kind = .block ↔ BlockId (heap r).id

def Knows (t : SymbolTable) (r : Ref) : Prop :=
  r ∈ t.symbolArray ∨ ∃ id b, t.symbolMap.get? id = some b ∧ r ∈ b.symbols

/-- Blocks are filed under their own ids, and nothing else is filed there. -/
structure Sorted (heap : Heap) (t : SymbolTable) : Prop where
  listed : ∀ r ∈ t.symbolArray, Kinded heap r
  filed : ∀ id b, t.symbolMap.get? id = some b →
    b.symbols ≠ [] ∧ ∀ r ∈ b.symbols, Kinded heap r ∧ (BlockId id ↔ (heap r).kind = .block)
  own : ∀ id b, t.symbolMap.get? id = some b → BlockId id → ∀ r ∈ b.symbols, r ∈ t.symbolArray ∧ (heap r).id = id
  found : ∀ r ∈ t.symbolArray, (heap r).kind = .block → ∃ b, t.symbolMap.get? (heap r).id = some b

structure Adds (heap heap' : Heap) (t t' : SymbolTable) (symbol : Ref) : Prop where
  sorted : Sorted heap' t'
  blocks : ∀ r, (heap r).kind = .block → heap' r = heap r
  others : ∀ r, (heap r).kind ≠ .block → (heap' r).kind ≠ .block
  listed : ∀ r, (heap r).kind = .block → (r ∈ t'.symbolArray ↔ r ∈ t.symbolArray ∨ r = symbol)
  known : ∀ r, Knows t' r → Knows t r ∨ r = symbol

theorem Adds.rooted {heap heap' : Heap} {t t' : SymbolTable} {symbol : Ref} (adds : Adds heap heap' t t' symbol)
    (current : Ref) (previous : ParentId) : Adds heap heap' t (t'.updateRootsArray heap' current previous) symbol :=
  ⟨⟨adds.sorted.listed,adds.sorted.filed,adds.sorted.own,adds.sorted.found⟩,adds.blocks,adds.others,adds.listed,adds.known⟩

theorem mem_file {t : SymbolTable} {key : String} {bucket : Bucket} {symbols : List Ref} :
    r ∈ (t.file key bucket symbols).symbolArray ↔ r ∈ t.symbolArray ∨ r ∈ symbols :=
  SymbolTable.mem_foldl_pushIfAbsent

theorem get?_file {t : SymbolTable} {key : String} {bucket : Bucket} {symbols : List Ref} (id : String) :
    (t.file key bucket symbols).symbolMap.get? id = if id = key then some bucket else t.symbolMap.get? id :=
  OrderedMap.get?_set _ _ _ _

structure Joins (heap : Heap) (t : SymbolTable) (symbol : Ref) (key : String) (r : Ref) : Prop where
  kinded : Kinded heap r
  sorted : BlockId key ↔ (heap r).kind = .block
  own : BlockId key → (heap r).id = key
  known : r = symbol ∨ Knows t r ∧ (BlockId key → r ∈ t.symbolArray)

theorem Joins.rekey {heap : Heap} {t : SymbolTable} (joins : Joins heap t symbol key r) (same : BlockId key' ↔ BlockId key)
    (own : BlockId key' → key = key') : Joins heap t symbol key' r :=
  ⟨joins.kinded,same.trans joins.sorted,fun block => (joins.own (same.mp block)).trans (own block),
    joins.known.imp_right fun known => ⟨known.1,fun block => known.2 (same.mp block)⟩⟩

theorem Sorted.file {heap : Heap} {t : SymbolTable} {bucket : Bucket} {symbols : List Ref} (sorted : Sorted heap t)
    (new : symbol ∈ symbols) (nonempty : bucket.symbols ≠ []) (inside : ∀ r ∈ bucket.symbols, r ∈ symbols)
    (joins : ∀ r ∈ symbols, Joins heap t symbol key r) : Adds heap heap t (t.file key bucket symbols) symbol where
  sorted :=
    { listed := fun r member => (mem_file.mp member).elim (sorted.listed r) fun member => (joins r member).kinded
      filed := by
        intro id b got
        rw [get?_file] at got
        split at got
        next same =>
          obtain rfl := Option.some.inj got
          exact ⟨nonempty,fun r member => ⟨(joins r (inside r member)).kinded,same ▸ (joins r (inside r member)).sorted⟩⟩
        next => exact sorted.filed id b got
      own := by
        intro id b got block r member
        rw [get?_file] at got
        split at got
        next same =>
          obtain rfl := Option.some.inj got
          exact ⟨mem_file.mpr (.inr (inside r member)),((joins r (inside r member)).own (same ▸ block)).trans same.symm⟩
        next =>
          obtain ⟨listed,id_⟩ := sorted.own id b got block r member
          exact ⟨mem_file.mpr (.inl listed),id_⟩
      found := by
        intro r member block
        rw [get?_file]
        split
        next => exact ⟨_,rfl⟩
        next apart =>
          rcases mem_file.mp member with member | member
          · exact sorted.found r member block
          · exact absurd ((joins r member).own ((joins r member).sorted.mpr block)) apart }
  blocks _ _ := rfl
  others _ other := other
  listed := by
    intro r block
    rw [mem_file]
    constructor
    · rintro (member | member)
      · exact .inl member
      · have joined := joins r member
        rcases joined.known with same | ⟨_,listed⟩
        · exact .inr same
        · exact .inl (listed (joined.sorted.mpr block))
    · rintro (member | rfl)
      · exact .inl member
      · exact .inr new
  known := by
    have through (r : Ref) (member : r ∈ symbols) : Knows t r ∨ r = symbol :=
      (joins r member).known.elim .inr fun known => .inl known.1
    rintro r (member | ⟨id,b,got,member⟩)
    · exact (mem_file.mp member).elim (fun listed => .inl (.inl listed)) (through r)
    · rw [get?_file] at got
      split at got
      next =>
        obtain rfl := Option.some.inj got
        exact through r (inside r member)
      next => exact .inl (.inr ⟨id,b,got,member⟩)

theorem Sorted.refile {heap : Heap} {t : SymbolTable} {e symbol : Ref} (sorted : Sorted heap t) (kinded : Kinded heap e)
    (known : Knows t e) (other : (heap e).kind ≠ .block) (declared : (heap symbol).kind ≠ .block) (plain : ¬ BlockId key) :
    Adds heap (heap.put e (assign (heap e) (heap symbol))) t
      (t.refile (heap.put e (assign (heap e) (heap symbol))) key e) symbol := by
  generalize changed : heap.put e (assign (heap e) (heap symbol)) = heap'
  have ids (r : Ref) : (heap' r).id = (heap r).id := by
    rw [← changed]
    exact put_assign_id heap e symbol r
  have kinds (r : Ref) : (heap' r).kind = .block ↔ (heap r).kind = .block := by
    rw [← changed,Heap.put_apply]
    split
    next same => exact iff_of_false declared (same ▸ other)
    next => exact Iff.rfl
  have kept (r : Ref) (kinded : Kinded heap r) : Kinded heap' r := by
    refine ⟨?_,by rw [kinds,ids]; exact kinded.kind⟩
    rw [← changed]
    exact put_assign_synchronized e symbol kinded.sync
  have apart (r : Ref) (kinded' : Kinded heap r) (block : (heap r).kind = .block) : (heap' r).id ≠ (heap' e).id := by
    rw [ids,ids]
    intro same
    exact other (kinded.kind.mpr (same ▸ kinded'.kind.mp block))
  have mem_refile (r : Ref) : r ∈ (t.refile heap' key e).symbolArray ↔
      (r ∈ t.symbolArray ∧ (heap' r).id ≠ (heap' e).id) ∨ r = e := by
    simp [SymbolTable.refile]
  have get?_refile (id : String) : (t.refile heap' key e).symbolMap.get? id =
      if id = key then some (.single e) else t.symbolMap.get? id := OrderedMap.get?_set _ _ _ _
  refine ⟨⟨fun r member => ?_,fun id b got => ?_,fun id b got block r member => ?_,fun r member block => ?_⟩,fun r block => ?_,
    fun r other => mt (kinds r).mp other,fun r block => ?_,fun r known' => ?_⟩
  · rcases (mem_refile r).mp member with ⟨member,_⟩ | rfl
    · exact kept r (sorted.listed r member)
    · exact kept r kinded
  · rw [get?_refile] at got
    split at got
    next same =>
      obtain rfl := Option.some.inj got
      refine ⟨by simp [Bucket.symbols],fun r member => ?_⟩
      obtain rfl : r = e := by simpa [Bucket.symbols] using member
      exact ⟨kept r kinded,iff_of_false (same ▸ plain) (mt (kinds r).mp other)⟩
    next =>
      obtain ⟨nonempty,each⟩ := sorted.filed id b got
      exact ⟨nonempty,fun r member => ⟨kept r (each r member).1,(each r member).2.trans (kinds r).symm⟩⟩
  · rw [get?_refile] at got
    split at got
    next same => exact absurd (same ▸ block) plain
    next =>
      obtain ⟨listed,id_⟩ := sorted.own id b got block r member
      have kinded' := sorted.listed r listed
      refine ⟨(mem_refile r).mpr (.inl ⟨listed,apart r kinded' (kinded'.kind.mpr (id_ ▸ block))⟩),(ids r).trans id_⟩
  · rw [kinds] at block
    rw [get?_refile,ids]
    split
    next => exact ⟨_,rfl⟩
    next =>
      rcases (mem_refile r).mp member with ⟨member,_⟩ | rfl
      · exact sorted.found r member block
      · exact absurd block other
  · rw [← changed]
    exact Heap.put_of_ne _ _ fun same => other (same ▸ block)
  · rw [mem_refile]
    constructor
    · rintro (⟨member,_⟩ | rfl)
      · exact .inl member
      · exact absurd block other
    · rintro (member | rfl)
      · exact .inl ⟨member,apart r (sorted.listed r member) block⟩
      · exact absurd block declared
  · rcases known' with member | ⟨id,b,got,member⟩
    · rcases (mem_refile r).mp member with ⟨member,_⟩ | rfl
      · exact .inl (.inl member)
      · exact .inl known
    · rw [get?_refile] at got
      split at got
      next =>
        obtain rfl := Option.some.inj got
        obtain rfl : r = e := by simpa [Bucket.symbols] using member
        exact .inl known
      next => exact .inl (.inr ⟨id,b,got,member⟩)

section

variable [Runtime]

theorem lookupExisting_sorted {heap : Heap} {t : SymbolTable} {symbol : Ref} (sorted : Sorted heap t)
    (kinded : Kinded heap symbol) : (BlockId (t.lookupExisting heap symbol).1 ↔ (heap symbol).kind = .block) ∧
      ((heap symbol).kind = .block → (t.lookupExisting heap symbol).1 = (heap symbol).id) := by
  unfold SymbolTable.lookupExisting
  simp only [kinded.sync.getUnifiedId]
  split
  next => exact ⟨kinded.kind.symm,fun _ => rfl⟩
  next =>
    split
    next e met =>
      obtain ⟨falls,by_⟩ := SymbolTable.fallback_spec met
      obtain ⟨listed,kind,_⟩ := SymbolTable.existingByParent_spec by_
      have other : (heap symbol).kind ≠ .block := by
        simp only [SymbolTable.fallsBack,Bool.and_eq_true,Bool.or_eq_true,decide_eq_true_eq] at falls
        rcases falls.2 with (class_ | method) | constructor_
        · simp [class_]
        · simp [method]
        · simp [constructor_]
      have found := sorted.listed e listed
      rw [found.sync.getUnifiedId]
      exact ⟨iff_of_false (fun block => other (kind ▸ found.kind.mpr block)) other,fun block => absurd block other⟩
    next => exact ⟨kinded.kind.symm,fun _ => rfl⟩

theorem insertPrepared_adds {heap : Heap} {t : SymbolTable} {symbol : Ref} (sorted : Sorted heap t)
    (kinded : Kinded heap symbol) (new : ¬ Knows t symbol)
    (plain : (heap symbol).kind = .block → (heap symbol).detailLevel = none) :
    Adds heap (t.insertPrepared heap symbol).1 t (t.insertPrepared heap symbol).2 symbol := by
  obtain ⟨key_iff,own⟩ := lookupExisting_sorted sorted kinded
  obtain ⟨onEnrich,onSecond,onFurther,_⟩ := SymbolTable.exitOf_touches heap symbol (t.lookupExisting heap symbol).2
  have bucket (b : Bucket) (found : (t.lookupExisting heap symbol).2 = some b) :
      t.symbolMap.get? (t.lookupExisting heap symbol).1 = some b := SymbolTable.lookupExisting_bucket found
  unfold SymbolTable.insertPrepared
  simp only [kinded.sync.getUnifiedId]
  generalize t.lookupExisting heap symbol = looked at key_iff own onEnrich onSecond onFurther bucket
  have self (key : String) (key_iff : BlockId key ↔ (heap symbol).kind = .block)
      (own : (heap symbol).kind = .block → key = (heap symbol).id) : Joins heap t symbol key symbol :=
    ⟨kinded,key_iff,fun block => (own (key_iff.mp block)).symm,.inl rfl⟩
  have other (b : Bucket) (found : looked.2 = some b) (r : Ref) (member : r ∈ b.symbols) : Joins heap t symbol looked.1 r := by
    have got := bucket b found
    have filed := (sorted.filed _ b got).2 r member
    exact ⟨filed.1,filed.2,fun block => (sorted.own _ b got block r member).2,
      .inr ⟨.inr ⟨_,b,got,member⟩,fun block => (sorted.own _ b got block r member).1⟩⟩
  have symbolKey := self (heap symbol).id kinded.kind.symm fun _ => rfl
  rcases found : looked.2 with _ | (e | duplicates)
  · rw [SymbolTable.exitOf]
    have adds : Adds heap heap t (t.file (heap symbol).id (.single symbol) [symbol]) symbol :=
      sorted.file (List.mem_singleton.mpr rfl) (by simp [Bucket.symbols]) (fun r member => member) (by simpa using symbolKey)
    exact adds.rooted symbol _
  · have joined := other _ found e (List.mem_singleton.mpr rfl)
    have apart : e ≠ symbol := by
      rintro rfl
      exact new (.inr ⟨_,_,bucket _ found,List.mem_singleton.mpr rfl⟩)
    change Adds heap (t.perform heap symbol _ _ _ (SymbolTable.exitAgainst heap symbol e)).1 t
      (t.perform heap symbol _ _ _ (SymbolTable.exitAgainst heap symbol e)).2 symbol
    have second : Adds heap heap t (t.file (heap symbol).id (.many [e,symbol]) [symbol,e]) symbol := by
      have joined' : Joins heap t symbol (heap symbol).id e :=
        joined.rekey (kinded.kind.symm.trans key_iff.symm) fun block => own (kinded.kind.mpr block)
      apply sorted.file
      · exact List.mem_cons_self
      · simp [Bucket.symbols]
      · simp [Bucket.symbols]
      · simp [symbolKey,joined']
    have kept (declared : (heap symbol).kind ≠ .block) : Adds heap heap t t symbol := by
      refine ⟨sorted,fun _ _ => rfl,fun _ => id,fun r block => ?_,fun _ => .inl⟩
      exact (or_iff_left fun same : r = symbol => declared (same ▸ block)).symm
    by_cases block : (heap symbol).kind = .block
    · have exit : SymbolTable.exitAgainst heap symbol e = .secondDuplicate e := by
        simp [SymbolTable.exitAgainst,apart,plain block]
      rw [exit]
      exact second.rooted symbol _
    · rcases SymbolTable.exitAgainst_cases heap symbol e with keeps | enrich | ⟨exit,_⟩
      · rw [SymbolTable.perform_kept _ _ _ _ _ _ keeps]
        exact kept block
      · rw [enrich]
        have plainKey : ¬ BlockId looked.1 := mt key_iff.mp block
        have known : Knows t e := .inr ⟨_,_,bucket _ found,List.mem_singleton.mpr rfl⟩
        have adds := sorted.refile joined.kinded known (mt joined.sorted.mpr plainKey) block plainKey
        exact adds.rooted e _
      · rw [exit]
        exact second.rooted symbol _
  · rw [SymbolTable.exitOf]
    let pushed := SymbolTable.pushIfAbsent duplicates symbol
    have adds : Adds heap heap t (t.file looked.1 (.many pushed) (symbol :: pushed)) symbol := by
      apply sorted.file
      · exact List.mem_cons_self
      · exact List.ne_nil_of_mem (SymbolTable.mem_pushIfAbsent.mpr (.inr rfl))
      · exact fun r member => List.mem_cons_of_mem _ member
      · intro r member
        rcases List.mem_cons.mp member with rfl | member
        · exact self looked.1 key_iff own
        rcases SymbolTable.mem_pushIfAbsent.mp member with member | rfl
        · exact other _ found r member
        · exact self looked.1 key_iff own
    exact adds.rooted symbol _

omit [Runtime] in
theorem Sorted.congr {heap heap' : Heap} {t : SymbolTable} (sorted : Sorted heap t) (same : ∀ r, Knows t r → heap' r = heap r) :
    Sorted heap' t := by
  have kinded (r : Ref) (known : Knows t r) (kinded : Kinded heap r) : Kinded heap' r := by
    refine ⟨?_,?_⟩
    · rw [same r known]
      exact kinded.sync
    · rw [same r known]
      exact kinded.kind
  refine ⟨fun r member => kinded r (.inl member) (sorted.listed r member),fun id b got => ?_,fun id b got block r member => ?_,
    fun r member block => ?_⟩
  · refine ⟨(sorted.filed id b got).1,fun r member => ?_⟩
    have known : Knows t r := .inr ⟨id,b,got,member⟩
    obtain ⟨kind,iff_⟩ := (sorted.filed id b got).2 r member
    exact ⟨kinded r known kind,by rw [same r known]; exact iff_⟩
  · rw [same r (.inr ⟨id,b,got,member⟩)]
    exact sorted.own id b got block r member
  · rw [same r (.inl member)] at block ⊢
    exact sorted.found r member block

theorem adopted_kind (scope : Option String) (symbol : ApexSymbol) :
    (adoptParent scope (synchronizeKey symbol)).kind = symbol.kind := by
  unfold adoptParent
  split <;> rfl

theorem adopted_location (scope : Option String) (symbol : ApexSymbol) :
    (adoptParent scope (synchronizeKey symbol)).location = symbol.location := by
  unfold adoptParent
  split <;> rfl

theorem adopted_parentId {symbol : ApexSymbol} (scope : Option String) (placed : symbol.parentId ≠ .undefined) :
    (adoptParent scope (synchronizeKey symbol)).parentId = symbol.parentId := by
  unfold adoptParent
  split
  next undefined => exact absurd undefined placed
  next undefined => exact absurd undefined placed
  next => rfl

namespace ScopeBuild

/-- What the table becomes when an object is added: a block is listed as it was made. -/
structure Grows (s s' : ScopeBuild) (new : ApexSymbol) : Prop where
  sorted : Sorted s'.heap s'.table
  made : ∀ r, Knows s'.table r → ∃ k < s.next + 1, r = .declared k
  kept : ∀ r ∈ s.table.symbolArray, (s.heap r).kind = .block → r ∈ s'.table.symbolArray ∧ s'.heap r = s.heap r
  listed : ∀ r ∈ s'.table.symbolArray, (s'.heap r).kind = .block →
    (r ∈ s.table.symbolArray ∧ (s.heap r).kind = .block) ∨ r = .declared s.next ∧ new.kind = .block
  placed : new.kind = .block → .declared s.next ∈ s'.table.symbolArray ∧ s'.heap (.declared s.next) = new

theorem add_grows {s : ScopeBuild} {symbol : ApexSymbol} {scope : Option ApexSymbol} (sorted : Sorted s.heap s.table)
    (made : ∀ r, Knows s.table r → ∃ k < s.next, r = .declared k)
    (kind : symbol.kind = .block ↔ BlockId (synchronizeKey symbol).id)
    (plain : symbol.kind = .block → symbol.detailLevel = none) :
    Grows s (s.add symbol scope) (adoptParent (scope.map (·.id)) (synchronizeKey symbol)) := by
  have new : ¬ Knows s.table (.declared s.next) := by
    intro known
    obtain ⟨k,below,same⟩ := made _ known
    exact absurd (Ref.declared.inj same) (Nat.ne_of_gt below)
  generalize heap_ : prepare (s.heap.put (.declared s.next) symbol) (.declared s.next) (scope.map (·.id)) = heap
  have own : heap (.declared s.next) = adoptParent (scope.map (·.id)) (synchronizeKey symbol) := by
    rw [← heap_,prepare,Heap.put_self,Heap.put_self]
  have same (r : Ref) (known : Knows s.table r) : heap r = s.heap r := by
    have apart : r ≠ .declared s.next := fun same => new (same ▸ known)
    rw [← heap_,prepare_of_ne _ _ apart,Heap.put_of_ne _ _ apart]
  have kind_ : (heap (.declared s.next)).kind = symbol.kind := by rw [own,adopted_kind]
  have level : (heap (.declared s.next)).detailLevel = symbol.detailLevel := by
    rw [own]
    unfold adoptParent
    split <;> rfl
  have kinded : Kinded heap (.declared s.next) := by
    refine ⟨?_,?_⟩
    · rw [← heap_]
      exact prepare_synchronized _ _ _
    · rw [kind_,own,adoptParent_id]
      exact kind
  have adds := insertPrepared_adds (sorted.congr same) kinded new fun block => level.trans (plain (kind_.symm.trans block))
  have added : s.table.addSymbol (s.heap.put (.declared s.next) symbol) (.declared s.next) (scope.map (·.id)) =
      s.table.insertPrepared heap (.declared s.next) := by
    rw [SymbolTable.addSymbol,heap_]
  have block_iff : (adoptParent (scope.map (·.id)) (synchronizeKey symbol)).kind = .block ↔
      (heap (.declared s.next)).kind = .block := by
    rw [own]
  have before (r : Ref) (block : ((s.table.insertPrepared heap (.declared s.next)).1 r).kind = .block) :
      (heap r).kind = .block := by
    by_contra other
    exact adds.others r other block
  unfold add
  rw [added]
  refine ⟨adds.sorted,fun r known => ?_,fun r member block => ?_,fun r member block => ?_,fun block => ?_⟩
  · rcases adds.known r known with known | rfl
    · obtain ⟨k,below,is⟩ := made r known
      exact ⟨k,Nat.lt_succ_of_lt below,is⟩
    · exact ⟨s.next,Nat.lt_succ_self _,rfl⟩
  · have same := same r (.inl member)
    rw [← same] at block ⊢
    exact ⟨(adds.listed r block).mpr (.inl member),adds.blocks r block⟩
  · rcases (adds.listed r (before r block)).mp member with member | rfl
    · exact .inl ⟨member,same r (.inl member) ▸ before r block⟩
    · exact .inr ⟨rfl,block_iff.mpr (before _ block)⟩
  · have block := block_iff.mp block
    exact ⟨(adds.listed _ block).mpr (.inr rfl),(adds.blocks _ block).trans own⟩

/-- A table with its scopes: these are its blocks, each with the id of the scope it was entered in for its parent id,
or an id that is no block's, and they nest. -/
structure Built (s : ScopeBuild) : Prop where
  sorted : Sorted s.heap s.table
  made : ∀ r, Knows s.table r → ∃ k < s.next, r = .declared k
  listed : ∀ (i : Nat) e, s.scopes[i]? = some e → e.scope ∈ s.table.symbolArray ∧ (s.heap e.scope).kind = .block
  entered : ∀ r ∈ s.table.symbolArray, (s.heap r).kind = .block → ∃ e ∈ s.scopes, e.scope = r
  distinct : (s.scopes.map Entered.scope).Nodup
  linked : ∀ (i : Nat) e, s.scopes[i]? = some e → (s.heap e.scope).parentId = FileTable.scopeId (e.parent.bind s.scopeAt) ∨
    ∃ id, (s.heap e.scope).parentId = .of id ∧ ¬ BlockId id
  inside : ∀ (i : Nat) e, s.scopes[i]? = some e → ∀ j ∈ e.parent, j < i ∧ ∃ outer ∈ s.scopeAt j,
    Within (s.heap e.scope).location.symbolRange outer.location.symbolRange ∧
      Resolution.start outer.location.symbolRange < Resolution.start (s.heap e.scope).location.symbolRange
  apart : ∀ (i k : Nat) e f, s.scopes[i]? = some e → s.scopes[k]? = some f → e.parent = f.parent → i ≠ k →
    Apart (s.heap e.scope).location.symbolRange (s.heap f.scope).location.symbolRange

omit [Runtime] in
theorem getElem?_entered {scopes : List Entered} (at_ : (scopes ++ [new])[i]? = some e) :
    scopes[i]? = some e ∨ i = scopes.length ∧ e = new := by
  rw [List.getElem?_append] at at_
  split at at_
  · exact .inl at_
  · rw [List.getElem?_singleton] at at_
    split at at_
    next last => exact .inr ⟨by omega,(Option.some.inj at_).symm⟩
    next => cases at_

omit [Runtime] in
theorem Grows.same {s s' : ScopeBuild} {i : Nat} {e : Entered} (built : s.Built) (grows : Grows s s' new)
    (at_ : s.scopes[i]? = some e) :
    s'.heap e.scope = s.heap e.scope :=
  (grows.kept e.scope (built.listed i e at_).1 (built.listed i e at_).2).2

omit [Runtime] in
theorem Grows.scopeAt {s s' : ScopeBuild} (built : s.Built) (grows : Grows s s' new) (scopes : s'.scopes = s.scopes ++ rest)
    (at_ : s.scopeAt i = some b) : s'.scopeAt i = some b := by
  obtain ⟨e,entered,rfl⟩ := Option.map_eq_some_iff.mp at_
  have bound : i < s.scopes.length := (List.getElem?_eq_some_iff.mp entered).1
  rw [ScopeBuild.scopeAt,scopes,List.getElem?_append_left bound,entered,Option.map_some,grows.same built entered]

omit [Runtime] in
theorem Built.scopeAt_isSome {s : ScopeBuild} {i : Nat} {e : Entered} (built : s.Built) (at_ : s.scopes[i]? = some e) :
    ∀ j ∈ e.parent, ∃ b, s.scopeAt j = some b :=
  fun j member => (built.inside i e at_ j member).2.imp fun _ inside => inside.1

omit [Runtime] in
theorem Grows.scopeId {s s' : ScopeBuild} (built : s.Built) (grows : Grows s s' new) (scopes : s'.scopes = s.scopes ++ rest)
    {parent : Option Nat} (known : ∀ j ∈ parent, ∃ b, s.scopeAt j = some b) :
    parent.bind s'.scopeAt = parent.bind s.scopeAt := by
  cases parent with
  | none => rfl
  | some j =>
    obtain ⟨b,at_⟩ := known j rfl
    rw [Option.bind_some,Option.bind_some,at_,grows.scopeAt built scopes at_]

omit [Runtime] in
theorem Built.declare {s s' : ScopeBuild} (built : s.Built) (grows : Grows s s' new) (next : s'.next = s.next + 1)
    (scopes : s'.scopes = s.scopes) (declared : new.kind ≠ .block) : s'.Built := by
  have scopes' : s'.scopes = s.scopes ++ [] := by rw [scopes,List.append_nil]
  refine ⟨grows.sorted,by rw [next]; exact grows.made,?_,?_,?_,?_,?_,?_⟩
  · intro i e at_
    rw [scopes] at at_
    obtain ⟨listed,block⟩ := built.listed i e at_
    exact ⟨(grows.kept e.scope listed block).1,grows.same built at_ ▸ block⟩
  · intro r member block
    rcases grows.listed r member block with ⟨listed,block⟩ | ⟨_,block⟩
    · rw [scopes]
      exact built.entered r listed block
    · exact absurd block declared
  · exact scopes ▸ built.distinct
  · intro i e at_
    rw [scopes] at at_
    rw [grows.same built at_,grows.scopeId built scopes' (built.scopeAt_isSome at_)]
    exact built.linked i e at_
  · intro i e at_ j member
    rw [scopes] at at_
    obtain ⟨earlier,outer,at',inside⟩ := built.inside i e at_ j member
    rw [grows.same built at_]
    exact ⟨earlier,outer,grows.scopeAt built scopes' at',inside⟩
  · intro i k e f at_ at' same apart
    rw [scopes] at at_ at'
    rw [grows.same built at_,grows.same built at']
    exact built.apart i k e f at_ at' same apart

omit [Runtime] in
theorem Built.enter {s s' : ScopeBuild} {parent : Option Nat} (built : s.Built) (grows : Grows s s' new)
    (next : s'.next = s.next + 1) (scopes : s'.scopes = s.scopes ++ [⟨.declared s.next,parent⟩]) (block : new.kind = .block)
    (linked : new.parentId = FileTable.scopeId (parent.bind s.scopeAt) ∨ ∃ id, new.parentId = .of id ∧ ¬ BlockId id)
    (nests : s.Nests new.location.symbolRange parent) : s'.Built := by
  obtain ⟨placed,own⟩ := grows.placed block
  have known : ∀ j ∈ parent, ∃ b, s.scopeAt j = some b :=
    fun j member => (nests.inside j member).imp fun _ inside => inside.1
  refine ⟨grows.sorted,by rw [next]; exact grows.made,?_,?_,?_,?_,?_,?_⟩
  · intro i e at_
    rw [scopes] at at_
    rcases getElem?_entered at_ with at_ | ⟨_,rfl⟩
    · obtain ⟨listed,block⟩ := built.listed i e at_
      exact ⟨(grows.kept e.scope listed block).1,grows.same built at_ ▸ block⟩
    · exact ⟨placed,own ▸ block⟩
  · intro r member block
    rw [scopes]
    rcases grows.listed r member block with ⟨listed,block⟩ | ⟨rfl,_⟩
    · obtain ⟨e,entered,same⟩ := built.entered r listed block
      exact ⟨e,List.mem_append_left _ entered,same⟩
    · exact ⟨_,List.mem_append_right _ (List.mem_singleton.mpr rfl),rfl⟩
  · rw [scopes,List.map_append,List.map_cons,List.map_nil]
    refine List.Nodup.append built.distinct (List.nodup_singleton _) (List.disjoint_singleton.mpr fun member => ?_)
    obtain ⟨e,entered,same⟩ := List.mem_map.mp member
    obtain ⟨i,at_⟩ := List.getElem?_of_mem entered
    obtain ⟨k,below,is⟩ := built.made e.scope (.inl (built.listed i e at_).1)
    exact absurd (Ref.declared.inj (same.symm.trans is)) (Nat.ne_of_gt below)
  · intro i e at_
    rw [scopes] at at_
    rcases getElem?_entered at_ with at_ | ⟨_,rfl⟩
    · rw [grows.same built at_,grows.scopeId built scopes (built.scopeAt_isSome at_)]
      exact built.linked i e at_
    · rw [own,grows.scopeId built scopes known]
      exact linked
  · intro i e at_ j member
    rw [scopes] at at_
    rcases getElem?_entered at_ with at_ | ⟨rfl,rfl⟩
    · obtain ⟨earlier,outer,at',inside⟩ := built.inside i e at_ j member
      rw [grows.same built at_]
      exact ⟨earlier,outer,grows.scopeAt built scopes at',inside⟩
    · obtain ⟨outer,at',inside⟩ := nests.inside j member
      rw [own]
      obtain ⟨f,entered,_⟩ := Option.map_eq_some_iff.mp at'
      exact ⟨(List.getElem?_eq_some_iff.mp entered).1,outer,grows.scopeAt built scopes at',inside⟩
  · intro i k e f at_ at' same apart
    rw [scopes] at at_ at'
    rcases getElem?_entered at_ with at_ | ⟨rfl,rfl⟩ <;> rcases getElem?_entered at' with at' | ⟨rfl,rfl⟩
    · rw [grows.same built at_,grows.same built at']
      exact built.apart i k e f at_ at' same apart
    · rw [grows.same built at_,own]
      exact nests.apart e (List.mem_of_getElem? at_) same
    · rw [grows.same built at',own]
      exact Or.symm (nests.apart f (List.mem_of_getElem? at') same.symm)
    · exact absurd rfl apart

omit [Runtime] in
theorem semanticSymbol_plain {s : ScopeBuild} (built : s.Built) {name : String} {scopeType : ScopeType}
    {parentScope : Option ApexSymbol} (found : s.fileTable.semanticSymbol name scopeType parentScope = some symbol) :
    ¬ BlockId symbol.id := by
  have plain (listed : symbol ∈ s.fileTable.getAllSymbols) (other : symbol.kind ≠ .block) : ¬ BlockId symbol.id := by
    obtain ⟨r,member,rfl⟩ := List.mem_map.mp listed
    exact mt (built.sorted.listed r member).kind.mpr other
  have newest (test : ApexSymbol → Bool) (found : s.fileTable.getAllSymbols.reverse.find? (fun s =>
      s.name = name && s.kind ≠ .block && test s) = some symbol) : ¬ BlockId symbol.id := by
    have meets := List.find?_some found
    simp only [Bool.and_eq_true,decide_eq_true_eq] at meets
    exact plain (List.mem_reverse.mp (List.mem_of_find?_eq_some found)) meets.1.2
  cases scopeType with
  | method => exact newest _ found
  | class_ =>
    rcases Option.or_eq_some_iff.mp found with found | ⟨_,found⟩
    · obtain ⟨found,type⟩ := Option.filter_eq_some_iff.mp found
      refine plain (List.mem_of_mem_filter (List.mem_of_find?_eq_some found)) fun block => ?_
      simp [ApexSymbol.inTypeSymbolGroup,block] at type
    · exact newest _ found
  | _ => cases found

section

variable (name : String) (scopeType : ScopeType) (location : SymbolLocation) (fileUri : String) (parentId : ParentId)
  (scopePath : List String)
include name scopeType location fileUri parentId scopePath

theorem createScopeSymbol_synchronized :
    Synchronized (createScopeSymbol name scopeType location fileUri parentId scopePath) :=
  ⟨rfl,generateSymbolId_ne_empty _ _ _ _ _ _⟩

theorem createScopeSymbol_blockId :
    BlockId (createScopeSymbol name scopeType location fileUri parentId scopePath).id := by
  rw [createScopeSymbol,generateSymbolId,BlockId,String.toList_append]
  exact List.suffix_append _ _

theorem createScopeSymbol_range :
    (createScopeSymbol name scopeType location fileUri parentId scopePath).location.symbolRange = location.symbolRange := by
  dsimp only [createScopeSymbol]
  split <;> rfl

end

theorem built_step {s : ScopeBuild} (built : s.Built) (action : ScopeStep) (fits : s.Fits action) : (s.step action).Built := by
  rcases action with ⟨name,scopeType,location,fileUri,parent⟩ | ⟨symbol,scope⟩
  · rcases location with _ | location
    · exact built
    generalize parentId_ : (s.fileTable.semanticSymbol name scopeType (parent.bind s.scopeAt)).elim
      (FileTable.scopeId (parent.bind s.scopeAt)) (.of ·.id) = parentId
    generalize symbol_ : createScopeSymbol name scopeType location (orElse fileUri s.table.fileUri) parentId
      (s.fileTable.getCurrentScopePath (parent.bind s.scopeAt)) = symbol
    have stepped : s.step (.enterScope name scopeType (some location) fileUri parent) =
        { s.add symbol (parent.bind s.scopeAt) with scopes := s.scopes ++ [⟨.declared s.next,parent⟩] } := by
      rw [← symbol_,← parentId_]
      rfl
    have kind : symbol.kind = .block := symbol_ ▸ rfl
    have id_ : BlockId (synchronizeKey symbol).id := by
      rw [← symbol_,(createScopeSymbol_synchronized ..).synchronizeKey_id]
      exact createScopeSymbol_blockId ..
    have range : symbol.location.symbolRange = location.symbolRange := symbol_ ▸ createScopeSymbol_range ..
    have linked : symbol.parentId = FileTable.scopeId (parent.bind s.scopeAt) ∨
        ∃ id, symbol.parentId = .of id ∧ ¬ BlockId id := by
      have own : symbol.parentId = parentId := symbol_ ▸ rfl
      rw [own,← parentId_]
      rcases found : s.fileTable.semanticSymbol name scopeType (parent.bind s.scopeAt) with _ | semantic
      · exact .inl rfl
      · exact .inr ⟨_,rfl,semanticSymbol_plain built found⟩
    have placed : symbol.parentId ≠ .undefined := by
      rcases linked with own | ⟨id,own,_⟩
      · rw [own]
        cases parent.bind s.scopeAt <;> simp [FileTable.scopeId]
      · simp [own]
    have grows : Grows s (s.add symbol (parent.bind s.scopeAt)) _ :=
      add_grows built.sorted built.made (iff_of_true kind id_) fun _ => symbol_ ▸ rfl
    rw [stepped]
    refine Built.enter built ⟨grows.sorted,grows.made,grows.kept,grows.listed,grows.placed⟩ rfl rfl ?_ ?_ ?_
    · exact (adopted_kind _ _).trans kind
    · rw [adopted_parentId _ placed]
      exact linked
    · rw [adopted_location,range]
      exact fits location rfl
  · obtain ⟨declared,plain⟩ := fits
    have grows : Grows s (s.add symbol (scope.bind s.scopeAt)) _ :=
      add_grows built.sorted built.made (iff_of_false declared plain) fun block => absurd block declared
    exact built.declare grows rfl rfl fun block => declared ((adopted_kind _ _).symm.trans block)

omit [Runtime] in
theorem start_built (heap : Heap) (fileUri : String) : (start heap fileUri).Built := by
  refine ⟨⟨?_,?_,?_,?_⟩,?_,?_,?_,?_,?_,?_,?_⟩ <;> simp [start,Knows]

theorem built_run (heap : Heap) (fileUri : String) {steps : List ScopeStep}
    (fits : EveryStep step Fits (start heap fileUri) steps) :
    (run step (start heap fileUri) steps).Built := by
  have always : EveryState step Built (start heap fileUri) steps :=
    everyState_of_everyStep (fun _ action built fits => built_step built action fits) (start_built heap fileUri) fits
  exact always.last

end ScopeBuild

end

end ApexLs.Resolution
