import ApexLs.Collections.Runs
import ApexLs.Utils.WeakCache

/-! The bookkeeping of the unified cache. In every reachable state the list of use holds the keys of the map; the counter
is their number and those entries that a lookup found collected. -/
namespace ApexLs.Utils.WeakCache

open ApexLs.Collections

variable {α : Type u}

/-- The list of use is `order`, and the counter is `surplus` above its length. -/
structure Tracked (c : WeakCache α) (order : List String) (surplus : Nat) : Prop where
  lists : c.lru.Lists order
  keys : ∀ k, k ∈ order ↔ k ∈ c.cache.keys
  counted : c.totalEntries = order.length + surplus

structure Aside (c c' : WeakCache α) : Prop where
  maxSize : c'.maxSize = c.maxSize
  ttl : c'.ttl = c.ttl
  useWeakRef : c'.useWeakRef = c.useWeakRef
  made : c'.made = c.made
  collected : c'.collected = c.collected
  registered : c'.registered = c.registered

theorem Aside.refl (c : WeakCache α) : Aside c c := ⟨rfl,rfl,rfl,rfl,rfl,rfl⟩

theorem Aside.trans {a b c : WeakCache α} (first : Aside a b) (second : Aside b c) : Aside a c :=
  ⟨second.maxSize.trans first.maxSize,second.ttl.trans first.ttl,second.useWeakRef.trans first.useWeakRef,
    second.made.trans first.made,second.collected.trans first.collected,second.registered.trans first.registered⟩

theorem delete_absent {c : WeakCache α} (absent : c.cache.get? key = none) : c.delete key = (false,c) := by
  rw [delete,absent]

theorem delete_present {c : WeakCache α} (found : c.cache.get? key = some ref) : (c.delete key).1 = true ∧
    (c.delete key).2.cache = c.cache.erase key ∧ (c.delete key).2.lru = c.lru.remove key ∧
    (c.delete key).2.totalEntries = c.totalEntries - 1 ∧ (c.delete key).2.evictionCount = c.evictionCount ∧
    Aside c (c.delete key).2 := by
  unfold delete
  cases live : c.getEntry ref with
  | none =>
    simp only [found,live]
    exact ⟨trivial,rfl,rfl,rfl,rfl,⟨rfl,rfl,rfl,rfl,rfl,rfl⟩⟩
  | some entry =>
    simp only [found,live]
    exact ⟨trivial,rfl,rfl,rfl,rfl,⟨rfl,rfl,rfl,rfl,rfl,rfl⟩⟩

theorem get?_delete (c : WeakCache α) (key k : String) :
    (c.delete key).2.cache.get? k = if k = key then none else c.cache.get? k := by
  cases found : c.cache.get? key with
  | none =>
    rw [delete_absent found]
    by_cases same : k = key
    · rw [if_pos same,same,found]
    · rw [if_neg same]
  | some ref =>
    rw [(delete_present found).2.1]
    exact OrderedMap.get?_erase _ _ _

theorem delete_aside (c : WeakCache α) (key : String) : Aside c (c.delete key).2 := by
  cases found : c.cache.get? key with
  | none =>
    rw [delete_absent found]
    exact .refl c
  | some ref => exact (delete_present found).2.2.2.2.2

structure Shrunk (c c' : WeakCache α) : Prop extends Aside c c' where
  entry : ∀ k, c'.cache.get? k = none ∨ c'.cache.get? k = c.cache.get? k

theorem Shrunk.refl (c : WeakCache α) : Shrunk c c := ⟨.refl c,fun _ => .inr rfl⟩

theorem Shrunk.trans {a b c : WeakCache α} (first : Shrunk a b) (second : Shrunk b c) : Shrunk a c := by
  refine ⟨first.toAside.trans second.toAside,fun k => ?_⟩
  rcases second.entry k with gone | same
  · exact .inl gone
  · exact (first.entry k).imp same.trans same.trans

theorem shrunk_delete (c : WeakCache α) (key : String) : Shrunk c (c.delete key).2 := by
  refine ⟨delete_aside c key,fun k => ?_⟩
  rw [get?_delete]
  split
  · exact .inl rfl
  · exact .inr rfl

theorem mem_keys_erase (m : OrderedMap String β) (key k : String) : k ∈ (m.erase key).keys ↔ k ∈ m.keys ∧ k ≠ key := by
  rw [OrderedMap.mem_keys_iff,OrderedMap.mem_keys_iff,OrderedMap.get?_erase]
  by_cases same : k = key
  · simp [same]
  · simp [same]

theorem erase_eq_filter {order : List String} (unique : order.Nodup) (key : String) :
    order.erase key = order.filter (· ≠ key) := by
  rw [unique.erase_eq_filter]
  refine List.filter_congr fun k _ => ?_
  by_cases same : k = key
  · simp [same]
  · simp [same]

def deleteAll (c : WeakCache α) (keys : List String) : WeakCache α := keys.foldl (fun c key => (c.delete key).2) c

def lateKeys (c : WeakCache α) (now : Int) : List String :=
  (c.cache.entries.filter fun p => c.outdated now p.2).map Prod.fst

theorem removeExpired_eq (c : WeakCache α) (now : Int) : c.removeExpired now = c.deleteAll (c.lateKeys now) := by
  rw [removeExpired,deleteAll,lateKeys,List.foldl_map,List.foldl_filter]

theorem invalidatePattern_eq (test : String → String → Bool) (c : WeakCache α) (pattern : String) :
    (c.invalidatePattern test pattern).2 = c.deleteAll (c.cache.keys.filter (test pattern)) := by
  have deleted (keys : List String) (count : Nat) (d : WeakCache α) :
      (keys.foldl (fun (s : Nat × WeakCache α) key =>
        if test pattern key then (if (s.2.delete key).1 then s.1 + 1 else s.1,(s.2.delete key).2) else (s.1,s.2))
        (count,d)).2 = d.deleteAll (keys.filter (test pattern)) := by
    induction keys generalizing count d with
    | nil => rfl
    | cons key keys ih =>
      rw [List.foldl_cons]
      by_cases tested : test pattern key = true
      · rw [if_pos tested,ih,List.filter_cons_of_pos tested]
        rfl
      · rw [if_neg tested,ih,List.filter_cons_of_neg tested]
  exact deleted _ _ _

theorem shrunk_deleteAll (c : WeakCache α) (keys : List String) : Shrunk c (c.deleteAll keys) := by
  induction keys generalizing c with
  | nil => exact .refl c
  | cons key keys ih => exact (shrunk_delete c key).trans (ih _)

theorem get?_deleteAll (c : WeakCache α) (keys : List String) (k : String) :
    (c.deleteAll keys).cache.get? k = if k ∈ keys then none else c.cache.get? k := by
  induction keys generalizing c with
  | nil => rfl
  | cons key keys ih =>
    rw [show c.deleteAll (key :: keys) = (c.delete key).2.deleteAll keys from rfl,ih,get?_delete]
    by_cases same : k = key
    · simp [same]
    · simp [same]

namespace Tracked

variable {c : WeakCache α} {order : List String} {surplus : Nat}

section

variable (tracked : Tracked c order surplus)
include tracked

theorem length_eq : order.length = c.cache.size := by
  rw [← OrderedMap.size_keys]
  exact ((List.perm_ext_iff_of_nodup tracked.lists.nodup c.cache.keys_nodup).mpr tracked.keys).length_eq

theorem mem_of_get? (found : c.cache.get? key = some ref) : key ∈ order :=
  (tracked.keys key).mpr (OrderedMap.mem_keys_iff.mpr ⟨ref,found⟩)

theorem not_mem_of_get? (absent : c.cache.get? key = none) : key ∉ order :=
  fun member => OrderedMap.get?_eq_none_iff.mp absent ((tracked.keys key).mp member)

theorem drop (key : String) :
    (c.drop key).lru.Lists (order.filter (· ≠ key)) ∧ ∀ k, k ∈ order.filter (· ≠ key) ↔ k ∈ (c.drop key).cache.keys := by
  constructor
  · rw [← erase_eq_filter tracked.lists.nodup]
    exact tracked.lists.remove key
  · intro k
    rw [List.mem_filter,decide_eq_true_iff,tracked.keys]
    exact (mem_keys_erase c.cache key k).symm

theorem length_filter (member : key ∈ order) :
    (order.filter (· ≠ key)).length + 1 = order.length := by
  have positive := List.length_pos_of_mem member
  rw [← erase_eq_filter tracked.lists.nodup,List.length_erase_of_mem member]
  omega

end

theorem filter_of_not_mem (absent : key ∉ order) : order.filter (· ≠ key) = order := by
  rw [List.filter_eq_self]
  exact fun k member => decide_eq_true fun same => absent (same ▸ member)

section

variable (tracked : Tracked c order surplus)
include tracked

theorem delete (key : String) :
    Tracked (c.delete key).2 (order.filter (· ≠ key)) surplus := by
  cases found : c.cache.get? key with
  | none =>
    rw [delete_absent found,filter_of_not_mem (tracked.not_mem_of_get? found)]
    exact tracked
  | some ref =>
    obtain ⟨_,cache,lru,total,_,_⟩ := delete_present found
    obtain ⟨lists,keys⟩ := tracked.drop key
    have shorter := tracked.length_filter (tracked.mem_of_get? found)
    have counted := tracked.counted
    refine ⟨lru ▸ lists,fun k => cache ▸ keys k,?_⟩
    rw [total]
    omega

theorem deleteAll (keys : List String) :
    Tracked (c.deleteAll keys) (order.filter (· ∉ keys)) surplus := by
  induction keys generalizing c order with
  | nil =>
    rw [List.filter_eq_self.mpr fun k _ => decide_eq_true List.not_mem_nil]
    exact tracked
  | cons key keys ih =>
    have rest := ih (tracked.delete key)
    rw [List.filter_filter] at rest
    have same : (fun k => decide (k ∉ keys) && decide (k ≠ key)) = fun k => decide (k ∉ key :: keys) := by
      funext k
      simp [Bool.and_comm]
    rw [same] at rest
    exact rest

theorem lost (found : c.cache.get? key = some ref) :
    Tracked (c.drop key) (order.filter (· ≠ key)) (surplus + 1) := by
  obtain ⟨lists,keys⟩ := tracked.drop key
  have shorter := tracked.length_filter (tracked.mem_of_get? found)
  have counted := tracked.counted
  refine ⟨lists,keys,?_⟩
  rw [show (c.drop key).totalEntries = c.totalEntries from rfl]
  omega

theorem handleGarbageCollected (key : String) :
    Tracked (c.handleGarbageCollected key) (order.filter (· ≠ key)) surplus := by
  unfold WeakCache.handleGarbageCollected
  split
  next held =>
    obtain ⟨ref,found⟩ := OrderedMap.has_iff.mp held
    obtain ⟨lists,keys⟩ := tracked.drop key
    have shorter := tracked.length_filter (tracked.mem_of_get? found)
    have counted := tracked.counted
    refine ⟨lists,keys,?_⟩
    dsimp only
    omega
  next held =>
    have absent : key ∉ order := fun member =>
      held (OrderedMap.has_iff.mpr (OrderedMap.mem_keys_iff.mp ((tracked.keys key).mp member)))
    rw [filter_of_not_mem absent]
    exact tracked

end

end Tracked

/-! The two loops that evict. Each eviction takes the key that was used first, except that it takes the empty key for no
key at all: this key blocks those behind it. -/

variable {c : WeakCache α} {order : List String} {surplus : Nat}

def blocked (order : List String) : List String := order.dropWhile (· ≠ "")

theorem length_blocked_le (order : List String) : (blocked order).length ≤ order.length :=
  (List.dropWhile_sublist _).length_le

def crowded (attempts : Int) (s : WeakCache α × Nat) : Bool := s.1.maxSize ≤ s.1.totalEntries && (s.2 : Int) < attempts

def evictRound (s : WeakCache α × Nat) : WeakCache α × Nat := (s.1.evictLRU,s.2 + 1)

theorem ensureCapacity_eq (c : WeakCache α) (rounds : Nat) :
    c.ensureCapacity rounds = (whileLoop (crowded (c.totalEntries + 10)) evictRound rounds (c,0)).map Prod.fst := rfl

theorem ensureCapacity_room (room : c.totalEntries < c.maxSize) (rounds : Nat) : c.ensureCapacity rounds = some c := by
  have done : crowded (c.totalEntries + 10) (c,0) = false := by
    rw [crowded,decide_eq_false (by dsimp only; omega)]
    rfl
  rw [ensureCapacity_eq,whileLoop_done done]
  rfl

namespace Tracked

theorem evictLRU_cons (tracked : Tracked c (key :: rest) surplus) (named : key ≠ "") :
    Tracked c.evictLRU rest surplus ∧ Shrunk c c.evictLRU := by
  have head : c.lru.head = some key := tracked.lists.head
  obtain ⟨ref,found⟩ := OrderedMap.mem_keys_iff.mp ((tracked.keys key).mp (.head rest))
  have deleted := (delete_present found).1
  have evicted : c.evictLRU = { (c.delete key).2 with evictionCount := (c.delete key).2.evictionCount + 1 } := by
    simp only [WeakCache.evictLRU,head,if_neg named,deleted,if_true]
  have apart : key ∉ rest := (List.nodup_cons.mp tracked.lists.nodup).1
  have others : (key :: rest).filter (· ≠ key) = rest := by
    rw [List.filter_cons_of_neg (by simp),filter_of_not_mem apart]
  have after := others ▸ tracked.delete key
  have shrunk := shrunk_delete c key
  rw [evicted]
  exact ⟨⟨after.lists,after.keys,after.counted⟩,
    ⟨⟨shrunk.maxSize,shrunk.ttl,shrunk.useWeakRef,shrunk.made,shrunk.collected,shrunk.registered⟩,shrunk.entry⟩⟩

section

variable (tracked : Tracked c order surplus)
include tracked

theorem evictLRU : blocked order = order ∧ c.evictLRU = c ∨
    ∃ key rest, order = key :: rest ∧ blocked order = blocked rest ∧ Tracked c.evictLRU rest surplus ∧
      Shrunk c c.evictLRU := by
  have head := tracked.lists.head
  cases order with
  | nil => exact .inl ⟨rfl,by simp [WeakCache.evictLRU,head]⟩
  | cons key rest =>
    by_cases named : key = ""
    · exact .inl ⟨by simp [blocked,named],by simp [WeakCache.evictLRU,head,named]⟩
    · obtain ⟨after,shrunk⟩ := tracked.evictLRU_cons named
      exact .inr ⟨key,rest,rfl,by simp [blocked,named],after,shrunk⟩

theorem enforceSizeLimits_spec (result : c.enforceSizeLimits rounds = some c') :
    (∃ later, later <:+ order ∧ Tracked c' later surplus) ∧ Shrunk c c' ∧ c'.totalEntries ≤ c.maxSize := by
  have all := whileLoop_spec
    (I := fun d : WeakCache α => (∃ later, later <:+ order ∧ Tracked d later surplus) ∧ Shrunk c d)
    (fun d ⟨⟨later,behind,here⟩,shrunk⟩ _ => by
      rcases here.evictLRU with ⟨_,same⟩ | ⟨key,rest,rfl,_,after,further⟩
      · rw [same]
        exact ⟨⟨later,behind,here⟩,shrunk⟩
      · exact ⟨⟨rest,(List.suffix_cons key rest).trans behind,after⟩,shrunk.trans further⟩)
    ⟨⟨order,List.suffix_refl _,tracked⟩,.refl c⟩ result
  obtain ⟨⟨later,shrunk⟩,done⟩ := all
  refine ⟨later,shrunk,?_⟩
  rw [← shrunk.maxSize]
  simpa using done

theorem enforceSizeLimits_returns (fits : ((blocked order).length + surplus : Int) ≤ c.maxSize) :
    ∃ c', c.enforceSizeLimits (c.totalEntries - c.maxSize).toNat = some c' := by
  have more (d : WeakCache α) (later : List String) (here : Tracked d later surplus)
      (room : ((blocked later).length + surplus : Int) ≤ d.maxSize) (guard : decide (d.maxSize < d.totalEntries) = true) :
      ∃ key rest, later = key :: rest ∧ blocked later = blocked rest ∧ Tracked d.evictLRU rest surplus ∧
        Shrunk d d.evictLRU := by
    refine here.evictLRU.resolve_left fun ⟨whole,_⟩ => ?_
    have counted := here.counted
    have above := of_decide_eq_true guard
    rw [whole] at room
    omega
  refine whileLoop_of_measure
    (I := fun d : WeakCache α => ∃ later, Tracked d later surplus ∧ ((blocked later).length + surplus : Int) ≤ d.maxSize)
    (fun d ⟨later,here,room⟩ guard => ?_) (fun d => (d.totalEntries - d.maxSize).toNat)
    (fun d ⟨later,here,room⟩ guard => ?_) ⟨order,tracked,fits⟩ le_rfl
  · obtain ⟨key,rest,_,same,after,shrunk⟩ := more d later here room guard
    refine ⟨rest,after,?_⟩
    rw [shrunk.maxSize,← same]
    exact room
  · obtain ⟨key,rest,rfl,_,after,shrunk⟩ := more d later here room guard
    have before := here.counted
    have counted := after.counted
    have above := of_decide_eq_true guard
    rw [List.length_cons] at before
    rw [shrunk.maxSize]
    omega

theorem enforceSizeLimits_never (full : c.maxSize < ((blocked order).length + surplus : Int)) (rounds : Nat) :
    c.enforceSizeLimits rounds = none := by
  rw [Option.eq_none_iff_forall_ne_some]
  intro c' result
  have all := whileLoop_spec
    (I := fun d : WeakCache α => ∃ later, Tracked d later surplus ∧ d.maxSize < ((blocked later).length + surplus : Int))
    (fun d ⟨later,here,above⟩ _ => by
      rcases here.evictLRU with ⟨_,same⟩ | ⟨key,rest,_,same,after,shrunk⟩
      · rw [same]
        exact ⟨later,here,above⟩
      · refine ⟨rest,after,?_⟩
        rw [shrunk.maxSize,← same]
        exact above)
    ⟨order,tracked,full⟩ result
  obtain ⟨⟨later,here,above⟩,done⟩ := all
  have counted := here.counted
  have short := length_blocked_le later
  have below : c'.totalEntries ≤ c'.maxSize := by simpa using done
  omega

theorem ensureCapacity_spec (enough : (c.totalEntries + 10).toNat ≤ rounds) :
    ∃ c' later, c.ensureCapacity rounds = some c' ∧ later <:+ order ∧ Tracked c' later surplus ∧ Shrunk c c' := by
  obtain ⟨s,result⟩ : ∃ s, whileLoop (crowded (c.totalEntries + 10)) evictRound rounds (c,0) = some s := by
    refine whileLoop_of_measure (I := fun _ => True) (fun _ _ _ => trivial)
      (fun s => (c.totalEntries + 10 - s.2).toNat) (fun s _ more => ?_) trivial ?_
    · have below : (s.2 : Int) < c.totalEntries + 10 := of_decide_eq_true (Bool.and_eq_true_iff.mp more).2
      rw [evictRound]
      omega
    · simpa using enough
  have all := whileLoop_spec
    (I := fun s : WeakCache α × Nat => ∃ later, later <:+ order ∧ Tracked s.1 later surplus ∧ Shrunk c s.1)
    (fun s ⟨later,behind,here,shrunk⟩ _ => by
      rcases here.evictLRU with ⟨_,same⟩ | ⟨key,rest,rfl,_,after,further⟩
      · exact ⟨later,behind,show Tracked s.1.evictLRU later surplus from same.symm ▸ here,
          show Shrunk c s.1.evictLRU from same.symm ▸ shrunk⟩
      · exact ⟨rest,(List.suffix_cons key rest).trans behind,after,shrunk.trans further⟩)
    ⟨order,List.suffix_refl _,tracked,.refl c⟩ result
  obtain ⟨⟨later,behind,here,shrunk⟩,_⟩ := all
  exact ⟨s.1,later,congrArg (Option.map Prod.fst) result,behind,here,shrunk⟩

end

theorem ensureCapacity_full (tracked : Tracked c (key :: rest) surplus) (full : c.totalEntries = c.maxSize)
    (enough : (c.totalEntries + 10).toNat ≤ rounds) (result : c.ensureCapacity rounds = some c') :
    c'.totalEntries < c.maxSize ↔ key ≠ "" := by
  have counted := tracked.counted
  by_cases named : key = ""
  · have same : c.evictLRU = c := by simp [WeakCache.evictLRU,tracked.lists.head,named]
    obtain ⟨s,ended,rfl⟩ := Option.map_eq_some_iff.mp result
    have all := whileLoop_spec (I := fun s : WeakCache α × Nat => s.1 = c)
      (fun s here _ => show s.1.evictLRU = c from here ▸ same) rfl ended
    rw [all.1]
    exact ⟨fun below => by omega,fun other => absurd named other⟩
  · obtain ⟨after,shrunk⟩ := tracked.evictLRU_cons named
    have lower := after.counted
    rw [List.length_cons] at counted
    obtain ⟨n,rfl⟩ : ∃ n, rounds = n + 1 := ⟨rounds - 1,by omega⟩
    have more : crowded (c.totalEntries + 10) (c,0) = true := by
      rw [crowded,decide_eq_true (by dsimp only; omega),decide_eq_true (by dsimp only; omega)]
      rfl
    have done : crowded (c.totalEntries + 10) (evictRound (c,0)) = false := by
      rw [crowded,decide_eq_false (by dsimp only [evictRound]; rw [shrunk.maxSize]; omega)]
      rfl
    have evicted : c.ensureCapacity (n + 1) = some c.evictLRU := by
      rw [ensureCapacity_eq,whileLoop_more more,whileLoop_done done]
      rfl
    obtain rfl := Option.some.inj (evicted.symm.trans result)
    exact ⟨fun _ => named,fun _ => by omega⟩

end Tracked

end ApexLs.Utils.WeakCache
