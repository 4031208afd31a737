import ApexLs.Utils.CacheBookkeeping

/-! Runs of the unified cache: calls, collections and callbacks in any order. A session keeps beside the cache when each
key was accessed last, and for each key the value set for it that nothing has ended since. -/
namespace ApexLs.Utils.WeakCache

open ApexLs.Collections

variable {α : Type u}

structure Setting (α : Type u) where
  object : Nat
  value : α
  timestamp : Int

structure Session (α : Type u) where
  cache : WeakCache α
  clock : Nat := 0
  lastAccess : String → Nat := fun _ => 0
  standing : String → Option (Setting α) := fun _ => none

def replaced (c : WeakCache α) (key : String) : WeakCache α := if c.cache.has key then (c.delete key).2 else c

def leavesOut (before : WeakCache α) (after : Option (WeakCache α)) (key : String) : Bool :=
  before.cache.has key && after.all fun c => !c.cache.has key

def evicts (c : WeakCache α) (key : String) : Event α → Bool
  | .set k .. => leavesOut (c.replaced k) ((c.replaced k).ensureCapacity (c.totalEntries + 10).toNat) key
  | .optimize now => leavesOut (c.removeExpired now)
      ((c.removeExpired now).enforceSizeLimits (c.totalEntries - c.maxSize).toNat) key
  | _ => false

/-- The call replaces, deletes, invalidates or expires what was set for the key, or its entry is collected. -/
def withdraws (test : String → String → Bool) (c : WeakCache α) (key : String) (x : Setting α) : Event α → Bool
  | .get k now => k = key && c.ttl < now - x.timestamp
  | .set k .. => k = key
  | .delete k => k = key
  | .has .. => false
  | .optimize now => c.ttl < now - x.timestamp
  | .invalidatePattern pattern => test pattern key
  | .clear _ => true
  | .collect object => x.object ∈ (c.collect object).collected
  | .callback _ => false

def Session.standingAfter (test : String → String → Bool) (s : Session α) (key : String) (e : Event α) :
    Option (Setting α) :=
  let rest := (s.standing key).filter fun x => !s.cache.withdraws test key x e && !s.cache.evicts key e
  match e with
  | .set k value _ now => if k = key then some ⟨s.cache.made,value,now⟩ else rest
  | _ => rest

def Session.follow (test : String → String → Bool) (s : Session α) (e : Event α) (c : WeakCache α) : Session α where
  cache := c
  clock := s.clock + 1
  lastAccess key := if s.cache.accessed e = some key then s.clock else s.lastAccess key
  standing key := s.standingAfter test key e

/-- No session is left once a call never returns. -/
def step (test : String → String → Bool) (s : Option (Session α)) (e : Event α) : Option (Session α) :=
  s.bind fun s => (s.cache.perform test e).map (s.follow test e)

def fresh (maxSize ttl : Int) (useWeakRef : Bool) : Option (Session α) :=
  some { cache := { maxSize := maxSize,ttl := ttl,useWeakRef := useWeakRef } }

def holdsCollected (c : WeakCache α) (key : String) : Bool :=
  (c.cache.get? key).any fun ref => (c.getEntry ref).isNone

def surplusAfter (c : WeakCache α) (surplus : Nat) : Event α → Nat
  | .clear _ => 0
  | .get key _ | .has key _ => if c.holdsCollected key then surplus + 1 else surplus
  | _ => surplus

def Moved (order order' : List String) : Option String → Prop
  | none => order'.Sublist order
  | some key => ∃ kept, kept.Sublist order ∧ key ∉ kept ∧ order' = kept ++ [key]

theorem perform_set (test : String → String → Bool) (c : WeakCache α) (key : String) (value : α) (type : CacheEntryType)
    (now : Int) : c.perform test (.set key value type now) =
      ((c.replaced key).ensureCapacity (c.totalEntries + 10).toNat).map fun c => c.add key value type now := rfl

theorem perform_optimize (test : String → String → Bool) (c : WeakCache α) (now : Int) :
    c.perform test (.optimize now) =
      ((c.removeExpired now).enforceSizeLimits (c.totalEntries - c.maxSize).toNat).map
        fun c => { c with lastOptimization := now } := rfl

section

variable {c : WeakCache α}

theorem get_absent (absent : c.cache.get? key = none) (now : Int) : c.get key now = (none,c.miss) := by
  rw [get,absent]

theorem get_collected (found : c.cache.get? key = some ref) (gone : c.getEntry ref = none) (now : Int) :
    c.get key now = (none,(c.drop key).miss) := by
  simp only [get,found,gone]

theorem get_expired (found : c.cache.get? key = some ref) (live : c.getEntry ref = some entry)
    (late : c.expired now entry = true) : c.get key now = (none,(c.delete key).2.miss) := by
  simp only [get,found,live,if_pos late]

theorem get_hit (found : c.cache.get? key = some ref) (live : c.getEntry ref = some entry)
    (fresh : ¬ c.expired now entry = true) : (c.get key now).1 = some entry.value ∧ ∃ later : UnifiedCacheEntry α,
      later.value = entry.value ∧ later.timestamp = entry.timestamp ∧ (c.get key now).2 =
        { { c with cache := c.cache.set key { ref with entry := later } }.updateAccessOrder key with
          hitCount := c.hitCount + 1 } := by
  simp only [get,found,live,if_neg fresh]
  exact ⟨trivial,{ entry with accessCount := entry.accessCount + 1,lastAccessed := now },rfl,rfl,rfl⟩

theorem has_absent (absent : c.cache.get? key = none) (now : Int) : c.has key now = (false,c) := by
  rw [has,absent]

theorem has_collected (found : c.cache.get? key = some ref) (gone : c.getEntry ref = none) (now : Int) :
    c.has key now = (false,c.drop key) := by
  simp only [has,found,gone]

theorem has_live (found : c.cache.get? key = some ref) (live : c.getEntry ref = some entry) (now : Int) :
    (c.has key now).2 = c := by
  simp only [has,found,live]

end

theorem get_aside (c : WeakCache α) (key : String) (now : Int) : Aside c (c.get key now).2 := by
  cases found : c.cache.get? key with
  | none =>
    rw [get_absent found]
    exact ⟨rfl,rfl,rfl,rfl,rfl,rfl⟩
  | some ref =>
    cases live : c.getEntry ref with
    | none =>
      rw [get_collected found live]
      exact ⟨rfl,rfl,rfl,rfl,rfl,rfl⟩
    | some entry =>
      by_cases late : c.expired now entry = true
      · rw [get_expired found live late]
        exact (delete_aside c key).trans ⟨rfl,rfl,rfl,rfl,rfl,rfl⟩
      · obtain ⟨_,later,_,_,after⟩ := get_hit found live late
        rw [after]
        exact ⟨rfl,rfl,rfl,rfl,rfl,rfl⟩

theorem has_aside (c : WeakCache α) (key : String) (now : Int) : Aside c (c.has key now).2 := by
  cases found : c.cache.get? key with
  | none =>
    rw [has_absent found]
    exact .refl c
  | some ref =>
    cases live : c.getEntry ref with
    | none =>
      rw [has_collected found live]
      exact ⟨rfl,rfl,rfl,rfl,rfl,rfl⟩
    | some entry =>
      rw [has_live found live]
      exact .refl c

theorem shrunk_replaced (c : WeakCache α) (key : String) : Shrunk c (c.replaced key) := by
  unfold replaced
  split
  · exact shrunk_delete c key
  · exact .refl c

namespace Tracked

variable {c : WeakCache α} {order : List String} {surplus : Nat}

section

variable (tracked : Tracked c order surplus)
include tracked

theorem of_eq (lru : c'.lru = c.lru) (cache : c'.cache = c.cache)
    (total : c'.totalEntries = c.totalEntries) : Tracked c' order surplus :=
  ⟨lru ▸ tracked.lists,cache ▸ tracked.keys,total ▸ tracked.counted⟩

theorem updateAccessOrder (member : key ∈ c.cache.keys) :
    Tracked (c.updateAccessOrder key) (order.filter (· ≠ key) ++ [key]) surplus := by
  have unlisted : key ∉ order.filter (· ≠ key) := by simp
  have moved := (erase_eq_filter tracked.lists.nodup key ▸ tracked.lists.remove key).append unlisted
  have shorter := tracked.length_filter ((tracked.keys key).mpr member)
  have counted := tracked.counted
  refine ⟨moved,fun k => ?_,?_⟩
  · rw [show (c.updateAccessOrder key).cache = c.cache from rfl,← tracked.keys]
    have there := (tracked.keys key).mpr member
    by_cases same : k = key
    · simp [same,there]
    · simp [same]
  · rw [show (c.updateAccessOrder key).totalEntries = c.totalEntries from rfl,List.length_append,List.length_singleton]
    omega

theorem replaced (key : String) :
    Tracked (c.replaced key) (order.filter (· ≠ key)) surplus := by
  unfold WeakCache.replaced
  split
  next => exact tracked.delete key
  next held =>
    have absent : key ∉ order := fun member =>
      held (OrderedMap.has_iff.mpr (OrderedMap.mem_keys_iff.mp ((tracked.keys key).mp member)))
    rw [filter_of_not_mem absent]
    exact tracked

theorem makeRoom (key : String) :
    ∃ d later, (c.replaced key).ensureCapacity (c.totalEntries + 10).toNat = some d ∧
      later <:+ order.filter (· ≠ key) ∧ Tracked d later surplus ∧ Shrunk (c.replaced key) d := by
  have ready := tracked.replaced key
  refine ready.ensureCapacity_spec ?_
  have before := tracked.counted
  have after := ready.counted
  have length := (List.filter_sublist (p := fun k => decide (k ≠ key)) (l := order)).length_le
  omega

theorem add (absent : key ∉ order) (value : α) (type : CacheEntryType) (now : Int) :
    Tracked (c.add key value type now) (order ++ [key]) surplus := by
  have lists : (c.lru.remove key).Lists order := List.erase_of_not_mem absent ▸ tracked.lists.remove key
  have keys : (c.add key value type now).cache.keys = c.cache.keys ++ [key] := by
    have unknown : key ∉ c.cache.keys := fun member => absent ((tracked.keys key).mpr member)
    exact (OrderedMap.keys_set _ _ _).trans (if_neg unknown)
  have counted := tracked.counted
  refine ⟨lists.append absent,fun k => ?_,?_⟩
  · rw [keys,List.mem_append,List.mem_append,tracked.keys]
  · rw [show (c.add key value type now).totalEntries = c.totalEntries + 1 from rfl,List.length_append,
      List.length_singleton]
    omega

theorem get (key : String) (now : Int) :
    ∃ order', Tracked (c.get key now).2 order' (c.surplusAfter surplus (.get key now)) ∧
      Moved order order' (c.accessed (.get key now)) := by
  rw [surplusAfter,holdsCollected,accessed]
  cases found : c.cache.get? key with
  | none =>
    rw [get_absent found]
    exact ⟨order,tracked.of_eq rfl rfl rfl,List.Sublist.refl order⟩
  | some ref =>
    cases live : c.getEntry ref with
    | none =>
      rw [get_collected found live,Option.any_some,live]
      exact ⟨_,(tracked.lost found).of_eq rfl rfl rfl,List.filter_sublist⟩
    | some entry =>
      rw [Option.any_some,live]
      by_cases late : c.expired now entry = true
      · rw [get_expired found live late]
        exact ⟨_,(tracked.delete key).of_eq rfl rfl rfl,List.filter_sublist⟩
      · obtain ⟨value,later,_,_,after⟩ := get_hit found live late
        have member : key ∈ c.cache.keys := OrderedMap.mem_keys_iff.mpr ⟨ref,found⟩
        have keys (k : String) : k ∈ (c.cache.set key { ref with entry := later }).keys ↔ k ∈ c.cache.keys := by
          rw [OrderedMap.keys_set,if_pos member]
        have touched : Tracked { c with cache := c.cache.set key { ref with entry := later } } order surplus :=
          ⟨tracked.lists,fun k => (tracked.keys k).trans (keys k).symm,tracked.counted⟩
        rw [value,after]
        exact ⟨_,(touched.updateAccessOrder ((keys key).mpr member)).of_eq rfl rfl rfl,_,List.filter_sublist,
          by simp,rfl⟩

theorem has (key : String) (now : Int) :
    ∃ order', Tracked (c.has key now).2 order' (c.surplusAfter surplus (.has key now)) ∧ order'.Sublist order := by
  rw [surplusAfter,holdsCollected]
  cases found : c.cache.get? key with
  | none =>
    rw [has_absent found]
    exact ⟨order,tracked,List.Sublist.refl order⟩
  | some ref =>
    cases live : c.getEntry ref with
    | none =>
      rw [has_collected found live,Option.any_some,live]
      exact ⟨_,tracked.lost found,List.filter_sublist⟩
    | some entry =>
      rw [has_live found live,Option.any_some,live]
      exact ⟨order,tracked,List.Sublist.refl order⟩

theorem callback (i : Nat) :
    ∃ order', Tracked (c.callback i) order' surplus ∧ order'.Sublist order := by
  unfold WeakCache.callback
  cases c.registered[i]? with
  | none => exact ⟨order,tracked,List.Sublist.refl order⟩
  | some registration =>
    obtain ⟨object,key⟩ := registration
    dsimp only
    split
    · have same : Tracked { c with registered := c.registered.eraseIdx i } order surplus := tracked.of_eq rfl rfl rfl
      exact ⟨_,same.handleGarbageCollected key,List.filter_sublist⟩
    · exact ⟨order,tracked,List.Sublist.refl order⟩

theorem collect (object : Nat) : Tracked (c.collect object) order surplus := by
  unfold WeakCache.collect
  split
  · exact tracked.of_eq rfl rfl rfl
  · exact tracked

end

theorem perform {test : String → String → Bool} (tracked : Tracked c order surplus) (e : Event α)
    (result : c.perform test e = some c') :
    ∃ order', Tracked c' order' (c.surplusAfter surplus e) ∧ Moved order order' (c.accessed e) := by
  cases e with
  | get key now =>
    obtain rfl := Option.some.inj result
    exact tracked.get key now
  | set key value type now =>
    rw [perform_set] at result
    obtain ⟨d,made,rfl⟩ := Option.map_eq_some_iff.mp result
    obtain ⟨d',later,again,behind,here,_⟩ := tracked.makeRoom key
    obtain rfl := Option.some.inj (made.symm.trans again)
    have absent : key ∉ later := fun member => by simpa using behind.subset member
    exact ⟨_,here.add absent value type now,later,behind.sublist.trans List.filter_sublist,absent,rfl⟩
  | delete key =>
    obtain rfl := Option.some.inj result
    exact ⟨_,tracked.delete key,List.filter_sublist⟩
  | has key now =>
    obtain rfl := Option.some.inj result
    exact tracked.has key now
  | optimize now =>
    rw [perform_optimize,removeExpired_eq] at result
    obtain ⟨d,made,rfl⟩ := Option.map_eq_some_iff.mp result
    obtain ⟨⟨later,behind,here⟩,_,_⟩ := (tracked.deleteAll _).enforceSizeLimits_spec made
    exact ⟨later,here.of_eq rfl rfl rfl,behind.sublist.trans List.filter_sublist⟩
  | invalidatePattern pattern =>
    obtain rfl := Option.some.inj result
    rw [invalidatePattern_eq]
    exact ⟨_,tracked.deleteAll _,List.filter_sublist⟩
  | clear now =>
    obtain rfl := Option.some.inj result
    refine ⟨[],⟨KeyLinks.lists_empty,fun k => ?_,rfl⟩,List.nil_sublist order⟩
    exact ⟨fun member => absurd member List.not_mem_nil,fun member => absurd member List.not_mem_nil⟩
  | collect object =>
    obtain rfl := Option.some.inj result
    exact ⟨order,tracked.collect object,List.Sublist.refl order⟩
  | callback i =>
    obtain rfl := Option.some.inj result
    exact tracked.callback i

end Tracked

def Sound (s : Session α) : Prop :=
  ∃ order surplus, Tracked s.cache order surplus ∧ order.Pairwise (fun a b => s.lastAccess a < s.lastAccess b) ∧
    ∀ k ∈ order, s.lastAccess k < s.clock

theorem sound_fresh (maxSize ttl : Int) (useWeakRef : Bool) :
    ∀ s : Session α, fresh maxSize ttl useWeakRef = some s → Sound s := by
  intro s is
  obtain rfl := Option.some.inj is
  refine ⟨[],0,⟨KeyLinks.lists_empty,fun k => ?_,rfl⟩,.nil,fun k member => absurd member List.not_mem_nil⟩
  exact ⟨fun member => absurd member List.not_mem_nil,fun member => absurd member List.not_mem_nil⟩

theorem Sound.follow {test : String → String → Bool} {s : Session α} {e : Event α} (sorted :
    order.Pairwise fun a b => s.lastAccess a < s.lastAccess b) (earlier : ∀ k ∈ order, s.lastAccess k < s.clock)
    (moved : Moved order order' (s.cache.accessed e)) (c : WeakCache α) :
    (order'.Pairwise fun a b => (s.follow test e c).lastAccess a < (s.follow test e c).lastAccess b) ∧
      ∀ k ∈ order', (s.follow test e c).lastAccess k < (s.follow test e c).clock := by
  have access (k : String) : (s.follow test e c).lastAccess k =
      if s.cache.accessed e = some k then s.clock else s.lastAccess k := rfl
  have clock : (s.follow test e c).clock = s.clock + 1 := rfl
  cases which : s.cache.accessed e with
  | none =>
    rw [which] at moved
    simp only [access,which,reduceCtorEq,if_false]
    refine ⟨sorted.sublist moved,fun k member => ?_⟩
    have := earlier k (moved.subset member)
    omega
  | some key =>
    rw [which] at moved
    obtain ⟨kept,part,absent,rfl⟩ := moved
    have old (k : String) (member : k ∈ kept) : (s.follow test e c).lastAccess k = s.lastAccess k := by
      rw [access,which,if_neg]
      exact fun same => absent (Option.some.inj same ▸ member)
    have new : (s.follow test e c).lastAccess key = s.clock := by rw [access,which,if_pos rfl]
    constructor
    · rw [List.pairwise_append]
      refine ⟨(sorted.sublist part).imp_of_mem fun ma mb less => ?_,List.pairwise_singleton _ _,fun a ma b mb => ?_⟩
      · rw [old _ ma,old _ mb]
        exact less
      · rw [List.mem_singleton.mp mb,old a ma,new]
        exact earlier a (part.subset ma)
    · intro k member
      rcases List.mem_append.mp member with first | last
      · have := earlier k (part.subset first)
        rw [old k first]
        omega
      · rw [List.mem_singleton.mp last,new]
        omega

theorem sound_step (test : String → String → Bool) (s : Option (Session α)) (e : Event α)
    (sound : ∀ t, s = some t → Sound t) : ∀ t, step test s e = some t → Sound t := by
  intro t stepped
  obtain ⟨s,rfl,performed⟩ := Option.bind_eq_some_iff.mp stepped
  obtain ⟨c,result,rfl⟩ := Option.map_eq_some_iff.mp performed
  obtain ⟨order,surplus,tracked,sorted,earlier⟩ := sound s rfl
  obtain ⟨order',after,moved⟩ := tracked.perform e result
  obtain ⟨sorted,earlier⟩ := Sound.follow sorted earlier moved c
  exact ⟨order',_,after,sorted,earlier⟩

end ApexLs.Utils.WeakCache
