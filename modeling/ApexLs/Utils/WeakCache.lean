import Mathlib.Algebra.Order.Group.Int
import Mathlib.Data.List.Perm.Lattice
import ApexLs.Collections.KeyLinks
import ApexLs.Collections.WhileLoops

/-! The unified cache with its bookkeeping: a map from keys to entries, the order of their use, and the counters. A weak
entry may be collected between any two calls, and the callback for it comes at any time after that. -/
namespace ApexLs.Utils

open ApexLs.Collections

inductive CacheEntryType where
  | symbolLookup | fqnLookup | fileLookup | relationship | metrics | patternMatch | stats | analysis
  deriving DecidableEq, Repr

structure UnifiedCacheEntry (α : Type u) where
  value : α
  timestamp : Int
  accessCount : Nat
  lastAccessed : Int
  type : CacheEntryType

structure EntryRef (α : Type u) where
  object : Nat
  entry : UnifiedCacheEntry α

/-- The cache. Beside its own fields stand the number of entries made, those that were collected, and the
registrations whose callback has not run. `hitRate` is left out: it is made of the two counts. -/
structure WeakCache (α : Type u) where
  maxSize : Int := 5000
  ttl : Int := 3 * 60 * 1000
  useWeakRef : Bool := true
  cache : OrderedMap String (EntryRef α) := .empty
  lru : KeyLinks String := {}
  totalEntries : Int := 0
  hitCount : Nat := 0
  missCount : Nat := 0
  evictionCount : Nat := 0
  typeDistribution : OrderedMap CacheEntryType Int := .empty
  lastOptimization : Int := 0
  made : Nat := 0
  collected : List Nat := []
  registered : List (Nat × String) := []

namespace WeakCache

variable {α : Type u}

def getEntry (c : WeakCache α) (ref : EntryRef α) : Option (UnifiedCacheEntry α) :=
  if c.useWeakRef && ref.object ∈ c.collected then none else some ref.entry

def updateTypeDistribution (c : WeakCache α) (type : CacheEntryType) (delta : Int) : WeakCache α :=
  { c with typeDistribution := c.typeDistribution.set type ((c.typeDistribution.get? type).getD 0 + delta) }

/-- `cache.delete(key)` and `removeFromAccessOrder(key)`. -/
def drop (c : WeakCache α) (key : String) : WeakCache α :=
  { c with cache := c.cache.erase key,lru := c.lru.remove key }

def updateAccessOrder (c : WeakCache α) (key : String) : WeakCache α := { c with lru := (c.lru.remove key).append key }

def delete (c : WeakCache α) (key : String) : Bool × WeakCache α :=
  match c.cache.get? key with
  | none => (false,c)
  | some ref =>
    let c := match c.getEntry ref with
      | some entry => c.updateTypeDistribution entry.type (-1)
      | none => c
    let c := c.drop key
    (true,{ c with totalEntries := c.totalEntries - 1 })

def miss (c : WeakCache α) : WeakCache α := { c with missCount := c.missCount + 1 }

def expired (c : WeakCache α) (now : Int) (entry : UnifiedCacheEntry α) : Bool := c.ttl < now - entry.timestamp

def get (c : WeakCache α) (key : String) (now : Int) : Option α × WeakCache α :=
  match c.cache.get? key with
  | none => (none,c.miss)
  | some ref =>
    match c.getEntry ref with
    | none => (none,(c.drop key).miss)
    | some entry =>
      if c.expired now entry then (none,(c.delete key).2.miss)
      else
        let entry := { entry with accessCount := entry.accessCount + 1,lastAccessed := now }
        let c := { c with cache := c.cache.set key { ref with entry := entry } }.updateAccessOrder key
        (some entry.value,{ c with hitCount := c.hitCount + 1 })

def evictLRU (c : WeakCache α) : WeakCache α :=
  match c.lru.head with
  | none => c
  | some lruKey =>
    if lruKey = "" then c
    else
      let (wasDeleted,c) := c.delete lruKey
      let c := { c with evictionCount := c.evictionCount + 1 }
      if wasDeleted then c
      else { c with lru := c.lru.remove lruKey,totalEntries := max 0 (c.totalEntries - 1) }

/-- The loop gets at most `rounds` rounds, beside its own safety limit. -/
def ensureCapacity (c : WeakCache α) (rounds : Nat) : Option (WeakCache α) :=
  let maxEvictionAttempts := c.totalEntries + 10
  (whileLoop (fun s : WeakCache α × Nat => s.1.maxSize ≤ s.1.totalEntries && (s.2 : Int) < maxEvictionAttempts)
    (fun s => (s.1.evictLRU,s.2 + 1)) rounds (c,0)).map Prod.fst

def add (c : WeakCache α) (key : String) (value : α) (type : CacheEntryType) (now : Int) : WeakCache α :=
  let entry : UnifiedCacheEntry α := ⟨value,now,1,now,type⟩
  let c := { c with
    cache := c.cache.set key ⟨c.made,entry⟩
    made := c.made + 1
    registered := if c.useWeakRef then c.registered ++ [(c.made,key)] else c.registered }
  let c := c.updateAccessOrder key
  { c with totalEntries := c.totalEntries + 1 }.updateTypeDistribution type 1

def set (c : WeakCache α) (rounds : Nat) (key : String) (value : α) (type : CacheEntryType) (now : Int) :
    Option (WeakCache α) :=
  let c := if c.cache.has key then (c.delete key).2 else c
  (c.ensureCapacity rounds).map fun c => c.add key value type now

def has (c : WeakCache α) (key : String) (now : Int) : Bool × WeakCache α :=
  match c.cache.get? key with
  | none => (false,c)
  | some ref =>
    match c.getEntry ref with
    | none => (false,c.drop key)
    | some entry => (now - entry.timestamp ≤ c.ttl,c)

def clear (c : WeakCache α) (now : Int) : WeakCache α :=
  { c with
    cache := .empty
    lru := {}
    totalEntries := 0
    hitCount := 0
    missCount := 0
    evictionCount := 0
    typeDistribution := .empty
    lastOptimization := now }

def outdated (c : WeakCache α) (now : Int) (ref : EntryRef α) : Bool := (c.getEntry ref).all (c.expired now)

def removeExpired (c : WeakCache α) (now : Int) : WeakCache α :=
  c.cache.entries.foldl (fun s p => if c.outdated now p.2 then (s.delete p.1).2 else s) c

def enforceSizeLimits (c : WeakCache α) (rounds : Nat) : Option (WeakCache α) :=
  whileLoop (fun c : WeakCache α => c.maxSize < c.totalEntries) evictLRU rounds c

def optimize (c : WeakCache α) (rounds : Nat) (now : Int) : Option (WeakCache α) :=
  ((c.removeExpired now).enforceSizeLimits rounds).map fun c => { c with lastOptimization := now }

/-- `test pattern key` is `new RegExp(pattern, 'i').test(key)`. -/
def invalidatePattern (test : String → String → Bool) (c : WeakCache α) (pattern : String) : Nat × WeakCache α :=
  c.cache.keys.foldl (fun (count,c) key =>
    if test pattern key then
      let (deleted,c) := c.delete key
      (if deleted then count + 1 else count,c)
    else (count,c)) (0,c)

def handleGarbageCollected (c : WeakCache α) (key : String) : WeakCache α :=
  if c.cache.has key then { c.drop key with totalEntries := max 0 (c.totalEntries - 1) } else c

def collect (c : WeakCache α) (object : Nat) : WeakCache α :=
  if c.registered.any (·.1 = object) then { c with collected := object :: c.collected } else c

def callback (c : WeakCache α) (i : Nat) : WeakCache α :=
  match c.registered[i]? with
  | some (object,key) =>
    if object ∈ c.collected then { c with registered := c.registered.eraseIdx i }.handleGarbageCollected key else c
  | none => c

inductive Event (α : Type u) where
  | get (key : String) (now : Int)
  | set (key : String) (value : α) (type : CacheEntryType) (now : Int)
  | delete (key : String)
  | has (key : String) (now : Int)
  | optimize (now : Int)
  | invalidatePattern (pattern : String)
  | clear (now : Int)
  | collect (object : Nat)
  | callback (i : Nat)

/-- Without a result the call never returns: the rounds are as many as its loop can need. -/
def perform (test : String → String → Bool) (c : WeakCache α) : Event α → Option (WeakCache α)
  | .get key now => some (c.get key now).2
  | .set key value type now => c.set (c.totalEntries + 10).toNat key value type now
  | .delete key => some (c.delete key).2
  | .has key now => some (c.has key now).2
  | .optimize now => c.optimize (c.totalEntries - c.maxSize).toNat now
  | .invalidatePattern pattern => some (c.invalidatePattern test pattern).2
  | .clear now => some (c.clear now)
  | .collect object => some (c.collect object)
  | .callback i => some (c.callback i)

/-- The key that a call accesses: the one it sets, or the one it reads successfully. -/
def accessed (c : WeakCache α) : Event α → Option String
  | .get key now => if (c.get key now).1.isSome then some key else none
  | .set key .. => some key
  | _ => none

end WeakCache
end ApexLs.Utils
