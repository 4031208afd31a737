import ApexLs.Collections.OrderedMap

/-! The cache in front of the symbol manager's lookups. How many entries it keeps, the order of
their use, the weak references and the time to live only decide which entries go and when; any
entry may go at any time here. -/
namespace ApexLs.Utils

open ApexLs.Collections

structure UnifiedCache (α : Type u) where
  cache : OrderedMap String α := .empty

namespace UnifiedCache

variable {α : Type u}

def get (c : UnifiedCache α) (key : String) : Option α := c.cache.get? key

def delete (c : UnifiedCache α) (key : String) : UnifiedCache α := { cache := c.cache.erase key }

/-- An entry that is there is taken out first, so the new one counts as the latest. -/
def set (c : UnifiedCache α) (key : String) (value : α) : UnifiedCache α :=
  { cache := (c.delete key).cache.set key value }

/-- Delete every key in which the pattern is found; `test pattern key` is
`new RegExp(pattern, 'i').test(key)`. -/
def invalidatePattern (test : String → String → Bool) (c : UnifiedCache α) (pattern : String) : UnifiedCache α :=
  c.cache.keys.foldl (fun c key => if test pattern key then c.delete key else c) c

def invalidate (test : String → String → Bool) (c : UnifiedCache α) (patterns : List String) : UnifiedCache α :=
  patterns.foldl (invalidatePattern test) c

@[simp] theorem get_empty (key : String) : ({} : UnifiedCache α).get key = none := rfl

theorem get_delete (c : UnifiedCache α) (key key' : String) :
    (c.delete key).get key' = if key' = key then none else c.get key' :=
  OrderedMap.get?_erase c.cache key key'

theorem get_set (c : UnifiedCache α) (key key' : String) (value : α) :
    (c.set key value).get key' = if key' = key then some value else c.get key' := by
  rw [get,set,OrderedMap.get?_set]
  by_cases same : key' = key
  · rw [if_pos same,if_pos same]
  · rw [if_neg same,if_neg same]
    exact OrderedMap.get?_erase_of_ne c.cache same

theorem get_deletes (test : String → Bool) (c : UnifiedCache α) (keys : List String) (key : String) :
    (keys.foldl (fun c k => if test k then c.delete k else c) c).get key =
      if key ∈ keys ∧ test key = true then none else c.get key := by
  induction keys generalizing c with
  | nil => simp
  | cons k keys ih =>
    rw [List.foldl_cons,ih]
    by_cases here : key = k
    · subst here
      by_cases found : test key = true
      · simp [found,get_delete]
      · simp [found]
    · by_cases found : test k = true
      · simp [found,get_delete,here]
      · simp [found,here]

theorem get_invalidatePattern (test : String → String → Bool) (c : UnifiedCache α) (pattern key : String) :
    (c.invalidatePattern test pattern).get key = if test pattern key then none else c.get key := by
  rw [invalidatePattern,get_deletes (test pattern)]
  by_cases found : test pattern key = true
  · by_cases there : key ∈ c.cache.keys
    · simp [there,found]
    · have absent : c.get key = none := OrderedMap.get?_eq_none_iff.mpr there
      simp [there,found,absent]
  · simp [found]

theorem get_invalidate (test : String → String → Bool) (c : UnifiedCache α) (patterns : List String) (key : String) :
    (c.invalidate test patterns).get key = if ∃ pattern ∈ patterns, test pattern key = true then none else c.get key := by
  induction patterns generalizing c with
  | nil => simp [invalidate]
  | cons pattern patterns ih =>
    have rest : (c.invalidate test (pattern :: patterns)) = (c.invalidatePattern test pattern).invalidate test patterns := rfl
    rw [rest,ih,get_invalidatePattern]
    by_cases first : test pattern key = true
    · simp [first]
    · simp [first]

end UnifiedCache
end ApexLs.Utils
