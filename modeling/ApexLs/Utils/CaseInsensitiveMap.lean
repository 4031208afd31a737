import ApexLs.Collections.OrderedMap
import ApexLs.Utils.Runtime

/-! The case-insensitive hash map. Entries are kept under the lower-cased key beside the
spelling of the first write; iteration shows that spelling, and a deleted key forgets it. -/
namespace ApexLs.Utils

open ApexLs.Collections

structure CaseInsensitiveMap [Runtime] (ν : Type) where
  entries : OrderedMap String (String × ν)
  spelled : ∀ key original v, entries.get? key = some (original,v) → toLowerCase original = key

namespace CaseInsensitiveMap

variable [Runtime] {ν : Type}

def empty : CaseInsensitiveMap ν := ⟨.empty,by simp⟩

instance : Inhabited (CaseInsensitiveMap ν) := ⟨empty⟩

def lookup (m : CaseInsensitiveMap ν) (key : String) : Option ν := (m.entries.get? key).map Prod.snd

def get (m : CaseInsensitiveMap ν) (key : String) : Option ν := m.lookup (toLowerCase key)

def has (m : CaseInsensitiveMap ν) (key : String) : Bool := (m.get key).isSome

def size (m : CaseInsensitiveMap ν) : Nat := m.entries.size

def spelling (m : CaseInsensitiveMap ν) (key : String) : String :=
  ((m.entries.get? (toLowerCase key)).map Prod.fst).getD key

theorem toLowerCase_spelling (m : CaseInsensitiveMap ν) (key : String) :
    toLowerCase (m.spelling key) = toLowerCase key := by
  unfold spelling
  cases found : m.entries.get? (toLowerCase key) with
  | none => rfl
  | some entry => exact m.spelled _ _ _ found

def set (m : CaseInsensitiveMap ν) (key : String) (value : ν) : CaseInsensitiveMap ν where
  entries := m.entries.set (toLowerCase key) (m.spelling key,value)
  spelled k original v got := by
    rw [OrderedMap.get?_set] at got
    split at got
    next same =>
      simp only [Option.some.injEq,Prod.mk.injEq] at got
      rw [same,← got.1]
      exact m.toLowerCase_spelling key
    next => exact m.spelled k original v got

def delete (m : CaseInsensitiveMap ν) (key : String) : CaseInsensitiveMap ν where
  entries := m.entries.erase (toLowerCase key)
  spelled k original v got := by
    rw [OrderedMap.get?_erase] at got
    split at got
    next => simp at got
    next => exact m.spelled k original v got

/-- Rewrite every value, dropping the entries for which the rewrite answers `none`. -/
def filterMap (m : CaseInsensitiveMap ν) (f : ν → Option ν) : CaseInsensitiveMap ν where
  entries := m.entries.filterMap (fun _ entry => (f entry.2).map (entry.1,·))
  spelled k original v got := by
    rw [OrderedMap.get?_filterMap] at got
    obtain ⟨entry,found,rewritten⟩ := Option.bind_eq_some_iff.mp got
    obtain ⟨w,_,same⟩ := Option.map_eq_some_iff.mp rewritten
    obtain ⟨rfl,rfl⟩ := Prod.mk.inj same
    exact m.spelled k entry.1 entry.2 found

def keys (m : CaseInsensitiveMap ν) : List String := m.entries.entries.map (fun p => p.2.1)

def Holds (m : CaseInsensitiveMap ν) (key : String) (value : ν) : Prop :=
  m.entries.get? (toLowerCase key) = some (key,value)

theorem Holds.get {m : CaseInsensitiveMap ν} (holds : m.Holds key v) : m.get key = some v := by
  simp [CaseInsensitiveMap.get,lookup,show m.entries.get? (toLowerCase key) = _ from holds]

theorem get_eq_some_iff {m : CaseInsensitiveMap ν} :
    m.get key = some v ↔ ∃ original, m.Holds original v ∧ toLowerCase original = toLowerCase key := by
  constructor
  · intro got
    obtain ⟨⟨original,w⟩,found,rfl⟩ := Option.map_eq_some_iff.mp got
    have same := m.spelled _ _ _ found
    exact ⟨original,by rw [Holds,same]; exact found,same⟩
  · rintro ⟨original,holds,same⟩
    rw [CaseInsensitiveMap.get,← same]
    exact holds.get

theorem exists_get_iff {m : CaseInsensitiveMap ν} : (∃ key, m.get key = some v) ↔ ∃ p ∈ m.entries.entries, p.2.2 = v := by
  constructor
  · rintro ⟨key,got⟩
    obtain ⟨original,holds,_⟩ := get_eq_some_iff.mp got
    exact ⟨_,OrderedMap.get?_eq_some_iff.mp holds,rfl⟩
  · rintro ⟨⟨k,original,v⟩,member,rfl⟩
    have found := OrderedMap.get?_eq_some_iff.mpr member
    have holds : m.Holds original v := by
      rw [Holds,m.spelled _ _ _ found]
      exact found
    exact ⟨original,holds.get⟩

theorem holds_iff_mem_keys {m : CaseInsensitiveMap ν} : (∃ v, m.Holds key v) ↔ key ∈ m.keys := by
  constructor
  · rintro ⟨v,holds⟩
    exact List.mem_map.mpr ⟨_,OrderedMap.get?_eq_some_iff.mp holds,rfl⟩
  · intro member
    obtain ⟨⟨k,original,v⟩,inside,rfl⟩ := List.mem_map.mp member
    have found := OrderedMap.get?_eq_some_iff.mpr inside
    have same : toLowerCase original = k := m.spelled k original v found
    exact ⟨v,by rw [Holds,same]; exact found⟩

theorem keys_toLowerCase (m : CaseInsensitiveMap ν) : m.keys.map toLowerCase = m.entries.keys := by
  rw [keys,List.map_map,OrderedMap.keys]
  apply List.map_congr_left
  intro p member
  exact m.spelled p.1 p.2.1 p.2.2 (OrderedMap.get?_eq_some_iff.mpr member)

theorem keys_toLowerCase_nodup (m : CaseInsensitiveMap ν) : (m.keys.map toLowerCase).Nodup := by
  rw [keys_toLowerCase]
  exact m.entries.keys_nodup

theorem Holds.unique {m : CaseInsensitiveMap ν} (holds : m.Holds key v) (holds' : m.Holds key' v')
    (same : toLowerCase key = toLowerCase key') : key = key' ∧ v = v' := by
  rw [Holds,same,show m.entries.get? (toLowerCase key') = _ from holds'] at holds
  simpa [eq_comm] using holds

@[simp] theorem lookup_empty (key : String) : (empty : CaseInsensitiveMap ν).lookup key = none := rfl

@[simp] theorem get_empty (key : String) : (empty : CaseInsensitiveMap ν).get key = none := rfl

theorem not_holds_empty (key : String) (v : ν) : ¬ (empty : CaseInsensitiveMap ν).Holds key v := by
  intro holds
  cases holds

section

variable (m : CaseInsensitiveMap ν)
include m

theorem lookup_set (key k : String) (v : ν) :
    (m.set key v).lookup k = if k = toLowerCase key then some v else m.lookup k := by
  simp only [lookup,set,OrderedMap.get?_set]
  split <;> rfl

theorem get_set (key key' : String) (v : ν) :
    (m.set key v).get key' = if toLowerCase key' = toLowerCase key then some v else m.get key' :=
  m.lookup_set key _ v

@[simp] theorem get_set_self (key : String) (v : ν) : (m.set key v).get key = some v := by
  simp [get_set]

theorem lookup_delete (key k : String) :
    (m.delete key).lookup k = if k = toLowerCase key then none else m.lookup k := by
  simp only [lookup,delete,OrderedMap.get?_erase]
  split <;> rfl

theorem get_delete (key key' : String) :
    (m.delete key).get key' = if toLowerCase key' = toLowerCase key then none else m.get key' :=
  m.lookup_delete key _

theorem lookup_filterMap (f : ν → Option ν) (k : String) :
    (m.filterMap f).lookup k = (m.lookup k).bind f := by
  simp only [lookup,filterMap,OrderedMap.get?_filterMap]
  cases m.entries.get? k with
  | none => rfl
  | some entry => cases rewritten : f entry.2 <;> simp [rewritten]

theorem get_filterMap (f : ν → Option ν) (key : String) :
    (m.filterMap f).get key = (m.get key).bind f :=
  m.lookup_filterMap f _

end

theorem holds_set_fresh {m : CaseInsensitiveMap ν} (fresh : m.get key = none) :
    (m.set key v).Holds k w ↔ (k = key ∧ w = v) ∨ m.Holds k w := by
  have spellingEq : m.spelling key = key := by
    unfold spelling
    cases found : m.entries.get? (toLowerCase key) with
    | none => rfl
    | some entry => simp [get,lookup,found] at fresh
  have absent : ∀ k w, m.Holds k w → toLowerCase k ≠ toLowerCase key := by
    intro k w holds same
    rw [get_eq_some_iff.mpr ⟨k,holds,same⟩] at fresh
    simp at fresh
  simp only [Holds,set,OrderedMap.get?_set,spellingEq]
  constructor
  · intro got
    split at got
    next => exact .inl (by simpa [eq_comm] using got)
    next => exact .inr got
  · rintro (⟨rfl,rfl⟩ | holds)
    · simp
    · rw [if_neg (absent k w holds)]
      exact holds

theorem size_set_fresh {m : CaseInsensitiveMap ν} (fresh : m.get key = none) (v : ν) :
    (m.set key v).size = m.size + 1 := by
  have absent : m.entries.has (toLowerCase key) = false := by
    simp only [get,lookup,Option.map_eq_none_iff] at fresh
    rw [OrderedMap.has,fresh]
    rfl
  simp only [size,set,OrderedMap.size_set,absent,Bool.false_eq_true,if_false]

theorem mem_keys_set {m : CaseInsensitiveMap ν} (listed : k ∈ (m.set key v).keys) : k ∈ m.keys ∨ k = key := by
  obtain ⟨w,holds⟩ := holds_iff_mem_keys.mpr listed
  simp only [Holds,set,OrderedMap.get?_set] at holds
  split at holds
  next =>
    obtain ⟨rfl,_⟩ := Prod.mk.inj (Option.some.inj holds)
    unfold spelling
    cases found : m.entries.get? (toLowerCase key) with
    | none => exact .inr rfl
    | some entry =>
      have same := m.spelled _ entry.1 entry.2 found
      exact .inl (holds_iff_mem_keys.mp ⟨entry.2,by rw [Holds,Option.map_some,Option.getD_some,same]; exact found⟩)
  next => exact .inl (holds_iff_mem_keys.mp ⟨w,holds⟩)

theorem holds_delete {m : CaseInsensitiveMap ν} :
    (m.delete key).Holds k w ↔ m.Holds k w ∧ toLowerCase k ≠ toLowerCase key := by
  simp only [Holds,delete,OrderedMap.get?_erase]
  split
  next same => simp [same]
  next apart => simp [apart]

end CaseInsensitiveMap
end ApexLs.Utils
