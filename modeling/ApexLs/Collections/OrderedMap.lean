import Mathlib.Data.List.Nodup

/-! Insertion-ordered finite maps and sets with unique keys. Writing a key that is
present keeps its position; a new key goes last. Nothing here names a program: the
lookup laws below are all that a client needs. -/
namespace ApexLs.Collections

structure OrderedMap (κ : Type u) (ν : Type v) where
  entries : List (κ × ν)
  unique : (entries.map Prod.fst).Nodup

namespace OrderedMap

variable {κ : Type u} {ν : Type v}

def empty : OrderedMap κ ν := ⟨[], List.nodup_nil⟩

def keys (m : OrderedMap κ ν) : List κ := m.entries.map Prod.fst

def size (m : OrderedMap κ ν) : Nat := m.entries.length

instance : Inhabited (OrderedMap κ ν) := ⟨empty⟩

theorem keys_nodup (m : OrderedMap κ ν) : m.keys.Nodup := m.unique

theorem size_keys (m : OrderedMap κ ν) : m.keys.length = m.size := List.length_map _

variable [DecidableEq κ]

def get? (m : OrderedMap κ ν) (k : κ) : Option ν :=
  (m.entries.find? (fun p => p.1 = k)).map Prod.snd

def has (m : OrderedMap κ ν) (k : κ) : Bool := (m.get? k).isSome

theorem find_fst {l : List (κ × ν)} (found : l.find? (fun p => p.1 = k) = some p) :
    p ∈ l ∧ p.1 = k :=
  ⟨List.mem_of_find?_eq_some found, by simpa using List.find?_some found⟩

theorem find_of_mem {l : List (κ × ν)} (unique : (l.map Prod.fst).Nodup) (member : (k,v) ∈ l) :
    l.find? (fun p => p.1 = k) = some (k,v) := by
  induction l with
  | nil => simp at member
  | cons head tail ih =>
    simp only [List.map_cons,List.nodup_cons] at unique
    rcases List.mem_cons.mp member with same | member
    · simp [← same]
    · have other : head.1 ≠ k := by
        intro same
        exact unique.1 (List.mem_map.mpr ⟨_,member,same.symm⟩)
      simp [other,ih unique.2 member]

theorem get?_eq_some_iff {m : OrderedMap κ ν} : m.get? k = some v ↔ (k,v) ∈ m.entries := by
  constructor
  · intro got
    obtain ⟨p,found,rfl⟩ := Option.map_eq_some_iff.mp got
    obtain ⟨member,rfl⟩ := find_fst found
    exact member
  · intro member
    simp [get?,find_of_mem m.unique member]

theorem mem_keys_iff {m : OrderedMap κ ν} : k ∈ m.keys ↔ ∃ v, m.get? k = some v := by
  simp [keys,get?_eq_some_iff]

theorem get?_eq_none_iff {m : OrderedMap κ ν} : m.get? k = none ↔ k ∉ m.keys := by
  rw [mem_keys_iff,Option.eq_none_iff_forall_ne_some]
  simp

theorem has_iff {m : OrderedMap κ ν} : m.has k = true ↔ ∃ v, m.get? k = some v := by
  simp [has,Option.isSome_iff_exists]

@[simp] theorem get?_empty (k : κ) : (empty : OrderedMap κ ν).get? k = none := rfl

def setEntries (k : κ) (v : ν) : List (κ × ν) → List (κ × ν)
  | [] => [(k,v)]
  | p :: rest => if p.1 = k then (k,v) :: rest else p :: setEntries k v rest

theorem setEntries_fst (k : κ) (v : ν) (l : List (κ × ν)) :
    (setEntries k v l).map Prod.fst = if k ∈ l.map Prod.fst then l.map Prod.fst else l.map Prod.fst ++ [k] := by
  induction l with
  | nil => simp [setEntries]
  | cons p rest ih =>
    by_cases same : p.1 = k
    · simp [setEntries,same]
    · have apart : k ≠ p.1 := fun h => same h.symm
      simp only [setEntries,if_neg same,List.map_cons,ih,List.mem_cons,apart,false_or]
      split <;> simp

theorem setEntries_unique (k : κ) (v : ν) {l : List (κ × ν)} (unique : (l.map Prod.fst).Nodup) :
    ((setEntries k v l).map Prod.fst).Nodup := by
  rw [setEntries_fst]
  split
  next => exact unique
  next absent => exact unique.append (List.nodup_singleton k) (by simpa using absent)

theorem setEntries_find (k k' : κ) (v : ν) (l : List (κ × ν)) :
    (setEntries k v l).find? (fun p => p.1 = k') =
      if k' = k then some (k,v) else l.find? (fun p => p.1 = k') := by
  induction l with
  | nil => by_cases same : k' = k <;> simp [setEntries,same,eq_comm]
  | cons p rest ih =>
    by_cases hit : p.1 = k
    · by_cases same : k' = k
      · simp [setEntries,hit,same]
      · simp [setEntries,hit,same,Ne.symm same]
    · simp only [setEntries,if_neg hit,List.find?_cons,ih]
      by_cases same : k' = k
      · subst same; simp [hit]
      · simp [same]

def set (m : OrderedMap κ ν) (k : κ) (v : ν) : OrderedMap κ ν :=
  ⟨setEntries k v m.entries,setEntries_unique k v m.unique⟩

theorem get?_set (m : OrderedMap κ ν) (k k' : κ) (v : ν) :
    (m.set k v).get? k' = if k' = k then some v else m.get? k' := by
  simp only [get?,set,setEntries_find]
  split <;> rfl

@[simp] theorem get?_set_self (m : OrderedMap κ ν) (k : κ) (v : ν) : (m.set k v).get? k = some v := by
  simp [get?_set]

@[simp] theorem get?_set_of_ne (m : OrderedMap κ ν) (v : ν) (apart : k' ≠ k) :
    (m.set k v).get? k' = m.get? k' := by
  simp [get?_set,apart]

theorem keys_set (m : OrderedMap κ ν) (k : κ) (v : ν) :
    (m.set k v).keys = if k ∈ m.keys then m.keys else m.keys ++ [k] :=
  setEntries_fst k v m.entries

theorem size_set (m : OrderedMap κ ν) (k : κ) (v : ν) :
    (m.set k v).size = if m.has k then m.size else m.size + 1 := by
  rw [← size_keys,keys_set,← size_keys]
  by_cases known : k ∈ m.keys
  · rw [if_pos known,if_pos (has_iff.mpr (mem_keys_iff.mp known))]
  · have absent : m.has k = false := by rw [has,get?_eq_none_iff.mpr known]; rfl
    simp [known,absent]

theorem setEntries_of_mem {l : List (κ × ν)} (unique : (l.map Prod.fst).Nodup) (member : (k,v) ∈ l) :
    setEntries k v l = l := by
  induction l with
  | nil => simp at member
  | cons p rest ih =>
    simp only [List.map_cons,List.nodup_cons] at unique
    rcases List.mem_cons.mp member with same | later
    · simp [setEntries,← same]
    · have other : p.1 ≠ k := by
        intro same
        exact unique.1 (List.mem_map.mpr ⟨_,later,same.symm⟩)
      rw [setEntries,if_neg other,ih unique.2 later]

theorem set_of_get? {m : OrderedMap κ ν} (known : m.get? k = some v) : m.set k v = m := by
  have same := setEntries_of_mem m.unique (get?_eq_some_iff.mp known)
  cases m
  simp only [set] at same ⊢
  simp only [same]

/-- Rewrite every value, dropping the keys for which the rewrite answers `none`. -/
def filterMap (m : OrderedMap κ ν) (f : κ → ν → Option ω) : OrderedMap κ ω where
  entries := m.entries.filterMap (fun p => (f p.1 p.2).map (p.1,·))
  unique := by
    have kept : ((m.entries.filterMap (fun p => (f p.1 p.2).map (p.1,·))).map Prod.fst).Sublist
        (m.entries.map Prod.fst) := by
      induction m.entries with
      | nil => simp
      | cons p rest ih =>
        cases answer : f p.1 p.2 with
        | none => simpa [answer] using ih.cons p.1
        | some w => simpa [answer] using ih.cons_cons p.1
    exact m.unique.sublist kept

theorem get?_filterMap (m : OrderedMap κ ν) (f : κ → ν → Option ω) (k : κ) :
    (m.filterMap f).get? k = (m.get? k).bind (f k) := by
  rw [Option.ext_iff]
  intro w
  simp only [get?_eq_some_iff,filterMap,List.mem_filterMap,Option.map_eq_some_iff,Option.bind_eq_some_iff,
    Prod.mk.injEq]
  constructor
  · rintro ⟨⟨key,v⟩,member,w',answer,rfl,rfl⟩
    exact ⟨v,member,answer⟩
  · rintro ⟨v,member,answer⟩
    exact ⟨(k,v),member,w,answer,rfl,rfl⟩

def erase (m : OrderedMap κ ν) (k : κ) : OrderedMap κ ν :=
  m.filterMap (fun key v => if key = k then none else some v)

section

variable (m : OrderedMap κ ν)
include m

theorem get?_erase (k k' : κ) :
    (m.erase k).get? k' = if k' = k then none else m.get? k' := by
  rw [erase,get?_filterMap]
  split
  next => cases m.get? k' <;> simp
  next => cases m.get? k' <;> simp

@[simp] theorem get?_erase_self (k : κ) : (m.erase k).get? k = none := by
  simp [get?_erase]

@[simp] theorem get?_erase_of_ne (apart : k' ≠ k) :
    (m.erase k).get? k' = m.get? k' := by
  simp [get?_erase,apart]

theorem get?_foldl_set (keys : List κ) (v : ν) (k : κ) :
    (keys.foldl (fun m key => m.set key v) m).get? k = if k ∈ keys then some v else m.get? k := by
  induction keys generalizing m with
  | nil => rfl
  | cons key keys ih =>
    rw [List.foldl_cons,ih,get?_set]
    by_cases same : k = key <;> simp [same]

theorem get?_foldl_erase (keys : List κ) (k : κ) :
    (keys.foldl (fun m key => m.erase key) m).get? k = if k ∈ keys then none else m.get? k := by
  induction keys generalizing m with
  | nil => rfl
  | cons key keys ih =>
    rw [List.foldl_cons,ih,get?_erase]
    by_cases same : k = key <;> simp [same]

theorem keys_erase (k : κ) : (m.erase k).keys = m.keys.erase k := by
  have kept (l : List (κ × ν)) : (l.filterMap fun p => (if p.1 = k then none else some p.2).map (p.1,·)).map Prod.fst =
      (l.map Prod.fst).filter (· != k) := by
    induction l with
    | nil => rfl
    | cons p rest ih =>
      by_cases same : p.1 = k
      · simpa [same] using ih
      · simpa [same] using ih
  rw [m.keys_nodup.erase_eq_filter]
  exact kept m.entries

end

theorem size_erase {m : OrderedMap κ ν} (found : m.get? k = some v) : (m.erase k).size + 1 = m.size := by
  rw [← size_keys,← size_keys,keys_erase]
  exact List.length_erase_add_one (mem_keys_iff.mpr ⟨v,found⟩)

end OrderedMap

structure OrderedSet (α : Type u) where
  elements : List α
  unique : elements.Nodup

namespace OrderedSet

variable {α : Type u}

instance : Membership α (OrderedSet α) := ⟨fun s a => a ∈ s.elements⟩

def empty : OrderedSet α := ⟨[],List.nodup_nil⟩

def size (s : OrderedSet α) : Nat := s.elements.length

@[simp] theorem mem_elements {s : OrderedSet α} : a ∈ s.elements ↔ a ∈ s := Iff.rfl

@[simp] theorem not_mem_empty (a : α) : a ∉ (empty : OrderedSet α) := List.not_mem_nil

theorem size_eq_zero_iff {s : OrderedSet α} : s.size = 0 ↔ ∀ a, a ∉ s := by
  change s.elements.length = 0 ↔ ∀ a, a ∉ s.elements
  rw [List.length_eq_zero_iff,List.eq_nil_iff_forall_not_mem]

variable [DecidableEq α]

def add (s : OrderedSet α) (a : α) : OrderedSet α where
  elements := if a ∈ s.elements then s.elements else s.elements ++ [a]
  unique := by
    split
    next => exact s.unique
    next absent => exact s.unique.append (List.nodup_singleton a) (by simpa using absent)

def delete (s : OrderedSet α) (a : α) : OrderedSet α :=
  ⟨s.elements.filter (· ≠ a),s.unique.filter _⟩

@[simp] theorem mem_add {s : OrderedSet α} : b ∈ s.add a ↔ b ∈ s ∨ b = a := by
  change b ∈ (if a ∈ s.elements then s.elements else s.elements ++ [a]) ↔ b ∈ s.elements ∨ b = a
  split
  next present => exact ⟨.inl,fun h => h.elim id (fun same => same ▸ present)⟩
  next => simp

@[simp] theorem mem_delete {s : OrderedSet α} : b ∈ s.delete a ↔ b ∈ s ∧ b ≠ a := by
  change b ∈ s.elements.filter (· ≠ a) ↔ b ∈ s.elements ∧ b ≠ a
  simp

end OrderedSet

/-- Correct maps from texts, in whatever order they list their entries. -/
class HashMaps (H : Type → Type) where
  new : H ν
  get : H ν → String → Option ν
  set : H ν → String → ν → H ν
  /-- The map without the key, and whether it was there. -/
  delete : H ν → String → H ν × Bool
  clear : H ν → H ν
  entries : H ν → List (String × ν)
  get_new (k : String) : get (new : H ν) k = none
  get_set (m : H ν) (k : String) (v : ν) (k' : String) : get (set m k v) k' = if k' = k then some v else get m k'
  get_delete (m : H ν) (k k' : String) : get (delete m k).1 k' = if k' = k then none else get m k'
  deleted (m : H ν) (k : String) : (delete m k).2 = (get m k).isSome
  get_clear (m : H ν) (k : String) : get (clear m) k = none
  mem_entries (m : H ν) (k : String) (v : ν) : (k,v) ∈ entries m ↔ get m k = some v
  keys_nodup (m : H ν) : ((entries m).map Prod.fst).Nodup

instance : HashMaps (OrderedMap String) where
  new := .empty
  get := OrderedMap.get?
  set := OrderedMap.set
  delete m k := (m.erase k,m.has k)
  clear _ := .empty
  entries := OrderedMap.entries
  get_new := OrderedMap.get?_empty
  get_set m k v k' := m.get?_set k k' v
  get_delete m k k' := m.get?_erase k k'
  deleted _ _ := rfl
  get_clear _ := OrderedMap.get?_empty
  mem_entries _ _ _ := OrderedMap.get?_eq_some_iff.symm
  keys_nodup m := m.keys_nodup

namespace HashMaps

variable {H : Type → Type} [HashMaps H] {ν : Type}

def has (m : H ν) (k : String) : Bool := (get m k).isSome

def values (m : H ν) : List ν := (entries m).map Prod.snd

end HashMaps

end ApexLs.Collections
