import ApexLs.Collections.OrderedMap

/-! Inverted indexes. A store maps items to records; an index maps a key computed from the
record to the set of the items that have it. The index is used through its lookup function
alone, so any map can carry it. -/
namespace ApexLs.Collections

section

variable {κ : Type u} {ι : Type v} {ε : Type w}

def Lists (get : κ → Option (OrderedSet ι)) (k : κ) (i : ι) : Prop := ∃ s, get k = some s ∧ i ∈ s

def NoneEmpty (get : κ → Option (OrderedSet ι)) : Prop := ∀ k s, get k = some s → ∃ i, i ∈ s

/-- The index lists exactly the stored items, each under the key of its record. -/
structure Mirrors (store : ι → ε → Prop) (key : ε → κ) (get : κ → Option (OrderedSet ι)) : Prop where
  lists : ∀ k i, Lists get k i ↔ ∃ e, store i e ∧ key e = k
  noneEmpty : NoneEmpty get

theorem Mirrors.empty {store : ι → ε → Prop} {get : κ → Option (OrderedSet ι)} (key : ε → κ)
    (noItem : ∀ i e, ¬ store i e) (noSet : ∀ k, get k = none) : Mirrors store key get where
  lists k i := by simp [Lists,noItem,noSet]
  noneEmpty k s got := by simp [noSet] at got

variable [DecidableEq κ] [DecidableEq ι]

theorem lists_insert {get get' : κ → Option (OrderedSet ι)}
    (written : ∀ k, get' k = if k = at_ then some (((get at_).getD .empty).add i) else get k) :
    Lists get' k j ↔ Lists get k j ∨ (k = at_ ∧ j = i) := by
  unfold Lists
  rw [written]
  split
  next same =>
    subst same
    cases get k with
    | none => simp
    | some s => simp
  next apart => simp [apart]

theorem Mirrors.insert {store store' : ι → ε → Prop} {key : ε → κ} {get get' : κ → Option (OrderedSet ι)}
    (mirrors : Mirrors store key get) (stored : ∀ j e', store' j e' ↔ (j = i ∧ e' = e) ∨ store j e')
    (written : ∀ k, get' k = if k = key e then some (((get (key e)).getD .empty).add i) else get k) :
    Mirrors store' key get' where
  lists k j := by
    rw [lists_insert written,mirrors.lists]
    constructor
    · rintro (⟨e',member,same⟩ | ⟨rfl,rfl⟩)
      · exact ⟨e',(stored j e').mpr (.inr member),same⟩
      · exact ⟨e,(stored j e).mpr (.inl ⟨rfl,rfl⟩),rfl⟩
    · rintro ⟨e',member,same⟩
      rcases (stored j e').mp member with ⟨rfl,rfl⟩ | member
      · exact .inr ⟨same.symm,rfl⟩
      · exact .inl ⟨e',member,same⟩
  noneEmpty k s got := by
    rw [written] at got
    split at got
    next => exact ⟨i,by simp [← Option.some.inj got]⟩
    next => exact mirrors.noneEmpty k s got

def dropItem (i : ι) (s : OrderedSet ι) : Option (OrderedSet ι) :=
  if (s.delete i).size = 0 then none else some (s.delete i)

theorem mem_dropItem {s : OrderedSet ι} : (∃ s', dropItem i s = some s' ∧ j ∈ s') ↔ j ∈ s ∧ j ≠ i := by
  unfold dropItem
  split
  next none_ =>
    have gone := OrderedSet.size_eq_zero_iff.mp none_ j
    simpa using gone
  next => simp

theorem dropItem_noneEmpty {s s' : OrderedSet ι} (kept : dropItem i s = some s') : ∃ j, j ∈ s' := by
  unfold dropItem at kept
  split at kept
  next => simp at kept
  next some_ =>
    obtain rfl := Option.some.inj kept
    by_contra none_
    exact some_ (OrderedSet.size_eq_zero_iff.mpr (by simpa using none_))

theorem lists_remove {get get' : κ → Option (OrderedSet ι)}
    (written : ∀ k, get' k = if k = at_ then (get at_).bind (dropItem i) else get k) :
    Lists get' k j ↔ Lists get k j ∧ ¬ (k = at_ ∧ j = i) := by
  unfold Lists
  rw [written]
  split
  next same =>
    subst same
    cases get k with
    | none => simp
    | some s => simpa using mem_dropItem
  next apart => simp [apart]

theorem Mirrors.remove {store store' : ι → ε → Prop} {key : ε → κ} {get get' : κ → Option (OrderedSet ι)}
    (mirrors : Mirrors store key get) (stored : ∀ j e', store' j e' ↔ store j e' ∧ j ≠ i)
    (only : ∀ e', store i e' → e' = e) (present : store i e)
    (written : ∀ k, get' k = if k = key e then (get (key e)).bind (dropItem i) else get k) :
    Mirrors store' key get' where
  lists k j := by
    rw [lists_remove written,mirrors.lists]
    constructor
    · rintro ⟨⟨e',member,rfl⟩,apart⟩
      have other : j ≠ i := by
        rintro rfl
        exact apart ⟨by rw [only e' member],rfl⟩
      exact ⟨e',(stored j e').mpr ⟨member,other⟩,rfl⟩
    · rintro ⟨e',member,same⟩
      obtain ⟨member,other⟩ := (stored j e').mp member
      exact ⟨⟨e',member,same⟩,fun both => other both.2⟩
  noneEmpty k s got := by
    rw [written] at got
    split at got
    next =>
      obtain ⟨s',_,kept⟩ := Option.bind_eq_some_iff.mp got
      exact dropItem_noneEmpty kept
    next => exact mirrors.noneEmpty k s got

end
end ApexLs.Collections
