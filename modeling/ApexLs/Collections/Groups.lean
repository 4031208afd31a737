import Mathlib.Data.List.Induction
import ApexLs.Collections.OrderedMap

/-! Lists grouped by a key, the pairs of a list in its order, and the first item of each key. -/
namespace ApexLs.Collections

variable {α : Type u} {κ : Type v}

theorem map_determined {ps : List α} {qs : List β} {f : α → γ} {f' : β → γ} {g : α → δ} {g' : β → δ}
    (determined : ∀ p ∈ ps, ∀ q ∈ qs, f p = f' q → g p = g' q) (same : ps.map f = qs.map f') : ps.map g = qs.map g' := by
  induction ps generalizing qs with
  | nil =>
    obtain rfl : qs = [] := by simpa using same.symm
    rfl
  | cons p ps ih =>
    cases qs with
    | nil => simp at same
    | cons q qs =>
      rw [List.map_cons,List.map_cons] at same
      obtain ⟨head,tail⟩ := List.cons.inj same
      rw [List.map_cons,List.map_cons,determined p (by simp) q (by simp) head,
        ih (fun p member q member' => determined p (by simp [member]) q (by simp [member'])) tail]

/-! `[a,b].Sublist l`: the list has an `a` and a `b` after it. -/

theorem pair_concat {l : List α} : [a,b].Sublist (l ++ [last]) ↔ [a,b].Sublist l ∨ last = b ∧ a ∈ l := by
  rw [List.sublist_append_iff]
  constructor
  · rintro ⟨front,back,cut,front_,back_⟩
    rcases List.sublist_singleton.mp back_ with rfl | rfl
    · rw [List.append_nil] at cut
      exact .inl (cut ▸ front_)
    · obtain ⟨rfl,same⟩ := List.append_inj' (show [a] ++ [b] = front ++ [last] from cut) rfl
      exact .inr ⟨(List.singleton_inj.mp same).symm,List.singleton_sublist.mp front_⟩
  · rintro (within | ⟨rfl,member⟩)
    · exact ⟨[a,b],[],by simp,within,List.nil_sublist _⟩
    · exact ⟨[a],[last],rfl,List.singleton_sublist.mpr member,List.Sublist.refl _⟩

theorem pair_left {l : List α} (pair : [a,b].Sublist l) : a ∈ l := pair.subset (by simp)

theorem pair_right {l : List α} (pair : [a,b].Sublist l) : b ∈ l := pair.subset (by simp)

theorem pair_ne {l : List α} (once : l.Nodup) (pair : [a,b].Sublist l) : a ≠ b := once.forall_sublist pair

theorem pair_filter {l : List α} {p : α → Bool} :
    [a,b].Sublist (l.filter p) ↔ [a,b].Sublist l ∧ p a = true ∧ p b = true := by
  constructor
  · intro pair
    exact ⟨pair.trans List.filter_sublist,(List.mem_filter.mp (pair_left pair)).2,(List.mem_filter.mp (pair_right pair)).2⟩
  · rintro ⟨pair,first,second⟩
    have filtered := pair.filter p
    rwa [List.filter_cons_of_pos first,List.filter_cons_of_pos second,List.filter_nil] at filtered

theorem pair_or {l : List α} (first : a ∈ l) (second : b ∈ l) (apart : a ≠ b) : [a,b].Sublist l ∨ [b,a].Sublist l := by
  induction l with
  | nil => cases first
  | cons head rest ih =>
    rcases List.mem_cons.mp first with rfl | first' <;> rcases List.mem_cons.mp second with rfl | second'
    · exact absurd rfl apart
    · exact .inl (.cons_cons _ (List.singleton_sublist.mpr second'))
    · exact .inr (.cons_cons _ (List.singleton_sublist.mpr first'))
    · exact (ih first' second').imp (.cons _) (.cons _)

theorem pair_asymm {l : List α} (once : l.Nodup) (pair : [a,b].Sublist l) : ¬ [b,a].Sublist l := by
  intro reverse
  induction l with
  | nil => cases pair
  | cons head rest ih =>
    obtain ⟨fresh,once⟩ := List.nodup_cons.mp once
    cases pair with
    | cons _ pair =>
      cases reverse with
      | cons _ reverse => exact ih once pair reverse
      | cons_cons _ _ => exact fresh (pair_right pair)
    | cons_cons _ _ =>
      cases reverse with
      | cons _ reverse => exact fresh (pair_right reverse)
      | cons_cons _ _ => exact fresh (List.singleton_sublist.mp ‹_›)

/-- `for i … for j > i`: every pair once, in the order of the list. -/
def pairs : List α → List (α × α)
  | [] => []
  | a :: rest => rest.map (a,·) ++ pairs rest

theorem mem_pairs {l : List α} : (a,b) ∈ pairs l ↔ [a,b].Sublist l := by
  induction l with
  | nil => simp [pairs]
  | cons head rest ih =>
    rw [pairs,List.mem_append,ih,List.cons_sublist_cons']
    simp [or_comm,and_comm,eq_comm]

section

variable [DecidableEq κ] (key : α → κ)

def pushInto (groups : OrderedMap κ (List α)) (a : α) : OrderedMap κ (List α) :=
  groups.set (key a) ((groups.get? (key a)).getD [] ++ [a])

def groupBy (items : List α) : OrderedMap κ (List α) := items.foldl (pushInto key) .empty

theorem get?_groupBy (items : List α) (k : κ) :
    (groupBy key items).get? k = if items.any (key · = k) then some (items.filter (key · = k)) else none := by
  induction items using List.reverseRecOn with
  | nil => rfl
  | append_singleton items a ih =>
    rw [groupBy,List.foldl_append,List.foldl_cons,List.foldl_nil,← groupBy,pushInto,OrderedMap.get?_set]
    by_cases same : k = key a
    · subst same
      rw [if_pos rfl,ih]
      by_cases seen : items.any (key · = key a)
      · simp [seen]
      · have none_ : items.filter (key · = key a) = [] := by simpa using seen
        simp [seen,none_]
    · rw [if_neg same,ih]
      simp [Ne.symm same]

theorem mem_groupBy {items : List α} : (k,group) ∈ (groupBy key items).entries ↔
    group = items.filter (key · = k) ∧ ∃ a ∈ items, key a = k := by
  rw [← OrderedMap.get?_eq_some_iff,get?_groupBy]
  by_cases some_ : ∃ a ∈ items, key a = k
  · have present : items.any (key · = k) = true := by simpa using some_
    rw [if_pos present,Option.some.injEq]
    exact ⟨fun same => ⟨same.symm,some_⟩,fun h => h.1.symm⟩
  · have absent : ¬ items.any (key · = k) = true := by simpa using some_
    rw [if_neg absent]
    exact iff_of_false (by simp) fun h => some_ h.2

/-- Keep an item under its key, unless one is there. -/
def keepFirst (kept : OrderedMap κ α) (a : α) : OrderedMap κ α := if kept.has (key a) then kept else kept.set (key a) a

def firsts (items : List α) : List α := (items.foldl (keepFirst key) .empty).entries.map Prod.snd

theorem setEntries_absent {entries : List (κ × α)} (absent : k ∉ entries.map Prod.fst) :
    OrderedMap.setEntries k v entries = entries ++ [(k,v)] := by
  induction entries with
  | nil => rfl
  | cons entry rest ih =>
    obtain ⟨k',v'⟩ := entry
    simp only [List.map_cons,List.mem_cons,not_or] at absent
    rw [OrderedMap.setEntries,if_neg (Ne.symm absent.1),ih absent.2]
    rfl

theorem entries_keepFirst (kept : OrderedMap κ α) (a : α) :
    (keepFirst key kept a).entries = if key a ∈ kept.keys then kept.entries else kept.entries ++ [(key a,a)] := by
  rw [keepFirst]
  by_cases seen : key a ∈ kept.keys
  · rw [if_pos (OrderedMap.has_iff.mpr (OrderedMap.mem_keys_iff.mp seen)),if_pos seen]
  · rw [if_neg (fun has => seen (OrderedMap.mem_keys_iff.mpr (OrderedMap.has_iff.mp has))),if_neg seen]
    exact setEntries_absent seen

theorem keepFirst_keys (items : List α) :
    (items.foldl (keepFirst key) .empty).keys = (firsts key items).map key ∧
      ∀ k, k ∈ (items.foldl (keepFirst key) .empty).keys ↔ k ∈ items.map key := by
  induction items using List.reverseRecOn with
  | nil => exact ⟨rfl,fun k => Iff.rfl⟩
  | append_singleton items a ih =>
    rw [firsts,List.foldl_append,List.foldl_cons,List.foldl_nil,OrderedMap.keys,entries_keepFirst]
    by_cases seen : key a ∈ (items.foldl (keepFirst key) .empty).keys
    · rw [if_pos seen]
      refine ⟨ih.1,fun k => ?_⟩
      have occurred := (ih.2 _).mp seen
      rw [List.map_append,List.mem_append,← ih.2 k]
      simp only [List.map_cons,List.map_nil,List.mem_singleton]
      exact ⟨.inl,fun h => h.elim id fun same => same ▸ seen⟩
    · rw [if_neg seen]
      constructor
      · rw [List.map_append,List.map_append,List.map_append]
        exact congrArg (· ++ [key a]) ih.1
      · intro k
        rw [List.map_append,List.map_append,List.mem_append,List.mem_append]
        exact or_congr (ih.2 k) Iff.rfl

theorem firsts_concat (items : List α) (a : α) :
    firsts key (items ++ [a]) = if key a ∈ items.map key then firsts key items else firsts key items ++ [a] := by
  rw [firsts,List.foldl_append,List.foldl_cons,List.foldl_nil,entries_keepFirst]
  simp only [(keepFirst_keys key items).2]
  split
  next => rfl
  next => exact List.map_append

theorem firsts_sublist (items : List α) : (firsts key items).Sublist items := by
  induction items using List.reverseRecOn with
  | nil => exact List.Sublist.refl _
  | append_singleton items a ih =>
    rw [firsts_concat]
    split
    next => exact ih.trans (List.sublist_append_left _ _)
    next => exact ih.append (List.Sublist.refl _)

theorem firsts_keys_nodup (items : List α) : ((firsts key items).map key).Nodup :=
  (keepFirst_keys key items).1 ▸ (items.foldl (keepFirst key) .empty).keys_nodup

theorem mem_firsts_iff_find? {items : List α} : a ∈ firsts key items ↔ items.find? (key · = key a) = some a := by
  induction items using List.reverseRecOn with
  | nil => simp [firsts,OrderedMap.empty]
  | append_singleton items last ih =>
    rw [firsts_concat,List.find?_append]
    split
    next seen =>
      rw [ih]
      cases found : items.find? (key · = key a) with
      | some b => rfl
      | none =>
        obtain ⟨b,member,same⟩ := List.mem_map.mp seen
        have other : key b ≠ key a := by simpa using List.find?_eq_none.mp found b member
        simp [show key last ≠ key a from same ▸ other]
    next unseen =>
      rw [List.mem_append,ih,List.mem_singleton]
      cases found : items.find? (key · = key a) with
      | some b =>
        have same : key b = key a := by simpa using List.find?_some found
        have other : a ≠ last := by
          rintro rfl
          exact unseen (List.mem_map.mpr ⟨b,List.mem_of_find?_eq_some found,same⟩)
        simp [other]
      | none =>
        by_cases same : a = last
        · simp [same]
        · have other : last ≠ a := Ne.symm same
          simp [same,other]

def IsFirst (items : List α) (a : α) : Prop := a ∈ items ∧ ∀ b, [b,a].Sublist items → key b ≠ key a

omit [DecidableEq κ] in
theorem isFirst_congr {key key' : α → κ} {items : List α} (same : ∀ b ∈ items, key b = key' b) :
    IsFirst key items a ↔ IsFirst key' items a := by
  refine and_congr_right fun member => forall_congr' fun b => forall_congr' fun pair => ?_
  rw [same b (pair_left pair),same a member]

theorem mem_firsts {items : List α} (once : items.Nodup) : a ∈ firsts key items ↔ IsFirst key items a := by
  induction items using List.reverseRecOn with
  | nil => simp [firsts,IsFirst,OrderedMap.empty]
  | append_singleton items last ih =>
    have fresh : last ∉ items := fun member => (List.nodup_append.mp once).2.2 _ member _ (List.mem_singleton_self _) rfl
    have before := ih (List.nodup_append.mp once).1
    rw [firsts_concat,IsFirst]
    simp only [pair_concat,List.mem_append,List.mem_singleton]
    by_cases new : a = last
    · subst new
      have free (b : α) : ¬ [b,a].Sublist items := fun pair => fresh (pair_right pair)
      split
      next seen =>
        obtain ⟨b,member,same⟩ := List.mem_map.mp seen
        exact iff_of_false (fun kept => fresh ((firsts_sublist key items).subset kept))
          fun first => first.2 b (.inr ⟨rfl,member⟩) same
      next unseen =>
        refine iff_of_true (by simp) ⟨.inr rfl,fun b pair same => ?_⟩
        exact unseen (List.mem_map.mpr ⟨b,(pair.resolve_left (free b)).2,same⟩)
    · have within : a ∈ firsts key items ↔ IsFirst key items a := before
      simp only [new,Ne.symm new,or_false,false_and]
      rw [← IsFirst,← within]
      split
      next => exact Iff.rfl
      next => simp [new]

theorem pair_firsts {items : List α} (once : items.Nodup) :
    [a,b].Sublist (firsts key items) ↔ [a,b].Sublist items ∧ IsFirst key items a ∧ IsFirst key items b := by
  rw [← mem_firsts key once,← mem_firsts key once]
  constructor
  · exact fun pair => ⟨pair.trans (firsts_sublist key items),pair_left pair,pair_right pair⟩
  · rintro ⟨pair,first,second⟩
    exact (pair_or first second (pair_ne once pair)).resolve_right fun reverse =>
      pair_asymm once pair (reverse.trans (firsts_sublist key items))

end

end ApexLs.Collections
