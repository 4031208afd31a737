import Mathlib.Data.List.Chain
import Mathlib.Data.List.Nodup
import ApexLs.Collections.GuardedWalk

/-! A search along every path from an item, until a path comes back to a key it has. The names and the
keys of the path are kept in two places, and both are taken back where the search leaves an item. -/
namespace ApexLs.Collections.PathSearch

variable {α : Type u} {ν : Type v} {κ : Type w} {β : Type x} {σ : Type y}

structure Path (ν : Type v) (κ : Type w) where
  visited : List ν := []
  visitedSet : List κ := []
  deriving DecidableEq, Repr

/-- The first answer among some items, where the state goes from each item to the next. -/
def firstAnswer (search : α → σ → Option (Option β × σ)) : List α → σ → Option (Option β × σ)
  | [],s => some (none,s)
  | a :: rest,s => (search a s).bind fun
    | (some answer,after) => some (some answer,after)
    | (none,after) => firstAnswer search rest after

section

variable [DecidableEq κ] (next : α → List α) (name : α → ν) (key : ν → κ)

/-- `[...visited.slice(cycleStart), name]`; without a start the slice is the last entry. -/
def closed (visited : List ν) (a : α) : List ν :=
  (match visited.findIdx? (fun v => key v = key (name a)) with
    | some cycleStart => visited.drop cycleStart
    | none => visited.drop (visited.length - 1)) ++ [name a]

def search : Nat → α → Path ν κ → Option (Option (List ν) × Path ν κ)
  | 0,_,_ => none
  | frames + 1,a,path =>
    let k := key (name a)
    if k ∈ path.visitedSet then some (some (closed name key path.visited a),path)
    else
      (firstAnswer (search frames) (next a) ⟨path.visited ++ [name a],path.visitedSet ++ [k]⟩).map fun
        | (some cycle,after) => (some cycle,after)
        | (none,after) => (none,⟨after.visited.dropLast,after.visitedSet.filter (· ≠ k)⟩)

end

theorem firstAnswer_none {f : α → σ → Option (Option β × σ)} {items : List α}
    (kept : ∀ a ∈ items, ∀ after, f a s = some (none,after) → after = s) (found : firstAnswer f items s = some (none,after)) :
    after = s ∧ ∀ a ∈ items, f a s = some (none,s) := by
  induction items with
  | nil =>
    obtain ⟨_,rfl⟩ := Prod.mk.inj (Option.some.inj found)
    exact ⟨rfl,by simp⟩
  | cons a rest ih =>
    obtain ⟨keptHere,keptRest⟩ := List.forall_mem_cons.mp kept
    obtain ⟨⟨answer,middle⟩,here,further⟩ := Option.bind_eq_some_iff.mp found
    cases answer with
    | some answer => cases further
    | none =>
      obtain rfl := keptHere middle here
      obtain ⟨same,every⟩ := ih keptRest further
      exact ⟨same,List.forall_mem_cons.mpr ⟨here,every⟩⟩

theorem firstAnswer_some {f : α → σ → Option (Option β × σ)} {items : List α}
    (kept : ∀ a ∈ items, ∀ after, f a s = some (none,after) → after = s)
    (found : firstAnswer f items s = some (some answer,after)) : ∃ a ∈ items, f a s = some (some answer,after) := by
  induction items with
  | nil => cases found
  | cons a rest ih =>
    obtain ⟨keptHere,keptRest⟩ := List.forall_mem_cons.mp kept
    obtain ⟨⟨first,middle⟩,here,further⟩ := Option.bind_eq_some_iff.mp found
    cases first with
    | some first =>
      cases further
      exact ⟨a,List.mem_cons_self,here⟩
    | none =>
      obtain rfl := keptHere middle here
      obtain ⟨b,member,there⟩ := ih keptRest further
      exact ⟨b,List.mem_cons_of_mem a member,there⟩

theorem firstAnswer_isSome {f : α → σ → Option (Option β × σ)} {items : List α}
    (kept : ∀ a ∈ items, ∀ after, f a s = some (none,after) → after = s) (ends : ∀ a ∈ items, (f a s).isSome) :
    (firstAnswer f items s).isSome := by
  induction items with
  | nil => rfl
  | cons a rest ih =>
    obtain ⟨keptHere,keptRest⟩ := List.forall_mem_cons.mp kept
    obtain ⟨endsHere,endsRest⟩ := List.forall_mem_cons.mp ends
    obtain ⟨⟨first,middle⟩,here⟩ := Option.isSome_iff_exists.mp endsHere
    rw [firstAnswer,here,Option.bind_some]
    cases first with
    | some first => rfl
    | none =>
      obtain rfl := keptHere middle here
      exact ih keptRest endsRest

variable [DecidableEq κ] {next : α → List α} {name : α → ν} {key : ν → κ}

theorem search_none {path after : Path ν κ}
    (found : search next name key (frames + 1) a path = some (none,after)) :
    key (name a) ∉ path.visitedSet ∧ ∃ middle,
      firstAnswer (search next name key frames) (next a) ⟨path.visited ++ [name a],path.visitedSet ++ [key (name a)]⟩ =
        some (none,middle) ∧
      after = ⟨middle.visited.dropLast,middle.visitedSet.filter (· ≠ key (name a))⟩ := by
  rw [search] at found
  split at found
  next seen => cases found
  next new =>
    obtain ⟨⟨answer,middle⟩,inside,back⟩ := Option.map_eq_some_iff.mp found
    cases answer with
    | some answer => cases back
    | none => exact ⟨new,middle,inside,(Prod.mk.inj back).2.symm⟩

theorem search_restores {path after : Path ν κ} (found : search next name key frames a path = some (none,after)) :
    after = path := by
  induction frames generalizing a path after with
  | zero => cases found
  | succ frames ih =>
    obtain ⟨new,middle,inside,rfl⟩ := search_none found
    obtain ⟨rfl,_⟩ := firstAnswer_none (fun b _ _ none_ => ih none_) inside
    have others : path.visitedSet.filter (· ≠ key (name a)) = path.visitedSet := by
      refine List.filter_eq_self.mpr fun k member => ?_
      have apart : k ≠ key (name a) := fun same => new (same ▸ member)
      exact decide_eq_true apart
    simp only [List.filter_append,others,List.dropLast_concat]
    simp

def fresh (keys : List κ) (path : Path ν κ) : List κ := keys.filter (· ∉ path.visitedSet)

theorem fresh_push {keys : List κ} {path : Path ν κ} (listed : k ∈ keys) (new : k ∉ path.visitedSet) (visited : List ν) :
    (fresh keys ⟨visited,path.visitedSet ++ [k]⟩).length < (fresh keys path).length :=
  unvisited_lt id listed new (fun j => by simp [or_comm])

theorem search_ends_listed {keys : List κ} (listed : ∀ a, ∀ b ∈ next a, key (name b) ∈ keys) {path : Path ν κ}
    (here : key (name a) ∈ keys) (enough : (fresh keys path).length < frames) : (search next name key frames a path).isSome := by
  induction frames generalizing a path with
  | zero => exact absurd enough (Nat.not_lt_zero _)
  | succ frames ih =>
    rw [search]
    split
    next => rfl
    next new =>
      have fewer := fresh_push here new (path.visited ++ [name a])
      rw [Option.isSome_map]
      apply firstAnswer_isSome
      · exact fun b _ _ none_ => search_restores none_
      · exact fun b member => ih (listed a b member) (by omega)

theorem search_ends (keys : List κ) (listed : ∀ a, ∀ b ∈ next a, key (name b) ∈ keys) (a : α) (path : Path ν κ)
    (enough : keys.length + 2 ≤ frames) : (search next name key frames a path).isSome := by
  obtain ⟨frames,rfl⟩ := Nat.exists_eq_add_of_le' (Nat.le_trans (Nat.le_add_left 1 _) enough)
  rw [search]
  split
  next => rfl
  next new =>
    rw [Option.isSome_map]
    apply firstAnswer_isSome
    · exact fun b _ _ none_ => search_restores none_
    · intro b member
      apply search_ends_listed listed (listed a b member)
      exact Nat.lt_of_le_of_lt (List.length_filter_le _ keys) (by omega)

abbrev Linked (next : α → List α) (items : List α) : Prop := items.IsChain (fun a b => b ∈ next a)

theorem search_complete {path after : Path ν κ} (found : search next name key frames a path = some (none,after))
    {rest : List α} (linked : Linked next (a :: rest)) :
    ((a :: rest).map (key ∘ name)).Nodup ∧ ∀ b ∈ a :: rest, key (name b) ∉ path.visitedSet := by
  induction frames generalizing a path after rest with
  | zero => cases found
  | succ frames ih =>
    obtain ⟨new,middle,inside,-⟩ := search_none found
    obtain ⟨_,every⟩ := firstAnswer_none (fun b _ _ none_ => search_restores none_) inside
    cases rest with
    | nil => exact ⟨List.nodup_singleton _,by simpa using new⟩
    | cons b rest =>
      obtain ⟨link,further⟩ := List.isChain_cons_cons.mp linked
      obtain ⟨nodup,apart⟩ := ih (every b link) further
      have apartPath : ∀ c ∈ b :: rest, key (name c) ∉ path.visitedSet :=
        fun c member inPath => apart c member (List.mem_append_left _ inPath)
      have apartHere : ∀ c ∈ b :: rest, key (name c) ≠ key (name a) :=
        fun c member same => apart c member (List.mem_append_right _ (List.mem_singleton.mpr same))
      refine ⟨List.nodup_cons.mpr ⟨?_,nodup⟩,List.forall_mem_cons.mpr ⟨new,apartPath⟩⟩
      intro twice
      obtain ⟨c,member,same⟩ := List.mem_map.mp twice
      exact apartHere c member same

structure Cycle (next : α → List α) (name : α → ν) (key : ν → κ) (cycle : List ν) : Prop where
  linked : ∃ items, Linked next items ∧ items.map name = cycle
  long : 2 ≤ cycle.length
  closed : cycle.head?.map key = cycle.getLast?.map key

theorem closed_cycle {items : List α} (linked : Linked next (items ++ [a])) (seen : key (name a) ∈ (items.map name).map key) :
    Cycle next name key (closed name key (items.map name) a) := by
  obtain ⟨v,member,same⟩ := List.mem_map.mp seen
  have some_ : (items.map name).any (fun v => key v = key (name a)) = true := List.any_eq_true.mpr ⟨v,member,decide_eq_true same⟩
  obtain ⟨i,found⟩ := Option.isSome_iff_exists.mp (List.findIdx?_isSome.trans some_)
  obtain ⟨bound,meets,_⟩ := List.findIdx?_eq_some_iff_getElem.mp found
  have inside : i < items.length := by simpa using bound
  have meets : key (name items[i]) = key (name a) := by simpa using meets
  have from_ : closed name key (items.map name) a = (items.drop i ++ [a]).map name := by simp [closed,found]
  rw [from_]
  refine ⟨⟨_,?_,rfl⟩,?_,?_⟩
  · have part : items.drop i ++ [a] = (items ++ [a]).drop i := by
      rw [List.drop_append_of_le_length (Nat.le_of_lt inside)]
    rw [part]
    exact List.IsChain.drop linked i
  · simp
    omega
  · simp [List.head?_append,List.getElem?_eq_getElem inside,meets]

theorem search_sound {path after : Path ν κ} (before : List α) (names : path.visited = before.map name)
    (keys : path.visitedSet = path.visited.map key) (linked : Linked next (before ++ [a]))
    (found : search next name key frames a path = some (some cycle,after)) :
    Cycle next name key cycle ∧ ∃ rest, Linked next (before ++ a :: rest) ∧ ¬ ((before ++ a :: rest).map (key ∘ name)).Nodup := by
  induction frames generalizing a path after before with
  | zero => cases found
  | succ frames ih =>
    rw [search] at found
    split at found
    next seen =>
      obtain ⟨answer,_⟩ := Prod.mk.inj (Option.some.inj found)
      obtain rfl := Option.some.inj answer
      rw [keys,names] at seen
      refine ⟨names ▸ closed_cycle linked seen,[],linked,?_⟩
      rw [List.map_append,List.nodup_append]
      rintro ⟨_,_,apart⟩
      exact apart (key (name a)) (by simpa using seen) (key (name a)) (by simp) rfl
    next new =>
      obtain ⟨⟨answer,middle⟩,inside,back⟩ := Option.map_eq_some_iff.mp found
      cases answer with
      | none => cases back
      | some answer =>
        obtain ⟨same,_⟩ := Prod.mk.inj back
        obtain rfl := Option.some.inj same
        obtain ⟨b,member,there⟩ := firstAnswer_some (fun b _ _ none_ => search_restores none_) inside
        have longer : Linked next ((before ++ [a]) ++ [b]) :=
          List.IsChain.append linked (List.isChain_singleton b) (by simpa using member)
        obtain ⟨cycle_,rest,further,twice⟩ := ih (before ++ [a]) (by simp [names]) (by simp [keys]) longer there
        rw [List.append_assoc] at further twice
        exact ⟨cycle_,b :: rest,further,twice⟩

theorem search_exact (found : search next name key frames a {} = some (answer,after)) :
    (answer.isSome ↔ ∃ rest, Linked next (a :: rest) ∧ ¬ ((a :: rest).map (key ∘ name)).Nodup) ∧
      ∀ cycle, answer = some cycle → Cycle next name key cycle := by
  cases answer with
  | none =>
    refine ⟨iff_of_false (by simp) ?_,by simp⟩
    rintro ⟨rest,linked,twice⟩
    exact twice (search_complete found linked).1
  | some cycle =>
    obtain ⟨closed_,witness⟩ := search_sound [] rfl rfl (List.isChain_singleton a) found
    refine ⟨iff_of_true rfl witness,fun _ same => ?_⟩
    obtain rfl := Option.some.inj same
    exact closed_

end ApexLs.Collections.PathSearch
