import Mathlib.Data.List.Nodup
import ApexLs.Collections.MarkingSearch

/-! A search with a stack that marks the key of every item it finds, and never finds a marked one. The successors of an
item may be looked up in a state that the lookups change. -/
namespace ApexLs.Collections

structure Worklist (α : Type u) (κ : Type v) where
  visited : List κ
  results : List α
  stack : List α

namespace Worklist

variable {α : Type u} {κ : Type v} {σ : Type w}

section

variable [DecidableEq κ] (key : α → κ)

def start (a : α) : Worklist α κ := ⟨[key a],[],[a]⟩

def add (w : Worklist α κ) (b : α) : Worklist α κ :=
  if key b ∈ w.visited then w else ⟨w.visited ++ [key b],w.results ++ [b],b :: w.stack⟩

/-- What is found until the stack is empty. A first argument of 0 is a search that has run out of steps. -/
def collect (step : σ → α → List α × σ) : Nat → σ → Worklist α κ → Option (List α × σ)
  | 0,_,_ => none
  | steps + 1,s,w =>
    match w.stack with
    | [] => some (w.results,s)
    | current :: rest =>
      let (found,s) := step s current
      collect step steps s (found.foldl (add key) { w with stack := rest })

end

open MarkingSearch (Reaches unmarked)

variable (next : α → List α) (key : α → κ) (a : α)

/-- A search under way: what was found is marked and can be reached, and has marked successors where it is neither on the
stack nor in hand. -/
structure Underway (inHand : List α) (w : Worklist α κ) : Prop where
  marked : w.visited = (a :: w.results).map key
  unique : w.visited.Nodup
  reached : ∀ b ∈ w.results, Reaches next a b
  stacked : ∀ b ∈ w.stack, b ∈ a :: w.results
  closed : ∀ b ∈ a :: w.results, b ∈ w.stack ∨ b ∈ inHand ∨ ∀ c ∈ next b, key c ∈ w.visited

structure Found (results : List α) : Prop where
  unique : ((a :: results).map key).Nodup
  reached : ∀ b ∈ results, Reaches next a b
  closed : ∀ b ∈ a :: results, ∀ c ∈ next b, key c ∈ (a :: results).map key

variable {next key a} {results : List α}

theorem underway_start : Underway next key a [] (start key a) where
  marked := rfl
  unique := by simp [start]
  reached := by simp [start]
  stacked := by simp [start]
  closed := by simp [start]

section

variable [DecidableEq κ] {w : Worklist α κ}

theorem add_marks (w : Worklist α κ) (b : α) : key b ∈ (w.add key b).visited ∧ w.visited ⊆ (w.add key b).visited := by
  rw [add]
  split
  next marked => exact ⟨marked,fun _ member => member⟩
  next => exact ⟨by simp,fun _ member => List.mem_append_left _ member⟩

theorem addAll_marks (w : Worklist α κ) (found : List α) :
    (∀ b ∈ found, key b ∈ (found.foldl (add key) w).visited) ∧ w.visited ⊆ (found.foldl (add key) w).visited := by
  induction found generalizing w with
  | nil => exact ⟨by simp,fun _ member => member⟩
  | cons b found ih =>
    obtain ⟨others,grown⟩ := ih (w.add key b)
    obtain ⟨here,before⟩ := @add_marks _ _ key _ w b
    exact ⟨List.forall_mem_cons.mpr ⟨grown here,others⟩,fun _ member => grown (before member)⟩

theorem Underway.add (underway : Underway next key a inHand w) (reached : Reaches next a b) :
    Underway next key a inHand (w.add key b) := by
  rw [Worklist.add]
  split
  next => exact underway
  next new =>
    constructor
    · simp [underway.marked]
    · exact List.nodup_append.mpr ⟨underway.unique,by simp,fun k member k' here => by
        rintro rfl
        exact new (List.mem_singleton.mp here ▸ member)⟩
    · intro c member
      rcases List.mem_append.mp member with old | here
      · exact underway.reached c old
      · exact List.mem_singleton.mp here ▸ reached
    · intro c member
      rcases List.mem_cons.mp member with rfl | old
      · simp
      · exact List.mem_cons.mpr ((List.mem_cons.mp (underway.stacked c old)).imp_right (List.mem_append_left _))
    · intro c member
      rw [← List.cons_append] at member
      rcases List.mem_append.mp member with old | here
      · refine (underway.closed c old).imp (List.mem_cons_of_mem b) (Or.imp_right fun marked d link => ?_)
        exact List.mem_append_left _ (marked d link)
      · exact .inl (List.mem_singleton.mp here ▸ List.mem_cons_self)

theorem Underway.addAll (underway : Underway next key a inHand w) {found : List α} (reached : ∀ b ∈ found, Reaches next a b) :
    Underway next key a inHand (found.foldl (Worklist.add key) w) := by
  induction found generalizing w with
  | nil => exact underway
  | cons b found ih =>
    obtain ⟨here,others⟩ := List.forall_mem_cons.mp reached
    exact ih (underway.add here) others

theorem Underway.step (underway : Underway next key a [] w) (top : w.stack = current :: rest) :
    Underway next key a [] ((next current).foldl (Worklist.add key) { w with stack := rest }) := by
  have here : current ∈ a :: w.results := underway.stacked current (top ▸ List.mem_cons_self)
  have reachedHere : Reaches next a current := by
    rcases List.mem_cons.mp here with rfl | found
    · exact .refl
    · exact underway.reached current found
  have taken : Underway next key a [current] { w with stack := rest } := by
    refine ⟨underway.marked,underway.unique,underway.reached,fun b member => ?_,fun b member => ?_⟩
    · exact underway.stacked b (top ▸ List.mem_cons_of_mem current member)
    · rcases underway.closed b member with onStack | inHand | marked
      · rw [top] at onStack
        rcases List.mem_cons.mp onStack with rfl | below
        · exact .inr (.inl (List.mem_singleton_self _))
        · exact .inl below
      · exact absurd inHand List.not_mem_nil
      · exact .inr (.inr marked)
  have added := taken.addAll fun b (link : b ∈ next current) => reachedHere.tail link
  refine ⟨added.marked,added.unique,added.reached,added.stacked,fun b member => ?_⟩
  rcases added.closed b member with onStack | inHand | marked
  · exact .inl onStack
  · obtain rfl := List.mem_singleton.mp inHand
    exact .inr (.inr (addAll_marks _ _).1)
  · exact .inr (.inr marked)

def remaining (keys : List κ) (w : Worklist α κ) : Nat := w.stack.length + (unmarked keys w.visited).length

theorem remaining_addAll {keys : List κ} {found : List α} (listed : ∀ b ∈ found, key b ∈ keys) (w : Worklist α κ) :
    remaining keys (found.foldl (Worklist.add key) w) ≤ remaining keys w := by
  induction found generalizing w with
  | nil => exact Nat.le_refl _
  | cons b found ih =>
    obtain ⟨here,others⟩ := List.forall_mem_cons.mp listed
    refine Nat.le_trans (ih others (w.add key b)) ?_
    rw [Worklist.add]
    split
    next => exact Nat.le_refl _
    next new =>
      have := MarkingSearch.unmarked_lt here new
      simp only [remaining,List.length_cons]
      omega

end

section

variable [DecidableEq κ] {step : σ → α → List α × σ} {Same : σ → σ → Prop}

theorem collect_found_from (answers : ∀ s, Same s₀ s → ∀ b, ∃ s', step s b = (next b,s') ∧ Same s₀ s') {w : Worklist α κ}
    (underway : Underway next key a [] w) (same : Same s₀ s) (done : collect key step steps s w = some (results,s')) :
    Found next key a results ∧ Same s₀ s' := by
  induction steps generalizing s w with
  | zero => cases done
  | succ steps ih =>
    rw [collect] at done
    split at done
    next empty =>
      obtain ⟨rfl,rfl⟩ := Prod.mk.inj (Option.some.inj done)
      refine ⟨⟨underway.marked ▸ underway.unique,underway.reached,fun b member c link => ?_⟩,same⟩
      have closed := underway.closed b member
      rw [empty] at closed
      simp only [List.not_mem_nil,false_or] at closed
      exact underway.marked ▸ closed c link
    next current rest top =>
      obtain ⟨s₁,looked,same₁⟩ := answers s same current
      rw [looked] at done
      exact ih (underway.step top) same₁ done

theorem collect_found (answers : ∀ s, Same s₀ s → ∀ b, ∃ s', step s b = (next b,s') ∧ Same s₀ s') (same : Same s₀ s)
    (done : collect key step steps s (start key a) = some (results,s')) : Found next key a results ∧ Same s₀ s' :=
  collect_found_from answers underway_start same done

theorem collect_ends_from (answers : ∀ s, Same s₀ s → ∀ b, ∃ s', step s b = (next b,s') ∧ Same s₀ s') {keys : List κ}
    (listed : ∀ b, ∀ c ∈ next b, key c ∈ keys) (same : Same s₀ s) {w : Worklist α κ} (enough : remaining keys w < steps) :
    (collect key step steps s w).isSome := by
  induction steps generalizing s w with
  | zero => exact absurd enough (Nat.not_lt_zero _)
  | succ steps ih =>
    rw [collect]
    split
    next => rfl
    next current rest top =>
      obtain ⟨s₁,looked,same₁⟩ := answers s same current
      rw [looked]
      refine ih same₁ (Nat.lt_of_le_of_lt (remaining_addAll (listed current) _) ?_)
      simp only [remaining,top,List.length_cons] at enough ⊢
      omega

theorem collect_ends (answers : ∀ s, Same s₀ s → ∀ b, ∃ s', step s b = (next b,s') ∧ Same s₀ s') {keys : List κ}
    (listed : ∀ b, ∀ c ∈ next b, key c ∈ keys) (same : Same s₀ s) (enough : keys.length + 2 ≤ steps) :
    (collect key step steps s (start key a)).isSome := by
  refine collect_ends_from answers listed same (Nat.lt_of_lt_of_le ?_ enough)
  have few : (unmarked keys [key a]).length ≤ keys.length := List.length_filter_le _ keys
  simp only [remaining,start,List.length_cons,List.length_nil]
  omega

end

def Distinct (next : α → List α) (key : α → κ) (a : α) : Prop :=
  ∀ b c, Reaches next a b → Reaches next a c → key b = key c → b = c

theorem Found.mem_iff (found : Found next key a results) (distinct : Distinct next key a) :
    b ∈ results ↔ Reaches next a b ∧ b ≠ a := by
  have fresh : a ∉ results := fun member => (List.nodup_cons.mp found.unique).1 (List.mem_map_of_mem member)
  have sound {c : α} (member : c ∈ a :: results) : Reaches next a c := by
    rcases List.mem_cons.mp member with rfl | listed
    · exact .refl
    · exact found.reached c listed
  have complete (reached : Reaches next a b) : b ∈ a :: results := by
    induction reached with
    | refl => exact List.mem_cons_self
    | tail before link ih =>
      obtain ⟨c,member,same⟩ := List.mem_map.mp (found.closed _ ih _ link)
      rwa [distinct _ _ (before.tail link) (sound member) same.symm]
  constructor
  · exact fun member => ⟨found.reached b member,fun here => fresh (here ▸ member)⟩
  · exact fun ⟨reached,other⟩ => (List.mem_cons.mp (complete reached)).resolve_left other

theorem Found.distinct (found : Found next key a results) (complete : ∀ b, Reaches next a b → b ≠ a → b ∈ results) :
    Distinct next key a := by
  have member {b : α} (reached : Reaches next a b) : b ∈ a :: results := by
    by_cases here : b = a
    · exact here ▸ List.mem_cons_self
    · exact List.mem_cons_of_mem a (complete b reached here)
  exact fun b c first second same => List.inj_on_of_nodup_map found.unique (member first) (member second) same

end Worklist
end ApexLs.Collections
