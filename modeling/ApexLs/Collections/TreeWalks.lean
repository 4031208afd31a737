import Mathlib.Data.List.Nodup

/-! Trees with any number of children, and walks that enter and leave every node. The nodes of a tree
are numbered in the order in which a walk enters them. -/
namespace ApexLs.Collections

inductive OrderedTree (α : Type u) where
  | node (label : α) (children : List (OrderedTree α))

structure Listener (α : Type u) (σ : Type v) where
  enter : Nat → OrderedTree α → σ → σ
  exit : Nat → OrderedTree α → σ → σ

namespace OrderedTree

def label : OrderedTree α → α
  | node a _ => a

def children : OrderedTree α → List (OrderedTree α)
  | node _ ts => ts

mutual

def size : OrderedTree α → Nat
  | node _ ts => sizeAll ts + 1

def sizeAll : List (OrderedTree α) → Nat
  | [] => 0
  | t :: ts => size t + sizeAll ts

end

def numbered (n : Nat) : List (OrderedTree α) → List (Nat × OrderedTree α)
  | [] => []
  | t :: ts => (n,t) :: numbered (n + t.size) ts

mutual

def nodes (n : Nat) : OrderedTree α → List (Nat × OrderedTree α)
  | node a ts => (n,node a ts) :: nodesAll (n + 1) ts

def nodesAll (n : Nat) : List (OrderedTree α) → List (Nat × OrderedTree α)
  | [] => []
  | t :: ts => nodes n t ++ nodesAll (n + t.size) ts

end

mutual

def places (above : List α) (n : Nat) : OrderedTree α → List (List α × Nat × OrderedTree α)
  | node a ts => (above,n,node a ts) :: placesAll (a :: above) (n + 1) ts

def placesAll (above : List α) (n : Nat) : List (OrderedTree α) → List (List α × Nat × OrderedTree α)
  | [] => []
  | t :: ts => places above n t ++ placesAll above (n + t.size) ts

end

mutual

def walk (l : Listener α σ) (n : Nat) : OrderedTree α → σ → σ
  | node a ts,s => l.exit n (node a ts) (walkAll l (n + 1) ts (l.enter n (node a ts) s))

def walkAll (l : Listener α σ) (n : Nat) : List (OrderedTree α) → σ → σ
  | [],s => s
  | t :: ts,s => walkAll l (n + t.size) ts (walk l n t s)

end

theorem forest_induction {P : OrderedTree α → Prop} {Q : List (OrderedTree α) → Prop}
    (node : ∀ a ts, Q ts → P (node a ts)) (nil : Q [])
    (cons : ∀ t ts, P t → Q ts → Q (t :: ts)) : (∀ t, P t) ∧ ∀ ts, Q ts :=
  ⟨fun t => OrderedTree.rec node nil cons t,fun ts => OrderedTree.rec_1 node nil cons ts⟩

theorem size_pos (t : OrderedTree α) : 0 < t.size := by
  cases t
  simp [size]

theorem nodes_range : (∀ (t : OrderedTree α) (n : Nat), ∀ p ∈ nodes n t, n ≤ p.1 ∧ p.1 + p.2.size ≤ n + t.size) ∧
    ∀ (ts : List (OrderedTree α)) (n : Nat), ∀ p ∈ nodesAll n ts, n ≤ p.1 ∧ p.1 + p.2.size ≤ n + sizeAll ts := by
  apply forest_induction
  · intro a ts below n p member
    simp only [nodes,List.mem_cons] at member
    rcases member with rfl | member
    · exact ⟨Nat.le_refl _,Nat.le_refl _⟩
    · have := below (n + 1) p member
      simp only [size]
      omega
  · intro n p member
    cases member
  · intro t ts first rest n p member
    simp only [nodesAll,List.mem_append,sizeAll] at member ⊢
    rcases member with member | member
    · have := first n p member
      omega
    · have := rest _ p member
      omega

theorem numbers_within : (∀ (t : OrderedTree α) (n : Nat), ∀ p ∈ nodes n t, n ≤ p.1 ∧ p.1 < n + t.size) ∧
    ∀ (ts : List (OrderedTree α)) (n : Nat), ∀ p ∈ nodesAll n ts, n ≤ p.1 ∧ p.1 < n + sizeAll ts := by
  constructor
  · intro t n p member
    have := nodes_range.1 t n p member
    have := size_pos p.2
    omega
  · intro ts n p member
    have := nodes_range.2 ts n p member
    have := size_pos p.2
    omega

theorem numbers_nodup : (∀ (t : OrderedTree α) (n : Nat), ((nodes n t).map Prod.fst).Nodup) ∧
    ∀ (ts : List (OrderedTree α)) (n : Nat), ((nodesAll n ts).map Prod.fst).Nodup := by
  apply forest_induction
  · intro a ts below n
    simp only [nodes,List.map_cons,List.nodup_cons]
    refine ⟨?_,below _⟩
    intro member
    obtain ⟨p,inside,same⟩ := List.mem_map.mp member
    have := numbers_within.2 ts (n + 1) p inside
    omega
  · intro n
    exact List.nodup_nil
  · intro t ts first rest n
    simp only [nodesAll,List.map_append,List.nodup_append]
    refine ⟨first n,rest _,?_⟩
    intro i left j right same
    obtain ⟨p,inFirst,rfl⟩ := List.mem_map.mp left
    obtain ⟨q,inRest,rfl⟩ := List.mem_map.mp right
    have := numbers_within.1 t n p inFirst
    have := numbers_within.2 ts _ q inRest
    omega

theorem nodes_unique {t : OrderedTree α} (first : (m,u) ∈ t.nodes n) (second : (m,v) ∈ t.nodes n) : u = v := by
  have same := List.inj_on_of_nodup_map (numbers_nodup.1 t n) first second rfl
  exact congrArg Prod.snd same

theorem places_nodes :
    (∀ (t : OrderedTree α) above n, ∀ p ∈ places above n t, p.2 ∈ nodes n t) ∧
      ∀ (ts : List (OrderedTree α)) above n, ∀ p ∈ placesAll above n ts, p.2 ∈ nodesAll n ts := by
  apply forest_induction
  · intro a ts below above n p member
    rcases List.mem_cons.mp member with rfl | inside
    · exact List.mem_cons_self
    · exact List.mem_cons_of_mem _ (below _ _ p inside)
  · intro above n p member
    cases member
  · intro t ts first rest above n p member
    rcases List.mem_append.mp member with inside | inside
    · exact List.mem_append_left _ (first _ _ p inside)
    · exact List.mem_append_right _ (rest _ _ p inside)

theorem places_unique :
    (∀ (t : OrderedTree α) above n, ∀ p ∈ places above n t, ∀ q ∈ places above n t, p.2.1 = q.2.1 → p = q) ∧
      ∀ (ts : List (OrderedTree α)) above n, ∀ p ∈ placesAll above n ts, ∀ q ∈ placesAll above n ts, p.2.1 = q.2.1 → p = q := by
  apply forest_induction
  · intro a ts below above n p first q second same
    rcases List.mem_cons.mp first with rfl | first <;> rcases List.mem_cons.mp second with rfl | second
    · rfl
    · have := (numbers_within.2 ts _ q.2 (places_nodes.2 ts _ _ q second)).1
      dsimp only at same
      omega
    · have := (numbers_within.2 ts _ p.2 (places_nodes.2 ts _ _ p first)).1
      dsimp only at same
      omega
    · exact below _ _ p first q second same
  · intro above n p member
    cases member
  · intro t ts first rest above n p left q right same
    rcases List.mem_append.mp left with left | left <;> rcases List.mem_append.mp right with right | right
    · exact first _ _ p left q right same
    · have := numbers_within.1 t _ p.2 (places_nodes.1 t _ _ p left)
      have := numbers_within.2 ts _ q.2 (places_nodes.2 ts _ _ q right)
      omega
    · have := numbers_within.2 ts _ p.2 (places_nodes.2 ts _ _ p left)
      have := numbers_within.1 t _ q.2 (places_nodes.1 t _ _ q right)
      omega
    · exact rest _ _ p left q right same

section

variable {κ : Type v} {ε : Type w} (down : κ → α → κ) (out : κ → Nat → OrderedTree α → List ε)

def contextAt (c : κ) (above : List α) : κ := above.foldr (fun a c => down c a) c

mutual

def collect (c : κ) (n : Nat) : OrderedTree α → List ε
  | node a ts => out c n (node a ts) ++ collectAll (down c a) (n + 1) ts

def collectAll (c : κ) (n : Nat) : List (OrderedTree α) → List ε
  | [] => []
  | t :: ts => collect c n t ++ collectAll c (n + t.size) ts

end

variable {down out}

theorem walk_collects {l : Listener α σ} {state : κ → List ε → σ} {P : α → Prop}
    (enter : ∀ n t c es, P t.label → l.enter n t (state c es) = state (down c t.label) (es ++ out c n t))
    (exit : ∀ n t c es, P t.label → l.exit n t (state (down c t.label) es) = state c es) :
    (∀ (t : OrderedTree α) n c es, (∀ p ∈ nodes n t, P p.2.label) →
      walk l n t (state c es) = state c (es ++ collect down out c n t)) ∧
    ∀ (ts : List (OrderedTree α)) n c es, (∀ p ∈ nodesAll n ts, P p.2.label) →
      walkAll l n ts (state c es) = state c (es ++ collectAll down out c n ts) := by
  apply forest_induction
  · intro a ts below n c es every
    obtain ⟨here,inside⟩ := List.forall_mem_cons.mp every
    have left := exit n (node a ts) c
    rw [label] at left
    rw [walk,enter n _ c es here,label,below _ _ _ inside,left _ here,collect,List.append_assoc]
  · intro n c es _
    simp [walkAll,collectAll]
  · intro t ts first rest n c es every
    obtain ⟨inFirst,inRest⟩ := List.forall_mem_append.mp every
    rw [walkAll,first _ _ _ inFirst,rest _ _ _ inRest,collectAll,List.append_assoc]

variable (down out)

theorem mem_collect {c : κ} {e : ε} :
    (∀ (t : OrderedTree α) above n, e ∈ collect down out (contextAt down c above) n t ↔
      ∃ p ∈ places above n t, e ∈ out (contextAt down c p.1) p.2.1 p.2.2) ∧
    ∀ (ts : List (OrderedTree α)) above n, e ∈ collectAll down out (contextAt down c above) n ts ↔
      ∃ p ∈ placesAll above n ts, e ∈ out (contextAt down c p.1) p.2.1 p.2.2 := by
  apply forest_induction
  · intro a ts below above n
    have inside := below (a :: above) (n + 1)
    simp only [collect,places,List.mem_append,List.exists_mem_cons_iff]
    exact or_congr Iff.rfl inside
  · intro above n
    simp [collectAll,placesAll]
  · intro t ts first rest above n
    simp only [collectAll,placesAll,List.mem_append,first,rest,or_and_right,exists_or]

end

end OrderedTree
end ApexLs.Collections
