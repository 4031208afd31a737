import Mathlib.Data.List.Basic
import Mathlib.Tactic.Tauto
import ApexLs.Collections.VisitedWalks

/-! Lists from which the first item of every key is kept, and how many of the kept items are of a kind. -/
namespace ApexLs.Collections

variable {α : Type u} {κ : Type v} [DecidableEq κ]

def firstOfKey (key : α → κ) : List κ → List α → List α
  | _,[] => []
  | seen,a :: l => if key a ∈ seen then firstOfKey key seen l else a :: firstOfKey key (key a :: seen) l

def Foremost (key : α → κ) (l : List α) (a : α) : Prop :=
  ∃ front back, l = front ++ a :: back ∧ ∀ b ∈ front, key b ≠ key a

variable {key : α → κ} {l : List α} {a b : α}

omit [DecidableEq κ] in
theorem foremost_cons : Foremost key (b :: l) a ↔ a = b ∨ key b ≠ key a ∧ Foremost key l a := by
  constructor
  · rintro ⟨front,back,split_,first⟩
    cases front with
    | nil => exact .inl (List.cons.inj split_).1.symm
    | cons c front =>
      obtain ⟨rfl,rfl⟩ := List.cons.inj split_
      exact .inr ⟨first b (.head _),front,back,rfl,fun d member => first d (.tail _ member)⟩
  · rintro (rfl | ⟨apart,front,back,rfl,first⟩)
    · exact ⟨[],l,rfl,nofun⟩
    · refine ⟨b :: front,back,rfl,fun d member => ?_⟩
      obtain rfl | inner := List.mem_cons.mp member
      · exact apart
      · exact first d inner

omit [DecidableEq κ] in
theorem foremost_append {l' : List α} :
    Foremost key (l ++ l') a ↔ Foremost key l a ∨ (∀ b ∈ l, key b ≠ key a) ∧ Foremost key l' a := by
  induction l with
  | nil => simp [Foremost]
  | cons c l ih =>
    rw [List.cons_append,foremost_cons,foremost_cons,ih,List.forall_mem_cons]
    tauto

omit [DecidableEq κ] in
theorem foremost_map {β : Type w} {f : β → α} {l : List β} :
    Foremost key (l.map f) a ↔ ∃ b, Foremost (fun b => key (f b)) l b ∧ f b = a := by
  induction l with
  | nil => simp [Foremost]
  | cons c l ih =>
    rw [List.map_cons,foremost_cons,ih]
    constructor
    · rintro (rfl | ⟨apart,b,foremost,rfl⟩)
      · exact ⟨c,foremost_cons.mpr (.inl rfl),rfl⟩
      · exact ⟨b,foremost_cons.mpr (.inr ⟨apart,foremost⟩),rfl⟩
    · rintro ⟨b,foremost,rfl⟩
      obtain rfl | ⟨apart,foremost⟩ := foremost_cons.mp foremost
      · exact .inl rfl
      · exact .inr ⟨apart,b,foremost,rfl⟩

omit [DecidableEq κ] in
theorem foremost_flatMap {β : Type w} {f : β → List α} {lists : List β} : Foremost key (lists.flatMap f) a ↔
    ∃ (i : Nat) (x : β), lists[i]? = some x ∧ Foremost key (f x) a ∧
      ∀ j < i, ∀ y, lists[j]? = some y → ∀ b ∈ f y, key b ≠ key a := by
  induction lists with
  | nil => simp [Foremost]
  | cons z lists ih =>
    rw [List.flatMap_cons,foremost_append,ih]
    constructor
    · rintro (foremost | ⟨apart,i,x,there,foremost,before⟩)
      · exact ⟨0,z,rfl,foremost,fun j less => absurd less (Nat.not_lt_zero j)⟩
      · refine ⟨i + 1,x,there,foremost,fun j less y earlier => ?_⟩
        cases j with
        | zero =>
          cases earlier
          exact apart
        | succ j => exact before j (Nat.lt_of_succ_lt_succ less) y earlier
    · rintro ⟨i,x,there,foremost,before⟩
      cases i with
      | zero =>
        cases there
        exact .inl foremost
      | succ i =>
        refine .inr ⟨before 0 (Nat.zero_lt_succ i) z rfl,i,x,there,foremost,fun j less y earlier => ?_⟩
        exact before (j + 1) (Nat.succ_lt_succ less) y earlier

omit [DecidableEq κ] in
theorem foremost_gathered {β : Type w} {μ : Type x} [DecidableEq μ] {mark : β → μ} {next : β → Option β} {start : Option β}
    {steps : Nat} {f : β → List α} : Foremost key ((visitedWalk mark next steps [] start).flatMap f) a ↔
      ∃ i x, Visits mark next steps start i x ∧ Foremost key (f x) a ∧
        ∀ j < i, ∀ y, along next start j = some y → ∀ b ∈ f y, key b ≠ key a := by
  rw [foremost_flatMap]
  constructor
  · rintro ⟨i,x,there,foremost,before⟩
    have visits := getElem?_visitedWalk_nil.mp there
    refine ⟨i,x,visits,foremost,fun j less y earlier => before j less y ?_⟩
    exact getElem?_visitedWalk_nil.mpr (visits.earlier less earlier)
  · rintro ⟨i,x,visits,foremost,before⟩
    refine ⟨i,x,getElem?_visitedWalk_nil.mpr visits,foremost,fun j less y earlier => ?_⟩
    exact before j less y (getElem?_visitedWalk_nil.mp earlier).2.1

theorem mem_firstOfKey {seen : List κ} : a ∈ firstOfKey key seen l ↔ Foremost key l a ∧ key a ∉ seen := by
  induction l generalizing seen with
  | nil => simp [firstOfKey,Foremost]
  | cons b l ih =>
    rw [firstOfKey,foremost_cons]
    split
    next old =>
      rw [ih]
      constructor
      · rintro ⟨foremost,new⟩
        exact ⟨.inr ⟨fun same => new (same ▸ old),foremost⟩,new⟩
      · rintro ⟨rfl | ⟨-,foremost⟩,new⟩
        · exact absurd old new
        · exact ⟨foremost,new⟩
    next fresh =>
      rw [List.mem_cons,ih]
      constructor
      · rintro (rfl | ⟨foremost,new⟩)
        · exact ⟨.inl rfl,fresh⟩
        · exact ⟨.inr ⟨fun same => new (same ▸ .head _),foremost⟩,fun old => new (.tail _ old)⟩
      · rintro ⟨rfl | ⟨apart,foremost⟩,new⟩
        · exact .inl rfl
        · refine .inr ⟨foremost,fun member => ?_⟩
          obtain same | old := List.mem_cons.mp member
          · exact apart same.symm
          · exact new old

theorem firstOfKey_pairwise (seen : List κ) : (firstOfKey key seen l).Pairwise fun a b => key a ≠ key b := by
  induction l generalizing seen with
  | nil => exact .nil
  | cons b l ih =>
    rw [firstOfKey]
    split
    next => exact ih seen
    next =>
      refine .cons (fun c member => ?_) (ih _)
      exact fun same => (mem_firstOfKey.mp member).2 (same ▸ .head _)

theorem length_filter_firstOfKey {p : α → Bool} : ((firstOfKey key [] l).filter p).length = 1 ↔
    (∃ a, Foremost key l a ∧ p a = true) ∧
      ∀ a b, Foremost key l a → Foremost key l b → p a = true → p b = true → key a = key b := by
  have member (a : α) : a ∈ (firstOfKey key [] l).filter p ↔ Foremost key l a ∧ p a = true := by
    rw [List.mem_filter,mem_firstOfKey,and_iff_left List.not_mem_nil]
  have apart : ((firstOfKey key [] l).filter p).Pairwise fun a b => key a ≠ key b :=
    (firstOfKey_pairwise []).sublist List.filter_sublist
  constructor
  · intro one
    obtain ⟨x,only⟩ := List.length_eq_one_iff.mp one
    have here (a : α) (foremost : Foremost key l a) (kind : p a = true) : a = x :=
      List.mem_singleton.mp (only ▸ (member a).mpr ⟨foremost,kind⟩)
    refine ⟨⟨x,(member x).mp (only ▸ .head _)⟩,fun a b first second kind kind' => ?_⟩
    rw [here a first kind,here b second kind']
  · rintro ⟨⟨a,foremost,kind⟩,same⟩
    have inside := (member a).mpr ⟨foremost,kind⟩
    generalize (firstOfKey key [] l).filter p = kept at member apart inside
    match kept,apart,inside,member with
    | [x],_,_,_ => rfl
    | x :: y :: kept,apart,_,member =>
      have first := (member x).mp (.head _)
      have second := (member y).mp (.tail _ (.head _))
      exact absurd (same x y first.1 second.1 first.2 second.2) (List.rel_of_pairwise_cons apart (.head _))

theorem length_filter_firstOfKey_eq_zero {p : α → Bool} :
    ((firstOfKey key [] l).filter p).length = 0 ↔ ∀ a, Foremost key l a → p a = false := by
  rw [List.length_eq_zero_iff,List.filter_eq_nil_iff]
  simp only [mem_firstOfKey,List.not_mem_nil,not_false_eq_true,and_true,Bool.not_eq_true]

end ApexLs.Collections
