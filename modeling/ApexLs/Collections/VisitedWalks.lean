import Mathlib.Data.List.Basic

/-! Walks along a partial successor that are cut off after a number of items, or at an item whose key was visited. -/
namespace ApexLs.Collections

variable {α : Type u} {κ : Type v}

def along (next : α → Option α) (start : Option α) : Nat → Option α
  | 0 => start
  | i + 1 => (along next start i).bind next

def visitedWalk [DecidableEq κ] (key : α → κ) (next : α → Option α) : Nat → List κ → Option α → List α
  | 0,_,_ => []
  | _ + 1,_,none => []
  | steps + 1,visited,some a => if key a ∈ visited then [] else a :: visitedWalk key next steps (key a :: visited) (next a)

/-- No two of the items up to that many steps on have the same key. -/
def Unrepeated (key : α → κ) (next : α → Option α) (start : Option α) (i : Nat) : Prop :=
  ∀ j ≤ i, ∀ k < j, ∀ a b, along next start j = some a → along next start k = some b → key b ≠ key a

/-- The item so many steps on is within the limit, and no key came back on the way to it. -/
def Visits (key : α → κ) (next : α → Option α) (steps : Nat) (start : Option α) (i : Nat) (a : α) : Prop :=
  i < steps ∧ along next start i = some a ∧ Unrepeated key next start i

variable {key : α → κ} {next : α → Option α} {start : Option α}

theorem Visits.earlier {steps i j : Nat} {a b : α} (visits : Visits key next steps start i a) (less : j < i)
    (earlier : along next start j = some b) : Visits key next steps start j b :=
  ⟨Nat.lt_trans less visits.1,earlier,fun k least => visits.2.2 k (Nat.le_trans least (Nat.le_of_lt less))⟩

theorem along_from (next : α → Option α) (start : Option α) (i : Nat) :
    along next (start.bind next) i = along next start (i + 1) := by
  induction i with
  | zero => rfl
  | succ i ih => exact congrArg (·.bind next) ih

theorem along_none (next : α → Option α) (i : Nat) : along next none i = none := by
  induction i with
  | zero => rfl
  | succ i ih => exact congrArg (·.bind next) ih

theorem along_before {i j : Nat} (reached : along next start i = some a) (earlier : j ≤ i) :
    ∃ b, along next start j = some b := by
  induction i generalizing a with
  | zero => exact ⟨a,Nat.le_zero.mp earlier ▸ reached⟩
  | succ i ih =>
    obtain rfl | less := Nat.eq_or_lt_of_le earlier
    · exact ⟨a,reached⟩
    · obtain ⟨b,there,-⟩ := Option.bind_eq_some_iff.mp reached
      exact ih there (Nat.lt_succ_iff.mp less)

variable [DecidableEq κ]

theorem getElem?_visitedWalk {steps i : Nat} {visited : List κ} :
    (visitedWalk key next steps visited start)[i]? = some a ↔ i < steps ∧ along next start i = some a ∧
      Unrepeated key next start i ∧ ∀ j ≤ i, ∀ b, along next start j = some b → key b ∉ visited := by
  induction steps generalizing i visited start with
  | zero => simp [visitedWalk]
  | succ steps ih =>
    cases start with
    | none => simp [visitedWalk,along_none]
    | some first =>
      rw [visitedWalk]
      split
      next old =>
        simp only [List.getElem?_nil,reduceCtorEq,false_iff]
        exact fun ⟨_,_,_,new⟩ => new 0 (Nat.zero_le i) first rfl old
      next new =>
        cases i with
        | zero =>
          simp only [List.getElem?_cons_zero,Nat.zero_lt_succ,true_and]
          refine ⟨fun same => ⟨same,fun j least k less => absurd less (by omega),?_⟩,fun reached => reached.1⟩
          intro j least b there
          cases Nat.le_zero.mp least
          cases there
          exact new
        | succ i =>
          -- the rest is the walk from the next item, which has the first item's key visited too
          rw [List.getElem?_cons_succ,ih,Nat.succ_lt_succ_iff]
          have onward (j : Nat) : along next (next first) j = along next (some first) (j + 1) := along_from next (some first) j
          refine and_congr_right fun _ => ?_
          rw [onward]
          refine and_congr_right fun _ => ⟨fun ⟨apart,fresh⟩ => ⟨?_,?_⟩,fun ⟨apart,fresh⟩ => ⟨?_,?_⟩⟩
          · intro j most k less b c there earlier
            obtain ⟨j,rfl⟩ := Nat.exists_eq_add_of_lt (Nat.zero_lt_of_lt less)
            rw [Nat.zero_add] at most less there
            cases k with
            | zero =>
              cases earlier
              exact fun same => fresh j (by omega) b (onward j ▸ there) (same ▸ .head _)
            | succ k => exact apart j (by omega) k (by omega) b c (onward j ▸ there) (onward k ▸ earlier)
          · intro j most b there
            cases j with
            | zero =>
              cases there
              exact new
            | succ j => exact fun seen => fresh j (by omega) b (onward j ▸ there) (.tail _ seen)
          · intro j most k less b c there earlier
            exact apart (j + 1) (by omega) (k + 1) (by omega) b c (onward j ▸ there) (onward k ▸ earlier)
          · intro j most b there seen
            rw [onward] at there
            obtain same | seen := List.mem_cons.mp seen
            · exact apart (j + 1) (by omega) 0 (by omega) b first there rfl same.symm
            · exact fresh (j + 1) (by omega) b there seen

theorem getElem?_visitedWalk_nil {steps i : Nat} :
    (visitedWalk key next steps [] start)[i]? = some a ↔ Visits key next steps start i a := by
  rw [getElem?_visitedWalk,Visits]
  simp only [List.not_mem_nil,not_false_eq_true,implies_true,and_true]

end ApexLs.Collections
