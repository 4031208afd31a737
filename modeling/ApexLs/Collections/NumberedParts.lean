import Mathlib.Data.List.Sort
import Mathlib.Data.List.Nodup
import Mathlib.Data.List.Perm.Subperm
import Mathlib.Data.List.Range

/-! A whole sent in numbered parts. As many distinct numbers as there are parts are all the
numbers, so sorting what has arrived puts the parts in their order. -/
namespace ApexLs.Collections

variable {α : Type u}

theorem numbers_perm {numbers : List Int} {n : Nat} (unique : numbers.Nodup)
    (range : ∀ i ∈ numbers, 0 ≤ i ∧ i < n) (full : numbers.length = n) :
    numbers.Perm ((List.range n).map Int.ofNat) := by
  have below : numbers ⊆ (List.range n).map Int.ofNat := by
    intro i member
    obtain ⟨low,high⟩ := range i member
    refine List.mem_map.mpr ⟨i.toNat,List.mem_range.mpr ?_,?_⟩
    · omega
    · exact Int.toNat_of_nonneg low
  have subperm : numbers.Subperm ((List.range n).map Int.ofNat) := List.subperm_of_subset unique below
  exact subperm.perm_of_length_le (by simp [full])

theorem sorted_numbers {index : α → Int} {parts : List α} {n : Nat} (unique : (parts.map index).Nodup)
    (range : ∀ a ∈ parts, 0 ≤ index a ∧ index a < n) (full : parts.length = n) :
    (parts.mergeSort (fun a b => index a ≤ index b)).map index = (List.range n).map Int.ofNat := by
  have perm : ((parts.mergeSort (fun a b => index a ≤ index b)).map index).Perm ((List.range n).map Int.ofNat) :=
    ((List.mergeSort_perm parts _).map index).trans (numbers_perm unique (by simpa using range) (by simpa using full))
  have sorted : (parts.mergeSort (fun a b => index a ≤ index b)).Pairwise (fun a b => index a ≤ index b) := by
    have ordered := @List.pairwise_mergeSort _ (fun a b => decide (index a ≤ index b))
      (fun a b c ab bc => by simp at *; omega) (fun a b => by simp; omega) parts
    exact ordered.imp (fun le => of_decide_eq_true le)
  refine @List.Perm.eq_of_pairwise _ (· ≤ ·) _ _ (fun a b _ _ => Int.le_antisymm) (List.pairwise_map.mpr sorted) ?_ perm
  refine List.pairwise_map.mpr ?_
  exact List.pairwise_lt_range.imp (fun lt => Int.ofNat_le.mpr (Nat.le_of_lt lt))

theorem sorted_parts {index : α → Int} {parts : List α} {n : Nat} (unique : (parts.map index).Nodup)
    (range : ∀ a ∈ parts, 0 ≤ index a ∧ index a < n) (full : parts.length = n) {get : Int → Option α}
    (found : ∀ a ∈ parts, get (index a) = some a) :
    (parts.mergeSort (fun a b => index a ≤ index b)).map some = (List.range n).map (fun i : Nat => get i) := by
  have numbered := congrArg (List.map get) (sorted_numbers unique range full)
  rw [List.map_map,List.map_map] at numbered
  rw [show (List.range n).map (fun i : Nat => get i) = (List.range n).map (get ∘ Int.ofNat) from rfl,← numbered]
  refine List.map_congr_left (fun a member => ?_)
  exact (found a (List.mem_mergeSort.mp member)).symm

end ApexLs.Collections
