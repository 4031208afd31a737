import Mathlib.Data.List.Perm.Basic

/-! Rows kept in a list and updated in place: what one update does to a row and to a count. -/
namespace ApexLs.Collections

variable {α : Type u} {β : Type v} {κ : Type w}

theorem modify_row {rows : List α} (own : rows[i]? = some a) : (rows.modify i f)[i]? = some (f a) := by
  rw [List.getElem?_modify_eq,own]
  rfl

theorem modify_row_inv {rows : List α} (row : (rows.modify i f)[j]? = some b) :
    ∃ a, rows[j]? = some a ∧ b = if i = j then f a else a := by
  rw [List.getElem?_modify] at row
  change rows[j]?.map _ = some b at row
  rw [Option.map_eq_some_iff] at row
  obtain ⟨a,own,rfl⟩ := row
  refine ⟨a,own,?_⟩
  split <;> rfl

theorem concat_row {rows : List α} : (rows ++ [a])[i]? = some b ↔ rows[i]? = some b ∨ i = rows.length ∧ a = b := by
  rcases Nat.lt_trichotomy i rows.length with inside | rfl | outside
  · rw [List.getElem?_append_left inside]
    have := Nat.ne_of_lt inside
    tauto
  · simp
  · rw [List.getElem?_eq_none (by simp; omega),List.getElem?_eq_none (by omega)]
    have := Nat.ne_of_gt outside
    simp [this]

theorem modify_concat (rows : List α) (a : α) (f : α → α) :
    (rows ++ [a]).modify rows.length f = rows ++ [f a] := by
  rw [List.modify_eq_take_drop,List.take_left,List.drop_left]
  rfl

theorem countP_modify (p : α → Bool) {rows : List α} (own : rows[i]? = some a) :
    (rows.modify i f).countP p + (p a).toNat = rows.countP p + (p (f a)).toNat := by
  induction rows generalizing i with
  | nil => cases own
  | cons head rows ih =>
    cases i with
    | zero =>
      obtain rfl : head = a := by simpa using own
      rw [List.modify_zero_cons,List.countP_cons,List.countP_cons]
      cases p head <;> cases p (f head) <;> simp
    | succ i =>
      have rest := ih (i := i) (by simpa using own)
      rw [List.modify_succ_cons,List.countP_cons,List.countP_cons]
      omega

theorem countP_modify_same (p : α → Bool) (same : ∀ a, p (f a) = p a) (rows : List α) (i : Nat) :
    (rows.modify i f).countP p = rows.countP p := by
  induction rows generalizing i with
  | nil => simp
  | cons head rows ih =>
    cases i with
    | zero => rw [List.modify_zero_cons,List.countP_cons,List.countP_cons,same]
    | succ i => rw [List.modify_succ_cons,List.countP_cons,List.countP_cons,ih]

theorem count_concat [DecidableEq κ] (rows : List α) (a : α) (key : α → κ) (k : κ) :
    ((rows ++ [a]).map key).count k = (rows.map key).count k + if key a = k then 1 else 0 := by
  rw [List.map_append,List.count_append]
  simp [List.count_singleton]

theorem length_eraseIdx_of_row {rows : List α} (own : rows[i]? = some a) : (rows.eraseIdx i).length + 1 = rows.length := by
  have inside := (List.getElem?_eq_some_iff.mp own).1
  rw [List.length_eraseIdx_of_lt inside]
  omega

theorem count_eraseIdx [DecidableEq κ] {rows : List α} (key : α → κ) (k : κ) (own : rows[i]? = some a) :
    ((rows.eraseIdx i).map key).count k + (if key a = k then 1 else 0) = (rows.map key).count k := by
  obtain ⟨inside,rfl⟩ := List.getElem?_eq_some_iff.mp own
  rw [← ((List.getElem_cons_eraseIdx_perm inside).map key).count_eq k,List.map_cons,List.count_cons]
  simp

theorem filterMap_keys {rows : List α} {f : α → Option β} {key : α → κ} {own : β → κ}
    (keyed : ∀ a b, f a = some b → own b = key a) : ((rows.filterMap f).map own).Sublist (rows.map key) := by
  induction rows with
  | nil => exact .slnil
  | cons a rows ih =>
    rw [List.filterMap_cons]
    split
    · exact ih.cons _
    · next b made =>
      rw [List.map_cons,List.map_cons,keyed a b made]
      exact ih.cons_cons _

end ApexLs.Collections
