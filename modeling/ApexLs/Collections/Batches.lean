import Mathlib.Data.List.Perm.Basic

/-! A queue served in batches. A batch takes the first `size` items; those that cannot be
served yet go to the end of the queue. -/
namespace ApexLs.Collections

section

variable {α : Type u} (waits : α → Bool) (size : Nat)

def leaveBatch (queue : List α) : List α := queue.drop size ++ (queue.take size).filter waits

def serveBatch (queue : List α) : List α := (queue.take size).filter (fun a => !waits a)

def serveBatches : Nat → List α → List α × List α
  | 0,queue => ([],queue)
  | rounds + 1,queue =>
    let (served,left) := serveBatches rounds (leaveBatch waits size queue)
    (serveBatch waits size queue ++ served,left)

variable {waits size}

theorem serveBatches_fresh (positive : 0 < size) :
    ∀ rounds fresh waiting, (∀ a ∈ waiting, waits a = true) → fresh.length ≤ rounds →
      (serveBatches waits size rounds (fresh ++ waiting)).1 = fresh.filter (fun a => !waits a) ∧
        (serveBatches waits size rounds (fresh ++ waiting)).2.Perm (waiting ++ fresh.filter waits) := by
  intro rounds
  induction rounds with
  | zero =>
    intro fresh waiting _ short
    obtain rfl := List.length_eq_zero_iff.mp (Nat.le_zero.mp short)
    simp [serveBatches]
  | succ rounds ih =>
    intro fresh waiting stuck short
    simp only [serveBatches]
    have cut : (fresh ++ waiting).take size = fresh.take size ++ waiting.take (size - fresh.length) :=
      List.take_append
    have rest : (fresh ++ waiting).drop size = fresh.drop size ++ waiting.drop (size - fresh.length) :=
      List.drop_append
    have stuckTaken : (waiting.take (size - fresh.length)).filter waits = waiting.take (size - fresh.length) :=
      List.filter_eq_self.mpr (fun a member => stuck a (List.mem_of_mem_take member))
    have noneServed : (waiting.take (size - fresh.length)).filter (fun a => !waits a) = [] :=
      List.filter_eq_nil_iff.mpr (fun a member => by simp [stuck a (List.mem_of_mem_take member)])
    have next : leaveBatch waits size (fresh ++ waiting) = fresh.drop size ++
        (waiting.drop (size - fresh.length) ++
          ((fresh.take size).filter waits ++ waiting.take (size - fresh.length))) := by
      simp [leaveBatch,cut,rest,stuckTaken]
    have stuckNext : ∀ a ∈ waiting.drop (size - fresh.length) ++
        ((fresh.take size).filter waits ++ waiting.take (size - fresh.length)), waits a = true := by
      intro a member
      simp only [List.mem_append,List.mem_filter] at member
      rcases member with later | ⟨_,now⟩ | sooner
      · exact stuck a (List.mem_of_mem_drop later)
      · exact now
      · exact stuck a (List.mem_of_mem_take sooner)
    obtain ⟨served,left⟩ := ih (fresh.drop size) _ stuckNext (by rw [List.length_drop]; omega)
    have whole : ∀ p : α → Bool, (fresh.take size).filter p ++ (fresh.drop size).filter p = fresh.filter p := by
      intro p
      rw [← List.filter_append,List.take_append_drop]
    refine ⟨?_,?_⟩
    · rw [next,served,serveBatch,cut,List.filter_append,noneServed,List.append_nil,whole]
    · rw [next]
      refine left.trans ?_
      rw [← whole waits]
      calc (waiting.drop (size - fresh.length) ++
              ((fresh.take size).filter waits ++ waiting.take (size - fresh.length))) ++
            (fresh.drop size).filter waits
          |>.Perm (((fresh.take size).filter waits ++ waiting.take (size - fresh.length) ++
              waiting.drop (size - fresh.length)) ++ (fresh.drop size).filter waits) :=
            List.Perm.append_right _ List.perm_append_comm
        _ |>.Perm ((waiting ++ (fresh.take size).filter waits) ++ (fresh.drop size).filter waits) := by
            rw [List.append_assoc ((fresh.take size).filter waits),List.take_append_drop]
            exact List.Perm.append_right _ List.perm_append_comm
        _ |>.Perm (waiting ++ ((fresh.take size).filter waits ++ (fresh.drop size).filter waits)) := by
            rw [List.append_assoc]

theorem serveBatches_spec (positive : 0 < size) (queue : List α) (enough : queue.length ≤ rounds) :
    (serveBatches waits size rounds queue).1 = queue.filter (fun a => !waits a) ∧
      (serveBatches waits size rounds queue).2.Perm (queue.filter waits) := by
  have all := @serveBatches_fresh _ waits _ positive rounds queue [] (by simp) enough
  simpa using all

end

end ApexLs.Collections
