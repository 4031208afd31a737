import Mathlib.Data.List.Basic

/-! Walks that end where they meet a key for the second time. Such a walk ends on any
relation, cyclic ones included, and a bound on its steps taken from the items it can reach
never cuts it short. -/
namespace ApexLs.Collections

section

variable {α : Type u} {β : Type v} {κ : Type w} [DecidableEq κ]

theorem unvisited_lt (key : α → κ) {known : List α} {visited visited' : List κ} (member : a ∈ known)
    (new : key a ∉ visited) (grown : ∀ k, k ∈ visited' ↔ k = key a ∨ k ∈ visited) :
    (known.filter (fun b => key b ∉ visited')).length < (known.filter (fun b => key b ∉ visited)).length := by
  have nested : known.filter (fun b => key b ∉ visited') =
      (known.filter (fun b => key b ∉ visited)).filter (fun b => key b ≠ key a) := by
    rw [List.filter_filter]
    refine List.filter_congr fun b _ => ?_
    simp [grown]
  rw [nested,List.length_filter_lt_length_iff_exists]
  exact ⟨a,List.mem_filter.mpr ⟨member,decide_eq_true new⟩,by simp⟩

/-- From an item the walk is stuck, ends with an answer, or goes on to another item. -/
def guardedWalk (key : α → κ) (next : α → Option (β ⊕ α)) : Nat → List κ → α → Option β
  | 0,_,_ => none
  | steps + 1,visited,a =>
    if key a ∈ visited then none
    else (next a).bind fun
      | .inl b => some b
      | .inr a' => guardedWalk key next steps (key a :: visited) a'

variable {key : α → κ} {next : α → Option (β ⊕ α)} {known : List α}

theorem guardedWalk_succ (closed : ∀ a a', next a = some (.inr a') → a' ∈ known) :
    ∀ steps visited a, a ∈ known → (known.filter (fun b => key b ∉ visited)).length < steps →
      guardedWalk key next (steps + 1) visited a = guardedWalk key next steps visited a := by
  intro steps
  induction steps with
  | zero => exact fun _ _ _ short => absurd short (Nat.not_lt_zero _)
  | succ steps ih =>
    intro visited a member short
    rw [guardedWalk,guardedWalk]
    split
    next => rfl
    next new =>
      cases answer : next a with
      | none => rfl
      | some onward =>
        rcases onward with b | a'
        · rfl
        · refine ih (key a :: visited) a' (closed a a' answer) ?_
          -- the item itself was new and is not any more
          have fewer := unvisited_lt key member new (fun _ => List.mem_cons)
          omega

theorem guardedWalk_first (closed : ∀ a a', next a = some (.inr a') → a' ∈ known) (enough : known.length + 2 ≤ steps)
    (a : α) : guardedWalk key next (steps + 1) [] a = guardedWalk key next steps [] a := by
  obtain ⟨steps,rfl⟩ := Nat.exists_eq_add_of_le' (Nat.le_trans (Nat.le_add_left 1 _) enough)
  rw [guardedWalk,guardedWalk]
  split
  next => rfl
  next =>
    cases answer : next a with
    | none => rfl
    | some onward =>
      rcases onward with b | a'
      · rfl
      · refine guardedWalk_succ closed steps [key a] a' (closed a a' answer) ?_
        have bound := List.length_filter_le (fun b => key b ∉ [key a]) known
        omega

theorem guardedWalk_enough (closed : ∀ a a', next a = some (.inr a') → a' ∈ known)
    (enough : known.length + 2 ≤ m) (more : m ≤ n) (a : α) :
    guardedWalk key next n [] a = guardedWalk key next m [] a := by
  induction more with
  | refl => rfl
  | step more ih => rw [guardedWalk_first closed (Nat.le_trans enough more),ih]

theorem guardedWalk_map {γ : Type w'} {key' : γ → κ} {next' : γ → Option (β ⊕ γ)} (f : α → γ) (keys : ∀ a, key' (f a) = key a)
    (commutes : ∀ a, next' (f a) = (next a).map (Sum.map id f)) (n : Nat) (visited : List κ) (a : α) :
    guardedWalk key' next' n visited (f a) = guardedWalk key next n visited a := by
  induction n generalizing visited a with
  | zero => rfl
  | succ n ih =>
    rw [guardedWalk,guardedWalk,keys,commutes]
    split
    next => rfl
    next =>
      cases next a with
      | none => rfl
      | some onward =>
        rcases onward with b | a'
        · rfl
        · exact ih (key a :: visited) a'

def AnswersIn (next : α → Option (β ⊕ α)) : Nat → α → β → Prop
  | 0,a,b => next a = some (.inl b)
  | n + 1,a,b => ∃ a', next a = some (.inr a') ∧ AnswersIn next n a' b

omit [DecidableEq κ] in
theorem AnswersIn.unique {n m : Nat} {a : α} {b b' : β} (first : AnswersIn next n a b) (second : AnswersIn next m a b') :
    n = m ∧ b = b' := by
  induction n generalizing a m with
  | zero =>
    cases m with
    | zero => exact ⟨rfl,Sum.inl.inj (Option.some.inj (first.symm.trans second))⟩
    | succ m =>
      obtain ⟨a',onward,-⟩ := second
      cases first.symm.trans onward
  | succ n ih =>
    obtain ⟨a',onward,rest⟩ := first
    cases m with
    | zero => cases onward.symm.trans second
    | succ m =>
      obtain ⟨a'',onward',rest'⟩ := second
      cases onward.symm.trans onward'
      obtain ⟨rfl,same⟩ := ih rest rest'
      exact ⟨rfl,same⟩

theorem answersIn_of_guardedWalk {steps : Nat} {visited : List κ} {a : α} {b : β}
    (found : guardedWalk key next steps visited a = some b) : ∃ n, AnswersIn next n a b := by
  induction steps generalizing visited a with
  | zero => cases found
  | succ steps ih =>
    rw [guardedWalk] at found
    split at found
    next => cases found
    next =>
      cases answer : next a with
      | none => simp [answer] at found
      | some onward =>
        rw [answer,Option.bind_some] at found
        rcases onward with b' | a'
        · cases found
          exact ⟨0,answer⟩
        · obtain ⟨n,rest⟩ := ih found
          exact ⟨n + 1,a',answer,rest⟩

theorem guardedWalk_of_answersIn (same : ∀ a a', key a = key a' → next a = next a') {n steps : Nat} {a : α} {b : β}
    {visited : List κ} (answers : AnswersIn next n a b)
    (farther : ∀ a', key a' ∈ visited → ∀ m, AnswersIn next m a' b → n < m) (room : n < steps) :
    guardedWalk key next steps visited a = some b := by
  induction n generalizing steps visited a with
  | zero =>
    obtain ⟨steps,rfl⟩ := Nat.exists_eq_add_of_lt room
    have new : key a ∉ visited := fun member => Nat.lt_irrefl 0 (farther a member 0 answers)
    rw [guardedWalk,if_neg new,answers]
    rfl
  | succ n ih =>
    obtain ⟨steps,rfl⟩ := Nat.exists_eq_add_of_lt room
    have new : key a ∉ visited := fun member => Nat.lt_irrefl _ (farther a member (n + 1) answers)
    obtain ⟨a',onward,rest⟩ := answers
    rw [guardedWalk,if_neg new,onward]
    refine ih rest (fun other member m later => ?_) (by omega)
    obtain here | before := List.mem_cons.mp member
    · cases m with
      | zero => cases ((same _ _ here).trans onward).symm.trans later
      | succ m =>
        obtain ⟨a'',onward',rest'⟩ := later
        cases ((same _ _ here).trans onward).symm.trans onward'
        exact Nat.lt_succ_of_le (Nat.le_of_eq (rest.unique rest').1)
    · exact Nat.lt_of_succ_lt (farther other before m later)

theorem guardedWalk_eq_some_iff (same : ∀ a a', key a = key a' → next a = next a')
    (closed : ∀ a a', next a = some (.inr a') → a' ∈ known) (enough : known.length + 2 ≤ steps) {a : α} {b : β} :
    guardedWalk key next steps [] a = some b ↔ ∃ n, AnswersIn next n a b := by
  constructor
  · exact answersIn_of_guardedWalk
  · rintro ⟨n,answers⟩
    have long : guardedWalk key next (steps + n + 1) [] a = some b :=
      guardedWalk_of_answersIn same answers (fun _ member => absurd member List.not_mem_nil) (by omega)
    rw [← long]
    exact (guardedWalk_enough closed enough (by omega) a).symm

end

end ApexLs.Collections
