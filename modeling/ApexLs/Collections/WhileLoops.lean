import Mathlib.Logic.Function.Iterate
import Mathlib.Order.Basic

/-! Loops that go round while their guard holds. A loop gets a number of rounds, and has no result where they do not
suffice. -/
namespace ApexLs.Collections

section

variable {σ : Type u} {guard : σ → Bool} {body : σ → σ} {s t : σ}

def whileLoop (guard : σ → Bool) (body : σ → σ) : ℕ → σ → Option σ
  | 0,s => if guard s then none else some s
  | rounds + 1,s => if guard s then whileLoop guard body rounds (body s) else some s

theorem whileLoop_done (done : guard s = false) (rounds : ℕ) : whileLoop guard body rounds s = some s := by
  cases rounds with
  | zero => simp [whileLoop,done]
  | succ rounds => simp [whileLoop,done]

theorem whileLoop_more (more : guard s = true) (rounds : ℕ) :
    whileLoop guard body (rounds + 1) s = whileLoop guard body rounds (body s) := by
  simp [whileLoop,more]

theorem whileLoop_spec {I : σ → Prop} (keeps : ∀ s, I s → guard s = true → I (body s)) (start : I s) {rounds : ℕ}
    (result : whileLoop guard body rounds s = some t) : I t ∧ guard t = false := by
  induction rounds generalizing s with
  | zero =>
    cases more : guard s with
    | true => simp [whileLoop,more] at result
    | false =>
      rw [whileLoop_done more] at result
      exact Option.some.inj result ▸ ⟨start,more⟩
  | succ rounds ih =>
    cases more : guard s with
    | true => exact ih (keeps s start more) (whileLoop_more more rounds ▸ result)
    | false =>
      rw [whileLoop_done more] at result
      exact Option.some.inj result ▸ ⟨start,more⟩

theorem whileLoop_of_measure {I : σ → Prop} (keeps : ∀ s, I s → guard s = true → I (body s)) (measure : σ → ℕ)
    (lowers : ∀ s, I s → guard s = true → measure (body s) < measure s) (start : I s) {rounds : ℕ}
    (enough : measure s ≤ rounds) : ∃ t, whileLoop guard body rounds s = some t := by
  induction rounds generalizing s with
  | zero =>
    cases more : guard s with
    | true => exact absurd (lowers s start more) (by omega)
    | false => exact ⟨s,whileLoop_done more 0⟩
  | succ rounds ih =>
    cases more : guard s with
    | true =>
      have lower := lowers s start more
      obtain ⟨t,result⟩ := ih (keeps s start more) (by omega)
      exact ⟨t,(whileLoop_more more rounds).trans result⟩
    | false => exact ⟨s,whileLoop_done more _⟩

theorem whileLoop_mono {rounds more : ℕ} (result : whileLoop guard body rounds s = some t) (le : rounds ≤ more) :
    whileLoop guard body more s = some t := by
  induction rounds generalizing s more with
  | zero =>
    cases holds : guard s with
    | true => simp [whileLoop,holds] at result
    | false =>
      rw [whileLoop_done holds] at result ⊢
      exact result
  | succ rounds ih =>
    cases holds : guard s with
    | true =>
      obtain ⟨n,rfl⟩ := Nat.exists_eq_add_of_le le
      rw [whileLoop_more holds] at result
      rw [Nat.add_right_comm,whileLoop_more holds]
      exact ih result (Nat.le_add_right _ _)
    | false =>
      rw [whileLoop_done holds] at result ⊢
      exact result

end

/-! Binary searches for the last index that passes a test, where what passes comes before what does not. -/

structure Window where
  low : Nat
  high : Nat
  deriving DecidableEq, Repr

def Window.isWide (w : Window) : Bool := w.low < w.high

/-- The test of the middle index, the upper one of two, halves the window. -/
def Window.halve (passes : Nat → Bool) (w : Window) : Window :=
  let mid := (w.low + w.high + 1) / 2
  if passes mid then { w with low := mid } else { w with high := mid - 1 }

def searchLast (passes : Nat → Bool) (rounds high : Nat) : Option Window :=
  whileLoop Window.isWide (Window.halve passes) rounds ⟨0,high⟩

structure LastPassing (passes : Nat → Bool) (bound i : Nat) : Prop where
  inside : i ≤ bound
  holds : passes i = true
  last : ∀ j ≤ bound, passes j = true → j ≤ i

structure Window.Sound (passes : Nat → Bool) (bound : Nat) (w : Window) : Prop where
  order : w.low ≤ w.high
  inside : w.high ≤ bound
  holds : passes w.low = true
  above : ∀ j ≤ bound, passes j = true → j ≤ w.high

variable {passes : Nat → Bool} {bound : Nat} {w : Window}

theorem Window.Sound.halve (earlier : ∀ i j, i ≤ j → j ≤ bound → passes j = true → passes i = true)
    (sound : w.Sound passes bound) (wide : w.isWide = true) : (w.halve passes).Sound passes bound := by
  obtain ⟨order,inside,holds,above⟩ := sound
  have less : w.low < w.high := of_decide_eq_true wide
  rw [Window.halve]
  split
  next middle => exact ⟨show (w.low + w.high + 1) / 2 ≤ w.high by omega,inside,middle,above⟩
  next middle =>
    refine ⟨show w.low ≤ (w.low + w.high + 1) / 2 - 1 by omega,show (w.low + w.high + 1) / 2 - 1 ≤ bound by omega,holds,
      fun j within passed => Nat.le_sub_one_of_lt (Nat.lt_of_not_le fun beyond => ?_)⟩
    exact middle (earlier _ j beyond within passed)

theorem Window.halve_narrower (wide : w.isWide = true) :
    (w.halve passes).high - (w.halve passes).low < w.high - w.low := by
  have less : w.low < w.high := of_decide_eq_true wide
  rw [Window.halve]
  split
  · show w.high - (w.low + w.high + 1) / 2 < w.high - w.low
    omega
  · show (w.low + w.high + 1) / 2 - 1 - w.low < w.high - w.low
    omega

theorem searchLast_spec (earlier : ∀ i j, i ≤ j → j ≤ bound → passes j = true → passes i = true)
    (first : passes 0 = true) {rounds : Nat} (enough : bound ≤ rounds) :
    ∃ w, searchLast passes rounds bound = some w ∧ LastPassing passes bound w.low := by
  have start : Window.Sound passes bound ⟨0,bound⟩ := ⟨Nat.zero_le _,Nat.le_refl _,first,fun _ within _ => within⟩
  have keeps (w : Window) (sound : w.Sound passes bound) (wide : w.isWide = true) := sound.halve earlier wide
  obtain ⟨w,ended⟩ := whileLoop_of_measure keeps (fun w => w.high - w.low) (fun _ _ wide => Window.halve_narrower wide) start
    (show (⟨0,bound⟩ : Window).high - 0 ≤ rounds from enough)
  obtain ⟨⟨order,inside,holds,above⟩,narrow⟩ := whileLoop_spec keeps start ended
  have same : w.low = w.high := Nat.le_antisymm order (Nat.le_of_not_lt (of_decide_eq_false narrow))
  exact ⟨w,ended,Nat.le_trans order inside,holds,fun j within passed => same ▸ above j within passed⟩

theorem LastPassing.unique {i j : Nat} (first : LastPassing passes bound i) (second : LastPassing passes bound j) : i = j :=
  Nat.le_antisymm (second.last i first.inside first.holds) (first.last j second.inside second.holds)

end ApexLs.Collections
