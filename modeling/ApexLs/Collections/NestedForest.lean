import Mathlib.Logic.Relation
import Mathlib.Order.Nat

/-! Forests given by the parent of each node, and walks up from a node. -/
namespace ApexLs.Collections

variable {parent : ℕ → Option ℕ} {Holds wanted open_ : ℕ → Prop}

def Above (parent : ℕ → Option ℕ) : ℕ → ℕ → Prop := Relation.ReflTransGen fun i j => parent i = some j

theorem Above.up (step : parent i = some j) (above : Above parent j k) : Above parent i k := .head step above

theorem Above.cases (above : Above parent i k) : i = k ∨ ∃ j, parent i = some j ∧ Above parent j k :=
  Relation.ReflTransGen.cases_head above

theorem Above.total (above : Above parent i j) (above' : Above parent i k) : Above parent j k ∨ Above parent k j := by
  have unique : Relator.RightUnique fun i j => parent i = some j := by
    intro a b c step step'
    exact Option.some.inj (step.symm.trans step')
  exact Relation.ReflTransGen.total_of_right_unique unique above above'

/-- The nodes that hold are in one line: each parent holds with its child and has a smaller number, and of the children
of one node, and of the roots, one holds at most. -/
structure Nested (parent : ℕ → Option ℕ) (Holds : ℕ → Prop) : Prop where
  earlier : ∀ i j, Holds i → parent i = some j → j < i
  upward : ∀ i j, Holds i → parent i = some j → Holds j
  single : ∀ i k, Holds i → Holds k → parent i = parent k → i = k

theorem Nested.above (nested : Nested parent Holds) (above : Above parent i k) (holds : Holds i) : Holds k ∧ k ≤ i := by
  induction above with
  | refl => exact ⟨holds,le_rfl⟩
  | tail _ step ih => exact ⟨nested.upward _ _ ih.1 step,(nested.earlier _ _ ih.1 step).le.trans ih.2⟩

theorem Nested.comparable (nested : Nested parent Holds) (holds : Holds i) (holds' : Holds k) :
    Above parent i k ∨ Above parent k i := by
  -- A node is compared through its parent: the line below that has one child that holds.
  have through (i j k : ℕ) (holds : Holds i) (holds' : Holds k) (step : parent i = some j)
      (lines : Above parent j k ∨ Above parent k j) : Above parent i k ∨ Above parent k i := by
    rcases lines with above | above
    · exact .inl (above.up step)
    · rcases Relation.ReflTransGen.cases_tail above with same | ⟨m,below,last⟩
      · exact .inl (.single (same ▸ step))
      · have child : m = i := nested.single m i (nested.above below holds').1 holds (last.trans step.symm)
        exact .inr (child ▸ below)
  induction i using Nat.strong_induction_on generalizing k with
  | h i ih =>
  cases up : parent i with
  | some j => exact through i j k holds holds' up (ih j (nested.earlier i j holds up) (nested.upward i j holds up) holds')
  | none =>
    clear ih
    induction k using Nat.strong_induction_on with
    | h k ih =>
    cases up' : parent k with
    | some j =>
      have lines := ih j (nested.earlier k j holds' up') (nested.upward k j holds' up')
      exact (through k j i holds' holds up' lines.symm).symm
    | none => exact .inl (nested.single i k holds holds' (up.trans up'.symm) ▸ .refl)

/-- What a walk up from a node finds, if it stops at the first node that is wanted and leaves open nodes only. -/
inductive WalkFinds (parent : ℕ → Option ℕ) (wanted open_ : ℕ → Prop) : ℕ → Option ℕ → Prop
  | here (i : ℕ) (met : wanted i) : WalkFinds parent wanted open_ i (some i)
  | up (i j : ℕ) (found : Option ℕ) (unmet : ¬ wanted i) (opens : open_ i) (step : parent i = some j)
      (rest : WalkFinds parent wanted open_ j found) : WalkFinds parent wanted open_ i found
  | shut (i : ℕ) (unmet : ¬ wanted i) (closed : ¬ open_ i) : WalkFinds parent wanted open_ i none

/-- A walk gets as far as a node if all below it on its way are open. -/
def WalksTo (parent : ℕ → Option ℕ) (open_ : ℕ → Prop) (i j : ℕ) : Prop :=
  Above parent i j ∧ ∀ k, Above parent i k → Above parent k j → k ≠ j → open_ k

theorem WalkFinds.first (nested : Nested parent Holds) (holds : Holds i) (finds : WalkFinds parent wanted open_ i (some j)) :
    WalksTo parent open_ i j ∧ wanted j ∧ ∀ k, Above parent i k → wanted k → Above parent j k := by
  generalize is : some j = found at finds
  induction finds with
  | here i met =>
    obtain rfl := Option.some.inj is
    refine ⟨⟨.refl,fun k above back apart => ?_⟩,met,fun k above _ => above⟩
    exact absurd (le_antisymm (nested.above above holds).2 (nested.above back (nested.above above holds).1).2) apart
  | up i j' found unmet opens step rest ih =>
    obtain ⟨⟨above,all⟩,met,nearest⟩ := ih (nested.upward i j' holds step) is
    refine ⟨⟨above.up step,fun k onward back apart => ?_⟩,met,fun k onward met' => ?_⟩
    · rcases onward.cases with rfl | ⟨m,step',onward⟩
      · exact opens
      · obtain rfl : j' = m := Option.some.inj (step.symm.trans step')
        exact all k onward back apart
    · rcases onward.cases with rfl | ⟨m,step',onward⟩
      · exact absurd met' unmet
      · obtain rfl : j' = m := Option.some.inj (step.symm.trans step')
        exact nearest k onward met'
  | shut => cases is

theorem WalkFinds.silent (finds : WalkFinds parent wanted open_ i none) : ∀ j, WalksTo parent open_ i j → ¬ wanted j := by
  generalize is : (none : Option ℕ) = found at finds
  induction finds with
  | here => cases is
  | up i j found unmet opens step rest ih =>
    rintro k ⟨above,all⟩ met
    rcases above.cases with rfl | ⟨j',step',above⟩
    · exact unmet met
    · obtain rfl : j = j' := Option.some.inj (step.symm.trans step')
      exact ih is k ⟨above,fun m first second apart => all m (first.up step) second apart⟩ met
  | shut i unmet closed =>
    rintro j ⟨above,all⟩ met
    by_cases same : i = j
    · exact unmet (same ▸ met)
    · exact closed (all i .refl above same)

end ApexLs.Collections
