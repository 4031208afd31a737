import Mathlib.Algebra.Order.Ring.Nat
import Mathlib.Data.List.Basic
import Mathlib.Order.WellFounded

/-! Runs of a step that is not always enabled. A run takes enabled steps only. -/
namespace ApexLs.Collections

section

variable {σ : Type u} {α : Type v}

/-- The inputs are enabled one after another, and lead from one state to the other. -/
def Runs (step : σ → α → Option σ) (s : σ) (inputs : List α) (t : σ) : Prop := inputs.foldlM step s = some t

def Stuck (step : σ → α → Option σ) (s : σ) : Prop := ∀ a, step s a = none

variable {step : σ → α → Option σ} {s t : σ} {inputs : List α}

theorem runs_nil : Runs step s [] t ↔ s = t := by
  simp [Runs]

theorem runs_cons : Runs step s (a :: inputs) t ↔ ∃ next, step s a = some next ∧ Runs step next inputs t := by
  simp [Runs,Option.bind_eq_some_iff]

theorem Runs.invariant {I : σ → Prop} (keeps : ∀ s a t, I s → step s a = some t → I t)
    (ran : Runs step s inputs t) (start : I s) : I t := by
  induction inputs generalizing s with
  | nil => exact runs_nil.mp ran ▸ start
  | cons a inputs ih =>
    obtain ⟨next,first,rest⟩ := runs_cons.mp ran
    exact ih rest (keeps s a next start first)

def Meets (step : σ → α → Option σ) (P : σ → α → Prop) : σ → List α → Prop
  | _,[] => True
  | s,a :: inputs => P s a ∧ ∀ next, step s a = some next → Meets step P next inputs

instance Meets.decidable {P : σ → α → Prop} [∀ s a, Decidable (P s a)] : ∀ s inputs, Decidable (Meets step P s inputs)
  | _,[] => .isTrue trivial
  | s,a :: inputs =>
    have (next : σ) : Decidable (Meets step P next inputs) := Meets.decidable next inputs
    decidable_of_iff (P s a ∧ ∀ next ∈ (step s a).toList,Meets step P next inputs) (by simp [Meets])

theorem Meets.and {P Q : σ → α → Prop} (first : Meets step P s inputs) (second : Meets step Q s inputs) :
    Meets step (fun s a => P s a ∧ Q s a) s inputs := by
  induction inputs generalizing s with
  | nil => trivial
  | cons a inputs ih => exact ⟨⟨first.1,second.1⟩,fun next went => ih (first.2 next went) (second.2 next went)⟩

theorem Runs.invariant_of_meets {I : σ → Prop} {P : σ → α → Prop}
    (keeps : ∀ s a t, I s → P s a → step s a = some t → I t) (ran : Runs step s inputs t) (meets : Meets step P s inputs)
    (start : I s) : I t := by
  induction inputs generalizing s with
  | nil => exact runs_nil.mp ran ▸ start
  | cons a inputs ih =>
    obtain ⟨next,first,rest⟩ := runs_cons.mp ran
    obtain ⟨met,later⟩ := meets
    exact ih rest (later next first) (keeps s a next start met first)

theorem Runs.bounded {I : σ → Prop} {rank : σ → Nat} (keeps : ∀ s a t, I s → step s a = some t → I t)
    (lowers : ∀ s a t, I s → step s a = some t → rank t < rank s) (ran : Runs step s inputs t) (start : I s) :
    inputs.length + rank t ≤ rank s := by
  induction inputs generalizing s with
  | nil =>
    obtain rfl := runs_nil.mp ran
    simp
  | cons a inputs ih =>
    obtain ⟨next,first,rest⟩ := runs_cons.mp ran
    have lower := lowers s a next start first
    have bound := ih rest (keeps s a next start first)
    rw [List.length_cons]
    omega

theorem wellFounded_of_lowers [LT β] [WellFoundedLT β] {P : α → Prop} (rank : σ → β)
    (lowers : ∀ s a t, P a → step s a = some t → rank t < rank s) : WellFounded fun t s => ∃ a, P a ∧ step s a = some t :=
  Subrelation.wf (fun ⟨a,allowed,went⟩ => lowers _ a _ allowed went) (InvImage.wf rank wellFounded_lt)

theorem sum_set_lt {l : List α} {f : α → Nat} (there : l[i]? = some b) (less : f a < f b) :
    ((l.set i a).map f).sum < (l.map f).sum := by
  induction l generalizing i with
  | nil => cases there
  | cons x l ih =>
    cases i with
    | zero =>
      obtain rfl := Option.some_inj.mp there
      simpa using less
    | succ i => simpa using ih there

end

/-! Endless schedules of a deterministic step. What a fair schedule must bring about follows from
a rank that its turns lower and its other steps leave alone. -/

section

variable {σ : Type u} {α : Type v} {β : Type w}

def stateAt (step : σ → α → σ) (s : σ) (schedule : Nat → α) : Nat → σ
  | 0 => s
  | n + 1 => step (stateAt step s schedule n) (schedule n)

def FairSchedule (turn : α → Prop) (schedule : Nat → α) : Prop := ∀ n, ∃ m, n ≤ m ∧ turn (schedule m)

variable {step : σ → α → σ} {s : σ} {schedule : Nat → α} {I goal : σ → Prop} {turn : α → Prop}

theorem stateAt_invariant (keeps : ∀ s a, I s → I (step s a)) (start : I s) (n : Nat) :
    I (stateAt step s schedule n) := by
  induction n with
  | zero => exact start
  | succ n ih => exact keeps _ _ ih

theorem stateAt_invariant_from (keeps : ∀ s a, I s → I (step s a)) (begins : I (stateAt step s schedule n))
    (later : n ≤ m) : I (stateAt step s schedule m) := by
  induction later with
  | refl => exact begins
  | step _ ih => exact keeps _ _ ih

theorem next_turn {rank : σ → β} (keeps : ∀ s a, I s → I (step s a))
    (waits : ∀ s a, I s → ¬ goal s → ¬ turn a → goal (step s a) ∨ rank (step s a) = rank s)
    (begins : I (stateAt step s schedule n)) (gap : Nat) (comes : turn (schedule (n + gap))) :
    ∃ m, n ≤ m ∧ (goal (stateAt step s schedule m) ∨
      turn (schedule m) ∧ rank (stateAt step s schedule m) = rank (stateAt step s schedule n)) := by
  induction gap generalizing n with
  | zero => exact ⟨n,Nat.le_refl n,.inr ⟨comes,rfl⟩⟩
  | succ gap ih =>
    by_cases reached : goal (stateAt step s schedule n)
    · exact ⟨n,Nat.le_refl n,.inl reached⟩
    by_cases now : turn (schedule n)
    · exact ⟨n,Nat.le_refl n,.inr ⟨now,rfl⟩⟩
    rcases waits _ (schedule n) begins reached now with done | same
    · exact ⟨n + 1,Nat.le_succ n,.inl done⟩
    · obtain ⟨m,later,arrived⟩ := ih (n := n + 1) (keeps _ _ begins) (by rwa [Nat.succ_add_eq_add_succ])
      refine ⟨m,by omega,arrived.imp_right fun ⟨turned,kept⟩ => ⟨turned,kept.trans same⟩⟩

theorem eventually_of_rank [LT β] [WellFoundedLT β] (rank : σ → β) (keeps : ∀ s a, I s → I (step s a))
    (waits : ∀ s a, I s → ¬ goal s → ¬ turn a → goal (step s a) ∨ rank (step s a) = rank s)
    (moves : ∀ s a, I s → ¬ goal s → turn a → goal (step s a) ∨ rank (step s a) < rank s)
    (fair : FairSchedule turn schedule) (begins : I (stateAt step s schedule n)) :
    ∃ m, n ≤ m ∧ goal (stateAt step s schedule m) := by
  generalize level : rank (stateAt step s schedule n) = top
  induction top using WellFoundedLT.induction generalizing n with
  | ind top ih =>
    obtain ⟨m,later,comes⟩ := fair n
    obtain ⟨gap,rfl⟩ := Nat.exists_eq_add_of_le later
    obtain ⟨m,after,arrived | ⟨turned,same⟩⟩ := next_turn keeps waits begins gap comes
    · exact ⟨m,after,arrived⟩
    by_cases reached : goal (stateAt step s schedule m)
    · exact ⟨m,after,reached⟩
    have there : I (stateAt step s schedule m) := stateAt_invariant_from keeps begins after
    rcases moves _ (schedule m) there reached turned with done | lower
    · exact ⟨m + 1,by omega,done⟩
    · rw [same,level] at lower
      obtain ⟨last,further,ended⟩ := ih _ lower (n := m + 1) (keeps _ _ there) rfl
      exact ⟨last,by omega,ended⟩

end

end ApexLs.Collections
