import Mathlib.Data.List.Basic

/-! Finite runs of a deterministic step. A safety result about a run is one fact about a
step; these rules carry it to every state on the way. -/
namespace ApexLs.Collections

section

variable {σ : Type u} {α : Type v}

def run (step : σ → α → σ) (s : σ) (inputs : List α) : σ := inputs.foldl step s

@[simp] theorem run_nil (step : σ → α → σ) (s : σ) : run step s [] = s := rfl

@[simp] theorem run_cons (step : σ → α → σ) (s : σ) (a : α) (inputs : List α) :
    run step s (a :: inputs) = run step (step s a) inputs := rfl

theorem run_append (step : σ → α → σ) (s : σ) (first second : List α) :
    run step s (first ++ second) = run step (run step s first) second :=
  List.foldl_append

def EveryStep (step : σ → α → σ) (P : σ → α → Prop) : σ → List α → Prop
  | _,[] => True
  | s,a :: inputs => P s a ∧ EveryStep step P (step s a) inputs

instance EveryStep.decidable (step : σ → α → σ) (P : σ → α → Prop) [∀ s a, Decidable (P s a)] :
    (s : σ) → (inputs : List α) → Decidable (EveryStep step P s inputs)
  | _,[] => .isTrue trivial
  | s,a :: inputs => @instDecidableAnd _ _ _ (EveryStep.decidable step P (step s a) inputs)

def EveryState (step : σ → α → σ) (I : σ → Prop) (s : σ) (inputs : List α) : Prop :=
  ∀ front, front <+: inputs → I (run step s front)

section

variable {step : σ → α → σ}

theorem everyState_nil {I : σ → Prop} : EveryState step I s [] ↔ I s := by
  constructor
  · intro always
    exact always [] (List.prefix_refl _)
  · intro holds front initial
    rw [List.prefix_nil.mp initial]
    exact holds

theorem everyState_cons {I : σ → Prop} :
    EveryState step I s (a :: inputs) ↔ I s ∧ EveryState step I (step s a) inputs := by
  constructor
  · intro always
    refine ⟨always [] List.nil_prefix,fun front initial => ?_⟩
    exact always (a :: front) (List.cons_prefix_cons.mpr ⟨rfl,initial⟩)
  · rintro ⟨first,rest⟩ front initial
    rcases front with _ | ⟨b,front⟩
    · exact first
    · obtain ⟨rfl,inner⟩ := List.cons_prefix_cons.mp initial
      exact rest front inner

theorem EveryState.last {I : σ → Prop} (always : EveryState step I s inputs) :
    I (run step s inputs) :=
  always inputs (List.prefix_refl _)

theorem EveryStep.mono {P Q : σ → α → Prop} (weaker : ∀ s a, P s a → Q s a)
    (every : EveryStep step P s inputs) : EveryStep step Q s inputs := by
  induction inputs generalizing s with
  | nil => trivial
  | cons a inputs ih => exact ⟨weaker s a every.1,ih every.2⟩

theorem everyStep_append {P : σ → α → Prop} :
    EveryStep step P s (first ++ second) ↔
      EveryStep step P s first ∧ EveryStep step P (run step s first) second := by
  induction first generalizing s with
  | nil => simp [EveryStep]
  | cons a first ih => simp only [List.cons_append,EveryStep,ih,run_cons,and_assoc]

theorem exists_step_of_not_everyStep {P : σ → α → Prop} (broken : ¬ EveryStep step P s inputs) :
    ∃ front a, front ++ [a] <+: inputs ∧ EveryStep step P s front ∧ ¬ P (run step s front) a := by
  induction inputs generalizing s with
  | nil => exact absurd trivial broken
  | cons a inputs ih =>
    by_cases first : P s a
    · obtain ⟨front,b,initial,meets,fails⟩ := ih fun rest => broken ⟨first,rest⟩
      exact ⟨a :: front,b,List.cons_prefix_cons.mpr ⟨rfl,initial⟩,⟨first,meets⟩,fails⟩
    · exact ⟨[],a,List.cons_prefix_cons.mpr ⟨rfl,List.nil_prefix⟩,trivial,first⟩

theorem everyState_of_everyStep {I : σ → Prop} {P : σ → α → Prop}
    (keeps : ∀ s a, I s → P s a → I (step s a)) (start : I s) (every : EveryStep step P s inputs) :
    EveryState step I s inputs := by
  induction inputs generalizing s with
  | nil => exact everyState_nil.mpr start
  | cons a inputs ih => exact everyState_cons.mpr ⟨start,ih (keeps s a start every.1) every.2⟩

theorem everyState_of_step {I : σ → Prop} (keeps : ∀ s a, I s → I (step s a))
    (start : I s) (inputs : List α) : EveryState step I s inputs := by
  induction inputs generalizing s with
  | nil => exact everyState_nil.mpr start
  | cons a inputs ih => exact everyState_cons.mpr ⟨start,ih (keeps s a start)⟩

theorem everyStep_of_everyState {I : σ → Prop} {P : σ → α → Prop}
    (steps : ∀ s a, I s → P s a) (always : EveryState step I s inputs) : EveryStep step P s inputs := by
  induction inputs generalizing s with
  | nil => trivial
  | cons a inputs ih =>
    obtain ⟨first,rest⟩ := everyState_cons.mp always
    exact ⟨steps s a first,ih rest⟩

theorem run_invariant {I : σ → Prop} (keeps : ∀ s a, I s → I (step s a))
    (start : I s) (inputs : List α) : I (run step s inputs) :=
  (everyState_of_step keeps start inputs).last

/-- Along a run whose steps meet `Q`, where one such step keeps `I` exactly when it meets `P`, the
whole run keeps `I` exactly when all its steps meet `P`. `A` is what the run keeps besides while
`I` lasts. -/
theorem everyState_iff_everyStep_of {A I : σ → Prop} {P Q : σ → α → Prop}
    (aside : ∀ s a, A s → I s → Q s a → P s a → A (step s a))
    (exact_ : ∀ s a, A s → I s → Q s a → (I (step s a) ↔ P s a)) (ready : A s) (start : I s)
    (meeting : EveryStep step Q s inputs) :
    EveryState step I s inputs ↔ EveryStep step P s inputs := by
  induction inputs generalizing s with
  | nil => simp [everyState_nil,EveryStep,start]
  | cons a inputs ih =>
    obtain ⟨meeting,later⟩ := meeting
    rw [everyState_cons,EveryStep]
    constructor
    · rintro ⟨_,rest⟩
      have next : I (step s a) := rest [] List.nil_prefix
      have meets := (exact_ s a ready start meeting).mp next
      exact ⟨meets,(ih (aside s a ready start meeting meets) next later).mp rest⟩
    · rintro ⟨meets,rest⟩
      have next := (exact_ s a ready start meeting).mpr meets
      exact ⟨start,(ih (aside s a ready start meeting meets) next later).mpr rest⟩

theorem everyState_iff_everyStep {A I : σ → Prop} {P : σ → α → Prop}
    (aside : ∀ s a, A s → I s → P s a → A (step s a)) (exact_ : ∀ s a, A s → I s → (I (step s a) ↔ P s a))
    (ready : A s) (start : I s) :
    EveryState step I s inputs ↔ EveryStep step P s inputs := by
  have free : EveryStep step (fun _ _ => True) s inputs := by
    apply everyStep_of_everyState (I := fun _ => True)
    · exact fun _ _ _ => trivial
    · exact everyState_of_step (fun _ _ _ => trivial) trivial inputs
  apply everyState_iff_everyStep_of (A := A) (Q := fun _ _ => True)
  · exact fun s a kept holds _ => aside s a kept holds
  · exact fun s a kept holds _ => exact_ s a kept holds
  · exact ready
  · exact start
  · exact free

theorem everyStep_of_inputs {P : α → Prop} (each : ∀ a ∈ inputs, P a) (s : σ) :
    EveryStep step (fun _ a => P a) s inputs := by
  induction inputs generalizing s with
  | nil => trivial
  | cons a inputs ih =>
    obtain ⟨first,rest⟩ := List.forall_mem_cons.mp each
    exact ⟨first,ih rest (step s a)⟩

/-- Two side conditions that agree where `A` holds single out the same runs, if the steps that meet
one of them keep `A`. -/
theorem everyStep_iff_everyStep {A : σ → Prop} {P Q R : σ → α → Prop}
    (keeps : ∀ s a, A s → R s a → P s a → A (step s a)) (exact_ : ∀ s a, A s → R s a → (Q s a ↔ P s a))
    (ready : A s) (meeting : EveryStep step R s inputs) : EveryStep step Q s inputs ↔ EveryStep step P s inputs := by
  induction inputs generalizing s with
  | nil => exact Iff.rfl
  | cons a inputs ih =>
    obtain ⟨meeting,later⟩ := meeting
    constructor
    · rintro ⟨first,rest⟩
      have meets := (exact_ s a ready meeting).mp first
      exact ⟨meets,(ih (keeps s a ready meeting meets) later).mp rest⟩
    · rintro ⟨meets,rest⟩
      exact ⟨(exact_ s a ready meeting).mpr meets,(ih (keeps s a ready meeting meets) later).mpr rest⟩

end

end

/-! Histories, oldest first. -/

section

variable {μ : Type u}

/-- The mark stands in the history before an occurrence of the other. -/
def Earlier (history : List μ) (mark other : μ) : Prop := ∃ front back, history = front ++ other :: back ∧ mark ∈ front

theorem earlier_nil {mark other : μ} : ¬ Earlier [] mark other := by
  rintro ⟨front,back,cut,_⟩
  simp at cut

theorem earlier_concat {history : List μ} :
    Earlier (history ++ [last]) mark other ↔ Earlier history mark other ∨ last = other ∧ mark ∈ history := by
  constructor
  · rintro ⟨front,back,cut,member⟩
    rcases List.eq_nil_or_concat back with rfl | ⟨back,end_,rfl⟩
    · obtain ⟨rfl,same⟩ := List.append_inj' cut rfl
      exact .inr ⟨List.singleton_inj.mp same,member⟩
    · have cut : history ++ [last] = (front ++ other :: back) ++ [end_] := by simpa using cut
      obtain ⟨rfl,_⟩ := List.append_inj' cut rfl
      exact .inl ⟨front,back,rfl,member⟩
  · rintro (⟨front,back,rfl,member⟩ | ⟨rfl,member⟩)
    · exact ⟨front,back ++ [last],by simp,member⟩
    · exact ⟨history,[],rfl,member⟩

theorem earlier_apart {history : List μ} (apart : last ≠ other) :
    Earlier (history ++ [last]) mark other ↔ Earlier history mark other := by
  rw [earlier_concat]
  exact or_iff_left (fun same => apart same.1)

theorem Earlier.mem {history : List μ} (earlier : Earlier history mark other) : mark ∈ history := by
  obtain ⟨front,back,rfl,member⟩ := earlier
  exact List.mem_append_left _ member

/-- A mark of the first kind that no later mark of the second kind answers. -/
def Owed (raises answers : μ → Prop) (history : List μ) : Prop :=
  ∃ front mark back, history = front ++ mark :: back ∧ raises mark ∧ ∀ later ∈ back, ¬ answers later

theorem owed_nil {raises answers : μ → Prop} : ¬ Owed raises answers [] := by
  rintro ⟨front,mark,back,cut,_⟩
  simp at cut

theorem owed_concat {raises answers : μ → Prop} {history : List μ} :
    Owed raises answers (history ++ [last]) ↔ raises last ∨ Owed raises answers history ∧ ¬ answers last := by
  constructor
  · rintro ⟨front,mark,back,cut,raised,open_⟩
    rcases List.eq_nil_or_concat back with rfl | ⟨back,end_,rfl⟩
    · obtain ⟨rfl,same⟩ := List.append_inj' cut rfl
      exact .inl (List.singleton_inj.mp same ▸ raised)
    · have cut : history ++ [last] = (front ++ mark :: back) ++ [end_] := by simpa using cut
      obtain ⟨rfl,same⟩ := List.append_inj' cut rfl
      have same : last = end_ := List.singleton_inj.mp same
      refine .inr ⟨⟨front,mark,back,rfl,raised,fun later member => ?_⟩,?_⟩
      · exact open_ later (by simp [member])
      · exact open_ last (by simp [same])
  · rintro (raised | ⟨⟨front,mark,back,rfl,raised,open_⟩,unanswered⟩)
    · exact ⟨history,last,[],rfl,raised,by simp⟩
    · refine ⟨front,mark,back ++ [last],by simp,raised,fun later member => ?_⟩
      rcases List.mem_append.mp member with member | member
      · exact open_ later member
      · exact List.mem_singleton.mp member ▸ unanswered

end

end ApexLs.Collections
