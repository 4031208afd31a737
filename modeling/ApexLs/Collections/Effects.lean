import Mathlib.Data.List.Basic

/-! Effects that end with a value, a failure or a defect, with the actions they perform. A
failure skips what follows up to the next handler, a defect passes the handlers as well, and a
finalizer runs in every case. -/
namespace ApexLs.Collections

variable {τ : Type t} {ε : Type u} {ε' : Type u'} {α : Type v} {β : Type w}

inductive Exit (ε : Type u) (α : Type v) where
  | success (value : α)
  | failure (error : ε)
  | die
  deriving DecidableEq, Repr

structure Effect (τ : Type t) (ε : Type u) (α : Type v) where
  exit : Exit ε α
  actions : List τ := []

namespace Effect

def succeed (value : α) : Effect τ ε α := { exit := .success value }

def fail (error : ε) : Effect τ ε α := { exit := .failure error }

def perform (action : τ) : Effect τ ε Unit := { exit := .success (),actions := [action] }

def tryPromise (action : τ) (rejects : Option ε) : Effect τ ε Unit :=
  { exit := rejects.elim (.success ()) .failure,actions := [action] }

def flatMap (self : Effect τ ε α) (next : α → Effect τ ε β) : Effect τ ε β :=
  match self.exit with
  | .success value => { exit := (next value).exit,actions := self.actions ++ (next value).actions }
  | .failure error => { exit := .failure error,actions := self.actions }
  | .die => { exit := .die,actions := self.actions }

def andThen (self : Effect τ ε α) (next : Effect τ ε β) : Effect τ ε β := self.flatMap fun _ => next

def catchAll (self : Effect τ ε α) (handler : ε → Effect τ ε' α) : Effect τ ε' α :=
  match self.exit with
  | .success value => { exit := .success value,actions := self.actions }
  | .failure error => { exit := (handler error).exit,actions := self.actions ++ (handler error).actions }
  | .die => { exit := .die,actions := self.actions }

def orDie (self : Effect τ ε α) : Effect τ Empty α :=
  match self.exit with
  | .success value => { exit := .success value,actions := self.actions }
  | .failure _ => { exit := .die,actions := self.actions }
  | .die => { exit := .die,actions := self.actions }

/-- The finalizer runs however the effect ends; its own defect takes over. -/
def ensuring (self : Effect τ ε α) (finalizer : Effect τ Empty β) : Effect τ ε α where
  exit := match finalizer.exit with
    | .die => .die
    | _ => self.exit
  actions := self.actions ++ finalizer.actions

def forEach (body : α → Effect τ ε Unit) : List α → Effect τ ε Unit
  | [] => succeed ()
  | item :: items => (body item).andThen (forEach body items)

section

variable {self : Effect τ ε α} {next : α → Effect τ ε β} {then_ : Effect τ ε β}

theorem flatMap_success {value : α} (ends : self.exit = .success value) :
    self.flatMap next = ⟨(next value).exit,self.actions ++ (next value).actions⟩ := by
  simp only [flatMap,ends]

theorem flatMap_failure {error : ε} (ends : self.exit = .failure error) :
    self.flatMap next = ⟨.failure error,self.actions⟩ := by
  simp only [flatMap,ends]

theorem andThen_success {value : α} (ends : self.exit = .success value) :
    self.andThen then_ = ⟨then_.exit,self.actions ++ then_.actions⟩ := flatMap_success ends

theorem andThen_failure {error : ε} (ends : self.exit = .failure error) :
    self.andThen then_ = ⟨.failure error,self.actions⟩ := flatMap_failure ends

theorem flatMap_die (ends : self.exit = .die) : self.flatMap next = ⟨.die,self.actions⟩ := by
  simp only [flatMap,ends]

theorem catchAll_success {handler : ε → Effect τ ε' α} {value : α} (ends : self.exit = .success value) :
    self.catchAll handler = ⟨.success value,self.actions⟩ := by
  simp only [catchAll,ends]

theorem catchAll_failure {handler : ε → Effect τ ε' α} {error : ε} (ends : self.exit = .failure error) :
    self.catchAll handler = ⟨(handler error).exit,self.actions ++ (handler error).actions⟩ := by
  simp only [catchAll,ends]

theorem catchAll_die {handler : ε → Effect τ ε' α} (ends : self.exit = .die) :
    self.catchAll handler = ⟨.die,self.actions⟩ := by
  simp only [catchAll,ends]

theorem ensuring_actions {finalizer : Effect τ Empty β} :
    (self.ensuring finalizer).actions = self.actions ++ finalizer.actions := rfl

theorem ensuring_die {finalizer : Effect τ Empty β} (ends : finalizer.exit = .die) :
    (self.ensuring finalizer).exit = .die := by
  simp only [ensuring,ends]

theorem ensuring_success {finalizer : Effect τ Empty β} {value : β} (ends : finalizer.exit = .success value) :
    (self.ensuring finalizer).exit = self.exit := by
  simp only [ensuring,ends]

theorem mem_andThen {action : τ} (member : action ∈ (self.andThen then_).actions) :
    action ∈ self.actions ∨ action ∈ then_.actions := by
  unfold andThen at member
  cases ends : self.exit with
  | success value =>
    rw [flatMap_success ends] at member
    exact List.mem_append.mp member
  | failure error =>
    rw [flatMap_failure ends] at member
    exact .inl member
  | die =>
    rw [flatMap_die ends] at member
    exact .inl member

theorem andThen_success_iff {first : Effect τ ε Unit} {b : β} :
    (first.andThen then_).exit = .success b ↔ first.exit = .success () ∧ then_.exit = .success b := by
  cases ends : first.exit with
  | success value => simp [andThen_success ends]
  | failure error => simp [andThen_failure ends]
  | die => simp [andThen,flatMap_die ends]

theorem andThen_ne_die (first : self.exit ≠ .die) (second : then_.exit ≠ .die) : (self.andThen then_).exit ≠ .die := by
  unfold andThen
  cases ends : self.exit with
  | success value => simpa only [flatMap_success ends] using second
  | failure error => simp [flatMap_failure ends]
  | die => exact absurd ends first

end

section

variable {body : α → Effect τ ε Unit}

theorem mem_forEach {items : List α} {action : τ} (member : action ∈ (forEach body items).actions) :
    ∃ item ∈ items, action ∈ (body item).actions := by
  induction items with
  | nil => cases member
  | cons item items ih =>
    rcases mem_andThen member with here | later
    · exact ⟨item,.head _,here⟩
    · obtain ⟨other,listed,inside⟩ := ih later
      exact ⟨other,.tail _ listed,inside⟩

theorem forEach_success_iff {items : List α} :
    (forEach body items).exit = .success () ↔ ∀ item ∈ items, (body item).exit = .success () := by
  induction items with
  | nil => simp [forEach,succeed]
  | cons item items ih =>
    rw [forEach,andThen_success_iff,ih,List.forall_mem_cons]

theorem forEach_ne_die {items : List α} (sound : ∀ item ∈ items, (body item).exit ≠ .die) :
    (forEach body items).exit ≠ .die := by
  induction items with
  | nil => simp [forEach,succeed]
  | cons item items ih =>
    exact andThen_ne_die (sound item (.head _)) (ih fun other listed => sound other (.tail _ listed))

end

theorem tryPromise_success_iff {action : τ} {rejects : Option ε} :
    (tryPromise action rejects).exit = .success () ↔ rejects = none := by
  cases rejects <;> simp [tryPromise]

theorem tryPromise_ne_die {action : τ} {rejects : Option ε} : (tryPromise action rejects).exit ≠ .die := by
  cases rejects <;> simp [tryPromise]

end Effect
end ApexLs.Collections
