import Mathlib.Data.Nat.Log
import ApexLs.Queue.TaskOrder

/-! Starvation relief over whole runs: how many tasks are started between two of its points, and how many at each. -/
namespace ApexLs.Queue

open ApexLs.Collections

/-- A number rounded to a significand of 53 bits, a half to the even side. -/
def roundedToDouble (x : Nat) : Nat :=
  let unit := 2 ^ (x.log2 - 52)
  let q := x / unit
  let r := x % unit
  (if unit < 2 * r ∨ unit = 2 * r ∧ q % 2 = 1 then q + 1 else q) * unit

/-- `Math.ceil(n * 0.1)`. The double 0.1 is 3602879701896397 / 2 ^ 55. -/
def ceilTenth (n : Nat) : Nat := (roundedToDouble (n * 3602879701896397) + 2 ^ 55 - 1) / 2 ^ 55

theorem roundedToDouble_ge (x : Nat) (positive : x ≠ 0) : x - x / 2 ^ 52 ≤ roundedToDouble x := by
  have unit : 2 ^ (x.log2 - 52) ≤ x / 2 ^ 52 ∨ 2 ^ (x.log2 - 52) = 1 := by
    by_cases small : x.log2 ≤ 52
    · exact .inr (by rw [Nat.sub_eq_zero_of_le small,pow_zero])
    · refine .inl ((Nat.le_div_iff_mul_le (by decide)).mpr ?_)
      rw [← pow_add,Nat.sub_add_cancel (by omega)]
      exact Nat.log2_self_le positive
  have split := Nat.div_add_mod x (2 ^ (x.log2 - 52))
  have below : x % 2 ^ (x.log2 - 52) < 2 ^ (x.log2 - 52) := Nat.mod_lt _ (Nat.two_pow_pos _)
  have at_least : x / 2 ^ (x.log2 - 52) * 2 ^ (x.log2 - 52) ≤ roundedToDouble x := by
    rw [roundedToDouble]
    refine Nat.mul_le_mul_right _ ?_
    split
    · exact Nat.le_succ _
    · exact le_rfl
  rw [Nat.mul_comm] at split
  rcases unit with small | one
  · omega
  · rw [one] at split at_least below
    omega

theorem min_ceilTenth (n : Nat) : min (ceilTenth n) 10 = min ((n + 9) / 10) 10 := by
  by_cases small : n < 101
  · have all : ∀ k ∈ List.range 101, min (ceilTenth k) 10 = min ((k + 9) / 10) 10 := by decide +kernel
    exact all n (List.mem_range.mpr small)
  · have rounded := roundedToDouble_ge (n * 3602879701896397) (by omega)
    have enough : 10 ≤ ceilTenth n := by
      rw [ceilTenth,Nat.le_div_iff_mul_le (by decide)]
      omega
    omega

namespace Scheduler

/-- What a half of the controller's iteration is for the streak: a look at the queues that started some tasks, or a point
of starvation relief. A look that started none is an idle iteration. -/
inductive Mark where
  | scan (started : Nat)
  | relief
  deriving DecidableEq, Repr

namespace Mark

def started : Mark → Nat
  | scan started => started
  | relief => 0

def resets : Mark → Bool
  | scan started => started = 0
  | relief => true

end Mark

def atRelief (cfg : Config) (s : Scheduler) : Bool := s.stage = .relieving && cfg.maxHighPriorityStreak < s.streak

def markOf (cfg : Config) (s : Scheduler) : Event → Option Mark
  | .controller budget =>
    if s.atRelief cfg then some .relief
    else if s.stage = .scanning ∧ s.shutdownSignal = false then
      some (.scan ((s.controllerLoop cfg budget).forked.length - s.forked.length))
    else none
  | _ => none

def marks (cfg : Config) : Scheduler → List Event → List Mark
  | _,[] => []
  | s,e :: events => (s.markOf cfg e).toList ++ marks cfg (s.step cfg e) events

/-- At a relief point as many tasks are started as expected, all from the lower queues and no more than these hold. -/
def Relieves (cfg : Config) (expected : Scheduler → Nat) (s : Scheduler) : Event → Prop
  | .controller budget => s.atRelief cfg = true → ∃ tasks, Taken s (s.controllerLoop cfg budget) tasks ∧
      (∀ task ∈ tasks, task.priority.lower = true) ∧ tasks.length = expected s ∧
      tasks.length ≤ s.sizeOf [.normal,.low,.background]
  | _ => True

def batchOf (n : Nat) : Nat := max (min ((n + 9) / 10) 10) (min 5 n)

/-- The batch, where the tasks that do not wait for space are enough for it. -/
def reliefCount (s : Scheduler) : Nat :=
  min (batchOf (s.sizeOf [.normal,.low,.background])) (s.admittedLower Priority.allPrioritiesWithCritical)

def Streaked (cfg : Config) (s : Scheduler) : Prop :=
  0 ≤ s.streak ∧ s.streak ≤ max cfg.maxHighPriorityStreak 0 + if s.stage = .scanning then 0 else 1

variable {cfg : Config} {s : Scheduler}

theorem relieve_frame (s : Scheduler) (batch : Nat) (ps : List Priority) (processed : Nat) :
    (s.relieve batch ps processed).streak = s.streak ∧ (s.relieve batch ps processed).stage = s.stage := by
  have started (s : Scheduler) (p : Priority) (items : List QueuedItem) :
      (items.foldl (fun s item => s.processQueuedItem p true item) s).streak = s.streak ∧
      (items.foldl (fun s item => s.processQueuedItem p true item) s).stage = s.stage := by
    induction items generalizing s with
    | nil => exact ⟨rfl,rfl⟩
    | cons item items ih => exact ih _
  induction ps generalizing s processed with
  | nil => exact ⟨rfl,rfl⟩
  | cons p ps ih =>
    rw [relieve]
    split
    · exact ih s processed
    · split
      · exact ⟨rfl,rfl⟩
      · obtain ⟨streak,stage⟩ := ih (((s.queues p).takeUpTo (batch - processed)).1.foldl
          (fun s item => s.processQueuedItem p true item) (s.setQueue p ((s.queues p).takeUpTo (batch - processed)).2))
          (processed + ((s.queues p).takeUpTo (batch - processed)).1.length)
        obtain ⟨streak',stage'⟩ := started (s.setQueue p ((s.queues p).takeUpTo (batch - processed)).2) p
          ((s.queues p).takeUpTo (batch - processed)).1
        exact ⟨streak.trans streak',stage.trans stage'⟩

theorem scanPriorities_cases (cfg : Config) (s : Scheduler) (budget : Nat) :
    (s.scanPriorities cfg budget).stage = .relieving ∧
    ((s.scanPriorities cfg budget).forked.length = s.forked.length ∧ (s.scanPriorities cfg budget).streak = 0 ∨
      (s.scanPriorities cfg budget).forked.length = s.forked.length + 1 ∧
        (s.scanPriorities cfg budget).streak = s.streak + 1) := by
  rcases scan_cases cfg s Priority.allPrioritiesWithCritical budget with ⟨_,nothing⟩ | ⟨p,item,q,_,_,started⟩
  · simp [scanPriorities,nothing]
  · simp [scanPriorities,started,processQueuedItem,setQueue]

theorem finished_frame (s : Scheduler) (i : Nat) (outcome : Outcome) :
    (s.finished i outcome).streak = s.streak ∧ (s.finished i outcome).stage = s.stage := by
  rw [finished]
  split
  · exact ⟨rfl,rfl⟩
  · cases outcome <;> exact ⟨rfl,rfl⟩

theorem handled_frame (s : Scheduler) (i : Nat) :
    (s.handled i).streak = s.streak ∧ (s.handled i).stage = s.stage := by
  rw [handled]
  split <;> exact ⟨rfl,rfl⟩

theorem Streaked.of_eq (streaked : Streaked cfg s) (streak : s'.streak = s.streak) (stage : s'.stage = s.stage) :
    Streaked cfg s' := by
  rw [Streaked,streak,stage]
  exact streaked

structure Counts (cfg : Config) (s : Scheduler) (e : Event) : Prop where
  streaked : Streaked cfg (s.step cfg e)
  unmarked : s.markOf cfg e = none → (s.step cfg e).streak = s.streak
  marked : ∀ mark, s.markOf cfg e = some mark → mark.resets = false → (s.step cfg e).streak = s.streak + mark.started

theorem controllerLoop_relief (relieving : s.atRelief cfg = true) (budget : Nat) :
    s.controllerLoop cfg budget = relieve { s with stage := .scanning,streak := 0 } (s.reliefBatchSize cfg)
      Priority.allPrioritiesWithCritical.reverse 0 := by
  obtain ⟨stage,above⟩ := Bool.and_eq_true_iff.mp relieving
  rw [controllerLoop,of_decide_eq_true stage]
  exact if_pos (of_decide_eq_true above)

theorem counts_controller (streaked : Streaked cfg s) (budget : Nat) : Counts cfg s (.controller budget) := by
  have step : s.step cfg (.controller budget) = s.controllerLoop cfg budget := rfl
  obtain ⟨low,high⟩ := streaked
  by_cases relieving : s.atRelief cfg = true
  · have is : s.markOf cfg (.controller budget) = some .relief := if_pos relieving
    refine ⟨?_,fun none_ => (Option.some_ne_none _ (is.symm.trans none_)).elim,fun mark marked kept => ?_⟩
    · have frame := relieve_frame { s with stage := .scanning,streak := 0 } (s.reliefBatchSize cfg)
        Priority.allPrioritiesWithCritical.reverse 0
      rw [Streaked,step,controllerLoop_relief relieving,frame.1,frame.2]
      have bound := le_max_right cfg.maxHighPriorityStreak 0
      exact ⟨le_rfl,by simpa using bound⟩
    · obtain rfl := Option.some.inj (is.symm.trans marked)
      cases kept
  · by_cases scanning : s.stage = .scanning ∧ s.shutdownSignal = false
    · obtain ⟨stage,started⟩ := scanPriorities_cases cfg s budget
      have after : s.controllerLoop cfg budget = s.scanPriorities cfg budget := by
        simp [controllerLoop,scanning]
      have is : s.markOf cfg (.controller budget) =
          some (.scan ((s.controllerLoop cfg budget).forked.length - s.forked.length)) := by
        rw [markOf,if_neg relieving,if_pos scanning]
      rw [if_pos scanning.1] at high
      refine ⟨?_,fun none_ => (Option.some_ne_none _ (is.symm.trans none_)).elim,fun mark marked kept => ?_⟩
      · rw [Streaked,step,after,stage]
        rcases started with ⟨_,zero⟩ | ⟨_,more⟩
        · simp only [zero,reduceCtorEq,if_false]
          omega
        · simp only [more,reduceCtorEq,if_false]
          omega
      · obtain rfl := Option.some.inj (is.symm.trans marked)
        have some_ : (s.controllerLoop cfg budget).forked.length - s.forked.length ≠ 0 := of_decide_eq_false kept
        rw [step,Mark.started]
        rw [after] at some_ ⊢
        omega
    · have is : s.markOf cfg (.controller budget) = none := by rw [markOf,if_neg relieving,if_neg scanning]
      have after : (s.controllerLoop cfg budget).streak = s.streak ∧ Streaked cfg (s.controllerLoop cfg budget) := by
        cases stage : s.stage with
        | scanning =>
          have down : s.shutdownSignal = true := by simpa [stage] using scanning
          rw [stage,if_pos rfl] at high
          simp only [controllerLoop,stage,down,if_true,Streaked,reduceCtorEq,if_false,true_and]
          omega
        | relieving =>
          have below : ¬ cfg.maxHighPriorityStreak < s.streak := by simpa [atRelief,stage] using relieving
          simp only [controllerLoop,stage,relief,if_neg below,Streaked,if_true,true_and]
          omega
        | returned =>
          have same : s.controllerLoop cfg budget = s := by simp only [controllerLoop,stage]
          rw [same]
          exact ⟨rfl,low,high⟩
      exact ⟨after.2,fun _ => after.1,fun mark marked => (Option.some_ne_none _ (marked.symm.trans is)).elim⟩

theorem counts_step (streaked : Streaked cfg s) (e : Event) : Counts cfg s e := by
  have aside (streak : (s.step cfg e).streak = s.streak) (stage : (s.step cfg e).stage = s.stage)
      (unmarked : s.markOf cfg e = none) : Counts cfg s e :=
    ⟨streaked.of_eq streak stage,fun _ => streak,fun mark marked =>
      (Option.some_ne_none _ (marked.symm.trans unmarked)).elim⟩
  cases e with
  | controller budget => exact counts_controller streaked budget
  | offer | withdraw | shutdown => exact aside rfl rfl rfl
  | finished i outcome => exact aside (finished_frame s i outcome).1 (finished_frame s i outcome).2 rfl
  | handled i => exact aside (handled_frame s i).1 (handled_frame s i).2 rfl

theorem sum_started_le (streaked : Streaked cfg s) {events : List Event} (split : marks cfg s events = block ++ back)
    (kept : ∀ mark ∈ block, mark.resets = false) :
    s.streak + (block.map Mark.started).sum ≤ max cfg.maxHighPriorityStreak 0 + 1 := by
  induction events generalizing s block with
  | nil =>
    rw [marks] at split
    obtain ⟨rfl,_⟩ := List.append_eq_nil_iff.mp split.symm
    have high := streaked.2
    simp only [List.map_nil,List.sum_nil]
    split at high <;> omega
  | cons e events ih =>
    obtain ⟨after,unmarked,marked⟩ := counts_step streaked e
    rw [marks] at split
    cases is : s.markOf cfg e with
    | none =>
      rw [is] at split
      have rest := ih after split kept
      rw [unmarked is] at rest
      exact rest
    | some mark =>
      rw [is] at split
      cases block with
      | nil =>
        have high := streaked.2
        simp only [List.map_nil,List.sum_nil]
        split at high <;> omega
      | cons first block =>
        obtain ⟨rfl,behind⟩ := List.cons.inj split
        obtain ⟨here,later⟩ := List.forall_mem_cons.mp kept
        have rest := ih after behind later
        rw [marked mark is here] at rest
        simp only [List.map_cons,List.sum_cons]
        omega

theorem sum_started_between (streaked : Streaked cfg s) {events : List Event}
    (split : marks cfg s events = front ++ block ++ back) (kept : ∀ mark ∈ block, mark.resets = false) :
    ((block.map Mark.started).sum : Int) ≤ max cfg.maxHighPriorityStreak 0 + 1 := by
  induction events generalizing s front with
  | nil =>
    rw [marks] at split
    obtain ⟨both,_⟩ := List.append_eq_nil_iff.mp split.symm
    obtain ⟨_,rfl⟩ := List.append_eq_nil_iff.mp both
    simp only [List.map_nil,List.sum_nil]
    omega
  | cons e events ih =>
    cases front with
    | nil =>
      rw [List.nil_append] at split
      have all := sum_started_le streaked split kept
      have low := streaked.1
      omega
    | cons first front =>
      rw [marks] at split
      have after := (counts_step streaked e).streaked
      cases is : s.markOf cfg e with
      | none =>
        rw [is] at split
        exact ih after split
      | some mark =>
        rw [is] at split
        exact ih after (List.cons.inj split).2

theorem relieves (rounding : cfg.ceilTenth = ceilTenth) (s : Scheduler) (e : Event) : Relieves cfg reliefCount s e := by
  cases e with
  | controller budget =>
    intro relieving
    obtain ⟨tasks,taken,lower,length⟩ := relieve_taken { s with stage := .scanning,streak := 0 } (s.reliefBatchSize cfg)
      Priority.allPrioritiesWithCritical.reverse 0 (by decide)
    have batch : s.reliefBatchSize cfg = batchOf (s.sizeOf [.normal,.low,.background]) := by
      rw [reliefBatchSize,rounding,batchOf,min_ceilTenth]
    have forward : Priority.allPrioritiesWithCritical.filter Priority.lower = [.normal,.low,.background] := rfl
    have admitted : admittedLower { s with stage := .scanning,streak := 0 } Priority.allPrioritiesWithCritical.reverse =
        s.admittedLower Priority.allPrioritiesWithCritical := by
      have backward : Priority.allPrioritiesWithCritical.reverse.filter Priority.lower = [.background,.low,.normal] := rfl
      rw [admittedLower,admittedLower,forward,backward]
      simp only [List.map_cons,List.map_nil,List.sum_cons,List.sum_nil]
      omega
    have few : s.admittedLower Priority.allPrioritiesWithCritical ≤ s.sizeOf [.normal,.low,.background] := by
      rw [admittedLower,sizeOf,forward]
      simp only [List.map_cons,List.map_nil,List.sum_cons,List.sum_nil]
      omega
    rw [controllerLoop_relief relieving]
    refine ⟨tasks,taken.of_eq rfl rfl rfl rfl,lower,?_,?_⟩
    · rw [length,batch,admitted]
      rfl
    · rw [length,admitted]
      omega
  | offer | withdraw | shutdown | finished | handled => trivial

/-- Between two relief points or idle iterations the tasks started are bounded by the streak, and every relief point starts
its batch. -/
theorem relief_bounds (cfg : Config) (events : List Event) :
    (∀ front block back, marks { cfg with ceilTenth := ceilTenth } (initialized cfg) events = front ++ block ++ back →
      (∀ mark ∈ block, mark.resets = false) →
      ((block.map Mark.started).sum : Int) ≤ max cfg.maxHighPriorityStreak 0 + 1) ∧
    EveryStep (step { cfg with ceilTenth := ceilTenth }) (Relieves { cfg with ceilTenth := ceilTenth } reliefCount)
      (initialized cfg) events := by
  constructor
  · intro front block back split kept
    have start : Streaked { cfg with ceilTenth := ceilTenth } (initialized cfg) := by
      have bound := le_max_right cfg.maxHighPriorityStreak 0
      exact ⟨le_rfl,by simpa [initialized] using bound⟩
    have all := sum_started_between start split kept
    exact all
  · exact everyStep_of_everyState (I := fun _ => True) (fun s e _ => relieves rfl s e)
      (everyState_of_step (fun _ _ _ => trivial) trivial events)

/-- 62 tasks are offered to a queue with room for 6; the controller starts one, and comes to a relief point. -/
def crowded : List Event :=
  (List.range 62).map (fun i => .offer .normal ⟨String.ofList (List.replicate i 'a')⟩) ++ [.controller 6,.controller 6]

/-- There 61 tasks wait, 55 of them for space. Relief starts 6: neither the batch for 61 nor the batch for 6. Below 0 the
streak bounds nothing: a look at the queues still starts its task. -/
theorem relief_short_of_batch :
    (¬ EveryStep (step { queueCapacity := fun _ => 6,maxHighPriorityStreak := 0,ceilTenth := ceilTenth })
      (Relieves { queueCapacity := fun _ => 6,maxHighPriorityStreak := 0,ceilTenth := ceilTenth }
        fun s => batchOf (s.sizeOf [.normal,.low,.background]))
      (initialized { queueCapacity := fun _ => 6,maxHighPriorityStreak := 0,ceilTenth := ceilTenth }) crowded) ∧
    (¬ EveryStep (step { queueCapacity := fun _ => 6,maxHighPriorityStreak := 0,ceilTenth := ceilTenth })
      (Relieves { queueCapacity := fun _ => 6,maxHighPriorityStreak := 0,ceilTenth := ceilTenth }
        fun s => batchOf (s.admittedLower Priority.allPrioritiesWithCritical))
      (initialized { queueCapacity := fun _ => 6,maxHighPriorityStreak := 0,ceilTenth := ceilTenth }) crowded) ∧
    ¬ ∀ front block back, marks { maxHighPriorityStreak := -2,ceilTenth := ceilTenth }
        (initialized { maxHighPriorityStreak := -2,ceilTenth := ceilTenth }) [.offer .normal ⟨"a"⟩,.controller 6] =
          front ++ block ++ back →
      (∀ mark ∈ block, mark.resets = false) → ((block.map Mark.started).sum : Int) ≤ -2 + 1 := by
  refine ⟨?_,?_,?_⟩
  · intro every
    obtain ⟨_,_,reached,_⟩ := everyStep_append.mp every
    obtain ⟨tasks,taken,_,expected,_⟩ := reached (by decide +kernel)
    have forked := congrArg List.length taken.forked
    rw [List.length_append,expected] at forked
    revert forked
    decide +kernel
  · intro every
    obtain ⟨_,_,reached,_⟩ := everyStep_append.mp every
    obtain ⟨tasks,taken,_,expected,_⟩ := reached (by decide +kernel)
    have forked := congrArg List.length taken.forked
    rw [List.length_append,expected] at forked
    revert forked
    decide +kernel
  · intro bounded
    have one := bounded [] [.scan 1] [] (by decide +kernel) (by decide)
    revert one
    decide

end Scheduler
end ApexLs.Queue
