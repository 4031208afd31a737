import Mathlib.Algebra.Ring.Nat
import Mathlib.Data.List.Perm.Basic
import Mathlib.Logic.Function.Basic
import ApexLs.Collections.Runs

/-! The priority scheduler: bounded queues, one controller that starts tasks, and the counts
of what is running. The counts belong to three parties: the controller adds to them, the
finalizer of a task and its error handler take from them. -/
namespace ApexLs.Queue

open ApexLs.Collections

inductive Priority where
  | critical
  | immediate
  | high
  | normal
  | low
  | background
  deriving DecidableEq, Repr

namespace Priority

def allPrioritiesWithCritical : List Priority := [critical,immediate,high,normal,low,background]

/-- `p >= Priority.Normal`. -/
def lower : Priority → Bool
  | critical | immediate | high => false
  | normal | low | background => true

end Priority

structure QueuedItem where
  id : String
  deriving DecidableEq, Repr

/-- A bounded queue with back pressure. The entries past the capacity belong to offers that
still wait for space; they move up in their order. -/
structure BoundedQueue where
  capacity : Nat
  entries : List QueuedItem := []

namespace BoundedQueue

def offer (q : BoundedQueue) (item : QueuedItem) : BoundedQueue := { q with entries := q.entries ++ [item] }

def size (q : BoundedQueue) : Nat := q.entries.length

def takeUpTo (q : BoundedQueue) (n : Nat) : List QueuedItem × BoundedQueue :=
  (q.entries.take (min n q.capacity),{ q with entries := q.entries.drop (min n q.capacity) })

def withdraw (q : BoundedQueue) (i : Nat) : BoundedQueue :=
  if q.capacity ≤ i then { q with entries := q.entries.eraseIdx i } else q

end BoundedQueue

/-- The configuration. In the limits `none` is `Infinity`, or a name the record does not have;
`ceilTenth` is `Math.ceil(n * 0.1)` with its rounding. -/
structure Config where
  queueCapacity : Priority → Nat := fun _ => 200
  maxConcurrency : Priority → Option Int := fun _ => none
  maxTotalConcurrency : Option Int := none
  maxHighPriorityStreak : Int := 50
  ceilTenth : Nat → Nat

namespace Config

def orElse (a b : Nat) : Nat := if a = 0 then b else a

def capacity (cfg : Config) (p : Priority) : Nat :=
  orElse (cfg.queueCapacity p) (orElse (cfg.queueCapacity .normal) 200)

/-- `maxConcurrency[p] || Infinity`. -/
def maxConcurrent (cfg : Config) (p : Priority) : Option Int :=
  (cfg.maxConcurrency p).filter (· ≠ 0)

/-- `count >= limit`, where the limit may be infinite. -/
def reached (count : Nat) (limit : Option Int) : Bool := limit.any fun n : Int => n ≤ (count : Int)

end Config

structure Task where
  item : QueuedItem
  priority : Priority
  deriving DecidableEq, Repr

/-- A task start: how many tasks of its priority were running, and whether starvation relief
made it. -/
structure Start where
  priority : Priority
  running : Nat
  relief : Bool
  deriving DecidableEq, Repr

/-- Where the controller's loop stands: it yields between the two halves of an iteration. -/
inductive Stage where
  | scanning
  | relieving
  | returned
  deriving DecidableEq, Repr

/-- `SchedulerInternalState`, with the controller's own variables, the forked tasks, the
priorities of the failed tasks whose error handler has still to run, and every start made. -/
structure Scheduler where
  queues : Priority → BoundedQueue
  activeTaskCounts : Priority → Nat := fun _ => 0
  tasksStarted : Nat := 0
  tasksCompleted : Nat := 0
  shutdownSignal : Bool := false
  streak : Int := 0
  stage : Stage := .scanning
  forked : List Task := []
  failing : List Priority := []
  starts : List Start := []

namespace Scheduler

def initialized (cfg : Config) : Scheduler where
  queues p := { capacity := cfg.capacity p }

def setQueue (s : Scheduler) (p : Priority) (q : BoundedQueue) : Scheduler :=
  { s with queues := Function.update s.queues p q }

def totalActiveTasks (s : Scheduler) : Nat :=
  (Priority.allPrioritiesWithCritical.map s.activeTaskCounts).sum

def running (s : Scheduler) (p : Priority) : Nat := s.forked.countP (·.priority = p)

def processQueuedItem (s : Scheduler) (p : Priority) (relief : Bool) (item : QueuedItem) : Scheduler :=
  { s with
    activeTaskCounts := Function.update s.activeTaskCounts p (s.activeTaskCounts p + 1)
    tasksStarted := s.tasksStarted + 1
    forked := s.forked ++ [⟨item,p⟩]
    starts := s.starts ++ [⟨p,s.running p,relief⟩] }

/-- `counts.set(priority, Math.max(0, current - 1))`. -/
def decrement (s : Scheduler) (p : Priority) : Scheduler :=
  { s with activeTaskCounts := Function.update s.activeTaskCounts p (s.activeTaskCounts p - 1) }

/-- A priority the loop passes over: its own limit is reached, or the total one is and the
priority is a lower one. -/
def skips (cfg : Config) (s : Scheduler) (p : Priority) : Bool :=
  Config.reached (s.activeTaskCounts p) (cfg.maxConcurrent p) ||
    (Config.reached s.totalActiveTasks cfg.maxTotalConcurrency && p.lower)

/-- The loop over the priorities; `budget` of them are looked at before the time is up. The
flag tells whether a task was started. -/
def scan (cfg : Config) (s : Scheduler) : List Priority → Nat → Scheduler × Bool
  | [],_ => (s,false)
  | _ :: _,0 => (s,false)
  | p :: rest,budget + 1 =>
    if s.skips cfg p then s.scan cfg rest budget
    else
      match (s.queues p).takeUpTo 1 with
      | ([],_) => s.scan cfg rest budget
      | (item :: _,q) =>
        (({ s with streak := s.streak + 1 : Scheduler }.setQueue p q).processQueuedItem p false item,true)

def scanPriorities (cfg : Config) (s : Scheduler) (budget : Nat) : Scheduler :=
  let (s,executed) := s.scan cfg Priority.allPrioritiesWithCritical budget
  let s := if executed then s else { s with streak := 0 }
  { s with stage := .relieving }

def sizeOf (s : Scheduler) (ps : List Priority) : Nat := (ps.map (fun p => (s.queues p).size)).sum

def reliefBatchSize (cfg : Config) (s : Scheduler) : Nat :=
  let lowerPriorityTotal := s.sizeOf [.normal,.low,.background]
  max (min (cfg.ceilTenth lowerPriorityTotal) 10) (min 5 lowerPriorityTotal)

def relieve (s : Scheduler) (batch : Nat) : List Priority → Nat → Scheduler
  | [],_ => s
  | p :: rest,processed =>
    if !p.lower then s.relieve batch rest processed
    else if batch ≤ processed then s
    else
      let (items,q) := (s.queues p).takeUpTo (batch - processed)
      (items.foldl (fun s item => s.processQueuedItem p true item) (s.setQueue p q)).relieve batch rest
        (processed + items.length)

def relief (cfg : Config) (s : Scheduler) : Scheduler :=
  let s := { s with stage := .scanning }
  if cfg.maxHighPriorityStreak < s.streak then
    let s := { s with streak := 0 }
    s.relieve (s.reliefBatchSize cfg) Priority.allPrioritiesWithCritical.reverse 0
  else s

def controllerLoop (cfg : Config) (s : Scheduler) (budget : Nat) : Scheduler :=
  match s.stage with
  | .scanning => if s.shutdownSignal then { s with stage := .returned } else s.scanPriorities cfg budget
  | .relieving => s.relief cfg
  | .returned => s

/-- How a task ends. A task interrupted before its fiber ran at all runs no finalizer. -/
inductive Outcome where
  | success
  | failure
  | interrupted
  | defect
  | unbegun
  deriving DecidableEq, Repr

def finalize (s : Scheduler) (p : Priority) : Scheduler :=
  { s.decrement p with tasksCompleted := s.tasksCompleted + 1 }

def finished (s : Scheduler) (i : Nat) (outcome : Outcome) : Scheduler :=
  match s.forked[i]? with
  | none => s
  | some task =>
    let s := { s with forked := s.forked.eraseIdx i }
    match outcome with
    | .unbegun => s
    | .failure => { s.finalize task.priority with failing := s.failing ++ [task.priority] }
    | .success | .interrupted | .defect => s.finalize task.priority

def handled (s : Scheduler) (i : Nat) : Scheduler :=
  match s.failing[i]? with
  | none => s
  | some p => { s.decrement p with failing := s.failing.eraseIdx i }

inductive Event where
  | offer (p : Priority) (item : QueuedItem)
  | withdraw (p : Priority) (i : Nat)
  | shutdown
  | controller (budget : Nat)
  | finished (i : Nat) (outcome : Outcome)
  | handled (i : Nat)

def step (cfg : Config) (s : Scheduler) : Event → Scheduler
  | .offer p item => s.setQueue p ((s.queues p).offer item)
  | .withdraw p i => s.setQueue p ((s.queues p).withdraw i)
  | .shutdown => { s with shutdownSignal := true }
  | .controller budget => s.controllerLoop cfg budget
  | .finished i outcome => s.finished i outcome
  | .handled i => s.handled i

structure Accounted (cfg : Config) (s : Scheduler) : Prop where
  counts : ∀ p, s.activeTaskCounts p = s.running p
  balance : (s.tasksStarted : Int) - s.tasksCompleted = s.totalActiveTasks
  limits : ∀ start ∈ s.starts, start.relief = false →
    ∀ n, cfg.maxConcurrency start.priority = some n → (start.running : Int) < n

/-- The loop does not pass over the priority, and its queue has a task. -/
def startable (cfg : Config) (s : Scheduler) (p : Priority) : Bool :=
  !s.skips cfg p && !((s.queues p).takeUpTo 1).1.isEmpty

def toStart (cfg : Config) (s : Scheduler) (budget : Nat) : Option Priority :=
  if s.stage = .scanning ∧ s.shutdownSignal = false then
    (Priority.allPrioritiesWithCritical.take budget).find? (s.startable cfg)
  else none

/-- No error handler runs beside a task of its own priority, no task is interrupted before it
began, and none is started from a priority whose limit is 0. -/
def Undisturbed (cfg : Config) (s : Scheduler) : Event → Prop
  | .controller budget => ∀ p, s.toStart cfg budget = some p → cfg.maxConcurrency p ≠ some 0
  | .finished i .unbegun => s.forked.length ≤ i
  | .handled i => ∀ p, s.failing[i]? = some p → s.running p = 0
  | _ => True

/-- What a run keeps: exact counts, the limits, and every task started either ran its finalizer
or is still there. -/
structure Kept (cfg : Config) (s : Scheduler) : Prop where
  counts : ∀ p, s.activeTaskCounts p = s.running p
  limits : ∀ start ∈ s.starts, start.relief = false →
    ∀ n, cfg.maxConcurrency start.priority = some n → (start.running : Int) < n
  followed : s.tasksStarted = s.tasksCompleted + s.forked.length

theorem sum_running (tasks : List Task) :
    (Priority.allPrioritiesWithCritical.map fun p => tasks.countP (·.priority = p)).sum = tasks.length := by
  induction tasks with
  | nil => rfl
  | cons task tasks ih =>
    obtain ⟨item,p⟩ := task
    simp only [Priority.allPrioritiesWithCritical,List.map_cons,List.map_nil,List.sum_cons,
      List.sum_nil] at ih
    cases p <;> simp [Priority.allPrioritiesWithCritical,List.countP_cons] <;> omega

theorem totalActiveTasks_eq {s : Scheduler} (counts : ∀ p, s.activeTaskCounts p = s.running p) :
    s.totalActiveTasks = s.forked.length := by
  have same : s.activeTaskCounts = fun p => s.forked.countP (·.priority = p) := funext counts
  rw [totalActiveTasks,same]
  exact sum_running s.forked

theorem Kept.accounted {s : Scheduler} (kept : s.Kept cfg) : s.Accounted cfg := by
  refine ⟨kept.counts,?_,kept.limits⟩
  have total := totalActiveTasks_eq kept.counts
  have followed := kept.followed
  omega

theorem running_start (s : Scheduler) (p q : Priority) (relief : Bool) (item : QueuedItem) :
    (s.processQueuedItem p relief item).running q = s.running q + if q = p then 1 else 0 := by
  by_cases same : q = p
  · simp [running,processQueuedItem,List.countP_append,same]
  · simp [running,processQueuedItem,List.countP_append,same,Ne.symm same]

theorem Kept.start {s : Scheduler} {relief : Bool} (kept : s.Kept cfg) (item : QueuedItem)
    (room : relief = false → ∀ n, cfg.maxConcurrency p = some n → (s.running p : Int) < n) :
    (s.processQueuedItem p relief item).Kept cfg := by
  constructor
  · intro q
    have before := kept.counts q
    rw [running_start]
    by_cases same : q = p
    · subst same
      simp only [processQueuedItem,Function.update_self]
      simp [before]
    · simp [processQueuedItem,before,same]
  · intro start member direct n limit
    rcases List.mem_append.mp member with old | new
    · exact kept.limits start old direct n limit
    · cases List.mem_singleton.mp new
      exact room direct n limit
  · have followed := kept.followed
    simp only [processQueuedItem,List.length_append,List.length_singleton]
    omega

theorem Kept.setQueue {s : Scheduler} (kept : s.Kept cfg) (p : Priority) (q : BoundedQueue) :
    (s.setQueue p q).Kept cfg := ⟨kept.counts,kept.limits,kept.followed⟩

theorem scan_cases (cfg : Config) (s : Scheduler) (ps : List Priority) (budget : Nat) :
    ((ps.take budget).find? (s.startable cfg) = none ∧ s.scan cfg ps budget = (s,false)) ∨
    ∃ p item q, (ps.take budget).find? (s.startable cfg) = some p ∧ s.skips cfg p = false ∧
      s.scan cfg ps budget =
        (({ s with streak := s.streak + 1 : Scheduler }.setQueue p q).processQueuedItem p false item,true) := by
  induction ps generalizing budget with
  | nil => exact .inl ⟨by simp,by simp [scan]⟩
  | cons p ps ih =>
    cases budget with
    | zero => exact .inl ⟨by simp,by simp [scan]⟩
    | succ budget =>
      by_cases skipped : s.skips cfg p
      · have passed : s.startable cfg p = false := by simp [startable,skipped]
        simpa [scan,skipped,passed] using ih budget
      · rcases taken : (s.queues p).takeUpTo 1 with ⟨chunk,q⟩
        cases chunk with
        | nil =>
          have passed : s.startable cfg p = false := by simp [startable,taken]
          simpa [scan,skipped,taken,passed] using ih budget
        | cons item chunk =>
          have ready : s.startable cfg p = true := by simp [startable,taken,skipped]
          refine .inr ⟨p,item,q,?_,by simpa using skipped,?_⟩
          · simp [ready]
          · simp [scan,skipped,taken]

section

variable {s : Scheduler}

theorem Kept.room (kept : s.Kept cfg) (notSkipped : s.skips cfg p = false)
    (nonzero : cfg.maxConcurrency p ≠ some 0) (limit : cfg.maxConcurrency p = some n) :
    (s.running p : Int) < n := by
  have counted := kept.counts p
  have below := (Bool.or_eq_false_iff.mp notSkipped).1
  have notZero : n ≠ 0 := by
    rintro rfl
    exact nonzero limit
  simp only [Config.maxConcurrent,limit,Option.filter_some,notZero,decide_true,Config.reached,ne_eq,
    not_false_eq_true,if_true,Option.any_some,decide_eq_false_iff_not] at below
  omega

theorem Kept.relieve (kept : s.Kept cfg) (batch : Nat) (ps : List Priority)
    (processed : Nat) : (s.relieve batch ps processed).Kept cfg := by
  induction ps generalizing s processed with
  | nil => exact kept
  | cons p ps ih =>
    rw [Scheduler.relieve]
    split
    · exact ih kept processed
    · split
      · exact kept
      · apply ih
        have all : ∀ (items : List QueuedItem) (s : Scheduler), s.Kept cfg →
            (items.foldl (fun s item => s.processQueuedItem p true item) s).Kept cfg := by
          intro items
          induction items with
          | nil => exact fun s kept => kept
          | cons item items more => exact fun s kept => more _ (kept.start item (fun direct => by cases direct))
        exact all _ _ (kept.setQueue p _)

theorem Kept.controllerLoop (kept : s.Kept cfg) (budget : Nat)
    (free : ∀ p, s.toStart cfg budget = some p → cfg.maxConcurrency p ≠ some 0) :
    (s.controllerLoop cfg budget).Kept cfg := by
  rw [Scheduler.controllerLoop]
  cases stage : s.stage with
  | returned => exact kept
  | relieving =>
    change (s.relief cfg).Kept cfg
    rw [relief]
    dsimp only
    split
    · have reset : { s with stage := .scanning,streak := 0 : Scheduler }.Kept cfg :=
        ⟨kept.counts,kept.limits,kept.followed⟩
      exact reset.relieve _ _ _
    · exact ⟨kept.counts,kept.limits,kept.followed⟩
  | scanning =>
    cases down : s.shutdownSignal with
    | true => exact ⟨kept.counts,kept.limits,kept.followed⟩
    | false =>
      simp only [toStart,stage,down,and_self,if_true] at free
      rcases scan_cases cfg s Priority.allPrioritiesWithCritical budget with
        ⟨_,idle⟩ | ⟨p,item,q,found,notSkipped,started⟩
      · simp only [scanPriorities,idle]
        exact ⟨kept.counts,kept.limits,kept.followed⟩
      · have busy : { s with streak := s.streak + 1 : Scheduler }.Kept cfg :=
          ⟨kept.counts,kept.limits,kept.followed⟩
        have room : false = false → ∀ n, cfg.maxConcurrency p = some n → (s.running p : Int) < n :=
          fun _ n limit => kept.room notSkipped (free p found) limit
        have next := (busy.setQueue p q).start item room
        simp only [scanPriorities,started]
        exact ⟨next.counts,next.limits,next.followed⟩

theorem running_eraseIdx (present : s.forked[i]? = some task) (q : Priority) :
    (s.forked.eraseIdx i).countP (·.priority = q) + (if q = task.priority then 1 else 0) = s.running q := by
  obtain ⟨bound,rfl⟩ := List.getElem?_eq_some_iff.mp present
  have counted := (List.getElem_cons_eraseIdx_perm bound).countP_eq (fun t : Task => decide (t.priority = q))
  rw [List.countP_cons] at counted
  rw [running,← counted]
  by_cases same : q = s.forked[i].priority
  · simp [same]
  · simp [same,Ne.symm same]

theorem Kept.finalize (kept : s.Kept cfg) (present : s.forked[i]? = some task) :
    ({ s with forked := s.forked.eraseIdx i : Scheduler }.finalize task.priority).Kept cfg := by
  obtain ⟨bound,_⟩ := List.getElem?_eq_some_iff.mp present
  constructor
  · intro q
    have before := kept.counts q
    have left := running_eraseIdx present q
    change Function.update s.activeTaskCounts task.priority (s.activeTaskCounts task.priority - 1) q =
      (s.forked.eraseIdx i).countP (·.priority = q)
    by_cases same : q = task.priority
    · subst same
      rw [Function.update_self]
      simp only [if_true] at left
      omega
    · rw [Function.update_of_ne same]
      simp only [same,if_false] at left
      omega
  · exact kept.limits
  · have followed := kept.followed
    change s.tasksStarted = s.tasksCompleted + 1 + (s.forked.eraseIdx i).length
    rw [List.length_eraseIdx_of_lt bound]
    omega

theorem Kept.finished (kept : s.Kept cfg) (i : Nat) (outcome : Outcome)
    (began : outcome = .unbegun → s.forked.length ≤ i) : (s.finished i outcome).Kept cfg := by
  rw [Scheduler.finished]
  split
  · exact kept
  · next task present =>
    obtain ⟨bound,_⟩ := List.getElem?_eq_some_iff.mp present
    have done := kept.finalize present
    cases outcome with
    | unbegun =>
      have none_ := began rfl
      omega
    | failure => exact ⟨done.counts,done.limits,done.followed⟩
    | success | interrupted | defect => exact done

theorem Kept.handled (kept : s.Kept cfg) (i : Nat)
    (alone : ∀ p, s.failing[i]? = some p → s.running p = 0) : (s.handled i).Kept cfg := by
  rw [Scheduler.handled]
  split
  · exact kept
  · next p due =>
    refine ⟨fun q => ?_,kept.limits,kept.followed⟩
    have before := kept.counts q
    change Function.update s.activeTaskCounts p (s.activeTaskCounts p - 1) q = s.running q
    by_cases same : q = p
    · subst same
      have none_ := alone q due
      rw [Function.update_self]
      omega
    · rw [Function.update_of_ne same]
      exact before

theorem Kept.step (kept : s.Kept cfg) (event : Event) (calm : s.Undisturbed cfg event) :
    (s.step cfg event).Kept cfg := by
  cases event with
  | offer p item => exact kept.setQueue p _
  | withdraw p i => exact kept.setQueue p _
  | shutdown => exact ⟨kept.counts,kept.limits,kept.followed⟩
  | controller budget => exact kept.controllerLoop budget calm
  | finished i outcome =>
    apply kept.finished i outcome
    rintro rfl
    exact calm
  | handled i => exact kept.handled i calm

theorem limit_of_start (after : (s.controllerLoop cfg budget).Accounted cfg)
    (starts : s.toStart cfg budget = some p) : cfg.maxConcurrency p ≠ some 0 := by
  intro zero
  rw [toStart] at starts
  split at starts
  · next ready =>
    rcases scan_cases cfg s Priority.allPrioritiesWithCritical budget with
      ⟨none_,_⟩ | ⟨q,item,queue,found,_,started⟩
    · rw [none_] at starts
      cases starts
    · cases found.symm.trans starts
      have logged : (⟨p,s.running p,false⟩ : Start) ∈ (s.controllerLoop cfg budget).starts := by
        simp only [controllerLoop,ready.1,ready.2,Bool.false_eq_true,if_false,scanPriorities,started]
        exact List.mem_append_right _ (List.mem_singleton_self _)
      have within : (s.running p : Int) < 0 := after.limits _ logged rfl 0 zero
      omega
  · cases starts

theorem began_of_finished (kept : s.Kept cfg)
    (after : (s.finished i .unbegun).Accounted cfg) : s.forked.length ≤ i := by
  by_contra beyond
  have present := List.getElem?_eq_getElem (Nat.lt_of_not_le beyond)
  have before := kept.counts s.forked[i].priority
  have left := running_eraseIdx present s.forked[i].priority
  have counted := after.counts s.forked[i].priority
  simp only [Scheduler.finished,present,running] at counted
  simp only [if_true] at left
  omega

theorem alone_of_handled (kept : s.Kept cfg) (after : (s.handled i).Accounted cfg)
    (due : s.failing[i]? = some p) : s.running p = 0 := by
  have before := kept.counts p
  have counted := after.counts p
  simp only [Scheduler.handled,due] at counted
  change Function.update s.activeTaskCounts p (s.activeTaskCounts p - 1) p = s.running p at counted
  rw [Function.update_self] at counted
  omega

theorem Undisturbed.of_accounted (kept : s.Kept cfg) (event : Event)
    (after : (s.step cfg event).Accounted cfg) : s.Undisturbed cfg event := by
  cases event with
  | offer p item => trivial
  | withdraw p i => trivial
  | shutdown => trivial
  | controller budget => exact fun p starts => limit_of_start after starts
  | finished i outcome =>
    cases outcome with
    | unbegun => exact began_of_finished kept after
    | success | failure | interrupted | defect => trivial
  | handled i => exact fun p due => alone_of_handled kept after due

end

theorem initialized_kept (cfg : Config) : (initialized cfg).Kept cfg :=
  ⟨fun _ => rfl,fun _ member => absurd member List.not_mem_nil,rfl⟩

/-- The accounts stay exact all along a run if and only if nothing disturbs them: every failed
task's handler finds no other task of its priority running, no task is interrupted before it
began, and no task comes from a priority limited to 0. -/
theorem accounted_along_iff (cfg : Config) (events : List Event) :
    EveryState (step cfg) (Accounted cfg) (initialized cfg) events ↔
      EveryStep (step cfg) (Undisturbed cfg) (initialized cfg) events := by
  have start := initialized_kept cfg
  apply everyState_iff_everyStep (A := Kept cfg)
  · exact fun s event kept _ calm => kept.step event calm
  · intro s event kept _
    exact ⟨Undisturbed.of_accounted kept event,fun calm => (kept.step event calm).accounted⟩
  · exact start
  · exact start.accounted

/-- Four tasks of one priority whose limit is 2. The first fails while the second runs. -/
def failureBeside : List Event :=
  ["a","b","c","d"].map (fun id => .offer .normal ⟨id⟩) ++ List.replicate 4 (.controller 6) ++
    [.finished 0 .failure,.handled 0] ++ List.replicate 4 (.controller 6)

/-- Then none is counted though one runs, and the fourth starts beside two others. -/
theorem failure_counted_twice : ∃ cfg events, ¬ EveryState (step cfg) (Accounted cfg) (initialized cfg) events := by
  refine ⟨{ ceilTenth := fun n => (n + 9) / 10,maxConcurrency := fun _ => some 2 },failureBeside,?_⟩
  intro always
  have within : (2 : Int) < 2 := always.last.limits ⟨.normal,2,false⟩ (by decide +kernel) rfl 2 rfl
  omega

end Scheduler

end ApexLs.Queue
