import Mathlib.Algebra.Order.Field.Rat
import Mathlib.Data.Finset.Erase
import Mathlib.Data.Finset.Insert
import ApexLs.Collections.Runs
import ApexLs.Queue.PriorityScheduler
import ApexLs.Types.UriBasedIdGenerator
import ApexLs.Utils.CaseInsensitiveMap

/-! The retries of deferred reference tasks. A task that is handed over for a retry sleeps in a
fiber of its own, and is then offered to the scheduler again unless the queue is too full or the
circuit breaker is active. Beside the machine stands what it cannot know: every hand-over, every
offer and every acceptance, in their order. -/
namespace ApexLs.Symbols

open ApexLs.Collections ApexLs.Queue ApexLs.Types ApexLs.Utils

inductive TaskType where
  | processDeferred
  | retryPending
  deriving DecidableEq, Repr

def TaskType.text : TaskType → String
  | processDeferred => "processDeferred"
  | retryPending => "retryPending"

structure DeferredProcessingTask where
  symbolName : String
  taskType : TaskType
  priority : Priority
  retryCount : Nat
  origin : Nat := 0
  deriving DecidableEq, Repr

def DeferredProcessingTask.retryKey (task : DeferredProcessingTask) : String :=
  task.taskType.text ++ separator ++ task.symbolName

structure RetrySettings where
  maxRetryAttempts : Nat := 10
  retryDelayMs : Nat := 100
  maxRetryDelayMs : Nat := 5000
  queueCapacityThreshold : ℚ := 90
  queueDrainThreshold : ℚ := 75
  queueFullRetryDelayMs : Nat := 10000
  maxQueueFullRetryDelayMs : Nat := 30000
  circuitBreakerFailureThreshold : Nat := 5
  circuitBreakerResetThreshold : ℚ := 50

namespace RetrySettings

def baseDelay (settings : RetrySettings) (reason : String) : Nat :=
  if reason = "queue_full" then settings.queueFullRetryDelayMs else settings.retryDelayMs

def maxDelay (settings : RetrySettings) (reason : String) : Nat :=
  if reason = "queue_full" then settings.maxQueueFullRetryDelayMs else settings.maxRetryDelayMs

def cappedDelay (settings : RetrySettings) (reason : String) (retryCount : Nat) : Nat :=
  min (settings.baseDelay reason * 2 ^ retryCount) (settings.maxDelay reason)

end RetrySettings

structure RetryFiber where
  task : DeferredProcessingTask
  delay : Nat
  deriving DecidableEq, Repr

inductive RetryMark where
  | handed (task : DeferredProcessingTask)
  | offered (task : DeferredProcessingTask)
  | accepted (task : DeferredProcessingTask)
  deriving DecidableEq, Repr

namespace RetryMark

def HandsOver (key : String) : RetryMark → Prop
  | handed task => task.retryKey = key
  | _ => False

def Accepts (key : String) : RetryMark → Prop
  | accepted task => task.retryKey = key
  | _ => False

def offers (origin : Nat) : RetryMark → Bool
  | offered task => task.origin = origin
  | _ => false

theorem owed_handed {history : List RetryMark} : Owed (HandsOver key) (Accepts key) (history ++ [handed task]) ↔
    task.retryKey = key ∨ Owed (HandsOver key) (Accepts key) history := by
  simp [owed_concat,HandsOver,Accepts]

theorem owed_offered {history : List RetryMark} : Owed (HandsOver key) (Accepts key) (history ++ [offered task]) ↔
    Owed (HandsOver key) (Accepts key) history := by
  simp [owed_concat,HandsOver,Accepts]

theorem owed_accepted {history : List RetryMark} : Owed (HandsOver key) (Accepts key) (history ++ [accepted task]) ↔
    Owed (HandsOver key) (Accepts key) history ∧ task.retryKey ≠ key := by
  simp [owed_concat,HandsOver,Accepts]

end RetryMark

/-- A reading of the utilisation of the low queue, or the message of the error it failed with. -/
abbrev MetricReading := Except String ℚ

inductive RetryAction where
  /-- A caller hands over a task. -/
  | requeueTask (task : DeferredProcessingTask) (reason : String)
  /-- A fiber wakes up, with what the scheduler reports for the circuit breaker and for the capacity. -/
  | wake (fiber : Nat) (breaker capacity : MetricReading)
  /-- The scheduler takes an offered task, or fails with a message. -/
  | settle (offer : Nat) (failure : Option String)
  /-- The scheduler runs a task, which may ask for a retry. -/
  | process (task : Nat) (reason : Option String)

def isShutdownError (message : String) : Bool :=
  includes message.toList "not initialized" || includes message.toList "shutdown"

structure RetryMachine [Runtime] where
  pendingRetrySymbols : Finset String := ∅
  failedReferences : CaseInsensitiveMap DeferredProcessingTask := .empty
  consecutiveRequeueFailures : Nat := 0
  circuitBreakerActive : Bool := false
  sleeping : List RetryFiber := []
  offering : List DeferredProcessingTask := []
  scheduled : List DeferredProcessingTask := []
  handedOver : Nat := 0
  history : List RetryMark := []

namespace RetryMachine

variable [Runtime]

def initial : RetryMachine := {}

def giveUp (m : RetryMachine) (task : DeferredProcessingTask) : RetryMachine :=
  { m with
    failedReferences := m.failedReferences.set task.retryKey task
    pendingRetrySymbols := m.pendingRetrySymbols.erase task.retryKey }

def reschedule (settings : RetrySettings) (m : RetryMachine) (task : DeferredProcessingTask) (reason : String) :
    RetryMachine :=
  if settings.maxRetryAttempts = 0 then m.giveUp task
  else if settings.maxRetryAttempts ≤ task.retryCount then m.giveUp task
  else if task.retryKey ∈ m.pendingRetrySymbols then m
  else
    { m with
      pendingRetrySymbols := insert task.retryKey m.pendingRetrySymbols
      sleeping := m.sleeping ++
        [⟨{ task with retryCount := task.retryCount + 1, priority := .low },settings.cappedDelay reason task.retryCount⟩] }

def requeueTask (settings : RetrySettings) (m : RetryMachine) (task : DeferredProcessingTask) (reason : String) :
    RetryMachine :=
  reschedule settings { m with history := m.history ++ [.handed task] } task reason

def failRequeue (settings : RetrySettings) (m : RetryMachine) (task : DeferredProcessingTask) (message : String) :
    RetryMachine :=
  if isShutdownError message then m
  else
    let failures := m.consecutiveRequeueFailures + 1
    requeueTask settings { m with
      consecutiveRequeueFailures := failures
      circuitBreakerActive := m.circuitBreakerActive || settings.circuitBreakerFailureThreshold ≤ failures } task "queue_full"

def checkCapacity (settings : RetrySettings) (m : RetryMachine) (task : DeferredProcessingTask) : MetricReading → RetryMachine
  | .error message => m.failRequeue settings task message
  | .ok utilization =>
    if settings.queueCapacityThreshold ≤ utilization then m.requeueTask settings task "queue_full"
    else if settings.queueDrainThreshold ≤ utilization then m.requeueTask settings task "queue_full"
    else { m with offering := m.offering ++ [task], history := m.history ++ [.offered task] }

/-- From the check of the circuit breaker on. The fiber does not give way before its offer. -/
def retry (settings : RetrySettings) (m : RetryMachine) (task : DeferredProcessingTask) (breaker capacity : MetricReading) :
    RetryMachine :=
  if m.circuitBreakerActive then
    match breaker with
    | .error message => m.failRequeue settings task message
    | .ok utilization =>
      if utilization < settings.circuitBreakerResetThreshold then
        { m with circuitBreakerActive := false, consecutiveRequeueFailures := 0 }.checkCapacity settings task capacity
      else m
  else m.checkCapacity settings task capacity

def awaken (m : RetryMachine) (i : Nat) (task : DeferredProcessingTask) : RetryMachine :=
  { m with sleeping := m.sleeping.eraseIdx i, pendingRetrySymbols := m.pendingRetrySymbols.erase task.retryKey }

def accept (m : RetryMachine) (task : DeferredProcessingTask) : RetryMachine :=
  { m with
    scheduled := m.scheduled ++ [task]
    history := m.history ++ [.accepted task]
    pendingRetrySymbols := m.pendingRetrySymbols.erase task.retryKey
    consecutiveRequeueFailures := 0
    circuitBreakerActive := m.consecutiveRequeueFailures = 0 && m.circuitBreakerActive }

def step (settings : RetrySettings) (m : RetryMachine) : RetryAction → RetryMachine
  | .requeueTask task reason =>
    requeueTask settings { m with handedOver := m.handedOver + 1 } { task with origin := m.handedOver } reason
  | .wake i breaker capacity =>
    match m.sleeping[i]? with
    | some fiber => (m.awaken i fiber.task).retry settings fiber.task breaker capacity
    | none => m
  | .settle i failure =>
    match m.offering[i]? with
    | some task =>
      let rest := { m with offering := m.offering.eraseIdx i }
      match failure with
      | some message => rest.failRequeue settings task message
      | none => rest.accept task
    | none => m
  | .process i reason =>
    match m.scheduled[i]? with
    | some task =>
      let rest := { m with scheduled := m.scheduled.eraseIdx i }
      match reason with
      | some reason => rest.requeueTask settings task reason
      | none => rest
    | none => m

/-- A task of this key was handed over, and the scheduler has taken none of the key since. -/
def Waiting (m : RetryMachine) (key : String) : Prop := Owed (RetryMark.HandsOver key) (RetryMark.Accepts key) m.history

/-- A retry is pending, an offer has been made, or the task has failed for good. -/
def Covers (m : RetryMachine) (key : String) : Prop :=
  key ∈ m.pendingRetrySymbols ∨ (∃ task ∈ m.offering, task.retryKey = key) ∨ m.failedReferences.has key = true

def Accounted (m : RetryMachine) : Prop := ∀ key, m.Waiting key → m.Covers key

/-- How often the task a caller handed over, or a retry of it, was offered. -/
def offers (m : RetryMachine) (origin : Nat) : Nat := m.history.countP (RetryMark.offers origin)

/-- Every task handed over is accounted for, and none is offered too often. -/
structure Sound (settings : RetrySettings) (m : RetryMachine) : Prop where
  accounted : m.Accounted
  bounded : ∀ origin, m.offers origin ≤ settings.maxRetryAttempts

def ShutDown : MetricReading → Prop
  | .error message => isShutdownError message = true
  | .ok _ => False

instance : DecidablePred ShutDown
  | .error message => inferInstanceAs (Decidable (isShutdownError message = true))
  | .ok _ => inferInstanceAs (Decidable False)

/-- The fiber ends with its task neither offered nor handed over: the circuit breaker is active and
the queue too full to reset it, or the scheduler is gone. -/
def Drops (settings : RetrySettings) (m : RetryMachine) (breaker capacity : MetricReading) : Prop :=
  if m.circuitBreakerActive then
    match breaker with
    | .error message => isShutdownError message = true
    | .ok utilization => settings.circuitBreakerResetThreshold ≤ utilization ∨ ShutDown capacity
  else ShutDown capacity

def Loses (settings : RetrySettings) (m : RetryMachine) : RetryAction → Prop
  | .wake i breaker capacity => ∃ fiber, m.sleeping[i]? = some fiber ∧ m.Drops settings breaker capacity ∧
      m.Waiting fiber.task.retryKey ∧ (∀ task ∈ m.offering, task.retryKey ≠ fiber.task.retryKey) ∧
      m.failedReferences.has fiber.task.retryKey = false
  | .settle i failure => ∃ task, m.offering[i]? = some task ∧ failure.any isShutdownError = true ∧
      m.Waiting task.retryKey ∧ task.retryKey ∉ m.pendingRetrySymbols ∧
      (∀ other ∈ m.offering.eraseIdx i, other.retryKey ≠ task.retryKey) ∧ m.failedReferences.has task.retryKey = false
  | _ => False

end RetryMachine

end ApexLs.Symbols
