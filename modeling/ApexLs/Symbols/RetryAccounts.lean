import Mathlib.Data.List.Perm.Basic
import ApexLs.Symbols.DeferredRetries

/-! What becomes of the tasks in the retry machine: whether each one stays accounted for, and how
often it is offered. -/
namespace ApexLs.Symbols

open ApexLs.Collections ApexLs.Utils

namespace RetryMachine

variable [Runtime]

section

variable {settings : RetrySettings} {m m' m'' : RetryMachine} {task : DeferredProcessingTask}

structure Apart (key : String) (m m' : RetryMachine) : Prop where
  waiting : ∀ other, other ≠ key → m'.Waiting other → m.Waiting other
  covers : ∀ other, other ≠ key → m.Covers other → m'.Covers other

theorem Apart.trans (first : Apart key m m') (second : Apart key m' m'') : Apart key m m'' :=
  ⟨fun k apart waits => first.waiting k apart (second.waiting k apart waits),
   fun k apart covered => second.covers k apart (first.covers k apart covered)⟩

theorem Apart.accounted_iff (apart : Apart key m m') (accounted : m.Accounted) :
    m'.Accounted ↔ (m'.Waiting key → m'.Covers key) := by
  constructor
  · exact fun all => all key
  · intro own other waits
    by_cases same : other = key
    · subst same
      exact own waits
    · exact apart.covers other same (accounted other (apart.waiting other same waits))

theorem has_set_of_has (failed : CaseInsensitiveMap DeferredProcessingTask) (key : String)
    (has : failed.has other = true) : (failed.set key task).has other = true := by
  unfold CaseInsensitiveMap.has at has ⊢
  rw [CaseInsensitiveMap.get_set]
  split
  · rfl
  · exact has

theorem apart_giveUp : Apart task.retryKey m (m.giveUp task) := by
  refine ⟨fun _ _ waits => waits,fun other apart covered => ?_⟩
  rcases covered with pending | offered | failed
  · exact .inl (Finset.mem_erase.mpr ⟨apart,pending⟩)
  · exact .inr (.inl offered)
  · exact .inr (.inr (has_set_of_has _ _ failed))

theorem covers_giveUp : (m.giveUp task).Covers task.retryKey := by
  refine .inr (.inr ?_)
  simp [giveUp,CaseInsensitiveMap.has]

theorem apart_reschedule : Apart task.retryKey m (m.reschedule settings task reason) := by
  unfold reschedule
  split
  · exact apart_giveUp
  split
  · exact apart_giveUp
  split
  · exact ⟨fun _ _ waits => waits,fun _ _ covered => covered⟩
  refine ⟨fun _ _ waits => waits,fun other apart covered => ?_⟩
  exact covered.imp_left fun pending => Finset.mem_insert_of_mem pending

theorem covers_reschedule : (m.reschedule settings task reason).Covers task.retryKey := by
  unfold reschedule
  split
  · exact covers_giveUp
  split
  · exact covers_giveUp
  split
  next pending => exact .inl pending
  next => exact .inl (Finset.mem_insert_self _ _)

theorem apart_requeueTask : Apart task.retryKey m (m.requeueTask settings task reason) := by
  have noted : Apart task.retryKey m { m with history := m.history ++ [.handed task] } := by
    refine ⟨fun other apart waits => ?_,fun _ _ covered => covered⟩
    rcases RetryMark.owed_handed.mp waits with same | waits
    · exact absurd same.symm apart
    · exact waits
  exact noted.trans apart_reschedule

theorem failRequeue_covers (alive : isShutdownError message = false) :
    (m.failRequeue settings task message).Covers task.retryKey := by
  rw [failRequeue,alive]
  exact covers_reschedule

theorem apart_failRequeue : Apart task.retryKey m (m.failRequeue settings task message) := by
  unfold failRequeue
  split
  · exact ⟨fun _ _ waits => waits,fun _ _ covered => covered⟩
  · have counted (failures : Nat) (active : Bool) : Apart task.retryKey m
        { m with consecutiveRequeueFailures := failures, circuitBreakerActive := active } :=
      ⟨fun _ _ waits => waits,fun _ _ covered => covered⟩
    exact (counted _ _).trans apart_requeueTask

theorem apart_checkCapacity (capacity : MetricReading) : Apart task.retryKey m (m.checkCapacity settings task capacity) := by
  rcases capacity with message | utilization
  · exact apart_failRequeue
  rw [checkCapacity]
  split
  · exact apart_requeueTask
  split
  · exact apart_requeueTask
  refine ⟨fun _ _ waits => RetryMark.owed_offered.mp waits,fun other apart covered => ?_⟩
  rcases covered with pending | ⟨offered,member,same⟩ | failed
  · exact .inl pending
  · exact .inr (.inl ⟨offered,List.mem_append_left _ member,same⟩)
  · exact .inr (.inr failed)

theorem checkCapacity_covers {capacity : MetricReading} (alive : ¬ ShutDown capacity) :
    (m.checkCapacity settings task capacity).Covers task.retryKey := by
  rcases capacity with message | utilization
  · exact failRequeue_covers (Bool.eq_false_iff.mpr alive)
  rw [checkCapacity]
  split
  · exact covers_reschedule
  split
  · exact covers_reschedule
  · exact .inr (.inl ⟨task,by simp,rfl⟩)

theorem checkCapacity_shutDown {capacity : MetricReading} (gone : ShutDown capacity) :
    m.checkCapacity settings task capacity = m := by
  rcases capacity with message | utilization
  · exact if_pos gone
  · exact gone.elim

theorem apart_retry (breaker capacity : MetricReading) : Apart task.retryKey m (m.retry settings task breaker capacity) := by
  unfold retry
  split
  · rcases breaker with message | utilization
    · exact apart_failRequeue
    · dsimp only
      split
      · have reset : Apart task.retryKey m { m with circuitBreakerActive := false, consecutiveRequeueFailures := 0 } :=
          ⟨fun _ _ waits => waits,fun _ _ covered => covered⟩
        exact reset.trans (apart_checkCapacity capacity)
      · exact ⟨fun _ _ waits => waits,fun _ _ covered => covered⟩
  · exact apart_checkCapacity capacity

theorem retry_covers {breaker capacity : MetricReading} (kept : ¬ m.Drops settings breaker capacity) :
    (m.retry settings task breaker capacity).Covers task.retryKey := by
  unfold retry
  unfold Drops at kept
  split
  next active =>
    rw [if_pos active] at kept
    rcases breaker with message | utilization
    · exact failRequeue_covers (Bool.eq_false_iff.mpr kept)
    · obtain ⟨low,alive⟩ := not_or.mp kept
      dsimp only
      rw [if_pos (lt_of_not_ge low)]
      exact checkCapacity_covers alive
  next inactive =>
    rw [if_neg inactive] at kept
    exact checkCapacity_covers kept

theorem retry_drops {breaker capacity : MetricReading} (drops : m.Drops settings breaker capacity) : ∃ failures active,
    m.retry settings task breaker capacity =
      { m with consecutiveRequeueFailures := failures, circuitBreakerActive := active } := by
  unfold retry
  unfold Drops at drops
  split
  next active =>
    rw [if_pos active] at drops
    rcases breaker with message | utilization
    · exact ⟨_,_,if_pos drops⟩
    · dsimp only at drops ⊢
      split
      next low => exact ⟨_,_,checkCapacity_shutDown (drops.resolve_left (not_le_of_gt low))⟩
      next => exact ⟨_,_,rfl⟩
  next inactive =>
    rw [if_neg inactive] at drops
    exact ⟨_,_,checkCapacity_shutDown drops⟩

theorem apart_awaken (m : RetryMachine) (i : Nat) (task : DeferredProcessingTask) : Apart task.retryKey m (m.awaken i task) := by
  refine ⟨fun _ _ waits => waits,fun other apart covered => ?_⟩
  exact covered.imp_left fun pending => Finset.mem_erase.mpr ⟨apart,pending⟩

theorem apart_accept (m : RetryMachine) (task : DeferredProcessingTask) : Apart task.retryKey m (m.accept task) := by
  refine ⟨fun _ _ waits => (RetryMark.owed_accepted.mp waits).1,fun other apart covered => ?_⟩
  exact covered.imp_left fun pending => Finset.mem_erase.mpr ⟨apart,pending⟩

theorem apart_eraseIdx (offered : m.offering[i]? = some task) :
    Apart task.retryKey m { m with offering := m.offering.eraseIdx i } := by
  refine ⟨fun _ _ waits => waits,fun other apart covered => ?_⟩
  rcases covered with pending | ⟨another,member,same⟩ | failed
  · exact .inl pending
  · obtain ⟨bound,rfl⟩ := List.getElem?_eq_some_iff.mp offered
    rcases List.mem_cons.mp ((List.getElem_cons_eraseIdx_perm bound).mem_iff.mpr member) with rfl | left
    · exact absurd same.symm apart
    · exact .inr (.inl ⟨another,left,same⟩)
  · exact .inr (.inr failed)

theorem accounted_wake (accounted : m.Accounted) (asleep : m.sleeping[i]? = some fiber) (breaker capacity : MetricReading) :
    ((m.awaken i fiber.task).retry settings fiber.task breaker capacity).Accounted ↔
      ¬ m.Loses settings (.wake i breaker capacity) := by
  have apart : Apart fiber.task.retryKey m ((m.awaken i fiber.task).retry settings fiber.task breaker capacity) :=
    (apart_awaken m i fiber.task).trans (apart_retry breaker capacity)
  rw [apart.accounted_iff accounted]
  by_cases drops : m.Drops settings breaker capacity
  · have dropped : (m.awaken i fiber.task).Drops settings breaker capacity := drops
    obtain ⟨failures,active,left⟩ : ∃ failures active, (m.awaken i fiber.task).retry settings fiber.task breaker capacity =
        { m.awaken i fiber.task with consecutiveRequeueFailures := failures, circuitBreakerActive := active } :=
      retry_drops dropped
    have covers_iff : (m.awaken i fiber.task).Covers fiber.task.retryKey ↔
        (∃ task ∈ m.offering, task.retryKey = fiber.task.retryKey) ∨ m.failedReferences.has fiber.task.retryKey = true :=
      or_iff_right (Finset.notMem_erase _ _)
    rw [left]
    constructor
    · rintro kept ⟨other,found,_,waits,offers,failed⟩
      obtain rfl : fiber = other := Option.some.inj (asleep.symm.trans found)
      rcases covers_iff.mp (kept waits) with ⟨task,member,same⟩ | has
      · exact offers task member same
      · exact Bool.false_ne_true (failed.symm.trans has)
    · intro kept waits
      by_contra uncovered
      have open_ := mt covers_iff.mpr uncovered
      push Not at open_
      exact kept ⟨fiber,asleep,drops,waits,open_.1,Bool.eq_false_iff.mpr open_.2⟩
  · constructor
    · rintro _ ⟨_,_,dropped,_⟩
      exact drops dropped
    · exact fun _ _ => retry_covers drops

theorem accounted_settle (accounted : m.Accounted) (offered : m.offering[i]? = some task) (message : String) :
    (failRequeue settings { m with offering := m.offering.eraseIdx i } task message).Accounted ↔
      ¬ m.Loses settings (.settle i (some message)) := by
  have apart : Apart task.retryKey m
      (failRequeue settings { m with offering := m.offering.eraseIdx i } task message) :=
    (apart_eraseIdx offered).trans apart_failRequeue
  rw [apart.accounted_iff accounted]
  by_cases gone : isShutdownError message = true
  · have left : failRequeue settings { m with offering := m.offering.eraseIdx i } task message =
        { m with offering := m.offering.eraseIdx i } := if_pos gone
    rw [left]
    constructor
    · rintro kept ⟨other,found,_,waits,pending,offers,failed⟩
      obtain rfl : task = other := Option.some.inj (offered.symm.trans found)
      rcases kept waits with covered | ⟨another,member,same⟩ | has
      · exact pending covered
      · exact offers another member same
      · exact Bool.false_ne_true (failed.symm.trans has)
    · intro kept waits
      by_contra uncovered
      unfold Covers at uncovered
      push Not at uncovered
      exact kept ⟨task,offered,gone,waits,uncovered.1,uncovered.2.1,Bool.eq_false_iff.mpr uncovered.2.2⟩
  · constructor
    · rintro _ ⟨_,_,shut,_⟩
      exact gone shut
    · exact fun _ _ => failRequeue_covers (Bool.eq_false_iff.mpr gone)

theorem accounted_handed (accounted : m.Accounted) : (m.requeueTask settings task reason).Accounted :=
  (apart_requeueTask.accounted_iff accounted).mpr fun _ => covers_reschedule

theorem accounted_step (settings : RetrySettings) (accounted : m.Accounted) (action : RetryAction) :
    (m.step settings action).Accounted ↔ ¬ m.Loses settings action := by
  rcases action with ⟨task,reason⟩ | ⟨i,breaker,capacity⟩ | ⟨i,failure⟩ | ⟨i,reason⟩
  · refine iff_of_true ?_ not_false
    exact accounted_handed (m := { m with handedOver := m.handedOver + 1 }) accounted
  · rcases found : m.sleeping[i]? with _ | fiber
    · refine iff_of_true (by simpa [step,found] using accounted) ?_
      simp [Loses,found]
    · rw [step,found]
      exact accounted_wake accounted found breaker capacity
  · rcases found : m.offering[i]? with _ | task
    · refine iff_of_true (by simpa [step,found] using accounted) ?_
      simp [Loses,found]
    rw [step,found]
    rcases failure with _ | message
    · refine iff_of_true ?_ (by simp [Loses])
      have apart := (apart_eraseIdx found).trans (apart_accept _ task)
      refine (apart.accounted_iff accounted).mpr fun waits => ?_
      exact absurd rfl (RetryMark.owed_accepted.mp waits).2
    · exact accounted_settle accounted found message
  · refine iff_of_true ?_ not_false
    rcases found : m.scheduled[i]? with _ | task
    · simpa [step,found] using accounted
    rw [step,found]
    rcases reason with _ | reason
    · exact accounted
    · exact accounted_handed (m := { m with scheduled := m.scheduled.eraseIdx i }) accounted

end

end RetryMachine

def DeferredProcessingTask.chances (settings : RetrySettings) (origin : Nat) (task : DeferredProcessingTask) : Nat :=
  if task.origin = origin then settings.maxRetryAttempts - task.retryCount else 0

def RetryFiber.chances (settings : RetrySettings) (origin : Nat) (fiber : RetryFiber) : Nat :=
  if fiber.task.origin = origin then settings.maxRetryAttempts + 1 - fiber.task.retryCount else 0

theorem RetryFiber.chances_eq {settings : RetrySettings} {fiber : RetryFiber}
    (awake : fiber.task.retryCount ≤ settings.maxRetryAttempts) (origin : Nat) : RetryFiber.chances settings origin fiber =
      fiber.task.chances settings origin + if fiber.task.origin = origin then 1 else 0 := by
  unfold RetryFiber.chances DeferredProcessingTask.chances
  split
  · exact Nat.sub_add_comm awake
  · rfl

theorem sum_eraseIdx {α : Type} {items : List α} {item : α} (found : items[i]? = some item) (f : α → Nat) :
    ((items.eraseIdx i).map f).sum + f item = (items.map f).sum := by
  obtain ⟨bound,rfl⟩ := List.getElem?_eq_some_iff.mp found
  have whole := ((List.getElem_cons_eraseIdx_perm bound).map f).sum_nat
  rw [List.map_cons,List.sum_cons] at whole
  omega

namespace RetryMachine

variable [Runtime]

def spent (settings : RetrySettings) (m : RetryMachine) (origin : Nat) : Nat :=
  m.offers origin + ((m.sleeping.map (RetryFiber.chances settings origin)).sum +
    (m.offering.map (DeferredProcessingTask.chances settings origin)).sum +
    (m.scheduled.map (DeferredProcessingTask.chances settings origin)).sum)

def Asleep (settings : RetrySettings) (m : RetryMachine) : Prop :=
  ∀ fiber ∈ m.sleeping, fiber.task.retryCount ≤ settings.maxRetryAttempts

/-- The offers of every task stay within the limit, those of the tasks to come are all ahead. -/
structure Budget (settings : RetrySettings) (m : RetryMachine) : Prop where
  asleep : m.Asleep settings
  unborn : ∀ origin, m.handedOver ≤ origin → m.spent settings origin = 0
  bounded : ∀ origin, m.spent settings origin ≤ settings.maxRetryAttempts

/-- What became of a task that was taken out with so many chances left. -/
structure Pays (settings : RetrySettings) (chances : Nat → Nat) (m m' : RetryMachine) : Prop where
  handedOver : m'.handedOver = m.handedOver
  asleep : m.Asleep settings → m'.Asleep settings
  spent : ∀ origin, m'.spent settings origin ≤ m.spent settings origin + chances origin

section

variable {settings : RetrySettings} {m m' : RetryMachine} {task : DeferredProcessingTask}

theorem Pays.of_le {chances more : Nat → Nat} (pays : Pays settings chances m m') (le : ∀ origin, chances origin ≤ more origin) :
    Pays settings more m m' :=
  ⟨pays.handedOver,pays.asleep,fun origin => (pays.spent origin).trans (Nat.add_le_add_left (le origin) _)⟩

theorem pays_requeueTask : Pays settings (task.chances settings ·) m (m.requeueTask settings task reason) := by
  have noted (origin : Nat) :
      spent settings { m with history := m.history ++ [.handed task] } origin = m.spent settings origin := by
    simp [spent,offers,RetryMark.offers]
  unfold requeueTask reschedule
  split
  · exact ⟨rfl,id,fun origin => (noted origin).le.trans (Nat.le_add_right _ _)⟩
  split
  · exact ⟨rfl,id,fun origin => (noted origin).le.trans (Nat.le_add_right _ _)⟩
  next few =>
  split
  · exact ⟨rfl,id,fun origin => (noted origin).le.trans (Nat.le_add_right _ _)⟩
  refine ⟨rfl,fun asleep fiber member => ?_,fun origin => ?_⟩
  · rcases List.mem_append.mp member with member | member
    · exact asleep fiber member
    · rw [List.mem_singleton.mp member]
      exact Nat.lt_of_not_le few
  · simp only [spent,offers,List.countP_append,List.countP_singleton,RetryMark.offers,List.map_append,List.sum_append,
      List.map_cons,List.map_nil,List.sum_singleton,RetryFiber.chances,Nat.add_sub_add_right]
    simp only [Bool.false_eq_true,if_false,DeferredProcessingTask.chances]
    omega

theorem pays_failRequeue : Pays settings (task.chances settings ·) m (m.failRequeue settings task message) := by
  unfold failRequeue
  split
  · exact ⟨rfl,id,fun _ => Nat.le_add_right _ _⟩
  · let failed : RetryMachine := { m with
        consecutiveRequeueFailures := m.consecutiveRequeueFailures + 1
        circuitBreakerActive :=
          m.circuitBreakerActive || settings.circuitBreakerFailureThreshold ≤ m.consecutiveRequeueFailures + 1 }
    have pays : Pays settings (task.chances settings ·) failed (failed.requeueTask settings task "queue_full") :=
      pays_requeueTask
    exact ⟨pays.handedOver,pays.asleep,pays.spent⟩

theorem pays_retry {fiber : RetryFiber} (awake : fiber.task.retryCount ≤ settings.maxRetryAttempts)
    (breaker capacity : MetricReading) :
    Pays settings (RetryFiber.chances settings · fiber) m (m.retry settings fiber.task breaker capacity) := by
  have le (origin : Nat) : fiber.task.chances settings origin ≤ RetryFiber.chances settings origin fiber := by
    rw [RetryFiber.chances_eq awake]
    exact Nat.le_add_right _ _
  have check (m : RetryMachine) : Pays settings (RetryFiber.chances settings · fiber) m
      (m.checkCapacity settings fiber.task capacity) := by
    rcases capacity with message | utilization
    · exact pays_failRequeue.of_le le
    rw [checkCapacity]
    split
    · exact pays_requeueTask.of_le le
    split
    · exact pays_requeueTask.of_le le
    refine ⟨rfl,id,fun origin => ?_⟩
    simp only [spent,offers,List.countP_append,List.countP_singleton,RetryMark.offers,List.map_append,List.sum_append,
      List.map_cons,List.map_nil,List.sum_singleton,RetryFiber.chances_eq awake,decide_eq_true_eq]
    omega
  unfold retry
  split
  · rcases breaker with message | utilization
    · exact pays_failRequeue.of_le le
    · dsimp only
      split
      · have pays := check { m with circuitBreakerActive := false, consecutiveRequeueFailures := 0 }
        exact ⟨pays.handedOver,pays.asleep,pays.spent⟩
      · exact ⟨rfl,id,fun _ => Nat.le_add_right _ _⟩
  · exact check m

theorem Budget.of_pays {chances : Nat → Nat} (budget : m.Budget settings) (pays : Pays settings chances taken m')
    (handedOver : taken.handedOver = m.handedOver) (asleep : taken.Asleep settings)
    (spent : ∀ origin, taken.spent settings origin + chances origin ≤ m.spent settings origin) : m'.Budget settings := by
  have le (origin : Nat) : m'.spent settings origin ≤ m.spent settings origin := (pays.spent origin).trans (spent origin)
  refine ⟨pays.asleep asleep,fun origin later => ?_,fun origin => (le origin).trans (budget.bounded origin)⟩
  rw [pays.handedOver,handedOver] at later
  exact Nat.le_zero.mp ((le origin).trans (budget.unborn origin later).le)

theorem budget_step (settings : RetrySettings) (budget : m.Budget settings) (action : RetryAction) :
    (m.step settings action).Budget settings := by
  rcases action with ⟨task,reason⟩ | ⟨i,breaker,capacity⟩ | ⟨i,failure⟩ | ⟨i,reason⟩
  · -- The task is the first of its origin.
    let born : DeferredProcessingTask := { task with origin := m.handedOver }
    let taken : RetryMachine := { m with handedOver := m.handedOver + 1 }
    have pays : Pays settings (born.chances settings ·) taken (taken.requeueTask settings born reason) := pays_requeueTask
    have spent (origin : Nat) : (m.step settings (.requeueTask task reason)).spent settings origin ≤
        m.spent settings origin + DeferredProcessingTask.chances settings origin { task with origin := m.handedOver } :=
      pays.spent origin
    refine ⟨pays.asleep budget.asleep,fun origin later => ?_,fun origin => ?_⟩
    · have later : m.handedOver + 1 ≤ origin := pays.handedOver.symm.le.trans later
      have none_ : DeferredProcessingTask.chances settings origin { task with origin := m.handedOver } = 0 :=
        if_neg (Nat.ne_of_lt later)
      have before := budget.unborn origin (Nat.le_of_lt later)
      exact Nat.le_zero.mp ((spent origin).trans (by omega))
    · refine (spent origin).trans ?_
      by_cases own : m.handedOver = origin
      · rw [budget.unborn origin own.le,DeferredProcessingTask.chances,if_pos own]
        omega
      · rw [DeferredProcessingTask.chances,if_neg own]
        exact budget.bounded origin
  · rcases found : m.sleeping[i]? with _ | fiber
    · simpa [step,found] using budget
    rw [step,found]
    have awake := budget.asleep fiber (List.mem_of_getElem? found)
    refine budget.of_pays (pays_retry awake breaker capacity) rfl ?_ fun origin => ?_
    · exact fun other member => budget.asleep other (List.mem_of_mem_eraseIdx member)
    · have parts := sum_eraseIdx found (RetryFiber.chances settings origin)
      simp only [awaken,spent,offers]
      omega
  · rcases found : m.offering[i]? with _ | task
    · simpa [step,found] using budget
    rw [step,found]
    have parts (origin : Nat) := sum_eraseIdx found (DeferredProcessingTask.chances settings origin)
    rcases failure with _ | message
    · have pays : Pays settings (task.chances settings ·) { m with offering := m.offering.eraseIdx i }
          (accept { m with offering := m.offering.eraseIdx i } task) := by
        refine ⟨rfl,id,fun origin => ?_⟩
        simp [accept,spent,offers,RetryMark.offers]
        omega
      refine budget.of_pays pays rfl budget.asleep fun origin => ?_
      have parts := parts origin
      simp only [spent,offers]
      omega
    · refine budget.of_pays pays_failRequeue rfl budget.asleep fun origin => ?_
      have parts := parts origin
      simp only [spent,offers]
      omega
  · rcases found : m.scheduled[i]? with _ | task
    · simpa [step,found] using budget
    rw [step,found]
    have parts (origin : Nat) := sum_eraseIdx found (DeferredProcessingTask.chances settings origin)
    rcases reason with _ | reason
    · have pays : Pays settings (task.chances settings ·) { m with scheduled := m.scheduled.eraseIdx i }
          { m with scheduled := m.scheduled.eraseIdx i } := ⟨rfl,id,fun _ => Nat.le_add_right _ _⟩
      refine budget.of_pays pays rfl budget.asleep fun origin => ?_
      have parts := parts origin
      simp only [spent,offers]
      omega
    · refine budget.of_pays pays_requeueTask rfl budget.asleep fun origin => ?_
      have parts := parts origin
      simp only [spent,offers]
      omega

/-- Along every run all tasks stay accounted for exactly when no fiber drops the last that stood for
a task; the offers stay within the limit in any case. -/
theorem accounts_sound_iff (settings : RetrySettings) (actions : List RetryAction) :
    EveryState (step settings) (Sound settings) initial actions ↔
      EveryStep (step settings) (fun m action => ¬ m.Loses settings action) initial actions := by
  apply everyState_iff_everyStep (A := Budget settings)
  · exact fun m action budget _ _ => budget_step settings budget action
  · intro m action budget sound
    rw [← accounted_step settings sound.accounted action]
    refine ⟨Sound.accounted,fun accounted => ⟨accounted,fun origin => ?_⟩⟩
    have bounded := (budget_step settings budget action).bounded origin
    exact (Nat.le_add_right _ _).trans bounded
  · exact ⟨fun _ member => absurd member List.not_mem_nil,fun _ _ => rfl,fun _ => Nat.zero_le _⟩
  · exact ⟨fun key waits => absurd waits owed_nil,fun _ => Nat.zero_le _⟩

end

end RetryMachine

def RetryAction.Alive : RetryAction → Prop
  | .wake _ breaker capacity => ¬ RetryMachine.ShutDown breaker ∧ ¬ RetryMachine.ShutDown capacity
  | .settle _ failure => failure.any isShutdownError = false
  | _ => True

instance : DecidablePred RetryAction.Alive
  | .wake .. => inferInstanceAs (Decidable (¬ _ ∧ ¬ _))
  | .settle .. => inferInstanceAs (Decidable (_ = false))
  | .requeueTask .. => inferInstanceAs (Decidable True)
  | .process .. => inferInstanceAs (Decidable True)

/-- Five offers fail and activate the circuit breaker; at the next waking the queue is more than half full. -/
def skippedRetry : List RetryAction :=
  .requeueTask ⟨"Foo",.processDeferred,.normal,0,0⟩ "target_not_found" ::
    (List.replicate 5 [.wake 0 (.ok 0) (.ok 0),.settle 0 (some "queue is full")]).flatten ++ [.wake 0 (.ok 60) (.ok 60)]

/-- The task is gone: no retry is pending, no offer was taken, and it is not among the failed ones. -/
theorem skipped_retry_lost : ¬ ∀ (settings : RetrySettings) (actions : List RetryAction),
    (∀ action ∈ actions, action.Alive) →
      EveryState (@RetryMachine.step asciiRuntime settings) (@RetryMachine.Sound asciiRuntime settings)
        (@RetryMachine.initial asciiRuntime) actions := by
  intro always
  let _ := asciiRuntime
  have alive : ∀ action ∈ skippedRetry, action.Alive := by decide +kernel
  have accounted := (always {} skippedRetry alive).last.accounted
  have waits : (run (RetryMachine.step {}) .initial skippedRetry).Waiting
      (DeferredProcessingTask.retryKey ⟨"Foo",.processDeferred,.normal,0,0⟩) := by
    refine ⟨(run (RetryMachine.step {}) .initial skippedRetry).history.dropLast,
      .handed ⟨"Foo",.processDeferred,.low,5,0⟩,[],?_,rfl,?_⟩
    · decide +kernel
    · simp
  rcases accounted _ waits with pending | ⟨task,offered,_⟩ | failed
  · exact absurd pending (by decide +kernel)
  · have none_ : (run (RetryMachine.step {}) .initial skippedRetry).offering = [] := by decide +kernel
    rw [none_] at offered
    exact List.not_mem_nil offered
  · exact absurd failed (by decide +kernel)

end ApexLs.Symbols
