import ApexLs.Collections.Rows
import ApexLs.Collections.Runs

/-! Admission to the compilation worker pool. A permit that is given back goes to the next waiter
before it is free again; the cleanup of an interrupted waiter gives back what was granted to it. -/
namespace ApexLs.Compiler

open ApexLs.Collections

inductive CompilationPriority where
  | high
  | low
  deriving DecidableEq, Repr

inductive AdmissionState where
  | queued
  | granted
  | acquired
  | released
  | cancelled
  deriving DecidableEq, Repr

/-- Where the fiber of a request is: in its admission, in the pool of workers, or at its end. -/
inductive Place where
  | admission
  | pool
  | ended
  deriving DecidableEq, Repr

/-- An `AdmissionWaiter`, with the priority it asked for and the place of its fiber. -/
structure AdmissionWaiter where
  priority : CompilationPriority
  state : AdmissionState := .queued
  place : Place := .admission
  deriving DecidableEq, Repr

def AdmissionState.holds (state : AdmissionState) : Bool := state = .granted || state = .acquired

def AdmissionWaiter.holds (waiter : AdmissionWaiter) : Bool := waiter.state.holds

def AdmissionWaiter.working (waiter : AdmissionWaiter) : Bool := waiter.place = .pool

/-- The waiters stand in the order of their requests; the two queues name them by their number. -/
structure CompilationWorkerPool where
  availablePermits : Int
  highWaiters : List Nat := []
  lowWaiters : List Nat := []
  waiters : List AdmissionWaiter := []

def fromSerializedWorkerPool (size : Int) : CompilationWorkerPool := { availablePermits := max 1 size }

namespace CompilationWorkerPool

def stateOf (s : CompilationWorkerPool) (w : Nat) : Option AdmissionState := s.waiters[w]?.map (·.state)

def placeOf (s : CompilationWorkerPool) (w : Nat) : Option Place := s.waiters[w]?.map (·.place)

def priorityOf (s : CompilationWorkerPool) (w : Nat) : Option CompilationPriority := s.waiters[w]?.map (·.priority)

def setState (s : CompilationWorkerPool) (w : Nat) (state : AdmissionState) : CompilationWorkerPool :=
  { s with waiters := s.waiters.modify w ({ · with state }) }

def setPlace (s : CompilationWorkerPool) (w : Nat) (place : Place) : CompilationWorkerPool :=
  { s with waiters := s.waiters.modify w ({ · with place }) }

/-- One of the loops of `nextWaiter`: the first waiter still queued, and what is left. -/
def shiftQueued (s : CompilationWorkerPool) : List Nat → Option Nat × List Nat
  | [] => (none,[])
  | w :: rest => if s.stateOf w = some .queued then (some w,rest) else s.shiftQueued rest

def nextWaiter (s : CompilationWorkerPool) : Option Nat × CompilationWorkerPool :=
  match s.shiftQueued s.highWaiters with
  | (some w,rest) => (some w,{ s with highWaiters := rest })
  | (none,rest) =>
    let (found,left) := s.shiftQueued s.lowWaiters
    (found,{ s with highWaiters := rest,lowWaiters := left })

def releasePermit (s : CompilationWorkerPool) : CompilationWorkerPool :=
  match s.nextWaiter with
  | (some w,s) => s.setState w .granted
  | (none,s) => { s with availablePermits := s.availablePermits + 1 }

/-- The start of `acquirePermit`. The new waiter is granted a permit at once if one is free. -/
def acquirePermit (s : CompilationWorkerPool) (priority : CompilationPriority) : CompilationWorkerPool :=
  let w := s.waiters.length
  let s : CompilationWorkerPool := { s with waiters := s.waiters ++ [{ priority := priority }] }
  if 0 < s.availablePermits then
    let s : CompilationWorkerPool := { s with availablePermits := s.availablePermits - 1 }
    s.setState w .granted
  else
    match priority with
    | .high => { s with highWaiters := s.highWaiters ++ [w] }
    | .low => { s with lowWaiters := s.lowWaiters ++ [w] }

def cleanup (s : CompilationWorkerPool) (w : Nat) : CompilationWorkerPool :=
  match s.stateOf w with
  | some .queued => s.setState w .cancelled
  | some .granted => (s.setState w .cancelled).releasePermit
  | _ => s

/-- What `execute` runs once the worker pool is done with the request, in whatever way. -/
def finish (s : CompilationWorkerPool) (w : Nat) : CompilationWorkerPool :=
  if s.stateOf w = some .acquired then (s.setState w .released).releasePermit else s

inductive Event where
  | execute (priority : CompilationPriority)
  | resumed (w : Nat)
  | settled (w : Nat) (succeeds : Bool)
  | interrupted (w : Nat)

/-- A fiber goes on from its admission when it has been resumed, which is when a permit is granted
to it. An interruption ends it wherever it is, and can come at any time. -/
def step (s : CompilationWorkerPool) : Event → CompilationWorkerPool
  | .execute priority => s.acquirePermit priority
  | .resumed w =>
    if s.placeOf w = some .admission ∧ s.stateOf w = some .granted then (s.setState w .acquired).setPlace w .pool
    else s
  | .settled w _ => if s.placeOf w = some .pool then (s.finish w).setPlace w .ended else s
  | .interrupted w =>
    match s.placeOf w with
    | some .admission => (s.cleanup w).setPlace w .ended
    | some .pool => (s.finish w).setPlace w .ended
    | _ => s

structure Conserves (size : Int) (s : CompilationWorkerPool) : Prop where
  permits : s.availablePermits + (s.waiters.countP AdmissionWaiter.holds : Nat) = max 1 size
  bounded : (s.waiters.countP AdmissionWaiter.working : Nat) ≤ max 1 size
  idle : 0 < s.availablePermits → ∀ waiter ∈ s.waiters, waiter.state ≠ .queued

/-- Waiter `v` goes before `w`: it has the higher priority, or the same and it came earlier. -/
def Before (s : CompilationWorkerPool) (v w : Nat) : Prop :=
  s.priorityOf v = some .high ∧ s.priorityOf w = some .low ∨ s.priorityOf v = s.priorityOf w ∧ v < w

/-- Whoever is admitted in a step, nobody who goes before it was queued. -/
def InTurn (s : CompilationWorkerPool) (event : Event) : Prop :=
  ∀ w, s.stateOf w ≠ some .granted → (s.step event).stateOf w = some .granted →
    ∀ v, s.stateOf v = some .queued → ¬ (s.step event).Before v w

def queue (s : CompilationWorkerPool) : CompilationPriority → List Nat
  | .high => s.highWaiters
  | .low => s.lowWaiters

/-- What the permits and the queues keep among themselves: whoever is queued is in the queue of
its priority, in the order of the requests, and no permit is free meanwhile. -/
structure Fair (permits : Int) (s : CompilationWorkerPool) : Prop where
  counted : s.availablePermits + (s.waiters.countP AdmissionWaiter.holds : Nat) = permits
  nonnegative : 0 ≤ s.availablePermits
  idle : 0 < s.availablePermits → ∀ w, s.stateOf w ≠ some .queued
  filed : ∀ w priority, s.stateOf w = some .queued → s.priorityOf w = some priority → w ∈ s.queue priority
  ordered : ∀ priority, (s.queue priority).Pairwise (· < ·)
  known : ∀ priority, ∀ w ∈ s.queue priority, s.priorityOf w = some priority

section

variable {s t : CompilationWorkerPool} {w v : Nat} {state : AdmissionState} {place : Place}
  {priority : CompilationPriority} {permits : Int}

theorem stateOf_setState : (s.setState w state).stateOf v =
    if w = v then (s.stateOf v).map (fun _ => state) else s.stateOf v := by
  simp only [stateOf,setState,List.getElem?_modify]
  cases s.waiters[v]? <;> split <;> simp_all

@[simp] theorem priorityOf_setState : (s.setState w state).priorityOf v = s.priorityOf v := by
  simp only [priorityOf,setState,List.getElem?_modify]
  cases s.waiters[v]? <;> split <;> simp_all

@[simp] theorem stateOf_setPlace : (s.setPlace w place).stateOf v = s.stateOf v := by
  simp only [stateOf,setPlace,List.getElem?_modify]
  cases s.waiters[v]? <;> split <;> simp_all

@[simp] theorem priorityOf_setPlace : (s.setPlace w place).priorityOf v = s.priorityOf v := by
  simp only [priorityOf,setPlace,List.getElem?_modify]
  cases s.waiters[v]? <;> split <;> simp_all

@[simp] theorem queue_setState : (s.setState w state).queue priority = s.queue priority := by
  cases priority <;> rfl

@[simp] theorem queue_setPlace : (s.setPlace w place).queue priority = s.queue priority := by
  cases priority <;> rfl

theorem shiftQueued_some {line left : List Nat} (found : s.shiftQueued line = (some w,left)) :
    s.stateOf w = some .queued ∧
      ∃ skipped, line = skipped ++ w :: left ∧ ∀ v ∈ skipped, s.stateOf v ≠ some .queued := by
  induction line with
  | nil => cases found
  | cons first line ih =>
    rw [shiftQueued] at found
    split at found
    · next waiting =>
      obtain ⟨rfl,rfl⟩ : first = w ∧ line = left := by simpa using found
      exact ⟨waiting,[],rfl,fun _ member => absurd member List.not_mem_nil⟩
    · next gone =>
      obtain ⟨waiting,skipped,rfl,none_⟩ := ih found
      exact ⟨waiting,first :: skipped,rfl,List.forall_mem_cons.mpr ⟨gone,none_⟩⟩

theorem shiftQueued_none {line left : List Nat} (found : s.shiftQueued line = (none,left)) :
    left = [] ∧ ∀ v ∈ line, s.stateOf v ≠ some .queued := by
  induction line with
  | nil =>
    obtain rfl : [] = left := by simpa [shiftQueued] using found
    exact ⟨rfl,fun _ member => absurd member List.not_mem_nil⟩
  | cons first line ih =>
    rw [shiftQueued] at found
    split at found
    · cases found
    · next gone => exact ⟨(ih found).1,List.forall_mem_cons.mpr ⟨gone,(ih found).2⟩⟩

theorem Fair.filed_somewhere (fair : Fair permits s) (waiting : s.stateOf v = some .queued) :
    ∃ priority, s.priorityOf v = some priority ∧ v ∈ s.queue priority := by
  obtain ⟨waiter,own,_⟩ := Option.map_eq_some_iff.mp waiting
  have asked : s.priorityOf v = some waiter.priority := by rw [priorityOf,own]; rfl
  exact ⟨_,asked,fair.filed v _ waiting asked⟩

theorem head_first {line : List Nat} (ordered : line.Pairwise (· < ·)) (cut : line = skipped ++ w :: left)
    (gone : ∀ v ∈ skipped, s.stateOf v ≠ some .queued) (member : v ∈ line) (waiting : s.stateOf v = some .queued) :
    w ≤ v ∧ (v ≠ w → v ∈ left) := by
  rw [cut] at ordered member
  have after := (List.pairwise_cons.mp (List.pairwise_append.mp ordered).2.1).1
  rcases List.mem_append.mp member with before | rest
  · exact absurd waiting (gone v before)
  · rcases List.mem_cons.mp rest with rfl | later
    · exact ⟨Nat.le_refl _,fun other => absurd rfl other⟩
    · exact ⟨Nat.le_of_lt (after v later),fun _ => later⟩

/-- What `nextWaiter` takes from the queues: some of their fronts, and of those still queued only
the waiter it returns. -/
structure Taken (s t : CompilationWorkerPool) (w : Nat) : Prop where
  permits : t.availablePermits = s.availablePermits
  waiters : t.waiters = s.waiters
  left : ∀ priority, t.queue priority <:+ s.queue priority
  kept : ∀ priority, ∀ v ∈ s.queue priority, s.stateOf v = some .queued → v ≠ w → v ∈ t.queue priority

theorem nextWaiter_some (fair : Fair permits s) (found : s.nextWaiter = (some w,t)) :
    s.stateOf w = some .queued ∧ Taken s t w ∧ ∀ v, s.stateOf v = some .queued → ¬ s.Before v w := by
  rw [nextWaiter] at found
  split at found
  · next head left high =>
    obtain ⟨same,rfl⟩ := Prod.mk.inj found
    obtain rfl := Option.some.inj same
    obtain ⟨waiting,skipped,cut,gone⟩ := shiftQueued_some high
    have first := fun v => head_first (s := s) (v := v) (fair.ordered .high) cut gone
    refine ⟨waiting,⟨rfl,rfl,?_,?_⟩,?_⟩
    · rintro (_ | _)
      · exact ⟨skipped ++ [head],by simp [queue,cut]⟩
      · exact List.suffix_rfl
    · rintro (_ | _) v member own other
      · exact (first v member own).2 other
      · exact member
    · intro v own before
      obtain ⟨priority,asked,member⟩ := fair.filed_somewhere own
      have asks := fair.known .high head (by simp [queue,cut])
      rcases before with ⟨_,low⟩ | ⟨same,earlier⟩
      · cases asks.symm.trans low
      · cases (asked.symm.trans same).trans asks
        have := (first v member own).1
        omega
  · next left high =>
    obtain ⟨rfl,none_⟩ := shiftQueued_none high
    cases low : s.shiftQueued s.lowWaiters with | mk head left =>
    rw [low] at found
    obtain ⟨rfl,rfl⟩ := Prod.mk.inj found
    obtain ⟨waiting,skipped,cut,gone⟩ := shiftQueued_some low
    have first := fun v => head_first (s := s) (v := v) (fair.ordered .low) cut gone
    refine ⟨waiting,⟨rfl,rfl,?_,?_⟩,?_⟩
    · rintro (_ | _)
      · exact List.nil_suffix
      · exact ⟨skipped ++ [w],by simp [queue,cut]⟩
    · rintro (_ | _) v member own other
      · exact absurd own (none_ v member)
      · exact (first v member own).2 other
    · intro v own before
      obtain ⟨priority,asked,member⟩ := fair.filed_somewhere own
      have asks := fair.known .low w (by simp [queue,cut])
      cases priority with
      | high => exact none_ v member own
      | low =>
        rcases before with ⟨high,_⟩ | ⟨_,earlier⟩
        · cases asked.symm.trans high
        · have := (first v member own).1
          omega

theorem nextWaiter_none (fair : Fair permits s) (found : s.nextWaiter = (none,t)) :
    t = { s with highWaiters := [],lowWaiters := [] } ∧ ∀ v, s.stateOf v ≠ some .queued := by
  rw [nextWaiter] at found
  split at found
  · cases found
  · next left high =>
    obtain ⟨rfl,noneHigh⟩ := shiftQueued_none high
    cases low : s.shiftQueued s.lowWaiters with | mk head left =>
    rw [low] at found
    obtain ⟨rfl,rfl⟩ := Prod.mk.inj found
    obtain ⟨rfl,noneLow⟩ := shiftQueued_none low
    refine ⟨rfl,fun v own => ?_⟩
    obtain ⟨priority,_,member⟩ := fair.filed_somewhere own
    cases priority with
    | high => exact noneHigh v member own
    | low => exact noneLow v member own

theorem countP_setState (own : s.stateOf w = some before) (state : AdmissionState) :
    (s.setState w state).waiters.countP AdmissionWaiter.holds + before.holds.toNat =
      s.waiters.countP AdmissionWaiter.holds + state.holds.toNat := by
  obtain ⟨waiter,row,rfl⟩ := Option.map_eq_some_iff.mp own
  exact countP_modify (f := ({ · with state })) AdmissionWaiter.holds row

@[simp] theorem countP_setPlace (s : CompilationWorkerPool) (w : Nat) (place : Place) :
    (s.setPlace w place).waiters.countP AdmissionWaiter.holds = s.waiters.countP AdmissionWaiter.holds :=
  countP_modify_same (f := fun waiter : AdmissionWaiter => { waiter with place }) _ (fun _ => rfl) _ _

theorem Fair.setState (fair : Fair permits s) (own : s.stateOf w = some before) (stays : state ≠ .queued) :
    Fair (permits - before.holds.toNat + state.holds.toNat) (s.setState w state) := by
  have queued : ∀ v, (s.setState w state).stateOf v = some .queued → s.stateOf v = some .queued := by
    intro v waiting
    rw [stateOf_setState] at waiting
    split at waiting
    · obtain ⟨_,_,same⟩ := Option.map_eq_some_iff.mp waiting
      exact absurd same stays
    · exact waiting
  constructor
  · have counted := fair.counted
    have changed := countP_setState own state
    have kept : (s.setState w state).availablePermits = s.availablePermits := rfl
    omega
  · exact fair.nonnegative
  · exact fun free v waiting => fair.idle free v (queued v waiting)
  · intro v priority waiting asked
    rw [queue_setState]
    rw [priorityOf_setState] at asked
    exact fair.filed v priority (queued v waiting) asked
  · intro priority
    rw [queue_setState]
    exact fair.ordered priority
  · intro priority v member
    rw [priorityOf_setState]
    rw [queue_setState] at member
    exact fair.known priority v member

theorem Fair.setPlace (fair : Fair permits s) : Fair permits (s.setPlace w place) where
  counted := by rw [countP_setPlace]; exact fair.counted
  nonnegative := fair.nonnegative
  idle free v := by rw [stateOf_setPlace]; exact fair.idle free v
  filed v priority := by rw [stateOf_setPlace,priorityOf_setPlace,queue_setPlace]; exact fair.filed v priority
  ordered priority := by rw [queue_setPlace]; exact fair.ordered priority
  known priority v := by rw [queue_setPlace,priorityOf_setPlace]; exact fair.known priority v

theorem releasePermit_fair (fair : Fair permits s) : Fair (permits + 1) s.releasePermit := by
  rw [releasePermit]
  split
  · next w t found =>
    obtain ⟨waiting,taken,_⟩ := nextWaiter_some fair found
    have state : ∀ v, t.stateOf v = s.stateOf v := by intro v; rw [stateOf,taken.waiters]; rfl
    have asked : ∀ v, t.priorityOf v = s.priorityOf v := by intro v; rw [priorityOf,taken.waiters]; rfl
    have own := (state w).trans waiting
    constructor
    · have counted := fair.counted
      have changed := countP_setState own .granted
      have kept : (t.setState w .granted).availablePermits = t.availablePermits := rfl
      rw [kept,taken.permits]
      rw [taken.waiters] at changed
      simp only [AdmissionState.holds] at changed
      simp at changed
      omega
    · exact (taken.permits ▸ fair.nonnegative : 0 ≤ t.availablePermits)
    · intro free
      exact absurd waiting (fair.idle (taken.permits ▸ free) w)
    · intro v priority own asks
      rw [priorityOf_setState,asked] at asks
      rw [stateOf_setState] at own
      rw [queue_setState]
      split at own
      · rw [Option.map_eq_some_iff] at own
        obtain ⟨_,_,absurd_⟩ := own
        cases absurd_
      · next other =>
        rw [state] at own
        exact taken.kept priority v (fair.filed v priority own asks) own (Ne.symm other)
    · intro priority
      rw [queue_setState]
      exact (fair.ordered priority).sublist (taken.left priority).sublist
    · intro priority v member
      rw [priorityOf_setState,asked]
      rw [queue_setState] at member
      exact fair.known priority v ((taken.left priority).mem member)
  · next t found =>
    obtain ⟨rfl,none_⟩ := nextWaiter_none fair found
    constructor
    · have counted := fair.counted
      exact (by omega : s.availablePermits + 1 + (s.waiters.countP AdmissionWaiter.holds : Nat) = permits + 1)
    · have nonnegative := fair.nonnegative
      exact (by omega : 0 ≤ s.availablePermits + 1)
    · exact fun _ => none_
    · exact fun v _ own => absurd own (none_ v)
    · rintro (_ | _)
      · exact .nil
      · exact .nil
    · rintro (_ | _) v member
      · cases member
      · cases member

theorem releasePermit_granted (fair : Fair permits s) (other : s.stateOf w ≠ some .granted)
    (now : s.releasePermit.stateOf w = some .granted) :
    (∀ v, s.stateOf v = some .queued → ¬ s.Before v w) ∧ ∀ v, s.releasePermit.priorityOf v = s.priorityOf v := by
  rw [releasePermit] at now ⊢
  split at now
  · next head t found =>
    obtain ⟨waiting,taken,first⟩ := nextWaiter_some fair found
    have state : t.stateOf w = s.stateOf w := by rw [stateOf,taken.waiters]; rfl
    rw [stateOf_setState] at now
    split at now
    · next same =>
      subst same
      refine ⟨first,fun v => ?_⟩
      rw [priorityOf_setState]
      rw [priorityOf,taken.waiters]
      rfl
    · exact absurd (state.symm.trans now) other
  · next t found =>
    obtain ⟨rfl,_⟩ := nextWaiter_none fair found
    exact absurd now other

theorem acquirePermit_free (free : 0 < s.availablePermits) (priority : CompilationPriority) :
    s.acquirePermit priority = { s with
      availablePermits := s.availablePermits - 1
      waiters := s.waiters ++ [{ priority := priority,state := .granted }] } := by
  simp only [acquirePermit,free,if_true,CompilationWorkerPool.setState,modify_concat]

theorem acquirePermit_full (full : ¬ 0 < s.availablePermits) (priority : CompilationPriority) :
    (s.acquirePermit priority).availablePermits = s.availablePermits ∧
      (s.acquirePermit priority).waiters = s.waiters ++ [{ priority := priority }] ∧
      ∀ other, (s.acquirePermit priority).queue other =
        if other = priority then s.queue other ++ [s.waiters.length] else s.queue other := by
  simp only [acquirePermit,if_neg full]
  refine ⟨by cases priority <;> rfl,by cases priority <;> rfl,?_⟩
  intro other
  cases priority <;> cases other <;> rfl

theorem stateOf_concat (grown : t.waiters = s.waiters ++ [waiter]) :
    t.stateOf v = some state ↔ s.stateOf v = some state ∨ v = s.waiters.length ∧ waiter.state = state := by
  simp only [stateOf,Option.map_eq_some_iff,grown,concat_row]
  grind

theorem priorityOf_concat (grown : t.waiters = s.waiters ++ [waiter]) :
    t.priorityOf v = some priority ↔
      s.priorityOf v = some priority ∨ v = s.waiters.length ∧ waiter.priority = priority := by
  simp only [priorityOf,Option.map_eq_some_iff,grown,concat_row]
  grind

theorem lt_of_priorityOf (own : s.priorityOf v = some priority) : v < s.waiters.length := by
  obtain ⟨_,row,_⟩ := Option.map_eq_some_iff.mp own
  exact (List.getElem?_eq_some_iff.mp row).1

theorem acquirePermit_fair (fair : Fair permits s) (priority : CompilationPriority) :
    Fair permits (s.acquirePermit priority) := by
  have counted := fair.counted
  have nonnegative := fair.nonnegative
  by_cases free : 0 < s.availablePermits
  · rw [acquirePermit_free free]
    have grown : s.waiters ++ [{ priority := priority,state := .granted }] = s.waiters ++ [⟨priority,.granted,.admission⟩] := rfl
    constructor
    · simp only [List.countP_append]
      simp [AdmissionWaiter.holds,AdmissionState.holds]
      omega
    · exact (by omega : 0 ≤ s.availablePermits - 1)
    · intro _ v
      rw [Ne,stateOf_concat (s := s) grown]
      rintro (waiting | ⟨_,granted⟩)
      · exact fair.idle free v waiting
      · cases granted
    · intro v asked waiting
      rcases (stateOf_concat (s := s) grown).mp waiting with old | ⟨_,granted⟩
      · exact absurd old (fair.idle free v)
      · cases granted
    · exact fair.ordered
    · intro asked v member
      exact (priorityOf_concat (s := s) grown).mpr (.inl (fair.known asked v member))
  · obtain ⟨kept,grown,queues⟩ := acquirePermit_full free priority
    constructor
    · rw [kept,grown,List.countP_append]
      simpa [AdmissionWaiter.holds,AdmissionState.holds] using counted
    · rw [kept]
      exact nonnegative
    · rw [kept]
      exact fun free_ => absurd free_ free
    · intro v asked waiting asks
      rw [queues]
      rcases (priorityOf_concat grown).mp asks with old | ⟨rfl,rfl⟩
      · have inside := lt_of_priorityOf old
        rcases (stateOf_concat grown).mp waiting with before | ⟨rfl,_⟩
        · have filed := fair.filed v asked before old
          split
          · exact List.mem_append_left _ filed
          · exact filed
        · omega
      · simp
    · intro asked
      rw [queues]
      split
      · apply List.pairwise_append.mpr
        refine ⟨fair.ordered asked,List.pairwise_singleton _ _,?_⟩
        intro v member w last
        obtain rfl := List.mem_singleton.mp last
        exact lt_of_priorityOf (fair.known asked v member)
      · exact fair.ordered asked
    · intro asked v member
      apply (priorityOf_concat grown).mpr
      rw [queues] at member
      split at member
      · next same =>
        rcases List.mem_append.mp member with old | new_
        · exact .inl (fair.known asked v old)
        · exact .inr ⟨List.mem_singleton.mp new_,same.symm⟩
      · exact .inl (fair.known asked v member)

theorem cleanup_fair (fair : Fair permits s) (w : Nat) : Fair permits (s.cleanup w) := by
  rw [cleanup]
  split
  · next queued =>
    have cancelled := fair.setState queued (show AdmissionState.cancelled ≠ .queued by simp)
    simpa [AdmissionState.holds] using cancelled
  · next granted =>
    have returned := releasePermit_fair (fair.setState granted (show AdmissionState.cancelled ≠ .queued by simp))
    simpa [AdmissionState.holds] using returned
  · exact fair

theorem finish_fair (fair : Fair permits s) (w : Nat) : Fair permits (s.finish w) := by
  rw [finish]
  split
  · next acquired =>
    have returned := releasePermit_fair (fair.setState acquired (show AdmissionState.released ≠ .queued by simp))
    simpa [AdmissionState.holds] using returned
  · exact fair

theorem step_fair (fair : Fair permits s) (event : Event) : Fair permits (s.step event) := by
  cases event with
  | execute priority => exact acquirePermit_fair fair priority
  | resumed w =>
    rw [step]
    split
    · next goes =>
      have acquired := fair.setState goes.2 (show AdmissionState.acquired ≠ .queued by simp)
      have placed : Fair _ ((s.setState w .acquired).setPlace w .pool) := acquired.setPlace
      simpa [AdmissionState.holds] using placed
    · exact fair
  | settled w succeeds =>
    rw [step]
    split
    · exact (finish_fair fair w).setPlace
    · exact fair
  | interrupted w =>
    rw [step]
    split
    · exact (cleanup_fair fair w).setPlace
    · exact (finish_fair fair w).setPlace
    · exact fair

/-- A request is with the workers only while its waiter has acquired its permit. -/
def Placed (s : CompilationWorkerPool) : Prop := ∀ w, s.placeOf w = some .pool → s.stateOf w = some .acquired

@[simp] theorem placeOf_setState : (s.setState w state).placeOf v = s.placeOf v := by
  simp only [placeOf,setState,List.getElem?_modify]
  cases s.waiters[v]? <;> split <;> simp_all

theorem placeOf_setPlace : (s.setPlace w place).placeOf v =
    if w = v then (s.placeOf v).map (fun _ => place) else s.placeOf v := by
  simp only [placeOf,setPlace,List.getElem?_modify]
  cases s.waiters[v]? <;> split <;> simp_all

theorem releasePermit_acquired (fair : Fair permits s) :
    (∀ v, s.releasePermit.placeOf v = s.placeOf v) ∧
      ∀ v, s.stateOf v = some .acquired → s.releasePermit.stateOf v = some .acquired := by
  rw [releasePermit]
  split
  · next w t found =>
    obtain ⟨waiting,taken,_⟩ := nextWaiter_some fair found
    constructor
    · intro v
      rw [placeOf_setState,placeOf,taken.waiters]
      rfl
    · intro v acquired
      rw [stateOf_setState,stateOf,taken.waiters]
      split
      · next same =>
        subst same
        cases waiting.symm.trans acquired
      · exact acquired
  · next t found =>
    obtain ⟨rfl,_⟩ := nextWaiter_none fair found
    exact ⟨fun _ => rfl,fun _ acquired => acquired⟩

/-- What the end of waiter `w` does to the others: whoever is admitted instead is in turn. -/
structure Leaves (s t : CompilationWorkerPool) (w : Nat) : Prop where
  places : ∀ v, t.placeOf v = s.placeOf v
  acquired : ∀ v, v ≠ w → s.stateOf v = some .acquired → t.stateOf v = some .acquired
  turn : ∀ u, s.stateOf u ≠ some .granted → t.stateOf u = some .granted →
    ∀ v, s.stateOf v = some .queued → ¬ t.Before v u

theorem Leaves.refl (s : CompilationWorkerPool) (w : Nat) : Leaves s s w :=
  ⟨fun _ => rfl,fun _ _ acquired => acquired,fun _ other now => absurd now other⟩

theorem granted_of_setState (stays : state ≠ .granted) (granted : (s.setState w state).stateOf v = some .granted) :
    s.stateOf v = some .granted := by
  rw [stateOf_setState] at granted
  split at granted
  · obtain ⟨_,_,same⟩ := Option.map_eq_some_iff.mp granted
    exact absurd same stays
  · exact granted

theorem setState_leaves (stays : state ≠ .granted) : Leaves s (s.setState w state) w := by
  refine ⟨fun _ => placeOf_setState,?_,?_⟩
  · intro v other acquired
    rw [stateOf_setState,if_neg (Ne.symm other)]
    exact acquired
  · exact fun u other now => absurd (granted_of_setState stays now) other

theorem giveBack_leaves (fair : Fair permits s) (own : s.stateOf w = some before) (settled : before ≠ .queued)
    (waits : state ≠ .queued) (stays : state ≠ .granted) : Leaves s (s.setState w state).releasePermit w := by
  have after := fair.setState own waits
  have gone := setState_leaves (s := s) (w := w) stays
  obtain ⟨places,acquired⟩ := releasePermit_acquired after
  refine ⟨fun v => (places v).trans (gone.places v),fun v other own => acquired v (gone.acquired v other own),?_⟩
  intro u other now v queued ahead
  have still : (s.setState w state).stateOf v = some .queued := by
    rw [stateOf_setState,if_neg]
    · exact queued
    · intro same
      subst same
      cases own.symm.trans queued
      exact settled rfl
  obtain ⟨first,same⟩ := releasePermit_granted after (fun granted => other (granted_of_setState stays granted)) now
  apply first v still
  simpa only [Before,same] using ahead

theorem cleanup_leaves (fair : Fair permits s) (w : Nat) : Leaves s (s.cleanup w) w := by
  rw [cleanup]
  split
  · exact setState_leaves (by simp)
  · next granted => exact giveBack_leaves fair granted (by simp) (by simp) (by simp)
  · exact .refl s w

theorem finish_leaves (fair : Fair permits s) (w : Nat) : Leaves s (s.finish w) w := by
  rw [finish]
  split
  · next acquired => exact giveBack_leaves fair acquired (by simp) (by simp) (by simp)
  · exact .refl s w

theorem Leaves.placed (leaves : Leaves s t w) (placed : Placed s) : Placed (t.setPlace w .ended) := by
  intro v working
  rw [stateOf_setPlace]
  rw [placeOf_setPlace] at working
  split at working
  · obtain ⟨_,_,same⟩ := Option.map_eq_some_iff.mp working
    cases same
  · next other =>
    rw [leaves.places] at working
    exact leaves.acquired v (Ne.symm other) (placed v working)

theorem Leaves.inTurn (leaves : Leaves s t w) (u : Nat) (other : s.stateOf u ≠ some .granted)
    (now : (t.setPlace w .ended).stateOf u = some .granted) (v : Nat) (queued : s.stateOf v = some .queued) :
    ¬ (t.setPlace w .ended).Before v u := by
  rw [stateOf_setPlace] at now
  simpa only [Before,priorityOf_setPlace] using leaves.turn u other now v queued

theorem placeOf_concat (grown : t.waiters = s.waiters ++ [waiter]) :
    t.placeOf v = some place ↔ s.placeOf v = some place ∨ v = s.waiters.length ∧ waiter.place = place := by
  simp only [placeOf,Option.map_eq_some_iff,grown,concat_row]
  grind

theorem acquirePermit_placed (placed : Placed s) (priority : CompilationPriority) :
    Placed (s.acquirePermit priority) := by
  have grown : ∃ state, (s.acquirePermit priority).waiters = s.waiters ++ [⟨priority,state,.admission⟩] := by
    by_cases free : 0 < s.availablePermits
    · exact ⟨.granted,by rw [acquirePermit_free free]⟩
    · exact ⟨.queued,(acquirePermit_full free priority).2.1⟩
  obtain ⟨state,grown⟩ := grown
  intro v working
  rcases (placeOf_concat grown).mp working with old | ⟨_,waits⟩
  · exact (stateOf_concat grown).mpr (.inl (placed v old))
  · cases waits

theorem step_placed (fair : Fair permits s) (placed : Placed s) (event : Event) : Placed (s.step event) := by
  cases event with
  | execute priority => exact acquirePermit_placed placed priority
  | resumed w =>
    rw [step]
    split
    · next goes =>
      intro v working
      rw [stateOf_setPlace,stateOf_setState]
      rw [placeOf_setPlace,placeOf_setState] at working
      split at working
      · next same =>
        subst same
        rw [if_pos rfl,goes.2]
        rfl
      · next other =>
        rw [if_neg other]
        exact placed v working
    · exact placed
  | settled w succeeds =>
    rw [step]
    split
    · exact (finish_leaves fair w).placed placed
    · exact placed
  | interrupted w =>
    rw [step]
    split
    · exact (cleanup_leaves fair w).placed placed
    · exact (finish_leaves fair w).placed placed
    · exact placed

theorem step_inTurn (fair : Fair permits s) (event : Event) : s.InTurn event := by
  cases event with
  | execute priority =>
    intro w other now v queued
    by_cases free : 0 < s.availablePermits
    · exact absurd queued (fair.idle free v)
    · rcases (stateOf_concat (acquirePermit_full free priority).2.1).mp now with old | ⟨_,waits⟩
      · exact absurd old other
      · cases waits
  | resumed w =>
    intro u other now
    rw [step] at now
    split at now
    · rw [stateOf_setPlace] at now
      exact absurd (granted_of_setState (by simp) now) other
    · exact absurd now other
  | settled w succeeds =>
    intro u other now
    rw [step] at now ⊢
    split at now
    · next works => rw [if_pos works]; exact (finish_leaves fair w).inTurn u other now
    · exact absurd now other
  | interrupted w =>
    intro u other now
    rw [step] at now ⊢
    split at now
    · exact (cleanup_leaves fair w).inTurn u other now
    · exact (finish_leaves fair w).inTurn u other now
    · exact absurd now other

theorem Fair.conserves (fair : Fair (max 1 size) s) (placed : Placed s) : Conserves size s := by
  refine ⟨fair.counted,?_,?_⟩
  · have held : s.waiters.countP AdmissionWaiter.working ≤ s.waiters.countP AdmissionWaiter.holds := by
      apply List.countP_mono_left
      intro waiter member working
      obtain ⟨w,row⟩ := List.mem_iff_getElem?.mp member
      have acquired := placed w (by simpa [placeOf,row,AdmissionWaiter.working] using working)
      have own : waiter.state = .acquired := by simpa [stateOf,row] using acquired
      simp [AdmissionWaiter.holds,AdmissionState.holds,own]
    have counted := fair.counted
    have nonnegative := fair.nonnegative
    omega
  · intro free waiter member queued
    obtain ⟨w,row⟩ := List.mem_iff_getElem?.mp member
    exact fair.idle free w (by simp [stateOf,row,queued])

theorem start_fair (size : Int) : Fair (max 1 size) (fromSerializedWorkerPool size) where
  counted := by simp [fromSerializedWorkerPool]
  nonnegative := by simp only [fromSerializedWorkerPool]; omega
  idle _ w waiting := by simp [stateOf,fromSerializedWorkerPool] at waiting
  filed w priority waiting := by simp [stateOf,fromSerializedWorkerPool] at waiting
  ordered priority := by cases priority <;> exact .nil
  known priority w member := by cases priority <;> cases member

/-- In every run the permits are conserved, and whoever is admitted is next in turn. -/
theorem admission_conserves (size : Int) (inputs : List Event) :
    EveryState step (Conserves size) (fromSerializedWorkerPool size) inputs ∧
      EveryStep step InTurn (fromSerializedWorkerPool size) inputs := by
  have always : EveryState step (fun s => Fair (max 1 size) s ∧ Placed s) (fromSerializedWorkerPool size) inputs := by
    apply everyState_of_step
    · exact fun s event kept => ⟨step_fair kept.1 event,step_placed kept.1 kept.2 event⟩
    · refine ⟨start_fair size,fun w working => ?_⟩
      simp [placeOf,fromSerializedWorkerPool] at working
  constructor
  · exact fun front initial => (always front initial).1.conserves (always front initial).2
  · exact everyStep_of_everyState (fun s event kept => step_inTurn kept.1 event) always

end

end CompilationWorkerPool

end ApexLs.Compiler
