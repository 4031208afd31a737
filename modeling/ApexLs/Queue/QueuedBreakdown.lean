import Mathlib.Algebra.BigOperators.Group.Finset.Basic
import ApexLs.Collections.OrderedMap
import ApexLs.Queue.TaskOrder

/-! The breakdown of the queued tasks by their request types. An offer counts its item when it goes on after the queue took
it; the controller counts an item out when it starts it. In between the controller may have started it already. -/
namespace ApexLs.Queue

open ApexLs.Collections

/-- `item.requestType || 'unknown'`. -/
def typeName (requestType : Option String) : String := (requestType.filter (· ≠ "")).getD "unknown"

/-- An offer in flight: its item is in the queue, waits for space there or was taken, and is not counted yet. -/
structure Offer where
  priority : Priority
  item : QueuedItem

/-- The scheduler with its `queuedRequestTypeCounts` and the offers in flight. -/
structure Breakdown where
  scheduler : Scheduler
  queuedRequestTypeCounts : Priority → OrderedMap String Nat := fun _ => .empty
  offers : List Offer := []

namespace Breakdown

def count (b : Breakdown) (p : Priority) (t : String) : Nat := ((b.queuedRequestTypeCounts p).get? t).getD 0

def setCount (b : Breakdown) (p : Priority) (t : String) (n : Nat) : Breakdown :=
  { b with queuedRequestTypeCounts :=
      Function.update b.queuedRequestTypeCounts p ((b.queuedRequestTypeCounts p).set t n) }

/-- The queue has taken the item of the offer. Offers that wait for space do so in their order. -/
def admitted (b : Breakdown) (i : Nat) (o : Offer) : Bool :=
  (b.offers.take i).countP (·.priority = o.priority) + ((b.scheduler.queues o.priority).size -
    (b.scheduler.queues o.priority).capacity) < b.offers.countP (·.priority = o.priority)

section
variable (requestType : QueuedItem → Option String) (cfg : Config)

def resume (b : Breakdown) (i : Nat) : Breakdown :=
  match b.offers[i]? with
  | none => b
  | some o =>
    if b.admitted i o then
      let t := typeName (requestType o.item)
      { b with offers := b.offers.eraseIdx i }.setCount o.priority t (b.count o.priority t + 1)
    else b

/-- The start of a task counts it out: `Math.max(0, currentCount - 1)`. -/
def countOut (b : Breakdown) (task : Task) : Breakdown :=
  let t := typeName (requestType task.item)
  b.setCount task.priority t (b.count task.priority t - 1)

/-- A step of the controller, with `processQueuedItem` for each task that it starts. -/
def controller (b : Breakdown) (budget : Nat) : Breakdown :=
  let scheduler := b.scheduler.controllerLoop cfg budget
  (scheduler.forked.drop b.scheduler.forked.length).foldl (countOut requestType) { b with scheduler := scheduler }

inductive Event where
  | offer (p : Priority) (item : QueuedItem)
  | resume (i : Nat)
  | controller (budget : Nat)
  | shutdown
  | finished (i : Nat) (outcome : Scheduler.Outcome)
  | handled (i : Nat)

def step (b : Breakdown) : Event → Breakdown
  | .offer p item => { b with scheduler := b.scheduler.step cfg (.offer p item),offers := b.offers ++ [⟨p,item⟩] }
  | .resume i => b.resume requestType i
  | .controller budget => b.controller requestType cfg budget
  | .shutdown => { b with scheduler := b.scheduler.step cfg .shutdown }
  | .finished i outcome => { b with scheduler := b.scheduler.step cfg (.finished i outcome) }
  | .handled i => { b with scheduler := b.scheduler.step cfg (.handled i) }

def initialized : Breakdown where
  scheduler := .initialized cfg

end

section
variable (requestType : QueuedItem → Option String)

def queued (b : Breakdown) (p : Priority) (t : String) : Nat :=
  ((b.scheduler.queues p).entries.map fun item => typeName (requestType item)).count t

def inFlight (b : Breakdown) (p : Priority) (t : String) : Nat :=
  b.offers.countP fun o => o.priority = p ∧ typeName (requestType o.item) = t

def Matches (b : Breakdown) : Prop :=
  ∀ p, ((b.queuedRequestTypeCounts p).entries.map Prod.snd).sum = (b.scheduler.queues p).size ∧
    ∀ t, b.count p t = b.queued requestType p t

/-- How far the count of a type is above its items, when the offers in flight are taken as counted. -/
def excess (b : Breakdown) (p : Priority) (t : String) : Int :=
  (b.count p t + b.inFlight requestType p t : Int) - b.queued requestType p t

end

variable {requestType : QueuedItem → Option String} {b : Breakdown}

theorem count_setCount (b : Breakdown) (p q : Priority) (t u : String) (n : Nat) :
    (b.setCount p t n).count q u = if q = p ∧ u = t then n else b.count q u := by
  by_cases same : q = p
  · subst same
    by_cases type : u = t
    · simp [count,setCount,type]
    · simp [count,setCount,type]
  · simp [count,setCount,same]

theorem foldl_countOut (b : Breakdown) (tasks : List Task) :
    (tasks.foldl (countOut requestType) b).scheduler = b.scheduler ∧
    (tasks.foldl (countOut requestType) b).offers = b.offers ∧
    ∀ p t, (tasks.foldl (countOut requestType) b).count p t = b.count p t -
      (((tasks.filter (·.priority = p)).map Task.item).map fun item => typeName (requestType item)).count t := by
  induction tasks generalizing b with
  | nil => exact ⟨rfl,rfl,fun _ _ => rfl⟩
  | cons task tasks ih =>
    obtain ⟨scheduler,offers,counts⟩ := ih (b.countOut requestType task)
    refine ⟨scheduler,offers,fun p t => ?_⟩
    rw [List.foldl_cons,counts,countOut,count_setCount]
    by_cases same : task.priority = p
    · subst same
      by_cases type : typeName (requestType task.item) = t
      · subst type
        simp only [and_self,if_true,List.filter_cons,decide_true,List.map_cons,List.count_cons_self]
        omega
      · have apart : t ≠ typeName (requestType task.item) := Ne.symm type
        simp [apart,type]
    · have apart : p ≠ task.priority := Ne.symm same
      simp [apart,same]

theorem excess_offer (cfg : Config) (b : Breakdown) (q : Priority) (item : QueuedItem) (p : Priority) (t : String) :
    (b.step requestType cfg (.offer q item)).excess requestType p t = b.excess requestType p t := by
  have counts : (b.step requestType cfg (.offer q item)).count p t = b.count p t := rfl
  have flight : (b.step requestType cfg (.offer q item)).inFlight requestType p t =
      b.inFlight requestType p t + if q = p ∧ typeName (requestType item) = t then 1 else 0 := by
    simp [inFlight,step,List.countP_append,List.countP_singleton]
  have queue : (b.step requestType cfg (.offer q item)).queued requestType p t =
      b.queued requestType p t + if q = p ∧ typeName (requestType item) = t then 1 else 0 := by
    by_cases here : q = p
    · subst here
      simp [queued,step,Scheduler.step,Scheduler.setQueue,BoundedQueue.offer,List.count_append,List.count_singleton]
    · have apart : p ≠ q := Ne.symm here
      simp [queued,step,Scheduler.step,Scheduler.setQueue,here,apart]
  rw [excess,excess,counts,flight,queue]
  omega

theorem excess_resume (b : Breakdown) (i : Nat) (p : Priority) (t : String) :
    (b.resume requestType i).excess requestType p t = b.excess requestType p t := by
  rw [resume]
  cases found : b.offers[i]? with
  | none => rfl
  | some o =>
    dsimp only
    split
    next =>
      obtain ⟨bound,rfl⟩ := List.getElem?_eq_some_iff.mp found
      have left := (List.getElem_cons_eraseIdx_perm bound).countP_eq fun o : Offer =>
        decide (o.priority = p ∧ typeName (requestType o.item) = t)
      rw [List.countP_cons] at left
      have flight : b.inFlight requestType p t = b.offers.countP fun o =>
        decide (o.priority = p ∧ typeName (requestType o.item) = t) := rfl
      rw [excess,excess,count_setCount,flight,← left]
      simp only [inFlight,setCount,queued,count,decide_eq_true_eq]
      by_cases here : b.offers[i].priority = p ∧ typeName (requestType b.offers[i].item) = t
      · obtain ⟨rfl,rfl⟩ := here
        simp only [and_self,if_true]
        omega
      · have apart : ¬ (p = b.offers[i].priority ∧ t = typeName (requestType b.offers[i].item)) :=
          fun both => here ⟨both.1.symm,both.2.symm⟩
        rw [if_neg apart,if_neg here]
        rfl
    next => rfl

theorem excess_controller (cfg : Config) (b : Breakdown) (budget : Nat) (p : Priority) (t : String) :
    b.excess requestType p t ≤ (b.controller requestType cfg budget).excess requestType p t ∧
    (b.excess requestType p t = 0 → (b.controller requestType cfg budget).inFlight requestType p t ≤
      (b.controller requestType cfg budget).queued requestType p t →
      (b.controller requestType cfg budget).excess requestType p t = 0) := by
  obtain ⟨tasks,taken⟩ := Scheduler.controllerLoop_taken cfg b.scheduler budget
  have started : (b.scheduler.controllerLoop cfg budget).forked.drop b.scheduler.forked.length = tasks := by
    rw [taken.forked,List.drop_left]
  have after := @foldl_countOut requestType { b with scheduler := b.scheduler.controllerLoop cfg budget } tasks
  rw [controller,started]
  generalize tasks.foldl (countOut requestType) { b with scheduler := b.scheduler.controllerLoop cfg budget } = c at after ⊢
  obtain ⟨scheduler,offers,counts⟩ := after
  have split := congrArg (fun items : List QueuedItem => (items.map fun item => typeName (requestType item)).count t)
    (taken.queues p)
  simp only [List.map_append,List.count_append] at split
  have count' : c.count p t = b.count p t - _ := counts p t
  have flight' : c.inFlight requestType p t = b.inFlight requestType p t := by
    rw [inFlight,inFlight,offers]
  rw [excess,excess,count',flight']
  simp only [queued,scheduler]
  omega

theorem excess_step (cfg : Config) (b : Breakdown) (e : Event) (p : Priority) (t : String) :
    b.excess requestType p t ≤ (b.step requestType cfg e).excess requestType p t ∧
    (b.excess requestType p t = 0 → (b.step requestType cfg e).inFlight requestType p t ≤
      (b.step requestType cfg e).queued requestType p t → (b.step requestType cfg e).excess requestType p t = 0) := by
  have unmoved (same : (b.step requestType cfg e).excess requestType p t = b.excess requestType p t) :
      b.excess requestType p t ≤ (b.step requestType cfg e).excess requestType p t ∧
      (b.excess requestType p t = 0 → (b.step requestType cfg e).inFlight requestType p t ≤
        (b.step requestType cfg e).queued requestType p t → (b.step requestType cfg e).excess requestType p t = 0) := by
    rw [same]
    exact ⟨le_rfl,fun zero _ => zero⟩
  cases e with
  | offer q item => exact unmoved (excess_offer cfg b q item p t)
  | resume i => exact unmoved (excess_resume b i p t)
  | controller budget => exact excess_controller cfg b budget p t
  | shutdown => exact unmoved rfl
  | finished i outcome =>
    have queues := Scheduler.finished_queues b.scheduler i outcome
    apply unmoved
    simp only [excess,step,count,inFlight,queued,Scheduler.step,queues]
  | handled i =>
    have queues := Scheduler.handled_queues b.scheduler i
    apply unmoved
    simp only [excess,step,count,inFlight,queued,Scheduler.step,queues]

theorem sum_counts (m : OrderedMap String Nat) (l : List String) (counted : ∀ t, (m.get? t).getD 0 = l.count t) :
    (m.entries.map Prod.snd).sum = l.length := by
  have values : m.entries.map Prod.snd = m.keys.map fun t => l.count t := by
    rw [OrderedMap.keys,List.map_map]
    refine List.map_congr_left fun entry member => ?_
    rw [Function.comp_apply,← counted,OrderedMap.get?_eq_some_iff.mpr member]
    rfl
  have covered : ∀ t ∈ (l : Multiset String), t ∈ (⟨m.keys,m.keys_nodup⟩ : Finset String) := by
    intro t member
    by_contra other
    have none_ : m.get? t = none := OrderedMap.get?_eq_none_iff.mpr other
    have absent := counted t
    rw [none_] at absent
    exact List.count_pos_iff.mpr (Multiset.mem_coe.mp member) |>.ne absent
  have total := Multiset.sum_count_eq_card covered
  rw [Finset.sum,Multiset.map_coe,Multiset.sum_coe,Multiset.coe_card] at total
  simp only [Multiset.coe_count] at total
  rw [values]
  exact total

/-- Once no offer is in flight, the counts match the queues if and only if at no time more offers of a type were in flight
than items of it were in the queue. -/
theorem breakdown_matches_iff (requestType : QueuedItem → Option String) (cfg : Config) (events : List Event)
    (quiet : (run (step requestType cfg) (initialized cfg) events).offers = []) :
    (run (step requestType cfg) (initialized cfg) events).Matches requestType ↔
      EveryState (step requestType cfg) (fun b => ∀ p t, b.inFlight requestType p t ≤ b.queued requestType p t)
        (initialized cfg) events := by
  have flight (p : Priority) (t : String) :
      (run (step requestType cfg) (initialized cfg) events).inFlight requestType p t = 0 := by
    rw [inFlight,quiet]
    rfl
  constructor
  · rintro matching front ⟨back,rfl⟩ p t
    by_contra more
    have above : 1 ≤ (run (step requestType cfg) (initialized cfg) front).excess requestType p t := by
      rw [excess]
      omega
    have kept (b : Breakdown) (e : Event) (holds : 1 ≤ b.excess requestType p t) :
        1 ≤ (step requestType cfg b e).excess requestType p t :=
      holds.trans (excess_step cfg b e p t).1
    have last := run_invariant kept above back
    rw [← run_append,excess,flight,(matching p).2 t] at last
    omega
  · intro within p
    have none_ (p : Priority) (t : String) :
        (run (step requestType cfg) (initialized cfg) events).excess requestType p t = 0 := by
      have start : (initialized cfg).excess requestType p t = 0 := rfl
      generalize initialized cfg = b at within start
      clear flight quiet
      induction events generalizing b with
      | nil => exact start
      | cons e events ih =>
        obtain ⟨_,rest⟩ := everyState_cons.mp within
        exact ih _ rest ((excess_step cfg b e p t).2 start (rest [] List.nil_prefix p t))
    have counts (t : String) : (run (step requestType cfg) (initialized cfg) events).count p t =
        (run (step requestType cfg) (initialized cfg) events).queued requestType p t := by
      have zero := none_ p t
      rw [excess,flight] at zero
      omega
    refine ⟨?_,counts⟩
    rw [sum_counts _ _ counts,List.length_map]
    rfl

theorem breakdown_matches_of_two : (run (step (fun _ => some "hover") { ceilTenth := fun n => (n + 9) / 10 })
      (initialized { ceilTenth := fun n => (n + 9) / 10 })
      [.offer .normal ⟨"a"⟩,.resume 0,.offer .normal ⟨"b"⟩,.resume 0,.controller 6]).Matches (fun _ => some "hover") ↔
    EveryState (step (fun _ => some "hover") { ceilTenth := fun n => (n + 9) / 10 })
      (fun b => ∀ p t, b.inFlight (fun _ => some "hover") p t ≤ b.queued (fun _ => some "hover") p t)
      (initialized { ceilTenth := fun n => (n + 9) / 10 })
      [.offer .normal ⟨"a"⟩,.resume 0,.offer .normal ⟨"b"⟩,.resume 0,.controller 6] :=
  breakdown_matches_iff _ _ _ (by rfl)

/-- Two offers wait for the only place. Relief takes one item, the next iteration the other, whose offer goes on after. -/
def overtaken : List Event :=
  [.offer .normal ⟨"a"⟩,.resume 0,.offer .normal ⟨"b"⟩,.offer .normal ⟨"c"⟩,.controller 6,.resume 0,.controller 6,
    .controller 6,.resume 0]

/-- Then one task is counted, and none is queued. -/
theorem overtaken_item_stays_counted :
    (run (step (fun _ => none) { queueCapacity := fun _ => 1,maxHighPriorityStreak := 0,ceilTenth := fun n => (n + 9) / 10 })
      (initialized { queueCapacity := fun _ => 1,maxHighPriorityStreak := 0,ceilTenth := fun n => (n + 9) / 10 })
      overtaken).offers = [] ∧
    ¬ (run (step (fun _ => none)
        { queueCapacity := fun _ => 1,maxHighPriorityStreak := 0,ceilTenth := fun n => (n + 9) / 10 })
      (initialized { queueCapacity := fun _ => 1,maxHighPriorityStreak := 0,ceilTenth := fun n => (n + 9) / 10 })
      overtaken).Matches fun _ => none := by
  refine ⟨by rfl,fun matching => ?_⟩
  have counted := (matching .normal).2 "unknown"
  revert counted
  decide +kernel

end Breakdown
end ApexLs.Queue
