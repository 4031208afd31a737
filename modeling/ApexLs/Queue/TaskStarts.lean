import Mathlib.Data.List.Flatten
import ApexLs.Queue.PriorityScheduler

/-! Which tasks an iteration of the controller starts, told from the state it meets, and what it
leaves in the queues. -/
namespace ApexLs.Queue

namespace Scheduler

def waiting (s : Scheduler) : List QueuedItem :=
  Priority.allPrioritiesWithCritical.flatMap fun p => (s.queues p).entries

def reliefTakes (s : Scheduler) (batch : Nat) : List Priority → Nat → List QueuedItem
  | [],_ => []
  | p :: rest,processed =>
    if !p.lower then s.reliefTakes batch rest processed
    else if batch ≤ processed then []
    else
      let items := ((s.queues p).takeUpTo (batch - processed)).1
      items ++ s.reliefTakes batch rest (processed + items.length)

def startsNext (cfg : Config) (s : Scheduler) (budget : Nat) : List QueuedItem :=
  match s.stage with
  | .scanning =>
    match s.toStart cfg budget with
    | some p => ((s.queues p).takeUpTo 1).1
    | none => []
  | .relieving =>
    if cfg.maxHighPriorityStreak < s.streak then
      s.reliefTakes (s.reliefBatchSize cfg) Priority.allPrioritiesWithCritical.reverse 0
    else []
  | .returned => []

/-- The items, in their order, went from the queues to the forked tasks; nothing else moved. -/
structure Started (s s' : Scheduler) (items : List QueuedItem) : Prop where
  forked : s'.forked.map Task.item = s.forked.map Task.item ++ items
  waiting : (items ++ s'.waiting).Perm s.waiting

variable {s s' s'' : Scheduler}

theorem Started.none (forked : s'.forked = s.forked) (queues : s'.queues = s.queues) : Started s s' [] := by
  refine ⟨by simp [forked],?_⟩
  rw [List.nil_append,Scheduler.waiting,Scheduler.waiting,queues]

theorem Started.trans (first : Started s s' items) (second : Started s' s'' more) : Started s s'' (items ++ more) := by
  constructor
  · rw [second.forked,first.forked,List.append_assoc]
  · rw [List.append_assoc]
    exact (second.waiting.append_left items).trans first.waiting

theorem waiting_setQueue (s : Scheduler) (p : Priority) {q : BoundedQueue}
    (split : items ++ q.entries = (s.queues p).entries) : (items ++ (s.setQueue p q).waiting).Perm s.waiting := by
  rw [List.perm_iff_count]
  intro item
  have counted := congrArg (List.count item) split
  rw [List.count_append] at counted
  cases p <;>
    simp [Scheduler.waiting,setQueue,Priority.allPrioritiesWithCritical,Function.update_apply,List.count_append] <;>
    omega

theorem takeUpTo_split (q : BoundedQueue) (n : Nat) : (q.takeUpTo n).1 ++ (q.takeUpTo n).2.entries = q.entries :=
  List.take_append_drop _ _

theorem foldl_processQueuedItem (s : Scheduler) (p : Priority) (relief : Bool) (items : List QueuedItem) :
    (items.foldl (fun s item => s.processQueuedItem p relief item) s).forked.map Task.item =
        s.forked.map Task.item ++ items ∧
      (items.foldl (fun s item => s.processQueuedItem p relief item) s).queues = s.queues := by
  induction items generalizing s with
  | nil => simp
  | cons item items ih =>
    obtain ⟨forked,queues⟩ := ih (s.processQueuedItem p relief item)
    refine ⟨?_,queues⟩
    rw [List.foldl_cons,forked]
    simp [processQueuedItem]

theorem take_started (s : Scheduler) (p : Priority) (relief : Bool) (n : Nat) :
    Started s ((((s.queues p).takeUpTo n).1.foldl (fun s item => s.processQueuedItem p relief item)
      (s.setQueue p ((s.queues p).takeUpTo n).2))) ((s.queues p).takeUpTo n).1 := by
  obtain ⟨forked,queues⟩ := foldl_processQueuedItem (s.setQueue p ((s.queues p).takeUpTo n).2) p relief
    ((s.queues p).takeUpTo n).1
  refine ⟨forked,?_⟩
  have moved := waiting_setQueue s p (takeUpTo_split (s.queues p) n)
  rw [Scheduler.waiting,queues]
  exact moved

theorem takeUpTo_one (q : BoundedQueue) : (q.takeUpTo 1).1 = [] ∨ ∃ item, (q.takeUpTo 1).1 = [item] := by
  have short : (q.takeUpTo 1).1.length ≤ 1 := by
    simp only [BoundedQueue.takeUpTo,List.length_take]
    omega
  cases taken : (q.takeUpTo 1).1 with
  | nil => exact .inl rfl
  | cons item rest =>
    rw [taken,List.length_cons] at short
    have nothing : rest = [] := List.length_eq_zero_iff.mp (by omega)
    exact .inr ⟨item,by rw [nothing]⟩

theorem scan_started (cfg : Config) (s : Scheduler) (ps : List Priority) (budget : Nat) :
    Started s (s.scan cfg ps budget).1
      (((ps.take budget).find? (s.startable cfg)).elim [] fun p => ((s.queues p).takeUpTo 1).1) := by
  induction ps generalizing budget with
  | nil =>
    rw [List.take_nil]
    exact .none rfl rfl
  | cons p ps ih =>
    cases budget with
    | zero => exact .none rfl rfl
    | succ budget =>
      by_cases skipped : s.skips cfg p
      · have passed : s.startable cfg p = false := by simp [startable,skipped]
        simpa [scan,skipped,passed] using ih budget
      · rcases takeUpTo_one (s.queues p) with nothing | ⟨item,taken⟩
        · have passed : s.startable cfg p = false := by simp [startable,nothing]
          have both : (s.queues p).takeUpTo 1 = ([],((s.queues p).takeUpTo 1).2) := by rw [← nothing]
          rw [scan,if_neg skipped,both]
          simpa [passed] using ih budget
        · have ready : s.startable cfg p = true := by simp [startable,taken,skipped]
          have both : (s.queues p).takeUpTo 1 = ([item],((s.queues p).takeUpTo 1).2) := by rw [← taken]
          have moved := take_started { s with streak := s.streak + 1 } p false 1
          rw [scan,if_neg skipped,both]
          simp only [taken,List.foldl_cons,List.foldl_nil] at moved
          simp only [List.take_succ_cons,List.find?_cons,ready,Option.elim_some,taken]
          exact ⟨moved.forked,moved.waiting⟩

theorem reliefTakes_congr (batch : Nat) (ps : List Priority) (processed : Nat)
    (same : ∀ p ∈ ps, s'.queues p = s.queues p) : s'.reliefTakes batch ps processed = s.reliefTakes batch ps processed := by
  induction ps generalizing processed with
  | nil => rfl
  | cons p ps ih =>
    obtain ⟨here,later⟩ := List.forall_mem_cons.mp same
    simp only [reliefTakes,here,ih _ later]

theorem relieve_started (s : Scheduler) (batch : Nat) (ps : List Priority) (processed : Nat) (distinct : ps.Nodup) :
    Started s (s.relieve batch ps processed) (s.reliefTakes batch ps processed) := by
  induction ps generalizing s processed with
  | nil => exact .none rfl rfl
  | cons p ps ih =>
    obtain ⟨apart,distinct⟩ := List.nodup_cons.mp distinct
    rw [relieve,reliefTakes]
    split
    next => exact ih s processed distinct
    next =>
      split
      next => exact .none rfl rfl
      next =>
        have moved := take_started s p true (batch - processed)
        refine moved.trans ?_
        rw [← reliefTakes_congr (s := s)]
        · exact ih _ _ distinct
        · intro other member
          have different : other ≠ p := by
            rintro rfl
            exact apart member
          obtain ⟨_,queues⟩ := foldl_processQueuedItem (s.setQueue p ((s.queues p).takeUpTo (batch - processed)).2) p true
            ((s.queues p).takeUpTo (batch - processed)).1
          rw [queues]
          simp [setQueue,different]

theorem controllerLoop_started (cfg : Config) (s : Scheduler) (budget : Nat) :
    Started s (s.controllerLoop cfg budget) (s.startsNext cfg budget) := by
  rw [controllerLoop,startsNext]
  cases stage : s.stage with
  | returned => exact .none rfl rfl
  | relieving =>
    simp only [relief]
    split
    next =>
      have moved := relieve_started { s with stage := .scanning,streak := 0 } (s.reliefBatchSize cfg)
        Priority.allPrioritiesWithCritical.reverse 0 (by decide)
      have takes : reliefTakes { s with stage := .scanning,streak := 0 } (s.reliefBatchSize cfg)
          Priority.allPrioritiesWithCritical.reverse 0 =
          s.reliefTakes (s.reliefBatchSize cfg) Priority.allPrioritiesWithCritical.reverse 0 :=
        reliefTakes_congr _ _ _ fun _ _ => rfl
      rw [← takes]
      exact ⟨moved.forked,moved.waiting⟩
    next => exact .none rfl rfl
  | scanning =>
    cases down : s.shutdownSignal with
    | true =>
      simp only [toStart,stage,down,Bool.true_eq_false,and_false,if_false,if_true]
      exact .none rfl rfl
    | false =>
      have moved := scan_started cfg s Priority.allPrioritiesWithCritical budget
      simp only [toStart,stage,down,and_self,if_true,Bool.false_eq_true,if_false,scanPriorities]
      cases found : (Priority.allPrioritiesWithCritical.take budget).find? (s.startable cfg) with
      | none =>
        rw [found,Option.elim_none] at moved
        split
        next => exact ⟨moved.forked,moved.waiting⟩
        next => exact ⟨moved.forked,moved.waiting⟩
      | some p =>
        rw [found,Option.elim_some] at moved
        split
        next => exact ⟨moved.forked,moved.waiting⟩
        next => exact ⟨moved.forked,moved.waiting⟩

theorem waiting_offer (cfg : Config) (s : Scheduler) (p : Priority) (item : QueuedItem) :
    (s.step cfg (.offer p item)).waiting.Perm (item :: s.waiting) := by
  rw [List.perm_iff_count]
  intro other
  cases p <;>
    simp [Scheduler.waiting,step,setQueue,BoundedQueue.offer,Priority.allPrioritiesWithCritical,
      Function.update_apply,List.count_append,List.count_cons] <;>
    omega

theorem waiting_withdraw (cfg : Config) (s : Scheduler) (p : Priority) (i : Nat) :
    (s.step cfg (.withdraw p i)).waiting.Sublist s.waiting := by
  apply List.Sublist.flatMap_right
  intro other _
  by_cases here : other = p
  · subst here
    simp only [step,setQueue,Function.update_self,BoundedQueue.withdraw]
    split
    next => exact List.eraseIdx_sublist _ _
    next => exact List.Sublist.refl _
  · simp [step,setQueue,here]

theorem waiting_of_queues (same : s'.queues = s.queues) : s'.waiting.Sublist s.waiting := by
  rw [Scheduler.waiting,Scheduler.waiting,same]

theorem finished_queues (s : Scheduler) (i : Nat) (outcome : Outcome) : (s.finished i outcome).queues = s.queues := by
  rw [finished]
  split
  next => rfl
  next => cases outcome <;> rfl

theorem handled_queues (s : Scheduler) (i : Nat) : (s.handled i).queues = s.queues := by
  rw [handled]
  split
  next => rfl
  next => rfl

end Scheduler
end ApexLs.Queue
