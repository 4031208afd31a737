import ApexLs.Queue.TaskStarts

/-! What the controller takes from each queue: tasks from its front, each started once, while the tasks that it leaves keep
their order. -/
namespace ApexLs.Queue
namespace Scheduler

variable {s s' s'' : Scheduler}

/-- The tasks were started, each from the front of the queue of its priority; nothing else left a queue. -/
structure Taken (s s' : Scheduler) (tasks : List Task) : Prop where
  forked : s'.forked = s.forked ++ tasks
  queues : ∀ p, (tasks.filter (·.priority = p)).map Task.item ++ (s'.queues p).entries = (s.queues p).entries
  capacity : ∀ p, (s'.queues p).capacity = (s.queues p).capacity

theorem Taken.none (forked : s'.forked = s.forked) (queues : s'.queues = s.queues) : Taken s s' [] := by
  refine ⟨by simp [forked],fun p => ?_,fun p => by rw [queues]⟩
  rw [queues]
  rfl

theorem Taken.trans (first : Taken s s' tasks) (second : Taken s' s'' more) : Taken s s'' (tasks ++ more) := by
  constructor
  · rw [second.forked,first.forked,List.append_assoc]
  · intro p
    rw [List.filter_append,List.map_append,List.append_assoc,second.queues,first.queues]
  · exact fun p => (second.capacity p).trans (first.capacity p)

theorem Taken.of_eq {r r' : Scheduler} (taken : Taken s s' tasks) (forked : r.forked = s.forked)
    (queues : r.queues = s.queues) (forked' : r'.forked = s'.forked) (queues' : r'.queues = s'.queues) :
    Taken r r' tasks := by
  constructor
  · rw [forked',forked,taken.forked]
  · rw [queues,queues']
    exact taken.queues
  · rw [queues,queues']
    exact taken.capacity

def tasksOf (p : Priority) (items : List QueuedItem) : List Task := items.map (⟨·,p⟩)

theorem filter_tasksOf (p q : Priority) (items : List QueuedItem) :
    ((tasksOf p items).filter (·.priority = q)).map Task.item = if q = p then items else [] := by
  induction items with
  | nil => simp [tasksOf]
  | cons item items ih =>
    by_cases same : q = p
    · simp_all [tasksOf]
    · have apart : p ≠ q := Ne.symm same
      simp_all [tasksOf]

theorem foldl_forked (s : Scheduler) (p : Priority) (relief : Bool) (items : List QueuedItem) :
    (items.foldl (fun s item => s.processQueuedItem p relief item) s).forked = s.forked ++ tasksOf p items := by
  induction items generalizing s with
  | nil => simp [tasksOf]
  | cons item items ih =>
    rw [List.foldl_cons,ih]
    simp [processQueuedItem,tasksOf]

theorem take_taken (s : Scheduler) (p : Priority) (relief : Bool) (n : Nat) :
    Taken s (((s.queues p).takeUpTo n).1.foldl (fun s item => s.processQueuedItem p relief item)
      (s.setQueue p ((s.queues p).takeUpTo n).2)) (tasksOf p ((s.queues p).takeUpTo n).1) := by
  have queues := (foldl_processQueuedItem (s.setQueue p ((s.queues p).takeUpTo n).2) p relief
    ((s.queues p).takeUpTo n).1).2
  constructor
  · exact foldl_forked _ p relief _
  · intro q
    rw [queues,filter_tasksOf]
    by_cases same : q = p
    · subst same
      simp only [setQueue,Function.update_self,if_true]
      exact takeUpTo_split _ n
    · simp [setQueue,same]
  · intro q
    rw [queues]
    by_cases same : q = p
    · subst same
      simp [setQueue,BoundedQueue.takeUpTo]
    · simp [setQueue,same]

theorem scan_taken (cfg : Config) (s : Scheduler) (ps : List Priority) (budget : Nat) :
    ∃ tasks, Taken s (s.scan cfg ps budget).1 tasks := by
  induction ps generalizing budget with
  | nil => exact ⟨[],.none rfl rfl⟩
  | cons p ps ih =>
    cases budget with
    | zero => exact ⟨[],.none rfl rfl⟩
    | succ budget =>
      rw [scan]
      by_cases skipped : s.skips cfg p
      · rw [if_pos skipped]
        exact ih budget
      · rw [if_neg skipped]
        rcases takeUpTo_one (s.queues p) with nothing | ⟨item,taken⟩
        · have both : (s.queues p).takeUpTo 1 = ([],((s.queues p).takeUpTo 1).2) := by rw [← nothing]
          rw [both]
          exact ih budget
        · have both : (s.queues p).takeUpTo 1 = ([item],((s.queues p).takeUpTo 1).2) := by rw [← taken]
          have moved := take_taken { s with streak := s.streak + 1 } p false 1
          rw [both]
          exact ⟨_,(taken ▸ moved).of_eq rfl rfl rfl rfl⟩

def admittedLower (s : Scheduler) (ps : List Priority) : Nat :=
  ((ps.filter Priority.lower).map fun p => min (s.queues p).size (s.queues p).capacity).sum

theorem admittedLower_congr (same : ∀ p ∈ ps, s'.queues p = s.queues p) : s'.admittedLower ps = s.admittedLower ps := by
  rw [admittedLower,admittedLower]
  congr 1
  refine List.map_congr_left fun p member => ?_
  rw [same p (List.mem_filter.mp member).1]

theorem relieve_taken (s : Scheduler) (batch : Nat) (ps : List Priority) (processed : Nat) (distinct : ps.Nodup) :
    ∃ tasks, Taken s (s.relieve batch ps processed) tasks ∧ (∀ task ∈ tasks, task.priority.lower = true) ∧
      tasks.length = min (batch - processed) (s.admittedLower ps) := by
  induction ps generalizing s processed with
  | nil => exact ⟨[],.none rfl rfl,fun task member => absurd member List.not_mem_nil,by simp [admittedLower]⟩
  | cons p ps ih =>
    obtain ⟨apart,distinct⟩ := List.nodup_cons.mp distinct
    rw [relieve]
    by_cases lower : p.lower = true
    · simp only [lower,Bool.not_true,Bool.false_eq_true,if_false]
      split
      next full =>
        exact ⟨[],.none rfl rfl,fun task member => absurd member List.not_mem_nil,by simp [Nat.sub_eq_zero_of_le full]⟩
      next =>
        have moved := take_taken s p true (batch - processed)
        have queues := (foldl_processQueuedItem (s.setQueue p ((s.queues p).takeUpTo (batch - processed)).2) p true
          ((s.queues p).takeUpTo (batch - processed)).1).2
        obtain ⟨tasks,rest,lowers,length⟩ := ih (((s.queues p).takeUpTo (batch - processed)).1.foldl
          (fun s item => s.processQueuedItem p true item)
          (s.setQueue p ((s.queues p).takeUpTo (batch - processed)).2))
          (processed + ((s.queues p).takeUpTo (batch - processed)).1.length) distinct
        refine ⟨_,moved.trans rest,fun task member => ?_,?_⟩
        · rcases List.mem_append.mp member with here | later
          · obtain ⟨item,_,rfl⟩ := List.mem_map.mp here
            exact lower
          · exact lowers task later
        · have others : admittedLower _ ps = s.admittedLower ps := admittedLower_congr fun q member => by
            have different : q ≠ p := by
              rintro rfl
              exact apart member
            rw [queues]
            simp [setQueue,different]
          have count : ((s.queues p).takeUpTo (batch - processed)).1.length =
              min (min (batch - processed) (s.queues p).capacity) (s.queues p).size := List.length_take
          have all : s.admittedLower (p :: ps) = min (s.queues p).size (s.queues p).capacity + s.admittedLower ps := by
            simp [admittedLower,lower]
          rw [List.length_append,length,others,all,tasksOf,List.length_map,count]
          omega
    · have same : s.admittedLower (p :: ps) = s.admittedLower ps := by simp [admittedLower,lower]
      rw [same]
      simp only [lower,Bool.not_false,if_true]
      exact ih s processed distinct

theorem controllerLoop_taken (cfg : Config) (s : Scheduler) (budget : Nat) :
    ∃ tasks, Taken s (s.controllerLoop cfg budget) tasks := by
  rw [controllerLoop]
  cases s.stage with
  | returned => exact ⟨[],.none rfl rfl⟩
  | relieving =>
    simp only [relief]
    split
    next =>
      obtain ⟨tasks,taken,_⟩ := relieve_taken { s with stage := .scanning,streak := 0 } (s.reliefBatchSize cfg)
        Priority.allPrioritiesWithCritical.reverse 0 (by decide)
      exact ⟨tasks,taken.of_eq rfl rfl rfl rfl⟩
    next => exact ⟨[],.none rfl rfl⟩
  | scanning =>
    cases s.shutdownSignal with
    | true => exact ⟨[],.none rfl rfl⟩
    | false =>
      obtain ⟨tasks,taken⟩ := scan_taken cfg s Priority.allPrioritiesWithCritical budget
      simp only [Bool.false_eq_true,if_false,scanPriorities]
      split
      next => exact ⟨tasks,taken.of_eq rfl rfl rfl rfl⟩
      next => exact ⟨tasks,taken.of_eq rfl rfl rfl rfl⟩

end Scheduler
end ApexLs.Queue
