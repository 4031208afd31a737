import ApexLs.Services.DocumentOpenBatcher

/-! Runs of the batcher of opened documents. A run answers every call exactly as long as no
timer ends itself and no promise is rejected. -/
namespace ApexLs.Services.DocumentOpenBatcher

open ApexLs.Collections

variable {ρ : Type}

theorem withoutTask_spec {b : DocumentOpenBatcher ρ} {number : Nat} {task : Task} (found : b.tasks[number]? = some task) :
    ∃ rest, b.withoutTask number = { b with tasks := rest } ∧ (task :: rest).Perm b.tasks := by
  obtain ⟨bound,rfl⟩ := List.getElem?_eq_some_iff.mp found
  exact ⟨_,rfl,List.getElem_cons_eraseIdx_perm bound⟩

theorem Kept.inFlush {b : DocumentOpenBatcher ρ} (kept : Kept b) {origin : Origin} {stage : FlushStage} {rest : List Task}
    (perm : (.flush origin stage :: rest : List Task).Perm b.tasks) :
    (∀ task ∈ rest, task.isFlush = false) ∧ stage.Queue b.pending := by
  refine ⟨fun task member => ?_,kept.queue origin stage (perm.subset List.mem_cons_self)⟩
  have few := kept.single
  rw [← (perm.filter Task.isFlush).length_eq] at few
  have none_ : rest.filter Task.isFlush = [] := by
    rw [List.filter_cons_of_pos (by rfl)] at few
    exact List.length_eq_zero_iff.mp (by simpa using few)
  simpa using List.filter_eq_nil_iff.mp none_ task member

theorem takeBatch_spec (b : DocumentOpenBatcher ρ) (origin : Origin) (items : List OpenItem) :
    ∃ stage, b.takeBatch origin items = { b with pending := [],tasks := b.tasks ++ [.flush origin stage] } ∧
      (Task.flush origin stage).items = items ∧ stage.Queue [] := by
  unfold takeBatch
  split
  next single => exact ⟨.single single,rfl,rfl,rfl⟩
  next => exact ⟨.batch items,rfl,rfl,rfl⟩

theorem flushBatch_cases (b : DocumentOpenBatcher ρ) (origin : Origin) :
    (b.flushBatch origin = b ∧ (b.pending ≠ [] → b.isFlushing = true)) ∨
    (b.isFlushing = false ∧ b.pending ≠ [] ∧ ∃ fiber, origin = .timer fiber ∧ b.timerFiber = some fiber ∧
      b.flushBatch origin = { b.interrupt fiber with isFlushing := true }) ∨
    ∃ sleeping pending stage, b.isFlushing = false ∧
      b.flushBatch origin = { b with
        isFlushing := true
        sleeping := sleeping
        pending := pending
        tasks := b.tasks ++ [.flush origin stage] } ∧
      stage.Queue pending ∧
      ∀ item, pending.count item + (Task.flush origin stage).items.count item = b.pending.count item := by
  unfold flushBatch
  by_cases idle : b.isFlushing = true ∨ b.pending = []
  · exact .inl ⟨if_pos (by simpa using idle),fun waiting => idle.resolve_right waiting⟩
  · obtain ⟨still,waiting⟩ := not_or.mp idle
    have off : b.isFlushing = false := by simpa using still
    rw [if_neg (by simpa using idle)]
    dsimp only
    split
    next =>
      obtain ⟨stage,taken,items,queue⟩ := takeBatch_spec { b with isFlushing := true } origin b.pending
      exact .inr (.inr ⟨b.sleeping,[],stage,off,taken,queue,fun item => by simp [items]⟩)
    next tf timer =>
      by_cases itself : origin = .timer tf
      · exact .inr (.inl ⟨off,waiting,tf,itself,timer,by simp [itself,interrupt]⟩)
      · refine .inr (.inr ⟨b.sleeping.filter (· ≠ tf),b.pending,.interrupting b.pending,off,?_,rfl,fun item => rfl⟩)
        rw [if_neg itself]
        rfl

structure Steady (b : DocumentOpenBatcher ρ) : Prop extends Kept b where
  accounted : ∀ item, b.pending.count item + (b.tasks.flatMap Task.items).count item +
    (b.resolved.map Prod.fst).count item = if item ∈ b.opened then 1 else 0
  own : ∀ answered ∈ b.resolved, answered ∈ b.processed
  flag : b.isFlushing = true ↔ ∃ task ∈ b.tasks, task.isFlush = true
  alive : b.died = []

section

variable {b : DocumentOpenBatcher ρ}

theorem Sound.steady (sound : Sound b) (kept : Kept b) : Steady b :=
  ⟨kept,sound.accounted,sound.own,sound.flag,sound.alive⟩

theorem Steady.sound (steady : Steady b)
    (attended : b.pending ≠ [] → b.isFlushing = true ∨ b.sleeping ≠ [] ∨ .starting ∈ b.tasks ∨ .shuttingDown ∈ b.tasks) :
    Kept b ∧ Sound b :=
  ⟨steady.toKept,steady.accounted,steady.own,steady.flag,steady.alive,attended⟩

theorem Steady.idle (steady : Steady b) (still : b.isFlushing = false) :
    ∀ task ∈ b.tasks, task.isFlush = false := by
  intro task member
  cases flush : task.isFlush with
  | false => rfl
  | true =>
    have busy := steady.flag.mpr ⟨task,member,flush⟩
    rw [still] at busy
    cases busy

theorem flushBatch_steady (steady : Steady b) (origin : Origin)
    (other : ∀ fiber, origin = .timer fiber → b.timerFiber = some fiber → b.isFlushing = false → b.pending = []) :
    Steady (b.flushBatch origin) ∧ ((b.flushBatch origin).pending ≠ [] → (b.flushBatch origin).isFlushing = true) := by
  rcases b.flushBatch_cases origin with ⟨same,waits⟩ | ⟨off,waiting,fiber,itself,timer,_⟩ |
    ⟨sleeping,pending,stage,off,flushed,queue,counts⟩
  · rw [same]
    exact ⟨steady,waits⟩
  · exact absurd (other fiber itself timer off) waiting
  · rw [flushed]
    have others := steady.idle off
    refine ⟨⟨⟨steady.numbered,?_,?_⟩,?_,steady.own,?_,steady.alive⟩,fun _ => rfl⟩
    · have none_ : b.tasks.filter Task.isFlush = [] := List.filter_eq_nil_iff.mpr (by simpa using others)
      have one := List.length_filter_le Task.isFlush [.flush origin stage]
      simpa [none_] using one
    · intro origin' stage' member
      rcases List.mem_append.mp member with before | new
      · exact absurd (others _ before) (by simp [Task.isFlush])
      · obtain ⟨rfl,rfl⟩ : origin' = origin ∧ stage' = stage := by simpa using new
        exact queue
    · intro item
      have all := steady.accounted item
      have split_ := counts item
      simp only [List.flatMap_append,List.flatMap_cons,List.flatMap_nil,List.append_nil,List.count_append]
      omega
    · simp [Task.isFlush]

theorem Steady.suspend (steady : Steady b) {task : Task} (noFlush : task.isFlush = false)
    (empty : task.items = []) (sleeping : List Nat) (timerFiber : Option Nat) (forked : Nat) :
    Steady { b with tasks := b.tasks ++ [task],sleeping := sleeping,timerFiber := timerFiber,forked := forked } := by
  refine ⟨⟨steady.numbered,?_,?_⟩,?_,steady.own,?_,steady.alive⟩
  · simpa [noFlush] using steady.single
  · intro origin stage member
    rcases List.mem_append.mp member with before | new
    · exact steady.queue origin stage before
    · obtain rfl := List.mem_singleton.mp new
      simp [Task.isFlush] at noFlush
  · intro item
    simpa [empty] using steady.accounted item
  · simpa [noFlush] using steady.flag

theorem Steady.timers (steady : Steady b) (sleeping : List Nat) (timerFiber : Option Nat)
    (forked : Nat) : Steady { b with sleeping := sleeping,timerFiber := timerFiber,forked := forked } :=
  ⟨⟨steady.numbered,steady.single,steady.queue⟩,steady.accounted,steady.own,steady.flag,steady.alive⟩

theorem startTimer_sound (steady : Steady b) : Kept b.startTimer ∧ Sound b.startTimer := by
  unfold startTimer
  split
  next => exact (steady.timers _ _ _).sound (fun _ => .inr (.inl (by simp)))
  next existing _ =>
    refine (steady.suspend rfl rfl (b.sleeping.filter (· ≠ existing)) b.timerFiber b.forked).sound (fun _ => ?_)
    exact .inr (.inr (.inl (by simp)))

theorem shutdown_sound (steady : Steady b) : Kept b.shutdown ∧ Sound b.shutdown := by
  unfold shutdown
  split
  next =>
    obtain ⟨flushed,busy⟩ := flushBatch_steady steady .caller (by simp)
    exact flushed.sound (fun waiting => .inl (busy waiting))
  next tf _ =>
    refine (steady.suspend rfl rfl (b.sleeping.filter (· ≠ tf)) b.timerFiber b.forked).sound (fun _ => ?_)
    exact .inr (.inr (.inr (by simp)))

theorem addDocumentOpen_sound (kept : Kept b) (sound : Sound b) (uri : String) :
    Kept (b.addDocumentOpen uri) ∧ Sound (b.addDocumentOpen uri) := by
  have steady := sound.steady kept
  have fresh : (⟨b.opened.length,uri⟩ : OpenItem) ∉ b.opened := by
    intro member
    exact absurd (kept.numbered _ member) (Nat.lt_irrefl _)
  unfold addDocumentOpen
  extract_lets item opened waiting size
  have numbered : ∀ i ∈ b.opened ++ [item], i.call < (b.opened ++ [item]).length := by
    intro i member
    rw [List.length_append,List.length_singleton]
    rcases List.mem_append.mp member with before | new
    · exact Nat.lt_succ_of_lt (kept.numbered i before)
    · obtain rfl := List.mem_singleton.mp new
      exact Nat.lt_succ_self _
  have counted : ∀ i, (if i ∈ b.opened ++ [item] then 1 else 0) =
      (if i ∈ b.opened then 1 else 0) + [item].count i := by
    intro i
    by_cases this_ : i = item
    · subst this_
      simp [fresh,item]
    · simp [this_,Ne.symm this_]
  split
  next busy =>
    -- a call during a flush has its document processed at once
    have busy_ : b.isFlushing = true := busy
    have immediate : Steady (opened.suspend (.immediate item)) := by
      refine ⟨⟨numbered,?_,?_⟩,?_,steady.own,?_,steady.alive⟩
      · simpa [suspend,opened,Task.isFlush] using steady.single
      · intro origin stage member
        rcases List.mem_append.mp member with before | new
        · exact steady.queue origin stage before
        · simp at new
      · intro i
        have all := steady.accounted i
        have one := counted i
        change _ = if i ∈ b.opened ++ [item] then 1 else 0
        simp only [suspend,opened,List.flatMap_append,List.flatMap_cons,List.flatMap_nil,List.count_append,
          List.append_nil,Task.items]
        omega
      · simpa [suspend,opened,Task.isFlush] using steady.flag
    exact immediate.sound (fun _ => .inl busy_)
  next off =>
    have still : b.isFlushing = false := by simpa [opened] using off
    have queued : Steady waiting := by
      refine ⟨⟨numbered,steady.single,?_⟩,?_,steady.own,steady.flag,steady.alive⟩
      · intro origin stage member
        have none_ := steady.idle still _ member
        simp [Task.isFlush] at none_
      · intro i
        have all := steady.accounted i
        have one := counted i
        simp only [waiting,opened,List.count_append]
        omega
    split
    next =>
      obtain ⟨flushed,taken⟩ := flushBatch_steady queued (.add item) (by simp)
      exact flushed.sound (fun waits => .inl (taken waits))
    next few =>
      split
      next => exact startTimer_sound queued
      next more =>
        refine queued.sound (fun _ => sound.attended ?_)
        rintro empty
        have one : size = 1 := by simp [size,waiting,opened,empty]
        exact more ⟨one,by omega⟩

theorem Steady.others (steady : Steady b) {origin : Origin} {stage : FlushStage}
    {rest : List Task} (perm : (.flush origin stage :: rest : List Task).Perm b.tasks) :
    (∀ task ∈ rest, task.isFlush = false) ∧ stage.Queue b.pending ∧ b.isFlushing = true ∧
      ∀ item, b.pending.count item + ((Task.flush origin stage).items.count item + (rest.flatMap Task.items).count item) +
        (b.resolved.map Prod.fst).count item = if item ∈ b.opened then 1 else 0 := by
  obtain ⟨others,queue⟩ := steady.inFlush perm
  refine ⟨others,queue,steady.flag.mpr ⟨_,perm.subset List.mem_cons_self,rfl⟩,fun item => ?_⟩
  rw [← steady.accounted item,← (perm.flatMap_right Task.items).count_eq,List.flatMap_cons,List.count_append]

theorem fallBack_steady (origin : Origin) (left : List OpenItem)
    (numbered : ∀ item ∈ b.opened, item.call < b.opened.length) (others : ∀ task ∈ b.tasks, task.isFlush = false)
    (busy : b.isFlushing = true) (cleared : b.pending = [])
    (accounted : ∀ item, left.count item + (b.tasks.flatMap Task.items).count item +
      (b.resolved.map Prod.fst).count item = if item ∈ b.opened then 1 else 0)
    (own : ∀ answered ∈ b.resolved, answered ∈ b.processed) (alive : b.died = []) :
    Kept (b.fallBack origin left) ∧ Sound (b.fallBack origin left) := by
  have none_ : b.tasks.filter Task.isFlush = [] := List.filter_eq_nil_iff.mpr (by simpa using others)
  cases left with
  | nil =>
    refine ⟨⟨numbered,by simp [fallBack,none_],?_⟩,?_,own,?_,alive,fun waits => absurd cleared waits⟩
    · intro origin' stage member
      exact absurd (others _ member) (by simp [Task.isFlush])
    · intro item
      simpa [fallBack,cleared] using accounted item
    · simp only [fallBack]
      simpa using others
  | cons item rest =>
    refine ⟨⟨numbered,?_,?_⟩,?_,own,?_,alive,fun waits => absurd cleared waits⟩
    · have one := List.length_filter_le Task.isFlush [.flush origin (.fallback item rest)]
      simpa [fallBack,suspend,none_] using one
    · intro origin' stage member
      rcases List.mem_append.mp member with before | new
      · exact absurd (others _ before) (by simp [Task.isFlush])
      · obtain ⟨rfl,rfl⟩ : origin' = origin ∧ stage = .fallback item rest := by simpa using new
        exact cleared
    · intro i
      have all := accounted i
      simp only [fallBack,suspend,cleared,List.flatMap_append,List.flatMap_cons,List.flatMap_nil,List.append_nil,
        List.count_append,List.count_nil,Task.items]
      omega
    · simp [fallBack,suspend,busy,Task.isFlush]

theorem Steady.aside (steady : Steady b) {task : Task} {rest : List Task}
    (perm : (task :: rest).Perm b.tasks) (noFlush : task.isFlush = false) :
    (rest.filter Task.isFlush).length ≤ 1 ∧
      (∀ origin stage, .flush origin stage ∈ rest → stage.Queue b.pending) ∧
      (b.isFlushing = true ↔ ∃ task ∈ rest, task.isFlush = true) ∧
      ∀ item, b.pending.count item + (task.items.count item + (rest.flatMap Task.items).count item) +
        (b.resolved.map Prod.fst).count item = if item ∈ b.opened then 1 else 0 := by
  refine ⟨?_,fun origin stage member => steady.queue origin stage (perm.subset (List.mem_cons_of_mem _ member)),?_,
    fun item => ?_⟩
  · have few := steady.single
    rw [← (perm.filter Task.isFlush).length_eq] at few
    simpa [noFlush] using few
  · rw [steady.flag]
    constructor
    · rintro ⟨flush,member,is_⟩
      rcases List.mem_cons.mp (perm.symm.subset member) with rfl | other
      · rw [noFlush] at is_
        cases is_
      · exact ⟨flush,other,is_⟩
    · rintro ⟨flush,member,is_⟩
      exact ⟨flush,perm.subset (List.mem_cons_of_mem _ member),is_⟩
  · rw [← steady.accounted item,← (perm.flatMap_right Task.items).count_eq,List.flatMap_cons,List.count_append]

theorem resume_sound (kept : Kept b) (sound : Sound b) (number : Nat) :
    Kept (b.step (.resumed number)) ∧ Sound (b.step (.resumed number)) := by
  have steady := sound.steady kept
  simp only [step]
  cases found : b.tasks[number]? with
  | none => exact ⟨kept,sound⟩
  | some task =>
    obtain ⟨rest,aside,perm⟩ := withoutTask_spec found
    simp only [aside]
    have light : task.isFlush = false → task.items = [] → Steady { b with tasks := rest } := by
      intro noFlush empty
      obtain ⟨few,queue,flag,counts⟩ := steady.aside perm noFlush
      exact ⟨⟨kept.numbered,few,queue⟩,fun item => by simpa [empty] using counts item,sound.own,flag,sound.alive⟩
    cases task with
    | flush origin stage =>
      cases stage with
      | interrupting items =>
        obtain ⟨others,queue,busy,counts⟩ := steady.others perm
        obtain ⟨stage,taken,whole,cleared⟩ :=
          takeBatch_spec { b with tasks := rest,timerFiber := none } origin items
        simp only [resume,Option.getD_some,taken]
        have none_ : rest.filter Task.isFlush = [] := List.filter_eq_nil_iff.mpr (by simpa using others)
        refine Steady.sound ⟨⟨kept.numbered,?_,?_⟩,fun item => ?_,sound.own,?_,sound.alive⟩ (fun _ => .inl busy)
        · have one := List.length_filter_le Task.isFlush [.flush origin stage]
          simpa [none_] using one
        · intro origin' stage' member
          rcases List.mem_append.mp member with before | new
          · exact absurd (others _ before) (by simp [Task.isFlush])
          · obtain ⟨rfl,rfl⟩ : origin' = origin ∧ stage' = stage := by simpa using new
            exact cleared
        · have all := counts item
          have pending : b.pending = items := queue
          simp only [pending,Task.items,List.count_nil] at all
          simp only [List.flatMap_append,List.flatMap_cons,List.flatMap_nil,List.append_nil,List.count_append,
            List.count_nil,whole]
          omega
        · simp [busy,Task.isFlush]
      | _ => exact ⟨kept,sound⟩
    | starting =>
      refine ((light rfl rfl).timers _ _ _).sound (fun _ => .inr (.inl ?_))
      simp
    | shuttingDown =>
      obtain ⟨flushed,busy⟩ := flushBatch_steady ((light rfl rfl).timers b.sleeping none b.forked) .caller (by simp)
      exact flushed.sound (fun waiting => .inl (busy waiting))
    | immediate item => exact ⟨kept,sound⟩

end

theorem answers_spec (answered : List (OpenItem × ρ)) : ∀ b : DocumentOpenBatcher ρ,
    answered.foldl (fun b a => b.answer a.1 a.2) b = { b with resolved := b.resolved ++ answered } := by
  induction answered with
  | nil => simp
  | cons a answered ih =>
    intro b
    rw [List.foldl_cons,ih]
    simp [answer]

theorem count_results (items : List OpenItem) (results : List ρ) (item : OpenItem) :
    ((items.zip results).map Prod.fst).count item + (items.drop results.length).count item = items.count item := by
  induction items generalizing results with
  | nil => simp
  | cons first items ih =>
    cases results with
    | nil => simp
    | cons r results =>
      have rest := ih results
      simp only [List.zip_cons_cons,List.map_cons,List.count_cons,List.length_cons,List.drop_succ_cons]
      omega

theorem fallBack_processed (b : DocumentOpenBatcher ρ) (origin : Origin) (left : List OpenItem)
    (processed : List (OpenItem × ρ)) :
    { b.fallBack origin left with processed := processed } = { b with processed := processed }.fallBack origin left := by
  cases left with
  | nil => rfl
  | cons item rest => rfl

section

variable {b : DocumentOpenBatcher ρ} (kept : Kept b) (sound : Sound b)
include kept sound

theorem settle_sound (number : Nat)
    (settlement : Settlement ρ) (delivers : b.Delivers (.settled number settlement)) :
    Kept (b.step (.settled number settlement)) ∧ Sound (b.step (.settled number settlement)) := by
  have steady := sound.steady kept
  simp only [step]
  cases found : b.tasks[number]? with
  | none => exact ⟨kept,sound⟩
  | some task =>
    obtain ⟨rest,aside,perm⟩ := withoutTask_spec found
    simp only [aside]
    have answers : ∀ more, made task settlement = more →
        ∀ answered ∈ b.resolved ++ more, answered ∈ b.processed ++ made task settlement := by
      rintro more rfl answered member
      rcases List.mem_append.mp member with before | new
      · exact List.mem_append_left _ (sound.own answered before)
      · exact List.mem_append_right _ new
    cases settlement with
    | rejected =>
      rw [if_neg (delivers task found)]
      exact ⟨kept,sound⟩
    | result r =>
      cases task with
      | flush origin stage =>
        obtain ⟨others,queue,busy,counts⟩ := steady.others perm
        cases stage with
        | single item =>
          refine @fallBack_steady _ { b with tasks := rest,resolved := b.resolved ++ [(item,r)],processed := _ } origin []
            kept.numbered others busy queue (fun i => ?_) (answers [(item,r)] rfl) sound.alive
          have all := counts i
          simp only [Task.items,show b.pending = [] from queue,List.count_nil] at all
          simp only [List.map_append,List.map_cons,List.map_nil,List.count_append,List.count_nil]
          omega
        | fallback item left =>
          simp only [Awaits,if_true,settle,fallBack_processed]
          refine @fallBack_steady _ { b with tasks := rest,resolved := b.resolved ++ [(item,r)],processed := _ } origin left
            kept.numbered others busy queue (fun i => ?_) (answers [(item,r)] rfl) sound.alive
          have all := counts i
          simp only [Task.items,show b.pending = [] from queue,List.count_nil,List.count_cons] at all
          simp only [List.map_append,List.map_cons,List.map_nil,List.count_append,List.count_cons,List.count_nil]
          omega
        | _ => exact ⟨kept,sound⟩
      | immediate item =>
        obtain ⟨few,queue,flag,counts⟩ := steady.aside perm rfl
        have answered : Steady { b with
            tasks := rest
            resolved := b.resolved ++ [(item,r)]
            processed := b.processed ++ made (.immediate item) (.result r) } := by
          refine ⟨⟨kept.numbered,few,queue⟩,fun i => ?_,answers [(item,r)] rfl,flag,sound.alive⟩
          have all := counts i
          simp only [Task.items] at all
          simp only [List.map_append,List.map_cons,List.map_nil,List.count_append]
          omega
        have others : ∀ other ∈ b.tasks, other.items = [] → other ∈ rest := by
          intro other member empty
          rcases List.mem_cons.mp (perm.symm.subset member) with rfl | there
          · simp [Task.items] at empty
          · exact there
        refine answered.sound (fun waits => ?_)
        rcases sound.attended waits with busy | sleeps | starts | shuts
        · exact .inl busy
        · exact .inr (.inl sleeps)
        · exact .inr (.inr (.inl (others _ starts rfl)))
        · exact .inr (.inr (.inr (others _ shuts rfl)))
      | _ => exact ⟨kept,sound⟩
    | results results =>
      cases task with
      | flush origin stage =>
        obtain ⟨others,queue,busy,counts⟩ := steady.others perm
        cases stage with
        | batch items =>
          simp only [Awaits,if_true,settle,answers_spec,fallBack_processed]
          refine @fallBack_steady _ { b with tasks := rest,resolved := b.resolved ++ items.zip results,processed := _ } origin
            (items.drop results.length) kept.numbered others busy queue (fun i => ?_) (answers (items.zip results) rfl)
            sound.alive
          have all := counts i
          have shared := count_results items results i
          simp only [Task.items,show b.pending = [] from queue,List.count_nil] at all
          simp only [List.map_append,List.count_append]
          omega
        | _ => exact ⟨kept,sound⟩
      | _ => exact ⟨kept,sound⟩

theorem step_sound (e : Event ρ) (delivers : b.Delivers e) :
    Kept (b.step e) ∧ Sound (b.step e) := by
  have steady := sound.steady kept
  cases e with
  | addDocumentOpen uri => exact addDocumentOpen_sound kept sound uri
  | forceFlush =>
    obtain ⟨flushed,busy⟩ := flushBatch_steady steady .caller (by simp)
    exact flushed.sound (fun waiting => .inl (busy waiting))
  | shutdown => exact shutdown_sound steady
  | timer fiber =>
    simp only [step]
    split
    next sleeps =>
      obtain ⟨flushed,busy⟩ := flushBatch_steady
        (steady.timers (b.sleeping.filter (· ≠ fiber)) b.timerFiber b.forked) (.timer fiber) (by
          rintro _ ⟨⟩ current still
          exact delivers sleeps current still)
      exact flushed.sound (fun waiting => .inl (busy waiting))
    next => exact ⟨kept,sound⟩
  | resumed number => exact resume_sound kept sound number
  | settled number settlement => exact settle_sound kept sound number settlement delivers

theorem step_unsound (e : Event ρ)
    (fails : ¬ b.Delivers e) : ¬ Sound (b.step e) := by
  intro next
  have steady := sound.steady kept
  cases e with
  | timer fiber =>
    simp only [Delivers,Classical.not_imp] at fails
    obtain ⟨sleeps,current,still,waiting⟩ := fails
    have itself : b.step (.timer fiber) = { (b.interrupt fiber).interrupt fiber with isFlushing := true } := by
      simp [step,sleeps,flushBatch,interrupt,still,waiting,current]
    rw [itself] at next
    obtain ⟨task,member,flush⟩ := next.flag.mp rfl
    rw [steady.idle still task member] at flush
    cases flush
  | settled number settlement =>
    cases settlement with
    | rejected =>
      simp only [Delivers,not_forall,Decidable.not_not] at fails
      obtain ⟨task,found,awaits⟩ := fails
      obtain ⟨rest,aside,perm⟩ := withoutTask_spec found
      simp only [step,found,awaits,if_true,aside] at next
      cases task with
      | flush origin stage =>
        obtain ⟨others,_,busy,_⟩ := steady.others perm
        have stuck : ∃ task ∈ rest, task.isFlush = true := by
          cases stage with
          | interrupting items => simp [Awaits] at awaits
          | _ => exact next.flag.mp busy
        obtain ⟨task,member,flush⟩ := stuck
        rw [others task member] at flush
        cases flush
      | immediate item =>
        have dead := next.alive
        simp [settle] at dead
      | _ => simp [Awaits] at awaits
    | _ => exact fails trivial
  | _ => exact fails trivial

end

def start (ρ : Type) (batchSizeThreshold maxBatchSize : Nat) : DocumentOpenBatcher ρ :=
  { batchSizeThreshold := batchSizeThreshold,maxBatchSize := maxBatchSize }

/-- A run answers every call from its own document, drops none and leaves the flag right,
exactly when none of its steps is the current timer firing on waiting documents or a rejected
processing promise. -/
theorem answered_along_iff (batchSizeThreshold maxBatchSize : Nat) (events : List (Event ρ)) :
    EveryState step Sound (start ρ batchSizeThreshold maxBatchSize) events ↔
      EveryStep step Delivers (start ρ batchSizeThreshold maxBatchSize) events := by
  refine everyState_iff_everyStep (A := Kept) (fun b e kept sound delivers => (step_sound kept sound e delivers).1)
    (fun b e kept sound => ⟨fun next => ?_,fun delivers => (step_sound kept sound e delivers).2⟩) ?_ ?_
  · by_contra fails
    exact step_unsound kept sound e fails next
  · constructor <;> simp [start]
  · constructor <;> simp [start]

def oneDocument : List (Event String) := [.addDocumentOpen "file:///Foo.cls",.timer 0]

/-- The timer that runs the flush interrupts itself: the document waits on and the flag stays. -/
theorem oneDocument_unanswered : ¬ EveryState step Sound (start String 5 50) oneDocument := by
  intro always
  obtain ⟨task,member,_⟩ := always.last.flag.mp rfl
  cases member

end ApexLs.Services.DocumentOpenBatcher
