import Mathlib.Data.List.Basic
import Mathlib.Data.List.InsertIdx
import ApexLs.Services.DocumentChangeBatcher

/-! The promises that the change batcher hands out and the slots of its processor, with a processor
that may throw when it is called. -/
namespace ApexLs.Services.ChangePromises

open ApexLs.Collections
open DocumentChangeBatcher (Event)

/-- A pending change and the promise that `enqueue` returned for it. -/
structure PendingChange where
  event : ChangeEvent
  promise : Nat
  deriving DecidableEq, Repr

/-- The batcher. Beside its own fields stand the processor calls in progress and all that were
made, the number of promises returned so far and those settled. -/
structure Batcher where
  maxConcurrentParses : Nat
  pending : OrderedMap String PendingChange := .empty
  timers : OrderedSet String := .empty
  running : Nat := 0
  waitQueue : List PendingChange := []
  active : List PendingChange := []
  calls : List PendingChange := []
  made : Nat := 0
  settled : List Nat := []

namespace Batcher

-- What the processor does when it is called is part of a run: its n-th call may throw.
variable (throws : Nat → ChangeEvent → Bool)

def resolve (b : Batcher) (promises : List Nat) : Batcher := { b with settled := b.settled ++ promises }

/-- A stale event gets a promise that is settled already; a superseded change settles its own. -/
def enqueue (b : Batcher) (event : ChangeEvent) : Batcher :=
  let existing := b.pending.get? event.uri
  if existing.any (fun existing => existing.event.version ≥ event.version) then
    { b.resolve [b.made] with made := b.made + 1 }
  else
    let b := b.resolve (existing.toList.map PendingChange.promise)
    { b with
      made := b.made + 1
      pending := b.pending.set event.uri ⟨event,b.made⟩
      timers := b.timers.add event.uri }

/-- The slot is taken first. Where the processor throws there is no promise to give it back;
the flag says that the exception leaves `invoke`. -/
def invoke (b : Batcher) (change : PendingChange) : Batcher × Bool :=
  let taken := { b with running := b.running + 1,calls := b.calls ++ [change] }
  if throws b.calls.length change.event then (taken,true)
  else ({ taken with active := b.active ++ [change] },false)

def flush (b : Batcher) (uri : String) : Batcher × Bool :=
  let pending := b.pending.get? uri
  let b := { b with timers := b.timers.delete uri,pending := b.pending.erase uri }
  match pending with
  | none => (b,false)
  | some change =>
    if b.running < b.maxConcurrentParses then b.invoke throws change
    else ({ b with waitQueue := b.waitQueue ++ [change] },false)

/-- `drainWaitQueue`, with the queue it goes through. An exception ends the loop. -/
def drain (b : Batcher) : List PendingChange → Batcher
  | [] => { b with waitQueue := [] }
  | next :: rest =>
    if b.running < b.maxConcurrentParses then
      let called := { b with waitQueue := rest }.invoke throws next
      if called.2 then called.1 else called.1.drain rest
    else { b with waitQueue := next :: rest }

def settle (b : Batcher) (call : Nat) : Batcher :=
  match b.active[call]? with
  | none => b
  | some ended =>
    let b := b.resolve [ended.promise]
    { b with active := b.active.eraseIdx call,running := b.running - 1 : Batcher }.drain throws b.waitQueue

def flushEach (b : Batcher) : List String → Batcher
  | [] => b
  | uri :: rest =>
    let flushed := b.flush throws uri
    if flushed.2 then flushed.1 else flushed.1.flushEach rest

def flushAll (b : Batcher) : Batcher := b.flushEach throws b.timers.elements

def dispose (b : Batcher) : Batcher :=
  { b.resolve (b.pending.entries.map (fun entry => entry.2.promise) ++ b.waitQueue.map PendingChange.promise) with
    timers := .empty
    pending := .empty
    waitQueue := [] }

def step (b : Batcher) : Event → Batcher
  | .enqueue event => b.enqueue event
  | .timer uri => if uri ∈ b.timers.elements then (b.flush throws uri).1 else b
  | .settled call _ => b.settle throws call
  | .flushAll => b.flushAll throws
  | .dispose => b.dispose

def start (maxConcurrentParses : Nat) : Batcher := { maxConcurrentParses := maxConcurrentParses }

/-- The event of a promise is pending, waits for a slot or is being processed. -/
def Awaiting (b : Batcher) (promise : Nat) : Prop :=
  (∃ uri change, b.pending.get? uri = some change ∧ change.promise = promise) ∨
    ∃ change ∈ b.waitQueue ++ b.active, change.promise = promise

structure Leakless (b : Batcher) : Prop where
  counted : b.running = b.active.length
  bounded : b.running ≤ b.maxConcurrentParses
  promises : ∀ promise < b.made, b.Awaiting promise ∨ promise ∈ b.settled
  idle : b.running < b.maxConcurrentParses → b.waitQueue = []

def thrown (b : Batcher) : List PendingChange :=
  (b.calls.zipIdx.filter (fun call => throws call.2 call.1.event)).map Prod.fst

/-- What every run keeps: a call that threw holds its slot and its promise for good. The changes
in `hand` have just left the map or the queue. -/
structure Accounted (hand : List PendingChange) (b : Batcher) : Prop where
  counted : b.running = b.active.length + (b.thrown throws).length
  bounded : b.running ≤ b.maxConcurrentParses
  promises : ∀ promise < b.made, b.Awaiting promise ∨ promise ∈ b.settled ∨
    ∃ change ∈ hand ++ b.thrown throws, change.promise = promise

def Full (b : Batcher) : Prop := b.waitQueue ≠ [] → b.running = b.maxConcurrentParses

variable {throws}

theorem thrown_invoke (b : Batcher) (change : PendingChange) :
    (b.invoke throws change).1.thrown throws =
      b.thrown throws ++ (if throws b.calls.length change.event then [change] else []) := by
  unfold invoke thrown
  split
  next throwing => simp [List.zipIdx_append,throwing]
  next returning => simp [List.zipIdx_append,returning]

theorem invoke_accounted {b : Batcher} {change : PendingChange} (accounted : Accounted throws [change] b)
    (free : b.running < b.maxConcurrentParses) : Accounted throws [] (b.invoke throws change).1 := by
  have thrown := @thrown_invoke throws b change
  refine ⟨?_,?_,?_⟩
  · rw [thrown]
    unfold invoke
    have counted := accounted.counted
    split
    next => simp only [List.length_append,List.length_singleton]; omega
    next => simp only [List.length_append,List.length_singleton,List.length_nil]; omega
  · unfold invoke
    split
    all_goals exact free
  · intro promise earlier
    have kept : (b.invoke throws change).1.settled = b.settled ∧ (b.invoke throws change).1.made = b.made := by
      unfold invoke
      split <;> exact ⟨rfl,rfl⟩
    rw [kept.2] at earlier
    rw [kept.1,thrown]
    rcases accounted.promises promise earlier with awaiting | settled | ⟨lost,member,named⟩
    · refine .inl (awaiting.imp (fun pending => ?_) fun ⟨waiting,member,named⟩ => ⟨waiting,?_,named⟩)
      · unfold invoke
        split <;> exact pending
      · unfold invoke
        split
        next => exact member
        next =>
          simp only [List.mem_append] at member ⊢
          exact member.imp_right .inl
    · exact .inr (.inl settled)
    · rcases List.mem_append.mp member with called | before
      · obtain rfl := List.mem_singleton.mp called
        by_cases throwing : throws b.calls.length lost.event
        · exact .inr (.inr ⟨lost,by simp [throwing],named⟩)
        · exact .inl (.inr ⟨lost,by simp [invoke,throwing],named⟩)
      · exact .inr (.inr ⟨lost,by simp [before],named⟩)

theorem invoke_frame (b : Batcher) (change : PendingChange) :
    (b.invoke throws change).1.running = b.running + 1 ∧
      (b.invoke throws change).1.waitQueue = b.waitQueue ∧
      (b.invoke throws change).1.maxConcurrentParses = b.maxConcurrentParses := by
  unfold invoke
  split <;> exact ⟨rfl,rfl,rfl⟩

theorem flush_accounted {b : Batcher} (accounted : Accounted throws [] b) (uri : String) :
    Accounted throws [] (b.flush throws uri).1 := by
  have removed : Accounted throws (b.pending.get? uri).toList
      { b with timers := b.timers.delete uri,pending := b.pending.erase uri } := by
    refine ⟨accounted.counted,accounted.bounded,fun promise earlier => ?_⟩
    rcases accounted.promises promise earlier with (⟨other,change,found,named⟩ | waiting) | settled | lost
    · by_cases same : other = uri
      · subst same
        exact .inr (.inr ⟨change,by simp [found],named⟩)
      · exact .inl (.inl ⟨other,change,by simp [same,found],named⟩)
    · exact .inl (.inr waiting)
    · exact .inr (.inl settled)
    · obtain ⟨change,member,named⟩ := lost
      exact .inr (.inr ⟨change,List.mem_append_right _ member,named⟩)
  unfold flush
  cases found : b.pending.get? uri with
  | none =>
    simp only [found,Option.toList_none] at removed
    exact removed
  | some change =>
    simp only [found,Option.toList_some] at removed
    simp only
    split
    next free => exact invoke_accounted removed free
    next taken =>
      refine ⟨removed.counted,removed.bounded,fun promise earlier => ?_⟩
      rcases removed.promises promise earlier with (pending | ⟨waiting,member,named⟩) | settled | ⟨lost,member,named⟩
      · exact .inl (.inl pending)
      · refine .inl (.inr ⟨waiting,?_,named⟩)
        simp only [List.mem_append] at member ⊢
        exact member.imp_left .inl
      · exact .inr (.inl settled)
      · rcases List.mem_append.mp member with moved | before
        · obtain rfl := List.mem_singleton.mp moved
          exact .inl (.inr ⟨lost,by simp,named⟩)
        · exact .inr (.inr ⟨lost,before,named⟩)

theorem flush_full {b : Batcher} (accounted : Accounted throws [] b) (full : b.Full) (uri : String) :
    (b.flush throws uri).1.Full := by
  unfold flush
  cases b.pending.get? uri with
  | none => exact full
  | some change =>
    simp only
    split
    next free =>
      have nothing : b.waitQueue = [] := by
        by_contra waiting
        have taken := full waiting
        exact Nat.ne_of_lt free taken
      intro waiting
      rw [(invoke_frame _ change).2.1] at waiting
      exact absurd nothing waiting
    next taken =>
      have bounded := accounted.bounded
      intro _
      simp only at taken ⊢
      omega

theorem drain_accounted (queue : List PendingChange) : ∀ b : Batcher, b.waitQueue = queue →
    Accounted throws [] b → Accounted throws [] (b.drain throws queue) := by
  induction queue with
  | nil =>
    intro b queued accounted
    have same : b.drain throws [] = b := by rw [drain,← queued]
    rwa [same]
  | cons next rest ih =>
    intro b queued accounted
    have shifted : Accounted throws [next] { b with waitQueue := rest } := by
      refine ⟨accounted.counted,accounted.bounded,fun promise earlier => ?_⟩
      rcases accounted.promises promise earlier with (pending | ⟨waiting,member,named⟩) | settled | ⟨lost,member,named⟩
      · exact .inl (.inl pending)
      · rw [queued] at member
        rcases List.mem_cons.mp member with rfl | behind
        · exact .inr (.inr ⟨waiting,by simp,named⟩)
        · exact .inl (.inr ⟨waiting,behind,named⟩)
      · exact .inr (.inl settled)
      · exact .inr (.inr ⟨lost,List.mem_cons_of_mem _ member,named⟩)
    unfold drain
    split
    next free =>
      have called := invoke_accounted shifted free
      simp only
      split
      next => exact called
      next => exact ih _ (invoke_frame _ next).2.1 called
    next =>
      have same : { b with waitQueue := next :: rest } = b := by rw [← queued]
      rwa [same]

theorem drain_full (queue : List PendingChange) : ∀ b : Batcher, b.running ≤ b.maxConcurrentParses →
    (queue ≠ [] → b.maxConcurrentParses ≤ b.running + 1) → (b.drain throws queue).Full := by
  induction queue with
  | nil => exact fun b _ _ waiting => absurd rfl waiting
  | cons next rest ih =>
    intro b bounded single
    have single := single (List.cons_ne_nil _ _)
    unfold drain
    split
    next free =>
      obtain ⟨running,queued,limit⟩ := @invoke_frame throws { b with waitQueue := rest } next
      simp only at running queued limit ⊢
      split
      next =>
        intro _
        omega
      next => exact ih _ (by omega) (fun _ => by omega)
    next taken =>
      intro _
      simp only at taken ⊢
      omega

section

variable {b : Batcher} (accounted : Accounted throws [] b)
include accounted

theorem settle_accounted (call : Nat) :
    Accounted throws [] (b.settle throws call) := by
  unfold settle
  cases found : b.active[call]? with
  | none => exact accounted
  | some ended =>
    obtain ⟨inProgress,-⟩ := List.getElem?_eq_some_iff.mp found
    refine drain_accounted _ _ rfl ⟨?_,?_,fun promise earlier => ?_⟩
    · have counted := accounted.counted
      have fewer := List.length_eraseIdx_of_lt inProgress
      change b.running - 1 = (b.active.eraseIdx call).length + (b.thrown throws).length
      omega
    · exact Nat.le_trans (Nat.sub_le _ _) accounted.bounded
    · rcases accounted.promises promise earlier with (pending | ⟨change,member,named⟩) | settled | lost
      · exact .inl (.inl pending)
      · rcases List.mem_append.mp member with waiting | active
        · exact .inl (.inr ⟨change,List.mem_append_left _ waiting,named⟩)
        · obtain ⟨i,bound,equal⟩ := List.mem_iff_getElem.mp active
          by_cases same : i = call
          · subst same
            rw [List.getElem?_eq_getElem bound,equal] at found
            obtain rfl := Option.some.inj found
            exact .inr (.inl (by simp [resolve,named]))
          · refine .inl (.inr ⟨change,List.mem_append_right _ ?_,named⟩)
            exact List.mem_eraseIdx_iff_getElem.mpr ⟨i,bound,same,equal⟩
      · exact .inr (.inl (List.mem_append_left _ settled))
      · exact .inr (.inr lost)

theorem settle_full (full : b.Full) (call : Nat) :
    (b.settle throws call).Full := by
  unfold settle
  cases found : b.active[call]? with
  | none => exact full
  | some ended =>
    have bounded := accounted.bounded
    refine drain_full _ _ (Nat.le_trans (Nat.sub_le _ _) bounded) fun waiting => ?_
    have taken := full waiting
    change b.maxConcurrentParses ≤ b.running - 1 + 1
    omega

theorem enqueue_accounted (event : ChangeEvent) :
    Accounted throws [] (b.enqueue event) := by
  unfold enqueue
  simp only
  split
  next stale =>
    refine ⟨accounted.counted,accounted.bounded,fun promise earlier => ?_⟩
    rcases Nat.lt_succ_iff_lt_or_eq.mp earlier with before | rfl
    · rcases accounted.promises promise before with awaiting | settled | lost
      · exact .inl awaiting
      · exact .inr (.inl (List.mem_append_left _ settled))
      · exact .inr (.inr lost)
    · exact .inr (.inl (by simp [resolve]))
  next newer =>
    refine ⟨accounted.counted,accounted.bounded,fun promise earlier => ?_⟩
    rcases Nat.lt_succ_iff_lt_or_eq.mp earlier with before | rfl
    · rcases accounted.promises promise before with (⟨uri,change,found,named⟩ | waiting) | settled | lost
      · by_cases same : uri = event.uri
        · subst same
          exact .inr (.inl (by simp [resolve,found,named]))
        · exact .inl (.inl ⟨uri,change,by simp [resolve,same,found],named⟩)
      · exact .inl (.inr waiting)
      · exact .inr (.inl (List.mem_append_left _ settled))
      · exact .inr (.inr lost)
    · exact .inl (.inl ⟨event.uri,⟨event,b.made⟩,by simp [resolve],rfl⟩)

theorem dispose_accounted : Accounted throws [] b.dispose := by
  refine ⟨accounted.counted,accounted.bounded,fun promise earlier => ?_⟩
  rcases accounted.promises promise earlier with (⟨uri,change,found,rfl⟩ | ⟨change,member,rfl⟩) | settled | lost
  · have entry := OrderedMap.get?_eq_some_iff.mp found
    have resolved := List.mem_map_of_mem (f := fun entry => entry.2.promise) entry
    exact .inr (.inl (by simp only [dispose,resolve,List.mem_append]; exact .inr (.inl resolved)))
  · rcases List.mem_append.mp member with waiting | active
    · have resolved := List.mem_map_of_mem (f := PendingChange.promise) waiting
      exact .inr (.inl (by simp only [dispose,resolve,List.mem_append]; exact .inr (.inr resolved)))
    · exact .inl (.inr ⟨change,active,rfl⟩)
  · exact .inr (.inl (List.mem_append_left _ settled))
  · exact .inr (.inr lost)

end

def Sound (throws : Nat → ChangeEvent → Bool) (b : Batcher) : Prop := Accounted throws [] b ∧ b.Full

theorem flush_sound {b : Batcher} (sound : Sound throws b) (uri : String) : Sound throws (b.flush throws uri).1 :=
  ⟨flush_accounted sound.1 uri,flush_full sound.1 sound.2 uri⟩

theorem flushEach_sound (uris : List String) : ∀ b : Batcher, Sound throws b → Sound throws (b.flushEach throws uris) := by
  induction uris with
  | nil => exact fun b sound => sound
  | cons uri rest ih =>
    intro b sound
    have flushed := flush_sound sound uri
    unfold flushEach
    simp only
    split
    next => exact flushed
    next => exact ih _ flushed

theorem step_sound (b : Batcher) (e : Event) (sound : Sound throws b) : Sound throws (b.step throws e) := by
  cases e with
  | enqueue event =>
    refine ⟨enqueue_accounted sound.1 event,?_⟩
    simp only [step,enqueue]
    split
    all_goals exact sound.2
  | timer uri =>
    simp only [step]
    split
    next => exact flush_sound sound uri
    next => exact sound
  | settled call succeeds => exact ⟨settle_accounted sound.1 call,settle_full sound.1 sound.2 call⟩
  | flushAll => exact flushEach_sound _ b sound
  | dispose => exact ⟨dispose_accounted sound.1,fun waiting => absurd rfl waiting⟩

theorem start_sound (maxConcurrentParses : Nat) : Sound throws (start maxConcurrentParses) := by
  refine ⟨⟨rfl,Nat.zero_le _,fun promise earlier => ?_⟩,fun waiting => absurd rfl waiting⟩
  exact absurd earlier (Nat.not_lt_zero _)

theorem Sound.leakless {b : Batcher} (sound : Sound throws b) : b.Leakless ↔ b.thrown throws = [] := by
  have counted := sound.1.counted
  constructor
  · intro leakless
    have exact_ := leakless.counted
    apply List.length_eq_zero_iff.mp
    omega
  · intro none_
    rw [none_] at counted
    refine ⟨counted,sound.1.bounded,fun promise earlier => ?_,fun free => ?_⟩
    · rcases sound.1.promises promise earlier with awaiting | settled | ⟨change,member,_⟩
      · exact .inl awaiting
      · exact .inr settled
      · simp [none_] at member
    · by_contra waiting
      exact Nat.ne_of_lt free (sound.2 waiting)

/-- Every call that was made gave the batcher a promise. -/
def Returning (throws : Nat → ChangeEvent → Bool) (b : Batcher) : Prop :=
  ∀ (call : Nat) (change : PendingChange), b.calls[call]? = some change → throws call change.event = false

theorem thrown_eq_nil_iff {b : Batcher} : b.thrown throws = [] ↔ b.Returning throws := by
  rw [thrown,List.map_eq_nil_iff,List.filter_eq_nil_iff]
  constructor
  · intro none_ call change found
    simpa using none_ (change,call) (List.mem_zipIdx_iff_getElem?.mpr found)
  · rintro returning ⟨change,call⟩ member
    simp [returning call change (List.mem_zipIdx_iff_getElem?.mp member)]

theorem invoke_calls (b : Batcher) (change : PendingChange) : (b.invoke throws change).1.calls = b.calls ++ [change] := by
  unfold invoke
  split <;> rfl

theorem flush_calls (b : Batcher) (uri : String) : b.calls <+: (b.flush throws uri).1.calls := by
  unfold flush
  cases b.pending.get? uri with
  | none => exact List.prefix_refl _
  | some change =>
    simp only
    split
    next =>
      rw [invoke_calls]
      exact List.prefix_append _ _
    next => exact List.prefix_refl _

theorem drain_calls (queue : List PendingChange) : ∀ b : Batcher, b.calls <+: (b.drain throws queue).calls := by
  induction queue with
  | nil => exact fun b => List.prefix_refl _
  | cons next rest ih =>
    intro b
    unfold drain
    split
    next =>
      have called : b.calls <+: ({ b with waitQueue := rest }.invoke throws next).1.calls := by
        rw [invoke_calls]
        exact List.prefix_append _ _
      simp only
      split
      next => exact called
      next => exact called.trans (ih _)
    next => exact List.prefix_refl _

theorem flushEach_calls (uris : List String) : ∀ b : Batcher, b.calls <+: (b.flushEach throws uris).calls := by
  induction uris with
  | nil => exact fun b => List.prefix_refl _
  | cons uri rest ih =>
    intro b
    have flushed := @flush_calls throws b uri
    unfold flushEach
    simp only
    split
    next => exact flushed
    next => exact flushed.trans (ih _)

theorem step_calls (b : Batcher) (e : Event) : b.calls <+: (b.step throws e).calls := by
  cases e with
  | enqueue event =>
    simp only [step,enqueue]
    split
    all_goals exact List.prefix_refl _
  | timer uri =>
    simp only [step]
    split
    next => exact flush_calls b uri
    next => exact List.prefix_refl _
  | settled call succeeds =>
    simp only [step,settle]
    cases b.active[call]? with
    | none => exact List.prefix_refl _
    | some ended =>
      simp only
      refine List.IsPrefix.trans ?_ (drain_calls _ _)
      exact List.prefix_refl _
  | flushAll => exact flushEach_calls _ b
  | dispose => exact List.prefix_refl _

theorem run_calls (events : List Event) : ∀ b : Batcher, b.calls <+: (run (step throws) b events).calls := by
  induction events with
  | nil => exact fun b => List.prefix_refl _
  | cons e rest ih => exact fun b => (step_calls b e).trans (ih _)

theorem Returning.earlier {b later : Batcher} (grown : b.calls <+: later.calls) (returning : later.Returning throws) :
    b.Returning throws := by
  intro call change found
  apply returning call change
  obtain ⟨rest,equal⟩ := grown
  rw [← equal]
  exact List.getElem?_append_left (List.getElem?_eq_some_iff.mp found).1 ▸ found

/-- The promises and the slots are kept along a run exactly where no call of the run throws. -/
theorem leakless_iff (throws : Nat → ChangeEvent → Bool) (maxConcurrentParses : Nat) (events : List Event) :
    EveryState (step throws) Leakless (start maxConcurrentParses) events ↔
      (run (step throws) (start maxConcurrentParses) events).Returning throws := by
  have sound := everyState_of_step (@step_sound throws) (start_sound maxConcurrentParses) events
  constructor
  · intro leakless
    exact thrown_eq_nil_iff.mp (sound.last.leakless.mp leakless.last)
  · rintro returning front ⟨back,rfl⟩
    apply (sound front (List.prefix_append _ _)).leakless.mpr
    apply thrown_eq_nil_iff.mpr
    rw [run_append] at returning
    exact returning.earlier (run_calls back _)

def firstThrows (call : Nat) (_ : ChangeEvent) : Bool := call == 0

def oneChange : List Event := [.enqueue ⟨"file:///Foo.cls",1⟩,.timer "file:///Foo.cls"]

/-- The slot stays taken with no call in progress and the promise is never settled. -/
theorem throwing_call_leaks :
    (run (step firstThrows) (start 4) oneChange).running = 1 ∧
      (run (step firstThrows) (start 4) oneChange).active = [] ∧
      (run (step firstThrows) (start 4) oneChange).settled = [] ∧
      ¬ EveryState (step firstThrows) Leakless (start 4) oneChange := by
  refine ⟨rfl,rfl,rfl,fun leakless => ?_⟩
  have counted := leakless.last.counted
  exact absurd counted (by decide)

end Batcher
end ApexLs.Services.ChangePromises
