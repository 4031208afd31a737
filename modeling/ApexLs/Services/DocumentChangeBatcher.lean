import ApexLs.Collections.OrderedMap
import ApexLs.Collections.Runs

/-! The debounced batcher of document changes. Each document has its own timer; when it fires,
the latest change goes to the processor, or waits for one of a bounded number of slots. -/
namespace ApexLs.Services

open ApexLs.Collections

structure ChangeEvent where
  uri : String
  version : Int
  deriving DecidableEq, Repr

/-- The batcher. Beside its own fields stand the processor calls in progress and those that were
made, both oldest first, and what was enqueued, newest first. -/
structure DocumentChangeBatcher where
  maxConcurrentParses : Nat := 4
  pending : OrderedMap String ChangeEvent := .empty
  timers : OrderedSet String := .empty
  running : Nat := 0
  waitQueue : List ChangeEvent := []
  active : List ChangeEvent := []
  passed : List ChangeEvent := []
  enqueued : List ChangeEvent := []
  disposed : Bool := false

namespace DocumentChangeBatcher

/-- A later event replaces the pending one and starts the timer of its document again. -/
def enqueue (b : DocumentChangeBatcher) (event : ChangeEvent) : DocumentChangeBatcher :=
  let b := { b with enqueued := event :: b.enqueued }
  if (b.pending.get? event.uri).any (fun existing => existing.version ≥ event.version) then b
  else { b with pending := b.pending.set event.uri event,timers := b.timers.add event.uri }

def invoke (b : DocumentChangeBatcher) (event : ChangeEvent) : DocumentChangeBatcher :=
  { b with running := b.running + 1,active := b.active ++ [event],passed := b.passed ++ [event] }

def flush (b : DocumentChangeBatcher) (uri : String) : DocumentChangeBatcher :=
  let pending := b.pending.get? uri
  let b := { b with timers := b.timers.delete uri,pending := b.pending.erase uri }
  match pending with
  | none => b
  | some event =>
    if b.running < b.maxConcurrentParses then b.invoke event
    else { b with waitQueue := b.waitQueue ++ [event] }

def drain (b : DocumentChangeBatcher) : List ChangeEvent → DocumentChangeBatcher
  | [] => { b with waitQueue := [] }
  | next :: rest =>
    if b.running < b.maxConcurrentParses then (b.invoke next).drain rest
    else { b with waitQueue := next :: rest }

def drainWaitQueue (b : DocumentChangeBatcher) : DocumentChangeBatcher := b.drain b.waitQueue

/-- The end of a processor call, well or badly, gives its slot back. -/
def settle (b : DocumentChangeBatcher) (call : Nat) : DocumentChangeBatcher :=
  if call < b.active.length then
    { b with active := b.active.eraseIdx call,running := b.running - 1 : DocumentChangeBatcher }.drainWaitQueue
  else b

def flushAll (b : DocumentChangeBatcher) : DocumentChangeBatcher := b.timers.elements.foldl flush b

def dispose (b : DocumentChangeBatcher) : DocumentChangeBatcher :=
  { b with timers := .empty,pending := .empty,waitQueue := [],disposed := true }

inductive Event where
  | enqueue (event : ChangeEvent)
  | timer (uri : String)
  | settled (call : Nat) (succeeds : Bool)
  | flushAll
  | dispose

def step (b : DocumentChangeBatcher) : Event → DocumentChangeBatcher
  | .enqueue event => b.enqueue event
  | .timer uri => if uri ∈ b.timers.elements then b.flush uri else b
  | .settled call _ => b.settle call
  | .flushAll => b.flushAll
  | .dispose => b.dispose

def Increasing (b : DocumentChangeBatcher) : Event → Prop
  | .enqueue event => ∀ earlier ∈ b.enqueued, earlier.uri = event.uri → earlier.version < event.version
  | _ => True

def versions (uri : String) (events : List ChangeEvent) : List Int :=
  (events.filter (fun e => e.uri = uri)).map ChangeEvent.version

def Quiet (b : DocumentChangeBatcher) : Prop := b.timers.elements = [] ∧ b.active = []

def Overlapping (b : DocumentChangeBatcher) : Prop := ∃ uri, 1 < (versions uri b.active).length

structure InOrder (b : DocumentChangeBatcher) : Prop where
  increasing : ∀ uri, (versions uri b.passed).Pairwise (· < ·)
  slots : b.active.length ≤ b.maxConcurrentParses
  alone : b.maxConcurrentParses = 1 → ¬ b.Overlapping
  delivered : b.disposed = false → b.Quiet → ∀ uri,
    (versions uri b.passed).getLast? = (versions uri b.enqueued).head?

/-- The versions of a document the processor has seen and those still on their way to it. -/
def line (b : DocumentChangeBatcher) (uri : String) : List Int :=
  versions uri (b.passed ++ b.waitQueue ++ (b.pending.get? uri).toList)

/-- What every run keeps: the line of each document is in order and ends with what was enqueued
last, and changes wait only while every slot is taken. -/
structure Lined (b : DocumentChangeBatcher) : Prop where
  line : ∀ uri, (b.line uri).Pairwise (· < ·)
  known : ∀ e ∈ b.passed ++ b.waitQueue, e ∈ b.enqueued
  pending : ∀ uri e, b.pending.get? uri = some e → e.uri = uri ∧ e ∈ b.enqueued
  armed : ∀ uri e, b.pending.get? uri = some e → uri ∈ b.timers
  counted : b.running = b.active.length
  bounded : b.running ≤ b.maxConcurrentParses
  full : b.waitQueue ≠ [] → b.running = b.maxConcurrentParses
  latest : b.disposed = false → ∀ uri, (b.line uri).getLast? = (versions uri b.enqueued).head?

theorem versions_append (uri : String) (first second : List ChangeEvent) :
    versions uri (first ++ second) = versions uri first ++ versions uri second := by
  simp [versions]

theorem versions_cons_other {uri : String} {e : ChangeEvent} (other : e.uri ≠ uri) (events : List ChangeEvent) :
    versions uri (e :: events) = versions uri events := by
  simp [versions,other]

theorem mem_versions {uri : String} {events : List ChangeEvent} {v : Int} :
    v ∈ versions uri events ↔ ∃ e ∈ events, e.uri = uri ∧ e.version = v := by
  simp [versions,and_assoc]

theorem drain_spec (queue : List ChangeEvent) : ∀ b : DocumentChangeBatcher, b.running = b.active.length →
    b.running ≤ b.maxConcurrentParses →
    ∃ started rest, queue = started ++ rest ∧
      b.drain queue = { b with
        running := b.running + started.length
        active := b.active ++ started
        passed := b.passed ++ started
        waitQueue := rest } ∧
      b.running + started.length ≤ b.maxConcurrentParses ∧
      (rest ≠ [] → b.running + started.length = b.maxConcurrentParses) := by
  induction queue with
  | nil =>
    intro b _ bounded
    exact ⟨[],[],rfl,by simp [drain],by simpa using bounded,by simp⟩
  | cons next rest ih =>
    intro b counted bounded
    unfold drain
    split
    next free =>
      obtain ⟨started,rest',parts,drained,bound,full⟩ := ih (b.invoke next) (by simp [invoke,counted]) free
      refine ⟨next :: started,rest',by simp [parts],?_,?_,?_⟩
      · rw [drained]
        simp [invoke,Nat.add_comm,Nat.add_left_comm]
      · simp only [invoke] at bound
        simp only [List.length_cons]
        omega
      · intro left
        have reached := full left
        simp only [invoke] at reached
        simp only [List.length_cons]
        omega
    next taken =>
      refine ⟨[],next :: rest,rfl,by simp,by simpa using bounded,fun _ => ?_⟩
      simp only [List.length_nil]
      omega

section

variable {b : DocumentChangeBatcher} (lined : Lined b)
include lined

theorem enqueue_lined {event : ChangeEvent}
    (newer : b.Increasing (.enqueue event)) : Lined (b.enqueue event) := by
  have fresh : (b.pending.get? event.uri).any (fun existing => existing.version ≥ event.version) = false := by
    rw [Option.any_eq_false_iff_get]
    intro there
    obtain ⟨same,known⟩ := lined.pending event.uri ((b.pending.get? event.uri).get there) (Option.some_get there).symm
    have before := newer _ known same
    simpa using before
  have next : b.enqueue event = { b with
      enqueued := event :: b.enqueued
      pending := b.pending.set event.uri event
      timers := b.timers.add event.uri } := by
    simp [enqueue,fresh]
  have line : ∀ uri, (b.enqueue event).line uri =
      if uri = event.uri then versions uri (b.passed ++ b.waitQueue) ++ [event.version] else b.line uri := by
    intro uri
    rw [next]
    simp only [DocumentChangeBatcher.line,OrderedMap.get?_set]
    split
    next same => simp [versions,same]
    next => rfl
  refine ⟨?_,?_,?_,?_,?_,?_,?_,?_⟩
  · intro uri
    rw [line]
    split
    next same =>
      subst same
      have sorted := lined.line event.uri
      rw [DocumentChangeBatcher.line,versions_append] at sorted
      refine List.pairwise_append.mpr ⟨(List.pairwise_append.mp sorted).1,by simp,?_⟩
      intro v member w last
      obtain rfl := List.mem_singleton.mp last
      obtain ⟨e,held,same,rfl⟩ := mem_versions.mp member
      exact newer e (lined.known e held) same
    next => exact lined.line uri
  · rw [next]
    exact fun e member => List.mem_cons_of_mem _ (lined.known e member)
  · rw [next]
    intro uri e found
    simp only [OrderedMap.get?_set] at found
    split at found
    next same =>
      obtain rfl := Option.some.inj found
      exact ⟨same.symm,List.mem_cons_self⟩
    next =>
      obtain ⟨named,known⟩ := lined.pending uri e found
      exact ⟨named,List.mem_cons_of_mem _ known⟩
  · rw [next]
    intro uri e found
    simp only [OrderedMap.get?_set] at found
    split at found
    next same => exact OrderedSet.mem_add.mpr (.inr same)
    next => exact OrderedSet.mem_add.mpr (.inl (lined.armed uri e found))
  · rw [next]
    exact lined.counted
  · rw [next]
    exact lined.bounded
  · rw [next]
    exact lined.full
  · intro kept uri
    rw [line]
    have open_ : b.disposed = false := by rwa [next] at kept
    split
    next same =>
      rw [next]
      simp [versions,same]
    next other =>
      rw [next,lined.latest open_,versions_cons_other (fun same => other same.symm)]

theorem flush_spec (uri : String) :
    ∃ running active passed waitQueue,
      b.flush uri = { b with
        timers := b.timers.delete uri
        pending := b.pending.erase uri
        running := running
        active := active
        passed := passed
        waitQueue := waitQueue } ∧
      passed ++ waitQueue = b.passed ++ b.waitQueue ++ (b.pending.get? uri).toList ∧
      running = active.length ∧ running ≤ b.maxConcurrentParses ∧
      (waitQueue ≠ [] → running = b.maxConcurrentParses) := by
  unfold flush
  cases found : b.pending.get? uri with
  | none => exact ⟨_,_,_,_,rfl,by simp,lined.counted,lined.bounded,lined.full⟩
  | some event =>
    by_cases free : b.running < b.maxConcurrentParses
    · have nothing : b.waitQueue = [] := by
        by_contra waiting
        have taken := lined.full waiting
        omega
      refine ⟨b.running + 1,b.active ++ [event],b.passed ++ [event],[],?_,by simp [nothing],?_,free,by simp⟩
      · simp [free,invoke,nothing]
      · simp [lined.counted]
    · refine ⟨b.running,b.active,b.passed,b.waitQueue ++ [event],by simp [free],by simp,lined.counted,lined.bounded,?_⟩
      have bounded := lined.bounded
      omega

theorem flush_lined (uri : String) : Lined (b.flush uri) := by
  obtain ⟨running,active,passed,waitQueue,flushed,moved,counted,bounded,full⟩ := flush_spec lined uri
  have line : ∀ other, (b.flush uri).line other = b.line other := by
    intro other
    rw [flushed]
    simp only [DocumentChangeBatcher.line,moved,OrderedMap.get?_erase]
    split
    next same => simp [same]
    next apart =>
      have nothing : versions other (b.pending.get? uri).toList = [] := by
        cases found : b.pending.get? uri with
        | none => rfl
        | some e => exact versions_cons_other (fun same => apart (same.symm.trans (lined.pending uri e found).1)) []
      simp [versions_append,nothing]
  refine ⟨fun other => (line other).symm ▸ lined.line other,?_,?_,?_,?_,?_,?_,fun kept other => ?_⟩
  · rw [flushed]
    intro e member
    rw [moved] at member
    rcases List.mem_append.mp member with before | pending
    · exact lined.known e before
    · exact (lined.pending uri e (Option.mem_toList.mp pending)).2
  · rw [flushed]
    intro other e found
    simp only [OrderedMap.get?_erase] at found
    split at found
    next => simp at found
    next => exact lined.pending other e found
  · rw [flushed]
    intro other e found
    simp only [OrderedMap.get?_erase] at found
    split at found
    next => simp at found
    next apart => exact OrderedSet.mem_delete.mpr ⟨lined.armed other e found,apart⟩
  · rw [flushed]
    exact counted
  · rw [flushed]
    exact bounded
  · rw [flushed]
    exact full
  · rw [line]
    rw [flushed] at kept ⊢
    exact lined.latest kept other

theorem settle_lined (call : Nat) : Lined (b.settle call) := by
  unfold settle
  split
  next inProgress =>
    have counted : b.running - 1 = (b.active.eraseIdx call).length := by
      rw [List.length_eraseIdx_of_lt inProgress,lined.counted]
    obtain ⟨started,rest,parts,drained,bound,full⟩ := drain_spec b.waitQueue
      { b with active := b.active.eraseIdx call,running := b.running - 1 } counted
      (by have bounded := lined.bounded; simp only; omega)
    have all : b.passed ++ started ++ rest = b.passed ++ b.waitQueue := by rw [parts,List.append_assoc]
    simp only [drainWaitQueue,drained]
    refine ⟨fun uri => ?_,?_,lined.pending,lined.armed,?_,bound,full,fun kept uri => ?_⟩
    · simp only [DocumentChangeBatcher.line,all]
      exact lined.line uri
    · simp only [all]
      exact lined.known
    · simp [counted]
    · simp only [DocumentChangeBatcher.line,all]
      exact lined.latest kept uri
  next => exact lined

theorem dispose_lined : Lined b.dispose where
  line uri := by
    have sorted := lined.line uri
    rw [DocumentChangeBatcher.line,versions_append,versions_append] at sorted
    simpa [DocumentChangeBatcher.line,dispose] using
      (List.pairwise_append.mp (List.pairwise_append.mp sorted).1).1
  known e member := lined.known e (List.mem_append_left _ (by simpa [dispose] using member))
  pending uri e found := by simp [dispose] at found
  armed uri e found := by simp [dispose] at found
  counted := lined.counted
  bounded := lined.bounded
  full waiting := absurd rfl waiting
  latest kept := by simp [dispose] at kept

theorem step_lined (e : Event) (increasing : b.Increasing e) :
    Lined (b.step e) := by
  cases e with
  | enqueue event => exact enqueue_lined lined increasing
  | timer uri =>
    simp only [step]
    split
    next => exact flush_lined lined uri
    next => exact lined
  | settled call succeeds => exact settle_lined lined call
  | flushAll =>
    simp only [step,flushAll]
    generalize b.timers.elements = uris
    induction uris generalizing b with
    | nil => exact lined
    | cons uri uris ih => exact ih (flush_lined lined uri) trivial
  | dispose => exact dispose_lined lined

theorem Lined.inOrder (positive : 0 < b.maxConcurrentParses) :
    InOrder b where
  increasing uri := by
    have sorted := lined.line uri
    rw [DocumentChangeBatcher.line,versions_append,versions_append] at sorted
    exact (List.pairwise_append.mp (List.pairwise_append.mp sorted).1).1
  slots := lined.counted ▸ lined.bounded
  alone single := by
    rintro ⟨uri,both⟩
    have few := lined.bounded
    rw [lined.counted,single] at few
    have fewer : (versions uri b.active).length ≤ b.active.length := by
      simpa [versions] using List.length_filter_le (fun e : ChangeEvent => e.uri = uri) b.active
    omega
  delivered kept quiet uri := by
    have waiting : b.waitQueue = [] := by
      by_contra some_
      have taken := lined.full some_
      rw [lined.counted,quiet.2] at taken
      exact absurd taken (Nat.ne_of_lt positive)
    have settled : b.pending.get? uri = none := by
      cases found : b.pending.get? uri with
      | none => rfl
      | some e =>
        have armed := lined.armed uri e found
        rw [← OrderedSet.mem_elements,quiet.1] at armed
        cases armed
    have last := lined.latest kept uri
    simpa [DocumentChangeBatcher.line,waiting,settled] using last

end

def start (maxConcurrentParses : Nat) : DocumentChangeBatcher := { maxConcurrentParses := maxConcurrentParses }

theorem drain_limit (queue : List ChangeEvent) : ∀ b : DocumentChangeBatcher,
    (b.drain queue).maxConcurrentParses = b.maxConcurrentParses := by
  induction queue with
  | nil => exact fun _ => rfl
  | cons next rest ih =>
    intro b
    unfold drain
    split
    next => exact ih (b.invoke next)
    next => rfl

theorem flush_limit (b : DocumentChangeBatcher) (uri : String) :
    (b.flush uri).maxConcurrentParses = b.maxConcurrentParses := by
  unfold flush
  cases b.pending.get? uri with
  | none => rfl
  | some event =>
    simp only
    split
    all_goals rfl

theorem step_limit (b : DocumentChangeBatcher) (e : Event) : (b.step e).maxConcurrentParses = b.maxConcurrentParses := by
  cases e with
  | enqueue event =>
    simp only [step,enqueue]
    split
    all_goals rfl
  | timer uri =>
    simp only [step]
    split
    next => exact flush_limit b uri
    next => rfl
  | settled call succeeds =>
    simp only [step,settle,drainWaitQueue]
    split
    next => exact drain_limit _ _
    next => rfl
  | flushAll =>
    simp only [step,flushAll]
    generalize b.timers.elements = uris
    induction uris generalizing b with
    | nil => rfl
    | cons uri uris ih => exact (ih (b.flush uri)).trans (flush_limit b uri)
  | dispose => rfl

/-- Two versions of a document; the timer fires for the second while the first is processed. -/
def secondWhileFirst : List Event :=
  [.enqueue ⟨"file:///Foo.cls",1⟩,.timer "file:///Foo.cls",.enqueue ⟨"file:///Foo.cls",2⟩,.timer "file:///Foo.cls"]

theorem secondWhileFirst_increasing : EveryStep step Increasing (start 4) secondWhileFirst := by
  refine ⟨by simp [Increasing,start],trivial,?_,trivial,trivial⟩
  intro earlier member _
  obtain rfl := List.mem_singleton.mp (show earlier ∈ [⟨"file:///Foo.cls",1⟩] from member)
  decide

end DocumentChangeBatcher
end ApexLs.Services
