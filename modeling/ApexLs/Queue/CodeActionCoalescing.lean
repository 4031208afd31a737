import Mathlib.Data.List.Chain
import ApexLs.Collections.OrderedMap
import ApexLs.Collections.Runs
import ApexLs.Queue.PriorityScheduler

/-! The debounce window of code-action requests. A call waits in the window of its URI until its
timer fires; a newer call for the URI, its token or a shutdown ends the wait before. -/
namespace ApexLs.Queue.CodeActions

open ApexLs.Collections

/-- How the debounce promise of a call ended: `rejected` is with `RequestCancelledError`. -/
inductive Settlement where
  | resolved
  | rejected
  deriving DecidableEq, Repr

inductive Timer where
  | armed
  | fired
  | cleared
  deriving DecidableEq, Repr

/-- A call of `submitCodeActionRequest`. The token is known by its `isCancellationRequested`. -/
structure Request (π : Type) where
  uri : Option String
  params : π
  token : Option Bool

/-- `if (!uri)`: neither an absent URI nor an empty one is a key. -/
def Request.key (r : Request π) : Option String := r.uri.filter (fun uri => uri ≠ "")

structure Call (π : Type) where
  uri : String
  params : π
  token : Bool
  settled : Option Settlement := none
  timer : Timer := .armed
  subscribed : Bool
  continued : Bool := false

/-- A call of `submitRequest('codeAction', …)`, with the call of the window it continues. -/
structure Submission (π : Type) where
  call : Option Nat
  params : π
  priority : Priority := .low

/-- The manager. Beside its own fields stand every call that entered a window, every `resolve` and
`reject`, what was handed to `submitRequest` and the calls that rejected. -/
structure LSPQueueManager (π : Type) where
  pendingCodeActions : OrderedMap String Nat := .empty
  isShutdown : Bool := false
  calls : List (Call π) := []
  settlements : List (Nat × Settlement) := []
  submitted : List (Submission π) := []
  cancelled : List Nat := []

namespace LSPQueueManager

def clearTimeout : Timer → Timer
  | .armed => .cleared
  | timer => timer

/-- `finish` of a call: only the first time, and only its own slot is deleted. -/
def finish (m : LSPQueueManager π) (i : Nat) (how : Settlement) : LSPQueueManager π :=
  match m.calls[i]? with
  | none => m
  | some call =>
    if call.settled.isSome then m
    else { m with
      calls := m.calls.set i
        { call with settled := some how,timer := clearTimeout call.timer,subscribed := false }
      pendingCodeActions :=
        if m.pendingCodeActions.get? call.uri = some i then m.pendingCodeActions.erase call.uri
        else m.pendingCodeActions
      settlements := m.settlements ++ [(i,how)] }

def supersede (m : LSPQueueManager π) (i : Nat) : LSPQueueManager π := m.finish i .rejected

/-- `submitCodeActionRequest` up to its first `await`, which nothing interrupts. -/
def submitCodeActionRequest (m : LSPQueueManager π) (r : Request π) : LSPQueueManager π :=
  match r.key with
  | none => { m with submitted := m.submitted ++ [{ call := none,params := r.params }] }
  | some uri =>
    let m := ((m.pendingCodeActions.get? uri).map m.supersede).getD m
    let i := m.calls.length
    let m := { m with
      pendingCodeActions := m.pendingCodeActions.set uri i
      calls := m.calls ++
        [{ uri := uri,params := r.params,token := r.token.isSome,subscribed := r.token.isSome }] }
    if r.token = some true then m.finish i .rejected else m

def fire (m : LSPQueueManager π) (i : Nat) : LSPQueueManager π :=
  match m.calls[i]? with
  | none => m
  | some call =>
    if call.timer = .armed then
      { m with calls := m.calls.set i { call with timer := .fired } : LSPQueueManager π }.finish i .resolved
    else m

/-- A cancellation reaches the listener of a call, even one on its way when the call disposed of it. -/
def cancel (m : LSPQueueManager π) (i : Nat) : LSPQueueManager π :=
  match m.calls[i]? with
  | none => m
  | some call => if call.token then m.finish i .rejected else m

def shutdown (m : LSPQueueManager π) : LSPQueueManager π :=
  if m.isShutdown then m
  else (m.pendingCodeActions.entries.map Prod.snd).foldl supersede { m with isShutdown := true }

def resume (m : LSPQueueManager π) (i : Nat) : LSPQueueManager π :=
  match m.calls[i]? with
  | none => m
  | some call =>
    if call.continued then m
    else
      let continued := { m with calls := m.calls.set i { call with continued := true } }
      match call.settled with
      | none => m
      | some .resolved =>
        { continued with submitted := m.submitted ++ [{ call := some i,params := call.params }] }
      | some .rejected => { continued with cancelled := m.cancelled ++ [i] }

inductive Event (π : Type) where
  | submit (r : Request π)
  | timer (i : Nat)
  | cancellation (i : Nat)
  | shutdown
  | resume (i : Nat)

def step (m : LSPQueueManager π) : Event π → LSPQueueManager π
  | .submit r => m.submitCodeActionRequest r
  | .timer i => m.fire i
  | .cancellation i => m.cancel i
  | .shutdown => m.shutdown
  | .resume i => m.resume i

def start : LSPQueueManager π := {}

/-- What every call sees in every state: it settles once, at the latest when its timer fires, and the
map holds unsettled calls only, one for each URI. -/
structure Coalesced (m : LSPQueueManager π) : Prop where
  once : (m.settlements.map Prod.fst).Nodup
  ended : ∀ (i : Nat) (call : Call π), m.calls[i]? = some call →
    ((m.settlements.map Prod.fst).count i = 1 ↔ call.timer ≠ .armed)
  due : ∀ (i : Nat) (call : Call π), m.calls[i]? = some call → call.timer = .armed →
    (i,.resolved) ∈ (m.step (.timer i)).settlements
  single : ∀ e ∈ m.pendingCodeActions.entries, ∀ e' ∈ m.pendingCodeActions.entries, e.1 = e'.1 → e = e'
  entries : ∀ e ∈ m.pendingCodeActions.entries,
    ∃ call, m.calls[e.2]? = some call ∧ call.uri = e.1 ∧ e.2 ∉ m.settlements.map Prod.fst
  forwarded : (m.submitted.filterMap Submission.call).Nodup

/-- Of these calls at most the last is forwarded; the others reject. -/
structure OnlyLast (m : LSPQueueManager π) (calls : List Nat) : Prop where
  forwarded : ∀ i ∈ calls, i ∈ m.submitted.filterMap Submission.call → calls.getLast? = some i
  rejected : ∀ i ∈ calls.dropLast, (i,.rejected) ∈ m.settlements
  answered : ∀ i ∈ calls.dropLast, ∀ call : Call π, m.calls[i]? = some call → call.continued = true →
    i ∈ m.cancelled

/-- Call `j` for the URI arrives next after call `i`, whose timer has not fired. -/
def Overtakes (events : List (Event π)) (uri : String) (i j : Nat) : Prop :=
  ∃ front r back, events = front ++ .submit r :: back ∧ r.key = some uri ∧
    (run step start front).calls.length = j ∧
    ∃ call, (run step start front).calls[i]? = some call ∧ call.uri = uri ∧ call.timer ≠ .fired ∧
      ∀ k later, i < k → (run step start front).calls[k]? = some later → later.uri ≠ uri

/-- What every run keeps: the unsettled calls are those in the map, their timers are armed, and a
call that resolved did so when its timer fired. -/
structure Sound (m : LSPQueueManager π) : Prop where
  once : (m.settlements.map Prod.fst).Nodup
  settled : ∀ i how, (i,how) ∈ m.settlements ↔ ∃ call, m.calls[i]? = some call ∧ call.settled = some how
  entry : ∀ uri i, m.pendingCodeActions.get? uri = some i →
    ∃ call, m.calls[i]? = some call ∧ call.uri = uri ∧ call.settled = none
  slot : ∀ (i : Nat) (call : Call π), m.calls[i]? = some call → call.settled = none →
    m.pendingCodeActions.get? call.uri = some i ∧ call.continued = false
  armed : ∀ (i : Nat) (call : Call π), m.calls[i]? = some call → (call.settled = none ↔ call.timer = .armed)
  fired : ∀ (i : Nat) (call : Call π), m.calls[i]? = some call → call.settled = some .resolved → call.timer = .fired
  submitted : ∀ i ∈ m.submitted.filterMap Submission.call,
    ∃ call, m.calls[i]? = some call ∧ call.settled = some .resolved ∧ call.continued = true
  answered : ∀ (i : Nat) (call : Call π), m.calls[i]? = some call → call.settled = some .rejected →
    call.continued = true → i ∈ m.cancelled
  distinct : (m.submitted.filterMap Submission.call).Nodup

theorem getElem?_set_known {π : Type} {call : Call π} {calls : List (Call π)} (known : calls[i]? = some call)
    (new : Call π) (j : Nat) :
    (calls.set i new)[j]? = if j = i then some new else calls[j]? := by
  obtain ⟨bound,_⟩ := List.getElem?_eq_some_iff.mp known
  rw [List.getElem?_set]
  by_cases same : i = j
  · rw [if_pos same,if_pos bound,if_pos same.symm]
  · rw [if_neg same,if_neg (Ne.symm same)]

/-- An unsettled call is settled: its slot is deleted, its listener is disposed of. -/
def conclude (m : LSPQueueManager π) (i : Nat) (call : Call π) (how : Settlement) (timer : Timer) :
    LSPQueueManager π :=
  { m with
    calls := m.calls.set i { call with settled := some how,timer := timer,subscribed := false }
    pendingCodeActions := m.pendingCodeActions.erase call.uri
    settlements := m.settlements ++ [(i,how)] }

variable {π : Type} {m : LSPQueueManager π} {call : Call π} {how : Settlement} {timer : Timer}

theorem finish_settled (known : m.calls[i]? = some call)
    (before : call.settled = some earlier) (how : Settlement) : m.finish i how = m := by
  simp only [finish,known,before,Option.isSome_some,if_true]

theorem finish_unsettled (sound : Sound m) (known : m.calls[i]? = some call)
    (unsettled : call.settled = none) (how : Settlement) : m.finish i how = m.conclude i call how .cleared := by
  have slot := (sound.slot i call known unsettled).1
  have armed := (sound.armed i call known).mp unsettled
  simp [finish,conclude,known,unsettled,slot,armed,clearTimeout]

theorem fire_unsettled (sound : Sound m) (known : m.calls[i]? = some call)
    (unsettled : call.settled = none) : m.fire i = m.conclude i call .resolved .fired := by
  have slot := (sound.slot i call known unsettled).1
  have armed := (sound.armed i call known).mp unsettled
  have again := getElem?_set_known known { call with timer := .fired } i
  simp only [if_pos,unsettled] at again
  simp only [fire,known,armed,if_true,finish,again,unsettled,Option.isSome_none,slot,conclude,List.set_set,
    Bool.false_eq_true,if_false,clearTimeout]

theorem Sound.conclude (sound : Sound m) (known : m.calls[i]? = some call)
    (unsettled : call.settled = none) (ended : timer ≠ .armed) (resolved : how = .resolved → timer = .fired) :
    Sound (m.conclude i call how timer) := by
  have look := getElem?_set_known known { call with settled := some how,timer := timer,subscribed := false }
  have slot := (sound.slot i call known unsettled).1
  have fresh : i ∉ m.settlements.map Prod.fst := by
    intro member
    obtain ⟨⟨j,earlier⟩,listed,rfl⟩ := List.mem_map.mp member
    obtain ⟨same,found,before⟩ := (sound.settled j earlier).mp listed
    rw [known] at found
    cases found
    rw [unsettled] at before
    cases before
  constructor
  · simp only [LSPQueueManager.conclude,List.map_append,List.map_cons,List.map_nil]
    exact sound.once.append (List.nodup_singleton i) (by simpa using fresh)
  · intro j how'
    simp only [LSPQueueManager.conclude,look,List.mem_append,List.mem_singleton,Prod.mk.injEq,sound.settled j how']
    by_cases same : j = i
    · subst j
      simp [known,unsettled,eq_comm]
    · simp [same]
  · intro uri j got
    simp only [LSPQueueManager.conclude,OrderedMap.get?_erase] at got
    split at got
    · cases got
    · next apart =>
      obtain ⟨other,found,at_,pending⟩ := sound.entry uri j got
      have different : j ≠ i := by
        rintro rfl
        rw [known] at found
        cases found
        exact apart at_.symm
      refine ⟨other,?_,at_,pending⟩
      simp only [LSPQueueManager.conclude,look,if_neg different,found]
  · intro j other found pending
    simp only [LSPQueueManager.conclude,look] at found
    split at found
    · cases found
      cases pending
    · next different =>
      obtain ⟨got,waiting⟩ := sound.slot j other found pending
      refine ⟨?_,waiting⟩
      simp only [LSPQueueManager.conclude,OrderedMap.get?_erase]
      rw [if_neg ?_,got]
      intro same
      rw [same,slot] at got
      cases got
      exact different rfl
  · intro j other found
    simp only [LSPQueueManager.conclude,look] at found
    split at found
    · cases found
      simp [ended]
    · exact sound.armed j other found
  · intro j other found
    simp only [LSPQueueManager.conclude,look] at found
    split at found
    · cases found
      intro same
      cases same
      exact resolved rfl
    · exact sound.fired j other found
  · intro j member
    obtain ⟨other,found,how_,continued⟩ := sound.submitted j member
    have different : j ≠ i := by
      rintro rfl
      rw [known] at found
      cases found
      rw [unsettled] at how_
      cases how_
    refine ⟨other,?_,how_,continued⟩
    simp only [LSPQueueManager.conclude,look,if_neg different,found]
  · intro j other found
    simp only [LSPQueueManager.conclude,look] at found
    split at found
    · cases found
      intro _ continued
      exact absurd continued (by simp [(sound.slot i call known unsettled).2])
    · exact sound.answered j other found
  · exact sound.distinct

theorem Sound.finish (sound : Sound m) (i : Nat) : Sound (m.finish i .rejected) := by
  cases known : m.calls[i]? with
  | none => simpa only [LSPQueueManager.finish,known] using sound
  | some call =>
    cases before : call.settled with
    | some earlier =>
      rw [finish_settled known before]
      exact sound
    | none =>
      rw [finish_unsettled sound known before]
      exact sound.conclude known before (by decide) (by rintro ⟨⟩)

theorem Sound.fire (sound : Sound m) (i : Nat) : Sound (m.fire i) := by
  cases known : m.calls[i]? with
  | none => simpa only [LSPQueueManager.fire,known] using sound
  | some call =>
    by_cases armed : call.timer = .armed
    · have unsettled := (sound.armed i call known).mpr armed
      rw [fire_unsettled sound known unsettled]
      exact sound.conclude known unsettled (by decide) (fun _ => rfl)
    · simpa only [LSPQueueManager.fire,known,if_neg armed] using sound

theorem Sound.cancel (sound : Sound m) (i : Nat) : Sound (m.cancel i) := by
  unfold LSPQueueManager.cancel
  split
  · exact sound
  · split
    · exact sound.finish i
    · exact sound

theorem Sound.supersedeAll (sound : Sound m) (entries : List Nat) : Sound (entries.foldl supersede m) := by
  induction entries generalizing m with
  | nil => exact sound
  | cons i entries ih => exact ih (sound.finish i)

theorem Sound.shutdown (sound : Sound m) : Sound m.shutdown := by
  unfold LSPQueueManager.shutdown
  split
  · exact sound
  · apply Sound.supersedeAll
    exact { sound with }

def enter (m : LSPQueueManager π) (uri : String) (params : π) (token : Bool) : LSPQueueManager π :=
  { m with
    pendingCodeActions := m.pendingCodeActions.set uri m.calls.length
    calls := m.calls ++ [{ uri := uri,params := params,token := token,subscribed := token }] }

theorem getElem?_enter {call new : Call π} {calls : List (Call π)} {i : Nat} :
    (calls ++ [new])[i]? = some call ↔ calls[i]? = some call ∨ i = calls.length ∧ call = new := by
  rcases Nat.lt_trichotomy i calls.length with below | same | above
  · rw [List.getElem?_append_left below]
    exact ⟨.inl,fun either => either.resolve_right (fun both => Nat.ne_of_lt below both.1)⟩
  · subst same
    simp [eq_comm]
  · have none_ : (calls ++ [new])[i]? = none := by
      rw [List.getElem?_eq_none_iff,List.length_append,List.length_singleton]
      exact above
    rw [none_,List.getElem?_eq_none (Nat.le_of_lt above)]
    constructor
    · rintro ⟨⟩
    · rintro (⟨⟨⟩⟩ | ⟨same,_⟩)
      exact absurd same (Nat.ne_of_gt above)

theorem Sound.enter (sound : Sound m) (free : m.pendingCodeActions.get? uri = none) (params : π)
    (token : Bool) : Sound (m.enter uri params token) := by
  constructor
  · exact sound.once
  · intro i how
    rw [show (m.enter uri params token).settlements = m.settlements from rfl,sound.settled]
    simp only [LSPQueueManager.enter,getElem?_enter]
    constructor
    · rintro ⟨call,found,how_⟩
      exact ⟨call,.inl found,how_⟩
    · rintro ⟨call,found | ⟨_,rfl⟩,how_⟩
      · exact ⟨call,found,how_⟩
      · cases how_
  · intro key i got
    simp only [LSPQueueManager.enter,getElem?_enter,OrderedMap.get?_set] at got ⊢
    split at got
    · next same =>
      cases got
      exact ⟨_,.inr ⟨rfl,rfl⟩,same.symm,rfl⟩
    · obtain ⟨call,found,rest⟩ := sound.entry key i got
      exact ⟨call,.inl found,rest⟩
  · intro i call found unsettled
    simp only [LSPQueueManager.enter,getElem?_enter] at found ⊢
    rcases found with found | ⟨rfl,rfl⟩
    · obtain ⟨slot,waiting⟩ := sound.slot i call found unsettled
      refine ⟨?_,waiting⟩
      rw [OrderedMap.get?_set_of_ne,slot]
      rintro rfl
      rw [free] at slot
      cases slot
    · exact ⟨OrderedMap.get?_set_self _ _ _,rfl⟩
  · intro i call found
    rcases getElem?_enter.mp found with found | ⟨_,rfl⟩
    · exact sound.armed i call found
    · simp
  · intro i call found
    rcases getElem?_enter.mp found with found | ⟨_,rfl⟩
    · exact sound.fired i call found
    · rintro ⟨⟩
  · intro i member
    obtain ⟨call,found,rest⟩ := sound.submitted i member
    exact ⟨call,getElem?_enter.mpr (.inl found),rest⟩
  · intro i call found
    rcases getElem?_enter.mp found with found | ⟨_,rfl⟩
    · exact sound.answered i call found
    · rintro ⟨⟩
  · exact sound.distinct

def superseded (m : LSPQueueManager π) (uri : String) : LSPQueueManager π :=
  ((m.pendingCodeActions.get? uri).map m.supersede).getD m

theorem Sound.superseded (sound : Sound m) (uri : String) :
    Sound (m.superseded uri) ∧ (m.superseded uri).pendingCodeActions.get? uri = none := by
  unfold LSPQueueManager.superseded
  cases got : m.pendingCodeActions.get? uri with
  | none => exact ⟨sound,got⟩
  | some i =>
    obtain ⟨call,known,at_,unsettled⟩ := sound.entry uri i got
    refine ⟨sound.finish i,?_⟩
    change (m.finish i .rejected).pendingCodeActions.get? uri = none
    rw [finish_unsettled sound known unsettled,LSPQueueManager.conclude,at_]
    exact OrderedMap.get?_erase_self _ _

theorem submit_eq (m : LSPQueueManager π) {r : Request π} (keyed : r.key = some uri) :
    m.submitCodeActionRequest r =
      if r.token = some true then
        ((m.superseded uri).enter uri r.params r.token.isSome).finish (m.superseded uri).calls.length .rejected
      else (m.superseded uri).enter uri r.params r.token.isSome := by
  simp only [submitCodeActionRequest,keyed]
  rfl

theorem Sound.submit (sound : Sound m) (r : Request π) : Sound (m.submitCodeActionRequest r) := by
  cases keyed : r.key with
  | none =>
    simp only [submitCodeActionRequest,keyed]
    refine { sound with submitted := ?_,distinct := ?_ }
    · simpa using sound.submitted
    · simpa using sound.distinct
  | some uri =>
    obtain ⟨kept,free⟩ := sound.superseded uri
    have entered := kept.enter free r.params r.token.isSome
    rw [submit_eq m keyed]
    split
    · exact entered.finish _
    · exact entered

/-- The call goes on after its settled promise. -/
def answer (m : LSPQueueManager π) (i : Nat) (call : Call π) (how : Settlement) : LSPQueueManager π :=
  { m with
    calls := m.calls.set i { call with continued := true }
    submitted :=
      if how = .resolved then m.submitted ++ [{ call := some i,params := call.params }] else m.submitted
    cancelled := if how = .rejected then m.cancelled ++ [i] else m.cancelled }

theorem resume_settled (known : m.calls[i]? = some call) (settled : call.settled = some how)
    (waiting : call.continued = false) : m.resume i = m.answer i call how := by
  cases how with
  | resolved => simp [resume,answer,known,settled,waiting]
  | rejected => simp [resume,answer,known,settled,waiting]

theorem Sound.answer (sound : Sound m) (known : m.calls[i]? = some call) (settled : call.settled = some how)
    (waiting : call.continued = false) : Sound (m.answer i call how) := by
  have look := getElem?_set_known known { call with continued := true }
  have apart : ∀ j (other : Call π), m.calls[j]? = some other → other.settled = none ∨ other.continued = true →
      j ≠ i := by
    rintro j other found either rfl
    rw [known] at found
    cases found
    simp [settled,waiting] at either
  constructor
  · exact sound.once
  · intro j other
    simp only [LSPQueueManager.answer,look,sound.settled]
    by_cases same : j = i
    · subst same
      simp [known]
    · simp [same]
  · intro uri j got
    obtain ⟨other,found,at_,unsettled⟩ := sound.entry uri j got
    have different := apart j other found (.inl unsettled)
    exact ⟨other,(look j).trans ((if_neg different).trans found),at_,unsettled⟩
  · intro j other found unsettled
    simp only [LSPQueueManager.answer,look] at found
    split at found
    · cases found
      rw [settled] at unsettled
      cases unsettled
    · exact sound.slot j other found unsettled
  · intro j other found
    simp only [LSPQueueManager.answer,look] at found
    split at found
    · cases found
      exact sound.armed i call known
    · exact sound.armed j other found
  · intro j other found
    simp only [LSPQueueManager.answer,look] at found
    split at found
    · cases found
      exact sound.fired i call known
    · exact sound.fired j other found
  · intro j member
    have either : j ∈ m.submitted.filterMap Submission.call ∨ j = i ∧ how = .resolved := by
      simp only [LSPQueueManager.answer] at member
      split at member
      · next resolved =>
        rw [List.filterMap_append,List.mem_append] at member
        exact member.imp id (fun new => ⟨by simpa using new,resolved⟩)
      · exact .inl member
    rcases either with before | ⟨rfl,resolved⟩
    · obtain ⟨other,found,how_,continued⟩ := sound.submitted j before
      have different := apart j other found (.inr continued)
      exact ⟨other,(look j).trans ((if_neg different).trans found),how_,continued⟩
    · exact ⟨_,(look j).trans (if_pos rfl),settled.trans (congrArg some resolved),rfl⟩
  · intro j other found rejected continued
    simp only [LSPQueueManager.answer,look] at found ⊢
    split at found
    · next same =>
      cases found
      obtain rfl : how = .rejected := Option.some.inj (settled.symm.trans rejected)
      simp [same]
    · have listed := sound.answered j other found rejected continued
      split
      · exact List.mem_append_left _ listed
      · exact listed
  · simp only [LSPQueueManager.answer]
    split
    · have fresh : i ∉ m.submitted.filterMap Submission.call := by
        intro member
        obtain ⟨other,found,_,continued⟩ := sound.submitted i member
        exact apart i other found (.inr continued) rfl
      rw [List.filterMap_append]
      exact sound.distinct.append (List.nodup_singleton i) (by simpa using fresh)
    · exact sound.distinct

theorem Sound.resume (sound : Sound m) (i : Nat) : Sound (m.resume i) := by
  cases known : m.calls[i]? with
  | none => simpa only [LSPQueueManager.resume,known] using sound
  | some call =>
    cases waiting : call.continued with
    | true => simpa only [LSPQueueManager.resume,known,waiting,if_true] using sound
    | false =>
      cases settled : call.settled with
      | none => simpa [LSPQueueManager.resume,known,waiting,settled] using sound
      | some how =>
        rw [resume_settled known settled waiting]
        exact sound.answer known settled waiting

theorem Sound.step (sound : Sound m) (e : Event π) : Sound (m.step e) := by
  cases e with
  | submit r => exact sound.submit r
  | timer i => exact sound.fire i
  | cancellation i => exact sound.cancel i
  | shutdown => exact sound.shutdown
  | resume i => exact sound.resume i

theorem sound_start : Sound (start : LSPQueueManager π) := by
  constructor <;> simp [start]

theorem sound_run (events : List (Event π)) : Sound (run step start events) :=
  run_invariant (fun m e (kept : Sound m) => kept.step e) sound_start events

theorem finish_settlements (m : LSPQueueManager π) (i : Nat) (how : Settlement) :
    m.settlements <+: (m.finish i how).settlements := by
  unfold finish
  split
  · exact List.prefix_refl _
  · split
    · exact List.prefix_refl _
    · exact List.prefix_append _ _

theorem supersedeAll_settlements (entries : List Nat) (m : LSPQueueManager π) :
    m.settlements <+: (entries.foldl supersede m).settlements := by
  induction entries generalizing m with
  | nil => exact List.prefix_refl _
  | cons i entries ih => exact (finish_settlements m i .rejected).trans (ih (m.supersede i))

theorem superseded_settlements (m : LSPQueueManager π) (uri : String) :
    m.settlements <+: (m.superseded uri).settlements := by
  unfold superseded
  cases m.pendingCodeActions.get? uri with
  | none => exact List.prefix_refl _
  | some i => exact finish_settlements m i .rejected

theorem submit_settlements (m : LSPQueueManager π) {r : Request π} (keyed : r.key = some uri) :
    (m.superseded uri).settlements <+: (m.submitCodeActionRequest r).settlements := by
  rw [submit_eq m keyed]
  split
  · exact finish_settlements ((m.superseded uri).enter uri r.params r.token.isSome) _ _
  · exact List.prefix_refl _

theorem step_settlements (m : LSPQueueManager π) (e : Event π) :
    m.settlements <+: (m.step e).settlements := by
  cases e with
  | submit r =>
    cases keyed : r.key with
    | none => simp [step,submitCodeActionRequest,keyed]
    | some uri => exact (superseded_settlements m uri).trans (submit_settlements m keyed)
  | timer i =>
    simp only [step,fire]
    split
    · exact List.prefix_refl _
    · next call _ =>
      split
      · exact finish_settlements { m with calls := m.calls.set i { call with timer := .fired } } i .resolved
      · exact List.prefix_refl _
  | cancellation i =>
    simp only [step,cancel]
    split
    · exact List.prefix_refl _
    · split
      · exact finish_settlements m i .rejected
      · exact List.prefix_refl _
  | shutdown =>
    simp only [step,shutdown]
    split
    · exact List.prefix_refl _
    · exact supersedeAll_settlements _ { m with isShutdown := true }
  | resume i =>
    simp only [step,resume]
    split
    · exact List.prefix_refl _
    · split
      · exact List.prefix_refl _
      · split <;> exact List.prefix_refl _

theorem run_settlements (events : List (Event π)) (m : LSPQueueManager π) :
    m.settlements <+: (run step m events).settlements := by
  induction events generalizing m with
  | nil => exact List.prefix_refl _
  | cons e events ih => exact (step_settlements m e).trans (ih (m.step e))

theorem Sound.coalesced (sound : Sound m) : Coalesced m := by
  have listed : ∀ i (call : Call π), m.calls[i]? = some call →
      (i ∈ m.settlements.map Prod.fst ↔ call.settled ≠ none) := by
    intro i call found
    rw [List.mem_map]
    constructor
    · rintro ⟨⟨j,how⟩,member,rfl⟩
      obtain ⟨same,known,settled⟩ := (sound.settled j how).mp member
      rw [found] at known
      cases known
      simp [settled]
    · intro some_
      obtain ⟨how,settled⟩ := Option.ne_none_iff_exists'.mp some_
      exact ⟨(i,how),(sound.settled i how).mpr ⟨call,found,settled⟩,rfl⟩
  constructor
  · exact sound.once
  · intro i call found
    have ended : i ∈ m.settlements.map Prod.fst ↔ call.timer ≠ .armed :=
      (listed i call found).trans (not_congr (sound.armed i call found))
    rw [← ended]
    constructor
    · intro once
      exact List.count_pos_iff.mp (by omega)
    · exact List.count_eq_one_of_mem sound.once
  · intro i call found armed
    have unsettled := (sound.armed i call found).mpr armed
    rw [LSPQueueManager.step,fire_unsettled sound found unsettled]
    exact List.mem_append_right m.settlements (List.mem_singleton_self _)
  · rintro ⟨uri,i⟩ first ⟨uri',j⟩ second same
    obtain rfl : uri = uri' := same
    have one := OrderedMap.get?_eq_some_iff.mpr first
    rw [OrderedMap.get?_eq_some_iff.mpr second] at one
    cases one
    rfl
  · rintro ⟨uri,i⟩ member
    obtain ⟨call,found,at_,unsettled⟩ := sound.entry uri i (OrderedMap.get?_eq_some_iff.mpr member)
    exact ⟨call,found,at_,fun settled => (listed i call found).mp settled unsettled⟩
  · exact sound.distinct

theorem Sound.overtaken (sound : Sound m) (known : m.calls[i]? = some call) (early : call.timer ≠ .fired) :
    (i,.rejected) ∈ (m.superseded call.uri).settlements := by
  cases settled : call.settled with
  | some how =>
    cases how with
    | resolved => exact absurd (sound.fired i call known settled) early
    | rejected =>
      have member := (sound.settled i .rejected).mpr ⟨call,known,settled⟩
      exact (superseded_settlements m call.uri).subset member
  | none =>
    have slot := (sound.slot i call known settled).1
    rw [LSPQueueManager.superseded,slot,Option.map_some,Option.getD_some,supersede,
      finish_unsettled sound known settled]
    exact List.mem_append_right m.settlements (List.mem_singleton_self _)

theorem overtaken_rejected {events : List (Event π)} (next : Overtakes events uri i j) :
    (i,.rejected) ∈ (run step start events).settlements := by
  obtain ⟨front,r,back,rfl,keyed,-,call,known,rfl,early,-⟩ := next
  have rejected := (sound_run front).overtaken known early
  rw [run_append,run_cons]
  apply (run_settlements back _).subset
  exact (submit_settlements _ keyed).subset rejected

theorem rejected_of_chain {events : List (Event π)} {uri : String} {calls : List Nat}
    (chain : calls.IsChain (Overtakes events uri)) :
    ∀ i ∈ calls.dropLast, (i,.rejected) ∈ (run step start events).settlements := by
  induction calls with
  | nil => simp
  | cons i calls ih =>
    cases calls with
    | nil => simp
    | cons j calls =>
      obtain ⟨next,rest⟩ := List.isChain_cons_cons.mp chain
      intro k member
      rw [List.dropLast_cons_cons,List.mem_cons] at member
      rcases member with rfl | later
      · exact overtaken_rejected next
      · exact ih rest k later

theorem Sound.onlyLast (sound : Sound m) {calls : List Nat}
    (rejected : ∀ i ∈ calls.dropLast, (i,.rejected) ∈ m.settlements) : OnlyLast m calls := by
  refine ⟨?_,rejected,?_⟩
  · intro i member forwarded
    by_contra notLast
    obtain ⟨call,found,resolved,_⟩ := sound.submitted i forwarded
    have inner : i ∈ calls.dropLast := List.mem_dropLast_of_mem_of_ne_getLast? member (Ne.symm notLast)
    obtain ⟨same,known,settled⟩ := (sound.settled i .rejected).mp (rejected i inner)
    rw [found] at known
    cases known
    rw [resolved] at settled
    cases settled
  · intro i member call found continued
    obtain ⟨same,known,settled⟩ := (sound.settled i .rejected).mp (rejected i member)
    rw [found] at known
    cases known
    exact sound.answered i call found settled continued

/-- In every run the window answers each call once and forwards of a burst at most the last call. -/
theorem code_actions_coalesce (events : List (Event π)) :
    EveryState step Coalesced start events ∧
      ∀ uri (burst : List Nat), burst.IsChain (Overtakes events uri) →
        OnlyLast (run step start events) burst := by
  constructor
  · intro front _
    exact (sound_run front).coalesced
  · intro uri burst chain
    exact (sound_run events).onlyLast (rejected_of_chain chain)

def twoCalls : List (Event Unit) :=
  [.submit ⟨some "file:///Foo.cls",(),some false⟩,.submit ⟨some "file:///Foo.cls",(),none⟩,.timer 1,
    .resume 0,.resume 1]

theorem twoCalls_overtakes : Overtakes twoCalls "file:///Foo.cls" 0 1 := by
  refine ⟨twoCalls.take 1,⟨some "file:///Foo.cls",(),none⟩,twoCalls.drop 2,rfl,by decide,by decide,
    ⟨"file:///Foo.cls",(),true,none,.armed,true,false⟩,rfl,rfl,by decide,?_⟩
  intro k later above found
  have empty : (run step start (twoCalls.take 1)).calls[k]? = none := by
    rw [List.getElem?_eq_none_iff]
    exact above
  rw [empty] at found
  cases found

theorem twoCalls_coalesced : EveryState step Coalesced start twoCalls ∧
    OnlyLast (run step start twoCalls) [0,1] ∧
    (run step start twoCalls).submitted.map Submission.call = [some 1] ∧
    (run step start twoCalls).cancelled = [0] := by
  refine ⟨(code_actions_coalesce twoCalls).1,?_,by decide,by decide⟩
  exact (code_actions_coalesce twoCalls).2 "file:///Foo.cls" [0,1] (by simpa using twoCalls_overtakes)

end LSPQueueManager
end ApexLs.Queue.CodeActions
