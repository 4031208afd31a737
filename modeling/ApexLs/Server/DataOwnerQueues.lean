import ApexLs.Collections.Rows
import ApexLs.Collections.Runs

/-! The queues of the data owner. One daemon takes all waiting reads, runs them one after another,
then runs one write, and begins again. -/
namespace ApexLs.Server

open ApexLs.Collections

inductive Access where
  | read
  | write
  deriving DecidableEq, Repr

/-- A caller of `dataOwnerRead` or `dataOwnerWrite` after its offer. -/
inductive Caller (ε : Type u) where
  | waiting
  | interrupted
  | received (exit : ε)
  deriving DecidableEq, Repr

/-- A queued effect: the queue it went to, and what comes of it in its `Deferred` and at its caller. -/
structure DOQueueItem (ε : Type u) where
  access : Access
  deferred : Option ε := none
  caller : Caller ε := .waiting
  deriving DecidableEq, Repr

/-- Where the loop of the daemon is: before `takeAll`, in its batch of reads with what is left of it,
with a write it took, or asleep. `took` tells whether there were any reads in the pass. -/
inductive Phase where
  | drain
  | reads (took : Bool) (rest : List Nat)
  | reading (item : Nat) (took : Bool) (rest : List Nat)
  | write (item : Nat)
  | writing (item : Nat)
  | asleep
  deriving DecidableEq, Repr

inductive Mark (ε : Type u) where
  | queued (access : Access) (item : Nat)
  | drained
  | started (access : Access) (item : Nat)
  | ended (item : Nat) (exit : ε)
  deriving DecidableEq, Repr

/-- The queues, the daemon once it is forked, and all items by their number, with what happened to
them so far, oldest first. -/
structure DOQueues (ε : Type u) where
  read : List Nat := []
  write : List Nat := []
  loop : Option Phase := none
  items : List (DOQueueItem ε) := []
  history : List (Mark ε) := []

namespace DOQueues

variable {ε : Type u}

def initDataOwnerQueues (s : DOQueues ε) : DOQueues ε :=
  match s.loop with
  | none => { s with loop := some .drain }
  | some _ => s

/-- `dataOwnerRead` and `dataOwnerWrite` up to their `await`. -/
def offer (s : DOQueues ε) (access : Access) : DOQueues ε :=
  let s := s.initDataOwnerQueues
  let item := s.items.length
  let s : DOQueues ε := { s with items := s.items ++ [{ access }],history := s.history ++ [.queued access item] }
  match access with
  | .read => { s with read := s.read ++ [item] }
  | .write => { s with write := s.write ++ [item] }

def dataOwnerRead (s : DOQueues ε) : DOQueues ε := s.offer .read

def dataOwnerWrite (s : DOQueues ε) : DOQueues ε := s.offer .write

def start (s : DOQueues ε) (access : Access) (item : Nat) (phase : Phase) : DOQueues ε :=
  { s with loop := some phase,history := s.history ++ [.started access item] }

/-- The end of `processItem`: the exit of the effect, however it ended, is what its caller gets. A
`Deferred` that is done stays as it is. -/
def finish (s : DOQueues ε) (item : Nat) (exit : ε) (phase : Phase) : DOQueues ε :=
  { s with
    loop := some phase
    items := s.items.modify item fun row => { row with deferred := row.deferred.or (some exit) }
    history := s.history ++ [.ended item exit] }

/-- One step of the daemon; `exit` is how the effect ends that is running, if one is. -/
def turn (s : DOQueues ε) (exit : ε) : DOQueues ε :=
  match s.loop with
  | none => s
  | some .drain =>
    { s with read := [],loop := some (.reads (!s.read.isEmpty) s.read),history := s.history ++ [.drained] }
  | some (.reads took (item :: rest)) => s.start .read item (.reading item took rest)
  | some (.reading item took rest) => s.finish item exit (.reads took rest)
  | some (.reads took []) =>
    match s.write with
    | [] => { s with loop := some (if took then .drain else .asleep) }
    | item :: rest => { s with write := rest,loop := some (.write item) }
  | some (.write item) => s.start .write item (.writing item)
  | some (.writing item) => s.finish item exit .drain
  | some .asleep => { s with loop := some .drain }

/-- What a waiting caller does: it goes on when its `Deferred` is done, or it is interrupted. -/
def answer (item : DOQueueItem ε) : DOQueueItem ε :=
  match item.caller,item.deferred with
  | .waiting,some exit => { item with caller := .received exit }
  | _,_ => item

def interrupt (item : DOQueueItem ε) : DOQueueItem ε :=
  match item.caller with
  | .waiting => { item with caller := .interrupted }
  | _ => item

inductive Event (ε : Type u) where
  | offered (access : Access)
  | turn (exit : ε)
  | resumed (item : Nat)
  | interrupted (item : Nat)

def step (s : DOQueues ε) : Event ε → DOQueues ε
  | .offered .read => s.dataOwnerRead
  | .offered .write => s.dataOwnerWrite
  | .turn exit => s.turn exit
  | .resumed item => { s with items := s.items.modify item answer }
  | .interrupted item => { s with items := s.items.modify item interrupt }

def queuedItems (access : Access) (history : List (Mark ε)) : List Nat :=
  history.filterMap fun
    | .queued other item => if other = access then some item else none
    | _ => none

def startedItems (access : Access) (history : List (Mark ε)) : List Nat :=
  history.filterMap fun
    | .started other item => if other = access then some item else none
    | _ => none

def begun (history : List (Mark ε)) : List Nat :=
  history.filterMap fun
    | .started _ item => some item
    | _ => none

def endedItems (history : List (Mark ε)) : List Nat :=
  history.filterMap fun
    | .ended item _ => some item
    | _ => none

/-- What holds of the runs in every state. A run ends before the next one starts; the items of a
queue are run in their order; what a run ends with is what the caller of its item gets. -/
structure Serialised (s : DOQueues ε) : Prop where
  alone : ∃ running, begun s.history = endedItems s.history ++ running ∧ running.length ≤ 1
  once : (begun s.history).Nodup
  inOrder : ∀ access, startedItems access s.history <+: queuedItems access s.history
  answered : ∀ item exit,
    (∃ row, s.items[item]? = some row ∧ row.deferred = some exit) ↔ .ended item exit ∈ s.history
  received : ∀ item row exit, s.items[item]? = some row → row.caller = .received exit →
    .ended item exit ∈ s.history

def StartsWrite (s : DOQueues ε) (event : Event ε) : Prop :=
  ∃ w, (s.step event).history = s.history ++ [.started .write w]

def ReadsFirst (s : DOQueues ε) (event : Event ε) : Prop :=
  s.StartsWrite event → ∀ r, .queued .read r ∈ s.history → .started .read r ∈ s.history

/-- A read queued before the daemon last took the waiting reads runs before the write that starts,
and so does one that another write has overtaken already. -/
def ReadsNext (s : DOQueues ε) (event : Event ε) : Prop :=
  s.StartsWrite event → ∀ r,
    (Earlier s.history (.queued .read r) .drained ∨
      ∃ w, Earlier s.history (.queued .read r) (.started .write w)) →
    .started .read r ∈ s.history

def batch : Option Phase → List Nat
  | some (.reads _ rest) => rest
  | some (.reading _ _ rest) => rest
  | _ => []

def taken : Option Phase → List Nat
  | some (.write item) => [item]
  | _ => []

def running : Option Phase → List Nat
  | some (.reading item _ _) => [item]
  | some (.writing item) => [item]
  | _ => []

def pending (s : DOQueues ε) : Access → List Nat
  | .read => batch s.loop ++ s.read
  | .write => taken s.loop ++ s.write

/-- The daemon comes to its next `takeAll` before any other write. -/
def Returning : Option Phase → Prop
  | some (.writing _) => True
  | some .drain => True
  | _ => False

def Handled (s : DOQueues ε) (r : Nat) : Prop := .started .read r ∈ s.history ∨ r ∈ batch s.loop

structure Kept (s : DOQueues ε) : Prop where
  forked : s.loop = none → s.history = []
  lines : ∀ access, queuedItems access s.history = startedItems access s.history ++ s.pending access
  ordered : ∀ access, (queuedItems access s.history).Pairwise (· < ·)
  known : ∀ access, ∀ item ∈ queuedItems access s.history, ∃ row, s.items[item]? = some row ∧ row.access = access
  serial : begun s.history = endedItems s.history ++ running s.loop
  once : (begun s.history).Nodup
  answered : ∀ item exit,
    (∃ row, s.items[item]? = some row ∧ row.deferred = some exit) ↔ .ended item exit ∈ s.history
  received : ∀ item row exit, s.items[item]? = some row → row.caller = .received exit →
    .ended item exit ∈ s.history
  taken : ∀ r, Earlier s.history (.queued .read r) .drained → s.Handled r
  overtaken : ∀ r w, Earlier s.history (.queued .read r) (.started .write w) → s.Handled r ∨ Returning s.loop

section

variable {s t : DOQueues ε} {mark : Mark ε} {history : List (Mark ε)} {access : Access} {item : Nat} {exit : ε} {phase : Phase}

theorem turn_drain (now : s.loop = some .drain) (exit : ε) :
    s.turn exit = { s with
      read := [],loop := some (.reads (!s.read.isEmpty) s.read),history := s.history ++ [.drained] } := by
  rw [turn,now]

theorem turn_reads (now : s.loop = some (.reads took (item :: rest))) (exit : ε) :
    s.turn exit = s.start .read item (.reading item took rest) := by
  rw [turn,now]

theorem turn_reading (now : s.loop = some (.reading item took rest)) (exit : ε) :
    s.turn exit = s.finish item exit (.reads took rest) := by
  rw [turn,now]

theorem turn_idle (now : s.loop = some (.reads took [])) (write : s.write = []) (exit : ε) :
    s.turn exit = { s with loop := some (if took then .drain else .asleep) } := by
  rw [turn,now]
  simp only [write]

theorem turn_take (now : s.loop = some (.reads took [])) (write : s.write = item :: rest) (exit : ε) :
    s.turn exit = { s with write := rest,loop := some (.write item) } := by
  rw [turn,now]
  simp only [write]

theorem turn_write (now : s.loop = some (.write item)) (exit : ε) :
    s.turn exit = s.start .write item (.writing item) := by
  rw [turn,now]

theorem turn_writing (now : s.loop = some (.writing item)) (exit : ε) :
    s.turn exit = s.finish item exit .drain := by
  rw [turn,now]

theorem turn_asleep (now : s.loop = some .asleep) (exit : ε) : s.turn exit = { s with loop := some .drain } := by
  rw [turn,now]

theorem queuedItems_same (other : ∀ access item, mark ≠ .queued access item) :
    queuedItems access (history ++ [mark]) = queuedItems access history := by
  cases mark <;> simp_all [queuedItems]

theorem startedItems_same (other : ∀ access item, mark ≠ .started access item) :
    startedItems access (history ++ [mark]) = startedItems access history := by
  cases mark <;> simp_all [startedItems]

theorem begun_same (other : ∀ access item, mark ≠ .started access item) : begun (history ++ [mark]) = begun history := by
  cases mark <;> simp_all [begun]

theorem endedItems_same (other : ∀ item exit, mark ≠ .ended item exit) :
    endedItems (history ++ [mark]) = endedItems history := by
  cases mark <;> simp_all [endedItems]

theorem queuedItems_concat (access other : Access) (item : Nat) (history : List (Mark ε)) :
    queuedItems other (history ++ [.queued access item]) =
      queuedItems other history ++ if access = other then [item] else [] := by
  by_cases same : access = other <;> simp [queuedItems,same]

theorem startedItems_concat (access other : Access) (item : Nat) (history : List (Mark ε)) :
    startedItems other (history ++ [.started access item]) =
      startedItems other history ++ if access = other then [item] else [] := by
  by_cases same : access = other <;> simp [startedItems,same]

theorem begun_concat (access : Access) (item : Nat) (history : List (Mark ε)) :
    begun (history ++ [.started access item]) = begun history ++ [item] := by
  simp [begun]

theorem endedItems_concat (item : Nat) (exit : ε) (history : List (Mark ε)) :
    endedItems (history ++ [.ended item exit]) = endedItems history ++ [item] := by
  simp [endedItems]

theorem mem_queuedItems : item ∈ queuedItems access history ↔ .queued access item ∈ history := by
  simp only [queuedItems,List.mem_filterMap]
  constructor
  · rintro ⟨mark,member,own⟩
    cases mark <;> simp at own
    obtain ⟨rfl,rfl⟩ := own
    exact member
  · exact fun member => ⟨_,member,by simp⟩

theorem mem_startedItems : item ∈ startedItems access history ↔ .started access item ∈ history := by
  simp only [startedItems,List.mem_filterMap]
  constructor
  · rintro ⟨mark,member,own⟩
    cases mark <;> simp at own
    obtain ⟨rfl,rfl⟩ := own
    exact member
  · exact fun member => ⟨_,member,by simp⟩

theorem mem_begun : item ∈ begun history ↔ ∃ access, .started access item ∈ history := by
  simp only [begun,List.mem_filterMap]
  constructor
  · rintro ⟨mark,member,own⟩
    cases mark <;> simp at own
    exact ⟨_,own ▸ member⟩
  · exact fun ⟨_,member⟩ => ⟨_,member,rfl⟩

theorem mem_endedItems : item ∈ endedItems history ↔ ∃ exit, .ended item exit ∈ history := by
  simp only [endedItems,List.mem_filterMap]
  constructor
  · rintro ⟨mark,member,own⟩
    cases mark <;> simp at own
    exact ⟨_,own ▸ member⟩
  · exact fun ⟨_,member⟩ => ⟨_,member,rfl⟩

theorem Kept.fresh (kept : Kept s) (waits : item ∈ s.pending access) : item ∉ begun s.history := by
  intro ran
  obtain ⟨other,started⟩ := mem_begun.mp ran
  have before : item ∈ startedItems other s.history := mem_startedItems.mpr started
  have queued : item ∈ queuedItems access s.history := by
    rw [kept.lines]
    exact List.mem_append_right _ waits
  obtain ⟨row,own,asked⟩ := kept.known access item queued
  obtain ⟨same,own',asked'⟩ := kept.known other item (by rw [kept.lines]; exact List.mem_append_left _ before)
  obtain rfl := Option.some.inj (own.symm.trans own')
  obtain rfl := asked.symm.trans asked'
  have apart := kept.ordered access
  rw [kept.lines,List.pairwise_append] at apart
  exact Nat.lt_irrefl _ (apart.2.2 item before item waits)

theorem Kept.row_of_begun (kept : Kept s) (ran : item ∈ begun s.history) : ∃ row, s.items[item]? = some row := by
  obtain ⟨access,started⟩ := mem_begun.mp ran
  have queued : item ∈ queuedItems access s.history := by
    rw [kept.lines]
    exact List.mem_append_left _ (mem_startedItems.mpr started)
  exact (kept.known access item queued).imp fun _ own => own.1

theorem Handled.concat (handled : s.Handled r) (grown : t.history = s.history ++ [mark])
    (left : r ∈ batch s.loop → .started .read r = mark ∨ r ∈ batch t.loop) : Handled t r := by
  rcases handled with ran | waits
  · exact .inl (grown ▸ List.mem_append_left _ ran)
  · rcases left waits with rfl | stays
    · exact .inl (by rw [grown]; simp)
    · exact .inr stays

theorem Kept.start (kept : Kept s) (idle : running s.loop = []) (runs : running (some phase) = [item])
    (head : ∀ other, s.pending other = (if other = access then [item] else []) ++ (s.start access item phase).pending other)
    (left : ∀ r ∈ batch s.loop, .read = access ∧ r = item ∨ r ∈ batch (some phase))
    (returns : access = .write → Returning (some phase)) (leaves : ¬ Returning s.loop) :
    Kept (s.start access item phase) := by
  have grown : (s.start access item phase).history = s.history ++ [.started access item] := rfl
  have fresh : item ∉ begun s.history := kept.fresh (by rw [head access]; simp)
  have handled : ∀ r, s.Handled r → (s.start access item phase).Handled r := by
    intro r known
    apply known.concat grown
    intro waits
    exact (left r waits).imp_left (fun ⟨same,own⟩ => by rw [same,own])
  have queued : ∀ other, queuedItems other (s.start access item phase).history = queuedItems other s.history :=
    fun _ => queuedItems_same (by simp)
  constructor
  · intro unforked; cases unforked
  · intro other
    rw [queued,grown,startedItems_concat,kept.lines,head other,List.append_assoc]
    simp only [eq_comm]
  · exact fun other => queued other ▸ kept.ordered other
  · exact fun other => queued other ▸ kept.known other
  · rw [grown,begun_concat,endedItems_same (by simp),kept.serial,idle,List.append_nil]
    exact congrArg _ runs.symm
  · rw [grown,begun_concat,List.nodup_append]
    refine ⟨kept.once,by simp,?_⟩
    rintro first member last own rfl
    exact fresh (List.mem_singleton.mp own ▸ member)
  · intro other exit
    have same : .ended other exit ∈ s.history ++ [.started access item] ↔ .ended other exit ∈ s.history := by simp
    rw [grown,same]
    exact kept.answered other exit
  · intro other row exit own answer
    rw [grown]
    exact List.mem_append_left _ (kept.received other row exit own answer)
  · intro r earlier
    rw [grown,earlier_apart (by simp)] at earlier
    exact handled r (kept.taken r earlier)
  · intro r w earlier
    rw [grown,earlier_concat] at earlier
    rcases earlier with before | ⟨now,_⟩
    · rcases kept.overtaken r w before with known | returning
      · exact .inl (handled r known)
      · exact absurd returning leaves
    · cases now
      exact .inr (returns rfl)

theorem Kept.goes (kept : Kept s) (same : t.history = s.history) (rows : t.items = s.items)
    (lines : ∀ access, t.pending access = s.pending access) (runs : running t.loop = running s.loop)
    (left : batch t.loop = batch s.loop) (returns : Returning s.loop → Returning t.loop) (forked : t.loop ≠ none) :
    Kept t := by
  have handled : ∀ r, s.Handled r → t.Handled r := by
    intro r known
    rwa [Handled,same,left]
  constructor
  · exact fun unforked => absurd unforked forked
  · exact fun access => by rw [same,lines]; exact kept.lines access
  · exact fun access => same ▸ kept.ordered access
  · exact fun access => by rw [same,rows]; exact kept.known access
  · rw [same,runs]; exact kept.serial
  · exact same ▸ kept.once
  · rw [same,rows]; exact kept.answered
  · rw [same,rows]; exact kept.received
  · exact fun r earlier => handled r (kept.taken r (same ▸ earlier))
  · exact fun r w earlier => (kept.overtaken r w (same ▸ earlier)).imp (handled r) returns

theorem Kept.drain (kept : Kept s) (now : s.loop = some .drain) (exit : ε) : Kept (s.turn exit) := by
  have turned := turn_drain now exit
  have grown : (s.turn exit).history = s.history ++ [.drained] := by rw [turned]
  have loop : (s.turn exit).loop = some (.reads (!s.read.isEmpty) s.read) := by rw [turned]
  have rows : (s.turn exit).items = s.items := by rw [turned]
  have queued : ∀ access, queuedItems access (s.turn exit).history = queuedItems access s.history :=
    fun _ => grown ▸ queuedItems_same (by simp)
  have all : ∀ r, .queued .read r ∈ s.history → (s.turn exit).Handled r := by
    intro r member
    have line := mem_queuedItems.mpr member
    rw [kept.lines,List.mem_append,pending,now] at line
    rcases line with ran | waits
    · exact .inl (grown ▸ List.mem_append_left _ (mem_startedItems.mp ran))
    · right
      rw [loop]
      exact waits
  constructor
  · intro unforked
    rw [loop] at unforked
    cases unforked
  · intro access
    rw [queued,grown,startedItems_same (by simp),kept.lines]
    cases access <;> simp [pending,turned,now,batch,DOQueues.taken]
  · exact fun access => queued access ▸ kept.ordered access
  · exact fun access => by rw [queued,rows]; exact kept.known access
  · rw [grown,begun_same (by simp),endedItems_same (by simp),kept.serial,now,loop]
    rfl
  · rw [grown,begun_same (by simp)]
    exact kept.once
  · intro item exit
    have same : .ended item exit ∈ s.history ++ [.drained] ↔ .ended item exit ∈ s.history := by simp
    rw [grown,same,rows]
    exact kept.answered item exit
  · intro item row exit own answer
    rw [grown]
    exact List.mem_append_left _ (kept.received item row exit (rows ▸ own) answer)
  · intro r earlier
    rw [grown,earlier_concat] at earlier
    rcases earlier with before | ⟨_,member⟩
    · exact all r before.mem
    · exact all r member
  · intro r w earlier
    rw [grown,earlier_apart (by simp)] at earlier
    exact .inl (all r earlier.mem)

theorem access_kept {items : List (DOQueueItem ε)} {f : DOQueueItem ε → DOQueueItem ε} {at_ : Nat}
    (same : ∀ row, (f row).access = row.access) (own : ∃ row, items[item]? = some row ∧ row.access = access) :
    ∃ row, (items.modify at_ f)[item]? = some row ∧ row.access = access := by
  obtain ⟨row,own,asked⟩ := own
  by_cases here : at_ = item
  · subst here
    exact ⟨f row,modify_row own,by rw [same,asked]⟩
  · exact ⟨row,by rw [List.getElem?_modify_ne _ _ here]; exact own,asked⟩

theorem finished_deferred {items : List (DOQueueItem ε)}
    (open_ : ∀ deferred, ¬ ∃ row, items[item]? = some row ∧ row.deferred = some deferred) (known : item < items.length)
    (other : Nat) (deferred : ε) :
    (∃ row, (items.modify item fun row => { row with deferred := row.deferred.or (some exit) })[other]? = some row ∧
        row.deferred = some deferred) ↔
      (∃ row, items[other]? = some row ∧ row.deferred = some deferred) ∨
        (.ended other deferred : Mark ε) = .ended item exit := by
  by_cases here : item = other
  · subst here
    have own := List.getElem?_eq_getElem known
    have none_ : items[item].deferred = none := by
      cases held : items[item].deferred with
      | none => rfl
      | some deferred => exact absurd ⟨_,own,held⟩ (open_ deferred)
    simp [own,none_,eq_comm]
  · rw [List.getElem?_modify_ne _ _ here]
    simp [Ne.symm here]

theorem Kept.finish (kept : Kept s) (runs : running s.loop = [item]) (idle : running (some phase) = [])
    (lines : ∀ access, (s.finish item exit phase).pending access = s.pending access)
    (left : batch (some phase) = batch s.loop) (returns : Returning s.loop → Returning (some phase)) :
    Kept (s.finish item exit phase) := by
  have grown : (s.finish item exit phase).history = s.history ++ [.ended item exit] := rfl
  have queued : ∀ access, queuedItems access (s.finish item exit phase).history = queuedItems access s.history :=
    fun _ => queuedItems_same (by simp)
  have handled : ∀ r, s.Handled r → (s.finish item exit phase).Handled r := by
    intro r known
    apply known.concat grown
    exact fun waits => .inr (left ▸ waits)
  have unended : ∀ exit, .ended item exit ∉ s.history := by
    intro exit ended
    have apart := kept.once
    rw [kept.serial,runs,List.nodup_append] at apart
    exact apart.2.2 item (mem_endedItems.mpr ⟨exit,ended⟩) item (List.mem_singleton_self item) rfl
  have known : item < s.items.length := by
    have ran : item ∈ begun s.history := by
      rw [kept.serial,runs]
      simp
    obtain ⟨row,own⟩ := kept.row_of_begun ran
    exact (List.getElem?_eq_some_iff.mp own).1
  constructor
  · intro unforked; cases unforked
  · intro access
    rw [queued,grown,startedItems_same (by simp),lines]
    exact kept.lines access
  · exact fun access => queued access ▸ kept.ordered access
  · intro access other member
    rw [queued] at member
    exact access_kept (fun _ => rfl) (kept.known access other member)
  · rw [grown,begun_same (by simp),endedItems_concat,kept.serial,runs]
    change _ = _ ++ running (some phase)
    rw [idle,List.append_nil]
  · rw [grown,begun_same (by simp)]
    exact kept.once
  · intro other exit'
    rw [grown,List.mem_append,List.mem_singleton,← kept.answered other exit']
    exact finished_deferred (fun deferred held => unended deferred ((kept.answered item deferred).mp held)) known other exit'
  · intro other row exit' own answer
    rw [grown]
    obtain ⟨before,old,rfl⟩ := modify_row_inv own
    apply List.mem_append_left _ (kept.received other before exit' old _)
    split at answer
    · exact answer
    · exact answer
  · intro r earlier
    rw [grown,earlier_apart (by simp)] at earlier
    exact handled r (kept.taken r earlier)
  · intro r w earlier
    rw [grown,earlier_apart (by simp)] at earlier
    exact (kept.overtaken r w earlier).imp (handled r) returns

theorem Kept.turn (kept : Kept s) (exit : ε) : Kept (s.turn exit) := by
  cases now : s.loop with
  | none => rwa [DOQueues.turn,now]
  | some phase =>
    cases phase with
    | drain => exact kept.drain now exit
    | reads took rest =>
      cases rest with
      | nil =>
        cases write : s.write with
        | nil =>
          rw [turn_idle now write]
          refine kept.goes (t := { s with loop := some (if took then .drain else .asleep) }) rfl rfl ?_ ?_ ?_ ?_ ?_
          · intro access
            cases access <;> cases took <;> simp [pending,now,batch,DOQueues.taken]
          · cases took <;> simp [now,running]
          · cases took <;> simp [now,batch]
          · simp [now,Returning]
          · simp
        | cons item rest =>
          rw [turn_take now write]
          refine kept.goes (t := { s with write := rest,loop := some (.write item) }) rfl rfl ?_ ?_ ?_ ?_ ?_
          · intro access
            cases access <;> simp [pending,now,batch,DOQueues.taken,write]
          · simp [now,running]
          · simp [now,batch]
          · simp [now,Returning]
          · simp
      | cons item rest =>
        rw [turn_reads now]
        apply kept.start
        · simp [now,running]
        · rfl
        · intro other
          cases other <;> simp [pending,now,batch,DOQueues.taken,DOQueues.start]
        · simp [now,batch]
        · exact fun absurd_ => by cases absurd_
        · simp [now,Returning]
    | reading item took rest =>
      rw [turn_reading now]
      apply kept.finish
      · simp [now,running]
      · rfl
      · intro access
        cases access <;> simp [pending,now,batch,DOQueues.taken,DOQueues.finish]
      · simp [now,batch]
      · simp [now,Returning]
    | write item =>
      rw [turn_write now]
      apply kept.start
      · simp [now,running]
      · rfl
      · intro other
        cases other <;> simp [pending,now,batch,DOQueues.taken,DOQueues.start]
      · simp [now,batch]
      · exact fun _ => trivial
      · simp [now,Returning]
    | writing item =>
      rw [turn_writing now]
      apply kept.finish
      · simp [now,running]
      · rfl
      · intro access
        cases access <;> simp [pending,now,batch,DOQueues.taken,DOQueues.finish]
      · simp [now,batch]
      · exact fun _ => trivial
    | asleep =>
      rw [turn_asleep now]
      refine kept.goes (t := { s with loop := some .drain }) rfl rfl ?_ ?_ ?_ ?_ ?_
      · intro access
        cases access <;> simp [pending,now,batch,DOQueues.taken]
      · simp [now,running]
      · simp [now,batch]
      · exact fun _ => trivial
      · simp

theorem Kept.initDataOwnerQueues (kept : Kept s) : Kept s.initDataOwnerQueues := by
  rw [DOQueues.initDataOwnerQueues]
  split
  · next fresh =>
    refine kept.goes (t := { s with loop := some .drain }) rfl rfl ?_ ?_ ?_ ?_ ?_
    · intro access
      cases access <;> simp [pending,fresh,batch,DOQueues.taken]
    · simp [fresh,running]
    · simp [fresh,batch]
    · exact fun _ => trivial
    · simp
  · exact kept

theorem Kept.queued (kept : Kept s) (grown : t.history = s.history ++ [.queued access s.items.length])
    (rows : t.items = s.items ++ [{ access := access }]) (loop : t.loop = s.loop) (forked : s.loop ≠ none)
    (lines : ∀ other, t.pending other = s.pending other ++ if access = other then [s.items.length] else []) :
    Kept t := by
  have handled : ∀ r, s.Handled r → t.Handled r := by
    intro r known
    apply known.concat grown
    exact fun waits => .inr (loop ▸ waits)
  constructor
  · exact fun unforked => absurd (loop ▸ unforked) forked
  · intro other
    rw [grown,queuedItems_concat,startedItems_same (by simp),lines,kept.lines,List.append_assoc]
  · intro other
    rw [grown,queuedItems_concat,List.pairwise_append]
    refine ⟨kept.ordered other,?_,?_⟩
    · split <;> simp
    · intro first member last new_
      obtain ⟨row,own,_⟩ := kept.known other first member
      have inside := (List.getElem?_eq_some_iff.mp own).1
      split at new_
      · rw [List.mem_singleton.mp new_]
        exact inside
      · cases new_
  · intro other item member
    rw [rows]
    rw [grown,queuedItems_concat,List.mem_append] at member
    rcases member with old | new_
    · obtain ⟨row,own,asked⟩ := kept.known other item old
      exact ⟨row,concat_row.mpr (.inl own),asked⟩
    · split at new_
      · next same => exact ⟨_,concat_row.mpr (.inr ⟨List.mem_singleton.mp new_,rfl⟩),same⟩
      · cases new_
  · rw [grown,begun_same (by simp),endedItems_same (by simp),loop]
    exact kept.serial
  · rw [grown,begun_same (by simp)]
    exact kept.once
  · intro item exit
    have same : .ended item exit ∈ s.history ++ [.queued access s.items.length] ↔ .ended item exit ∈ s.history := by
      simp
    rw [grown,same,rows,← kept.answered]
    constructor
    · rintro ⟨row,own,done⟩
      rcases concat_row.mp own with old | ⟨_,rfl⟩
      · exact ⟨row,old,done⟩
      · cases done
    · exact fun ⟨row,own,done⟩ => ⟨row,concat_row.mpr (.inl own),done⟩
  · intro item row exit own answer
    rw [grown]
    rcases concat_row.mp (rows ▸ own) with old | ⟨_,rfl⟩
    · exact List.mem_append_left _ (kept.received item row exit old answer)
    · cases answer
  · intro r earlier
    rw [grown,earlier_apart (by simp)] at earlier
    exact handled r (kept.taken r earlier)
  · intro r w earlier
    rw [grown,earlier_apart (by simp)] at earlier
    rw [loop]
    exact (kept.overtaken r w earlier).imp_left (handled r)

theorem Kept.offer (kept : Kept s) (access : Access) : Kept (s.offer access) := by
  have begun := kept.initDataOwnerQueues
  have grown : (s.offer access).history =
      s.initDataOwnerQueues.history ++ [.queued access s.initDataOwnerQueues.items.length] := by
    cases access <;> rfl
  apply begun.queued grown
  · cases access <;> rfl
  · cases access <;> rfl
  · cases fresh : s.loop <;> simp [DOQueues.initDataOwnerQueues,fresh]
  · intro other
    cases access <;> cases other <;> simp [DOQueues.offer,pending]

theorem Kept.rows (kept : Kept s) (f : DOQueueItem ε → DOQueueItem ε) (item : Nat)
    (same : ∀ row, (f row).access = row.access ∧ (f row).deferred = row.deferred)
    (answers : ∀ row exit, (f row).caller = .received exit → row.caller = .received exit ∨ row.deferred = some exit) :
    Kept { s with items := s.items.modify item f } := by
  have deferred : ∀ (other : Nat) (exit : ε),
      (∃ row : DOQueueItem ε, (s.items.modify item f)[other]? = some row ∧ row.deferred = some exit) ↔
        ∃ row : DOQueueItem ε, s.items[other]? = some row ∧ row.deferred = some exit := by
    intro other exit
    constructor
    · rintro ⟨row,own,done⟩
      obtain ⟨before,old,rfl⟩ := modify_row_inv own
      refine ⟨before,old,?_⟩
      split at done
      · rwa [(same before).2] at done
      · exact done
    · rintro ⟨row,own,done⟩
      by_cases here : item = other
      · subst here
        exact ⟨f row,modify_row own,by rw [(same row).2,done]⟩
      · exact ⟨row,by rw [List.getElem?_modify_ne _ _ here]; exact own,done⟩
  constructor
  · exact kept.forked
  · exact kept.lines
  · exact kept.ordered
  · exact fun access other member => access_kept (fun row => (same row).1) (kept.known access other member)
  · exact kept.serial
  · exact kept.once
  · exact fun other exit => (deferred other exit).trans (kept.answered other exit)
  · intro other row exit own answer
    obtain ⟨before,old,rfl⟩ := modify_row_inv own
    split at answer
    · rcases answers before exit answer with had | done
      · exact kept.received other before exit old had
      · exact (kept.answered other exit).mp ⟨before,old,done⟩
    · exact kept.received other before exit old answer
  · exact kept.taken
  · exact kept.overtaken

theorem Kept.step (kept : Kept s) (event : Event ε) : Kept (s.step event) := by
  cases event with
  | offered access =>
    cases access with
    | read => exact kept.offer .read
    | write => exact kept.offer .write
  | turn exit => exact kept.turn exit
  | resumed item =>
    apply kept.rows answer item
    · rintro ⟨access,deferred,caller⟩
      cases caller <;> cases deferred <;> exact ⟨rfl,rfl⟩
    · rintro ⟨access,deferred,caller⟩ exit got
      cases caller <;> cases deferred <;> simp_all [answer]
  | interrupted item =>
    apply kept.rows interrupt item
    · rintro ⟨access,deferred,caller⟩
      cases caller <;> exact ⟨rfl,rfl⟩
    · rintro ⟨access,deferred,caller⟩ exit got
      cases caller <;> simp_all [interrupt]

theorem start_kept : Kept ({} : DOQueues ε) where
  forked _ := rfl
  lines access := by cases access <;> rfl
  ordered _ := .nil
  known _ _ member := by cases member
  serial := rfl
  once := .nil
  answered item exit := by simp
  received item row exit own := by simp at own
  taken r earlier := absurd earlier earlier_nil
  overtaken r w earlier := absurd earlier earlier_nil

theorem Kept.serialised (kept : Kept s) : Serialised s where
  alone := by
    refine ⟨running s.loop,kept.serial,?_⟩
    unfold running
    split <;> simp
  once := kept.once
  inOrder access := ⟨s.pending access,(kept.lines access).symm⟩
  answered := kept.answered
  received := kept.received

theorem offer_history (s : DOQueues ε) (access : Access) :
    (s.offer access).history = s.history ++ [.queued access s.items.length] := by
  cases access <;> cases fresh : s.loop <;> simp [DOQueues.offer,DOQueues.initDataOwnerQueues,fresh]

theorem StartsWrite.loop {event : Event ε} (starts : s.StartsWrite event) : ∃ w, s.loop = some (.write w) := by
  obtain ⟨w,grown⟩ := starts
  cases event with
  | offered access =>
    cases access with
    | read => simp [DOQueues.step,DOQueues.dataOwnerRead,offer_history] at grown
    | write => simp [DOQueues.step,DOQueues.dataOwnerWrite,offer_history] at grown
  | resumed item => simp [DOQueues.step] at grown
  | interrupted item => simp [DOQueues.step] at grown
  | turn exit =>
    rw [DOQueues.step,DOQueues.turn] at grown
    split at grown
    · simp at grown
    · simp at grown
    · simp [DOQueues.start] at grown
    · simp [DOQueues.finish] at grown
    · split at grown <;> simp at grown
    · next item now => exact ⟨item,now⟩
    · simp [DOQueues.finish] at grown
    · simp at grown

theorem Kept.readsNext (kept : Kept s) (event : Event ε) : s.ReadsNext event := by
  rintro starts r earlier
  obtain ⟨w,now⟩ := starts.loop
  have handled : s.Handled r := by
    rcases earlier with drained | ⟨other,overtaken⟩
    · exact kept.taken r drained
    · rcases kept.overtaken r other overtaken with handled | returning
      · exact handled
      · rw [now] at returning
        exact returning.elim
  rcases handled with ran | waits
  · exact ran
  · rw [now] at waits
    cases waits

end

end DOQueues

end ApexLs.Server
