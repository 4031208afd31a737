import ApexLs.Collections.Runs
import Mathlib.Data.List.Perm.Basic

/-! The batcher of opened documents. Its effects run in fibers: a fiber goes on until it awaits
a promise or the end of a fiber it interrupts, and what it does in between is one step here. A
rejected promise is a defect: it ends the fiber, and no `catch` or `finally` of it runs. -/
namespace ApexLs.Services

open ApexLs.Collections

structure OpenItem where
  call : Nat
  uri : String
  deriving DecidableEq, Repr

inductive Origin where
  | add (item : OpenItem)
  | timer (fiber : Nat)
  | caller
  deriving DecidableEq, Repr

/-- What a suspended flush waits for: the end of the timer fiber it interrupts, or a promise of
the processing service. `fallback` is at the documents a short batch result has left out. -/
inductive FlushStage where
  | interrupting (items : List OpenItem)
  | single (item : OpenItem)
  | batch (items : List OpenItem)
  | fallback (item : OpenItem) (rest : List OpenItem)
  deriving DecidableEq, Repr

/-- A suspended fiber. `starting` and `shuttingDown` wait for the end of a timer fiber,
`immediate` for the processing of a document opened during a flush. -/
inductive Task where
  | flush (origin : Origin) (stage : FlushStage)
  | starting
  | shuttingDown
  | immediate (item : OpenItem)
  deriving DecidableEq, Repr

def Origin.call : Origin → List OpenItem
  | .add item => [item]
  | _ => []

/-- The documents a fiber has taken. A flush that is still to clear the queue has taken none. -/
def Task.items : Task → List OpenItem
  | .flush _ (.interrupting _) => []
  | .flush _ (.single item) => [item]
  | .flush _ (.batch items) => items
  | .flush _ (.fallback item rest) => item :: rest
  | .starting => []
  | .shuttingDown => []
  | .immediate item => [item]

def Task.isFlush : Task → Bool
  | .flush _ _ => true
  | _ => false

def FlushStage.Queue (pending : List OpenItem) : FlushStage → Prop
  | .interrupting items => pending = items
  | _ => pending = []

/-- The batcher and its fibers. `sleeping` are the timer fibers whose window is open, `resolved`
the calls that were answered and `died` those a defect has ended; `opened` and `processed` record
the calls and what the processing service made of their documents. -/
structure DocumentOpenBatcher (ρ : Type) where
  batchSizeThreshold : Nat := 5
  maxBatchSize : Nat := 50
  pending : List OpenItem := []
  isFlushing : Bool := false
  timerFiber : Option Nat := none
  sleeping : List Nat := []
  forked : Nat := 0
  tasks : List Task := []
  resolved : List (OpenItem × ρ) := []
  died : List OpenItem := []
  opened : List OpenItem := []
  processed : List (OpenItem × ρ) := []

namespace DocumentOpenBatcher

variable {ρ : Type}

def suspend (b : DocumentOpenBatcher ρ) (task : Task) : DocumentOpenBatcher ρ :=
  { b with tasks := b.tasks ++ [task] }

def interrupt (b : DocumentOpenBatcher ρ) (fiber : Nat) : DocumentOpenBatcher ρ :=
  { b with sleeping := b.sleeping.filter (· ≠ fiber) }

/-- `flushBatch` from its snapshot on: the queue is cleared and the first promise awaited. -/
def takeBatch (b : DocumentOpenBatcher ρ) (origin : Origin) (items : List OpenItem) : DocumentOpenBatcher ρ :=
  let b := { b with pending := [] }
  match items with
  | [single] => b.suspend (.flush origin (.single single))
  | items => b.suspend (.flush origin (.batch items))

def flushBatch (b : DocumentOpenBatcher ρ) (origin : Origin) : DocumentOpenBatcher ρ :=
  if b.isFlushing || b.pending = [] then b
  else
    let b := { b with isFlushing := true }
    match b.timerFiber with
    | none => b.takeBatch origin b.pending
    | some tf =>
      let b := b.interrupt tf
      -- the timer fiber that runs the flush ends itself here
      if origin = .timer tf then b else b.suspend (.flush origin (.interrupting b.pending))

def forkTimer (b : DocumentOpenBatcher ρ) : DocumentOpenBatcher ρ :=
  { b with sleeping := b.sleeping ++ [b.forked],timerFiber := some b.forked,forked := b.forked + 1 }

def startTimer (b : DocumentOpenBatcher ρ) : DocumentOpenBatcher ρ :=
  match b.timerFiber with
  | none => b.forkTimer
  | some existing => (b.interrupt existing).suspend .starting

def addDocumentOpen (b : DocumentOpenBatcher ρ) (uri : String) : DocumentOpenBatcher ρ :=
  let item : OpenItem := ⟨b.opened.length,uri⟩
  let b := { b with opened := b.opened ++ [item] }
  if b.isFlushing then b.suspend (.immediate item)
  else
    let b := { b with pending := b.pending ++ [item] }
    let size := b.pending.length
    if size ≥ b.batchSizeThreshold ∨ size ≥ b.maxBatchSize then b.flushBatch (.add item)
    else if size = 1 ∧ b.batchSizeThreshold > 1 then b.startTimer
    else b

def shutdown (b : DocumentOpenBatcher ρ) : DocumentOpenBatcher ρ :=
  match b.timerFiber with
  | none => b.flushBatch .caller
  | some tf => (b.interrupt tf).suspend .shuttingDown

def answer (b : DocumentOpenBatcher ρ) (item : OpenItem) (result : ρ) : DocumentOpenBatcher ρ :=
  { b with resolved := b.resolved ++ [(item,result)] }

/-- The loop over the documents a batch result has left out, or the end of the flush. -/
def fallBack (b : DocumentOpenBatcher ρ) (origin : Origin) : List OpenItem → DocumentOpenBatcher ρ
  | [] => { b with isFlushing := false }
  | item :: rest => b.suspend (.flush origin (.fallback item rest))

/-- What a promise settles with: one result for a document or one for each of a batch, or an
error. -/
inductive Settlement (ρ : Type) where
  | result (result : ρ)
  | results (results : List ρ)
  | rejected

/-- A fiber goes on after its promise has settled. -/
def settle (b : DocumentOpenBatcher ρ) : Task → Settlement ρ → DocumentOpenBatcher ρ
  | .flush _ (.single item),.result r => { b.answer item r with isFlushing := false }
  | .flush origin (.batch items),.results results =>
    ((items.zip results).foldl (fun b answered => b.answer answered.1 answered.2) b).fallBack origin
      (items.drop results.length)
  | .flush origin (.fallback item rest),.result r => (b.answer item r).fallBack origin rest
  | .immediate item,.result r => b.answer item r
  | .flush origin _,_ => { b with died := b.died ++ origin.call }
  | .immediate item,_ => { b with died := b.died ++ [item] }
  | _,_ => b

/-- The settlement is one the promise of the task can have. -/
def Awaits : Task → Settlement ρ → Bool
  | .flush _ (.single _),.result _ => true
  | .flush _ (.single _),.rejected => true
  | .flush _ (.batch _),.results _ => true
  | .flush _ (.batch _),.rejected => true
  | .flush _ (.fallback _ _),.result _ => true
  | .flush _ (.fallback _ _),.rejected => true
  | .immediate _,.result _ => true
  | .immediate _,.rejected => true
  | _,_ => false

/-- What a settlement tells about the documents of a task: the results of a batch are in the
order of its documents. -/
def made : Task → Settlement ρ → List (OpenItem × ρ)
  | .flush _ (.single item),.result r => [(item,r)]
  | .flush _ (.batch items),.results results => items.zip results
  | .flush _ (.fallback item _),.result r => [(item,r)]
  | .immediate item,.result r => [(item,r)]
  | _,_ => []

/-- A fiber goes on after the fiber it has interrupted is at its end. -/
def resume (b : DocumentOpenBatcher ρ) : Task → Option (DocumentOpenBatcher ρ)
  | .flush origin (.interrupting items) => some ({ b with timerFiber := none : DocumentOpenBatcher ρ }.takeBatch origin items)
  | .starting => some b.forkTimer
  | .shuttingDown => some ({ b with timerFiber := none : DocumentOpenBatcher ρ }.flushBatch .caller)
  | _ => none

inductive Event (ρ : Type) where
  | addDocumentOpen (uri : String)
  | forceFlush
  | shutdown
  | timer (fiber : Nat)
  | resumed (task : Nat)
  | settled (task : Nat) (settlement : Settlement ρ)

def withoutTask (b : DocumentOpenBatcher ρ) (task : Nat) : DocumentOpenBatcher ρ :=
  { b with tasks := b.tasks.eraseIdx task }

def step (b : DocumentOpenBatcher ρ) : Event ρ → DocumentOpenBatcher ρ
  | .addDocumentOpen uri => b.addDocumentOpen uri
  | .forceFlush => b.flushBatch .caller
  | .shutdown => b.shutdown
  | .timer fiber => if fiber ∈ b.sleeping then (b.interrupt fiber).flushBatch (.timer fiber) else b
  | .resumed number =>
    match b.tasks[number]? with
    | none => b
    | some task => ((b.withoutTask number).resume task).getD b
  | .settled number settlement =>
    match b.tasks[number]? with
    | none => b
    | some task =>
      if Awaits task settlement then
        { (b.withoutTask number).settle task settlement with processed := b.processed ++ made task settlement }
      else b

/-- Every call is waiting, taken or answered, in one place and once; answers are what became of
the call's own document; the flag tells whether a flush is in progress; no call has died; and
waiting calls are attended to. -/
structure Sound (b : DocumentOpenBatcher ρ) : Prop where
  accounted : ∀ item, b.pending.count item + (b.tasks.flatMap Task.items).count item +
    (b.resolved.map Prod.fst).count item = if item ∈ b.opened then 1 else 0
  own : ∀ answered ∈ b.resolved, answered ∈ b.processed
  flag : b.isFlushing = true ↔ ∃ task ∈ b.tasks, task.isFlush = true
  alive : b.died = []
  attended : b.pending ≠ [] →
    b.isFlushing = true ∨ b.sleeping ≠ [] ∨ .starting ∈ b.tasks ∨ .shuttingDown ∈ b.tasks

/-- The current timer does not fire while documents wait for a flush, and no processing promise
is rejected. -/
def Delivers (b : DocumentOpenBatcher ρ) : Event ρ → Prop
  | .timer fiber => fiber ∈ b.sleeping → b.timerFiber = some fiber → b.isFlushing = false → b.pending = []
  | .settled number .rejected => ∀ task, b.tasks[number]? = some task → ¬ Awaits task (.rejected : Settlement ρ)
  | _ => True

structure Kept (b : DocumentOpenBatcher ρ) : Prop where
  numbered : ∀ item ∈ b.opened, item.call < b.opened.length
  single : (b.tasks.filter Task.isFlush).length ≤ 1
  queue : ∀ origin stage, .flush origin stage ∈ b.tasks → stage.Queue b.pending

end DocumentOpenBatcher
end ApexLs.Services
