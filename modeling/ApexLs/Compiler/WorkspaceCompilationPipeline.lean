import Mathlib.Data.Rat.Floor
import ApexLs.Collections.PartialRuns
import ApexLs.Collections.Rows

/-! The workspace compile pipeline. Producers compile a bounded number of entries at a time and
offer what comes of them to a bounded queue; one consumer takes an item for each entry and commits
what was compiled. -/
namespace ApexLs.Compiler

open ApexLs.Collections

variable {Entry : Type u₁} {Compiled : Type u₂} {Result : Type u₃} {Cause : Type u₄} {CommitError : Type u₅}

structure WorkspaceCompilationPipelineOptions (Entry : Type u₁) (Compiled : Type u₂) (Result : Type u₃)
    (Cause : Type u₄) (CommitError : Type u₅) where
  entries : List Entry
  parallelism : Rat
  bufferCapacity : Rat
  compile : Entry → Nat → Except Cause Compiled
  commit : Compiled → Entry → Nat → Except CommitError Result

structure CompilationQueueItem (Entry : Type u₁) (Compiled : Type u₂) (Cause : Type u₄) where
  entry : Entry
  index : Nat
  result : Except Cause Compiled

structure WorkspaceCompilationFailure (Entry : Type u₁) (Cause : Type u₄) where
  entry : Entry
  index : Nat
  cause : Cause

structure WorkspaceCompilationPipelineResult (Entry : Type u₁) (Result : Type u₃) (Cause : Type u₄) where
  results : List Result
  failures : List (WorkspaceCompilationFailure Entry Cause)

/-- Where the consumer is: waiting for an item, in a commit, after its loop, leaving the scope with
the error of a commit, or at the end of the pipeline. -/
inductive Consumer (Entry : Type u₁) (Compiled : Type u₂) (CommitError : Type u₅) where
  | taking
  | committing (value : Compiled) (entry : Entry) (index : Nat)
  | joining
  | failing (error : CommitError)
  | ended

/-- A pipeline in progress. `next` is the first entry no producer has started; `compiling` and
`offering` are the entries producers are at. `commitCalls`, `commits` and `stopped` tell which commits
were begun, which ended and how, and which entries were given up when the producers were interrupted. -/
structure WorkspaceCompilationPipeline (Entry : Type u₁) (Compiled : Type u₂) (Result : Type u₃) (Cause : Type u₄)
    (CommitError : Type u₅) where
  next : Nat := 0
  compiling : List (Entry × Nat) := []
  offering : List (CompilationQueueItem Entry Compiled Cause) := []
  queue : List (CompilationQueueItem Entry Compiled Cause) := []
  interrupted : Bool := false
  processed : Nat := 0
  consumer : Consumer Entry Compiled CommitError
  committed : List (Option Result)
  failures : List (WorkspaceCompilationFailure Entry Cause) := []
  outcome : Option (Except CommitError (WorkspaceCompilationPipelineResult Entry Result Cause)) := none
  commitCalls : List Nat := []
  commits : List (Nat × Except CommitError Result) := []
  stopped : List Nat := []

namespace WorkspaceCompilationPipeline

variable (o : WorkspaceCompilationPipelineOptions Entry Compiled Result Cause CommitError)
  (s : WorkspaceCompilationPipeline Entry Compiled Result Cause CommitError)

/-- `Math.max(1, Math.floor(…))`. -/
def atLeastOne (amount : Rat) : Nat := (max 1 ⌊amount⌋).toNat

def proceed (processed : Nat) : WorkspaceCompilationPipeline Entry Compiled Result Cause CommitError :=
  { s with processed,consumer := if processed < o.entries.length then .taking else .joining }

def runWorkspaceCompilationPipeline : WorkspaceCompilationPipeline Entry Compiled Result Cause CommitError :=
  proceed o { consumer := .taking,committed := .replicate o.entries.length none } 0

def produce : Option (WorkspaceCompilationPipeline Entry Compiled Result Cause CommitError) :=
  if s.interrupted = false ∧ s.compiling.length + s.offering.length < atLeastOne o.parallelism then
    o.entries[s.next]?.map fun entry => { s with next := s.next + 1,compiling := s.compiling ++ [(entry,s.next)] }
  else none

def compiled (k : Nat) : Option (WorkspaceCompilationPipeline Entry Compiled Result Cause CommitError) :=
  if s.interrupted = false then
    s.compiling[k]?.map fun (entry,index) =>
      { s with
        compiling := s.compiling.eraseIdx k
        offering := s.offering ++ [⟨entry,index,o.compile entry index⟩] }
  else none

def offered (k : Nat) : Option (WorkspaceCompilationPipeline Entry Compiled Result Cause CommitError) :=
  if s.interrupted = false ∧ s.queue.length < atLeastOne o.bufferCapacity then
    s.offering[k]?.map fun item => { s with offering := s.offering.eraseIdx k,queue := s.queue ++ [item] }
  else none

def take : Option (WorkspaceCompilationPipeline Entry Compiled Result Cause CommitError) :=
  match s.consumer,s.queue with
  | .taking,item :: rest =>
    match item.result with
    | .error cause =>
      some (proceed o { s with queue := rest,failures := s.failures ++ [⟨item.entry,item.index,cause⟩] } (s.processed + 1))
    | .ok value =>
      some { s with
        queue := rest
        consumer := .committing value item.entry item.index
        commitCalls := s.commitCalls ++ [item.index] }
  | _,_ => none

def commit : Option (WorkspaceCompilationPipeline Entry Compiled Result Cause CommitError) :=
  match s.consumer with
  | .committing value entry index =>
    match o.commit value entry index with
    | .ok result =>
      some (proceed o { s with
        committed := s.committed.set index (some result)
        commits := s.commits ++ [(index,.ok result)] } (s.processed + 1))
    | .error error => some { s with consumer := .failing error,commits := s.commits ++ [(index,.error error)] }
  | _ => none

def join : Option (WorkspaceCompilationPipeline Entry Compiled Result Cause CommitError) :=
  match s.consumer with
  | .joining =>
    if s.next = o.entries.length ∧ s.compiling = [] ∧ s.offering = [] then
      some { s with
        consumer := .ended
        outcome := some (.ok ⟨s.committed.flatMap Option.toList,s.failures⟩) }
    else none
  | _ => none

def interrupt : Option (WorkspaceCompilationPipeline Entry Compiled Result Cause CommitError) :=
  match s.consumer with
  | .failing _ => if s.interrupted = false then some { s with interrupted := true } else none
  | _ => none

def stopCompiling (k : Nat) : Option (WorkspaceCompilationPipeline Entry Compiled Result Cause CommitError) :=
  if s.interrupted = true then
    s.compiling[k]?.map fun (_,index) =>
      { s with compiling := s.compiling.eraseIdx k,stopped := s.stopped ++ [index] }
  else none

def stopOffering (k : Nat) : Option (WorkspaceCompilationPipeline Entry Compiled Result Cause CommitError) :=
  if s.interrupted = true then
    s.offering[k]?.map fun item =>
      { s with offering := s.offering.eraseIdx k,stopped := s.stopped ++ [item.index] }
  else none

def close : Option (WorkspaceCompilationPipeline Entry Compiled Result Cause CommitError) :=
  match s.consumer with
  | .failing error =>
    if s.interrupted = true ∧ s.compiling = [] ∧ s.offering = [] then
      some { s with consumer := .ended,outcome := some (.error error) }
    else none
  | _ => none

inductive Event where
  | produce
  | compiled (k : Nat)
  | offered (k : Nat)
  | take
  | commit
  | join
  | interrupt
  | stopCompiling (k : Nat)
  | stopOffering (k : Nat)
  | close

def step : Event → Option (WorkspaceCompilationPipeline Entry Compiled Result Cause CommitError)
  | .produce => s.produce o
  | .compiled k => s.compiled o k
  | .offered k => s.offered o k
  | .take => s.take o
  | .commit => s.commit o
  | .join => s.join o
  | .interrupt => s.interrupt
  | .stopCompiling k => s.stopCompiling k
  | .stopOffering k => s.stopOffering k
  | .close => s.close

def failureOf (compilation : Entry × Nat) : Option (WorkspaceCompilationFailure Entry Cause) :=
  match o.compile compilation.1 compilation.2 with
  | .ok _ => none
  | .error cause => some ⟨compilation.1,compilation.2,cause⟩

def commitOf (compilation : Entry × Nat) : Option (Nat × Except CommitError Result) :=
  match o.compile compilation.1 compilation.2 with
  | .ok value => some (compilation.2,o.commit value compilation.1 compilation.2)
  | .error _ => none

/-- What holds in every state of a pipeline. A commit ends before the next one begins, and after
one that failed none does. -/
structure Within : Prop where
  parallel : s.compiling.length ≤ atLeastOne o.parallelism
  alone : ∃ running, s.commitCalls = s.commits.map Prod.fst ++ running ∧ running.length ≤ 1
  once : s.commitCalls.Nodup
  last : ∀ front index error back, s.commits = front ++ (index,.error error) :: back →
    back = [] ∧ s.commitCalls = s.commits.map Prod.fst

def Accounts : Prop :=
  match s.outcome with
  | some (.ok result) =>
    (∀ call ∈ s.commits, ∃ value, call.2 = .ok value) ∧
      s.commits.Perm (o.entries.zipIdx.filterMap (commitOf o)) ∧
      result.failures.Perm (o.entries.zipIdx.filterMap (failureOf o)) ∧
      result.results = o.entries.zipIdx.filterMap fun compilation =>
        (commitOf o compilation).bind fun call => call.2.toOption
  | some (.error error) =>
    (∃ index, s.commits.getLast? = some (index,.error error)) ∧ s.compiling = [] ∧ s.offering = []
  | none => False

def committing : Consumer Entry Compiled CommitError → List Nat
  | .committing _ _ index => [index]
  | _ => []

def places (index : Nat) : Nat :=
  (s.commits.map Prod.fst).count index + (s.failures.map (·.index)).count index +
    (committing s.consumer).count index + (s.queue.map (·.index)).count index +
    (s.offering.map (·.index)).count index + (s.compiling.map Prod.snd).count index + s.stopped.count index

def size : Nat :=
  s.commits.length + s.failures.length + (committing s.consumer).length + s.queue.length + s.offering.length +
    s.compiling.length + s.stopped.length

structure Clean : Prop where
  succeeded : ∀ call ∈ s.commits, ∃ value, call.2 = .ok value
  processed : s.processed = s.commits.length + s.failures.length
  whole : s.interrupted = false ∧ s.stopped = []

def Broken (error : CommitError) : Prop :=
  ∃ front index, s.commits = front ++ [(index,.error error)] ∧ ∀ call ∈ front, ∃ value, call.2 = .ok value

def Standing : Prop :=
  match s.consumer with
  | .taking => Clean s ∧ s.processed < o.entries.length
  | .committing value entry index =>
    Clean s ∧ s.processed < o.entries.length ∧ o.entries[index]? = some entry ∧ o.compile entry index = .ok value
  | .joining => Clean s ∧ s.processed = o.entries.length
  | .failing error => Broken s error
  | .ended =>
    s.compiling = [] ∧ s.offering = [] ∧
      match s.outcome with
      | some (.ok result) =>
        Clean s ∧ s.processed = o.entries.length ∧ result = ⟨s.committed.flatMap Option.toList,s.failures⟩
      | some (.error error) => Broken s error ∧ s.interrupted = true
      | none => False

structure Kept : Prop where
  placed : ∀ index, s.places index = if index < s.next then 1 else 0
  sized : s.size = s.next
  started : s.next ≤ o.entries.length
  busy : s.compiling.length + s.offering.length ≤ atLeastOne o.parallelism
  sources : ∀ compilation ∈ s.compiling, o.entries[compilation.2]? = some compilation.1
  items : ∀ item ∈ s.queue ++ s.offering,
    o.entries[item.index]? = some item.entry ∧ item.result = o.compile item.entry item.index
  reported : ∀ failure ∈ s.failures,
    o.entries[failure.index]? = some failure.entry ∧ o.compile failure.entry failure.index = .error failure.cause
  made : ∀ call ∈ s.commits, ∃ entry value,
    o.entries[call.1]? = some entry ∧ o.compile entry call.1 = .ok value ∧ o.commit value entry call.1 = call.2
  calls : s.commitCalls = s.commits.map Prod.fst ++ committing s.consumer
  stored : s.committed.length = o.entries.length ∧
    ∀ index result, s.committed[index]? = some (some result) ↔ (index,.ok result) ∈ s.commits
  standing : Standing o s

section

variable {o s} {t : WorkspaceCompilationPipeline Entry Compiled Result Cause CommitError}

theorem Standing.same (standing : Standing o s) (consumer : t.consumer = s.consumer) (going : s.consumer ≠ .ended)
    (commits : t.commits = s.commits) (failures : t.failures = s.failures) (processed : t.processed = s.processed)
    (whole : s.interrupted = false → t.interrupted = false ∧ t.stopped = s.stopped) : Standing o t := by
  have clean : Clean s → Clean t := by
    rintro ⟨succeeded,counted,whole_⟩
    refine ⟨commits ▸ succeeded,by rw [processed,commits,failures,counted],(whole whole_.1).1,?_⟩
    rw [(whole whole_.1).2,whole_.2]
  rw [Standing] at standing ⊢
  rw [consumer]
  cases now : s.consumer with
  | taking =>
    rw [now] at standing
    exact ⟨clean standing.1,processed ▸ standing.2⟩
  | committing value entry index =>
    rw [now] at standing
    exact ⟨clean standing.1,processed ▸ standing.2.1,standing.2.2⟩
  | joining =>
    rw [now] at standing
    exact ⟨clean standing.1,processed ▸ standing.2⟩
  | failing error =>
    rw [now] at standing
    change Broken t error
    rw [Broken,commits]
    exact standing
  | ended => exact absurd now going

theorem Kept.going (kept : Kept o s) (works : s.compiling ≠ [] ∨ s.offering ≠ []) : s.consumer ≠ .ended := by
  intro ended
  have standing := kept.standing
  rw [Standing,ended] at standing
  rcases works with compiles | offers
  · exact compiles standing.1
  · exact offers standing.2.1

theorem Kept.through (kept : Kept o s) (clean : Clean s) (all : s.processed = o.entries.length) :
    s.next = o.entries.length ∧ s.queue = [] ∧ s.offering = [] ∧ s.compiling = [] ∧ committing s.consumer = [] := by
  have sized := kept.sized
  have started := kept.started
  have counted := clean.processed
  rw [size] at sized
  refine ⟨by omega,?_,?_,?_,?_⟩ <;> apply List.eq_nil_of_length_eq_zero <;> omega

theorem Kept.starting (kept : Kept o s) (free : s.interrupted = false) (left : s.next < o.entries.length) :
    s.consumer ≠ .ended := by
  intro ended
  have standing := kept.standing
  rw [Standing,ended] at standing
  obtain ⟨_,_,standing⟩ := standing
  cases outcome : s.outcome with
  | none => rw [outcome] at standing; exact standing
  | some outcome_ =>
    rw [outcome] at standing
    cases outcome_ with
    | ok result =>
      have through := (kept.through standing.1 standing.2.1).1
      omega
    | error error => exact absurd (free.symm.trans standing.2) Bool.false_ne_true

theorem Kept.produce (kept : Kept o s) (went : s.produce o = some t) : Kept o t := by
  rw [WorkspaceCompilationPipeline.produce] at went
  split at went
  · next free =>
    obtain ⟨entry,source,rfl⟩ := Option.map_eq_some_iff.mp went
    have inside := (List.getElem?_eq_some_iff.mp source).1
    constructor
    · intro index
      have placed := kept.placed index
      simp only [places,count_concat] at placed ⊢
      split at placed <;> split <;> split <;> omega
    · have sized := kept.sized
      simp only [size,List.length_append,List.length_singleton] at sized ⊢
      omega
    · exact inside
    · have free := free.2
      simp only [List.length_append,List.length_singleton]
      omega
    · intro compilation member
      rcases List.mem_append.mp member with old | new_
      · exact kept.sources compilation old
      · obtain rfl := List.mem_singleton.mp new_
        exact source
    · exact kept.items
    · exact kept.reported
    · exact kept.made
    · exact kept.calls
    · exact kept.stored
    · exact kept.standing.same rfl (kept.starting free.1 inside) rfl rfl rfl (fun whole => ⟨whole,rfl⟩)
  · cases went

theorem Kept.compiled (kept : Kept o s) (went : s.compiled o k = some t) : Kept o t := by
  rw [WorkspaceCompilationPipeline.compiled] at went
  split at went
  · obtain ⟨⟨entry,index⟩,own,rfl⟩ := Option.map_eq_some_iff.mp went
    have member := List.mem_of_getElem? own
    have shorter := length_eraseIdx_of_row own
    constructor
    · intro other
      have placed := kept.placed other
      have left := count_eraseIdx Prod.snd other own
      simp only [places,count_concat] at placed left ⊢
      omega
    · have sized := kept.sized
      simp only [size,List.length_append,List.length_singleton] at sized ⊢
      omega
    · exact kept.started
    · have busy := kept.busy
      simp only [List.length_append,List.length_singleton]
      omega
    · exact fun compilation member => kept.sources compilation (List.mem_of_mem_eraseIdx member)
    · intro item among
      rw [← List.append_assoc] at among
      rcases List.mem_append.mp among with old | new_
      · exact kept.items item old
      · obtain rfl := List.mem_singleton.mp new_
        exact ⟨kept.sources _ member,rfl⟩
    · exact kept.reported
    · exact kept.made
    · exact kept.calls
    · exact kept.stored
    · have going := kept.going (.inl (List.ne_nil_of_mem member))
      exact kept.standing.same rfl going rfl rfl rfl (fun whole => ⟨whole,rfl⟩)
  · cases went

theorem Kept.offered (kept : Kept o s) (went : s.offered o k = some t) : Kept o t := by
  rw [WorkspaceCompilationPipeline.offered] at went
  split at went
  · obtain ⟨item,own,rfl⟩ := Option.map_eq_some_iff.mp went
    have member := List.mem_of_getElem? own
    have shorter := length_eraseIdx_of_row own
    constructor
    · intro other
      have placed := kept.placed other
      have left := count_eraseIdx (fun item : CompilationQueueItem Entry Compiled Cause => item.index) other own
      simp only [places,count_concat] at placed ⊢
      omega
    · have sized := kept.sized
      simp only [size,List.length_append,List.length_singleton] at sized ⊢
      omega
    · exact kept.started
    · have busy := kept.busy
      simp only
      omega
    · exact kept.sources
    · intro other among
      rcases List.mem_append.mp among with queued | left
      · rcases List.mem_append.mp queued with old | new_
        · exact kept.items other (List.mem_append_left _ old)
        · obtain rfl := List.mem_singleton.mp new_
          exact kept.items other (List.mem_append_right _ member)
      · exact kept.items other (List.mem_append_right _ (List.mem_of_mem_eraseIdx left))
    · exact kept.reported
    · exact kept.made
    · exact kept.calls
    · exact kept.stored
    · have going := kept.going (.inr (List.ne_nil_of_mem member))
      exact kept.standing.same rfl going rfl rfl rfl (fun whole => ⟨whole,rfl⟩)
  · cases went

theorem standing_proceed {count : Nat} (clean : Clean (proceed o s count)) (inside : count ≤ o.entries.length) :
    Standing o (proceed o s count) := by
  rw [Standing]
  by_cases more : count < o.entries.length
  · have now : (proceed o s count).consumer = .taking := if_pos more
    rw [now]
    exact ⟨clean,more⟩
  · have now : (proceed o s count).consumer = .joining := if_neg more
    rw [now]
    exact ⟨clean,(by omega : count = o.entries.length)⟩

theorem committing_proceed {count : Nat} : committing (proceed o s count).consumer = [] := by
  by_cases more : count < o.entries.length
  · rw [proceed,if_pos more]
    rfl
  · rw [proceed,if_neg more]
    rfl

theorem Kept.take (kept : Kept o s) (went : s.take o = some t) : Kept o t := by
  rw [WorkspaceCompilationPipeline.take] at went
  split at went
  · next item rest now queue =>
    have standing := kept.standing
    rw [Standing,now] at standing
    obtain ⟨clean,inside⟩ := standing
    have placed := kept.placed
    have sized := kept.sized
    have items := kept.items
    have calls := kept.calls
    rw [queue] at items
    simp only [places,size,now,queue,committing,List.map_cons,List.count_cons,List.length_cons,List.length_nil,
      List.count_nil,beq_iff_eq] at placed sized
    simp only [now,committing,List.append_nil] at calls
    obtain ⟨source,result⟩ := items item List.mem_cons_self
    have rest_ : ∀ other ∈ rest ++ s.offering,
        o.entries[other.index]? = some other.entry ∧ other.result = o.compile other.entry other.index :=
      fun other member => items other (List.mem_cons_of_mem _ member)
    split at went
    · next cause failed =>
      obtain rfl := Option.some.inj went
      constructor
      · intro index
        have placed := placed index
        rw [places,committing_proceed]
        change _ = if index < s.next then 1 else 0
        simp only [proceed,count_concat,List.count_nil]
        omega
      · rw [size,committing_proceed]
        simp only [proceed,List.length_append,List.length_singleton,List.length_nil]
        omega
      · exact kept.started
      · exact kept.busy
      · exact kept.sources
      · exact rest_
      · intro failure member
        rcases List.mem_append.mp member with old | new_
        · exact kept.reported failure old
        · obtain rfl := List.mem_singleton.mp new_
          exact ⟨source,result.symm.trans failed⟩
      · exact kept.made
      · rw [committing_proceed,List.append_nil]
        exact calls
      · exact kept.stored
      · apply standing_proceed
        · refine ⟨clean.succeeded,?_,clean.whole⟩
          have counted := clean.processed
          simp only [proceed,List.length_append,List.length_singleton]
          omega
        · exact inside
    · next value compiled_ =>
      obtain rfl := Option.some.inj went
      constructor
      · intro index
        have placed := placed index
        simp only [places,committing,List.count_singleton,beq_iff_eq]
        omega
      · simp only [size,committing,List.length_singleton]
        omega
      · exact kept.started
      · exact kept.busy
      · exact kept.sources
      · exact rest_
      · exact kept.reported
      · exact kept.made
      · rw [calls]
        rfl
      · exact kept.stored
      · exact ⟨⟨clean.succeeded,clean.processed,clean.whole⟩,inside,source,result.symm.trans compiled_⟩
  · cases went

theorem stored_set {committed : List (Option Result)} {commits : List (Nat × Except CommitError Result)}
    (stored : ∀ index result, committed[index]? = some (some result) ↔ (index,.ok result) ∈ commits)
    (inside : index < committed.length) (fresh : index ∉ commits.map Prod.fst) (result : Result) (other : Nat)
    (value : Result) :
    (committed.set index (some result))[other]? = some (some value) ↔
      (other,.ok value) ∈ commits ++ [(index,.ok result)] := by
  rw [List.mem_append,List.mem_singleton]
  by_cases here : index = other
  · subst here
    have unmade : (index,Except.ok value) ∉ commits := fun made => fresh (List.mem_map_of_mem made)
    simp [inside,unmade,eq_comm]
  · rw [List.getElem?_set_ne here,stored]
    simp [Ne.symm here]

section

variable (kept : Kept o s)
include kept

theorem Kept.commit (went : s.commit o = some t) : Kept o t := by
  rw [WorkspaceCompilationPipeline.commit] at went
  split at went
  · next value entry index now =>
    have standing := kept.standing
    rw [Standing,now] at standing
    obtain ⟨clean,inside,source,compiled_⟩ := standing
    have placed := kept.placed
    have sized := kept.sized
    have calls := kept.calls
    simp only [places,size,now,committing,List.count_singleton,List.length_singleton,beq_iff_eq] at placed sized
    rw [now,committing] at calls
    have fresh : index ∉ s.commits.map Prod.fst := by
      intro made
      have once := placed index
      have more := List.count_pos_iff.mpr made
      rw [if_pos rfl] at once
      split at once <;> omega
    have known := (List.getElem?_eq_some_iff.mp source).1
    have made (outcome : Except CommitError Result) (is_ : o.commit value entry index = outcome) :
        ∀ call ∈ s.commits ++ [(index,outcome)], ∃ entry value, o.entries[call.1]? = some entry ∧
          o.compile entry call.1 = .ok value ∧ o.commit value entry call.1 = call.2 := by
      intro call member
      rcases List.mem_append.mp member with old | new_
      · exact kept.made call old
      · obtain rfl := List.mem_singleton.mp new_
        exact ⟨entry,value,source,compiled_,is_⟩
    split at went
    · next result success =>
      obtain rfl := Option.some.inj went
      constructor
      · intro other
        have placed := placed other
        rw [places,committing_proceed]
        change _ = if other < s.next then 1 else 0
        simp only [proceed,count_concat,List.count_nil]
        omega
      · rw [size,committing_proceed]
        simp only [proceed,List.length_append,List.length_singleton,List.length_nil]
        omega
      · exact kept.started
      · exact kept.busy
      · exact kept.sources
      · exact kept.items
      · exact kept.reported
      · exact made _ success
      · rw [committing_proceed,List.append_nil]
        simpa [proceed] using calls
      · refine ⟨by simpa [proceed] using kept.stored.1,?_⟩
        exact stored_set kept.stored.2 (kept.stored.1.symm ▸ known) fresh result
      · apply standing_proceed
        · refine ⟨?_,?_,clean.whole⟩
          · intro call member
            rcases List.mem_append.mp member with old | new_
            · exact clean.succeeded call old
            · exact ⟨result,by rw [List.mem_singleton.mp new_]⟩
          · have counted := clean.processed
            simp only [proceed,List.length_append,List.length_singleton]
            omega
        · exact inside
    · next error failure =>
      obtain rfl := Option.some.inj went
      constructor
      · intro other
        have placed := placed other
        simp only [places,committing,count_concat,List.count_nil]
        omega
      · simp only [size,committing,List.length_append,List.length_singleton,List.length_nil]
        omega
      · exact kept.started
      · exact kept.busy
      · exact kept.sources
      · exact kept.items
      · exact kept.reported
      · exact made _ failure
      · simpa [committing] using calls
      · refine ⟨kept.stored.1,fun other result => ?_⟩
        rw [kept.stored.2]
        simp
      · exact ⟨s.commits,index,rfl,clean.succeeded⟩
  · cases went

theorem Kept.join (went : s.join o = some t) : Kept o t := by
  rw [WorkspaceCompilationPipeline.join] at went
  split at went
  · next now =>
    split at went
    · next done =>
      obtain rfl := Option.some.inj went
      have standing := kept.standing
      rw [Standing,now] at standing
      have placed := kept.placed
      have sized := kept.sized
      have calls := kept.calls
      simp only [places,size,now] at placed sized calls
      exact ⟨placed,sized,kept.started,kept.busy,kept.sources,kept.items,kept.reported,kept.made,calls,kept.stored,
        done.2.1,done.2.2,⟨standing.1.succeeded,standing.1.processed,standing.1.whole⟩,standing.2,rfl⟩
    · cases went
  · cases went

theorem Kept.interrupt (went : s.interrupt = some t) : Kept o t := by
  rw [WorkspaceCompilationPipeline.interrupt] at went
  split at went
  · next error now =>
    split at went
    · obtain rfl := Option.some.inj went
      have standing := kept.standing
      rw [Standing,now] at standing
      refine ⟨kept.placed,kept.sized,kept.started,kept.busy,kept.sources,kept.items,kept.reported,kept.made,kept.calls,
        kept.stored,?_⟩
      rw [Standing,now]
      exact standing
    · cases went
  · cases went

theorem Kept.failing (interrupted : s.interrupted = true) (going : s.consumer ≠ .ended) :
    ∃ error, s.consumer = .failing error := by
  have standing := kept.standing
  rw [Standing] at standing
  cases now : s.consumer with
  | failing error => exact ⟨error,rfl⟩
  | ended => exact absurd now going
  | _ =>
    rw [now] at standing
    exact absurd (interrupted.symm.trans standing.1.whole.1) Bool.true_eq_false.mp

theorem Kept.close (went : s.close = some t) : Kept o t := by
  rw [WorkspaceCompilationPipeline.close] at went
  split at went
  · next error now =>
    split at went
    · next done =>
      obtain rfl := Option.some.inj went
      have standing := kept.standing
      rw [Standing,now] at standing
      have placed := kept.placed
      have sized := kept.sized
      have calls := kept.calls
      simp only [places,size,now] at placed sized calls
      exact ⟨placed,sized,kept.started,kept.busy,kept.sources,kept.items,kept.reported,kept.made,calls,kept.stored,
        done.2.1,done.2.2,standing,done.1⟩
    · cases went
  · cases went

theorem Kept.stopCompiling (went : s.stopCompiling k = some t) : Kept o t := by
  rw [WorkspaceCompilationPipeline.stopCompiling] at went
  split at went
  · next interrupted =>
    obtain ⟨⟨entry,index⟩,own,rfl⟩ := Option.map_eq_some_iff.mp went
    have going := kept.going (.inl (List.ne_nil_of_mem (List.mem_of_getElem? own)))
    obtain ⟨error,now⟩ := kept.failing interrupted going
    have shorter := length_eraseIdx_of_row own
    constructor
    · intro other
      have placed := kept.placed other
      have left := count_eraseIdx Prod.snd other own
      simp only [places,List.count_append,List.count_singleton,beq_iff_eq] at placed left ⊢
      omega
    · have sized := kept.sized
      simp only [size,List.length_append,List.length_singleton] at sized ⊢
      omega
    · exact kept.started
    · have busy := kept.busy
      simp only
      omega
    · exact fun compilation member => kept.sources compilation (List.mem_of_mem_eraseIdx member)
    · exact kept.items
    · exact kept.reported
    · exact kept.made
    · exact kept.calls
    · exact kept.stored
    · have standing := kept.standing
      rw [Standing,now] at standing ⊢
      exact standing
  · cases went

theorem Kept.stopOffering (went : s.stopOffering k = some t) : Kept o t := by
  rw [WorkspaceCompilationPipeline.stopOffering] at went
  split at went
  · next interrupted =>
    obtain ⟨item,own,rfl⟩ := Option.map_eq_some_iff.mp went
    have going := kept.going (.inr (List.ne_nil_of_mem (List.mem_of_getElem? own)))
    obtain ⟨error,now⟩ := kept.failing interrupted going
    have shorter := length_eraseIdx_of_row own
    constructor
    · intro other
      have placed := kept.placed other
      have left := count_eraseIdx (fun item : CompilationQueueItem Entry Compiled Cause => item.index) other own
      simp only [places,List.count_append,List.count_singleton,beq_iff_eq] at placed left ⊢
      omega
    · have sized := kept.sized
      simp only [size,List.length_append,List.length_singleton] at sized ⊢
      omega
    · exact kept.started
    · have busy := kept.busy
      simp only
      omega
    · exact kept.sources
    · intro other among
      rcases List.mem_append.mp among with queued | left
      · exact kept.items other (List.mem_append_left _ queued)
      · exact kept.items other (List.mem_append_right _ (List.mem_of_mem_eraseIdx left))
    · exact kept.reported
    · exact kept.made
    · exact kept.calls
    · exact kept.stored
    · have standing := kept.standing
      rw [Standing,now] at standing ⊢
      exact standing
  · cases went

theorem Kept.step (event : Event) (went : s.step o event = some t) : Kept o t := by
  cases event with
  | produce => exact kept.produce went
  | compiled k => exact kept.compiled went
  | offered k => exact kept.offered went
  | take => exact kept.take went
  | commit => exact kept.commit went
  | join => exact kept.join went
  | interrupt => exact kept.interrupt went
  | stopCompiling k => exact kept.stopCompiling went
  | stopOffering k => exact kept.stopOffering went
  | close => exact kept.close went

end

theorem start_kept (o : WorkspaceCompilationPipelineOptions Entry Compiled Result Cause CommitError) :
    Kept o (runWorkspaceCompilationPipeline o) where
  placed index := by
    rw [runWorkspaceCompilationPipeline,places,committing_proceed]
    rfl
  sized := by
    rw [runWorkspaceCompilationPipeline,size,committing_proceed]
    rfl
  started := Nat.zero_le _
  busy := Nat.zero_le _
  sources _ member := by cases member
  items _ member := by cases member
  reported _ member := by cases member
  made _ member := by cases member
  calls := by
    rw [runWorkspaceCompilationPipeline,committing_proceed]
    rfl
  stored := by
    refine ⟨List.length_replicate,fun index result => ?_⟩
    simp [runWorkspaceCompilationPipeline,proceed,List.getElem?_replicate]
  standing := standing_proceed ⟨fun _ member => absurd member List.not_mem_nil,rfl,rfl,rfl⟩ (Nat.zero_le _)

end

end WorkspaceCompilationPipeline

end ApexLs.Compiler
