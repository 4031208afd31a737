import Mathlib.Data.List.Basic
import ApexLs.Collections.Effects

/-! How a queued request reports its outcome: through the promise that the submitter returns, and
through the callbacks, which the queued task and the submitter both call. -/
namespace ApexLs.Queue.Requests

open ApexLs.Collections

inductive LSPRequestType where
  | hover
  | completion
  | definition
  | implementation
  | references
  | documentSymbol
  | workspaceSymbol
  | diagnostics
  | codeAction
  | signatureHelp
  | rename
  | prepareRename
  | foldingRange
  | codeLens
  | documentOpen
  | documentSave
  | documentChange
  | documentClose
  | documentLoad
  | findMissingArtifact
  | executeCommand
  | prerequisiteEnrichment
  deriving DecidableEq, Repr

def LSPRequestType.text : LSPRequestType → String
  | hover => "hover"
  | completion => "completion"
  | definition => "definition"
  | implementation => "implementation"
  | references => "references"
  | documentSymbol => "documentSymbol"
  | workspaceSymbol => "workspaceSymbol"
  | diagnostics => "diagnostics"
  | codeAction => "codeAction"
  | signatureHelp => "signatureHelp"
  | rename => "rename"
  | prepareRename => "prepareRename"
  | foldingRange => "foldingRange"
  | codeLens => "codeLens"
  | documentOpen => "documentOpen"
  | documentSave => "documentSave"
  | documentChange => "documentChange"
  | documentClose => "documentClose"
  | documentLoad => "documentLoad"
  | findMissingArtifact => "findMissingArtifact"
  | executeCommand => "executeCommand"
  | prerequisiteEnrichment => "prerequisiteEnrichment"

def selfLoadingRequestTypes : List LSPRequestType :=
  [.completion,.hover,.definition,.signatureHelp,.codeAction,.documentSymbol,.rename,.prepareRename]

/-- What is thrown: an `Error` with its message, `RequestCancelledError`, the exception of
`Effect.timeout`, or whatever a service throws. -/
inductive RequestError (ε : Type) where
  | error (message : String)
  | requestCancelled (type : LSPRequestType)
  | timeoutException
  | thrown (error : ε)
  deriving DecidableEq, Repr

/-- A promise by how it ends; one that never settles has no end. -/
abbrev Promise (ε α : Type) := ExceptT (RequestError ε) Option α

structure Readiness where
  ready : Bool
  reason : Option String

/-- The dispatcher of a run; a predicate that is asked twice may answer otherwise the second time. -/
structure WorkerDispatcher (ε α π : Type) where
  isAvailable : Promise ε Bool
  dispatchesToPool : Option (Nat → LSPRequestType → Promise ε Bool)
  dispatchesToDataOwner : Option (LSPRequestType → Promise ε Bool)
  isFileOpen : Option (String → Promise ε Bool)
  awaitSymbolDataReady : Option (String → Int → Nat → Promise ε Readiness)
  dispatch : LSPRequestType → π → Promise ε α

/-- `COLD_READ_GATE_FRACTION`, `COLD_READ_GATE_MIN_MS` and `COLD_READ_GATE_MAX_MS`. -/
def gateBudgetMs (timeout : Nat) : Nat := max 500 (min 3000 (timeout * 4 / 10))

def matchLatestVersion : Int := -1

/-- When a token is cancelled: before the call, before the submitter has the fiber, while it waits
for the fiber, or not before that. -/
inductive Cancellation where
  | before
  | scheduling
  | running
  | late
  deriving DecidableEq, Repr

/-- What becomes of `ensureSchedulerInitialized`, `offer` and the fiber of the task. -/
inductive Scheduling (ε : Type) where
  | fails (error : ε)
  | never
  | starts

/-- The options of a submission: whether the callback throws, and what the n-th call of the error
callback throws. -/
structure Options (ε α : Type) where
  callback : Option (α → Bool)
  errorCallback : Option (Nat → RequestError ε → Option (RequestError ε))
  token : Option Cancellation

structure Run (ε α π : Type) where
  type : LSPRequestType
  params : π
  requestTargetUri : Option String
  options : Options ε α
  isShutdown : Bool
  scheduling : Scheduling ε
  workerDispatcher : Option (WorkerDispatcher ε α π)
  handler : Option (π → Promise ε α)
  timeout : Nat
  timesOut : Bool
  /-- The fiber is interrupted by others, the shutdown of the scheduler for one. -/
  interrupted : Bool
  /-- The task ends before the submitter has its fiber. -/
  early : Bool

inductive Report (ε α : Type) where
  | callback (result : α)
  | errorCallback (error : RequestError ε)
  deriving DecidableEq, Repr

def Report.isError : Report ε α → Bool
  | .callback _ => false
  | .errorCallback _ => true

/-- What the caller sees of a submission: the callbacks made, in order, and the returned promise. -/
structure Outcome (ε α β : Type) where
  reports : List (Report ε α)
  promise : Option (Except (RequestError ε) β)

namespace WorkerDispatcher

def dispatches (d : WorkerDispatcher ε α π) (type : LSPRequestType) : Promise ε Bool := do
  if !(← d.isAvailable) then return false
  if ← (d.dispatchesToPool.map fun asks => asks 0 type).getD (pure false) then return true
  (d.dispatchesToDataOwner.map fun asks => asks type).getD (pure false)

def symbolsReady (d : WorkerDispatcher ε α π) (type : LSPRequestType) (uri : Option String) (timeout : Nat) :
    Promise ε Bool :=
  match uri with
  | none => pure true
  | some uri => do
    if type ∈ selfLoadingRequestTypes || uri = "" then return true
    if !(← (d.dispatchesToPool.map fun asks => asks 1 type).getD (pure false)) then return true
    if !(← (d.isFileOpen.map fun asks => asks uri).getD (pure false)) then return true
    match d.awaitSymbolDataReady with
    | none => return true
    | some awaits => return (← awaits uri matchLatestVersion (gateBudgetMs timeout)).ready

end WorkerDispatcher

namespace Run

def dispatched (r : Run ε α π) : Promise ε (Option α) :=
  match r.workerDispatcher with
  | none => pure none
  | some d => do
    if !(← d.dispatches r.type) then return none
    if !(← d.symbolsReady r.type r.requestTargetUri r.timeout) then return none
    try
      let result ← d.dispatch r.type r.params
      return some result
    catch _ => return none

/-- The worker is asked first, the local handler answers otherwise. -/
def process (r : Run ε α π) : Promise ε α := do
  match ← r.dispatched with
  | some result => return result
  | none =>
    match r.handler with
    | none => throw (.error ("No handler registered for request type: " ++ r.type.text))
    | some handler => handler r.params

/-- `Effect.tryPromise` under `Effect.timeout`. -/
def attempt (r : Run ε α π) : Exit (RequestError ε) α :=
  if r.timesOut then .failure .timeoutException
  else match r.process.run with
    | none => .failure .timeoutException
    | some (.error error) => .failure error
    | some (.ok result) => .success result

/-- `callback?.(result)`; an exception in it is a defect. -/
def reportResult (r : Run ε α π) (result : α) : Effect (Report ε α) (RequestError ε) Unit :=
  match r.options.callback with
  | none => .succeed ()
  | some throws => { exit := if throws result then .die else .success (),actions := [.callback result] }

/-- `errorCallback?.(error)` in the queued effect. -/
def reportError (r : Run ε α π) (error : RequestError ε) : Effect (Report ε α) (RequestError ε) Unit :=
  match r.options.errorCallback with
  | none => .succeed ()
  | some throws =>
    { exit := if (throws 0 error).isSome then .die else .success (),actions := [.errorCallback error] }

/-- The `requestEffect` of `createQueuedItem`. -/
def requestEffect (r : Run ε α π) : Effect (Report ε α) (RequestError ε) α :=
  let tried : Effect (Report ε α) (RequestError ε) α := { exit := r.attempt }
  let handled := tried.catchAll fun error => (r.reportError error).andThen (.fail error)
  handled.flatMap fun result => (r.reportResult result).andThen (.succeed result)

def queued (r : Run ε α π) : Effect (Report ε α) (RequestError ε) α :=
  (r.requestEffect.ensuring (β := Unit) (.succeed ())).catchAll .fail

def rejectWith (r : Run ε α π) (reports : List (Report ε α)) (error : RequestError ε) : Outcome ε α α :=
  match r.options.errorCallback with
  | none => ⟨reports,some (.error error)⟩
  | some throws =>
    let made := reports.countP Report.isError
    ⟨reports ++ [.errorCallback error],some (.error ((throws made error).getD error))⟩

def settle (r : Run ε α π) (reports : List (Report ε α)) : Exit (RequestError ε) α → Outcome ε α α
  | .success result => ⟨reports,some (.ok result)⟩
  | .failure error => r.rejectWith reports error
  | .die => r.rejectWith reports (.error "Task failed")

def submitRequest (r : Run ε α π) : Outcome ε α α :=
  if r.isShutdown then ⟨[],some (.error (.error "LSP Queue Manager is shutdown"))⟩
  else if r.options.token = some .before then ⟨[],some (.error (.requestCancelled r.type))⟩
  else
    match r.scheduling with
    | .fails error => ⟨[],some (.error (.thrown error))⟩
    | .never => ⟨[],none⟩
    | .starts =>
      -- An interrupted fiber runs neither `tap` nor `catchAll`.
      if r.options.token = some .scheduling then
        if r.early && !r.interrupted then ⟨r.queued.actions,some (.error (.requestCancelled r.type))⟩
        else ⟨[],some (.error (.requestCancelled r.type))⟩
      else if r.interrupted || (r.options.token = some .running && !r.early) then
        ⟨[],some (.error (.requestCancelled r.type))⟩
      else r.settle r.queued.actions r.queued.exit

def asNotification (r : Run ε α π) : Run ε α π :=
  { r with options := { r.options with callback := none,token := none } }

def submitNotification (r : Run ε α π) : Outcome ε α Unit :=
  let report (error : RequestError ε) : Outcome ε α Unit :=
    match r.options.errorCallback with
    | none => ⟨[],some (.ok ())⟩
    | some throws => ⟨[.errorCallback error],some ((throws 0 error).elim (.ok ()) .error)⟩
  if r.isShutdown then report (.error "LSP Queue Manager is shutdown")
  else
    match r.scheduling with
    | .fails error => report (.thrown error)
    | .never => ⟨[],none⟩
    | .starts =>
      if r.interrupted then ⟨[],some (.ok ())⟩
      else ⟨r.asNotification.queued.actions,some (.ok ())⟩

def Cancelled (r : Run ε α π) : Prop :=
  r.options.token = some .before ∨
    r.isShutdown = false ∧ (r.options.token = some .scheduling ∨
      r.options.token = some .running ∧ r.scheduling = .starts ∧ r.early = false)

end Run

/-- The outcome of a request is reported once, and as the promise says. -/
structure ReportedOnce (r : Run ε α π) (o : Outcome ε α α) : Prop where
  once : o.reports.length ≤ 1
  callback : ∀ result, .callback result ∈ o.reports → o.promise = some (.ok result)
  errorCallback : ∀ error, .errorCallback error ∈ o.reports → ∃ reason, o.promise = some (.error reason)
  cancelled : r.Cancelled → o.promise = some (.error (.requestCancelled r.type))

structure NotifiedOnce (r : Run ε α π) (o : Outcome ε α Unit) : Prop where
  once : o.reports.length ≤ 1
  callback : ∀ result, .callback result ∉ o.reports
  errorCallback : ∀ error, .errorCallback error ∈ o.reports →
    r.isShutdown = true ∨ (∃ reason, r.scheduling = .fails reason) ∨ ∃ reason, r.attempt = .failure reason

namespace Run

/-- The task runs to its end: its fiber starts and nothing interrupts it. -/
structure Ends (r : Run ε α π) : Prop where
  submitted : r.isShutdown = false ∧ r.options.token ≠ some .before
  starts : r.scheduling = .starts
  uninterrupted : r.interrupted = false
  early : r.options.token = some .scheduling ∨ r.options.token = some .running → r.early = true

/-- A token that is cancelled before the task starts finds the manager running and the task on its
way; a task that ends does not have an error to report, or a callback that does not return or that
the submitter contradicts. -/
structure ReportsOnce (r : Run ε α π) : Prop where
  before : r.options.token = some .before → r.isShutdown = false
  scheduling : r.options.token = some .scheduling → r.isShutdown = false → r.scheduling = .starts
  result : r.Ends → ∀ result throws, r.attempt = .success result → r.options.callback = some throws →
    throws result = false ∧ r.options.token ≠ some .scheduling
  failure : r.Ends → ∀ error throws, r.attempt = .failure error → r.options.errorCallback = some throws →
    r.options.token = some .scheduling

variable {ε α π : Type} {r : Run ε α π}

theorem attempt_ne_die (r : Run ε α π) : r.attempt ≠ .die := by
  unfold attempt
  split
  · simp
  · split <;> simp

theorem queued_success {result : α} (succeeds : r.attempt = .success result) :
    r.queued.actions = (r.reportResult result).actions ∧
      ((r.reportResult result).exit = .success () → r.queued.exit = .success result) ∧
      ((r.reportResult result).exit = .die → r.queued.exit = .die) := by
  have effect : r.requestEffect = (r.reportResult result).andThen (.succeed result) := by
    simp [requestEffect,Effect.catchAll,succeeds,Effect.flatMap]
  refine ⟨?_,?_,?_⟩
  all_goals simp only [queued,effect,Effect.ensuring,Effect.succeed,Effect.andThen,Effect.flatMap]
  · cases (r.reportResult result).exit <;> simp [Effect.catchAll,Effect.fail]
  · intro returns
    simp [returns,Effect.catchAll]
  · intro dies
    simp [dies,Effect.catchAll]

theorem queued_failure {error : RequestError ε} (fails : r.attempt = .failure error) :
    r.queued.actions = (r.reportError error).actions ∧ ∀ result, r.queued.exit ≠ .success result := by
  have effect : r.requestEffect = (r.reportError error).andThen (.fail error) := by
    simp only [requestEffect,Effect.catchAll,fails,Effect.flatMap,Effect.andThen]
    cases (r.reportError error).exit <;> simp [Effect.fail]
  simp only [queued,effect,Effect.ensuring,Effect.succeed,Effect.andThen,Effect.flatMap]
  cases (r.reportError error).exit <;> simp [Effect.catchAll,Effect.fail]

theorem reportResult_actions (r : Run ε α π) (result : α) :
    (r.reportResult result).actions = if r.options.callback.isSome then [.callback result] else [] := by
  unfold reportResult
  cases r.options.callback <;> simp [Effect.succeed]

theorem reportError_actions (r : Run ε α π) (error : RequestError ε) :
    (r.reportError error).actions = if r.options.errorCallback.isSome then [.errorCallback error] else [] := by
  unfold reportError
  cases r.options.errorCallback <;> simp [Effect.succeed]

theorem reportResult_exit (r : Run ε α π) (result : α) :
    (r.reportResult result).exit = .success () ∨
      (r.reportResult result).exit = .die ∧ ∃ throws, r.options.callback = some throws ∧ throws result = true := by
  unfold reportResult
  cases r.options.callback with
  | none => exact .inl rfl
  | some throws => cases thrown : throws result <;> simp [thrown]

theorem submitRequest_ends (ends : r.Ends) (waits : r.options.token ≠ some .scheduling) :
    r.submitRequest = r.settle r.queued.actions r.queued.exit := by
  obtain ⟨⟨running,fresh⟩,starts,uninterrupted,early⟩ := ends
  have notStopped : (r.interrupted || (r.options.token = some .running && !r.early)) = false := by
    by_cases at_ : r.options.token = some .running
    · simp [uninterrupted,early (.inr at_)]
    · simp [uninterrupted,at_]
  simp only [submitRequest,running,fresh,starts,waits,notStopped,if_false,Bool.false_eq_true]

theorem rejectWith_error (reports : List (Report ε α)) (error : RequestError ε) :
    ∃ reason, (r.rejectWith reports error).promise = some (.error reason) := by
  unfold rejectWith
  cases r.options.errorCallback with
  | none => exact ⟨error,rfl⟩
  | some throws => exact ⟨_,rfl⟩

theorem mem_rejectWith {reports : List (Report ε α)} {error : RequestError ε} {report : Report ε α}
    (member : report ∈ reports) : report ∈ (r.rejectWith reports error).reports := by
  unfold rejectWith
  cases r.options.errorCallback with
  | none => exact member
  | some throws => exact List.mem_append_left _ member

theorem not_cancelled (ends : r.Ends) (waits : r.options.token ≠ some .scheduling) : ¬ r.Cancelled := by
  rintro (before | ⟨_,scheduling | ⟨running,_,late⟩⟩)
  · exact ends.submitted.2 before
  · exact waits scheduling
  · rw [ends.early (.inr running)] at late
    cases late

/-- Where the submitter waits for a task that ends, its reports are right exactly when there is
nothing to report of a failure, and the callback returns. -/
theorem reportedOnce_ends (ends : r.Ends) (waits : r.options.token ≠ some .scheduling) :
    ReportedOnce r r.submitRequest ↔
      (∀ result throws, r.attempt = .success result → r.options.callback = some throws → throws result = false) ∧
        ∀ error, r.attempt = .failure error → r.options.errorCallback = none := by
  rw [submitRequest_ends ends waits]
  cases attempt : r.attempt with
  | die => exact absurd attempt r.attempt_ne_die
  | success result =>
    obtain ⟨actions,returns,dies⟩ := queued_success attempt
    rw [reportResult_actions] at actions
    rcases r.reportResult_exit result with exit | ⟨exit,throws,given,thrown⟩
    · have quiet : ∀ throws, r.options.callback = some throws → throws result = false := by
        intro throws given
        by_contra thrown
        simp [reportResult,given,thrown] at exit
      rw [returns exit,actions,settle]
      refine iff_of_true ⟨?_,?_,?_,?_⟩ ⟨?_,by simp⟩
      · split <;> simp
      · intro other member
        obtain rfl : other = result := by
          split at member
          · simpa using member
          · cases member
        rfl
      · intro error member
        exact absurd member (by split <;> simp)
      · exact fun cancelled => absurd cancelled (not_cancelled ends waits)
      · intro other throws same given
        cases same
        exact quiet throws given
    · rw [dies exit,settle]
      refine iff_of_false ?_ ?_
      · intro reported
        have listed : .callback result ∈ r.queued.actions := by simp [actions,given]
        have resolves := reported.callback result (mem_rejectWith listed)
        obtain ⟨reason,rejects⟩ := r.rejectWith_error r.queued.actions (.error "Task failed")
        rw [rejects] at resolves
        cases resolves
      · rintro ⟨quiet,_⟩
        rw [quiet result throws rfl given] at thrown
        cases thrown
  | failure error =>
    obtain ⟨actions,fails⟩ := queued_failure attempt
    rw [reportError_actions] at actions
    have rejected : ∃ reason, r.settle r.queued.actions r.queued.exit =
        r.rejectWith r.queued.actions reason := by
      cases exit : r.queued.exit with
      | success result => exact absurd exit (fails result)
      | failure error => exact ⟨error,rfl⟩
      | die => exact ⟨_,rfl⟩
    obtain ⟨reason,rejected⟩ := rejected
    rw [rejected]
    cases given : r.options.errorCallback with
    | none =>
      have silent : r.rejectWith r.queued.actions reason = ⟨[],some (.error reason)⟩ := by
        simp [rejectWith,given,actions]
      rw [silent]
      refine iff_of_true ⟨by simp,by simp,by simp,?_⟩ (by simp)
      exact fun cancelled => absurd cancelled (not_cancelled ends waits)
    | some throws =>
      refine iff_of_false ?_ (by simp)
      intro reported
      have twice := reported.once
      simp [rejectWith,given,actions] at twice

theorem reportedOnce_silent {promise : Option (Except (RequestError ε) α)} :
    ReportedOnce r ⟨[],promise⟩ ↔ (r.Cancelled → promise = some (.error (.requestCancelled r.type))) := by
  constructor
  · exact fun reported => reported.cancelled
  · exact fun cancelled => ⟨by simp,by simp,by simp,cancelled⟩

theorem reportedOnce_abandoned :
    ReportedOnce r ⟨r.queued.actions,some (.error (.requestCancelled r.type))⟩ ↔
      ∀ result, r.attempt = .success result → r.options.callback = none := by
  cases attempt : r.attempt with
  | die => exact absurd attempt r.attempt_ne_die
  | success result =>
    rw [(queued_success attempt).1,reportResult_actions]
    cases given : r.options.callback with
    | none => exact iff_of_true ⟨by simp,by simp,by simp,fun _ => rfl⟩ (by simp)
    | some throws =>
      refine iff_of_false ?_ (by simp)
      intro reported
      have resolves := reported.callback result (by simp)
      cases resolves
  | failure error =>
    rw [(queued_failure attempt).1,reportError_actions]
    refine iff_of_true ⟨?_,?_,?_,fun _ => rfl⟩ (by simp)
    · split <;> simp
    · intro result member
      exact absurd member (by split <;> simp)
    · intro error _
      exact ⟨_,rfl⟩

theorem not_ends (stops : r.isShutdown = true ∨ r.options.token = some .before ∨ r.scheduling ≠ .starts) :
    ¬ r.Ends := by
  rintro ⟨⟨running,fresh⟩,starts,_,_⟩
  rcases stops with stopped | before | idle
  · rw [running] at stopped
    cases stopped
  · exact fresh before
  · exact idle starts

theorem reportsOnce_of_not_ends (unended : ¬ r.Ends) :
    r.ReportsOnce ↔ (r.options.token = some .before → r.isShutdown = false) ∧
      (r.options.token = some .scheduling → r.isShutdown = false → r.scheduling = .starts) := by
  constructor
  · exact fun reports => ⟨reports.before,reports.scheduling⟩
  · rintro ⟨before,scheduling⟩
    exact ⟨before,scheduling,fun ends => absurd ends unended,fun ends => absurd ends unended⟩

theorem reportsOnce_of_ends (ends : r.Ends) :
    r.ReportsOnce ↔
      (∀ result throws, r.attempt = .success result → r.options.callback = some throws →
        throws result = false ∧ r.options.token ≠ some .scheduling) ∧
      ∀ error throws, r.attempt = .failure error → r.options.errorCallback = some throws →
        r.options.token = some .scheduling := by
  constructor
  · exact fun reports => ⟨reports.result ends,reports.failure ends⟩
  · rintro ⟨result,failure⟩
    refine ⟨fun before => absurd before ends.submitted.2,fun _ _ => ends.starts,fun _ => result,fun _ => failure⟩

theorem reportedOnce_idle {promise : Option (Except (RequestError ε) α)} (running : r.isShutdown = false)
    (fresh : r.options.token ≠ some .before) (idle : r.scheduling ≠ .starts)
    (other : promise ≠ some (.error (.requestCancelled r.type))) :
    ReportedOnce r ⟨[],promise⟩ ↔ r.ReportsOnce := by
  rw [reportedOnce_silent,reportsOnce_of_not_ends (not_ends (.inr (.inr idle)))]
  simp [Cancelled,other,running,fresh,idle]

theorem reportedOnce_started (running : r.isShutdown = false) (fresh : r.options.token ≠ some .before)
    (starts : r.scheduling = .starts) : ReportedOnce r r.submitRequest ↔ r.ReportsOnce := by
  by_cases ends : r.Ends
  · by_cases waits : r.options.token = some .scheduling
    · have given : r.submitRequest = ⟨r.queued.actions,some (.error (.requestCancelled r.type))⟩ := by
        simp [submitRequest,running,starts,waits,ends.uninterrupted,ends.early (.inl waits)]
      rw [given,reportedOnce_abandoned,reportsOnce_of_ends ends]
      simp only [waits,ne_eq,not_true_eq_false,and_false,imp_false,implies_true,and_true]
      exact forall_congr' fun result => ⟨fun none_ throws succeeds given => by simp [none_ succeeds] at given,
        fun absent succeeds => Option.eq_none_iff_forall_ne_some.mpr fun throws => absent throws succeeds⟩
    · rw [reportedOnce_ends ends waits,reportsOnce_of_ends ends]
      simp only [waits,ne_eq,not_false_eq_true,and_true,imp_false]
      exact and_congr_right fun _ => forall_congr' fun error =>
        ⟨fun none_ throws fails given => by simp [none_ fails] at given,
          fun absent fails => Option.eq_none_iff_forall_ne_some.mpr fun throws => absent throws fails⟩
  · have given : r.submitRequest = ⟨[],some (.error (.requestCancelled r.type))⟩ := by
      by_cases waits : r.options.token = some .scheduling
      · have stopped : (r.early && !r.interrupted) = false := by
          by_contra both
          simp only [Bool.not_eq_false,Bool.and_eq_true,Bool.not_eq_true'] at both
          exact ends ⟨⟨running,fresh⟩,starts,both.2,fun _ => both.1⟩
        simp [submitRequest,running,starts,waits,stopped]
      · have stopped : (r.interrupted || (decide (r.options.token = some .running) && !r.early)) = true := by
          by_contra both
          simp only [Bool.not_eq_true,Bool.or_eq_false_iff,Bool.and_eq_false_iff,decide_eq_false_iff_not,
            Bool.not_eq_false'] at both
          exact ends ⟨⟨running,fresh⟩,starts,both.1,fun either => both.2.resolve_left
            fun other => either.elim waits other⟩
        simp only [submitRequest,running,fresh,starts,waits,stopped,if_false,if_true,Bool.false_eq_true]
    rw [given,reportedOnce_silent,reportsOnce_of_not_ends ends]
    simp [running,starts]

theorem submitRequest_iff (r : Run ε α π) : ReportedOnce r r.submitRequest ↔ r.ReportsOnce := by
  cases running : r.isShutdown with
  | true =>
    rw [submitRequest,running,if_pos rfl,reportedOnce_silent,reportsOnce_of_not_ends (not_ends (.inl running))]
    simp [Cancelled,running]
  | false =>
    by_cases fresh : r.options.token = some .before
    · rw [submitRequest,running,if_neg Bool.false_ne_true,if_pos fresh,reportedOnce_silent,
        reportsOnce_of_not_ends (not_ends (.inr (.inl fresh)))]
      simp [running,fresh]
    · cases scheduled : r.scheduling with
      | fails error =>
        rw [submitRequest,running,if_neg Bool.false_ne_true,if_neg fresh,scheduled]
        exact reportedOnce_idle running fresh (by simp [scheduled]) (by simp)
      | never =>
        rw [submitRequest,running,if_neg Bool.false_ne_true,if_neg fresh,scheduled]
        exact reportedOnce_idle running fresh (by simp [scheduled]) (by simp)
      | starts => exact reportedOnce_started running fresh scheduled

theorem submitNotification_once (r : Run ε α π) : NotifiedOnce r r.submitNotification := by
  have silent : ∀ promise, NotifiedOnce r ⟨[],promise⟩ := fun promise => ⟨by simp,by simp,by simp⟩
  have failing : ∀ error promise, (r.isShutdown = true ∨ (∃ reason, r.scheduling = .fails reason) ∨
      ∃ reason, r.attempt = .failure reason) → NotifiedOnce r ⟨[.errorCallback error],promise⟩ :=
    fun error promise failed => ⟨by simp,by simp,fun _ _ => failed⟩
  unfold submitNotification
  cases running : r.isShutdown with
  | true =>
    cases r.options.errorCallback with
    | none => exact silent _
    | some throws => exact failing _ _ (.inl running)
  | false =>
    cases scheduled : r.scheduling with
    | fails error =>
      cases r.options.errorCallback with
      | none => exact silent _
      | some throws => exact failing _ _ (.inr (.inl ⟨error,scheduled⟩))
    | never => exact silent _
    | starts =>
      simp only [Bool.false_eq_true,if_false]
      split
      · exact silent _
      · cases attempt : r.attempt with
        | die => exact absurd attempt r.attempt_ne_die
        | success result =>
          have quiet : r.asNotification.queued.actions = [] := (queued_success (r := r.asNotification) attempt).1
          rw [quiet]
          exact silent _
        | failure error =>
          rw [(queued_failure (r := r.asNotification) attempt).1,reportError_actions]
          split
          · exact failing _ _ (.inr (.inr ⟨error,attempt⟩))
          · exact silent _

/-- Every submission: a request reports once exactly under `ReportsOnce`, a notification always. -/
theorem reports_once_iff (r : Run ε α π) :
    (ReportedOnce r r.submitRequest ↔ r.ReportsOnce) ∧ NotifiedOnce r r.submitNotification :=
  ⟨submitRequest_iff r,submitNotification_once r⟩

def failingRequest : Run String Nat Unit where
  type := .definition
  params := ()
  requestTargetUri := some "file:///Foo.cls"
  options := { callback := none,errorCallback := some fun _ _ => none,token := none }
  isShutdown := false
  scheduling := .starts
  workerDispatcher := none
  handler := some fun _ => throw (.thrown "no such symbol")
  timeout := 5000
  timesOut := false
  interrupted := false
  early := false

theorem failure_reported_twice :
    failingRequest.submitRequest.reports =
      [.errorCallback (.thrown "no such symbol"),.errorCallback (.thrown "no such symbol")] ∧
    ¬ ReportedOnce failingRequest failingRequest.submitRequest := by
  have reports : failingRequest.submitRequest.reports =
      [.errorCallback (.thrown "no such symbol"),.errorCallback (.thrown "no such symbol")] := by decide
  refine ⟨reports,fun reported => ?_⟩
  have once := reported.once
  rw [reports] at once
  exact absurd once (by decide)

end Run
end ApexLs.Queue.Requests
