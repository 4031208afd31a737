import ApexLs.Collections.Runs

/-! Workspace loads: the flags that both coordinators share, and the requests that they wait for. -/
namespace ApexLs.Services.WorkspaceLoadCoordinator

open ApexLs.Collections

/-- What decides whether a notification gets to the client: the experimental capabilities that it enabled, if it sent any,
and what throws. -/
structure Client where
  experimental : Option (List String) := none
  configurationThrows : Bool := false
  notificationThrows : Bool := false
  deriving DecidableEq, Repr

def Client.isClientCapabilityAdvertised (client : Client) (capabilityKey : String) : Bool :=
  client.experimental.any (·.contains capabilityKey)

def Client.shouldSuppressDefaultAllow (client : Client) (capabilityKey : String) : Bool :=
  client.experimental.isSome && !client.isClientCapabilityAdvertised capabilityKey

/-- Whether the request is delivered. A capability check that throws lets it through. -/
def sendRequestWorkspaceLoadNotification (client : Client) : Bool :=
  if !client.configurationThrows && client.shouldSuppressDefaultAllow "requestWorkspaceLoadProvider" then false
  else !client.notificationThrows

/-- The three flags, the calls of the proxy that are in progress, on their way or with a request that has arrived, and the
requests that were delivered after the last notification. -/
structure Loads where
  isLoaded : Bool := false
  isLoading : Bool := false
  hasFailed : Bool := false
  posted : Nat := 0
  arrived : Nat := 0
  unanswered : Nat := 0
  deriving DecidableEq, Repr

inductive Event where
  | ensureWorkspaceLoaded (client : Client)
  /-- The worker's call: the proxy is called. -/
  | ensureLoaded
  /-- The request of a call arrives at the coordinator. -/
  | arrives
  | resolves
  | rejects (arrived : Bool)
  | onWorkspaceLoadComplete (success : Bool)
  | onWorkspaceLoadFailed
  deriving DecidableEq, Repr

namespace Loads

def quiet (s : Loads) : Bool := s.posted = 0 && s.arrived = 0

def ensureWorkspaceLoaded (client : Client) (s : Loads) : Loads :=
  if s.isLoaded then s
  else if s.isLoading then s
  else { s with
    isLoading := true
    hasFailed := false
    unanswered := if sendRequestWorkspaceLoadNotification client then s.unanswered + 1 else s.unanswered }

def ensureLoaded (s : Loads) : Loads :=
  if s.isLoaded then s
  else if s.isLoading then s
  else { s with isLoading := true, posted := s.posted + 1 }

def onWorkspaceLoadFailed (s : Loads) : Loads :=
  { s with hasFailed := true, isLoading := false, isLoaded := false, unanswered := 0 }

def onWorkspaceLoadComplete (success : Bool) (s : Loads) : Loads :=
  if success then { s with isLoaded := true, isLoading := false, hasFailed := false, unanswered := 0 }
  else s.onWorkspaceLoadFailed

/-- An event that no call can cause changes nothing. A rejection is logged only. -/
def step (s : Loads) : Event → Loads
  | .ensureWorkspaceLoaded client => s.ensureWorkspaceLoaded client
  | .ensureLoaded => s.ensureLoaded
  | .arrives =>
    if s.posted = 0 then s
    else { s with posted := s.posted - 1, arrived := s.arrived + 1, unanswered := s.unanswered + 1 }
  | .resolves | .rejects true => { s with arrived := s.arrived - 1 }
  | .rejects false => { s with posted := s.posted - 1 }
  | .onWorkspaceLoadComplete success => s.onWorkspaceLoadComplete success
  | .onWorkspaceLoadFailed => s.onWorkspaceLoadFailed

/-- Only loads that were requested are waited for, and no more than one at a time. -/
structure AwaitsRequested (s : Loads) : Prop where
  requested : s.quiet = true → s.isLoading = true → 0 < s.unanswered
  resends : s.quiet = true → s.unanswered = 0 → s.isLoaded = false →
    (∀ client, sendRequestWorkspaceLoadNotification client = true → (s.ensureWorkspaceLoaded client).unanswered = 1) ∧
      s.ensureLoaded.posted = 1
  single : s.unanswered ≤ 1
  exclusive : ¬ (s.isLoaded = true ∧ s.hasFailed = true)

/-- What is sent gets through, and no failure is reported while a request is on its way. -/
def GetsThrough (s : Loads) : Event → Prop
  | .ensureWorkspaceLoaded client =>
    s.isLoaded = true ∨ s.isLoading = true ∨ sendRequestWorkspaceLoadNotification client = true
  | .rejects false => s.posted = 0 ∨ s.isLoading = false
  | .onWorkspaceLoadComplete false | .onWorkspaceLoadFailed => s.posted = 0
  | _ => True

/-- The requests on their way and the unanswered ones are what the flags say. -/
structure Kept (s : Loads) : Prop where
  idle : s.isLoaded = false → s.isLoading = false → s.posted + s.unanswered = 0
  loading : s.isLoading = true → s.isLoaded = false ∧ s.posted + s.unanswered = 1
  single : s.posted + s.unanswered ≤ 1
  exclusive : ¬ (s.isLoaded = true ∧ s.hasFailed = true)

variable {s : Loads}

theorem Kept.awaitsRequested (kept : Kept s) : AwaitsRequested s := by
  obtain ⟨idle,loading,single,exclusive⟩ := kept
  have onWay (quiet : s.quiet = true) : s.posted = 0 := of_decide_eq_true (Bool.and_eq_true_iff.mp quiet).1
  refine ⟨fun quiet awaited => ?_,fun quiet none_ unloaded => ?_,by omega,exclusive⟩
  · have sum := (loading awaited).2
    have zero := onWay quiet
    omega
  · have zero := onWay quiet
    have still : s.isLoading = false := by
      refine Bool.eq_false_iff.mpr fun awaited => ?_
      have sum := (loading awaited).2
      omega
    constructor
    · intro client sent
      rw [ensureWorkspaceLoaded,unloaded,still,if_neg Bool.false_ne_true,if_neg Bool.false_ne_true]
      dsimp only
      rw [if_pos sent,none_]
    · rw [ensureLoaded,unloaded,still,if_neg Bool.false_ne_true,if_neg Bool.false_ne_true]
      dsimp only
      rw [zero]

theorem kept_onWorkspaceLoadFailed (arrived : s.posted = 0) : Kept s.onWorkspaceLoadFailed :=
  ⟨fun _ _ => arrived,fun awaited => absurd awaited Bool.false_ne_true,
    show s.posted + 0 ≤ 1 by omega,fun both => absurd both.1 Bool.false_ne_true⟩

theorem Kept.step (kept : Kept s) {e : Event} (through : GetsThrough s e) : Kept (s.step e) := by
  have ⟨idle,loading,single,exclusive⟩ := kept
  cases e with
  | ensureWorkspaceLoaded client =>
    rw [Loads.step,ensureWorkspaceLoaded]
    split
    next => exact kept
    next unloaded =>
      split
      next => exact kept
      next still =>
        have sent := (through.resolve_left unloaded).resolve_left still
        have none_ := idle (Bool.eq_false_iff.mpr unloaded) (Bool.eq_false_iff.mpr still)
        rw [if_pos sent]
        have sum : s.posted + (s.unanswered + 1) = 1 := by omega
        exact ⟨fun _ awaited => absurd awaited.symm Bool.false_ne_true,fun _ => ⟨Bool.eq_false_iff.mpr unloaded,sum⟩,
          Nat.le_of_eq sum,fun both => absurd both.1 unloaded⟩
  | ensureLoaded =>
    rw [Loads.step,ensureLoaded]
    split
    next => exact kept
    next unloaded =>
      split
      next => exact kept
      next still =>
        have none_ := idle (Bool.eq_false_iff.mpr unloaded) (Bool.eq_false_iff.mpr still)
        have sum : s.posted + 1 + s.unanswered = 1 := by omega
        exact ⟨fun _ awaited => absurd awaited.symm Bool.false_ne_true,fun _ => ⟨Bool.eq_false_iff.mpr unloaded,sum⟩,
          Nat.le_of_eq sum,fun both => absurd both.1 unloaded⟩
  | arrives =>
    rw [Loads.step]
    split
    next => exact kept
    next onWay =>
      have same : s.posted - 1 + (s.unanswered + 1) = s.posted + s.unanswered := by omega
      exact ⟨fun unloaded still => same.trans (idle unloaded still),
        fun awaited => ⟨(loading awaited).1,same.trans (loading awaited).2⟩,Nat.le_trans (Nat.le_of_eq same) single,exclusive⟩
  | resolves => exact ⟨idle,loading,single,exclusive⟩
  | rejects arrived =>
    cases arrived with
    | true => exact ⟨idle,loading,single,exclusive⟩
    | false =>
      obtain none_ | still := through
      · have same : s.posted - 1 = s.posted := by omega
        rw [Loads.step,same]
        exact kept
      · refine ⟨fun unloaded _ => ?_,fun awaited => absurd (still.symm.trans awaited) Bool.false_ne_true,?_,exclusive⟩
        · have none_ := idle unloaded still
          show s.posted - 1 + s.unanswered = 0
          omega
        · show s.posted - 1 + s.unanswered ≤ 1
          omega
  | onWorkspaceLoadComplete success =>
    cases success with
    | true =>
      exact ⟨fun unloaded => absurd unloaded.symm Bool.false_ne_true,fun awaited => absurd awaited Bool.false_ne_true,
        show s.posted + 0 ≤ 1 by omega,fun both => absurd both.2 Bool.false_ne_true⟩
    | false => exact kept_onWorkspaceLoadFailed through
  | onWorkspaceLoadFailed => exact kept_onWorkspaceLoadFailed through

theorem kept_initial : Kept {} :=
  ⟨fun _ _ => rfl,fun awaited => absurd awaited Bool.false_ne_true,Nat.zero_le _,fun both => absurd both.1 Bool.false_ne_true⟩

theorem run_resolves (s : Loads) (n : Nat) :
    run step s (List.replicate n .resolves) = { s with arrived := s.arrived - n } := by
  induction n generalizing s with
  | zero => rfl
  | succ n ih =>
    rw [List.replicate_succ,run_cons,ih,Loads.step]
    dsimp only
    rw [Nat.sub_sub,Nat.add_comm 1 n]

theorem awaited_forever (s : Loads) (loading : s.isLoading = true) (none_ : s.posted = 0 ∧ s.unanswered = 0) :
    ¬ AwaitsRequested (run step s (List.replicate s.arrived .resolves)) := by
  rw [run_resolves]
  intro awaits
  have quiet : quiet { s with arrived := s.arrived - s.arrived } = true := by
    rw [Loads.quiet,Nat.sub_self]
    exact Bool.and_eq_true_iff.mpr ⟨decide_eq_true none_.1,rfl⟩
  exact absurd (awaits.requested quiet loading) (none_.2 ▸ Nat.lt_irrefl 0)

theorem sent_twice (s : Loads) (overtaken : s.posted = 1) :
    ¬ AwaitsRequested (run step s.onWorkspaceLoadFailed [.arrives,.ensureLoaded,.arrives]) := by
  intro awaits
  have single := awaits.single
  simp [run,Loads.step,Loads.onWorkspaceLoadFailed,ensureLoaded,overtaken] at single

theorem Kept.lost (kept : Kept s) {e : Event} (lost : ¬ GetsThrough s e) :
    ∃ more, ¬ AwaitsRequested (run Loads.step (s.step e) more) := by
  obtain ⟨idle,loading,single,exclusive⟩ := kept
  cases e with
  | ensureWorkspaceLoaded client =>
    obtain ⟨unloaded,rest⟩ := not_or.mp lost
    obtain ⟨still,unsent⟩ := not_or.mp rest
    have none_ := idle (Bool.eq_false_iff.mpr unloaded) (Bool.eq_false_iff.mpr still)
    rw [Loads.step,ensureWorkspaceLoaded,if_neg unloaded,if_neg still,if_neg unsent]
    exact ⟨_,awaited_forever { s with isLoading := true, hasFailed := false } rfl
      ⟨show s.posted = 0 by omega,show s.unanswered = 0 by omega⟩⟩
  | rejects arrived =>
    cases arrived with
    | true => exact absurd trivial lost
    | false =>
      obtain ⟨onWay,awaited⟩ := not_or.mp lost
      have awaited := Bool.of_not_eq_false awaited
      have sum := (loading awaited).2
      exact ⟨_,awaited_forever { s with posted := s.posted - 1 } awaited
        ⟨show s.posted - 1 = 0 by omega,show s.unanswered = 0 by omega⟩⟩
  | onWorkspaceLoadComplete success =>
    cases success with
    | true => exact absurd trivial lost
    | false =>
      have onWay : s.posted ≠ 0 := lost
      exact ⟨_,sent_twice s (by omega)⟩
  | onWorkspaceLoadFailed =>
    have onWay : s.posted ≠ 0 := lost
    exact ⟨_,sent_twice s (by omega)⟩
  | ensureLoaded | arrives | resolves => exact absurd trivial lost

/-- If all requests of a run get through, only requested loads are awaited in all of its states. If one does not, the run up to
there can be continued to a state where this fails. -/
theorem awaitsRequested_run (events : List Event) :
    (EveryStep step GetsThrough {} events → EveryState step AwaitsRequested {} events) ∧
      (¬ EveryStep step GetsThrough {} events → ∃ front more, front <+: events ∧
        ¬ AwaitsRequested (run step {} (front ++ more))) := by
  constructor
  · intro through front initial
    exact (everyState_of_everyStep (fun _ _ kept => kept.step) kept_initial through front initial).awaitsRequested
  · intro lost
    obtain ⟨front,e,initial,through,fails⟩ := exists_step_of_not_everyStep lost
    have kept := (everyState_of_everyStep (fun _ _ kept => kept.step) kept_initial through).last
    obtain ⟨more,broken⟩ := kept.lost fails
    refine ⟨front ++ [e],more,initial,?_⟩
    rw [run_append,run_append]
    exact broken

/-- The request is suppressed, and still awaited. -/
theorem suppressed_load_awaited :
    ¬ EveryState step AwaitsRequested {} [.ensureWorkspaceLoaded { experimental := some [] }] := by
  intro always
  exact absurd (always.last.requested rfl rfl) (by decide)

end Loads

end ApexLs.Services.WorkspaceLoadCoordinator
