import ApexLs.Collections.Runs
import ApexLs.Services.MissingArtifactResolution
import ApexLs.Utils.AsciiBytes

/-! Calls for missing artifacts in any order with what becomes of their requests. -/
namespace ApexLs.Services.MissingArtifacts

open ApexLs.Collections ApexLs.Types ApexLs.Utils

structure Call where
  params : FindMissingArtifactParams
  reply : Reply
  deriving DecidableEq, Repr

structure Session where
  service : MissingArtifactResolutionService := {}
  calls : List Call := []

inductive Event where
  | call (params : FindMissingArtifactParams) (circumstances : Circumstances)
  | settles (request : Nat) (outcome : Outcome) (now : Nat)
  | elapses (request : Nat) (now : Nat)

structure ArtifactIdentity where
  identifierType : MissingArtifactIdentifierType
  name : String
  origin : Option (String × Option Int × String × ParseCompleteness)
  deriving DecidableEq, Repr

section

variable [Runtime]

def identity (identifier : IdentifierSpec) : ArtifactIdentity where
  identifierType := identifier.identifierType.getD .apexClass
  name := toLowerCase (trim identifier.name)
  origin := identifier.provenance.map fun provenance =>
    (provenance.sourceUri,provenance.documentVersion,provenance.referenceIdentity,provenance.parseCompleteness)

/-- The same kind of request from the same document, for the same identifiers. -/
structure Alike (a b : FindMissingArtifactParams) : Prop where
  kind : a.requestKind = b.requestKind
  uri : a.uri = b.uri
  identifiers : ∀ artifact, artifact ∈ a.identifiers.map identity ↔ artifact ∈ b.identifiers.map identity

namespace MissingArtifactResolutionService

variable (service : MissingArtifactResolutionService)

omit [Runtime] in
def resultOf : Reply → Option BlockingResult
  | .immediate result => some result
  | .promise i => (service.requests[i]?).bind fun job => job.result.map SettledRequest.result

omit [Runtime] in
def TimedOutRecently (key : String) (now : Nat) : Prop :=
  ∃ job ∈ service.requests, job.key = key ∧ ∃ settledAt, job.result = some ⟨.timeout,settledAt⟩ ∧
    now - settledAt < blockingTimeoutCooldownMs

omit [Runtime] in
/-- A timeout is on record that keeps requests under the key from being made. -/
def CoolsDown (key : String) (now : Nat) : Prop :=
  ∃ timestamp, service.recentBlockingTimeouts.get? key = some timestamp ∧ 0 < timestamp ∧
    now - timestamp < blockingTimeoutCooldownMs

/-- The call starts a request: none is pending under its key, no timeout keeps it from being made, and settings and
origin allow it. -/
def Starts (params : FindMissingArtifactParams) (circumstances : Circumstances) : Prop :=
  (∀ i, ¬Pending service.requests (blockingKey params) i) ∧ ¬service.CoolsDown (blockingKey params) circumstances.now ∧
    circumstances.enabled = true ∧ sanitizeMissingArtifactParams params ≠ none

end MissingArtifactResolutionService

open MissingArtifactResolutionService (blockingTimeoutCooldownMs newRequest)

namespace Session

def step (s : Session) : Event → Session
  | .call params circumstances =>
    let after := s.service.resolveBlocking params circumstances
    ⟨after.1,s.calls ++ [⟨params,after.2⟩]⟩
  | .settles request outcome now => { s with service := s.service.settle request outcome now }
  | .elapses request now => { s with service := s.service.elapses request now }

structure SharesRightly (s : Session) : Prop where
  tracked : ∀ key, key ∈ s.service.inFlightBlockingRequests.keys ↔ ∃ i, Pending s.service.requests key i
  single : ∀ key i j, Pending s.service.requests key i → Pending s.service.requests key j → i = j
  settles : ∀ call ∈ s.calls, (s.service.resultOf call.reply).isSome = true ∨
    ∃ i, call.reply = .promise i ∧ ∀ outcome now, ((s.service.settle i outcome now).resultOf call.reply).isSome = true
  alike : ∀ call ∈ s.calls, ∀ i, call.reply = .promise i →
    ∃ job, s.service.requests[i]? = some job ∧ Alike job.task.params call.params
  renews : ∀ params circumstances, (∀ i, ¬Pending s.service.requests (blockingKey params) i) →
    ¬s.service.TimedOutRecently (blockingKey params) circumstances.now → circumstances.enabled = true →
      sanitizeMissingArtifactParams params ≠ none →
        (s.service.resolveBlocking params circumstances).2 = .promise s.service.requests.length ∧
          (s.service.resolveBlocking params circumstances).1.requests.length = s.service.requests.length + 1

/-- A call is like the request pending under its key, and nothing is thrown where it starts one. -/
def Undisturbed (s : Session) : Event → Prop
  | .call params circumstances =>
    (∀ i job, Pending s.service.requests (blockingKey params) i → s.service.requests[i]? = some job →
      Alike job.task.params params) ∧ (s.service.Starts params circumstances → circumstances.thrown = none)
  | .settles _ _ _ | .elapses _ _ => True

structure Orderly (s : Session) : Prop where
  tracks : Tracks s.service.inFlightBlockingRequests s.service.requests
  alike : ∀ call ∈ s.calls, ∀ i, call.reply = .promise i →
    ∃ job, s.service.requests[i]? = some job ∧ Alike job.task.params call.params
  timedOut : ∀ key timestamp, s.service.recentBlockingTimeouts.get? key = some timestamp →
    ∃ job ∈ s.service.requests, job.key = key ∧ job.result = some ⟨.timeout,timestamp⟩

end Session

namespace MissingArtifactResolutionService

variable {service : MissingArtifactResolutionService} {params : FindMissingArtifactParams} {circumstances : Circumstances}

omit [Runtime] in
theorem get?_purge {key : String} {now timestamp : Nat} :
    (service.purge now).recentBlockingTimeouts.get? key = some timestamp ↔
      service.recentBlockingTimeouts.get? key = some timestamp ∧ now - timestamp < blockingTimeoutCooldownMs := by
  rw [purge,OrderedMap.get?_filterMap]
  cases service.recentBlockingTimeouts.get? key with
  | none => simp
  | some recorded =>
    simp only [Option.bind_some]
    split
    · simp only [reduceCtorEq,Option.some.injEq,false_iff,not_and]
      rintro rfl
      omega
    · simp only [Option.some.injEq]
      constructor
      · rintro rfl
        exact ⟨rfl,by omega⟩
      · exact And.left

omit [Runtime] in
theorem coolsDown_iff {key : String} {now : Nat} :
    (((service.purge now).recentBlockingTimeouts.get? key).getD 0 > 0 &&
      now - ((service.purge now).recentBlockingTimeouts.get? key).getD 0 < blockingTimeoutCooldownMs) = true ↔
      service.CoolsDown key now := by
  rw [CoolsDown]
  cases recorded : (service.purge now).recentBlockingTimeouts.get? key with
  | none =>
    have gone (timestamp : Nat) (held : service.recentBlockingTimeouts.get? key = some timestamp) :
        ¬now - timestamp < blockingTimeoutCooldownMs := by
      intro recent
      cases recorded.symm.trans (get?_purge.mpr ⟨held,recent⟩)
    simp only [Option.getD_none,gt_iff_lt,Nat.lt_irrefl,decide_false,Bool.false_and,Bool.false_eq_true,false_iff]
    rintro ⟨timestamp,held,-,recent⟩
    exact gone timestamp held recent
  | some timestamp =>
    obtain ⟨held,recent⟩ := get?_purge.mp recorded
    simp [held,recent]

theorem resolveBlocking_cases (service : MissingArtifactResolutionService) (params : FindMissingArtifactParams)
    (circumstances : Circumstances) :
    (∃ i, service.inFlightBlockingRequests.get? (blockingKey params) = some i ∧
      service.resolveBlocking params circumstances = (service.purge circumstances.now,.promise i)) ∨
    service.inFlightBlockingRequests.get? (blockingKey params) = none ∧
      ((∃ result, (service.CoolsDown (blockingKey params) circumstances.now ∨ circumstances.enabled = false ∨
          sanitizeMissingArtifactParams params = none) ∧
        service.resolveBlocking params circumstances = (service.purge circumstances.now,.immediate result)) ∨
      ∃ safeParams, ¬service.CoolsDown (blockingKey params) circumstances.now ∧ circumstances.enabled = true ∧
        sanitizeMissingArtifactParams params = some safeParams ∧ service.resolveBlocking params circumstances =
          ((service.purge circumstances.now).start (blockingKey params) (newRequest params safeParams circumstances)
            circumstances,.promise service.requests.length)) := by
  rw [resolveBlocking]
  dsimp only
  have table : (service.purge circumstances.now).inFlightBlockingRequests = service.inFlightBlockingRequests := rfl
  rw [table]
  cases found : service.inFlightBlockingRequests.get? (blockingKey params) with
  | some existing => exact .inl ⟨existing,rfl,rfl⟩
  | none =>
    refine .inr ⟨rfl,?_⟩
    dsimp only
    split
    next cooling => exact .inl ⟨_,.inl (coolsDown_iff.mp cooling),rfl⟩
    next warm =>
      have warm : ¬service.CoolsDown (blockingKey params) circumstances.now := fun cools => warm (coolsDown_iff.mpr cools)
      split
      next disabled => exact .inl ⟨_,.inr (.inl (by simpa using disabled)),rfl⟩
      next enabled =>
        cases safe : sanitizeMissingArtifactParams params with
        | none => exact .inl ⟨_,.inr (.inr rfl),rfl⟩
        | some safeParams => exact .inr ⟨safeParams,warm,by simpa using enabled,rfl,rfl⟩

omit [Runtime] in
theorem failed_cases (service : MissingArtifactResolutionService) (key : String) (error : Failure) (now : Nat) :
    service.failed key error now = (.timeout,service.recentBlockingTimeouts.set key now) ∨
      service.failed key error now = (.notFound,service.recentBlockingTimeouts) := by
  rw [failed]
  split
  · exact .inl rfl
  · exact .inr rfl

theorem settle_pending {key : String} {i : Nat} (pending : Pending service.requests key i) (outcome : Outcome) (now : Nat) :
    ∃ result, (service.settle i outcome now).inFlightBlockingRequests = service.inFlightBlockingRequests.erase key ∧
      (service.settle i outcome now).requests = settleJob service.requests i ⟨result,now⟩ ∧
      ∀ other timestamp, (service.settle i outcome now).recentBlockingTimeouts.get? other = some timestamp →
        service.recentBlockingTimeouts.get? other = some timestamp ∨ other = key ∧ timestamp = now ∧ result = .timeout := by
  obtain ⟨⟨under,request,_⟩,at_,same,unsettled⟩ := pending
  dsimp only at same unsettled
  subst same unsettled
  rw [settle,at_]
  cases outcome with
  | resolves result =>
    refine ⟨_,rfl,rfl,fun other timestamp recorded => .inl ?_⟩
    rw [OrderedMap.get?_erase] at recorded
    split at recorded
    · cases recorded
    · exact recorded
  | rejects error =>
    dsimp only
    obtain timed | lost := failed_cases service under error now
    · rw [timed]
      refine ⟨.timeout,rfl,rfl,fun other timestamp recorded => ?_⟩
      rw [OrderedMap.get?_set] at recorded
      split at recorded
      next same => exact .inr ⟨same,(Option.some.inj recorded).symm,rfl⟩
      next => exact .inl recorded
    · rw [lost]
      exact ⟨.notFound,rfl,rfl,fun other timestamp recorded => .inl recorded⟩

omit [Runtime] in
theorem mem_keys_start (service : MissingArtifactResolutionService) (key : String) (request : BlockingRequest)
    (circumstances : Circumstances) :
    key ∈ (service.start key request circumstances).inFlightBlockingRequests.keys := by
  rw [OrderedMap.mem_keys_iff]
  refine ⟨service.requests.length,?_⟩
  rw [start]
  cases circumstances.thrown <;> exact (OrderedMap.get?_set ..).trans (if_pos rfl)

omit [Runtime] in
theorem requests_start (service : MissingArtifactResolutionService) (key : String) (request : BlockingRequest)
    (circumstances : Circumstances) :
    ∃ result, (service.start key request circumstances).requests = service.requests ++ [⟨key,request,result⟩] ∧
      (result = none ↔ circumstances.thrown = none) := by
  rw [start]
  cases circumstances.thrown with
  | none => exact ⟨none,rfl,by simp⟩
  | some error => exact ⟨some _,rfl,by simp⟩

theorem settle_idle {i : Nat} (idle : ∀ key, ¬Pending service.requests key i) (outcome : Outcome) (now : Nat) :
    service.settle i outcome now = service := by
  rw [settle]
  split
  next key request at_ => exact absurd ⟨_,at_,rfl,rfl⟩ (idle key)
  next => rfl

end MissingArtifactResolutionService

namespace Session

variable {s : Session} {event : Event}

theorem Orderly.settle (orderly : Orderly s) (request : Nat) (outcome : Outcome) (now : Nat) :
    Orderly { s with service := s.service.settle request outcome now } := by
  by_cases idle : ∀ key, ¬Pending s.service.requests key request
  · rw [MissingArtifactResolutionService.settle_idle idle]
    exact orderly
  · obtain ⟨key,pending⟩ := not_forall_not.mp idle
    obtain ⟨result,table,requests,recorded⟩ := MissingArtifactResolutionService.settle_pending pending outcome now
    refine ⟨?_,?_,?_⟩
    · dsimp only
      rw [table,requests]
      exact orderly.tracks.settle pending _
    · intro call made i reply
      obtain ⟨job,at_,alike⟩ := orderly.alike call made i reply
      dsimp only
      rw [requests,getElem?_settleJob,at_]
      refine ⟨_,rfl,?_⟩
      split <;> exact alike
    · intro other timestamp held
      dsimp only
      rw [requests]
      obtain before | ⟨rfl,rfl,rfl⟩ := recorded other timestamp held
      · obtain ⟨job,made,under,timedOut⟩ := orderly.timedOut other timestamp before
        exact ⟨job,mem_settleJob_of_settled made timedOut,under,timedOut⟩
      · exact result_settleJob pending _

theorem Orderly.elapses (orderly : Orderly s) (request now : Nat) :
    Orderly { s with service := s.service.elapses request now } := by
  rw [MissingArtifactResolutionService.elapses]
  split
  · split
    · exact orderly.settle request _ now
    · exact orderly
  · exact orderly

theorem Orderly.purge (orderly : Orderly s) (now : Nat) {params : FindMissingArtifactParams} {reply : Reply}
    (alike : ∀ i, reply = .promise i → ∃ job, s.service.requests[i]? = some job ∧ Alike job.task.params params) :
    Orderly ⟨s.service.purge now,s.calls ++ [⟨params,reply⟩]⟩ := by
  refine ⟨orderly.tracks,?_,?_⟩
  · intro call made i replied
    obtain before | here := List.mem_append.mp made
    · exact orderly.alike call before i replied
    · rw [List.mem_singleton.mp here] at replied ⊢
      exact alike i replied
  · intro key timestamp held
    exact orderly.timedOut key timestamp (MissingArtifactResolutionService.get?_purge.mp held).1

theorem Orderly.start (orderly : Orderly s) {params : FindMissingArtifactParams} {circumstances : Circumstances}
    (free : s.service.inFlightBlockingRequests.get? (blockingKey params) = none) (quiet : circumstances.thrown = none)
    (safeParams : FindMissingArtifactParams) :
    Orderly ⟨(s.service.purge circumstances.now).start (blockingKey params) (newRequest params safeParams circumstances)
      circumstances,s.calls ++ [⟨params,.promise s.service.requests.length⟩]⟩ := by
  rw [MissingArtifactResolutionService.start,quiet]
  refine ⟨orderly.tracks.start free _,?_,?_⟩
  · intro call made i replied
    obtain before | here := List.mem_append.mp made
    · obtain ⟨job,at_,alike⟩ := orderly.alike call before i replied
      exact ⟨job,List.getElem?_append_left (List.getElem?_eq_some_iff.mp at_).1 ▸ at_,alike⟩
    · rw [List.mem_singleton.mp here] at replied ⊢
      cases replied
      exact ⟨_,List.getElem?_concat_length,⟨rfl,rfl,fun _ => Iff.rfl⟩⟩
  · intro key timestamp held
    obtain ⟨job,made,rest⟩ := orderly.timedOut key timestamp (MissingArtifactResolutionService.get?_purge.mp held).1
    exact ⟨job,List.mem_append_left _ made,rest⟩

theorem start_orderly : Orderly {} where
  tracks := Tracks.empty
  alike := nofun
  timedOut key timestamp held := by cases held

theorem Orderly.step (orderly : Orderly s) (undisturbed : Undisturbed s event) : Orderly (s.step event) := by
  cases event with
  | call params circumstances =>
    obtain ⟨alike,quiet⟩ := undisturbed
    rw [Session.step]
    obtain ⟨i,joined,reply⟩ | ⟨free,⟨result,-,reply⟩ | ⟨safeParams,warm,enabled,safe,reply⟩⟩ :=
      s.service.resolveBlocking_cases params circumstances
    · obtain ⟨job,at_,pending⟩ := (orderly.tracks _ i).mp joined
      rw [reply]
      refine orderly.purge circumstances.now fun j same => ?_
      cases same
      exact ⟨job,at_,alike i job ⟨job,at_,pending⟩ at_⟩
    · rw [reply]
      exact orderly.purge circumstances.now fun j same => nomatch same
    · rw [reply]
      refine orderly.start free (quiet ⟨fun i pending => ?_,warm,enabled,?_⟩) safeParams
      · rw [← orderly.tracks,free] at pending
        cases pending
      · rw [safe]
        exact Option.some_ne_none _
  | settles request outcome now => exact orderly.settle request outcome now
  | elapses request now => exact orderly.elapses request now

theorem Orderly.sharesRightly (orderly : Orderly s) : SharesRightly s where
  tracked _ := orderly.tracks.mem_keys
  single _ _ _ first second := orderly.tracks.unique first second
  settles call made := by
    cases reply : call.reply with
    | immediate result => exact .inl rfl
    | promise i =>
      obtain ⟨job,at_,-⟩ := orderly.alike call made i reply
      cases settled : job.result with
      | some settled_ =>
        left
        rw [MissingArtifactResolutionService.resultOf,at_,Option.bind_some,settled]
        rfl
      | none =>
        refine .inr ⟨i,rfl,fun outcome now => ?_⟩
        obtain ⟨result,-,requests,-⟩ :=
          MissingArtifactResolutionService.settle_pending ⟨job,at_,rfl,settled⟩ outcome now
        rw [MissingArtifactResolutionService.resultOf,requests,getElem?_settleJob,at_,Option.map_some,if_pos rfl,settled]
        rfl
  alike := orderly.alike
  renews params circumstances idle warm enabled safe := by
    obtain ⟨i,joined,-⟩ | ⟨free,⟨result,kept,-⟩ | ⟨safeParams,-,-,-,reply⟩⟩ :=
      s.service.resolveBlocking_cases params circumstances
    · exact absurd ((orderly.tracks _ i).mp joined) (idle i)
    · obtain ⟨timestamp,held,-,recent⟩ | disabled | unsafe_ := kept
      · obtain ⟨job,made,under,timedOut⟩ := orderly.timedOut _ timestamp held
        exact absurd ⟨job,made,under,timestamp,timedOut,recent⟩ warm
      · rw [enabled] at disabled
        cases disabled
      · exact absurd unsafe_ safe
    · rw [reply]
      obtain ⟨result,requests,-⟩ := MissingArtifactResolutionService.requests_start (s.service.purge circumstances.now)
        (blockingKey params) (newRequest params safeParams circumstances) circumstances
      exact ⟨rfl,by rw [requests,List.length_append,List.length_singleton]; rfl⟩

theorem Orderly.undisturbed (orderly : Orderly s) (rightly : SharesRightly (s.step event)) : Undisturbed s event := by
  cases event with
  | call params circumstances =>
    rw [Session.step] at rightly
    obtain ⟨i,joined,reply⟩ | ⟨free,⟨result,kept,reply⟩ | ⟨safeParams,warm,enabled,safe,reply⟩⟩ :=
      s.service.resolveBlocking_cases params circumstances
    · have pending := (orderly.tracks _ i).mp joined
      refine ⟨fun j job other at_ => ?_,fun starts => absurd pending (starts.1 i)⟩
      obtain rfl := orderly.tracks.unique pending other
      rw [reply] at rightly
      obtain ⟨found,here,alike⟩ := rightly.alike _ (List.mem_append_right _ (.head _)) i rfl
      cases at_.symm.trans here
      exact alike
    · have idle (i : Nat) : ¬Pending s.service.requests (blockingKey params) i := by
        rw [← orderly.tracks,free]
        exact nofun
      refine ⟨fun i job pending => absurd pending (idle i),fun starts => ?_⟩
      obtain ⟨-,warm,enabled,safe⟩ := starts
      obtain cools | disabled | unsafe_ := kept
      · exact absurd cools warm
      · rw [enabled] at disabled
        cases disabled
      · exact absurd unsafe_ safe
    · have idle (i : Nat) : ¬Pending s.service.requests (blockingKey params) i := by
        rw [← orderly.tracks,free]
        exact nofun
      refine ⟨fun i job pending => absurd pending (idle i),fun _ => ?_⟩
      rw [reply] at rightly
      obtain ⟨result,requests,unsettled⟩ := MissingArtifactResolutionService.requests_start
        (s.service.purge circumstances.now) (blockingKey params) (newRequest params safeParams circumstances) circumstances
      obtain ⟨i,pending⟩ := (rightly.tracked (blockingKey params)).mp
        (MissingArtifactResolutionService.mem_keys_start ..)
      dsimp only at pending
      rw [requests,pending_append] at pending
      obtain before | ⟨-,-,none_⟩ := pending
      · exact absurd before (idle i)
      · exact unsettled.mp none_
  | settles | elapses => trivial

/-- Along a run requests are shared rightly if and only if every call is undisturbed. -/
theorem sharesRightly_iff (events : List Event) :
    EveryState step SharesRightly {} events ↔ EveryStep step Undisturbed {} events := by
  apply everyState_iff_everyStep (A := Orderly)
  · exact fun s event orderly _ undisturbed => orderly.step undisturbed
  · exact fun s event orderly _ => ⟨orderly.undisturbed,fun undisturbed => (orderly.step undisturbed).sharesRightly⟩
  · exact start_orderly
  · exact start_orderly.sharesRightly

end Session

end

def missingClass : FindMissingArtifactParams where
  identifiers := [
    { name := "MissingClass"
      provenance := some
        { sourceUri := "file:///test.cls"
          documentVersion := some 1
          referenceRange := ⟨0,0,0,12⟩
          referenceIdentity := "class-ref|MissingClass|0|0|0|12"
          parseCompleteness := .complete } }]
  uri := "file:///test.cls"
  requestKind := .definition

/-- The proxy throws at once, and the request that has failed stays in the table. -/
theorem failed_request_kept : ¬EveryState (@Session.step asciiRuntime) (@Session.SharesRightly asciiRuntime) {}
    [.call missingClass ⟨1,true,false,true,2000,some (some "DataCloneError")⟩] := by
  intro always
  let _ := asciiRuntime
  let event : Event := .call missingClass ⟨1,true,false,true,2000,some (some "DataCloneError")⟩
  have rightly : (Session.step {} event).SharesRightly := always.last
  have undisturbed := Session.start_orderly.undisturbed rightly
  refine nomatch undisturbed.2 ⟨?_,?_,rfl,?_⟩
  · rintro i ⟨job,at_,-⟩
    cases at_
  · rintro ⟨timestamp,held,-⟩
    cases held
  · decide +kernel

end ApexLs.Services.MissingArtifacts
