import ApexLs.Services.SObjectVersions

/-! The callers of the sObject enrichment: which requests a call of `resolveBlocking` waits for, and what it returns. That it
resolves the references of the caller's file before it returns is left out. -/
namespace ApexLs.Services.SObjects

open ApexLs.Collections
open MissingArtifacts (MissingArtifactPayload BlockingResult)

def artifactsOf : BlockingResult → List MissingArtifactPayload
  | .resolved artifacts _ => artifacts.getD []
  | _ => []

def openedOf : BlockingResult → List String
  | .resolved _ opened => opened.getD []
  | _ => []

section

variable [ApexLs.Utils.Runtime]

/-- The artifacts by their names, of two with one name the later. -/
def mergedArtifacts (results : List BlockingResult) : OrderedMap String MissingArtifactPayload :=
  (results.flatMap artifactsOf).foldl (fun m artifact => m.set (normalizedName artifact.name) artifact) .empty

def mergeBlockingResults (results : List BlockingResult) : BlockingResult :=
  let artifacts := mergedArtifacts results
  let opened := (results.flatMap openedOf).eraseDups
  if artifacts.size > 0 ∨ opened.length > 0 then
    .resolved (if artifacts.size > 0 then some (artifacts.entries.map Prod.snd) else none)
      (if opened.length > 0 then some opened else none)
  else if .timeout ∈ results then .timeout
  else if .unsupported ∈ results then .unsupported
  else if .cancelled ∈ results then .cancelled
  else .notFound

theorem get?_mergedArtifacts (results : List BlockingResult) (name : String) :
    (mergedArtifacts results).get? name = (results.flatMap artifactsOf).reverse.find? (normalizedName ·.name = name) := by
  rw [mergedArtifacts]
  induction results.flatMap artifactsOf using List.reverseRecOn with
  | nil => rfl
  | append_singleton artifacts last ih =>
    rw [List.foldl_append,List.foldl_cons,List.foldl_nil,OrderedMap.get?_set,ih,List.reverse_concat,List.find?_cons]
    by_cases same : name = normalizedName last.name
    · rw [if_pos same,decide_eq_true same.symm]
    · rw [if_neg same,decide_eq_false (Ne.symm same)]

theorem artifactsOf_merge (results : List BlockingResult) :
    artifactsOf (mergeBlockingResults results) = (mergedArtifacts results).entries.map Prod.snd := by
  rw [mergeBlockingResults]
  by_cases some_ : (mergedArtifacts results).size > 0
  · rw [if_pos (.inl some_),if_pos some_]
    rfl
  · have none_ : (mergedArtifacts results).entries = [] := List.eq_nil_of_length_eq_zero (Nat.eq_zero_of_not_pos some_)
    rw [none_,if_neg some_]
    repeat' split
    all_goals rfl

/-- Nothing is added by the merge, and of each name something is kept. -/
theorem merge_exact (results : List BlockingResult) :
    (∀ a ∈ artifactsOf (mergeBlockingResults results), ∃ result ∈ results, a ∈ artifactsOf result) ∧
    ∀ result ∈ results, ∀ artifact ∈ artifactsOf result,
      ∃ a ∈ artifactsOf (mergeBlockingResults results), normalizedName a.name = normalizedName artifact.name := by
  simp only [artifactsOf_merge]
  refine ⟨fun a member => ?_,fun result listed artifact brought => ?_⟩
  · obtain ⟨⟨name,_⟩,entry,rfl⟩ := List.mem_map.mp member
    have found := (get?_mergedArtifacts results name).symm.trans (OrderedMap.get?_eq_some_iff.mpr entry)
    exact List.mem_flatMap.mp (List.mem_reverse.mp (List.mem_of_find?_eq_some found))
  · have there : ((mergedArtifacts results).get? (normalizedName artifact.name)).isSome := by
      rw [get?_mergedArtifacts]
      exact List.find?_isSome.mpr
        ⟨artifact,List.mem_reverse.mpr (List.mem_flatMap.mpr ⟨result,listed,brought⟩),decide_eq_true rfl⟩
    obtain ⟨a,found⟩ := Option.isSome_iff_exists.mp there
    refine ⟨a,List.mem_map.mpr ⟨_,OrderedMap.get?_eq_some_iff.mp found,rfl⟩,?_⟩
    rw [get?_mergedArtifacts] at found
    simpa using List.find?_some found

namespace Coordination

def notFoundUntil (s : Coordination) (identifier : IdentifierSpec) (now : Nat) : Bool :=
  (s.notFoundUntilByIdentifier.get? (identifierKey identifier)).any (now < ·)

def joined (s : Coordination) (identifiers : List IdentifierSpec) (now : Nat) : List Nat :=
  let asked := (normalizeParams identifiers).filter fun identifier => !s.notFoundUntil identifier now
  let existing := asked.filterMap fun identifier => s.inFlightByIdentifier.get? (identifierKey identifier)
  let fresh := asked.filter fun identifier => (s.inFlightByIdentifier.get? (identifierKey identifier)).isNone
  (existing ++ if fresh = [] then [] else [s.requests.length]).eraseDups

/-- What a request has come to; it is rejected, or it has an outcome. -/
def settledAs (s : Coordination) (i : Nat) : Option (Option BlockingResult) :=
  (s.requests[i]?).bind fun r => if r.stage.pending then none else some r.stage.outcome

/-- What the call returns, once it does; it fails with the first request that does. -/
def returned (s : Coordination) (joined : List Nat) : Option (Option BlockingResult) :=
  let outcomes := joined.map s.settledAs
  if joined = [] then some (some .notFound)
  else if some none ∈ outcomes then some none
  else if none ∈ outcomes then none
  else some (some (mergeBlockingResults (outcomes.filterMap Option.join)))

variable {s s' s'' : Coordination}

def Asks (s : Coordination) (i : Nat) (key : String) : Prop :=
  ∃ r : Request, s.requests[i]? = some r ∧ ∃ identifier ∈ r.identifiers, identifierKey identifier = key

def Owned (s : Coordination) : Prop := ∀ key i, s.inFlightByIdentifier.get? key = some i → s.Asks i key

/-- A request keeps asking for its keys, and a key in flight leads to a request for it. -/
structure Follows (s s' : Coordination) : Prop where
  asks : ∀ i key, s.Asks i key → s'.Asks i key
  owned : s.Owned → s'.Owned

theorem Follows.trans (first : Follows s s') (second : Follows s' s'') : Follows s s'' :=
  ⟨fun i key asks => second.asks i key (first.asks i key asks),fun owned => second.owned (first.owned owned)⟩

theorem Follows.fewer (asks : ∀ i key, s.Asks i key → s'.Asks i key)
    (fewer : ∀ key i, s'.inFlightByIdentifier.get? key = some i → s.inFlightByIdentifier.get? key = some i) : Follows s s' :=
  ⟨asks,fun owned key i found => asks i key (owned key i (fewer key i found))⟩

theorem Follows.same (requests : s'.requests = s.requests) (inFlight : s'.inFlightByIdentifier = s.inFlightByIdentifier) :
    Follows s s' :=
  .fewer (fun _ _ ⟨r,row,asks⟩ => ⟨r,requests ▸ row,asks⟩) fun _ _ found => inFlight ▸ found

theorem Follows.setRequest {f : Request → Request} {i : Nat} (requests : s'.requests = s.requests.modify i f)
    (same : ∀ r, (f r).identifiers = r.identifiers)
    (fewer : ∀ key i, s'.inFlightByIdentifier.get? key = some i → s.inFlightByIdentifier.get? key = some i) : Follows s s' := by
  refine .fewer (fun j key ⟨r,row,asks⟩ => ⟨if i = j then f r else r,?_,?_⟩) fewer
  · rw [requests,List.getElem?_modify,row]
    rfl
  · split
    · rw [same]
      exact asks
    · exact asks

theorem ensurePlaceholders_same (s : Coordination) (identifiers : List IdentifierSpec) :
    (s.ensurePlaceholders identifiers).1.requests = s.requests ∧
      (s.ensurePlaceholders identifiers).1.inFlightByIdentifier = s.inFlightByIdentifier := by
  have one (s : Coordination) (name : String) : (s.ensurePlaceholder name).1.requests = s.requests ∧
      (s.ensurePlaceholder name).1.inFlightByIdentifier = s.inFlightByIdentifier := by
    rw [ensurePlaceholder]
    split <;> exact ⟨rfl,rfl⟩
  unfold ensurePlaceholders
  induction identifiers.filter isSObject using List.reverseRecOn with
  | nil => exact ⟨rfl,rfl⟩
  | append_singleton sObjects identifier ih =>
    rw [List.foldl_append]
    exact ⟨(one _ identifier.name).1.trans ih.1,(one _ identifier.name).2.trans ih.2⟩

theorem Follows.prepareBackground (s : Coordination) (sObjects : List IdentifierSpec) :
    Follows s (s.prepareBackground sObjects).1 := by
  rw [Coordination.prepareBackground]
  split
  · exact .same rfl rfl
  · exact .same (ensurePlaceholders_same s sObjects).1 (ensurePlaceholders_same s sObjects).2

theorem Follows.requestLeaves (s : Coordination) (i now : Nat) : Follows s (s.requestLeaves i now) := by
  have fewer (keys : List String) (m : OrderedMap String Nat) : ∀ key j,
      (keys.foldl (fun m key => if m.get? key = some i then m.erase key else m) m).get? key = some j → m.get? key = some j := by
    induction keys generalizing m with
    | nil => exact fun _ _ found => found
    | cons first keys ih =>
      intro key j found
      replace found := ih _ key j found
      dsimp only at found
      split at found
      · rw [OrderedMap.get?_erase] at found
        split at found
        · cases found
        · exact found
      · exact found
  rw [Coordination.requestLeaves]
  split
  · exact .setRequest rfl (fun _ => rfl) (fewer _ _)
  · exact .same rfl rfl

theorem asks_push {r : Request} (requests : s'.requests = s.requests ++ [r]) : (∀ i key, s.Asks i key → s'.Asks i key) ∧
    ∀ identifier ∈ r.identifiers, s'.Asks s.requests.length (identifierKey identifier) := by
  refine ⟨fun i key ⟨r',row,asks⟩ => ⟨r',?_,asks⟩,fun identifier member => ⟨r,?_,identifier,member,rfl⟩⟩
  all_goals rw [requests,concat_row]
  · exact .inl row
  · exact .inr ⟨rfl,rfl⟩

theorem Follows.resolveBlocking (s : Coordination) (identifiers : List IdentifierSpec) (now : Nat) :
    Follows s (s.resolveBlocking identifiers now) ∧ ∀ identifier ∈ normalizeParams identifiers,
      s.notFoundUntil identifier now = false → s.inFlightByIdentifier.get? (identifierKey identifier) = none →
        (s.resolveBlocking identifiers now).Asks s.requests.length (identifierKey identifier) := by
  rw [Coordination.resolveBlocking]
  dsimp only
  generalize filtered : (normalizeParams identifiers).filter _ = fresh
  have asks {identifier : IdentifierSpec} (listed : identifier ∈ normalizeParams identifiers)
      (asked : s.notFoundUntil identifier now = false)
      (free : s.inFlightByIdentifier.get? (identifierKey identifier) = none) : identifier ∈ fresh := by
    rw [← filtered]
    refine List.mem_filter.mpr ⟨listed,?_⟩
    rw [free,OrderedMap.get?_filterMap]
    rw [notFoundUntil] at asked
    cases stored : s.notFoundUntilByIdentifier.get? (identifierKey identifier) with
    | none => rfl
    | some expiresAt =>
      rw [stored] at asked
      have expired : expiresAt ≤ now := Nat.le_of_not_lt (of_decide_eq_false asked)
      simp [expired]
  split
  · next none_ =>
    refine ⟨.same rfl rfl,fun identifier listed asked free => ?_⟩
    exact absurd (none_ ▸ asks listed asked free) List.not_mem_nil
  · generalize ensured : Coordination.ensurePlaceholders _ fresh = p
    obtain ⟨requests,inFlight⟩ := ensured ▸ ensurePlaceholders_same _ fresh
    rw [requests,inFlight]
    generalize after : Coordination.mk .. = s'
    have requests : s'.requests = s.requests ++ [⟨fresh,.empty,.preparing p.2⟩] := by rw [← after]
    obtain ⟨further,own⟩ := asks_push requests
    have keys (m : OrderedMap String Nat) (n : Nat) : fresh.foldl (fun m identifier => m.set (identifierKey identifier) n) m =
        (fresh.map identifierKey).foldl (fun m key => m.set key n) m := by rw [List.foldl_map]
    refine ⟨⟨further,fun owned key i found => ?_⟩,fun identifier listed asked free => own identifier (asks listed asked free)⟩
    rw [← after] at found
    dsimp only at found
    rw [keys,OrderedMap.get?_foldl_set] at found
    split at found
    · next mine =>
      obtain ⟨identifier,member,rfl⟩ := List.mem_map.mp mine
      obtain rfl := Option.some.inj found
      exact own identifier member
    · exact further i key (owned key i found)

theorem Follows.step (s : Coordination) (event : Event) : Follows s (s.step event) := by
  cases event with
  | resolveBlocking identifiers now => exact (Follows.resolveBlocking s identifiers now).1
  | requestLeaves request now => exact .requestLeaves s request now
  | resolveInBackground identifiers =>
    rw [Coordination.step,Coordination.resolveInBackground]
    dsimp only
    split
    · exact .same rfl rfl
    · exact (Follows.prepareBackground s _).trans (.same rfl rfl)
  | forwarded background succeeded =>
    rw [Coordination.step,Coordination.forwarded]
    split
    · cases succeeded with
      | true => exact (Follows.prepareBackground s _).trans (.same rfl rfl)
      | false => exact .same rfl rfl
    · exact .same rfl rfl
  | backgroundPrepared background now =>
    rw [Coordination.step,Coordination.backgroundPrepared]
    repeat' split
    · exact .same rfl rfl
    · refine .trans ?_ (Follows.resolveBlocking _ _ now).1
      exact .same rfl rfl
    · exact .same rfl rfl
    · exact .same rfl rfl
  | applyArtifacts | lookedUp | placeholderAdded | placeholderLeaves | applicationGoesOn =>
    simp only [Coordination.step,Coordination.applyArtifacts,Coordination.lookedUp,Coordination.placeholderAdded,
      Coordination.placeholderLeaves,Coordination.applicationGoesOn]
    repeat' split
    all_goals exact .same rfl rfl
  | prepared | answered | artifactAdded =>
    rw [Coordination.step]
    first | rw [Coordination.prepared] | rw [Coordination.answered] | rw [Coordination.artifactAdded]
    repeat' split
    all_goals first | exact .same rfl rfl | exact .setRequest rfl (fun _ => rfl) fun _ _ found => found

theorem follows_run (s : Coordination) (events : List Event) : Follows s (run Coordination.step s events) := by
  induction events generalizing s with
  | nil => exact .same rfl rfl
  | cons event events ih => exact (Follows.step s event).trans (ih _)

theorem mem_joined {identifiers : List IdentifierSpec} {identifier : IdentifierSpec} {now : Nat}
    (listed : identifier ∈ normalizeParams identifiers) (asked : s.notFoundUntil identifier now = false) :
    (s.inFlightByIdentifier.get? (identifierKey identifier)).getD s.requests.length ∈ s.joined identifiers now := by
  have asked : identifier ∈ (normalizeParams identifiers).filter fun identifier => !s.notFoundUntil identifier now :=
    List.mem_filter.mpr ⟨listed,by rw [asked]; rfl⟩
  rw [joined,List.mem_eraseDups,List.mem_append,List.mem_filterMap]
  cases inFlight : s.inFlightByIdentifier.get? (identifierKey identifier) with
  | some j => exact .inl ⟨identifier,asked,inFlight⟩
  | none =>
    rw [if_neg (List.ne_nil_of_mem (List.mem_filter.mpr ⟨asked,Option.isNone_iff_eq_none.mpr inFlight⟩))]
    exact .inr List.mem_cons_self

/-- The answer has the artifacts that the requests bring, of two with one name one. -/
def Merges (s : Coordination) (joined : List Nat) (answer : BlockingResult) : Prop :=
  (∀ i ∈ joined, ∃ outcome, s.settledAs i = some (some outcome) ∧ ∀ artifact ∈ artifactsOf outcome,
    ∃ a ∈ artifactsOf answer, normalizedName a.name = normalizedName artifact.name) ∧
  ∀ a ∈ artifactsOf answer, ∃ i ∈ joined, ∃ outcome, s.settledAs i = some (some outcome) ∧ a ∈ artifactsOf outcome

/-- For each identifier that is not known to be missing, the call waits for a request for it, and its answer has what these
requests bring. -/
def Answers (s s' : Coordination) (identifiers : List IdentifierSpec) (now : Nat) : Prop :=
  (∀ identifier ∈ normalizeParams identifiers, s.notFoundUntil identifier now = false →
    ∃ i ∈ s.joined identifiers now, s'.Asks i (identifierKey identifier)) ∧
  ∀ answer, s'.returned (s.joined identifiers now) = some (some answer) → s'.Merges (s.joined identifiers now) answer

theorem returned_merges {joined : List Nat} {answer : BlockingResult}
    (returns : s.returned joined = some (some answer)) : s.Merges joined answer := by
  rw [returned] at returns
  split at returns
  · next none_ =>
    obtain rfl := Option.some.inj (Option.some.inj returns)
    rw [none_]
    exact ⟨nofun,nofun⟩
  · split at returns
    · cases returns
    · next kept =>
      split at returns
      · cases returns
      · next settled =>
        obtain rfl := Option.some.inj (Option.some.inj returns)
        obtain ⟨within,every⟩ := merge_exact ((joined.map s.settledAs).filterMap Option.join)
        refine ⟨fun i waited => ?_,fun a member => ?_⟩
        · match outcome : s.settledAs i with
          | none => exact absurd (List.mem_map.mpr ⟨i,waited,outcome⟩) settled
          | some none => exact absurd (List.mem_map.mpr ⟨i,waited,outcome⟩) kept
          | some (some outcome_) =>
            exact ⟨outcome_,rfl,every outcome_ (List.mem_filterMap.mpr ⟨_,List.mem_map.mpr ⟨i,waited,outcome⟩,rfl⟩)⟩
        · obtain ⟨result,listed,brought⟩ := within a member
          obtain ⟨outcome,settled,same⟩ := List.mem_filterMap.mp listed
          obtain ⟨i,waited,rfl⟩ := List.mem_map.mp settled
          exact ⟨i,waited,result,Option.join_eq_some_iff.mp same,brought⟩

/-- In every run, whatever comes in between, each call answers for what it was asked. -/
theorem resolveBlocking_answers (front back : List Event) (identifiers : List IdentifierSpec) (now : Nat) :
    (run Coordination.step {} front).Answers (run Coordination.step {} (front ++ .resolveBlocking identifiers now :: back))
      identifiers now := by
  rw [run_append,run_cons]
  have owned : (run Coordination.step {} front).Owned := (follows_run {} front).owned nofun
  generalize run Coordination.step {} front = s at owned ⊢
  obtain ⟨follows,own⟩ := Follows.resolveBlocking s identifiers now
  have later := follows_run (s.step (.resolveBlocking identifiers now)) back
  refine ⟨fun identifier listed asked => ?_,fun answer returns => returned_merges returns⟩
  have waited := mem_joined listed asked
  cases inFlight : s.inFlightByIdentifier.get? (identifierKey identifier) with
  | some i =>
    rw [inFlight] at waited
    exact ⟨i,waited,(follows.trans later).asks i _ (owned _ i inFlight)⟩
  | none =>
    rw [inFlight] at waited
    exact ⟨_,waited,later.asks _ _ (own identifier listed asked inFlight)⟩

end Coordination

end

end ApexLs.Services.SObjects
