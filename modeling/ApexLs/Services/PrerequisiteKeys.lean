import ApexLs.Collections.Runs
import ApexLs.Services.InFlightPrerequisiteRegistry
import ApexLs.Utils.NumberText

/-! The prerequisite registry over the texts of its keys, which eviction takes apart again, and
what becomes of a request that was satisfied once. -/
namespace ApexLs.Services.PrerequisiteKeys

open ApexLs.Collections ApexLs.Types ApexLs.Utils
open InFlightPrerequisiteRegistry (stale)

def getKey (fileUri : String) (documentVersion : Int) : String := fileUri ++ "::" ++ toString documentVersion

structure Completion where
  targetDetailLevel : Option DetailLevel
  needsCrossFileResolution : Bool
  deriving DecidableEq, Repr

structure Registry where
  entries : OrderedMap String InFlightPrerequisiteEntry := .empty
  completed : OrderedMap String Completion := .empty

def covers (targetDetailLevel : Option DetailLevel) (needsCrossFileResolution : Bool)
    (asked : Option DetailLevel) (crossFile : Bool) : Bool :=
  reaches targetDetailLevel asked && (!crossFile || needsCrossFileResolution)

namespace Registry

def isSatisfied (r : Registry) (spec : PrerequisiteRequestSpec) : Bool :=
  (r.completed.get? (getKey spec.fileUri spec.documentVersion)).any fun completed =>
    covers completed.targetDetailLevel completed.needsCrossFileResolution
      spec.targetDetailLevel spec.needsCrossFileResolution

structure Acquisition where
  key : String
  joined : Bool
  upgraded : Bool
  entry : InFlightPrerequisiteEntry
  deriving DecidableEq, Repr

/-- The entry that was joined is an object, which the map holds on to. -/
def acquireOrJoin (r : Registry) (now : Nat) (spec : PrerequisiteRequestSpec) : Registry × Acquisition :=
  let key := getKey spec.fileUri spec.documentVersion
  match r.entries.get? key with
  | some existing =>
    let after := existing.upgrade spec
    ({ r with entries := r.entries.set key after.1 },⟨key,true,after.2,after.1⟩)
  | none =>
    let entry : InFlightPrerequisiteEntry :=
      { key := spec.key,targetDetailLevel := spec.targetDetailLevel
        needsCrossFileResolution := spec.needsCrossFileResolution,createdAt := now }
    ({ r with entries := r.entries.set key entry },⟨key,false,false,entry⟩)

def complete (r : Registry) (key : String) : Registry :=
  match r.entries.get? key with
  | none => r
  | some entry =>
    { entries := r.entries.erase key
      completed := r.completed.set key ⟨entry.targetDetailLevel,entry.needsCrossFileResolution⟩ }

def fail (r : Registry) (key : String) : Registry := { r with entries := r.entries.erase key }

/-- The test on a key of `completed`: the prefix is cut off and the rest read as a number. -/
def staleKey (fileUri : String) (currentVersion : Int) (key : String) : Bool :=
  let opening := (fileUri ++ "::").toList
  opening.isPrefixOf key.toList &&
    (number (String.ofList (key.toList.drop opening.length))).any (fun version => version ≠ (currentVersion : ℚ))

def evictStaleForUri (r : Registry) (fileUri : String) (currentVersion : Int) : Registry where
  entries := r.entries.filterMap fun _ entry => if stale fileUri currentVersion entry.key then none else some entry
  completed := r.completed.filterMap fun key c => if staleKey fileUri currentVersion key then none else some c

inductive Event where
  | acquireOrJoin (now : Nat) (spec : PrerequisiteRequestSpec)
  | complete (key : String)
  | fail (key : String)
  | evictStaleForUri (fileUri : String) (currentVersion : Int)

def step (r : Registry) : Event → Registry
  | .acquireOrJoin now spec => (r.acquireOrJoin now spec).1
  | .complete key => r.complete key
  | .fail key => r.fail key
  | .evictStaleForUri fileUri currentVersion => r.evictStaleForUri fileUri currentVersion

def Evicts (spec : PrerequisiteRequestSpec) : Event → Prop
  | .evictStaleForUri fileUri currentVersion => fileUri = spec.fileUri ∧ currentVersion ≠ spec.documentVersion
  | _ => False

/-- What is asked of a run: a satisfied request stays so until its document is evicted at another
version, and an eviction leaves the other documents alone. -/
structure Steadfast (r : Registry) (events : List Event) : Prop where
  satisfied : ∀ front mid rest, events = front ++ mid ++ rest → ∀ spec,
    (run step r front).isSatisfied spec = true → (∀ e ∈ mid, ¬ Evicts spec e) →
    (run step r (front ++ mid)).isSatisfied spec = true
  others : ∀ front rest fileUri currentVersion, events = front ++ .evictStaleForUri fileUri currentVersion :: rest →
    ∀ uri, uri ≠ fileUri → ∀ version,
      ((run step r front).evictStaleForUri fileUri currentVersion).entries.get? (getKey uri version) =
        (run step r front).entries.get? (getKey uri version) ∧
      ((run step r front).evictStaleForUri fileUri currentVersion).completed.get? (getKey uri version) =
        (run step r front).completed.get? (getKey uri version)

def Covering (r : Registry) : Event → Prop
  | .complete key => ∀ entry recorded, r.entries.get? key = some entry → r.completed.get? key = some recorded →
      covers entry.targetDetailLevel entry.needsCrossFileResolution
        recorded.targetDetailLevel recorded.needsCrossFileResolution = true
  | _ => True

def Keyed (r : Registry) : Prop :=
  ∀ key entry, r.entries.get? key = some entry → getKey entry.key.fileUri entry.key.documentVersion = key

theorem getKey_toList (uri : String) (version : Int) :
    (getKey uri version).toList = uri.toList ++ ':' :: ':' :: (toString version).toList := by
  simp [getKey]

theorem colon_of_overhang {uri file after rest : List Char} (longer : uri ≠ file) (clean : ':' ∉ after)
    (same : uri ++ ':' :: ':' :: after = file ++ ':' :: ':' :: rest) : ':' ∈ rest := by
  rcases List.append_eq_append_iff.mp same with ⟨more,rfl,tail⟩ | ⟨more,rfl,tail⟩
  · rcases more with _ | ⟨a,_ | ⟨b,more⟩⟩
    · exact absurd (List.append_nil _).symm longer
    · obtain ⟨-,inner⟩ := List.cons.inj tail
      obtain ⟨-,inner⟩ := List.cons.inj inner
      exact absurd (inner ▸ .head _) clean
    · obtain ⟨-,inner⟩ := List.cons.inj tail
      obtain ⟨-,inner⟩ := List.cons.inj inner
      exact absurd (inner ▸ List.mem_append_right _ (.head _)) clean
  · rcases more with _ | ⟨a,_ | ⟨b,more⟩⟩
    · exact absurd (List.append_nil _) longer
    · obtain ⟨-,inner⟩ := List.cons.inj tail
      obtain ⟨-,inner⟩ := List.cons.inj inner
      exact inner ▸ .head _
    · obtain ⟨-,inner⟩ := List.cons.inj tail
      obtain ⟨-,inner⟩ := List.cons.inj inner
      exact inner ▸ List.mem_append_right _ (.head _)

theorem getKey_injective {uri uri' : String} {version version' : Int} (same : getKey uri version = getKey uri' version') :
    uri = uri' ∧ version = version' := by
  have texts := congrArg String.toList same
  rw [getKey_toList,getKey_toList] at texts
  have uris : uri = uri' := by
    by_contra apart
    have lists : uri.toList ≠ uri'.toList := fun equal => apart (String.toList_inj.mp equal)
    exact toString_no_colon version' (colon_of_overhang lists (toString_no_colon version) texts)
  subst uris
  have numerals := (List.cons.inj (List.cons.inj (List.append_cancel_left texts)).2).2
  have values := congrArg number (String.toList_inj.mp numerals)
  rw [number_toString,number_toString] at values
  exact ⟨rfl,by exact_mod_cast Option.some.inj values⟩

theorem staleKey_getKey (fileUri uri : String) (currentVersion version : Int) :
    staleKey fileUri currentVersion (getKey uri version) = stale fileUri currentVersion ⟨uri,version⟩ := by
  have opening : (fileUri ++ "::").toList = fileUri.toList ++ [':',':'] := by simp
  unfold staleKey
  rw [opening,getKey_toList]
  by_cases same : uri = fileUri
  · subst same
    have cut : uri.toList ++ ':' :: ':' :: (toString version).toList =
        (uri.toList ++ [':',':']) ++ (toString version).toList := by simp
    simp only [cut,List.drop_left,String.ofList_toList,number_toString,stale]
    simp
  · have kept : stale fileUri currentVersion ⟨uri,version⟩ = false := by simp [stale,same]
    rw [kept,Bool.and_eq_false_iff]
    by_cases opens : (fileUri.toList ++ [':',':']) <+: (uri.toList ++ ':' :: ':' :: (toString version).toList)
    · right
      obtain ⟨rest,equal⟩ := opens
      have lists : uri.toList ≠ fileUri.toList := fun equal => same (String.toList_inj.mp equal)
      have colon : ':' ∈ rest := by
        refine colon_of_overhang lists (toString_no_colon version) ?_
        rw [← equal]
        simp
      rw [← equal,List.drop_left,number_of_colon (by simpa using colon)]
      rfl
    · left
      rw [← Bool.not_eq_true,List.isPrefixOf_iff_prefix]
      exact opens

theorem covers_refl (level : Option DetailLevel) (crossFile : Bool) : covers level crossFile level crossFile = true := by
  cases crossFile <;> simp [covers,InFlightPrerequisiteRegistry.reaches_refl]

theorem covers_trans {a b c : Option DetailLevel} {x y z : Bool} (first : covers b y a x = true)
    (second : covers c z b y = true) : covers c z a x = true := by
  simp only [covers,Bool.and_eq_true] at first second ⊢
  refine ⟨InFlightPrerequisiteRegistry.reaches_trans first.1 second.1,?_⟩
  cases x
  · rfl
  · have needed : y = true := by simpa using first.2
    simpa [needed] using second.2

theorem step_keyed (r : Registry) (e : Event) (keyed : r.Keyed) : (r.step e).Keyed := by
  intro key entry found
  cases e with
  | acquireOrJoin now spec =>
    simp only [step,acquireOrJoin] at found
    split at found
    next existing there =>
      simp only [OrderedMap.get?_set] at found
      split at found
      next same =>
        obtain rfl := Option.some.inj found
        rw [InFlightPrerequisiteRegistry.upgrade_eq,same]
        exact keyed _ existing there
      next => exact keyed key entry found
    next =>
      simp only [OrderedMap.get?_set] at found
      split at found
      next same =>
        obtain rfl := Option.some.inj found
        exact same.symm
      next => exact keyed key entry found
  | complete done =>
    simp only [step,complete] at found
    split at found
    next => exact keyed key entry found
    next =>
      simp only [OrderedMap.get?_erase] at found
      split at found
      · cases found
      · exact keyed key entry found
  | fail failed =>
    simp only [step,fail,OrderedMap.get?_erase] at found
    split at found
    · cases found
    · exact keyed key entry found
  | evictStaleForUri fileUri currentVersion =>
    simp only [step,evictStaleForUri,OrderedMap.get?_filterMap] at found
    obtain ⟨was,before,kept⟩ := Option.bind_eq_some_iff.mp found
    split at kept
    · cases kept
    · cases kept
      exact keyed key _ before

theorem step_satisfied {r : Registry} {e : Event} (covering : r.Covering e) {spec : PrerequisiteRequestSpec}
    (satisfied : r.isSatisfied spec = true) (stays : ¬ Evicts spec e) : (r.step e).isSatisfied spec = true := by
  cases e with
  | acquireOrJoin now other =>
    simp only [step,acquireOrJoin]
    split
    all_goals exact satisfied
  | complete key =>
    simp only [step,complete]
    split
    next => exact satisfied
    next entry there =>
      obtain ⟨recorded,found,enough⟩ := (Option.any_eq_true _ _).mp satisfied
      rw [isSatisfied,OrderedMap.get?_set]
      split
      next same =>
        have covered := covering entry recorded there (same ▸ found)
        exact covers_trans enough covered
      next => exact satisfied
  | fail key => exact satisfied
  | evictStaleForUri fileUri currentVersion =>
    obtain ⟨recorded,found,enough⟩ := (Option.any_eq_true _ _).mp satisfied
    have fresh : staleKey fileUri currentVersion (getKey spec.fileUri spec.documentVersion) = false := by
      rw [staleKey_getKey]
      by_contra old
      simp only [stale,Bool.not_eq_false,Bool.and_eq_true,decide_eq_true_eq] at old
      exact stays ⟨old.1.symm,fun same => old.2 same.symm⟩
    rw [isSatisfied]
    simp [step,evictStaleForUri,OrderedMap.get?_filterMap,found,fresh,enough]

theorem run_satisfied {spec : PrerequisiteRequestSpec} (events : List Event) : ∀ r : Registry,
    EveryStep step Covering r events → r.isSatisfied spec = true → (∀ e ∈ events, ¬ Evicts spec e) →
    (run step r events).isSatisfied spec = true := by
  induction events with
  | nil => exact fun r _ satisfied _ => satisfied
  | cons e events ih =>
    rintro r ⟨covering,later⟩ satisfied stays
    exact ih _ later (step_satisfied covering satisfied (stays e (.head _))) fun e member => stays e (.tail _ member)

theorem evict_others {r : Registry} (keyed : r.Keyed) {fileUri uri : String} (other : uri ≠ fileUri)
    (currentVersion version : Int) :
    (r.evictStaleForUri fileUri currentVersion).entries.get? (getKey uri version) = r.entries.get? (getKey uri version) ∧
    (r.evictStaleForUri fileUri currentVersion).completed.get? (getKey uri version) =
      r.completed.get? (getKey uri version) := by
  constructor
  · simp only [evictStaleForUri,OrderedMap.get?_filterMap]
    cases found : r.entries.get? (getKey uri version) with
    | none => rfl
    | some entry =>
      have named := (getKey_injective (keyed _ entry found)).1
      simp [stale,named,other]
  · simp only [evictStaleForUri,OrderedMap.get?_filterMap,staleKey_getKey]
    cases r.completed.get? (getKey uri version) with
    | none => rfl
    | some recorded => simp [stale,other]

/-- In a run that keeps satisfied requests so, a completing entry covers the record: otherwise the
request that asks for just what is on record is lost. -/
theorem covering_of_steadfast (events : List Event) : ∀ r : Registry, r.Keyed → Steadfast r events →
    EveryStep step Covering r events := by
  induction events with
  | nil => exact fun _ _ _ => trivial
  | cons e events ih =>
    intro r keyed steadfast
    refine ⟨?_,ih _ (step_keyed r e keyed) ⟨?_,?_⟩⟩
    · cases e with
      | complete key =>
        intro entry recorded there found
        let spec : PrerequisiteRequestSpec := ⟨entry.key.fileUri,entry.key.documentVersion,
          recorded.targetDetailLevel,recorded.needsCrossFileResolution⟩
        have named : getKey spec.fileUri spec.documentVersion = key := keyed key entry there
        have before : r.isSatisfied spec = true := by
          rw [isSatisfied,named,found]
          exact covers_refl _ _
        have after := steadfast.satisfied [] [.complete key] events rfl spec before (by simp [Evicts])
        change (r.complete key).isSatisfied spec = true at after
        rw [isSatisfied,named] at after
        simpa only [complete,there,OrderedMap.get?_set_self,Option.any_some] using after
      | acquireOrJoin now spec => trivial
      | fail key => trivial
      | evictStaleForUri fileUri currentVersion => trivial
    · intro front mid rest cut
      exact steadfast.satisfied (e :: front) mid rest (by simp [cut])
    · intro front rest fileUri currentVersion cut
      exact steadfast.others (e :: front) rest fileUri currentVersion (by simp [cut])

/-- Requests stay satisfied along a run exactly where every entry that completes covers what is on
record for its document and version. -/
theorem steadfast_iff (events : List Event) : Steadfast {} events ↔ EveryStep step Covering {} events := by
  have keyed : Keyed {} := fun key entry found => by cases found
  constructor
  · exact covering_of_steadfast events {} keyed
  · intro covering
    constructor
    · rintro front mid rest rfl spec satisfied stays
      rw [run_append]
      have inner := (everyStep_append.mp (everyStep_append.mp covering).1).2
      exact run_satisfied mid _ inner satisfied stays
    · rintro front rest fileUri currentVersion rfl uri other version
      exact evict_others (run_invariant step_keyed keyed front) other currentVersion version

/-- A complete enrichment, then the cross-file resolution alone, of one version of a document. -/
def incomparable : List Event :=
  [.acquireOrJoin 0 ⟨"file:///Foo.cls",1,some .full,false⟩,.complete "file:///Foo.cls::1",
    .acquireOrJoin 1 ⟨"file:///Foo.cls",1,none,true⟩,.complete "file:///Foo.cls::1"]

/-- The second completion overwrites the first, and the enrichment counts as not done. -/
theorem incomparable_forgets :
    (run step {} (incomparable.take 3)).isSatisfied ⟨"file:///Foo.cls",1,some .full,false⟩ = true ∧
      (run step {} incomparable).isSatisfied ⟨"file:///Foo.cls",1,some .full,false⟩ = false ∧
      ¬ Steadfast {} incomparable := by
  have before : (run step {} (incomparable.take 3)).isSatisfied ⟨"file:///Foo.cls",1,some .full,false⟩ = true := by
    decide +kernel
  have after : (run step {} incomparable).isSatisfied ⟨"file:///Foo.cls",1,some .full,false⟩ = false := by
    decide +kernel
  refine ⟨before,after,fun steadfast => ?_⟩
  have kept := steadfast.satisfied (incomparable.take 3) (incomparable.drop 3) [] rfl _ before (by simp [incomparable,Evicts])
  exact absurd (after.symm.trans kept) (by decide)

end Registry
end ApexLs.Services.PrerequisiteKeys
