import ApexLs.Collections.OrderedMap
import ApexLs.Types.Symbol

/-! The registry of prerequisite chains in flight. Requests for one version of a document share
an entry, which a later request may raise; an entry leaves the registry once and for all. -/
namespace ApexLs.Services

open ApexLs.Collections ApexLs.Types

structure PrerequisiteRequestSpec where
  fileUri : String
  documentVersion : Int
  targetDetailLevel : Option DetailLevel
  needsCrossFileResolution : Bool
  deriving DecidableEq, Repr

/-- `getKey`: a numeral has no colon, so the text determines both parts. -/
structure PrerequisiteKey where
  fileUri : String
  documentVersion : Int
  deriving DecidableEq, Repr, Inhabited

def PrerequisiteRequestSpec.key (spec : PrerequisiteRequestSpec) : PrerequisiteKey :=
  ⟨spec.fileUri,spec.documentVersion⟩

inductive Settlement where
  | completed
  | evicted
  | rejected
  deriving DecidableEq, Repr

structure InFlightPrerequisiteEntry where
  key : PrerequisiteKey
  targetDetailLevel : Option DetailLevel
  needsCrossFileResolution : Bool
  createdAt : Nat
  revision : Nat := 0
  promise : Option Settlement := none
  deriving DecidableEq, Repr, Inhabited

structure CompletedPrerequisites where
  targetDetailLevel : Option DetailLevel
  needsCrossFileResolution : Bool
  entry : Nat
  deriving DecidableEq, Repr

/-- The registry. Entries are objects that requests hold on to: `object` gives the object of a
reference, of which `made` have been handed out. -/
structure InFlightPrerequisiteRegistry where
  object : Nat → InFlightPrerequisiteEntry
  made : Nat
  entries : OrderedMap PrerequisiteKey Nat := .empty
  completed : OrderedMap PrerequisiteKey CompletedPrerequisites := .empty

/-- `!target || (!!level && order(level) >= order(target))`. -/
def reaches (level target : Option DetailLevel) : Bool :=
  target.all (fun t => level.any (fun l => t.order ≤ l.order))

namespace InFlightPrerequisiteEntry

/-- `resolve` or `reject`: a promise settles once. -/
def settle (e : InFlightPrerequisiteEntry) (how : Settlement) : InFlightPrerequisiteEntry :=
  { e with promise := e.promise.or (some how) }

/-- What a joining request makes of an entry, and whether that raised it. -/
def upgrade (e : InFlightPrerequisiteEntry) (spec : PrerequisiteRequestSpec) : InFlightPrerequisiteEntry × Bool :=
  let deeper := !reaches e.targetDetailLevel spec.targetDetailLevel
  let wider := spec.needsCrossFileResolution && !e.needsCrossFileResolution
  let e := if deeper then { e with targetDetailLevel := spec.targetDetailLevel } else e
  let e := if wider then { e with needsCrossFileResolution := true } else e
  let upgraded := deeper || wider
  (if upgraded then { e with revision := e.revision + 1 } else e,upgraded)

end InFlightPrerequisiteEntry

namespace InFlightPrerequisiteRegistry

def empty : InFlightPrerequisiteRegistry where
  object _ := default
  made := 0

def isSatisfied (r : InFlightPrerequisiteRegistry) (spec : PrerequisiteRequestSpec) : Bool :=
  (r.completed.get? spec.key).any fun completed =>
    reaches completed.targetDetailLevel spec.targetDetailLevel &&
      (!spec.needsCrossFileResolution || completed.needsCrossFileResolution)

def put (r : InFlightPrerequisiteRegistry) (id : Nat) (e : InFlightPrerequisiteEntry) : InFlightPrerequisiteRegistry :=
  { r with object := Function.update r.object id e }

structure AcquireOrJoinResult where
  joined : Bool
  entry : Nat
  deriving DecidableEq, Repr

def acquireOrJoin (r : InFlightPrerequisiteRegistry) (now : Nat) (spec : PrerequisiteRequestSpec) :
    InFlightPrerequisiteRegistry × AcquireOrJoinResult :=
  match r.entries.get? spec.key with
  | some existing => (r.put existing ((r.object existing).upgrade spec).1,⟨true,existing⟩)
  | none =>
    let entry : InFlightPrerequisiteEntry :=
      { key := spec.key,targetDetailLevel := spec.targetDetailLevel
        needsCrossFileResolution := spec.needsCrossFileResolution,createdAt := now }
    ({ r.put r.made entry with made := r.made + 1,entries := r.entries.set spec.key r.made },⟨false,r.made⟩)

/-- `entries.delete(key)` and the settling of the entry that stood there. -/
def remove (r : InFlightPrerequisiteRegistry) (key : PrerequisiteKey) (how : Settlement) : InFlightPrerequisiteRegistry :=
  match r.entries.get? key with
  | none => r
  | some id => { r.put id ((r.object id).settle how) with entries := r.entries.erase key }

def complete (r : InFlightPrerequisiteRegistry) (key : PrerequisiteKey) : InFlightPrerequisiteRegistry :=
  match r.entries.get? key with
  | none => r
  | some id =>
    let entry := r.object id
    let kept : CompletedPrerequisites := ⟨entry.targetDetailLevel,entry.needsCrossFileResolution,id⟩
    { r with completed := r.completed.set key kept : InFlightPrerequisiteRegistry }.remove key .completed

def fail (r : InFlightPrerequisiteRegistry) (key : PrerequisiteKey) : InFlightPrerequisiteRegistry :=
  r.remove key .rejected

def stale (fileUri : String) (currentVersion : Int) (key : PrerequisiteKey) : Bool :=
  key.fileUri = fileUri && key.documentVersion ≠ currentVersion

def evictStaleForUri (r : InFlightPrerequisiteRegistry) (fileUri : String) (currentVersion : Int) :
    InFlightPrerequisiteRegistry :=
  let r := (r.entries.keys.filter (stale fileUri currentVersion)).foldl (fun r key => r.remove key .evicted) r
  { r with completed := r.completed.filterMap fun key c => if stale fileUri currentVersion key then none else some c }

/-- The entries of the registry are its pending ones, each under its own key. -/
structure Filed (r : InFlightPrerequisiteRegistry) : Prop where
  filed : ∀ key id, r.entries.get? key = some id → id < r.made ∧ (r.object id).key = key ∧ (r.object id).promise = none
  pending : ∀ id, id < r.made → (r.object id).promise = none → r.entries.get? (r.object id).key = some id

/-- An object later on: it is the same one, nothing happens to it once it is settled, and its
revision tells whether it was raised. -/
structure Grown (e after : InFlightPrerequisiteEntry) : Prop where
  key : after.key = e.key
  createdAt : after.createdAt = e.createdAt
  settled : e.promise ≠ none → after = e
  detail : reaches after.targetDetailLevel e.targetDetailLevel = true
  cross : e.needsCrossFileResolution = true → after.needsCrossFileResolution = true
  revision : e.revision ≤ after.revision
  same : after.revision = e.revision →
    after.targetDetailLevel = e.targetDetailLevel ∧ after.needsCrossFileResolution = e.needsCrossFileResolution

theorem reaches_refl (level : Option DetailLevel) : reaches level level = true := by
  cases level <;> simp [reaches]

theorem reaches_trans (first : reaches b a = true) (second : reaches c b = true) : reaches c a = true := by
  cases a with
  | none => rfl
  | some a =>
    cases b with
    | none => simp [reaches] at first
    | some b =>
      cases c with
      | none => simp [reaches] at second
      | some c =>
        simp only [reaches,Option.all_some,Option.any_some,decide_eq_true_eq] at first second ⊢
        omega

theorem Grown.refl (e : InFlightPrerequisiteEntry) : Grown e e :=
  ⟨rfl,rfl,fun _ => rfl,reaches_refl _,id,Nat.le_refl _,fun _ => ⟨rfl,rfl⟩⟩

theorem Grown.trans (first : Grown a b) (second : Grown b c) : Grown a c where
  key := second.key.trans first.key
  createdAt := second.createdAt.trans first.createdAt
  settled settled := by
    have same := first.settled settled
    subst same
    exact second.settled settled
  detail := reaches_trans first.detail second.detail
  cross needed := second.cross (first.cross needed)
  revision := Nat.le_trans first.revision second.revision
  same equal := by
    have up := first.revision
    have more := second.revision
    have left := first.same (by omega)
    have right := second.same (by omega)
    exact ⟨right.1.trans left.1,right.2.trans left.2⟩

structure Later (r after : InFlightPrerequisiteRegistry) : Prop where
  made : r.made ≤ after.made
  grown : ∀ id, id < r.made → Grown (r.object id) (after.object id)

theorem Later.refl (r : InFlightPrerequisiteRegistry) : r.Later r := ⟨Nat.le_refl _,fun _ _ => .refl _⟩

theorem Later.trans {a b c : InFlightPrerequisiteRegistry} (first : a.Later b) (second : b.Later c) : a.Later c where
  made := Nat.le_trans first.made second.made
  grown id bound := (first.grown id bound).trans (second.grown id (Nat.lt_of_lt_of_le bound first.made))

theorem upgrade_eq (e : InFlightPrerequisiteEntry) (spec : PrerequisiteRequestSpec) :
    (e.upgrade spec).1 = { e with
      targetDetailLevel := if reaches e.targetDetailLevel spec.targetDetailLevel then e.targetDetailLevel
        else spec.targetDetailLevel
      needsCrossFileResolution := e.needsCrossFileResolution || spec.needsCrossFileResolution
      revision := e.revision +
        if reaches e.targetDetailLevel spec.targetDetailLevel ∧
          (spec.needsCrossFileResolution → e.needsCrossFileResolution) then 0 else 1 } := by
  obtain ⟨key,target,cross,createdAt,revision,promise⟩ := e
  obtain ⟨uri,version,level,needs⟩ := spec
  cases high : reaches target level <;> cases cross <;> cases needs <;>
    simp [InFlightPrerequisiteEntry.upgrade,high]

theorem upgrade_grown {e : InFlightPrerequisiteEntry} (spec : PrerequisiteRequestSpec) (pending : e.promise = none) :
    Grown e (e.upgrade spec).1 := by
  rw [upgrade_eq]
  constructor
  · rfl
  · rfl
  · exact fun settled => absurd pending settled
  · change reaches (if _ then _ else _) e.targetDetailLevel = true
    split
    · exact reaches_refl _
    · next low =>
      revert low
      cases spec.targetDetailLevel <;> cases e.targetDetailLevel <;> simp [reaches]
      omega
  · intro needed
    simp [needed]
  · exact Nat.le_add_right _ _
  · intro same
    dsimp only at same ⊢
    split at same
    · next both =>
      refine ⟨if_pos both.1,?_⟩
      cases needs : spec.needsCrossFileResolution
      · exact Bool.or_false _
      · simp [both.2 needs]
    · omega

theorem upgrade_reaches (e : InFlightPrerequisiteEntry) (spec : PrerequisiteRequestSpec) :
    reaches (e.upgrade spec).1.targetDetailLevel spec.targetDetailLevel = true ∧
      (spec.needsCrossFileResolution = true → (e.upgrade spec).1.needsCrossFileResolution = true) := by
  rw [upgrade_eq]
  constructor
  · change reaches (if _ then _ else _) spec.targetDetailLevel = true
    split
    · assumption
    · exact reaches_refl _
  · intro needed
    simp [needed]

theorem settle_grown {e : InFlightPrerequisiteEntry} (how : Settlement) : Grown e (e.settle how) := by
  refine ⟨rfl,rfl,?_,reaches_refl _,id,Nat.le_refl _,fun _ => ⟨rfl,rfl⟩⟩
  intro settled
  obtain ⟨key,target,cross,createdAt,revision,promise⟩ := e
  cases promise with
  | none => exact absurd rfl settled
  | some was => rfl

theorem put_later {r : InFlightPrerequisiteRegistry} {id : Nat} (grown : Grown (r.object id) e) : r.Later (r.put id e) where
  made := Nat.le_refl _
  grown other _ := by
    by_cases same : other = id
    · subst same
      simpa [put] using grown
    · simpa [put,same] using Grown.refl _

theorem remove_later (r : InFlightPrerequisiteRegistry) (key : PrerequisiteKey) (how : Settlement) :
    r.Later (r.remove key how) := by
  rw [remove]
  split
  · exact .refl r
  · next id _ =>
    have put_ : r.Later (r.put id ((r.object id).settle how)) := put_later (settle_grown how)
    exact ⟨put_.made,put_.grown⟩

theorem Filed.remove {r : InFlightPrerequisiteRegistry} (filed : r.Filed) (key : PrerequisiteKey) (how : Settlement) :
    (r.remove key how).Filed := by
  rw [InFlightPrerequisiteRegistry.remove]
  split
  · exact filed
  · next id there =>
    have at_ := filed.filed key id there
    constructor
    · intro key' id' found
      change (r.entries.erase key).get? key' = some id' at found
      rw [OrderedMap.get?_erase] at found
      split at found
      · cases found
      · next apart =>
        have inside := filed.filed key' id' found
        have other : id' ≠ id := by
          rintro rfl
          exact apart (inside.2.1.symm.trans at_.2.1)
        simpa [put,other] using inside
    · intro id' bound pending
      change (r.entries.erase key).get? _ = some id'
      by_cases same : id' = id
      · subst same
        simp [put,InFlightPrerequisiteEntry.settle,at_.2.2] at pending
      · simp only [put,Function.update_of_ne same] at pending ⊢
        have found := filed.pending id' bound pending
        rw [OrderedMap.get?_erase]
        split
        · next taken =>
          rw [taken,there] at found
          exact absurd (Option.some.inj found).symm same
        · exact found

theorem remove_object {r : InFlightPrerequisiteRegistry} (filed : r.Filed) (key : PrerequisiteKey) (how : Settlement)
    (id : Nat) : (r.remove key how).object id = r.object id ∨
      r.entries.get? key = some id ∧ (r.remove key how).object id = { r.object id with promise := some how } := by
  rw [remove]
  split
  · exact .inl rfl
  · next there found =>
    by_cases same : id = there
    · subst same
      have pending := (filed.filed key id found).2.2
      refine .inr ⟨found,?_⟩
      simp [put,InFlightPrerequisiteEntry.settle,pending]
    · exact .inl (by simp [put,same])

theorem remove_made (r : InFlightPrerequisiteRegistry) (key : PrerequisiteKey) (how : Settlement) :
    (r.remove key how).made = r.made := by
  rw [remove]
  split <;> rfl

theorem remove_completed (r : InFlightPrerequisiteRegistry) (key : PrerequisiteKey) (how : Settlement) :
    (r.remove key how).completed = r.completed := by
  rw [remove]
  split <;> rfl

structure Quiet (r after : InFlightPrerequisiteRegistry) : Prop where
  later : r.Later after
  completed : ∀ key c, after.completed.get? key = some c → r.completed.get? key = some c
  settled : ∀ id, id < after.made → (after.object id).promise = some .completed →
    id < r.made ∧ (r.object id).promise = some .completed

theorem Quiet.refl (r : InFlightPrerequisiteRegistry) : r.Quiet r :=
  ⟨.refl r,fun _ _ found => found,fun _ bound settled => ⟨bound,settled⟩⟩

theorem Quiet.trans {a b c : InFlightPrerequisiteRegistry} (first : a.Quiet b) (second : b.Quiet c) : a.Quiet c where
  later := first.later.trans second.later
  completed key done found := first.completed key done (second.completed key done found)
  settled id bound settled :=
    have between := second.settled id bound settled
    first.settled id between.1 between.2

theorem remove_quiet {r : InFlightPrerequisiteRegistry} (filed : r.Filed) (key : PrerequisiteKey)
    (open_ : how ≠ Settlement.completed) : r.Quiet (r.remove key how) where
  later := remove_later r key how
  completed key' c found := by
    rwa [remove_completed] at found
  settled id bound settled := by
    rw [remove_made] at bound
    rcases remove_object filed key how id with same | ⟨_,now⟩
    · rw [same] at settled
      exact ⟨bound,settled⟩
    · rw [now] at settled
      exact absurd (Option.some.inj settled) open_

theorem evictStaleForUri_spec {r : InFlightPrerequisiteRegistry} (filed : r.Filed) (fileUri : String)
    (currentVersion : Int) :
    (r.evictStaleForUri fileUri currentVersion).Filed ∧ r.Quiet (r.evictStaleForUri fileUri currentVersion) ∧
      (r.evictStaleForUri fileUri currentVersion).made = r.made := by
  have swept : ∀ (keys : List PrerequisiteKey) (r : InFlightPrerequisiteRegistry), r.Filed →
      (keys.foldl (fun r key => r.remove key .evicted) r).Filed ∧
        r.Quiet (keys.foldl (fun r key => r.remove key .evicted) r) ∧
        (keys.foldl (fun r key => r.remove key .evicted) r).made = r.made := by
    intro keys
    induction keys with
    | nil => exact fun r filed => ⟨filed,.refl r,rfl⟩
    | cons key keys ih =>
      intro r filed
      obtain ⟨restFiled,quiet,made⟩ := ih _ (filed.remove key .evicted)
      exact ⟨restFiled,(remove_quiet filed key (by decide)).trans quiet,made.trans (remove_made r key .evicted)⟩
  obtain ⟨after,quiet,made⟩ := swept (r.entries.keys.filter (stale fileUri currentVersion)) r filed
  rw [evictStaleForUri]
  refine ⟨⟨after.filed,after.pending⟩,⟨⟨quiet.later.made,quiet.later.grown⟩,?_,quiet.settled⟩,made⟩
  intro key c found
  rw [OrderedMap.get?_filterMap] at found
  obtain ⟨was,before,kept⟩ := Option.bind_eq_some_iff.mp found
  split at kept
  · cases kept
  · cases kept
    exact quiet.completed key c before

/-- The entry a request gets: pending, under the key of the request, and asking for what the
request asks for. A new one is made when there was none. -/
structure Acquired (r : InFlightPrerequisiteRegistry) (now : Nat) (spec : PrerequisiteRequestSpec)
    (got : InFlightPrerequisiteRegistry × AcquireOrJoinResult) : Prop where
  filed : got.1.Filed
  quiet : r.Quiet got.1
  found : got.1.entries.get? spec.key = some got.2.entry
  detail : reaches (got.1.object got.2.entry).targetDetailLevel spec.targetDetailLevel = true
  cross : spec.needsCrossFileResolution = true → (got.1.object got.2.entry).needsCrossFileResolution = true
  created : ∀ id, id < got.1.made → id < r.made ∨ (got.1.object id).createdAt = now

theorem acquireOrJoin_spec {r : InFlightPrerequisiteRegistry} (filed : r.Filed) (now : Nat)
    (spec : PrerequisiteRequestSpec) : r.Acquired now spec (r.acquireOrJoin now spec) := by
  rw [acquireOrJoin]
  split
  · next id there =>
    have at_ := filed.filed _ _ there
    have grown := upgrade_grown spec at_.2.2
    have pending : ((r.object id).upgrade spec).1.promise = none := by
      rw [upgrade_eq]
      exact at_.2.2
    have object : ∀ other, (r.put id ((r.object id).upgrade spec).1).object other =
        if other = id then ((r.object id).upgrade spec).1 else r.object other :=
      fun other => by by_cases same : other = id <;> simp [put,same]
    have asked := upgrade_reaches (r.object id) spec
    refine ⟨⟨?_,?_⟩,⟨put_later grown,fun _ _ found => found,?_⟩,there,?_,?_,fun _ bound => .inl bound⟩
    · intro key other found
      have inside := filed.filed key other found
      rw [object]
      by_cases same : other = id
      · subst same
        simpa [pending,grown.key] using ⟨inside.1,inside.2.1⟩
      · rw [if_neg same]
        exact inside
    · intro other bound open_
      rw [object] at open_ ⊢
      by_cases same : other = id
      · subst same
        rw [if_pos rfl,grown.key,at_.2.1]
        exact there
      · simp only [same,if_false] at open_ ⊢
        exact filed.pending other bound open_
    · intro other bound settled
      rw [object] at settled
      by_cases same : other = id
      · simp [same,pending] at settled
      · simp only [same,if_false] at settled
        exact ⟨bound,settled⟩
    · simpa [put] using asked.1
    · simpa [put] using asked.2
  · next absent =>
    have object : ∀ (e : InFlightPrerequisiteEntry) other, other < r.made → (r.put r.made e).object other = r.object other :=
      fun e other bound => by simp [put,Nat.ne_of_lt bound]
    refine ⟨⟨?_,?_⟩,⟨⟨Nat.le_succ _,?_⟩,fun _ _ found => found,?_⟩,?_,?_,?_,?_⟩
    · intro key other found
      change (r.entries.set spec.key r.made).get? key = some other at found
      rw [OrderedMap.get?_set] at found
      split at found
      · next same =>
        cases found
        exact ⟨Nat.lt_succ_self _,by simp [put,same],by simp [put]⟩
      · have inside := filed.filed key other found
        rw [object _ other inside.1]
        exact ⟨Nat.lt_succ_of_lt inside.1,inside.2⟩
    · intro other bound open_
      rcases Nat.lt_succ_iff_lt_or_eq.mp bound with old | rfl
      · rw [object _ other old] at open_ ⊢
        have found := filed.pending other old open_
        change (r.entries.set spec.key r.made).get? _ = some other
        rw [OrderedMap.get?_set_of_ne]
        · exact found
        · intro same
          rw [same,absent] at found
          cases found
      · simp [put]
    · intro other bound
      rw [object _ other bound]
      exact .refl _
    · intro other bound settled
      rcases Nat.lt_succ_iff_lt_or_eq.mp bound with old | rfl
      · rw [object _ other old] at settled
        exact ⟨old,settled⟩
      · simp [put] at settled
    · simp
    · simpa [put] using reaches_refl _
    · simp [put]
    · intro other bound
      rcases Nat.lt_succ_iff_lt_or_eq.mp bound with old | rfl
      · exact .inl old
      · exact .inr (by simp [put])

/-- The entry under the key is completed and kept as such. Nothing else happens. -/
structure Completes (r after : InFlightPrerequisiteRegistry) (key : PrerequisiteKey) (id : Nat) : Prop where
  filed : after.Filed
  later : r.Later after
  made : after.made = r.made
  object : after.object id = { r.object id with promise := some .completed }
  others : ∀ other, other ≠ id → after.object other = r.object other
  completed : after.completed = r.completed.set key
    ⟨(r.object id).targetDetailLevel,(r.object id).needsCrossFileResolution,id⟩

theorem complete_spec {r : InFlightPrerequisiteRegistry} {id : Nat} (filed : r.Filed) (there : r.entries.get? key = some id) :
    r.Completes (r.complete key) key id := by
  let kept : CompletedPrerequisites := ⟨(r.object id).targetDetailLevel,(r.object id).needsCrossFileResolution,id⟩
  let r' : InFlightPrerequisiteRegistry := { r with completed := r.completed.set key kept }
  have filed' : r'.Filed := ⟨filed.filed,filed.pending⟩
  have same : r.complete key = r'.remove key .completed := by
    simp only [complete,there]
    rfl
  have pending := (filed.filed key id there).2.2
  have removed : r'.remove key .completed =
      { r'.put id ((r'.object id).settle .completed) with entries := r'.entries.erase key } := by
    have found : r'.entries.get? key = some id := there
    simp only [remove,found]
  rw [same]
  refine ⟨filed'.remove key _,?_,remove_made r' key _,?_,?_,remove_completed r' key _⟩
  · have later := remove_later r' key .completed
    exact ⟨later.made,later.grown⟩
  · rw [removed]
    simp [put,InFlightPrerequisiteEntry.settle,r',pending]
  · intro other apart
    rw [removed]
    simp [put,r',apart]

theorem complete_absent {r : InFlightPrerequisiteRegistry} (absent : r.entries.get? key = none) :
    r.complete key = r := by
  simp only [complete,absent]

end InFlightPrerequisiteRegistry

end ApexLs.Services
