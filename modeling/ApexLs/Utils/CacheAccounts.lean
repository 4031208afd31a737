import Mathlib.Data.List.TakeWhile
import ApexLs.Utils.CacheSessions

/-! The accounts of the unified cache over whole runs: when its counter and its list of use are exact in every state, and
when every call returns. -/
namespace ApexLs.Utils.WeakCache

open ApexLs.Collections

variable {α : Type u}

/-- The counter is the number of keys and within the size, and the list of use holds the keys in the order of their last
access. -/
structure Exact (s : Session α) : Prop where
  counted : s.cache.totalEntries = s.cache.cache.size
  within : s.cache.totalEntries ≤ s.cache.maxSize
  listed : ∃ order, s.cache.lru.Lists order ∧ (∀ k, k ∈ order ↔ k ∈ s.cache.cache.keys) ∧
    order.Pairwise fun a b => s.lastAccess a < s.lastAccess b

def LeastRecent (s : Session α) (key : String) : Prop :=
  key ∈ s.cache.cache.keys ∧ ∀ k ∈ s.cache.cache.keys, s.lastAccess key ≤ s.lastAccess k

/-- No lookup meets a collected entry, and no new key a full cache whose next to go is the empty key. -/
def Careful (s : Session α) : Event α → Prop
  | .get key _ | .has key _ => ¬ s.cache.holdsCollected key
  | .set key .. => key ∉ s.cache.cache.keys → s.cache.maxSize ≤ s.cache.cache.size → ¬ LeastRecent s ""
  | _ => True

def Ongoing (P : Session α → Prop) (s : Option (Session α)) : Prop := ∀ t, s = some t → P t

theorem ongoing_none (P : Session α → Prop) : Ongoing P none := fun _ is => nomatch is

theorem ongoing_some {P : Session α → Prop} : Ongoing P (some s) ↔ P s :=
  ⟨fun holds => holds s rfl,fun holds _ is => Option.some.inj is ▸ holds⟩

variable {s : Session α} {order : List String} {surplus : Nat}

theorem exact_iff (tracked : Tracked s.cache order surplus)
    (sorted : order.Pairwise fun a b => s.lastAccess a < s.lastAccess b) :
    Exact s ↔ surplus = 0 ∧ s.cache.totalEntries ≤ s.cache.maxSize := by
  have length := tracked.length_eq
  have counted := tracked.counted
  constructor
  · rintro ⟨exact_,within,_⟩
    exact ⟨by omega,within⟩
  · rintro ⟨rfl,within⟩
    exact ⟨by omega,within,order,tracked.lists,tracked.keys,sorted⟩

theorem leastRecent_iff (tracked : Tracked s.cache (key :: rest) surplus)
    (sorted : (key :: rest).Pairwise fun a b => s.lastAccess a < s.lastAccess b) (x : String) :
    LeastRecent s x ↔ key = x := by
  have later {k : String} (behind : k ∈ rest) : s.lastAccess key < s.lastAccess k := List.rel_of_pairwise_cons sorted behind
  constructor
  · rintro ⟨held,first⟩
    rcases List.mem_cons.mp ((tracked.keys x).mpr held) with same | behind
    · exact same.symm
    · have below := later behind
      have above := first key ((tracked.keys key).mp (.head rest))
      omega
  · rintro rfl
    refine ⟨(tracked.keys key).mp (.head rest),fun k held => ?_⟩
    rcases List.mem_cons.mp ((tracked.keys k).mpr held) with rfl | behind
    · exact le_rfl
    · exact (later behind).le

theorem mem_of_accessed_get {c : WeakCache α} (tracked : Tracked c order surplus)
    (hit : c.accessed (.get key now) = some k) : k ∈ order := by
  rw [WeakCache.accessed] at hit
  split at hit
  next answered =>
    obtain rfl := Option.some.inj hit
    cases found : c.cache.get? key with
    | none =>
      rw [get_absent found] at answered
      cases answered
    | some ref => exact tracked.mem_of_get? found
  next => cases hit

theorem length_le_of_moved {c : WeakCache α} {e : Event α} (tracked : Tracked c order surplus)
    (moved : Moved order order' (c.accessed e)) (other : ∀ key value type now, e ≠ .set key value type now) :
    order'.length ≤ order.length := by
  cases hit : c.accessed e with
  | none =>
    rw [hit] at moved
    exact moved.length_le
  | some key =>
    rw [hit] at moved
    obtain ⟨kept,part,absent,rfl⟩ := moved
    have member : key ∈ order := by
      cases e with
      | get k now => exact mem_of_accessed_get tracked hit
      | set k value type now => exact absurd rfl (other k value type now)
      | delete | has | optimize | invalidatePattern | clear | collect | callback => cases hit
    have shorter : kept.length ≠ order.length := fun same => absent (part.eq_of_length same ▸ member)
    have short := part.length_le
    rw [List.length_append,List.length_singleton]
    omega

theorem set_within (tracked : Tracked s.cache order 0)
    (sorted : order.Pairwise fun a b => s.lastAccess a < s.lastAccess b) (within : s.cache.totalEntries ≤ s.cache.maxSize)
    (positive : 1 ≤ s.cache.maxSize)
    (result : s.cache.perform test (.set key value type now) = some c') :
    c'.totalEntries ≤ s.cache.maxSize ↔ Careful s (.set key value type now) := by
  rw [perform_set] at result
  obtain ⟨d,made,rfl⟩ := Option.map_eq_some_iff.mp result
  rw [show (d.add key value type now).totalEntries = d.totalEntries + 1 from rfl,Int.add_one_le_iff]
  have counted := tracked.counted
  have length := tracked.length_eq
  have ready := tracked.replaced key
  have aside : (s.cache.replaced key).maxSize = s.cache.maxSize := (shrunk_replaced s.cache key).maxSize
  have room (small : (s.cache.replaced key).totalEntries < s.cache.maxSize) : d.totalEntries < s.cache.maxSize := by
    rw [ensureCapacity_room (by rw [aside]; exact small)] at made
    exact Option.some.inj made ▸ small
  rw [Careful,← tracked.keys]
  by_cases member : key ∈ order
  · have shorter := tracked.length_filter member
    have counted' := ready.counted
    exact ⟨fun _ absent => absurd member absent,fun _ => room (by omega)⟩
  · have same : s.cache.replaced key = s.cache := if_neg fun held =>
      member ((tracked.keys key).mpr (OrderedMap.mem_keys_iff.mpr (OrderedMap.has_iff.mp held)))
    rw [same] at made room
    by_cases small : s.cache.totalEntries < s.cache.maxSize
    · exact ⟨fun _ _ full => absurd full (by omega),fun _ => room small⟩
    · cases order with
      | nil =>
        rw [List.length_nil] at counted
        omega
      | cons first rest =>
        rw [tracked.ensureCapacity_full (by omega) le_rfl made,leastRecent_iff tracked sorted]
        exact ⟨fun named _ _ => named,fun named => named member (by omega)⟩

theorem perform_maxSize {c : WeakCache α} (tracked : Tracked c order surplus) {e : Event α}
    (result : c.perform test e = some c') : c'.maxSize = c.maxSize := by
  cases e with
  | get key now =>
    obtain rfl := Option.some.inj result
    exact (get_aside c key now).maxSize
  | set key value type now =>
    rw [perform_set] at result
    obtain ⟨d,made,rfl⟩ := Option.map_eq_some_iff.mp result
    obtain ⟨d',_,again,_,_,shrunk⟩ := tracked.makeRoom key
    obtain rfl := Option.some.inj (made.symm.trans again)
    exact shrunk.maxSize.trans (shrunk_replaced c key).maxSize
  | delete key =>
    obtain rfl := Option.some.inj result
    exact (delete_aside c key).maxSize
  | has key now =>
    obtain rfl := Option.some.inj result
    exact (has_aside c key now).maxSize
  | optimize now =>
    rw [perform_optimize,removeExpired_eq] at result
    obtain ⟨d,made,rfl⟩ := Option.map_eq_some_iff.mp result
    obtain ⟨_,shrunk,_⟩ := (tracked.deleteAll _).enforceSizeLimits_spec made
    exact shrunk.maxSize.trans (shrunk_deleteAll c _).maxSize
  | invalidatePattern pattern =>
    obtain rfl := Option.some.inj result
    rw [invalidatePattern_eq]
    exact (shrunk_deleteAll c _).maxSize
  | clear now =>
    obtain rfl := Option.some.inj result
    rfl
  | collect object =>
    obtain rfl := Option.some.inj result
    unfold collect
    split <;> rfl
  | callback i =>
    obtain rfl := Option.some.inj result
    unfold callback handleGarbageCollected
    split
    · split
      · split <;> rfl
      · rfl
    · rfl

def Returns (c : WeakCache α) : Event α → Prop
  | .set key value type now => ∃ rounds c', c.set rounds key value type now = some c'
  | .optimize now => ∃ rounds c', c.optimize rounds now = some c'
  | _ => True

def stays (c : WeakCache α) (now : Int) (key : String) : Bool := (c.cache.get? key).any fun ref => !c.outdated now ref

/-- The keys that stay and that `optimize` cannot evict: the empty key and those accessed after it. -/
def Session.heldBack (s : Session α) (now : Int) : List String :=
  if s.cache.stays now "" then
    s.cache.cache.keys.filter fun k => s.cache.stays now k && s.lastAccess "" ≤ s.lastAccess k
  else []

/-- What `optimize` can neither evict nor count out is within the size. -/
def Settles (s : Session α) : Event α → Prop
  | .optimize now => s.cache.totalEntries - s.cache.cache.size + (s.heldBack now).length ≤ s.cache.maxSize
  | _ => True

theorem dropWhile_eq_filter {at_ : String → Nat} {l : List String} (sorted : l.Pairwise fun a b => at_ a < at_ b)
    (member : x ∈ l) : l.dropWhile (· ≠ x) = l.filter fun k => at_ x ≤ at_ k := by
  induction l with
  | nil => cases member
  | cons k l ih =>
    obtain ⟨first,rest⟩ := List.pairwise_cons.mp sorted
    by_cases same : k = x
    · subst same
      have all : ∀ a ∈ k :: l, decide (at_ k ≤ at_ a) = true := by
        intro a there
        rcases List.mem_cons.mp there with rfl | behind
        · exact decide_eq_true le_rfl
        · exact decide_eq_true (first a behind).le
      rw [List.filter_eq_self.mpr all]
      simp
    · have behind : x ∈ l := (List.mem_cons.mp member).resolve_left (Ne.symm same)
      have below : ¬ at_ x ≤ at_ k := not_le.mpr (first x behind)
      rw [List.dropWhile_cons_of_pos (by simpa using same),List.filter_cons_of_neg (by simpa using below),ih rest behind]

theorem mem_lateKeys_iff (c : WeakCache α) (now : Int) (key : String) (held : key ∈ c.cache.keys) :
    key ∈ c.lateKeys now ↔ ¬ c.stays now key = true := by
  obtain ⟨ref,found⟩ := OrderedMap.mem_keys_iff.mp held
  rw [lateKeys,stays,found,Option.any_some,List.mem_map]
  constructor
  · rintro ⟨⟨k,other⟩,member,rfl⟩
    obtain ⟨there,late⟩ := List.mem_filter.mp member
    obtain rfl := Option.some.inj (found.symm.trans (OrderedMap.get?_eq_some_iff.mpr there))
    simpa using late
  · intro late
    exact ⟨(key,ref),List.mem_filter.mpr ⟨OrderedMap.get?_eq_some_iff.mp found,by simpa using late⟩,rfl⟩

theorem length_heldBack (tracked : Tracked s.cache order surplus)
    (sorted : order.Pairwise fun a b => s.lastAccess a < s.lastAccess b) (now : Int) :
    (s.heldBack now).length = (blocked (order.filter (· ∉ s.cache.lateKeys now))).length := by
  have left : order.filter (· ∉ s.cache.lateKeys now) = order.filter (s.cache.stays now) := by
    refine List.filter_congr fun k member => ?_
    have agree := mem_lateKeys_iff s.cache now k ((tracked.keys k).mp member)
    by_cases late : k ∈ s.cache.lateKeys now
    · rw [decide_eq_false (not_not.mpr late),Bool.eq_false_iff.mpr (agree.mp late)]
    · rw [decide_eq_true late,not_not.mp (mt agree.mpr late)]
  have perm : s.cache.cache.keys.Perm order :=
    ((List.perm_ext_iff_of_nodup tracked.lists.nodup s.cache.cache.keys_nodup).mpr tracked.keys).symm
  rw [left,blocked,Session.heldBack]
  by_cases empty : s.cache.stays now "" = true
  · have held : "" ∈ order := by
      obtain ⟨ref,found,_⟩ := (Option.any_eq_true _ _).mp empty
      exact tracked.mem_of_get? found
    rw [if_pos empty,dropWhile_eq_filter (sorted.filter _) (List.mem_filter.mpr ⟨held,empty⟩),List.filter_filter,
      (perm.filter _).length_eq]
    exact congrArg List.length (List.filter_congr fun k _ => Bool.and_comm _ _)
  · rw [if_neg empty,List.dropWhile_eq_nil_iff.mpr]
    intro k member
    have stay := (List.mem_filter.mp member).2
    exact decide_eq_true fun same => empty (same ▸ stay)

theorem returns_iff (tracked : Tracked s.cache order surplus)
    (sorted : order.Pairwise fun a b => s.lastAccess a < s.lastAccess b) (test : String → String → Bool) (e : Event α) :
    (Returns s.cache e ↔ Settles s e) ∧ (Settles s e → ∃ c, s.cache.perform test e = some c) := by
  cases e with
  | set key value type now =>
    obtain ⟨d,_,made,_⟩ := tracked.makeRoom key
    have result : s.cache.perform test (.set key value type now) = some (d.add key value type now) := by
      rw [perform_set,made]
      rfl
    exact ⟨⟨fun _ => trivial,fun _ => ⟨_,_,result⟩⟩,fun _ => ⟨_,result⟩⟩
  | optimize now =>
    have ready := tracked.deleteAll (s.cache.lateKeys now)
    rw [← removeExpired_eq] at ready
    have aside : (s.cache.removeExpired now).maxSize = s.cache.maxSize := by
      rw [removeExpired_eq]
      exact (shrunk_deleteAll _ _).maxSize
    have counted := tracked.counted
    have length := tracked.length_eq
    have back := length_heldBack tracked sorted now
    have fewer : (s.cache.removeExpired now).totalEntries ≤ s.cache.totalEntries := by
      have after := ready.counted
      have short := (List.filter_sublist (p := fun k => decide (k ∉ s.cache.lateKeys now)) (l := order)).length_le
      omega
    have done (settles : Settles s (.optimize now)) : ∃ c, s.cache.perform test (.optimize now) = some c := by
      obtain ⟨d,enforced⟩ := ready.enforceSizeLimits_returns (by
        rw [aside,← back]
        rw [Settles] at settles
        omega)
      refine ⟨{ d with lastOptimization := now },?_⟩
      rw [perform_optimize,enforceSizeLimits,whileLoop_mono enforced (by rw [aside]; omega)]
      rfl
    refine ⟨⟨?_,fun settles => ?_⟩,done⟩
    · rintro ⟨rounds,c',result⟩
      obtain ⟨d,enforced,_⟩ := Option.map_eq_some_iff.mp result
      by_contra above
      rw [ready.enforceSizeLimits_never (by
        rw [aside,← back]
        rw [Settles] at above
        omega)] at enforced
      cases enforced
    · obtain ⟨c,result⟩ := done settles
      exact ⟨_,c,result⟩
  | get | delete | has | invalidatePattern | clear | collect | callback =>
    exact ⟨Iff.rfl,fun _ => ⟨_,rfl⟩⟩

theorem exact_step_iff (test : String → String → Bool) (sound : Sound s) (exact_ : Exact s) (positive : 1 ≤ s.cache.maxSize)
    (e : Event α) : Ongoing Exact (step test (some s) e) ↔ Careful s e := by
  obtain ⟨order,surplus,tracked,sorted,earlier⟩ := sound
  obtain ⟨rfl,within⟩ := (exact_iff tracked sorted).mp exact_
  have settles : Settles s e := by
    cases e with
    | optimize now =>
      have counted := tracked.counted
      have length := tracked.length_eq
      have back := length_heldBack tracked sorted now
      have few := (length_blocked_le _).trans
        (List.filter_sublist (p := fun k => decide (k ∉ s.cache.lateKeys now)) (l := order)).length_le
      rw [Settles]
      omega
    | get | set | delete | has | invalidatePattern | clear | collect | callback => trivial
  obtain ⟨c,result⟩ := (returns_iff tracked sorted test e).2 settles
  obtain ⟨order',after,moved⟩ := tracked.perform e result
  have sorted' : order'.Pairwise fun a b => (s.follow test e c).lastAccess a < (s.follow test e c).lastAccess b :=
    (Sound.follow sorted earlier moved c).1
  have stepped : step test (some s) e = some (s.follow test e c) := by
    rw [step,Option.bind_some,result]
    rfl
  have same := perform_maxSize tracked result
  have kept : Exact (s.follow test e c) ↔ s.cache.surplusAfter 0 e = 0 ∧ c.totalEntries ≤ c.maxSize :=
    exact_iff (s := s.follow test e c) after sorted'
  rw [stepped,ongoing_some,kept,same]
  have counted := tracked.counted
  have counted' := after.counted
  cases e with
  | set key value type now =>
    rw [← set_within tracked sorted within positive result]
    exact ⟨And.right,fun small => ⟨rfl,small⟩⟩
  | get key now | has key now =>
    have short := length_le_of_moved tracked moved (fun _ _ _ _ other => by cases other)
    rw [surplusAfter] at counted' ⊢
    rw [Careful]
    split
    next lost => exact ⟨fun same => absurd same.1 (by omega),fun careful => absurd lost careful⟩
    next lost =>
      rw [if_neg lost] at counted'
      exact ⟨fun _ => lost,fun _ => ⟨rfl,by omega⟩⟩
  | delete | optimize | invalidatePattern | clear | collect | callback =>
    have short := length_le_of_moved tracked moved (fun _ _ _ _ other => by cases other)
    have counted' : c.totalEntries = order'.length + (0 : Nat) := after.counted
    exact ⟨fun _ => trivial,fun _ => ⟨rfl,by omega⟩⟩

theorem bookkeeping_exact_iff (test : String → String → Bool) (maxSize ttl : Int) (useWeakRef : Bool)
    (positive : 1 ≤ maxSize) (events : List (Event α)) :
    EveryState (step test) (Ongoing Exact) (fresh maxSize ttl useWeakRef) events ↔
      EveryStep (step test) (fun s e => Ongoing (Careful · e) s) (fresh maxSize ttl useWeakRef) events := by
  apply everyState_iff_everyStep (A := Ongoing fun s => Sound s ∧ 1 ≤ s.cache.maxSize)
  · intro s e ready _ _ t stepped
    obtain ⟨s,rfl,performed⟩ := Option.bind_eq_some_iff.mp stepped
    obtain ⟨c,result,rfl⟩ := Option.map_eq_some_iff.mp performed
    obtain ⟨⟨order,surplus,tracked,_⟩,positive⟩ := ready s rfl
    refine ⟨sound_step test (some s) e (fun t is => (ready t is).1) _ stepped,?_⟩
    exact (perform_maxSize tracked result).symm ▸ positive
  · intro s e ready exact_
    cases s with
    | none => exact iff_of_true (ongoing_none Exact) (ongoing_none (Careful · e))
    | some s =>
      rw [exact_step_iff test (ready s rfl).1 (exact_ s rfl) (ready s rfl).2 e]
      exact (ongoing_some (P := (Careful · e))).symm
  · exact fun s is => ⟨sound_fresh _ _ _ s is,by obtain rfl := Option.some.inj is; exact positive⟩
  · intro s is
    obtain rfl := Option.some.inj is
    refine ⟨rfl,by dsimp only; omega,[],KeyLinks.lists_empty,fun k => ?_,.nil⟩
    exact ⟨fun member => absurd member List.not_mem_nil,fun member => absurd member List.not_mem_nil⟩

theorem bookkeeping_exact_of_collection : EveryState (step fun _ _ => false) (Ongoing Exact) (fresh 1 1000 true)
    [.set "a" (0 : Nat) .stats 0,.collect 0,.callback 0,.set "b" 1 .stats 1] ↔
    EveryStep (step fun _ _ => false) (fun s e => Ongoing (Careful · e) s) (fresh 1 1000 true)
      [.set "a" (0 : Nat) .stats 0,.collect 0,.callback 0,.set "b" 1 .stats 1] :=
  bookkeeping_exact_iff _ _ _ _ (by decide) _

/-- An entry is collected, and looked up before its callback runs. -/
theorem lookup_spoils_the_count : ¬ EveryState (step fun _ _ => false) (Ongoing Exact) (fresh 5000 180000 true)
    [.set "a" (0 : Nat) .stats 0,.collect 0,.get "a" 1] := by
  intro always
  have last := (always.last _ rfl).counted
  revert last
  decide

/-- All calls of a run return if and only if every `optimize` settles. -/
theorem maintenance_returns_iff (test : String → String → Bool) (maxSize ttl : Int) (useWeakRef : Bool)
    (events : List (Event α)) :
    EveryStep (step test) (fun s e => Ongoing (fun s => Returns s.cache e) s) (fresh maxSize ttl useWeakRef) events ↔
      EveryStep (step test) (fun s e => Ongoing (Settles · e) s) (fresh maxSize ttl useWeakRef) events := by
  apply everyStep_iff_everyStep (A := Ongoing Sound) (R := fun _ _ => True)
  · exact fun s e sound _ _ => sound_step test s e sound
  · intro s e sound _
    refine forall₂_congr fun t is => ?_
    obtain ⟨order,surplus,tracked,sorted,_⟩ := sound t is
    exact (returns_iff tracked sorted test e).1
  · exact sound_fresh maxSize ttl useWeakRef
  · exact everyStep_of_inputs (P := fun _ => True) (fun _ _ => trivial) _

/-- Two entries are collected and counted no more out; then the cache is empty, and its counter above its size. -/
theorem optimize_never_returns : ¬ EveryStep (step fun _ _ => false) (fun s e => Ongoing (fun s => Returns s.cache e) s)
    (fresh 1 1000 true) [.set "a" (0 : Nat) .stats 0,.collect 0,.get "a" 1,.set "b" 1 .stats 1,.collect 1,.get "b" 2,
      .optimize 3] := by
  intro every
  have returns := every.2.2.2.2.2.2.1 _ rfl
  have reached : EveryState (step fun _ _ => false) (Ongoing Sound) (fresh 1 1000 true)
      [.set "a" (0 : Nat) .stats 0,.collect 0,.get "a" 1,.set "b" 1 .stats 1,.collect 1,.get "b" 2] :=
    everyState_of_step (sound_step _) (sound_fresh _ _ _) _
  obtain ⟨order,surplus,tracked,sorted,_⟩ := reached.last _ rfl
  have settles := (returns_iff tracked sorted (fun _ _ => false) _).1.mp returns
  rw [Settles] at settles
  revert settles
  decide

end ApexLs.Utils.WeakCache
