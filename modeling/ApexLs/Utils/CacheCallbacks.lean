import ApexLs.Utils.CacheAccounts

/-! What a late callback does. It names the key of its entry, and another entry can be held for this key by then. -/
namespace ApexLs.Utils.WeakCache

open ApexLs.Collections

variable {α : Type u}

structure Spared (c c' : WeakCache α) : Prop where
  cache : c'.cache = c.cache
  lru : c'.lru = c.lru
  totalEntries : c'.totalEntries = c.totalEntries
  hitCount : c'.hitCount = c.hitCount
  missCount : c'.missCount = c.missCount
  evictionCount : c'.evictionCount = c.evictionCount
  typeDistribution : c'.typeDistribution = c.typeDistribution

def Spares (s : Session α) : Event α → Prop
  | .callback i => ∀ object key ref, s.cache.registered[i]? = some (object,key) → s.cache.cache.get? key = some ref →
      ref.object ≠ object → Spared s.cache (s.cache.callback i)
  | _ => True

/-- What was set for a key and has not ended is the answer of a lookup in time. -/
def Answered (s : Session α) : Prop :=
  ∀ key x now, s.standing key = some x → now - x.timestamp ≤ s.cache.ttl → (s.cache.get key now).1 = some x.value

/-- A callback for a collected entry comes before its key is set again, or after that entry is gone too. -/
def Timely (s : Session α) : Event α → Prop
  | .callback i => ∀ object key ref, s.cache.registered[i]? = some (object,key) → object ∈ s.cache.collected →
      s.cache.cache.get? key = some ref → ref.object = object
  | _ => True

/-- The entry that was made for a setting is held for the key, and is there. -/
def Holds (c : WeakCache α) (key : String) (x : Setting α) : Prop :=
  ∃ ref, c.cache.get? key = some ref ∧ ref.object = x.object ∧ ref.entry.value = x.value ∧
    ref.entry.timestamp = x.timestamp ∧ c.getEntry ref = some ref.entry

/-- Entries are numbered as they are made, and only weak ones are registered. -/
structure Numbered (c : WeakCache α) : Prop where
  collected : ∀ object ∈ c.collected, object < c.made
  registered : ∀ p ∈ c.registered, p.1 < c.made ∧ c.useWeakRef = true

variable {c : WeakCache α} {key : String} {x : Setting α}

theorem getEntry_eq_iff (ref : EntryRef α) :
    c.getEntry ref = some ref.entry ↔ ¬ (c.useWeakRef = true ∧ ref.object ∈ c.collected) := by
  rw [getEntry]
  split
  next gone => simpa using gone
  next there => simpa using there

section

variable (holds : Holds c key x)
include holds

theorem Holds.get (now : Int) (fresh : now - x.timestamp ≤ c.ttl) :
    (c.get key now).1 = some x.value := by
  obtain ⟨ref,found,_,value,time,live⟩ := holds
  have early : ¬ c.expired now ref.entry = true := by
    rw [expired,decide_eq_true_iff,time]
    omega
  rw [(get_hit found live early).1,value]

theorem Holds.of_eq (found : c'.cache.get? key = c.cache.get? key)
    (weak : c'.useWeakRef = c.useWeakRef) (collected : c'.collected = c.collected) : Holds c' key x := by
  obtain ⟨ref,held,object,value,time,live⟩ := holds
  refine ⟨ref,found.trans held,object,value,time,?_⟩
  rw [getEntry_eq_iff,weak,collected,← getEntry_eq_iff]
  exact live

theorem Holds.has : c.cache.has key = true := by
  obtain ⟨ref,held,_⟩ := holds
  exact OrderedMap.has_iff.mpr ⟨ref,held⟩

theorem Holds.shrunk (shrunk : Shrunk c c') (still : c'.cache.has key = true) :
    Holds c' key x := by
  obtain ⟨ref,held⟩ := OrderedMap.has_iff.mp still
  refine holds.of_eq ((shrunk.entry key).resolve_left fun gone => ?_) shrunk.useWeakRef shrunk.collected
  rw [held] at gone
  cases gone

theorem Holds.drop (other : key ≠ k) : Holds (c.drop k) key x :=
  holds.of_eq (OrderedMap.get?_erase_of_ne _ other) rfl rfl

theorem Holds.delete (other : key ≠ k) : Holds (c.delete k).2 key x := by
  refine holds.of_eq ?_ (delete_aside c k).useWeakRef (delete_aside c k).collected
  rw [get?_delete,if_neg other]

theorem Holds.deleteAll (other : key ∉ keys) : Holds (c.deleteAll keys) key x := by
  refine holds.of_eq ?_ (shrunk_deleteAll c keys).useWeakRef (shrunk_deleteAll c keys).collected
  rw [get?_deleteAll,if_neg other]

theorem Holds.lookup (fresh : ¬ (k = key ∧ c.ttl < now - x.timestamp)) :
    Holds (c.get k now).2 key x := by
  obtain ⟨ref,held,object,value,time,live⟩ := id holds
  cases found : c.cache.get? k with
  | none =>
    rw [get_absent found]
    exact holds.of_eq rfl rfl rfl
  | some other =>
    cases there : c.getEntry other with
    | none =>
      rw [get_collected found there]
      refine (holds.drop (k := k) ?_).of_eq rfl rfl rfl
      rintro rfl
      obtain rfl := Option.some.inj (held.symm.trans found)
      cases live.symm.trans there
    | some entry =>
      by_cases late : c.expired now entry = true
      · rw [get_expired found there late]
        refine (holds.delete (k := k) ?_).of_eq rfl rfl rfl
        rintro rfl
        obtain rfl := Option.some.inj (held.symm.trans found)
        obtain rfl := Option.some.inj (live.symm.trans there)
        rw [expired,decide_eq_true_iff,time] at late
        exact fresh ⟨rfl,late⟩
      · obtain ⟨_,later,same,stamp,after⟩ := get_hit found there late
        rw [after]
        by_cases which : key = k
        · obtain rfl := which
          obtain rfl := Option.some.inj (held.symm.trans found)
          obtain rfl := Option.some.inj (live.symm.trans there)
          exact ⟨{ ref with entry := later },OrderedMap.get?_set_self _ _ _,object,same.trans value,stamp.trans time,
            (getEntry_eq_iff _).mpr ((getEntry_eq_iff ref).mp live)⟩
        · exact holds.of_eq (OrderedMap.get?_set_of_ne _ _ which) rfl rfl

theorem Holds.ask : Holds (c.has k now).2 key x := by
  obtain ⟨ref,held,_,_,_,live⟩ := id holds
  cases found : c.cache.get? k with
  | none =>
    rw [has_absent found]
    exact holds
  | some other =>
    cases there : c.getEntry other with
    | none =>
      rw [has_collected found there]
      refine holds.drop ?_
      rintro rfl
      obtain rfl := Option.some.inj (held.symm.trans found)
      cases live.symm.trans there
    | some entry =>
      rw [has_live found there]
      exact holds

theorem Holds.callback (numbered : Numbered c)
    (timely : ∀ object k ref, c.registered[i]? = some (object,k) → object ∈ c.collected →
      c.cache.get? k = some ref → ref.object = object) : Holds (c.callback i) key x := by
  obtain ⟨ref,held,object,value,time,live⟩ := id holds
  unfold WeakCache.callback
  cases which : c.registered[i]? with
  | none => exact holds
  | some registration =>
    obtain ⟨gone,k⟩ := registration
    dsimp only
    split
    next collected =>
      have other : key ≠ k := by
        rintro rfl
        obtain rfl := timely gone key ref which collected held
        have weak := (numbered.registered _ (List.mem_of_getElem? which)).2
        exact (getEntry_eq_iff ref).mp live ⟨weak,collected⟩
      unfold handleGarbageCollected
      split
      · exact holds.of_eq (OrderedMap.get?_erase_of_ne _ other) rfl rfl
      · exact holds.of_eq rfl rfl rfl
    next => exact holds

theorem Holds.add (other : key ≠ k) (value : α) (type : CacheEntryType) (now : Int) :
    Holds (c.add k value type now) key x :=
  holds.of_eq (OrderedMap.get?_set_of_ne _ _ other) rfl rfl

end

theorem holds_added (numbered : Numbered c) (key : String) (value : α) (type : CacheEntryType) (now : Int) :
    Holds (c.add key value type now) key ⟨c.made,value,now⟩ := by
  refine ⟨_,OrderedMap.get?_set_self _ _ _,rfl,rfl,rfl,?_⟩
  rw [getEntry_eq_iff]
  exact fun ⟨_,collected⟩ => lt_irrefl _ (numbered.collected _ collected)

theorem Numbered.of_aside (numbered : Numbered c) (aside : Aside c c') : Numbered c' := by
  constructor
  · rw [aside.collected,aside.made]
    exact numbered.collected
  · rw [aside.registered,aside.made,aside.useWeakRef]
    exact numbered.registered

theorem Numbered.add (numbered : Numbered c) (key : String) (value : α) (type : CacheEntryType) (now : Int) :
    Numbered (c.add key value type now) := by
  refine ⟨fun object member => Nat.lt_succ_of_lt (numbered.collected object member),fun p member => ?_⟩
  have registered : (c.add key value type now).registered =
      if c.useWeakRef then c.registered ++ [(c.made,key)] else c.registered := rfl
  have made : (c.add key value type now).made = c.made + 1 := rfl
  have weak : (c.add key value type now).useWeakRef = c.useWeakRef := rfl
  rw [registered] at member
  rw [made,weak]
  split at member
  next holds =>
    rcases List.mem_append.mp member with old | new
    · exact ⟨Nat.lt_succ_of_lt (numbered.registered p old).1,holds⟩
    · rw [List.mem_singleton.mp new]
      exact ⟨Nat.lt_succ_self _,holds⟩
  next =>
    obtain ⟨below,holds⟩ := numbered.registered p member
    exact ⟨Nat.lt_succ_of_lt below,holds⟩

theorem Numbered.collect (numbered : Numbered c) (object : Nat) : Numbered (c.collect object) := by
  unfold WeakCache.collect
  split
  next known =>
    obtain ⟨p,member,is⟩ := List.any_eq_true.mp known
    refine ⟨fun o there => ?_,numbered.registered⟩
    rcases List.mem_cons.mp there with rfl | old
    · exact of_decide_eq_true is ▸ (numbered.registered p member).1
    · exact numbered.collected o old
  next => exact numbered

theorem Numbered.callback (numbered : Numbered c) (i : Nat) : Numbered (c.callback i) := by
  have erased : Numbered { c with registered := c.registered.eraseIdx i } :=
    ⟨numbered.collected,fun p member => numbered.registered p (List.mem_of_mem_eraseIdx member)⟩
  unfold WeakCache.callback handleGarbageCollected
  split
  · split
    · split
      · exact ⟨erased.collected,erased.registered⟩
      · exact erased
    · exact numbered
  · exact numbered

theorem perform_numbered (tracked : Tracked c order surplus) (numbered : Numbered c) {e : Event α}
    (result : c.perform test e = some c') : Numbered c' := by
  cases e with
  | get key now =>
    obtain rfl := Option.some.inj result
    exact numbered.of_aside (get_aside c key now)
  | set key value type now =>
    rw [perform_set] at result
    obtain ⟨d,made,rfl⟩ := Option.map_eq_some_iff.mp result
    obtain ⟨d',_,again,_,_,shrunk⟩ := tracked.makeRoom key
    obtain rfl := Option.some.inj (made.symm.trans again)
    exact (numbered.of_aside ((shrunk_replaced c key).trans shrunk).toAside).add key value type now
  | delete key =>
    obtain rfl := Option.some.inj result
    exact numbered.of_aside (delete_aside c key)
  | has key now =>
    obtain rfl := Option.some.inj result
    exact numbered.of_aside (has_aside c key now)
  | optimize now =>
    rw [perform_optimize,removeExpired_eq] at result
    obtain ⟨d,made,rfl⟩ := Option.map_eq_some_iff.mp result
    obtain ⟨_,shrunk,_⟩ := (tracked.deleteAll _).enforceSizeLimits_spec made
    have ready := numbered.of_aside ((shrunk_deleteAll c _).trans shrunk).toAside
    exact ⟨ready.collected,ready.registered⟩
  | invalidatePattern pattern =>
    obtain rfl := Option.some.inj result
    rw [invalidatePattern_eq]
    exact numbered.of_aside (shrunk_deleteAll c _).toAside
  | clear now =>
    obtain rfl := Option.some.inj result
    exact ⟨numbered.collected,numbered.registered⟩
  | collect object =>
    obtain rfl := Option.some.inj result
    exact numbered.collect object
  | callback i =>
    obtain rfl := Option.some.inj result
    exact numbered.callback i

theorem perform_holds (tracked : Tracked s.cache order surplus) (numbered : Numbered s.cache) {e : Event α}
    (timely : Timely s e) (result : s.cache.perform test e = some c') (holds : Holds s.cache key x)
    (kept : ¬ s.cache.withdraws test key x e = true) (room : ¬ s.cache.evicts key e = true) : Holds c' key x := by
  cases e with
  | get k now =>
    obtain rfl := Option.some.inj result
    exact holds.lookup (by simpa [withdraws] using kept)
  | set k value type now =>
    rw [perform_set] at result
    obtain ⟨d,made,rfl⟩ := Option.map_eq_some_iff.mp result
    obtain ⟨d',_,again,_,_,shrunk⟩ := tracked.makeRoom k
    obtain rfl := Option.some.inj (made.symm.trans again)
    have other : key ≠ k := fun same => kept (decide_eq_true same.symm)
    have ready : Holds (s.cache.replaced k) key x := by
      unfold replaced
      split
      · exact holds.delete other
      · exact holds
    have still : d.cache.has key = true := by
      rw [evicts,leavesOut,made,ready.has] at room
      simpa using room
    exact (ready.shrunk shrunk still).add other value type now
  | delete k =>
    obtain rfl := Option.some.inj result
    exact holds.delete fun same => kept (decide_eq_true same.symm)
  | has k now =>
    obtain rfl := Option.some.inj result
    exact holds.ask
  | optimize now =>
    rw [perform_optimize] at result
    obtain ⟨d,made,rfl⟩ := Option.map_eq_some_iff.mp result
    have ready : Holds (s.cache.removeExpired now) key x := by
      rw [removeExpired_eq]
      refine holds.deleteAll fun late => ?_
      obtain ⟨ref,held,_,_,time,live⟩ := holds
      have out := (mem_lateKeys_iff s.cache now key (OrderedMap.mem_keys_iff.mpr ⟨ref,held⟩)).mp late
      refine kept (decide_eq_true ?_)
      rw [stays,held,Option.any_some,outdated,live,Option.all_some,expired,time] at out
      rw [Bool.not_eq_true,Bool.not_eq_false'] at out
      exact of_decide_eq_true out
    have still : d.cache.has key = true := by
      rw [evicts,leavesOut,made,ready.has] at room
      simpa using room
    have tracked' := removeExpired_eq s.cache now ▸ tracked.deleteAll (s.cache.lateKeys now)
    obtain ⟨_,shrunk,_⟩ := tracked'.enforceSizeLimits_spec made
    exact (ready.shrunk shrunk still).of_eq rfl rfl rfl
  | invalidatePattern pattern =>
    obtain rfl := Option.some.inj result
    rw [invalidatePattern_eq]
    exact holds.deleteAll fun member => kept (List.mem_filter.mp member).2
  | clear now => exact absurd rfl kept
  | collect object =>
    obtain rfl := Option.some.inj result
    obtain ⟨ref,held,same,value,time,live⟩ := holds
    have cache : (s.cache.collect object).cache = s.cache.cache := by
      unfold collect
      split <;> rfl
    refine ⟨ref,cache ▸ held,same,value,time,(getEntry_eq_iff ref).mpr fun late => ?_⟩
    exact kept (decide_eq_true (same ▸ late.2))
  | callback i =>
    obtain rfl := Option.some.inj result
    exact holds.callback numbered timely

structure Backed (s : Session α) : Prop where
  sound : Sound s
  numbered : Numbered s.cache
  holds : ∀ key x, s.standing key = some x → Holds s.cache key x

theorem Backed.answered {s : Session α} (backed : Backed s) : Answered s :=
  fun key x now standing fresh => (backed.holds key x standing).get now fresh

theorem backed_step (test : String → String → Bool) (s : Option (Session α)) (e : Event α) (backed : Ongoing Backed s)
    (timely : Ongoing (Timely · e) s) : Ongoing Backed (step test s e) := by
  intro t stepped
  have sound := sound_step test s e (fun t is => (backed t is).sound) t stepped
  obtain ⟨s,rfl,performed⟩ := Option.bind_eq_some_iff.mp stepped
  obtain ⟨c,result,rfl⟩ := Option.map_eq_some_iff.mp performed
  obtain ⟨⟨order,surplus,tracked,_⟩,numbered,holds⟩ := backed s rfl
  have rest {key : String} {x : Setting α} (standing : ((s.standing key).filter fun x =>
      !s.cache.withdraws test key x e && !s.cache.evicts key e) = some x) : Holds c key x := by
    obtain ⟨before,kept⟩ := Option.filter_eq_some_iff.mp standing
    rw [Bool.and_eq_true_iff] at kept
    exact perform_holds tracked numbered (timely s rfl) result (holds key x before) (by simpa using kept.1)
      (by simpa using kept.2)
  refine ⟨sound,perform_numbered tracked numbered result,fun key x standing => ?_⟩
  replace standing : s.standingAfter test key e = some x := standing
  cases e with
  | set k value type now =>
    rw [Session.standingAfter] at standing
    split at standing
    next same =>
      obtain rfl := Option.some.inj standing
      obtain rfl := same
      rw [perform_set] at result
      obtain ⟨d,made,rfl⟩ := Option.map_eq_some_iff.mp result
      obtain ⟨d',_,again,_,_,shrunk⟩ := tracked.makeRoom k
      obtain rfl := Option.some.inj (made.symm.trans again)
      have aside := ((shrunk_replaced s.cache k).trans shrunk).toAside
      rw [← aside.made]
      exact holds_added (numbered.of_aside aside) k value type now
    next => exact rest standing
  | get | delete | has | optimize | invalidatePattern | clear | collect | callback => exact rest standing

theorem backed_fresh (maxSize ttl : Int) (useWeakRef : Bool) :
    Ongoing Backed (fresh maxSize ttl useWeakRef : Option (Session α)) := by
  intro s is
  have sound := sound_fresh maxSize ttl useWeakRef s is
  obtain rfl := Option.some.inj is
  exact ⟨sound,⟨fun _ member => absurd member List.not_mem_nil,fun _ member => absurd member List.not_mem_nil⟩,
    fun _ _ standing => by cases standing⟩

theorem spares_iff_timely (s : Session α) (e : Event α) : Spares s e ↔ Timely s e := by
  cases e with
  | callback i =>
    constructor
    · intro spares object key ref which collected held
      by_contra other
      have same := (spares object key ref which held other).cache
      have gone : (s.cache.callback i).cache.get? key = none := by
        have has : s.cache.cache.has key = true := OrderedMap.has_iff.mpr ⟨ref,held⟩
        simp only [callback,which,if_pos collected,handleGarbageCollected,has,if_true]
        exact OrderedMap.get?_erase_self _ _
      rw [same,held] at gone
      cases gone
    · intro timely object key ref which held other
      have there : object ∉ s.cache.collected := fun collected => other (timely object key ref which collected held)
      simp only [callback,which,if_neg there]
      exact ⟨rfl,rfl,rfl,rfl,rfl,rfl,rfl⟩
  | get | set | delete | has | optimize | invalidatePattern | clear | collect => exact Iff.rfl

theorem callbacks_spare_iff (test : String → String → Bool) (maxSize ttl : Int) (useWeakRef : Bool)
    (events : List (Event α)) :
    EveryStep (step test) (fun s e => Ongoing (Spares · e) s) (fresh maxSize ttl useWeakRef) events ∧
      EveryState (step test) (Ongoing Answered) (fresh maxSize ttl useWeakRef) events ↔
    EveryStep (step test) (fun s e => Ongoing (Timely · e) s) (fresh maxSize ttl useWeakRef) events := by
  constructor
  · rintro ⟨spares,_⟩
    exact spares.mono fun s e each t is => (spares_iff_timely t e).mp (each t is)
  · intro timely
    refine ⟨timely.mono fun s e each t is => (spares_iff_timely t e).mpr (each t is),fun front initial t is => ?_⟩
    have always := everyState_of_everyStep (backed_step test) (backed_fresh maxSize ttl useWeakRef) timely
    exact (always front initial t is).answered

/-- The callback for a replaced entry takes the entry that replaced it. -/
theorem late_callback_takes_newer : ¬ (EveryStep (step fun _ _ => false) (fun s e => Ongoing (Spares · e) s)
      (fresh 5000 180000 true)
      [.set "k" (0 : Nat) .stats 0,.set "k" 1 .stats 1,.collect 0,.callback 0] ∧
    EveryState (step fun _ _ => false) (Ongoing Answered) (fresh 5000 180000 true)
      [.set "k" (0 : Nat) .stats 0,.set "k" 1 .stats 1,.collect 0,.callback 0]) := by
  rintro ⟨_,always⟩
  have answer := always.last _ rfl "k" ⟨1,1,1⟩ 2 (by rfl) (by decide)
  revert answer
  decide

end ApexLs.Utils.WeakCache
