import Mathlib.Data.List.Flatten
import Mathlib.Data.List.Range
import ApexLs.Symbols.BatchedDeferral

/-! When the batch tasks of a target name cover its deferred references. -/
namespace ApexLs.Symbols
namespace Deferral

open ApexLs.Collections ApexLs.Types

theorem flatMap_slices (l : List α) (size k : Nat) :
    ((List.range k).flatMap fun i => (l.drop (i * size)).take (min (i * size + size) l.length - i * size)) =
      l.take (k * size) := by
  induction k with
  | zero => simp
  | succ k ih =>
    have last : (l.drop (k * size)).take (min (k * size + size) l.length - k * size) = (l.drop (k * size)).take size := by
      rw [List.take_eq_take_iff,List.length_drop]
      omega
    rw [List.range_succ,List.flatMap_append,ih,List.flatMap_singleton,last,Nat.succ_mul,List.take_add]

variable {service : DeferredService} {s : Deferral}

theorem batchSize_pos (service : DeferredService) : 0 < service.batchSize := by
  unfold DeferredService.batchSize
  split <;> omega

theorem flatMap_slice (s : Deferral) :
    ((List.range (s.numBatches service)).flatMap fun i => s.slice service i s.queued) = s.queued := by
  have positive := batchSize_pos service
  have enough : s.queued.length ≤ s.numBatches service * service.batchSize := by
    have split := Nat.div_add_mod (s.queued.length + service.batchSize - 1) service.batchSize
    have below := Nat.mod_lt (s.queued.length + service.batchSize - 1) positive
    rw [Nat.mul_comm] at split
    rw [numBatches]
    omega
  exact (flatMap_slices s.queued service.batchSize (s.numBatches service)).trans (List.take_of_length_le enough)

theorem slice_ne_nil (s : Deferral) (below : i < s.numBatches service) : s.slice service i s.queued ≠ [] := by
  have positive := batchSize_pos service
  have started : i * service.batchSize < s.queued.length := by
    have more : i + 1 ≤ (s.queued.length + service.batchSize - 1) / service.batchSize := below
    rw [Nat.le_div_iff_mul_le positive,Nat.succ_mul] at more
    omega
  intro nothing
  have length := congrArg List.length nothing
  simp only [slice,endIndex,startIndex,List.length_take,List.length_drop,List.length_nil] at length
  omega

def doneAt (tasks : List BatchTask) (i : Nat) : Bool :=
  match tasks[i]? with
  | some (.done ..) => true
  | _ => false

def doneTasks (tasks : List BatchTask) : List Nat := (List.range tasks.length).filter (doneAt tasks)

theorem doneTasks_nodup (tasks : List BatchTask) : (doneTasks tasks).Nodup := List.nodup_range.filter _

theorem doneTasks_congr {tasks tasks' : List BatchTask} (length : tasks'.length = tasks.length)
    (same : ∀ i, doneAt tasks' i = doneAt tasks i) : doneTasks tasks' = doneTasks tasks := by
  rw [doneTasks,doneTasks,length]
  exact List.filter_congr fun i _ => same i

theorem doneTasks_append (tasks : List BatchTask) : doneTasks (tasks ++ [.waiting]) = doneTasks tasks := by
  have last : doneAt (tasks ++ [.waiting]) tasks.length = false := by simp [doneAt]
  rw [doneTasks,doneTasks,List.length_append,List.length_singleton,List.range_succ,List.filter_append,
    List.filter_singleton,last]
  simp only [cond_false,List.append_nil]
  refine List.filter_congr fun i below => ?_
  simp only [doneAt,List.getElem?_append_left (List.mem_range.mp below)]

theorem doneAt_set (tasks : List BatchTask) (i j : Nat) (task : BatchTask) (apart : i ≠ j) :
    doneAt (tasks.set i task) j = doneAt tasks j := by
  simp only [doneAt,List.getElem?_set_ne apart]

theorem doneTasks_running {tasks : List BatchTask} (is : tasks[i]? = some .waiting) (a : Nat) (batch : List DeferredItem) :
    doneTasks (tasks.set i (.running a batch)) = doneTasks tasks := by
  refine doneTasks_congr List.length_set fun j => ?_
  by_cases same : i = j
  · subst same
    have below := (List.getElem?_eq_some_iff.mp is).1
    simp only [doneAt,List.getElem?_set_self below,is]
  · exact doneAt_set tasks i j _ same

theorem doneTasks_done {tasks : List BatchTask} (is : tasks[i]? = some (.running a batch)) (processed failed : Nat) :
    (doneTasks (tasks.set i (.done processed failed))).Perm (i :: doneTasks tasks) := by
  have below := (List.getElem?_eq_some_iff.mp is).1
  have other : i ∉ doneTasks tasks := by
    intro member
    have ended := (List.mem_filter.mp member).2
    simp [doneAt,is] at ended
  rw [List.perm_ext_iff_of_nodup (doneTasks_nodup _) (List.nodup_cons.mpr ⟨other,doneTasks_nodup tasks⟩)]
  intro j
  rw [doneTasks,List.mem_filter,List.length_set,List.mem_cons,doneTasks,List.mem_filter]
  by_cases same : i = j
  · subst same
    simp [doneAt,below]
  · simp [doneAt_set tasks i j _ same,Ne.symm same]

theorem mem_besides_or_slice (s : Deferral) (i : Nat) (member : item ∈ items) :
    item ∈ s.besides service i items ∨ item ∈ s.slice service i items := by
  rw [← List.take_append_drop (startIndex service i) items,List.mem_append] at member
  rcases member with early | late
  · exact .inl (List.mem_append_left _ early)
  · rw [← List.take_append_drop (s.endIndex service i - startIndex service i) (items.drop (startIndex service i)),
      List.mem_append] at late
    rcases late with inner | behind
    · exact .inr inner
    · rw [List.drop_drop] at behind
      refine .inl (List.mem_append_right _ ?_)
      exact (List.drop_sublist_drop_left items (by omega)).subset behind

theorem slice_push (s : Deferral) (below : i < s.numBatches service) (new : DeferredItem)
    (full : s.slice service i items = s.slice service i s.queued) :
    s.slice service i (items ++ [new]) = s.slice service i s.queued := by
  have length := congrArg List.length full
  have some_ := List.length_pos_iff.mpr (slice_ne_nil s below)
  have within : s.endIndex service i ≤ s.queued.length := Nat.min_le_right _ _
  simp only [slice,List.length_take,List.length_drop] at length some_
  rw [← full,slice,slice,List.drop_append_of_le_length (by omega),List.take_append_of_le_length]
  rw [List.length_drop]
  omega

theorem turned_target (succeeds : ∀ a b edge, service.addEdge a b edge = true) (s : Deferral)
    (found : service.findSymbolByName s.symbolName ≠ []) (item : DeferredItem) :
    (s.target service item).isTurned = true := by
  unfold target
  cases picked : service.selectDeferredTargetSymbol (service.findSymbolByName s.symbolName)
      item.reference.targetFileUri with
  | none =>
    obtain ⟨_,nothing⟩ := Option.or_eq_none_iff.mp picked
    exact absurd (List.head?_eq_none_iff.mp nothing) found
  | some target =>
    simp only [DeferredService.handle]
    cases service.sourceInGraph item.reference with
    | none => rfl
    | some source =>
      simp only [succeeds,if_true]
      rfl

structure Underway (service : DeferredService) (s : Deferral) : Prop where
  distinct : s.queued.Nodup
  numbered : ∀ item ∈ s.queued, item.object < s.queued.length
  fresh : s.queued.length ≤ s.made ∧ ∀ item ∈ s.added, s.queued.length ≤ item.object
  offered : s.tasks.length ≤ s.numBatches service ∧ (s.queueing = false → s.tasks.length = s.numBatches service)
  valid : (∀ a, s.current = some a → a < s.lists.length) ∧ ∀ a, s.own = some a → a < s.lists.length
  running : ∀ i a batch, s.tasks[i]? = some (.running a batch) → batch = s.slice service i s.queued ∧
    s.slice service i (s.list a) = s.slice service i s.queued ∧ a < s.lists.length ∧
    service.findSymbolByName s.symbolName ≠ []
  handled : (s.handled.map Handled.item).Perm ((doneTasks s.tasks).flatMap fun i => s.slice service i s.queued)
  all : ∀ h ∈ s.handled, h.handling.isTurned = true
  turned : ∀ item ∈ s.queued, item ∈ s.listed ∨ s.Turned item
  kept : ∀ item ∈ s.added, item ∈ s.listed

theorem mem_of_mem_slice (member : item ∈ s.slice service i items) : item ∈ items :=
  List.mem_of_mem_drop (List.mem_of_mem_take member)

namespace Underway

section

variable (underway : Underway service s)
include underway

theorem mem_of_handled (member : h ∈ s.handled) : h.item ∈ s.queued := by
  have there := underway.handled.subset (List.mem_map_of_mem member)
  obtain ⟨i,_,here⟩ := List.mem_flatMap.mp there
  exact mem_of_mem_slice here

theorem not_turned_of_added (member : item ∈ s.added) : ¬ s.Turned item := by
  rintro ⟨h,there,rfl,_⟩
  have early := underway.numbered _ (underway.mem_of_handled there)
  have late := underway.fresh.2 _ member
  omega

theorem count_le (item : DeferredItem) : (s.handled.map Handled.item).count item ≤ 1 := by
  rw [underway.handled.count_eq]
  have part : ((doneTasks s.tasks).flatMap fun i => s.slice service i s.queued).Sublist
      ((List.range (s.numBatches service)).flatMap fun i => s.slice service i s.queued) := by
    have tasks : (doneTasks s.tasks).Sublist (List.range (s.numBatches service)) :=
      List.filter_sublist.trans (List.range_sublist.mpr underway.offered.1)
    exact tasks.flatMap _
  rw [flatMap_slice] at part
  exact (part.count_le item).trans (List.nodup_iff_count_le_one.mp underway.distinct item)

theorem covered : Covered s :=
  ⟨fun item _ => underway.count_le item,fun item member off => (underway.turned item member).resolve_left off,
    underway.kept⟩

theorem count_eq (complete : s.Complete) (member : item ∈ s.queued) :
    (s.handled.map Handled.item).count item = 1 := by
  have ended : doneTasks s.tasks = List.range (s.numBatches service) := by
    rw [doneTasks,underway.offered.2 complete.1,List.filter_eq_self.mpr]
    intro i below
    have bound : i < s.tasks.length := by
      rw [underway.offered.2 complete.1]
      exact List.mem_range.mp below
    obtain ⟨processed,failed,is⟩ := complete.2 _ (List.getElem_mem bound)
    simp only [doneAt,List.getElem?_eq_getElem bound,is]
  rw [underway.handled.count_eq,ended,flatMap_slice]
  exact List.count_eq_one_of_mem underway.distinct member

end

theorem list_append (lists : List (List DeferredItem)) (more : List DeferredItem) (bound : a < lists.length) :
    (lists ++ [more]).getD a [] = lists.getD a [] := by
  simp [List.getD_eq_getElem?_getD,List.getElem?_append_left bound]

theorem list_new (lists : List (List DeferredItem)) (more : List DeferredItem) :
    (lists ++ [more]).getD lists.length [] = more := by
  simp [List.getD_eq_getElem?_getD]

theorem list_push (lists : List (List DeferredItem)) (item : DeferredItem) (bound : a < lists.length) (b : Nat) :
    (lists.modify a (· ++ [item])).getD b [] = if a = b then lists.getD b [] ++ [item] else lists.getD b [] := by
  simp only [List.getD_eq_getElem?_getD,List.getElem?_modify]
  by_cases same : a = b
  · subst same
    simp [List.getElem?_eq_getElem bound]
  · simp [same]

theorem offer (underway : Underway service s) : Underway service (s.offer service) := by
  unfold Deferral.offer
  split
  next more =>
    constructor
    · exact underway.distinct
    · exact underway.numbered
    · exact underway.fresh
    · refine ⟨?_,fun ended => ?_⟩
      · rw [List.length_append,List.length_singleton]
        exact more.2
      · rw [more.1] at ended
        cases ended
    · exact underway.valid
    · intro i a batch is
      rcases Nat.lt_or_ge i s.tasks.length with below | above
      · rw [List.getElem?_append_left below] at is
        exact underway.running i a batch is
      · rw [List.getElem?_append_right above] at is
        cases gap : i - s.tasks.length with
        | zero => simp [gap] at is
        | succ n => simp [gap] at is
    · rw [doneTasks_append]
      exact underway.handled
    · exact underway.all
    · exact underway.turned
    · exact underway.kept
  next => exact underway

theorem clear (underway : Underway service s)
    (settled : s.queueing = true → s.tasks.length = s.numBatches service → ∀ item ∈ s.listed, s.Turned item) :
    Underway service (s.clear service) := by
  unfold Deferral.clear
  split
  next ended =>
    have all := settled ended.1 ended.2
    constructor
    · exact underway.distinct
    · exact underway.numbered
    · exact underway.fresh
    · exact ⟨underway.offered.1,fun _ => ended.2⟩
    · exact ⟨fun _ is => (Option.some_ne_none _ is.symm).elim,underway.valid.2⟩
    · exact underway.running
    · exact underway.handled
    · exact underway.all
    · exact fun item member => .inr ((underway.turned item member).elim (all item) id)
    · exact fun item member => absurd (all item (underway.kept item member)) (underway.not_turned_of_added member)
  next => exact underway

theorem start (underway : Underway service s) (i : Nat)
    (ready : s.tasks[i]? = some .waiting → service.findSymbolByName s.symbolName ≠ [] ∧
      s.slice service i s.listed = s.slice service i s.queued) : Underway service (s.start service i) := by
  cases is : s.tasks[i]? with
  | none =>
    simp only [Deferral.start,is]
    exact underway
  | some task =>
    cases task with
    | running a batch =>
      simp only [Deferral.start,is]
      exact underway
    | done processed failed =>
      simp only [Deferral.start,is]
      exact underway
    | waiting =>
      obtain ⟨found,own⟩ := ready is
      have below := (List.getElem?_eq_some_iff.mp is).1
      cases current : s.current with
      | none =>
        have nothing : s.listed = [] := by rw [listed,current]; rfl
        rw [nothing,slice,List.drop_nil,List.take_nil] at own
        exact absurd own.symm (slice_ne_nil s (below.trans_le underway.offered.1))
      | some a =>
        have here : s.listed = s.list a := by rw [listed,current]; rfl
        have some_ : (service.findSymbolByName s.symbolName).isEmpty = false := by simpa using found
        have after : s.start service i =
            { s with tasks := s.tasks.set i (.running a (s.slice service i (s.list a))) } := by
          simp only [Deferral.start,is,current,some_,Bool.false_eq_true,if_false]
        rw [here] at own
        rw [after]
        constructor
        · exact underway.distinct
        · exact underway.numbered
        · exact underway.fresh
        · rw [List.length_set]
          exact underway.offered
        · exact underway.valid
        · intro j b batch running
          by_cases same : i = j
          · subst same
            rw [List.getElem?_set_self below] at running
            cases running
            exact ⟨own,own,underway.valid.1 a current,found⟩
          · rw [List.getElem?_set_ne same] at running
            exact underway.running j b batch running
        · rw [doneTasks_running is]
          exact underway.handled
        · exact underway.all
        · exact underway.turned
        · exact underway.kept

theorem slice_same {t : Deferral} (queued : t.queued = s.queued) (i : Nat) (items : List DeferredItem) :
    t.slice service i items = s.slice service i items := by
  rw [slice,slice,endIndex,endIndex,queued]

theorem numBatches_same {t : Deferral} (queued : t.queued = s.queued) : t.numBatches service = s.numBatches service := by
  rw [numBatches,queued,numBatches]

/-- What the end of a task leaves: the list without its positions, as a new object. -/
structure Ended (service : DeferredService) (s : Deferral) (i a : Nat) (batch : List DeferredItem) (t : Deferral) : Prop where
  queued : t.queued = s.queued
  frame : t.symbolName = s.symbolName ∧ t.queueing = s.queueing ∧ t.own = s.own ∧ t.made = s.made ∧ t.added = s.added
  tasks : ∃ processed failed, t.tasks = s.tasks.set i (.done processed failed)
  handled : t.handled = s.handled ++ batch.map fun item => ⟨i,item,s.target service item⟩
  listed : t.listed = s.besides service i (s.list a)
  lists : ∀ b, b < s.lists.length → t.list b = s.list b
  longer : s.lists.length ≤ t.lists.length
  current : ∀ b, t.current = some b → b < t.lists.length

theorem finish_spec (is : s.tasks[i]? = some (.running a batch)) : Ended service s i a batch (s.finish service i) := by
  generalize after : s.finish service i = t
  simp only [Deferral.finish,is] at after
  subst after
  constructor
  · rfl
  · exact ⟨rfl,rfl,rfl,rfl,rfl⟩
  · exact ⟨_,_,rfl⟩
  · rfl
  · rw [Deferral.listed]
    dsimp only
    cases remaining : s.besides service i (s.list a) with
    | nil => rfl
    | cons first rest => exact list_new s.lists _
  · intro b bound
    rw [list]
    dsimp only
    split
    · rfl
    · exact list_append s.lists _ bound
  · dsimp only
    split
    · exact Nat.le_refl _
    · rw [List.length_append]
      exact Nat.le_add_right _ _
  · intro b is
    dsimp only at is ⊢
    split at is
    next => cases is
    next some_ =>
      obtain rfl := Option.some.inj is
      rw [if_neg some_,List.length_append]
      exact Nat.lt_succ_self _

theorem finish (underway : Underway service s) (succeeds : ∀ a b edge, service.addEdge a b edge = true) (i : Nat)
    (same : ∀ a batch, s.tasks[i]? = some (.running a batch) → ∀ item ∈ s.listed, item ∈ s.list a ∨ s.Turned item) :
    Underway service (s.finish service i) := by
  cases is : s.tasks[i]? with
  | none =>
    simp only [Deferral.finish,is]
    exact underway
  | some task =>
    cases task with
    | waiting =>
      simp only [Deferral.finish,is]
      exact underway
    | done processed failed =>
      simp only [Deferral.finish,is]
      exact underway
    | running a batch =>
      obtain ⟨rfl,full,valid,found⟩ := underway.running i a batch is
      have there := same a _ is
      have ended := @finish_spec service s i a _ is
      generalize s.finish service i = t at ended
      obtain ⟨queued,⟨name,queueing,own,made,added⟩,⟨processed,failed,tasks⟩,handled,listed,lists,longer,current⟩ := ended
      have turned {item : DeferredItem} (before : s.Turned item) : t.Turned item := by
        obtain ⟨h,member,is⟩ := before
        exact ⟨h,handled ▸ List.mem_append_left _ member,is⟩
      have ownTurned {item : DeferredItem} (member : item ∈ s.slice service i s.queued) : t.Turned item :=
        ⟨⟨i,item,s.target service item⟩,handled ▸ List.mem_append_right _ (List.mem_map_of_mem member),rfl,
          turned_target succeeds s found item⟩
      constructor
      · rw [queued]
        exact underway.distinct
      · rw [queued]
        exact underway.numbered
      · rw [queued,made,added]
        exact underway.fresh
      · rw [tasks,List.length_set,numBatches_same queued,queueing]
        exact underway.offered
      · rw [own]
        exact ⟨current,fun b is => (underway.valid.2 b is).trans_le longer⟩
      · intro j b batch running
        rw [tasks] at running
        have apart : i ≠ j := by
          rintro rfl
          rw [List.getElem?_set_self (List.getElem?_eq_some_iff.mp is).1] at running
          cases running
        rw [List.getElem?_set_ne apart] at running
        obtain ⟨own,full,valid,found⟩ := underway.running j b batch running
        rw [slice_same queued,slice_same queued,queued,lists b valid,name]
        exact ⟨own,full,valid.trans_le longer,found⟩
      · have more : (doneTasks t.tasks).Perm (i :: doneTasks s.tasks) := tasks ▸ doneTasks_done is _ _
        have batch : (s.slice service i s.queued).map (Handled.item ∘ fun item =>
            (⟨i,item,s.target service item⟩ : Handled)) = s.slice service i s.queued := List.map_id _
        simp only [slice_same queued,queued]
        refine .trans ?_ (more.flatMap_right _).symm
        rw [handled,List.map_append,List.map_map,batch,List.flatMap_cons]
        exact List.perm_append_comm.trans (underway.handled.append_left _)
      · intro h member
        rw [handled] at member
        rcases List.mem_append.mp member with old | new
        · exact underway.all h old
        · obtain ⟨item,_,rfl⟩ := List.mem_map.mp new
          exact turned_target succeeds s found item
      · intro item member
        rw [queued] at member
        rcases underway.turned item member with on | before
        · rcases there item on with still | before
          · rw [listed]
            refine (mem_besides_or_slice s i still).imp id fun inner => ownTurned ?_
            rw [← full]
            exact inner
          · exact .inr (turned before)
        · exact .inr (turned before)
      · intro item member
        rw [added] at member
        have still := (there item (underway.kept item member)).resolve_right (underway.not_turned_of_added member)
        rw [listed]
        refine (mem_besides_or_slice s i still).resolve_right fun inner => ?_
        rw [full] at inner
        have early := underway.numbered item (mem_of_mem_slice inner)
        have late := underway.fresh.2 item member
        omega

structure Added (s : Deferral) (new : DeferredItem) (t : Deferral) : Prop where
  queued : t.queued = s.queued
  frame : t.tasks = s.tasks ∧ t.handled = s.handled ∧ t.queueing = s.queueing ∧ t.symbolName = s.symbolName
  made : t.made = s.made + 1
  added : t.added = s.added ++ [new]
  listed : t.listed = (s.own.map s.list).getD [] ++ [new]
  lists : ∀ b, b < s.lists.length → t.list b = s.list b ∨ t.list b = s.list b ++ [new]
  longer : s.lists.length ≤ t.lists.length
  valid : (∀ b, t.current = some b → b < t.lists.length) ∧ ∀ b, t.own = some b → b < t.lists.length

theorem add_spec {reference : DeferredReference} (filed : (service.heap reference.sourceSymbol).fileUri ≠ "")
    (owned : ∀ a, s.own = some a → a < s.lists.length) :
    Added s ⟨s.made,reference⟩ (s.add service reference) := by
  generalize after : s.add service reference = t
  rw [Deferral.add,if_neg filed] at after
  cases own : s.own with
  | none =>
    simp only [own] at after
    subst after
    have bound : s.lists.length < (s.lists ++ [[(⟨s.made,reference⟩ : DeferredItem)]]).length := by simp
    refine ⟨rfl,⟨rfl,rfl,rfl,rfl⟩,rfl,rfl,?_,fun b bound => .inl (list_append s.lists _ bound),bound.le,?_,?_⟩
    · rw [own]
      exact list_new s.lists _
    · exact fun b is => Option.some.inj is ▸ bound
    · exact fun b is => Option.some.inj is ▸ bound
  | some a =>
    simp only [own] at after
    subst after
    have pushed := list_push s.lists ⟨s.made,reference⟩ (owned a own)
    have bound : a < (s.lists.modify a (· ++ [(⟨s.made,reference⟩ : DeferredItem)])).length := by
      rw [List.length_modify]
      exact owned a own
    refine ⟨rfl,⟨rfl,rfl,rfl,rfl⟩,rfl,rfl,?_,fun b _ => ?_,(List.length_modify ..).ge,?_,?_⟩
    · rw [own]
      exact (pushed a).trans (if_pos rfl)
    · by_cases here : a = b
      · exact .inr ((pushed b).trans (if_pos here))
      · exact .inl ((pushed b).trans (if_neg here))
    · exact fun b is => Option.some.inj is ▸ bound
    · exact fun b is => Option.some.inj is ▸ bound

theorem add (underway : Underway service s) (reference : DeferredReference)
    (same : (service.heap reference.sourceSymbol).fileUri ≠ "" →
      ∀ item ∈ s.listed, item ∈ (s.own.map s.list).getD [] ∨ s.Turned item) :
    Underway service (s.add service reference) := by
  by_cases empty : (service.heap reference.sourceSymbol).fileUri = ""
  · rw [Deferral.add,if_pos empty]
    exact underway
  · have there := same empty
    have spec := @add_spec service s reference empty underway.valid.2
    generalize s.add service reference = t at spec
    obtain ⟨queued,⟨tasks,handled,queueing,name⟩,made,added,listed,lists,longer,valid⟩ := spec
    have turned {item : DeferredItem} : t.Turned item ↔ s.Turned item := by rw [Turned,Turned,handled]
    have still {item : DeferredItem} (on : item ∈ s.listed) : item ∈ t.listed ∨ s.Turned item := by
      rw [listed]
      exact (there item on).imp (List.mem_append_left _) id
    constructor
    · rw [queued]
      exact underway.distinct
    · rw [queued]
      exact underway.numbered
    · rw [queued,made,added]
      refine ⟨Nat.le_succ_of_le underway.fresh.1,fun item member => ?_⟩
      rcases List.mem_append.mp member with old | new
      · exact underway.fresh.2 item old
      · rw [List.mem_singleton.mp new]
        exact underway.fresh.1
    · rw [tasks,numBatches_same queued,queueing]
      exact underway.offered
    · exact valid
    · intro i b batch running
      rw [tasks] at running
      obtain ⟨own,full,bound,found⟩ := underway.running i b batch running
      rw [slice_same queued,slice_same queued,queued,name]
      refine ⟨own,?_,bound.trans_le longer,found⟩
      rcases lists b bound with kept | pushed
      · rw [kept]
        exact full
      · rw [pushed]
        have below := (List.getElem?_eq_some_iff.mp running).1
        exact slice_push s (below.trans_le underway.offered.1) _ full
    · simp only [slice_same queued,queued,tasks,handled]
      exact underway.handled
    · rw [handled]
      exact underway.all
    · intro item member
      rw [queued] at member
      rw [turned]
      exact (underway.turned item member).elim still .inr
    · intro item member
      rw [added] at member
      rcases List.mem_append.mp member with old | new
      · exact (still (underway.kept item old)).resolve_right (underway.not_turned_of_added old)
      · rw [listed]
        exact List.mem_append_right _ new

theorem step (underway : Underway service s) (succeeds : ∀ a b edge, service.addEdge a b edge = true) (e : BatchEvent)
    (orderly : Orderly service s e) : Underway service (s.step service e) := by
  cases e with
  | offer => exact underway.offer
  | clear => exact underway.clear orderly
  | start i => exact underway.start i orderly
  | finish i => exact underway.finish succeeds i orderly
  | add reference => exact underway.add reference orderly
  | sync =>
    exact ⟨underway.distinct,underway.numbered,underway.fresh,underway.offered,
      ⟨underway.valid.1,underway.valid.1⟩,underway.running,underway.handled,underway.all,underway.turned,underway.kept⟩

end Underway

theorem called_underway (service : DeferredService) (symbolName : String) (references : List DeferredReference) :
    Underway service (called symbolName references) := by
  have objects : (called symbolName references).queued.map DeferredItem.object = List.range references.length := by
    refine List.ext_getElem (by simp [called]) fun i _ _ => ?_
    simp [called]
  have length : (called symbolName references).queued.length = references.length := List.length_mapIdx
  constructor
  · exact List.Nodup.of_map DeferredItem.object (objects ▸ List.nodup_range)
  · intro item member
    have there : item.object ∈ List.range references.length := objects ▸ List.mem_map_of_mem member
    rw [length]
    exact List.mem_range.mp there
  · exact ⟨length.le,fun item member => absurd member List.not_mem_nil⟩
  · refine ⟨Nat.zero_le _,fun ended => ?_⟩
    have nothing : references = [] := by simpa [called] using ended
    subst nothing
    have positive := batchSize_pos service
    rw [numBatches,show (called symbolName []).queued.length = 0 from rfl,Nat.div_eq_of_lt (by omega)]
    rfl
  · exact ⟨fun a is => by obtain rfl := Option.some.inj is; exact Nat.one_pos,
      fun a is => by obtain rfl := Option.some.inj is; exact Nat.one_pos⟩
  · intro i a batch running
    cases running
  · exact .nil
  · exact fun h member => absurd member List.not_mem_nil
  · exact fun item member => .inl member
  · exact fun item member => absurd member List.not_mem_nil

theorem step_queued (service : DeferredService) (s : Deferral) (e : BatchEvent) :
    (s.step service e).queued = s.queued := by
  cases e with
  | offer =>
    simp only [Deferral.step,Deferral.offer]
    split <;> rfl
  | clear =>
    simp only [Deferral.step,Deferral.clear]
    split <;> rfl
  | start i =>
    simp only [Deferral.step,Deferral.start]
    split
    · split
      · rfl
      · split <;> rfl
    · rfl
  | finish i =>
    simp only [Deferral.step,Deferral.finish]
    split <;> rfl
  | add reference =>
    simp only [Deferral.step,Deferral.add]
    split
    · rfl
    · cases s.own <;> rfl
  | sync => rfl

/-- The tasks of an orderly run cover the list: at every time, and wholly once all have run. -/
theorem batches_cover (service : DeferredService) (succeeds : ∀ a b edge, service.addEdge a b edge = true)
    (symbolName : String) (references : List DeferredReference) (events : List BatchEvent)
    (orderly : EveryStep (Deferral.step service) (Orderly service) (called symbolName references) events) :
    EveryState (Deferral.step service) Covered (called symbolName references) events ∧
      ((run (Deferral.step service) (called symbolName references) events).Complete →
        ∀ item ∈ (called symbolName references).queued,
          ((run (Deferral.step service) (called symbolName references) events).handled.map Handled.item).count item = 1) := by
  have always := everyState_of_everyStep (I := Underway service)
    (fun s e underway orderly => underway.step succeeds e orderly) (called_underway service symbolName references) orderly
  refine ⟨fun front initial => (always front initial).covered,fun complete item member => ?_⟩
  have queued : (run (Deferral.step service) (called symbolName references) events).queued =
      (called symbolName references).queued :=
    run_invariant (I := fun s => s.queued = (called symbolName references).queued)
      (fun s e same => (step_queued service s e).trans same) rfl events
  exact always.last.count_eq complete (queued ▸ member)

def twoClasses (batchSize : Nat) : DeferredService where
  heap
    | .declared 0 => ⟨"s","Source",.class_,default,"file:///Source.cls",.null,{},none,none,none,none,{},none,none,none,none,
        none,none,none,none,none,none⟩
    | _ => ⟨"t","Target",.class_,default,"file:///Target.cls",.null,{},none,none,none,none,{},none,none,none,none,none,
        none,none,none,none,none⟩
  findSymbolByName name := if name = "Source" then [.declared 0] else if name = "Target" then [.declared 1] else []
  getSymbolId symbol _ := symbol.id
  addEdge _ _ _ := true
  deferredBatchSize := batchSize

def bothStartFirst : List BatchEvent := [.offer,.start 0,.offer,.start 1,.finish 1,.finish 0,.clear]

theorem batches_cover_two : EveryState (Deferral.step (twoClasses 1)) Covered
      (called "Target" [⟨.declared 0,.typeReference,default,none,none⟩,⟨.declared 0,.methodCall,default,none,none⟩])
      bothStartFirst ∧
    ((run (Deferral.step (twoClasses 1))
        (called "Target" [⟨.declared 0,.typeReference,default,none,none⟩,⟨.declared 0,.methodCall,default,none,none⟩])
        bothStartFirst).Complete →
      ∀ item ∈ (called "Target"
          [⟨.declared 0,.typeReference,default,none,none⟩,⟨.declared 0,.methodCall,default,none,none⟩]).queued,
        ((run (Deferral.step (twoClasses 1))
          (called "Target" [⟨.declared 0,.typeReference,default,none,none⟩,⟨.declared 0,.methodCall,default,none,none⟩])
          bothStartFirst).handled.map Handled.item).count item = 1) := by
  refine batches_cover (twoClasses 1) (fun _ _ _ => rfl) "Target" _ bothStartFirst ?_
  refine ⟨trivial,fun _ => ⟨by decide,by decide⟩,trivial,fun _ => ⟨by decide,by decide⟩,?_,?_,?_,trivial⟩
  · intro a batch is item member
    cases is
    exact .inl member
  · intro a batch is item member
    cases is
    refine .inl ?_
    revert item
    decide
  · intro _ _ item member
    obtain rfl := List.mem_singleton.mp member
    exact ⟨_,.head _,rfl,rfl⟩

/-- The task of a single reference runs after the list was deleted. -/
theorem queued_reference_lost : ¬ EveryState (Deferral.step (twoClasses 10)) Covered
    (called "Target" [⟨.declared 0,.typeReference,default,none,none⟩]) [.offer,.clear,.start 0] := by
  intro always
  obtain ⟨h,member,_⟩ := always.last.turned ⟨0,.declared 0,.typeReference,default,none,none⟩ (by decide) (by decide)
  exact absurd member List.not_mem_nil

end Deferral
end ApexLs.Symbols
