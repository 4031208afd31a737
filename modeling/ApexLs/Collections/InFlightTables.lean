import ApexLs.Collections.OrderedMap

/-! Jobs under keys, and a table of those in flight, by which a later caller may join a job. The table gives the
pending jobs and no others, if a job enters it pending and leaves it when it settles. -/
namespace ApexLs.Collections

variable {κ : Type u} {π : Type v} {ρ : Type w}

structure Job (κ : Type u) (π : Type v) (ρ : Type w) where
  key : κ
  task : π
  result : Option ρ := none

def Pending (jobs : List (Job κ π ρ)) (key : κ) (i : Nat) : Prop :=
  ∃ job, jobs[i]? = some job ∧ job.key = key ∧ job.result = none

def settleJob (jobs : List (Job κ π ρ)) (i : Nat) (result : ρ) : List (Job κ π ρ) :=
  jobs.modify i fun job => { job with result := job.result.or (some result) }

variable {jobs : List (Job κ π ρ)} {key other : κ} {i j : Nat}

theorem Pending.lt (pending : Pending jobs key i) : i < jobs.length := by
  obtain ⟨job,at_,-⟩ := pending
  exact (List.getElem?_eq_some_iff.mp at_).1

theorem getElem?_settleJob (jobs : List (Job κ π ρ)) (i j : Nat) (result : ρ) :
    (settleJob jobs i result)[j]? =
      (jobs[j]?).map fun job => if i = j then { job with result := job.result.or (some result) } else job := by
  rw [settleJob,List.getElem?_modify]
  split <;> simp

theorem mem_settleJob_of_settled {job : Job κ π ρ} {earlier result : ρ} (made : job ∈ jobs)
    (settled : job.result = some earlier) : job ∈ settleJob jobs i result := by
  obtain ⟨j,inside,rfl⟩ := List.getElem_of_mem made
  refine List.mem_of_getElem? (i := j) ?_
  rw [getElem?_settleJob,List.getElem?_eq_getElem inside,Option.map_some]
  split
  · rw [settled,Option.some_or,← settled]
  · rfl

theorem result_settleJob (pending : Pending jobs key i) (result : ρ) :
    ∃ job ∈ settleJob jobs i result, job.key = key ∧ job.result = some result := by
  obtain ⟨job,at_,under,unsettled⟩ := pending
  refine ⟨{ job with result := some result },List.mem_of_getElem? (i := i) ?_,under,rfl⟩
  rw [getElem?_settleJob,at_,Option.map_some,if_pos rfl,unsettled,Option.none_or]

theorem pending_settleJob (result : ρ) :
    Pending (settleJob jobs i result) key j ↔ i ≠ j ∧ Pending jobs key j := by
  constructor
  · rintro ⟨job,at_,under,unsettled⟩
    rw [getElem?_settleJob,Option.map_eq_some_iff] at at_
    obtain ⟨before,here,rfl⟩ := at_
    by_cases same : i = j
    · rw [if_pos same] at unsettled
      cases settled : before.result <;> simp [settled] at unsettled
    · rw [if_neg same] at under unsettled
      exact ⟨same,before,here,under,unsettled⟩
  · rintro ⟨apart,job,at_,under,unsettled⟩
    refine ⟨job,?_,under,unsettled⟩
    rw [getElem?_settleJob,at_,Option.map_some,if_neg apart]

theorem pending_append (job : Job κ π ρ) : Pending (jobs ++ [job]) key i ↔
    Pending jobs key i ∨ i = jobs.length ∧ job.key = key ∧ job.result = none := by
  by_cases inside : i < jobs.length
  · simp [Pending,List.getElem?_append_left inside,Nat.ne_of_lt inside]
  · have none_ : ¬Pending jobs key i := fun pending => inside pending.lt
    rw [Pending,List.getElem?_append_right (Nat.le_of_not_lt inside)]
    simp only [none_,false_or]
    constructor
    · rintro ⟨found,at_,rest⟩
      obtain ⟨zero,rfl⟩ := List.getElem?_eq_some_iff.mp at_
      simp only [List.length_singleton] at zero
      refine ⟨by omega,?_⟩
      simpa using rest
    · rintro ⟨rfl,rest⟩
      exact ⟨job,by simp,rest⟩

variable [DecidableEq κ]

def Tracks (table : OrderedMap κ Nat) (jobs : List (Job κ π ρ)) : Prop :=
  ∀ key i, table.get? key = some i ↔ Pending jobs key i

variable {table : OrderedMap κ Nat}

namespace Tracks

theorem empty : Tracks (.empty : OrderedMap κ Nat) ([] : List (Job κ π ρ)) := by
  intro key i
  simp [OrderedMap.empty,OrderedMap.get?,Pending]

theorem unique (tracks : Tracks table jobs) (first : Pending jobs key i) (second : Pending jobs key j) : i = j :=
  Option.some.inj (((tracks key i).mpr first).symm.trans ((tracks key j).mpr second))

theorem mem_keys (tracks : Tracks table jobs) : key ∈ table.keys ↔ ∃ i, Pending jobs key i := by
  rw [OrderedMap.mem_keys_iff]
  exact exists_congr fun i => tracks key i

theorem start (tracks : Tracks table jobs) (free : table.get? key = none) (task : π) :
    Tracks (table.set key jobs.length) (jobs ++ [⟨key,task,none⟩]) := by
  intro other i
  rw [OrderedMap.get?_set,pending_append]
  by_cases same : other = key
  · subst same
    have idle : ¬Pending jobs other i := by
      rw [← tracks other i,free]
      exact nofun
    simp [idle,eq_comm]
  · have apart : ¬key = other := Ne.symm same
    simp [same,apart,tracks other i]

theorem settle (tracks : Tracks table jobs) (pending : Pending jobs key i) (result : ρ) :
    Tracks (table.erase key) (settleJob jobs i result) := by
  intro other j
  rw [OrderedMap.get?_erase,pending_settleJob]
  by_cases same : other = key
  · subst same
    have only (here : Pending jobs other j) : i = j := tracks.unique pending here
    simp only [if_true,reduceCtorEq,false_iff,not_and]
    exact fun apart here => apart (only here)
  · have apart (here : Pending jobs other j) : i ≠ j := by
      rintro rfl
      obtain ⟨job,at_,under,-⟩ := pending
      obtain ⟨found,here,under',-⟩ := here
      cases at_.symm.trans here
      exact same (under'.symm.trans under)
    rw [if_neg same,tracks other j]
    exact ⟨fun here => ⟨apart here,here⟩,And.right⟩

end Tracks

end ApexLs.Collections
