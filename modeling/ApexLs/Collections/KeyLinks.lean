import Mathlib.Data.List.Nodup
import ApexLs.Collections.OrderedMap

/-! A doubly linked list of distinct keys, held in two maps and two ends. Its operations are stated over the list that
the links represent. -/
namespace ApexLs.Collections

variable {κ : Type u} [DecidableEq κ]

structure KeyLinks (κ : Type u) [DecidableEq κ] where
  prev : OrderedMap κ (Option κ) := .empty
  next : OrderedMap κ (Option κ) := .empty
  head : Option κ := none
  tail : Option κ := none

namespace KeyLinks

def tracks (m : KeyLinks κ) (key : κ) : Bool :=
  m.head = some key || m.tail = some key || m.prev.has key || m.next.has key

def unlink (m : KeyLinks κ) (prev next : Option κ) : KeyLinks κ :=
  let m := match prev with
    | some p => { m with next := m.next.set p next }
    | none => { m with head := next }
  match next with
  | some n => { m with prev := m.prev.set n prev }
  | none => { m with tail := prev }

def remove (m : KeyLinks κ) (key : κ) : KeyLinks κ :=
  if m.tracks key then
    let m := m.unlink (m.prev.get? key).join (m.next.get? key).join
    { m with prev := m.prev.erase key,next := m.next.erase key }
  else m

def append (m : KeyLinks κ) (key : κ) : KeyLinks κ :=
  let next := m.next.set key none
  { prev := m.prev.set key m.tail
    next := match m.tail with
      | some last => next.set last (some key)
      | none => next
    head := if m.tail.isSome then m.head else some key
    tail := some key }

structure Lists (m : KeyLinks κ) (l : List κ) : Prop where
  nodup : l.Nodup
  head : m.head = l.head?
  tail : m.tail = l.getLast?
  inner : ∀ front key back, l = front ++ key :: back →
    m.prev.get? key = some front.getLast? ∧ m.next.get? key = some back.head?
  outer : ∀ key ∉ l, m.prev.get? key = none ∧ m.next.get? key = none

variable {m : KeyLinks κ} {l front back : List κ} {key : κ}

theorem lists_empty : Lists ({} : KeyLinks κ) [] := by
  refine ⟨List.nodup_nil,rfl,rfl,fun front key back cut => ?_,fun key _ => ⟨rfl,rfl⟩⟩
  simp at cut

theorem Lists.tracks_iff (lists : Lists m l) : m.tracks key = true ↔ key ∈ l := by
  constructor
  · intro tracked
    by_contra other
    obtain ⟨prev,next⟩ := lists.outer key other
    have first : m.head ≠ some key := fun is => other (List.mem_of_mem_head? (lists.head ▸ is))
    have last : m.tail ≠ some key := fun is => other (List.mem_of_mem_getLast? (lists.tail ▸ is))
    simp [tracks,first,last,OrderedMap.has,prev,next] at tracked
  · intro member
    obtain ⟨front,back,cut⟩ := List.append_of_mem member
    obtain ⟨prev,_⟩ := lists.inner front key back cut
    simp [tracks,OrderedMap.has,prev]

theorem Lists.remove_of_not_mem (lists : Lists m l) (other : key ∉ l) : m.remove key = m :=
  if_neg fun tracked => other (lists.tracks_iff.mp tracked)

theorem unlink_spec (m : KeyLinks κ) (prev next : Option κ) :
    (∀ x, (m.unlink prev next).prev.get? x = if next = some x then some prev else m.prev.get? x) ∧
    (∀ x, (m.unlink prev next).next.get? x = if prev = some x then some next else m.next.get? x) ∧
    (m.unlink prev next).head = (if prev.isSome then m.head else next) ∧
    (m.unlink prev next).tail = (if next.isSome then m.tail else prev) := by
  have flip (a b : κ) : a = b ↔ b = a := eq_comm
  cases prev with
  | none =>
    cases next with
    | none => simp [unlink]
    | some n => simp [unlink,OrderedMap.get?_set,flip n]
  | some p =>
    cases next with
    | none => simp [unlink,OrderedMap.get?_set,flip p]
    | some n => simp [unlink,OrderedMap.get?_set,flip p,flip n]

omit [DecidableEq κ] in
theorem getLast?_ne {x c : κ} (unique : (front ++ x :: c :: back).Nodup) : (front ++ x :: c :: back).getLast? ≠ some x := by
  intro last
  rw [List.nodup_append,List.nodup_cons] at unique
  refine unique.2.1.1 (List.mem_of_mem_getLast? ?_)
  simpa [List.getLast?_append,List.getLast?_cons] using last

theorem Lists.remove_cut (lists : Lists m (front ++ key :: back)) : Lists (m.remove key) (front ++ back) := by
  obtain ⟨prev,next⟩ := lists.inner front key back rfl
  obtain ⟨prevs,nexts,head,tail⟩ := unlink_spec m front.getLast? back.head?
  have removed : m.remove key = { m.unlink front.getLast? back.head? with
      prev := (m.unlink front.getLast? back.head?).prev.erase key
      next := (m.unlink front.getLast? back.head?).next.erase key } := by
    have tracked : m.tracks key = true := lists.tracks_iff.mpr (by simp)
    rw [remove,if_pos tracked,prev,next]
    rfl
  rw [removed]
  have unique := lists.nodup
  rw [List.nodup_append,List.nodup_cons] at unique
  obtain ⟨uniqueFront,⟨apartBack,uniqueBack⟩,disjoint⟩ := unique
  have apartFront : key ∉ front := fun member => disjoint key member key (by simp) rfl
  constructor
  · rw [List.nodup_append]
    exact ⟨uniqueFront,uniqueBack,fun a early b late => disjoint a early b (.tail _ late)⟩
  · dsimp only
    rw [head,lists.head]
    cases front with
    | nil => simp
    | cons a front => simp [List.getLast?_cons]
  · dsimp only
    rw [tail,lists.tail]
    cases back with
    | nil => simp
    | cons b back => simp [List.getLast?_append,List.getLast?_cons]
  · intro f x b cut
    dsimp only
    rw [OrderedMap.get?_erase,OrderedMap.get?_erase,prevs,nexts]
    have there : x ∈ front ++ back := by simp [cut]
    have other : x ≠ key := by
      rintro rfl
      exact (List.mem_append.mp there).elim apartFront apartBack
    rw [if_neg other,if_neg other]
    -- The key stands behind the one taken out, or in front of it.
    have sides : (∃ mid, f = front ++ mid ∧ back = mid ++ x :: b) ∨ ∃ mid, front = f ++ x :: mid ∧ b = mid ++ back := by
      rcases List.append_eq_append_iff.mp cut with ⟨mid,rfl,rest⟩ | ⟨mid,rfl,rest⟩
      · exact .inl ⟨mid,rfl,rest⟩
      · cases mid with
        | nil => exact .inl ⟨[],by simp,by simpa using rest.symm⟩
        | cons c mid =>
          obtain ⟨same,behind⟩ := List.cons.inj rest
          exact .inr ⟨mid,by rw [same],behind⟩
    rcases sides with ⟨mid,rfl,rfl⟩ | ⟨mid,rfl,rfl⟩
    · obtain ⟨before,after⟩ := lists.inner (front ++ key :: mid) x b (by simp)
      have apart : front.getLast? ≠ some x := fun last =>
        disjoint x (List.mem_of_mem_getLast? last) x (by simp) rfl
      rw [before,after,if_neg apart]
      cases mid with
      | nil => simp
      | cons c mid =>
        have apart' : c ≠ x := by
          rintro rfl
          exact (List.nodup_cons.mp uniqueBack).1 (by simp)
        simp [apart',List.getLast?_append,List.getLast?_cons]
    · obtain ⟨before,after⟩ := lists.inner f x (mid ++ key :: back) (by simp)
      have apart : back.head? ≠ some x := fun first =>
        disjoint x (by simp) x (.tail _ (List.mem_of_mem_head? first)) rfl
      rw [before,after,if_neg apart]
      refine ⟨rfl,?_⟩
      cases mid with
      | nil => simp
      | cons c mid =>
        rw [if_neg (getLast?_ne uniqueFront)]
        rfl
  · intro x absent
    obtain ⟨notFront,notBack⟩ := not_or.mp (mt List.mem_append.mpr absent)
    dsimp only
    rw [OrderedMap.get?_erase,OrderedMap.get?_erase,prevs,nexts]
    have first : back.head? ≠ some x := fun is => notBack (List.mem_of_mem_head? is)
    have last : front.getLast? ≠ some x := fun is => notFront (List.mem_of_mem_getLast? is)
    by_cases same : x = key
    · simp [same]
    · obtain ⟨before,after⟩ := lists.outer x (by simp [notFront,notBack,same])
      simp [same,first,last,before,after]

theorem Lists.remove (lists : Lists m l) (key : κ) : Lists (m.remove key) (l.erase key) := by
  by_cases member : key ∈ l
  · obtain ⟨front,back,rfl,other⟩ := List.eq_append_cons_of_mem member
    rw [List.erase_append_right _ other,List.erase_cons_head]
    exact lists.remove_cut
  · rw [lists.remove_of_not_mem member,List.erase_of_not_mem member]
    exact lists

theorem Lists.append (lists : Lists m l) (other : key ∉ l) : Lists (m.append key) (l ++ [key]) := by
  have prevs (x : κ) : (m.append key).prev.get? x = if x = key then some l.getLast? else m.prev.get? x := by
    rw [← lists.tail]
    exact OrderedMap.get?_set _ _ _ _
  have nexts (x : κ) : (m.append key).next.get? x =
      if l.getLast? = some x then some (some key) else if x = key then some none else m.next.get? x := by
    rw [KeyLinks.append,← lists.tail]
    cases m.tail with
    | none => simp [OrderedMap.get?_set]
    | some last =>
      by_cases same : x = last
      · simp [same]
      · simp [OrderedMap.get?_set,same,Ne.symm same]
  constructor
  · rw [List.nodup_append]
    refine ⟨lists.nodup,List.nodup_singleton key,fun a member b is => ?_⟩
    rw [List.mem_singleton.mp is]
    exact fun same => other (same ▸ member)
  · have head : (m.append key).head = if m.tail.isSome then m.head else some key := rfl
    rw [head,lists.head,lists.tail]
    cases l with
    | nil => rfl
    | cons a l => simp [List.getLast?_cons]
  · exact List.getLast?_concat.symm
  · intro f x b cut
    rw [prevs,nexts]
    rcases List.eq_nil_or_concat b with rfl | ⟨b,last,rfl⟩
    · -- the new key itself
      obtain ⟨rfl,is⟩ := List.append_inj' cut rfl
      obtain rfl := List.singleton_inj.mp is
      have apart : l.getLast? ≠ some key := fun last => other (List.mem_of_mem_getLast? last)
      simp [apart]
    · have whole : l ++ [key] = (f ++ x :: b) ++ [last] := by simpa using cut
      obtain ⟨rfl,is⟩ := List.append_inj' whole rfl
      obtain rfl := List.singleton_inj.mp is
      have apart : x ≠ key := fun same => other (by simp [same])
      obtain ⟨before,after⟩ := lists.inner f x b rfl
      rw [if_neg apart,if_neg apart,before,after]
      refine ⟨rfl,?_⟩
      cases b with
      | nil => simp
      | cons c b =>
        rw [if_neg (getLast?_ne lists.nodup)]
        rfl
  · intro x absent
    obtain ⟨absent',apart⟩ : x ∉ l ∧ x ≠ key := by simpa using absent
    obtain ⟨before,after⟩ := lists.outer x absent'
    have last : l.getLast? ≠ some x := fun is => absent' (List.mem_of_mem_getLast? is)
    rw [prevs,nexts,if_neg apart,if_neg last,if_neg apart]
    exact ⟨before,after⟩

end KeyLinks
end ApexLs.Collections
