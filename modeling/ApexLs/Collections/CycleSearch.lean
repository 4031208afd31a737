import Mathlib.Data.List.Chain
import Mathlib.Data.List.Nodup
import ApexLs.Collections.MarkingSearch

/-! A depth-first search for cycles. It enters every item once and keeps the path it stands on; where a successor
lies on that path, the rest of the path from there is a cycle. The successors of an item may be looked up in a state
that the lookups change. -/
namespace ApexLs.Collections.CycleSearch

variable {α : Type u} {σ : Type v}

/-- What a search has entered, the path it stands on (as a set and in order), and the cycles it has met. -/
structure Track (α : Type u) where
  visited : List α := []
  recursionStack : List α := []
  currentPath : List α := []
  cycles : List (List α) := []

namespace Track

def enter (t : Track α) (a : α) : Track α :=
  { t with visited := t.visited ++ [a],recursionStack := t.recursionStack ++ [a],currentPath := t.currentPath ++ [a] }

variable [DecidableEq α]

def leave (t : Track α) (a : α) : Track α :=
  { t with recursionStack := t.recursionStack.filter (· ≠ a),currentPath := t.currentPath.dropLast }

def close (t : Track α) (a : α) : Track α :=
  if a ∈ t.currentPath then { t with cycles := t.cycles ++ [t.currentPath.drop (t.currentPath.idxOf a)] } else t

end Track

section

variable [DecidableEq α] (successors : σ → α → List α × σ)

/-- A successor is entered where it is new, and closes a cycle where it is on the path. -/
def follow (search : α → σ × Track α → Option (σ × Track α)) (state : σ × Track α) (b : α) : Option (σ × Track α) :=
  if b ∉ state.2.visited then search b state
  else if b ∈ state.2.recursionStack then some (state.1,state.2.close b)
  else some state

def search : Nat → α → σ × Track α → Option (σ × Track α)
  | 0,_,_ => none
  | frames + 1,a,(s,t) =>
    let (found,s) := successors s a
    (found.foldlM (follow (search frames)) (s,t.enter a)).map fun state => (state.1,state.2.leave a)

def searchAll (frames : Nat) (items : List α) (state : σ × Track α) : Option (σ × Track α) :=
  items.foldlM (fun state a => if a ∉ state.2.visited then search successors frames a state else some state) state

end

variable (next : α → List α)

abbrev Link (a b : α) : Prop := b ∈ next a

structure IsCycle (c : List α) : Prop where
  linked : c.IsChain (Link next)
  once : c.Nodup
  closes : ∃ first last, c.head? = some first ∧ c.getLast? = some last ∧ Link next last first

/-- A search under way, with the items it has left in that order: their successors were left before, or lie on a
cycle that was met. -/
structure Underway (left : List α) (t : Track α) : Prop where
  stack : t.recursionStack = t.currentPath
  visited : ∀ a, a ∈ t.visited ↔ a ∈ left ∨ a ∈ t.currentPath
  once : (left ++ t.currentPath).Nodup
  linked : t.currentPath.IsChain (Link next)
  closed : ∀ front a back, left = front ++ a :: back → ∀ b ∈ next a, b ∈ front ∨ ∃ c ∈ t.cycles, b ∈ c
  genuine : ∀ c ∈ t.cycles, IsCycle next c
  met : ∀ c ∈ t.cycles, ∀ b ∈ c, b ∈ t.visited

/-- What a search from an item does: it leaves the item last, and the path as it was. -/
structure Left (before : List α) (a : α) (t t' : Track α) : Prop where
  path : t'.currentPath = t.currentPath
  cycles : ∀ c ∈ t.cycles, c ∈ t'.cycles
  under : ∃ more, Underway next (before ++ more ++ [a]) t'

variable {next}

theorem underway_empty : Underway next [] ({} : Track α) :=
  ⟨rfl,by simp,by simp,by simp,by simp,by simp,by simp⟩

theorem Underway.enter {left : List α} {t : Track α} (underway : Underway next left t) {a : α} (new : a ∉ t.visited)
    (link : ∀ last, t.currentPath.getLast? = some last → a ∈ next last) : Underway next left (t.enter a) where
  stack := congrArg (· ++ [a]) underway.stack
  visited b := by
    simp only [Track.enter,List.mem_append,underway.visited b,or_assoc]
  once := by
    have apart : a ∉ left ++ t.currentPath := by
      rw [List.mem_append,← underway.visited]
      exact new
    have grown := List.Nodup.concat apart underway.once
    rwa [List.concat_eq_append,List.append_assoc] at grown
  linked := by
    refine List.isChain_append.mpr ⟨underway.linked,List.isChain_singleton a,fun last is b here => ?_⟩
    obtain rfl : a = b := by simpa using here
    exact link last is
  closed := underway.closed
  genuine := underway.genuine
  met c member b inside := List.mem_append_left _ (underway.met c member b inside)

variable [DecidableEq α]

theorem Underway.close {left : List α} {t : Track α} (underway : Underway next left t) {path : List α} {a b : α}
    (at_ : t.currentPath = path ++ [a]) (onPath : b ∈ t.currentPath) (link : b ∈ next a) :
    Underway next left (t.close b) ∧ ∃ c ∈ (t.close b).cycles, b ∈ c := by
  have first : (t.currentPath.drop (t.currentPath.idxOf b)).head? = some b := by
    rw [List.head?_drop,List.getElem?_idxOf onPath]
  have last : (t.currentPath.drop (t.currentPath.idxOf b)).getLast? = some a := by
    rw [List.getLast?_drop,if_neg (Nat.not_le.mpr (List.idxOf_lt_length_of_mem onPath)),at_,List.getLast?_concat]
  have cycle : IsCycle next (t.currentPath.drop (t.currentPath.idxOf b)) := by
    refine ⟨underway.linked.drop _,?_,b,a,first,last,link⟩
    exact (List.nodup_append.mp underway.once).2.1.sublist (List.drop_sublist _ _)
  have closed : t.close b = { t with cycles := t.cycles ++ [t.currentPath.drop (t.currentPath.idxOf b)] } := if_pos onPath
  rw [closed]
  refine ⟨⟨underway.stack,underway.visited,underway.once,underway.linked,fun front x back cut y link => ?_,?_,?_⟩,
    _,List.mem_append_right _ (List.mem_singleton.mpr rfl),List.mem_of_mem_head? first⟩
  · rcases underway.closed front x back cut y link with earlier | ⟨c,member,inside⟩
    · exact .inl earlier
    · exact .inr ⟨c,List.mem_append_left _ member,inside⟩
  · intro c member
    rcases List.mem_append.mp member with old | new
    · exact underway.genuine c old
    · obtain rfl := List.mem_singleton.mp new
      exact cycle
  · intro c member x inside
    rcases List.mem_append.mp member with old | new
    · exact underway.met c old x inside
    · obtain rfl := List.mem_singleton.mp new
      exact (underway.visited x).mpr (.inr (List.mem_of_mem_drop inside))

theorem Underway.leave {left : List α} {t : Track α} (underway : Underway next left t) {path : List α} {a : α}
    (at_ : t.currentPath = path ++ [a]) (settled : ∀ b ∈ next a, b ∈ left ∨ ∃ c ∈ t.cycles, b ∈ c) :
    Underway next (left ++ [a]) (t.leave a) ∧ (t.leave a).currentPath = path := by
  have back : (t.leave a).currentPath = path := by simp [Track.leave,at_]
  have once : (left ++ (path ++ [a])).Nodup := at_ ▸ underway.once
  have apart : a ∉ path := by
    rw [← List.append_assoc] at once
    intro member
    exact (List.nodup_append.mp once).2.2 a (List.mem_append_right _ member) a (List.mem_singleton.mpr rfl) rfl
  refine ⟨⟨?_,fun b => ?_,?_,?_,fun front x rest cut y link => ?_,underway.genuine,underway.met⟩,back⟩
  · have others : path.filter (· ≠ a) = path :=
      List.filter_eq_self.mpr fun b member => decide_eq_true fun same => apart (same ▸ member)
    change t.recursionStack.filter (· ≠ a) = _
    rw [underway.stack,at_,List.filter_append,others,back]
    simp
  · have whole := underway.visited b
    rw [at_] at whole
    rw [back,List.mem_append,List.mem_singleton,or_assoc]
    refine Iff.trans whole ?_
    rw [List.mem_append,List.mem_singleton]
    tauto
  · rw [back,List.append_assoc]
    exact (List.perm_append_comm.append_left left).nodup_iff.mp once
  · rw [back]
    exact (List.isChain_append.mp (at_ ▸ underway.linked)).1
  · rcases List.append_eq_append_iff.mp cut with ⟨between,rfl,tail⟩ | ⟨between,rfl,tail⟩
    · cases between with
      | nil =>
        obtain ⟨rfl,_⟩ := List.cons.inj tail
        rw [List.append_nil]
        exact settled y link
      | cons z between => simp at tail
    · cases between with
      | nil =>
        obtain ⟨rfl,_⟩ := List.cons.inj tail
        rw [List.append_nil] at settled
        exact settled y link
      | cons z between =>
        obtain ⟨rfl,_⟩ := List.cons.inj tail
        exact underway.closed front _ between rfl y link

section

variable {successors : σ → α → List α × σ} {keeps : σ → Prop}
  (looks : ∀ s a, keeps s → (successors s a).1 = next a ∧ keeps (successors s a).2)

def Searches (next : α → List α) (keeps : σ → Prop) (search : α → σ × Track α → Option (σ × Track α)) : Prop :=
  ∀ a left state after, search a state = some after → keeps state.1 → Underway next left state.2 → a ∉ state.2.visited →
    (∀ last, state.2.currentPath.getLast? = some last → a ∈ next last) → keeps after.1 ∧ Left next left a state.2 after.2

theorem follow_all {search : α → σ × Track α → Option (σ × Track α)} (searches : Searches next keeps search)
    {path : List α} {a : α} {items : List α} (links : ∀ b ∈ items, b ∈ next a) {left : List α} {state after : σ × Track α}
    (found : items.foldlM (follow search) state = some after) (kept : keeps state.1) (underway : Underway next left state.2)
    (at_ : state.2.currentPath = path ++ [a]) :
    keeps after.1 ∧ after.2.currentPath = path ++ [a] ∧ (∀ c ∈ state.2.cycles, c ∈ after.2.cycles) ∧
      ∃ more, Underway next (left ++ more) after.2 ∧ ∀ b ∈ items, b ∈ left ++ more ∨ ∃ c ∈ after.2.cycles, b ∈ c := by
  induction items generalizing left state with
  | nil =>
    obtain rfl := Option.some.inj found
    exact ⟨kept,at_,fun _ => id,[],by rwa [List.append_nil],by simp⟩
  | cons b items ih =>
    obtain ⟨link,rest⟩ := List.forall_mem_cons.mp links
    rw [List.foldlM_cons] at found
    obtain ⟨middle,first,others⟩ := Option.bind_eq_some_iff.mp found
    -- after the first successor it is left or on a cycle
    have one : keeps middle.1 ∧ middle.2.currentPath = path ++ [a] ∧ (∀ c ∈ state.2.cycles, c ∈ middle.2.cycles) ∧
        ∃ more, Underway next (left ++ more) middle.2 ∧ (b ∈ left ++ more ∨ ∃ c ∈ middle.2.cycles, b ∈ c) := by
      unfold follow at first
      split at first
      next new =>
        have onward (last) (is : state.2.currentPath.getLast? = some last) : b ∈ next last := by
          rw [at_,List.getLast?_concat] at is
          exact Option.some.inj is ▸ link
        obtain ⟨kept',path',cycles,more,under⟩ := searches b left state middle first kept underway new onward
        rw [List.append_assoc] at under
        exact ⟨kept',path'.trans at_,cycles,more ++ [b],under,.inl (by simp)⟩
      next seen =>
        split at first
        next onStack =>
          obtain rfl := Option.some.inj first
          obtain ⟨under,cycle⟩ := underway.close at_ (underway.stack ▸ onStack) link
          refine ⟨kept,?_,fun c member => ?_,[],by rwa [List.append_nil],.inr cycle⟩
          · dsimp only
            rw [← at_,Track.close,if_pos (underway.stack ▸ onStack)]
          · dsimp only
            rw [Track.close,if_pos (underway.stack ▸ onStack)]
            exact List.mem_append_left _ member
        next offStack =>
          obtain rfl := Option.some.inj first
          have gone := ((underway.visited b).mp (Classical.not_not.mp seen)).resolve_right (underway.stack ▸ offStack)
          exact ⟨kept,at_,fun _ => id,[],by rwa [List.append_nil],.inl (List.mem_append_left _ gone)⟩
    obtain ⟨kept',path',cycles,more,under,settled⟩ := one
    obtain ⟨kept'',path'',cycles',more',under',settled'⟩ := ih rest others kept' under path'
    refine ⟨kept'',path'',fun c member => cycles' c (cycles c member),more ++ more',by rwa [← List.append_assoc],?_⟩
    rw [← List.append_assoc]
    refine List.forall_mem_cons.mpr ⟨?_,settled'⟩
    rcases settled with gone | ⟨c,member,inside⟩
    · exact .inl (List.mem_append_left _ gone)
    · exact .inr ⟨c,cycles' c member,inside⟩

include looks

theorem searches_search (frames : ℕ) : Searches next keeps (search successors frames) := by
  induction frames with
  | zero => exact fun _ _ _ _ found => nomatch found
  | succ frames ih =>
    intro a left state after found kept underway new link
    obtain ⟨s,t⟩ := state
    obtain ⟨answer,kept'⟩ := looks s a kept
    rw [search] at found
    dsimp only at found
    rw [answer] at found
    obtain ⟨middle,loop,rfl⟩ := Option.map_eq_some_iff.mp found
    obtain ⟨kept'',path,cycles,more,under,settled⟩ :=
      follow_all ih (fun _ => id) loop kept' (underway.enter new link) rfl
    obtain ⟨under',back⟩ := under.leave path settled
    exact ⟨kept'',back,cycles,more,under'⟩

theorem searchAll_leaves {frames : ℕ} {items left : List α} {state after : σ × Track α}
    (found : searchAll successors frames items state = some after) (kept : keeps state.1)
    (underway : Underway next left state.2) (root : state.2.currentPath = []) :
    keeps after.1 ∧ after.2.currentPath = [] ∧ ∃ more, Underway next (left ++ more) after.2 ∧ ∀ a ∈ items, a ∈ left ++ more := by
  induction items generalizing left state with
  | nil =>
    obtain rfl := Option.some.inj found
    exact ⟨kept,root,[],by rwa [List.append_nil],by simp⟩
  | cons a items ih =>
    rw [searchAll,List.foldlM_cons] at found
    obtain ⟨middle,first,others⟩ := Option.bind_eq_some_iff.mp found
    have one : keeps middle.1 ∧ middle.2.currentPath = [] ∧ ∃ more, Underway next (left ++ more) middle.2 ∧ a ∈ left ++ more := by
      split at first
      next new =>
        obtain ⟨kept',path,_,more,under⟩ := searches_search looks frames a left state middle first kept underway new
          (by simp [root])
        rw [List.append_assoc] at under
        exact ⟨kept',path.trans root,more ++ [a],under,by simp⟩
      next seen =>
        obtain rfl := Option.some.inj first
        have gone := ((underway.visited a).mp (Classical.not_not.mp seen)).resolve_right (by simp [root])
        exact ⟨kept,root,[],by rwa [List.append_nil],List.mem_append_left _ gone⟩
    obtain ⟨kept',path,more,under,gone⟩ := one
    obtain ⟨kept'',path',more',under',all⟩ := ih others kept' under path
    refine ⟨kept'',path',more ++ more',by rwa [← List.append_assoc],?_⟩
    rw [← List.append_assoc]
    exact List.forall_mem_cons.mpr ⟨List.mem_append_left _ gone,all⟩

theorem search_grows {frames : ℕ} {a : α} {state after : σ × Track α} (found : search successors frames a state = some after)
    (kept : keeps state.1) : keeps after.1 ∧ ∃ more, after.2.visited = state.2.visited ++ more := by
  induction frames generalizing a state after with
  | zero => cases found
  | succ frames ih =>
    have loop : ∀ (items : List α) (state after : σ × Track α),
        items.foldlM (follow (search successors frames)) state = some after → keeps state.1 →
        keeps after.1 ∧ ∃ more, after.2.visited = state.2.visited ++ more := by
      intro items
      induction items with
      | nil =>
        intro state after found kept
        obtain rfl := Option.some.inj found
        exact ⟨kept,[],(List.append_nil _).symm⟩
      | cons b items inner =>
        intro state after found kept
        rw [List.foldlM_cons] at found
        obtain ⟨middle,first,others⟩ := Option.bind_eq_some_iff.mp found
        have one : keeps middle.1 ∧ ∃ more, middle.2.visited = state.2.visited ++ more := by
          unfold follow at first
          split at first
          next => exact ih first kept
          next =>
            split at first
            next =>
              obtain rfl := Option.some.inj first
              refine ⟨kept,[],?_⟩
              dsimp only
              unfold Track.close
              split
              next => simp
              next => simp
            next =>
              obtain rfl := Option.some.inj first
              exact ⟨kept,[],(List.append_nil _).symm⟩
        obtain ⟨kept',more,grown⟩ := one
        obtain ⟨kept'',more',grown'⟩ := inner middle after others kept'
        exact ⟨kept'',more ++ more',by rw [grown',grown,List.append_assoc]⟩
    obtain ⟨s,t⟩ := state
    obtain ⟨_,kept'⟩ := looks s a kept
    rw [search] at found
    obtain ⟨middle,followed,rfl⟩ := Option.map_eq_some_iff.mp found
    obtain ⟨kept'',more,grown⟩ := loop _ _ _ followed kept'
    exact ⟨kept'',a :: more,by rw [Track.leave,grown,Track.enter]; simp⟩

omit [DecidableEq α] looks in
theorem foldlM_isSome {β : Type*} {P : β → Prop} {f : β → α → Option β} {items : List α}
    (each : ∀ a ∈ items, ∀ s, P s → ∃ s', f s a = some s' ∧ P s') {s : β} (start : P s) :
    (items.foldlM f s).isSome = true := by
  induction items generalizing s with
  | nil => rfl
  | cons a items ih =>
    obtain ⟨here,rest⟩ := List.forall_mem_cons.mp each
    obtain ⟨s',first,start'⟩ := here s start
    rw [List.foldlM_cons,first]
    exact ih rest start'

open MarkingSearch (unmarked unmarked_lt unmarked_append_le)

section

variable {keys : List α} (listed : ∀ a, ∀ b ∈ next a, b ∈ keys) {frames : ℕ}
include listed

theorem search_succ_isSome {a : α} {state : σ × Track α}
    (kept : keeps state.1) (few : (unmarked keys (state.2.visited ++ [a])).length < frames) :
    (search successors (frames + 1) a state).isSome = true := by
  induction frames generalizing a state with
  | zero => exact absurd few (Nat.not_lt_zero _)
  | succ frames ih =>
    obtain ⟨s,t⟩ := state
    obtain ⟨answer,kept'⟩ := looks s a kept
    rw [search]
    dsimp only
    rw [answer,Option.isSome_map]
    refine foldlM_isSome (P := fun st => keeps st.1 ∧ (unmarked keys st.2.visited).length < frames + 1) ?_ ⟨kept',few⟩
    rintro b link ⟨s',t'⟩ ⟨keptHere,fewHere⟩
    unfold follow
    split
    next new =>
      have fewer := unmarked_lt (listed a b link) new
      obtain ⟨after,found⟩ := Option.isSome_iff_exists.mp (ih keptHere (Nat.lt_of_lt_of_le fewer (Nat.le_of_lt_succ fewHere)))
      obtain ⟨keptThere,more,grown⟩ := search_grows looks found keptHere
      refine ⟨after,found,keptThere,?_⟩
      rw [grown]
      exact Nat.lt_of_le_of_lt (unmarked_append_le keys _ more) fewHere
    next =>
      split
      next =>
        refine ⟨_,rfl,keptHere,?_⟩
        dsimp only
        unfold Track.close
        split
        next => exact fewHere
        next => exact fewHere
      next => exact ⟨_,rfl,keptHere,fewHere⟩

theorem search_ends (enough : keys.length + 2 ≤ frames)
    (a : α) {state : σ × Track α} (kept : keeps state.1) : (search successors frames a state).isSome = true := by
  obtain ⟨frames,rfl⟩ := Nat.exists_eq_add_of_le' (Nat.le_trans (Nat.le_add_left 1 _) enough)
  have few := List.length_filter_le (fun k => decide (k ∉ state.2.visited ++ [a])) keys
  exact search_succ_isSome looks listed kept (Nat.lt_of_le_of_lt few (by omega))

theorem searchAll_ends (enough : keys.length + 2 ≤ frames) (items : List α) {state : σ × Track α} (kept : keeps state.1) :
    (searchAll successors frames items state).isSome = true := by
  refine foldlM_isSome (P := fun st => keeps st.1) ?_ kept
  intro a _ st keptHere
  split
  next =>
    obtain ⟨after,found⟩ := Option.isSome_iff_exists.mp (search_ends looks listed enough a keptHere)
    exact ⟨after,found,(search_grows looks found keptHere).1⟩
  next => exact ⟨st,rfl,keptHere⟩

end

end

omit [DecidableEq α] in
theorem IsCycle.transGen {c : List α} (cycle : IsCycle next c) {a : α} (member : a ∈ c) : Relation.TransGen (Link next) a a := by
  obtain ⟨first,last,head,end_,closes⟩ := cycle.closes
  obtain ⟨front,back,rfl⟩ := List.append_of_mem member
  have onward : Relation.ReflTransGen (Link next) a last := by
    refine List.relationReflTransGen_of_exists_isChain_cons back cycle.linked.right_of_append ?_
    rw [List.getLast?_append_of_ne_nil _ (List.cons_ne_nil a back)] at end_
    exact (List.getLast_eq_iff_getLast?_eq_some (List.cons_ne_nil a back)).mpr end_
  have upTo : Relation.ReflTransGen (Link next) first a := by
    have linked := cycle.linked
    rw [List.append_cons] at linked head
    cases front with
    | nil =>
      obtain rfl : a = first := by simpa using head
      exact .refl
    | cons b front =>
      obtain rfl : b = first := by simpa using head
      exact List.relationReflTransGen_of_exists_isChain_cons (front ++ [a]) linked.left_of_append (by simp)
  exact (Relation.TransGen.tail' onward closes).trans_left upTo

omit [DecidableEq α] in
theorem Underway.leads_back {left : List α} {t : Track α} (underway : Underway next left t) (none_ : t.cycles = [])
    {front back : List α} {a b : α} (cut : left = front ++ a :: back) (path : Relation.TransGen (Link next) a b) :
    b ∈ front := by
  have earlier {front back : List α} {a b : α} (cut : left = front ++ a :: back) (link : b ∈ next a) : b ∈ front := by
    rcases underway.closed front a back cut b link with before | ⟨c,member,_⟩
    · exact before
    · simp [none_] at member
  induction path with
  | single link => exact earlier cut link
  | tail _ link ih =>
    obtain ⟨before,between,rfl⟩ := List.append_of_mem ih
    exact List.mem_append_left _ (earlier (by rw [cut,List.append_assoc,List.cons_append]) link)

omit [DecidableEq α] in
theorem Underway.acyclic {left : List α} {t : Track α} (underway : Underway next left t) (none_ : t.cycles = []) {a : α}
    (gone : a ∈ left) : ¬ Relation.TransGen (Link next) a a := by
  obtain ⟨front,back,cut,new⟩ := List.eq_append_cons_of_mem gone
  exact fun path => new (underway.leads_back none_ cut path)

section

variable {successors : σ → α → List α × σ} {keeps : σ → Prop}
  (looks : ∀ s a, keeps s → (successors s a).1 = next a ∧ keeps (successors s a).2)

include looks

theorem searchAll_cycles {frames : ℕ} {items : List α} {s : σ} {after : σ × Track α}
    (found : searchAll successors frames items (s,{}) = some after) (kept : keeps s) :
    (∀ c ∈ after.2.cycles, IsCycle next c) ∧ ((∀ a b, b ∈ next a → a ∈ items) →
      (after.2.cycles ≠ [] ↔ ∃ a, Relation.TransGen (Link next) a a)) := by
  obtain ⟨_,_,left,underway,all⟩ := searchAll_leaves looks found kept underway_empty rfl
  refine ⟨underway.genuine,fun whole => ⟨fun some_ => ?_,?_⟩⟩
  · obtain ⟨c,member⟩ := List.exists_mem_of_ne_nil _ some_
    have cycle := underway.genuine c member
    obtain ⟨first,_,head,_⟩ := cycle.closes
    exact ⟨first,cycle.transGen (List.mem_of_mem_head? head)⟩
  · rintro ⟨a,path⟩ none_
    obtain ⟨b,link,_⟩ := Relation.TransGen.head'_iff.mp path
    exact underway.acyclic none_ (all a (whole a b link)) path

theorem search_cycles {frames : ℕ} {a : α} {s : σ} {after : σ × Track α} (found : search successors frames a (s,{}) = some after)
    (kept : keeps s) :
    (∀ c ∈ after.2.cycles, IsCycle next c) ∧ ((∃ c ∈ after.2.cycles, a ∈ c) ↔ Relation.TransGen (Link next) a a) := by
  obtain ⟨_,path,_,more,underway⟩ := searches_search looks frames a [] (s,{}) after found kept underway_empty (by simp) (by simp)
  rw [List.nil_append] at underway
  refine ⟨underway.genuine,?_,fun cycle => ?_⟩
  · rintro ⟨c,member,inside⟩
    exact (underway.genuine c member).transGen inside
  · have closed {b c : α} (gone : b ∈ more ++ [a]) (link : c ∈ next b) : c ∈ more ++ [a] := by
      obtain ⟨front,back,cut⟩ := List.append_of_mem gone
      rcases underway.closed front b back cut c link with before | ⟨d,member,inside⟩
      · exact cut ▸ List.mem_append_left _ before
      · exact ((underway.visited c).mp (underway.met d member c inside)).resolve_right (by simp [path])
    obtain ⟨w,reached,link⟩ := Relation.TransGen.tail'_iff.mp cycle
    have gone : w ∈ more ++ [a] := by
      clear link
      induction reached with
      | refl => simp
      | tail _ link ih => exact closed ih link
    obtain ⟨front,back,cut⟩ := List.append_of_mem gone
    rcases underway.closed front w back cut a link with before | met
    · -- the start is left last
      have last : a ∈ w :: back := by
        have end_ := congrArg List.getLast? cut
        rw [List.getLast?_concat,List.getLast?_append_of_ne_nil _ (List.cons_ne_nil w back)] at end_
        exact List.mem_of_getLast? end_.symm
      have once := underway.once
      rw [path,List.append_nil,cut] at once
      exact absurd rfl ((List.nodup_append.mp once).2.2 a before a last)
    · exact met

end

end ApexLs.Collections.CycleSearch
