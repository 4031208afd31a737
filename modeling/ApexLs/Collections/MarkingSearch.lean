import Mathlib.Logic.Relation
import ApexLs.Collections.GuardedWalk

/-! A depth-first search that marks the key of every item it enters and never enters a marked one. It
ends on any graph, and enters what is reachable where reachable items of one key are one item. -/
namespace ApexLs.Collections.MarkingSearch

variable {α : Type u} {κ : Type v} {σ : Type w}

section

variable [DecidableEq κ] (next : α → List α) (key : α → κ) (enter : α → σ → σ)

/-- Each item enters its own data before its successors. A first argument of 0 is a search that has run
out of stack frames. -/
def visitOnce : Nat → α → List κ × σ → Option (List κ × σ)
  | 0,_,_ => none
  | frames + 1,a,(visited,s) =>
    if key a ∈ visited then some (visited,s)
    else (next a).foldlM (fun state b => visitOnce frames b state) (visited ++ [key a],enter a s)

end

abbrev Reaches (next : α → List α) : α → α → Prop := Relation.ReflTransGen (fun a b => b ∈ next a)

structure Entered (next : α → List α) (key : α → κ) (enter : α → σ → σ) (items : List α) (before after : List κ × σ)
    (met : List α) : Prop where
  visited : after.1 = before.1 ++ met.map key
  data : after.2 = met.foldl (fun s a => enter a s) before.2
  reached : ∀ b ∈ met, ∃ a ∈ items, Reaches next a b
  marked : ∀ a ∈ items, key a ∈ after.1
  closed : ∀ b ∈ met, ∀ c ∈ next b, key c ∈ after.1

variable [DecidableEq κ] {next : α → List α} {key : α → κ} {enter : α → σ → σ}

omit [DecidableEq κ] in
theorem Entered.grows (entered : Entered next key enter items before after met) (marked : k ∈ before.1) : k ∈ after.1 := by
  rw [entered.visited]
  exact List.mem_append_left _ marked

omit [DecidableEq κ] in
theorem entered_foldlM {search : α → List κ × σ → Option (List κ × σ)}
    (each : ∀ a before after, search a before = some after → ∃ met, Entered next key enter [a] before after met) {items : List α}
    {before after : List κ × σ} (found : items.foldlM (fun state b => search b state) before = some after) :
    ∃ met, Entered next key enter items before after met := by
  induction items generalizing before with
  | nil =>
    obtain rfl := Option.some.inj found
    exact ⟨[],by simp,rfl,by simp,by simp,by simp⟩
  | cons a items ih =>
    rw [List.foldlM_cons] at found
    obtain ⟨middle,first,rest⟩ := Option.bind_eq_some_iff.mp found
    obtain ⟨metFirst,one⟩ := each a before middle first
    obtain ⟨metRest,others⟩ := ih rest
    refine ⟨metFirst ++ metRest,?_,?_,?_,?_,?_⟩
    · rw [others.visited,one.visited,List.map_append,List.append_assoc]
    · rw [others.data,one.data,List.foldl_append]
    · intro b member
      rcases List.mem_append.mp member with inFirst | inRest
      · obtain ⟨c,here,reached⟩ := one.reached b inFirst
        exact ⟨c,List.mem_cons.mpr (.inl (List.mem_singleton.mp here)),reached⟩
      · obtain ⟨c,there,reached⟩ := others.reached b inRest
        exact ⟨c,List.mem_cons_of_mem a there,reached⟩
    · refine List.forall_mem_cons.mpr ⟨?_,others.marked⟩
      exact others.grows (one.marked a (List.mem_singleton.mpr rfl))
    · intro b member c link
      rcases List.mem_append.mp member with inFirst | inRest
      · exact others.grows (one.closed b inFirst c link)
      · exact others.closed b inRest c link

theorem entered_visitOnce {before after : List κ × σ} (found : visitOnce next key enter frames a before = some after) :
    ∃ met, Entered next key enter [a] before after met := by
  induction frames generalizing a before after with
  | zero => cases found
  | succ frames ih =>
    obtain ⟨visited,s⟩ := before
    rw [visitOnce] at found
    split at found
    next marked =>
      obtain rfl := Option.some.inj found
      exact ⟨[],by simp,rfl,by simp,by simpa using marked,by simp⟩
    next unmarked =>
      obtain ⟨met,below⟩ := entered_foldlM (fun b _ _ one => ih one) found
      refine ⟨a :: met,?_,?_,?_,?_,?_⟩
      · rw [below.visited,List.map_cons,List.append_assoc]
        rfl
      · rw [below.data,List.foldl_cons]
      · refine List.forall_mem_cons.mpr ⟨⟨a,List.mem_singleton.mpr rfl,.refl⟩,fun b member => ?_⟩
        obtain ⟨c,link,reached⟩ := below.reached b member
        exact ⟨a,List.mem_singleton.mpr rfl,.head link reached⟩
      · rintro b here
        obtain rfl := List.mem_singleton.mp here
        exact below.grows (List.mem_append_right _ (List.mem_singleton.mpr rfl))
      · exact List.forall_mem_cons.mpr ⟨fun c link => below.marked c link,below.closed⟩

theorem visitOnce_reaches (found : visitOnce next key enter frames a ([],s) = some after)
    (unique : ∀ b c, Reaches next a b → Reaches next a c → key b = key c → b = c) :
    ∃ met : List α, after.2 = met.foldl (fun s a => enter a s) s ∧ ∀ b, b ∈ met ↔ Reaches next a b := by
  obtain ⟨met,entered⟩ := entered_visitOnce found
  have sound (b) (member : b ∈ met) : Reaches next a b := by
    obtain ⟨c,here,reached⟩ := entered.reached b member
    obtain rfl := List.mem_singleton.mp here
    exact reached
  have marked (b) (reached : Reaches next a b) (inside : key b ∈ after.1) : b ∈ met := by
    rw [entered.visited,List.nil_append] at inside
    obtain ⟨c,member,same⟩ := List.mem_map.mp inside
    rwa [unique b c reached (sound c member) same.symm]
  refine ⟨met,entered.data,fun b => ⟨sound b,fun reached => ?_⟩⟩
  induction reached with
  | refl => exact marked a .refl (entered.marked a (List.mem_singleton.mpr rfl))
  | tail before link ih => exact marked _ (before.tail link) (entered.closed _ ih _ link)

def unmarked (keys visited : List κ) : List κ := keys.filter (· ∉ visited)

theorem unmarked_append_le (keys visited more : List κ) :
    (unmarked keys (visited ++ more)).length ≤ (unmarked keys visited).length := by
  apply List.Sublist.length_le
  apply List.monotone_filter_right
  intro k member
  simp only [List.mem_append,not_or,decide_eq_true_eq] at member ⊢
  exact member.1

theorem unmarked_lt {keys visited : List κ} (listed : k ∈ keys) (new : k ∉ visited) :
    (unmarked keys (visited ++ [k])).length < (unmarked keys visited).length :=
  unvisited_lt id listed new (fun j => by simp [or_comm])

theorem foldlM_isSome {search : α → List κ × σ → Option (List κ × σ)} {keys : List κ}
    (each : ∀ a before after, search a before = some after → ∃ met, Entered next key enter [a] before after met) {items : List α}
    (ends : ∀ a ∈ items, ∀ state : List κ × σ, (unmarked keys state.1).length < bound → (search a state).isSome)
    {state : List κ × σ} (enough : (unmarked keys state.1).length < bound) :
    (items.foldlM (fun state b => search b state) state).isSome := by
  induction items generalizing state with
  | nil => rfl
  | cons a items ih =>
    obtain ⟨endsHere,endsRest⟩ := List.forall_mem_cons.mp ends
    obtain ⟨after,first⟩ := Option.isSome_iff_exists.mp (endsHere state enough)
    obtain ⟨met,entered⟩ := each a state after first
    rw [List.foldlM_cons,first]
    apply ih endsRest
    have := unmarked_append_le keys state.1 (met.map key)
    rw [entered.visited]
    omega

theorem visitOnce_ends_listed {keys : List κ} (listed : ∀ a, ∀ b ∈ next a, key b ∈ keys) {state : List κ × σ}
    (here : key a ∈ keys)
    (enough : (unmarked keys state.1).length < frames) : (visitOnce next key enter frames a state).isSome := by
  induction frames generalizing a state with
  | zero => exact absurd enough (Nat.not_lt_zero _)
  | succ frames ih =>
    obtain ⟨visited,s⟩ := state
    rw [visitOnce]
    split
    next => rfl
    next new =>
      have fewer := unmarked_lt here new
      apply foldlM_isSome (fun b _ _ one => entered_visitOnce one) (fun b link _ => ih (listed a b link))
      dsimp only at enough ⊢
      omega

theorem visitOnce_ends (keys : List κ) (listed : ∀ a, ∀ b ∈ next a, key b ∈ keys) (a : α) (state : List κ × σ)
    (enough : keys.length + 2 ≤ frames) : (visitOnce next key enter frames a state).isSome := by
  obtain ⟨frames,rfl⟩ := Nat.exists_eq_add_of_le' (Nat.le_trans (Nat.le_add_left 1 _) enough)
  obtain ⟨visited,s⟩ := state
  rw [visitOnce]
  split
  next => rfl
  next new =>
    have few := List.length_filter_le (· ∉ visited ++ [key a]) keys
    apply foldlM_isSome (fun b _ _ one => entered_visitOnce one) (fun b link _ => visitOnce_ends_listed listed (listed a b link))
    exact Nat.lt_of_le_of_lt few (by omega)

end ApexLs.Collections.MarkingSearch
