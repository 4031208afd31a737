import Mathlib.Data.List.Chain
import Mathlib.Logic.Relation
import ApexLs.Collections.GuardedWalk

/-! Chains of a partial successor that stop where a predicate holds. On finitely many items a
chain either ends within as many steps as there are items, or runs into a cycle. -/
namespace ApexLs.Collections

variable {α : Type u}

/-- One step of a chain: from an item where it does not stop to its successor. -/
def Onward (next : α → Option α) (stop : α → Bool) (a b : α) : Prop := stop a = false ∧ next a = some b

def Loops (next : α → Option α) (stop : α → Bool) (a : α) : Prop :=
  ∃ b, Relation.ReflTransGen (Onward next stop) a b ∧ Relation.TransGen (Onward next stop) b b

/-- The chain from an item has at most so many items. -/
def endsWithin (next : α → Option α) (stop : α → Bool) : Nat → α → Bool
  | 0,_ => false
  | n + 1,a => stop a || (next a).all (endsWithin next stop n)

variable {next : α → Option α} {stop : α → Bool}

theorem endsWithin_succ_iff :
    endsWithin next stop (n + 1) a = true ↔ stop a = true ∨ ∀ b, next a = some b → endsWithin next stop n b = true := by
  rw [endsWithin,Bool.or_eq_true,Option.all_eq_true]

theorem endsWithin_mono (ends : endsWithin next stop m a = true) (more : m ≤ n) : endsWithin next stop n a = true := by
  induction m generalizing n a with
  | zero => cases ends
  | succ m ih =>
    obtain ⟨n,rfl⟩ := Nat.exists_eq_add_of_le' (Nat.le_trans (Nat.le_add_left 1 m) more)
    rcases endsWithin_succ_iff.mp ends with stops | rest
    · exact endsWithin_succ_iff.mpr (.inl stops)
    · exact endsWithin_succ_iff.mpr (.inr fun b onward => ih (rest b onward) (by omega))

theorem endsWithin_onward (ends : endsWithin next stop (n + 1) a = true) (onward : Onward next stop a b) :
    endsWithin next stop n b = true := by
  rcases endsWithin_succ_iff.mp ends with stops | rest
  · rw [onward.1] at stops
    cases stops
  · exact rest b onward.2

theorem not_loops_of_endsWithin (ends : endsWithin next stop n a = true) : ¬ Loops next stop a := by
  induction n generalizing a with
  | zero => cases ends
  | succ n ih =>
    rintro ⟨b,reached,cycle⟩
    -- the first step from `a` leads to an item that reaches the same cycle
    have first : ∃ c, Onward next stop a c ∧ Relation.ReflTransGen (Onward next stop) c b := by
      rcases Relation.ReflTransGen.cases_head reached with rfl | step
      · obtain ⟨c,onward,back⟩ := Relation.TransGen.head'_iff.mp cycle
        exact ⟨c,onward,back⟩
      · exact step
    obtain ⟨c,onward,rest⟩ := first
    exact ih (endsWithin_onward ends onward) ⟨b,rest,cycle⟩

theorem endsWithin_of_unvisited {known : List α} [DecidableEq α] (closed : ∀ a b, next a = some b → b ∈ known) :
    ∀ n (visited : List α) a, a ∈ known → (∀ v ∈ visited, Relation.TransGen (Onward next stop) v a) → ¬ Loops next stop a →
      (known.filter (fun c => c ∉ visited)).length ≤ n → endsWithin next stop n a = true := by
  intro n
  induction n with
  | zero =>
    intro visited a member before straight short
    -- the item itself is left to visit
    have new : a ∉ visited := fun seen => straight ⟨a,.refl,before a seen⟩
    have left : a ∈ known.filter (fun c => c ∉ visited) := List.mem_filter.mpr ⟨member,decide_eq_true new⟩
    exact absurd (List.length_pos_of_mem left) (by omega)
  | succ n ih =>
    intro visited a member before straight short
    rw [endsWithin_succ_iff]
    by_cases stops : stop a = true
    · exact .inl stops
    refine .inr fun b goes => ?_
    have onward : Onward next stop a b := ⟨by simpa using stops,goes⟩
    have new : a ∉ visited := fun seen => straight ⟨a,.refl,before a seen⟩
    apply ih (a :: visited) b (closed a b goes)
    · intro v seen
      rcases List.mem_cons.mp seen with rfl | seen
      · exact .single onward
      · exact (before v seen).tail onward
    · rintro ⟨c,reached,cycle⟩
      exact straight ⟨c,.head onward reached,cycle⟩
    · have fewer : (known.filter (fun c => c ∉ a :: visited)).length < (known.filter (fun c => c ∉ visited)).length :=
        unvisited_lt id member new (fun _ => List.mem_cons)
      omega

theorem endsWithin_iff {known : List α} (closed : ∀ a b, next a = some b → b ∈ known) (member : a ∈ known)
    (enough : known.length ≤ n) : endsWithin next stop n a = true ↔ ¬ Loops next stop a := by
  classical
  constructor
  · exact not_loops_of_endsWithin
  · intro straight
    apply endsWithin_of_unvisited closed n [] a member (fun _ seen => absurd seen List.not_mem_nil) straight
    have bound := List.length_filter_le (fun c => c ∉ ([] : List α)) known
    omega

theorem endsWithin_from_iff {known : List α} (closed : ∀ a b, next a = some b → b ∈ known) (enough : known.length < n) :
    endsWithin next stop n a = true ↔ ¬ Loops next stop a := by
  have closed' : ∀ b c, next b = some c → c ∈ a :: known := fun b c goes => List.mem_cons_of_mem a (closed b c goes)
  exact endsWithin_iff closed' List.mem_cons_self enough

def chainFrom (next : α → Option α) : Nat → α → List α
  | 0,_ => []
  | n + 1,a => a :: (next a).elim [] (chainFrom next n)

theorem chainFrom_isChain (next : α → Option α) (n : Nat) (a : α) :
    (chainFrom next n a).IsChain (fun b c => next b = some c) := by
  induction n generalizing a with
  | zero => exact List.isChain_nil
  | succ n ih =>
    rw [chainFrom]
    cases found : next a with
    | none => exact List.isChain_singleton a
    | some b =>
      refine List.isChain_cons.mpr ⟨fun c head => ?_,ih b⟩
      cases n with
      | zero => cases head
      | succ n =>
        obtain rfl := Option.some.inj head
        exact found

theorem chainFrom_stable (unstopped : ∀ b, stop b = false) (ends : endsWithin next stop m a = true) (more : m ≤ n) :
    chainFrom next n a = chainFrom next m a := by
  induction m generalizing n a with
  | zero => cases ends
  | succ m ih =>
    obtain ⟨n,rfl⟩ := Nat.exists_eq_add_of_le' (Nat.le_trans (Nat.le_add_left 1 m) more)
    rw [chainFrom,chainFrom]
    cases found : next a with
    | none => rfl
    | some b =>
      have rest := ih (endsWithin_onward ends ⟨unstopped a,found⟩) (Nat.le_of_succ_le_succ more)
      simp only [Option.elim_some,rest]

theorem prefix_chainFrom (unstopped : ∀ b, stop b = false) (ends : endsWithin next stop n a = true) {rest : List α}
    (linked : (a :: rest).IsChain (fun b c => next b = some c)) : a :: rest <+: chainFrom next n a := by
  induction n generalizing a rest with
  | zero => cases ends
  | succ n ih =>
    rw [chainFrom]
    cases rest with
    | nil => exact ⟨_,rfl⟩
    | cons b rest =>
      obtain ⟨link,further⟩ := List.isChain_cons_cons.mp linked
      rw [link,Option.elim_some]
      exact (List.prefix_cons_inj a).mpr (ih (endsWithin_onward ends ⟨unstopped a,link⟩) further)

theorem mem_chainFrom_iff (unstopped : ∀ b, stop b = false) (ends : endsWithin next stop n a = true) :
    b ∈ chainFrom next n a ↔ Relation.ReflTransGen (fun c d => next c = some d) a b := by
  induction n generalizing a with
  | zero => cases ends
  | succ n ih =>
    rw [chainFrom,List.mem_cons]
    constructor
    · rintro (rfl | further)
      · exact .refl
      · cases goes : next a with
        | none =>
          rw [goes] at further
          exact absurd further List.not_mem_nil
        | some c =>
          rw [goes,Option.elim_some] at further
          exact .head goes ((ih (endsWithin_onward ends ⟨unstopped a,goes⟩)).mp further)
    · intro path
      rcases Relation.ReflTransGen.cases_head path with rfl | ⟨c,goes,rest⟩
      · exact .inl rfl
      · rw [goes,Option.elim_some]
        exact .inr ((ih (endsWithin_onward ends ⟨unstopped a,goes⟩)).mpr rest)

theorem endsWithin_map {β : Type v} {next' : β → Option β} (f : α → β) (commutes : ∀ a, next' (f a) = (next a).map f) (n : Nat)
    (a : α) : endsWithin next' (fun _ => false) n (f a) = endsWithin next (fun _ => false) n a := by
  induction n generalizing a with
  | zero => rfl
  | succ n ih =>
    rw [endsWithin,endsWithin,commutes]
    cases next a with
    | none => rfl
    | some b => simp only [Option.map_some,Option.all_some,ih]

end ApexLs.Collections
