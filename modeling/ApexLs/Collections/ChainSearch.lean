import ApexLs.Collections.Chains

/-! Searches along a chain for the first item at which it stops, and computations that are given a
number of steps and settle on a result once that suffices. -/
namespace ApexLs.Collections

section

variable {β : Type v} {γ : Type w}

def Settles (x : Nat → Option β) (r : β) : Prop := ∃ n, x n = some r

def Growing (x : Nat → Option β) : Prop := ∀ n m r, x n = some r → n ≤ m → x m = some r

theorem growing_const (o : Option β) : Growing (fun _ => o) := fun _ _ _ result _ => result

theorem settles_const_iff {o : Option β} : Settles (fun _ => o) r ↔ o = some r :=
  ⟨fun ⟨_,result⟩ => result,fun result => ⟨0,result⟩⟩

theorem Growing.ite {p : Prop} [Decidable p] {x y : Nat → Option β} (left : Growing x) (right : Growing y) :
    Growing (fun n => if p then x n else y n) := by
  by_cases holds : p
  · simpa only [if_pos holds] using left
  · simpa only [if_neg holds] using right

theorem settles_ite_iff {p : Prop} [Decidable p] {x y : Nat → Option β} :
    Settles (fun n => if p then x n else y n) r ↔ (p → Settles x r) ∧ (¬ p → Settles y r) := by
  by_cases holds : p
  · simp [holds]
  · simp [holds]

theorem Growing.unique {x : Nat → Option β} (grows : Growing x) (left : Settles x r) (right : Settles x r') : r = r' := by
  obtain ⟨n,left⟩ := left
  obtain ⟨m,right⟩ := right
  have left' := grows n (max n m) r left (Nat.le_max_left n m)
  have right' := grows m (max n m) r' right (Nat.le_max_right n m)
  exact Option.some.inj (left'.symm.trans right')

theorem Growing.bind {x : Nat → Option β} {f : β → Nat → Option γ} (grows : Growing x) (each : ∀ r, Growing (f r)) :
    Growing (fun n => (x n).bind fun r => f r n) := by
  intro n m c result more
  obtain ⟨r,first,second⟩ := Option.bind_eq_some_iff.mp result
  exact Option.bind_eq_some_iff.mpr ⟨r,grows n m r first more,each r n m c second more⟩

theorem settles_bind_iff {x : Nat → Option β} {f : β → Nat → Option γ} (grows : Growing x) (each : ∀ r, Growing (f r)) :
    Settles (fun n => (x n).bind fun r => f r n) c ↔ ∃ r, Settles x r ∧ Settles (f r) c := by
  constructor
  · rintro ⟨n,result⟩
    obtain ⟨r,first,second⟩ := Option.bind_eq_some_iff.mp result
    exact ⟨r,⟨n,first⟩,⟨n,second⟩⟩
  · rintro ⟨r,⟨n,first⟩,⟨m,second⟩⟩
    -- one number of steps that suffices for both
    have first' := grows n (max n m) r first (Nat.le_max_left n m)
    have second' := each r m (max n m) c second (Nat.le_max_right n m)
    exact ⟨max n m,Option.bind_eq_some_iff.mpr ⟨r,first',second'⟩⟩

end

variable {α : Type u}

/-- The first item of a chain at which it stops, in so many items at most. -/
def firstOf (next : α → Option α) (stop : α → Bool) : Nat → α → Option (Option α)
  | 0,_ => none
  | n + 1,a => if stop a then some (some a) else (next a).elim (some none) (firstOf next stop n)

variable {next : α → Option α} {stop : α → Bool}

theorem firstOf_stop (stops : stop a = true) (n : Nat) : firstOf next stop (n + 1) a = some (some a) := by
  rw [firstOf,if_pos stops]

theorem firstOf_last (onward : stop a = false) (last : next a = none) (n : Nat) : firstOf next stop (n + 1) a = some none := by
  rw [firstOf,last,onward]
  rfl

theorem firstOf_onward (onward : Onward next stop a b) (n : Nat) : firstOf next stop (n + 1) a = firstOf next stop n b := by
  rw [firstOf,onward.2,onward.1]
  rfl

theorem firstOf_isSome_iff : (firstOf next stop n a).isSome ↔ endsWithin next stop n a = true := by
  induction n generalizing a with
  | zero => exact iff_of_false (by simp [firstOf]) (by simp [endsWithin])
  | succ n ih =>
    rw [endsWithin]
    cases stops : stop a with
    | true => simp [firstOf_stop stops]
    | false =>
      cases goes : next a with
      | none => simp [firstOf_last stops goes]
      | some b => simp [firstOf_onward ⟨stops,goes⟩,ih]

theorem firstOf_mono (result : firstOf next stop n a = some r) (more : n ≤ m) : firstOf next stop m a = some r := by
  induction n generalizing m a with
  | zero => cases result
  | succ n ih =>
    obtain ⟨m,rfl⟩ := Nat.exists_eq_add_of_le' (Nat.le_trans (Nat.le_add_left 1 n) more)
    cases stops : stop a with
    | true =>
      rw [firstOf_stop stops] at result ⊢
      exact result
    | false =>
      cases goes : next a with
      | none =>
        rw [firstOf_last stops goes] at result ⊢
        exact result
      | some b =>
        rw [firstOf_onward ⟨stops,goes⟩] at result ⊢
        exact ih result (Nat.le_of_succ_le_succ more)

theorem growing_found (a : α) : Growing (fun n => (firstOf next stop n a).map Option.isSome) := by
  intro n m found result more
  obtain ⟨r,first,rfl⟩ := Option.map_eq_some_iff.mp result
  exact Option.map_eq_some_iff.mpr ⟨r,firstOf_mono first more,rfl⟩

theorem firstOf_spec (found : firstOf next stop n a = some r) (b : α) :
    r = some b ↔ Relation.ReflTransGen (Onward next stop) a b ∧ stop b = true := by
  induction n generalizing a with
  | zero => cases found
  | succ n ih =>
    cases stops : stop a with
    | true =>
      rw [firstOf_stop stops] at found
      obtain rfl := Option.some.inj found
      constructor
      · intro same
        obtain rfl := Option.some.inj same
        exact ⟨.refl,stops⟩
      · rintro ⟨path,-⟩
        rcases Relation.ReflTransGen.cases_head path with rfl | ⟨c,onward,-⟩
        · rfl
        · rw [onward.1] at stops
          cases stops
    | false =>
      have further : (r = some b ↔ ∃ c, Onward next stop a c ∧ Relation.ReflTransGen (Onward next stop) c b ∧ stop b = true) := by
        cases goes : next a with
        | none =>
          rw [firstOf_last stops goes] at found
          obtain rfl := Option.some.inj found
          exact iff_of_false (fun none => by cases none) fun ⟨c,onward,_⟩ => by rw [onward.2] at goes; cases goes
        | some c =>
          rw [firstOf_onward ⟨stops,goes⟩] at found
          rw [ih found]
          constructor
          · exact fun rest => ⟨c,⟨stops,goes⟩,rest⟩
          · rintro ⟨d,onward,rest⟩
            obtain rfl := Option.some.inj (goes.symm.trans onward.2)
            exact rest
      rw [further]
      constructor
      · rintro ⟨c,onward,path,stopped⟩
        exact ⟨.head onward path,stopped⟩
      · rintro ⟨path,stopped⟩
        rcases Relation.ReflTransGen.cases_head path with rfl | ⟨c,onward,rest⟩
        · rw [stopped] at stops
          cases stops
        · exact ⟨c,onward,rest,stopped⟩

theorem exists_firstOf_of_not_loops {known : List α} (closed : ∀ a b, next a = some b → b ∈ known)
    (straight : ¬ Loops next stop a) : ∃ n, (firstOf next stop n a).isSome := by
  have ends := (endsWithin_from_iff closed (Nat.lt_succ_self _)).mpr straight
  exact ⟨_,firstOf_isSome_iff.mpr ends⟩

theorem stopped_unique (left : Relation.ReflTransGen (Onward next stop) a b) (stops : stop b = true)
    (right : Relation.ReflTransGen (Onward next stop) a c) (stops' : stop c = true) : b = c := by
  have final {d e : α} (path : Relation.ReflTransGen (Onward next stop) d e) (last : stop d = true) : d = e := by
    rcases Relation.ReflTransGen.cases_head path with same | ⟨f,onward,-⟩
    · exact same
    · rw [onward.1] at last
      cases last
  have deterministic : Relator.RightUnique (Onward next stop) :=
    fun _ _ _ one other => Option.some.inj (one.2.symm.trans other.2)
  rcases Relation.ReflTransGen.total_of_right_unique deterministic left right with path | path
  · exact final path stops
  · exact (final path stops').symm

theorem settles_firstOf_iff {known : List α} (closed : ∀ a b, next a = some b → b ∈ known) :
    Settles (firstOf next stop · a) r ↔ ¬ Loops next stop a ∧
      ∀ b, r = some b ↔ Relation.ReflTransGen (Onward next stop) a b ∧ stop b = true := by
  constructor
  · rintro ⟨n,found⟩
    exact ⟨not_loops_of_endsWithin (firstOf_isSome_iff.mp (Option.isSome_iff_exists.mpr ⟨r,found⟩)),firstOf_spec found⟩
  · rintro ⟨straight,stopped⟩
    obtain ⟨n,ends⟩ := exists_firstOf_of_not_loops closed straight
    obtain ⟨r',found⟩ := Option.isSome_iff_exists.mp ends
    have same : r' = r := Option.ext fun b => (firstOf_spec found b).trans (stopped b).symm
    exact ⟨_,same ▸ found⟩

theorem settles_found_iff {known : List α} (closed : ∀ a b, next a = some b → b ∈ known) :
    Settles (fun n => (firstOf next stop n a).map Option.isSome) found ↔ ¬ Loops next stop a ∧
      (found = true ↔ ∃ b, Relation.ReflTransGen (Onward next stop) a b ∧ stop b = true) := by
  constructor
  · rintro ⟨n,result⟩
    obtain ⟨r,first,rfl⟩ := Option.map_eq_some_iff.mp result
    obtain ⟨straight,stopped⟩ := (settles_firstOf_iff closed).mp ⟨n,first⟩
    exact ⟨straight,Option.isSome_iff_exists.trans (exists_congr stopped)⟩
  · rintro ⟨straight,stopped⟩
    obtain ⟨n,ends⟩ := exists_firstOf_of_not_loops closed straight
    obtain ⟨r,first⟩ := Option.isSome_iff_exists.mp ends
    have same : r.isSome = found := by
      rw [Bool.eq_iff_iff,stopped]
      exact Option.isSome_iff_exists.trans (exists_congr (firstOf_spec first))
    exact ⟨n,Option.map_eq_some_iff.mpr ⟨r,first,same⟩⟩

theorem exists_onward_iff : (∃ b, Relation.ReflTransGen (Onward next stop) a b ∧ stop b = true) ↔
    ∃ b, Relation.ReflTransGen (fun c d => next c = some d) a b ∧ stop b = true := by
  constructor
  · rintro ⟨b,path,stopped⟩
    exact ⟨b,Relation.ReflTransGen.mono (fun _ _ onward => onward.2) _ _ path,stopped⟩
  · rintro ⟨b,path,stopped⟩
    induction path using Relation.ReflTransGen.head_induction_on with
    | refl => exact ⟨b,.refl,stopped⟩
    | @head c d goes _ ih =>
      cases stops : stop c with
      | true => exact ⟨c,.refl,stops⟩
      | false =>
        obtain ⟨e,path,last⟩ := ih
        exact ⟨e,.head ⟨stops,goes⟩ path,last⟩

end ApexLs.Collections
