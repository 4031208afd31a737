import Mathlib.Data.List.Sort
import ApexLs.Collections.TolerantRanking

/-! What a stable sort puts first: the first of the items that no other precedes. Where the items
come of a list that is itself sorted by position, the choice depends on the listing only among items
that tie at one position. -/
namespace ApexLs.Collections

variable {α ι : Type*}

def First (r : α → α → Prop) (l : List α) (a : α) : Prop :=
  ∃ front back, l = front ++ a :: back ∧ (∀ b ∈ front, r a b) ∧ ∀ b ∈ back, ¬ r b a

variable {r le : α → α → Prop} [DecidableRel le] {S : α → Prop}

theorem head?_insertionSort_cons (a : α) (l : List α) : ((a :: l).insertionSort le).head? =
    some ((l.insertionSort le).head?.elim a fun b => if le a b then a else b) := by
  rw [List.insertionSort_cons]
  cases l.insertionSort le with
  | nil => rfl
  | cons b rest =>
    rw [List.orderedInsert_cons]
    split
    next before => simp [before]
    next after => simp [after]

omit [DecidableRel le] in
theorem First.unique {l : List α} {a a' : α} (first : First r l a) (first' : First r l a') : a = a' := by
  obtain ⟨front,back,rfl,leads,behind⟩ := first
  obtain ⟨front',back',cut,leads',behind'⟩ := first'
  rcases List.append_eq_append_iff.mp cut with ⟨between,rfl,rest⟩ | ⟨between,rfl,rest⟩
  · cases between with
    | nil => exact (List.cons.inj rest).1
    | cons c between =>
      obtain ⟨rfl,rfl⟩ := List.cons.inj rest
      exact absurd (leads' a (by simp)) (behind a' (by simp))
  · cases between with
    | nil => exact (List.cons.inj rest).1.symm
    | cons c between =>
      obtain ⟨rfl,rfl⟩ := List.cons.inj rest
      exact absurd (leads a' (by simp)) (behind' a (by simp))

omit [DecidableRel le] in
theorem First.mem {l : List α} {a : α} (first : First r l a) : a ∈ l := by
  obtain ⟨front,back,rfl,_⟩ := first
  simp

theorem First.led (weak : WeakOrderOn S r) {l : List α} (within : ∀ x ∈ l, S x) {a : α} (first : First r l a) :
    ∀ x ∈ l, ¬ r x a := by
  obtain ⟨front,back,rfl,leads,behind⟩ := first
  intro x member
  rcases List.mem_append.mp member with early | late
  · exact weak.asymm a x (within a (by simp)) (within x member) (leads x early)
  · rcases List.mem_cons.mp late with rfl | last
    · exact weak.irrefl (within x member)
    · exact behind x last

theorem exists_first (weak : WeakOrderOn S r) (sorts : ∀ x y, le x y ↔ ¬ r y x) {l : List α} (within : ∀ x ∈ l, S x)
    (nonempty : l ≠ []) : ∃ a, (l.insertionSort le).head? = some a ∧ First r l a := by
  induction l with
  | nil => exact absurd rfl nonempty
  | cons c rest ih =>
    have later : ∀ x ∈ rest, S x := fun x member => within x (List.mem_cons_of_mem _ member)
    cases rest with
    | nil => exact ⟨c,rfl,[],[],rfl,by simp,by simp⟩
    | cons d rest =>
      obtain ⟨b,best,first⟩ := ih later (by simp)
      have led := first.led weak later
      rw [head?_insertionSort_cons,best,Option.elim_some]
      by_cases before : le c b
      · refine ⟨c,by rw [if_pos before],[],_,rfl,by simp,fun x member related => ?_⟩
        have inB : S b := later b first.mem
        rcases weak.through x b c (later x member) inB (within c List.mem_cons_self) related with under | above
        · exact led x member under
        · exact (sorts c b).mp before above
      · obtain ⟨front,back,cut,leads,behind⟩ := first
        refine ⟨b,by rw [if_neg before],c :: front,back,by rw [cut,List.cons_append],fun x member => ?_,behind⟩
        rcases List.mem_cons.mp member with rfl | early
        · exact Classical.not_not.mp (mt (sorts x b).mpr before)
        · exact leads x early

theorem head?_insertionSort (weak : WeakOrderOn S r) (sorts : ∀ x y, le x y ↔ ¬ r y x) {l : List α} (within : ∀ x ∈ l, S x)
    {a : α} : (l.insertionSort le).head? = some a ↔ First r l a := by
  constructor
  · intro best
    have nonempty : l ≠ [] := by
      rintro rfl
      cases best
    obtain ⟨b,found,first⟩ := exists_first weak sorts within nonempty
    obtain rfl := Option.some.inj (best.symm.trans found)
    exact first
  · intro first
    obtain ⟨b,found,first'⟩ := exists_first weak sorts within (List.ne_nil_of_mem first.mem)
    rw [found,first.unique first']

theorem First.ahead {l : List α} {a : α} (first : First r l a) {front back : List α} {c : α} (cut : l = front ++ c :: back)
    (apart : a ≠ c) : r a c ∨ ¬ r c a ∧ a ∈ front := by
  obtain ⟨front',back',cut',leads,behind⟩ := first
  rcases List.append_eq_append_iff.mp (cut.symm.trans cut') with ⟨between,rfl,rest⟩ | ⟨between,rfl,rest⟩
  · cases between with
    | nil => exact absurd (List.cons.inj rest).1.symm apart
    | cons d between =>
      obtain ⟨rfl,_⟩ := List.cons.inj rest
      exact .inl (leads c (by simp))
  · cases between with
    | nil => exact absurd (List.cons.inj rest).1 apart
    | cons d between =>
      obtain ⟨rfl,rfl⟩ := List.cons.inj rest
      exact .inr ⟨behind c (by simp),by simp⟩

theorem First.push (weak : WeakOrderOn (fun _ => True) r) {l : List α} {a b : α} (first : First r l a) (before : r b a) :
    First r (l ++ [b]) b := by
  obtain ⟨front,back,rfl,leads,behind⟩ := first
  refine ⟨front ++ a :: back,[],by simp,fun x member => ?_,by simp⟩
  have onward (related : r a x) : r b x := by
    rcases weak.through b x a trivial trivial trivial before with direct | around
    · exact direct
    · exact absurd related (weak.asymm x a trivial trivial around)
  rcases List.mem_append.mp member with early | late
  · exact onward (leads x early)
  · rcases List.mem_cons.mp late with rfl | last
    · exact before
    · rcases weak.through b x a trivial trivial trivial before with direct | around
      · exact direct
      · exact absurd around (behind x last)

theorem First.keep {l : List α} {a b : α} (first : First r l a) (after : ¬ r b a) : First r (l ++ [b]) a := by
  obtain ⟨front,back,rfl,leads,behind⟩ := first
  refine ⟨front,back ++ [b],by simp,leads,fun x member => ?_⟩
  rcases List.mem_append.mp member with early | late
  · exact behind x early
  · rwa [List.mem_singleton.mp late]

theorem find?_mergeSort {le : α → α → Bool} (weak : WeakOrderOn (fun _ => True) r) (sorts : ∀ x y, le x y = true ↔ ¬ r y x)
    (p : α → Bool) {l : List α} {a : α} (found : (l.mergeSort le).find? p = some a) : First r (l.filter p) a := by
  have trans (x y z : α) (first : le x y = true) (second : le y z = true) : le x z = true := by
    refine (sorts x z).mpr fun back => ?_
    rcases weak.through z y x trivial trivial trivial back with left | right
    · exact (sorts y z).mp second left
    · exact (sorts x y).mp first right
  have total (x y : α) : (le x y || le y x) = true := by
    rw [Bool.or_eq_true,sorts,sorts]
    by_cases before : r y x
    · exact .inr (weak.asymm y x trivial trivial before)
    · exact .inl before
  induction l with
  | nil => simp at found
  | cons c l ih =>
    obtain ⟨early,late,sorted,rest,above⟩ := List.mergeSort_cons trans total c l
    have ordered := List.pairwise_mergeSort trans total (c :: l)
    rw [sorted] at found ordered
    rw [rest,List.find?_append] at ih
    rw [List.find?_append] at found
    cases ahead : early.find? p with
    | some b =>
      rw [ahead,Option.some_or] at found ih
      obtain rfl := Option.some.inj found
      have first := ih rfl
      rw [List.filter_cons]
      split
      next =>
        obtain ⟨front,back,cut,leads,behind⟩ := first
        have before : r b c := by
          have after := above b (List.mem_of_find?_eq_some ahead)
          rw [Bool.not_eq_true',← Bool.not_eq_true,sorts] at after
          exact Classical.not_not.mp after
        refine ⟨c :: front,back,by rw [cut,List.cons_append],fun x member => ?_,behind⟩
        rcases List.mem_cons.mp member with rfl | other
        · exact before
        · exact leads x other
      next => exact first
    | none =>
      rw [ahead,Option.none_or] at found ih
      rw [List.filter_cons]
      split
      next kind =>
        rw [List.find?_cons_of_pos kind] at found
        obtain rfl := Option.some.inj found
        refine ⟨[],l.filter p,rfl,by simp,fun x member => ?_⟩
        obtain ⟨listed,alike⟩ := List.mem_filter.mp member
        have placed : x ∈ early ++ late := rest ▸ List.mem_mergeSort.mpr listed
        rcases List.mem_append.mp placed with inEarly | inLate
        · exact absurd alike (List.find?_eq_none.mp ahead x inEarly)
        · have tail := (List.pairwise_append.mp ordered).2.1
          exact (sorts c x).mp ((List.pairwise_cons.mp tail).1 x inLate)
      next other =>
        rw [List.find?_cons_of_neg other] at found
        exact ih found

theorem first_foldl [DecidableRel r] (weak : WeakOrderOn (fun _ => True) r) (a : α) (l : List α) :
    First r (a :: l) (l.foldl (fun best b => if r b best then b else best) a) := by
  suffices walk : ∀ seen best, First r seen best →
      First r (seen ++ l) (l.foldl (fun best b => if r b best then b else best) best) from
    walk [a] a ⟨[],[],rfl,by simp,by simp⟩
  induction l with
  | nil => exact fun seen best first => by simpa using first
  | cons b l ih =>
    intro seen best first
    rw [List.foldl_cons,List.append_cons]
    split
    next before => exact ih _ b (first.push weak before)
    next after => exact ih _ best (first.keep after)

section

variable (r le : α → α → Prop) [DecidableRel le] (f : ι → Option α) (pos : ι → ℕ)

/-- The item that a stable sort puts first among those that the entries give, from the earliest entry on. -/
def chosen (l : List ι) : Option α :=
  (((l.insertionSort fun x y => pos x ≤ pos y).filterMap f).insertionSort le).head?

/-- No item of the list precedes what the entry gives, and those that it does not precede come no earlier. -/
structure Leading (l : List ι) (x : ι) (a : α) : Prop where
  member : x ∈ l
  gives : f x = some a
  led : ∀ y ∈ l, ∀ b, f y = some b → ¬ r b a
  early : ∀ y ∈ l, ∀ b, f y = some b → ¬ r a b → pos x ≤ pos y

variable {r le f pos}

omit [DecidableRel le] in
theorem Leading.perm {l l' : List ι} {x : ι} {a : α} (leading : Leading r f pos l x a) (same : l.Perm l') :
    Leading r f pos l' x a :=
  ⟨same.mem_iff.mp leading.member,leading.gives,fun y member => leading.led y (same.mem_iff.mpr member),
    fun y member => leading.early y (same.mem_iff.mpr member)⟩

theorem chosen_eq_none {l : List ι} : chosen le f pos l = none ↔ ∀ x ∈ l, f x = none := by
  rw [chosen,List.head?_eq_none_iff,← List.length_eq_zero_iff,List.length_insertionSort,List.length_eq_zero_iff,
    List.filterMap_eq_nil_iff]
  simp only [List.mem_insertionSort]

section

variable {S : α → Prop} (weak : WeakOrderOn S r) (sorts : ∀ x y, le x y ↔ ¬ r y x) (within : ∀ x a, f x = some a → S a)

include weak sorts within

theorem chosen_eq_some {l : List ι} {a : α} : chosen le f pos l = some a ↔
    First r ((l.insertionSort fun x y => pos x ≤ pos y).filterMap f) a := by
  refine head?_insertionSort weak sorts fun b member => ?_
  obtain ⟨x,_,gives⟩ := List.mem_filterMap.mp member
  exact within x b gives

theorem leading_of_chosen {l : List ι} {a : α} (best : chosen le f pos l = some a) : ∃ x, Leading r f pos l x a := by
  have first := (chosen_eq_some weak sorts within).mp best
  have led := first.led weak fun b member => by
    obtain ⟨x,_,gives⟩ := List.mem_filterMap.mp member
    exact within x b gives
  have placed := List.pairwise_insertionSort (fun x y : ι => pos x ≤ pos y) l
  obtain ⟨front,back,cut,leads,behind⟩ := first
  obtain ⟨before,rest,listed,rfl,restCut⟩ := List.filterMap_eq_append_iff.mp cut
  obtain ⟨skipped,x,after,rfl,nothing,gives,rfl⟩ := List.filterMap_eq_cons_iff.mp restCut
  have covers {y : ι} (member : y ∈ l) : y ∈ before ∨ y ∈ skipped ∨ y = x ∨ y ∈ after := by
    have sorted : y ∈ l.insertionSort fun x y => pos x ≤ pos y := (List.mem_insertionSort _).mpr member
    rw [listed] at sorted
    simpa using sorted
  refine ⟨x,?_,gives,fun y member b gives' => ?_,fun y member b gives' behind' => ?_⟩
  · rw [← List.mem_insertionSort fun x y : ι => pos x ≤ pos y,listed]
    simp
  · exact led b (List.mem_filterMap.mpr ⟨y,(List.mem_insertionSort _).mpr member,gives'⟩)
  · rcases covers member with early | missed | rfl | late
    · exact absurd (leads b (List.mem_filterMap.mpr ⟨y,early,gives'⟩)) behind'
    · cases (nothing y missed).symm.trans gives'
    · exact le_rfl
    · rw [listed,List.pairwise_append,List.pairwise_append,List.pairwise_cons] at placed
      exact placed.2.1.2.1.1 y late

theorem chosen_of_leading {l : List ι} {x : ι} {a : α} (leading : Leading r f pos (x :: l) x a) :
    chosen le f pos (x :: l) = some a := by
  rw [chosen_eq_some weak sorts within,List.insertionSort_cons_eq_take_drop,List.filterMap_append,
    List.filterMap_cons_some leading.gives]
  refine ⟨_,_,rfl,fun b member => ?_,fun b member => ?_⟩
  · obtain ⟨y,taken,gives⟩ := List.mem_filterMap.mp member
    have listed : y ∈ x :: l := List.mem_cons_of_mem _ ((List.mem_insertionSort _).mp (List.takeWhile_sublist _ |>.mem taken))
    have earlier := List.all_eq_true.mp List.all_takeWhile y taken
    by_contra behind
    exact absurd (leading.early y listed b gives behind) (by simpa using earlier)
  · obtain ⟨y,dropped,gives⟩ := List.mem_filterMap.mp member
    have listed : y ∈ x :: l := List.mem_cons_of_mem _ ((List.mem_insertionSort _).mp (List.dropWhile_sublist _ |>.mem dropped))
    exact leading.led y listed b gives

theorem chosen_filter_perm_iff (keep : α → Bool) {l : List ι} :
    (∀ l', l'.Perm l → (chosen le f pos l').filter keep = (chosen le f pos l).filter keep) ↔
      ∀ x a y b, Leading r f pos l x a → Leading r f pos l y b → (some a).filter keep = (some b).filter keep := by
  constructor
  · intro free x a y b leading leading'
    have brought {z : ι} {c : α} (leads : Leading r f pos l z c) :
        (some c).filter keep = (chosen le f pos l).filter keep := by
      obtain ⟨front,back,rfl⟩ := List.append_of_mem leads.member
      have relisted := free (z :: (front ++ back)) List.perm_middle.symm
      rwa [chosen_of_leading weak sorts within (leads.perm List.perm_middle)] at relisted
    rw [brought leading,brought leading']
  · intro agree l' same
    cases best : chosen le f pos l with
    | none =>
      rw [chosen_eq_none] at best
      rw [chosen_eq_none.mpr fun x member => best x (same.mem_iff.mp member)]
    | some a =>
      cases best' : chosen le f pos l' with
      | none =>
        rw [chosen_eq_none] at best'
        rw [chosen_eq_none.mpr fun x member => best' x (same.mem_iff.mpr member)] at best
        cases best
      | some b =>
        obtain ⟨x,leading⟩ := leading_of_chosen weak sorts within best
        obtain ⟨y,leading'⟩ := leading_of_chosen weak sorts within best'
        exact agree y b x a (leading'.perm same) leading

end

end

end ApexLs.Collections
