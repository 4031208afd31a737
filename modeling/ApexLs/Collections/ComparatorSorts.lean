import ApexLs.Collections.StableChoice

/-! Sorts that take a comparison function, as a language promises them: a stable sort where the
comparison is consistent on the items, and some permutation where it is not. -/
namespace ApexLs.Collections

variable {α : Type*}

/-- The comparison is a weak order on the items, and answers the other way round with the other sign. -/
structure Consistent (cmp : α → α → ℤ) (l : List α) : Prop where
  weak : WeakOrderOn (· ∈ l) (fun x y => cmp x y < 0)
  swap : ∀ x ∈ l, ∀ y ∈ l, cmp y x = -cmp x y

theorem Consistent.perm {cmp : α → α → ℤ} {l l' : List α} (consistent : Consistent cmp l) (same : l'.Perm l) :
    Consistent cmp l' :=
  ⟨consistent.weak.mono fun _ member => same.mem_iff.mp member,
    fun x inX y inY => consistent.swap x (same.mem_iff.mp inX) y (same.mem_iff.mp inY)⟩

structure ArraySort (α : Type u) where
  sort : (α → α → ℤ) → List α → List α
  perm : ∀ cmp l, (sort cmp l).Perm l
  sorted : ∀ cmp l, Consistent cmp l → (sort cmp l).Pairwise fun x y => cmp x y ≤ 0
  stable : ∀ cmp (l part : List α), Consistent cmp l → part.Sublist l → (part.Pairwise fun x y => cmp x y ≤ 0) →
    part.Sublist (sort cmp l)

theorem pairwise_insertionSort_of_consistent {cmp : α → α → ℤ} {l : List α} (consistent : Consistent cmp l) :
    (l.insertionSort fun x y => cmp x y ≤ 0).Pairwise fun x y => cmp x y ≤ 0 := by
  let le : {x // x ∈ l} → {x // x ∈ l} → Prop := fun x y => cmp x y ≤ 0
  have le_iff (x y : {x // x ∈ l}) : le x y ↔ ¬ cmp y x < 0 := by
    rw [consistent.swap x x.2 y y.2]
    simp only [le]
    omega
  have total : Std.Total le := by
    refine ⟨fun x y => ?_⟩
    rw [le_iff,le_iff]
    by_cases before : cmp y x < 0
    · exact .inr (consistent.weak.asymm y x y.2 x.2 before)
    · exact .inl before
  have trans : IsTrans {x // x ∈ l} le := by
    refine ⟨fun x y z first second => ?_⟩
    rw [le_iff] at first second ⊢
    intro back
    rcases consistent.weak.through z y x z.2 y.2 x.2 back with later | earlier
    · exact second later
    · exact first earlier
  have lifted : (l.insertionSort fun x y => cmp x y ≤ 0) = (l.attach.insertionSort le).map Subtype.val := by
    rw [List.map_insertionSort (s := fun x y => cmp x y ≤ 0) _ _ _ fun _ _ _ _ => Iff.rfl,List.attach_map_subtype_val]
  rw [lifted,List.pairwise_map]
  exact List.pairwise_insertionSort le l.attach

namespace ArraySort

open Classical in
/-- A sort that leaves the items alone where the comparison is not consistent. -/
noncomputable def lazy : ArraySort α where
  sort cmp l := if Consistent cmp l then l.insertionSort fun x y => cmp x y ≤ 0 else l
  perm cmp l := by
    split
    · exact List.perm_insertionSort _ l
    · exact List.Perm.refl l
  sorted cmp l consistent := by
    rw [if_pos consistent]
    exact pairwise_insertionSort_of_consistent consistent
  stable cmp l part consistent inner sorted := by
    rw [if_pos consistent]
    exact List.sublist_insertionSort sorted inner

theorem lazy_inconsistent {cmp : α → α → ℤ} {l : List α} (inconsistent : ¬ Consistent cmp l) :
    lazy.sort cmp l = l := if_neg inconsistent

theorem lazy_consistent {cmp : α → α → ℤ} {l : List α} (consistent : Consistent cmp l) :
    lazy.sort cmp l = l.insertionSort fun x y => cmp x y ≤ 0 := if_pos consistent

theorem head?_of_least (s : ArraySort α) {cmp : α → α → ℤ} {l : List α} {a : α} (consistent : Consistent cmp l)
    (member : a ∈ l) (least : ∀ b ∈ l, b ≠ a → cmp a b < 0) : (s.sort cmp l).head? = some a := by
  have inside : a ∈ s.sort cmp l := (s.perm cmp l).mem_iff.mpr member
  cases sorted : s.sort cmp l with
  | nil =>
    rw [sorted] at inside
    cases inside
  | cons h rest =>
    by_contra other
    have apart : h ≠ a := fun same => other (by rw [same]; rfl)
    have inH : h ∈ l := (s.perm cmp l).mem_iff.mp (by rw [sorted]; exact .head _)
    have before := s.sorted cmp l consistent
    rw [sorted] at before inside
    have behind := (List.pairwise_cons.mp before).1 a ((List.mem_cons.mp inside).resolve_left (Ne.symm apart))
    have ahead := least h inH apart
    rw [consistent.swap a member h inH] at behind
    omega

end ArraySort

theorem exists_perm_cons {l : List α} {a : α} (member : a ∈ l) : ∃ rest, (a :: rest).Perm l := by
  obtain ⟨front,back,rfl⟩ := List.append_of_mem member
  exact ⟨front ++ back,List.perm_middle.symm⟩

theorem not_fixed_of_two {l : List α} {a b : α} (inA : a ∈ l) (inB : b ∈ l) (apart : a ≠ b) (c : α) :
    ¬ ∀ listed : List α, listed.Perm l → listed.head? = some c := by
  intro fixed
  obtain ⟨rest,same⟩ := exists_perm_cons inA
  obtain ⟨rest',same'⟩ := exists_perm_cons inB
  have first : a = c := by simpa using fixed _ same
  have second : b = c := by simpa using fixed _ same'
  exact apart (first.trans second.symm)

/-- What comes first does not depend on the listing nor on the sort exactly when the comparison is a
weak order on the items and one of them precedes all others. -/
theorem head?_free_iff {cmp : α → α → ℤ} {l : List α} (swap : ∀ x y, cmp y x = -cmp x y) :
    (∃ a, ∀ s : ArraySort α, ∀ listed : List α, listed.Perm l → (s.sort cmp listed).head? = some a) ↔
      WeakOrderOn (· ∈ l) (fun x y => cmp x y < 0) ∧ ∃ a ∈ l, ∀ b ∈ l, b ≠ a → cmp a b < 0 := by
  constructor
  · rintro ⟨a,free⟩
    have chosen := free ArraySort.lazy
    have consistent : Consistent cmp l := by
      refine ⟨?_,fun x _ y _ => swap x y⟩
      by_contra tangled
      have inconsistent (listed : List α) (same : listed.Perm l) : ¬ Consistent cmp listed :=
        fun holds => tangled (holds.perm same.symm).weak
      -- the items are all one, or the listing shows
      by_cases two : ∃ x ∈ l, ∃ y ∈ l, x ≠ y
      · obtain ⟨x,inX,y,inY,apart⟩ := two
        apply not_fixed_of_two inX inY apart a
        intro listed same
        rw [← ArraySort.lazy_inconsistent (inconsistent listed same)]
        exact chosen listed same
      · have one : ∀ x ∈ l, ∀ y ∈ l, x = y := by
          intro x inX y inY
          by_contra apart
          exact two ⟨x,inX,y,inY,apart⟩
        refine tangled ⟨fun x y inX inY before => ?_,fun x y z inX inY inZ before => ?_⟩
        · rw [swap x y]
          omega
        · rw [one x inX z inZ] at before
          have even := swap z z
          omega
    have first (listed : List α) (same : listed.Perm l) : First (fun x y => cmp x y < 0) listed a := by
      have best := chosen listed same
      rw [ArraySort.lazy_consistent (consistent.perm same)] at best
      refine (head?_insertionSort (consistent.perm same).weak (fun x y => ?_) (fun x member => member)).mp best
      rw [swap x y]
      omega
    refine ⟨consistent.weak,a,(first l (List.Perm.refl l)).mem,fun b inB apart => ?_⟩
    obtain ⟨rest,same⟩ := exists_perm_cons inB
    have cut : b :: rest = [] ++ b :: rest := rfl
    rcases (first _ same).ahead cut (Ne.symm apart) with before | ⟨_,inside⟩
    · exact before
    · cases inside
  · rintro ⟨weak,a,member,least⟩
    refine ⟨a,fun s listed same => ?_⟩
    apply s.head?_of_least (Consistent.perm ⟨weak,fun x _ y _ => swap x y⟩ same) (same.mem_iff.mpr member)
    exact fun b inB => least b (same.mem_iff.mp inB)

end ApexLs.Collections
