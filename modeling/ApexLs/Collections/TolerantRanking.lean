import Mathlib.Order.Lattice
import Mathlib.Order.Monotone.Defs
import Mathlib.Order.Nat
import Mathlib.Order.RelClasses

/-! Rankings by a grade that is compared up to a tolerance, the nearer item first within it. A
tolerance is not transitive; the ranking still is a weak order where the grades are few and apart,
or where they fall with the distance. -/
namespace ApexLs.Collections

variable {α : Type*}

structure WeakOrderOn (S : α → Prop) (r : α → α → Prop) : Prop where
  asymm : ∀ x y, S x → S y → r x y → ¬ r y x
  through : ∀ x y z, S x → S y → S z → r x z → r x y ∨ r y z

namespace WeakOrderOn

variable {S : α → Prop} {r : α → α → Prop}

theorem irrefl (weak : WeakOrderOn S r) (member : S x) : ¬ r x x := fun related => weak.asymm x x member member related related

theorem isStrictWeakOrder (weak : WeakOrderOn S r) : IsStrictWeakOrder {x // S x} (fun x y => r x y) := by
  have asymmetric : Std.Asymm fun x y : {x // S x} => r x y := ⟨fun x y => weak.asymm x y x.2 y.2⟩
  have connected : IsOrderConnected {x // S x} fun x y => r x y := ⟨fun x y z => weak.through x y z x.2 y.2 z.2⟩
  exact isStrictWeakOrder_of_isOrderConnected

theorem mono {S' : α → Prop} (weak : WeakOrderOn S r) (sub : ∀ x, S' x → S x) : WeakOrderOn S' r :=
  ⟨fun x y inX inY => weak.asymm x y (sub x inX) (sub y inY),
    fun x y z inX inY inZ => weak.through x y z (sub x inX) (sub y inY) (sub z inZ)⟩

theorem congr {r' : α → α → Prop} (weak : WeakOrderOn S r') (same : ∀ x y, S x → S y → (r x y ↔ r' x y)) :
    WeakOrderOn S r := by
  refine ⟨fun x y inX inY => ?_,fun x y z inX inY inZ => ?_⟩
  · rw [same x y inX inY,same y x inY inX]
    exact weak.asymm x y inX inY
  · rw [same x z inX inZ,same x y inX inY,same y z inY inZ]
    exact weak.through x y z inX inY inZ

theorem lex (rank : α → Nat) (within : ∀ n, WeakOrderOn (fun x => S x ∧ rank x = n) r)
    (apart : ∀ x y, S x → S y → rank x ≠ rank y → (r x y ↔ rank x < rank y)) : WeakOrderOn S r := by
  constructor
  · intro x y inX inY related back
    by_cases same : rank x = rank y
    · exact (within (rank y)).asymm x y ⟨inX,same⟩ ⟨inY,rfl⟩ related back
    · have first := (apart x y inX inY same).mp related
      have second := (apart y x inY inX (Ne.symm same)).mp back
      omega
  · intro x y z inX inY inZ related
    by_cases same : rank x = rank y
    · by_cases same' : rank y = rank z
      · exact (within (rank z)).through x y z ⟨inX,same.trans same'⟩ ⟨inY,same'⟩ ⟨inZ,rfl⟩ related
      · right
        rw [apart y z inY inZ same',← same]
        exact (apart x z inX inZ (same ▸ same')).mp related
    · by_cases lower : rank x < rank y
      · exact .inl ((apart x y inX inY same).mpr lower)
      · have bound : rank x ≤ rank z := by
          by_cases level : rank x = rank z
          · exact level.le
          · exact ((apart x z inX inZ level).mp related).le
        right
        rw [apart y z inY inZ (by omega)]
        omega

end WeakOrderOn

section

variable {γ δ : Type*} [LinearOrder γ] [LinearOrder δ]

/-- Closeness of grades: what lies between two close grades is close to both. -/
structure Tolerance (close : γ → γ → Prop) : Prop where
  refl : ∀ x, close x x
  symm : ∀ x y, close x y → close y x
  between : ∀ x y z, x ≤ y → y ≤ z → close x z → close x y ∧ close y z

/-- The nearer of two items of close grade, else the one of higher grade. -/
def Leads (close : γ → γ → Prop) (grade : α → γ) (distance : α → δ) (x y : α) : Prop :=
  close (grade x) (grade y) ∧ distance x < distance y ∨ ¬ close (grade x) (grade y) ∧ grade y < grade x

variable {close : γ → γ → Prop} {grade : α → γ} {distance : α → δ} {S : α → Prop}

theorem Leads.asymm (tolerance : Tolerance close) {x y : α} (leads : Leads close grade distance x y) :
    ¬ Leads close grade distance y x := by
  rintro (⟨near,nearer⟩ | ⟨far,higher⟩)
  · rcases leads with ⟨_,nearer'⟩ | ⟨far,_⟩
    · exact lt_asymm nearer nearer'
    · exact far (tolerance.symm _ _ near)
  · rcases leads with ⟨near,_⟩ | ⟨_,higher'⟩
    · exact far (tolerance.symm _ _ near)
    · exact lt_asymm higher higher'

theorem leads_of_transitive (tolerance : Tolerance close)
    (trans : ∀ x y z, S x → S y → S z → close (grade x) (grade y) → close (grade y) (grade z) → close (grade x) (grade z)) :
    WeakOrderOn S (Leads close grade distance) := by
  refine ⟨fun x y _ _ => Leads.asymm tolerance,fun x y z inX inY inZ leads => ?_⟩
  rcases leads with ⟨near,nearer⟩ | ⟨far,higher⟩
  · by_cases beside : close (grade x) (grade y)
    · have beside' := trans y x z inY inX inZ (tolerance.symm _ _ beside) near
      rcases lt_or_ge (distance x) (distance y) with first | last
      · exact .inl (.inl ⟨beside,first⟩)
      · exact .inr (.inl ⟨beside',lt_of_le_of_lt last nearer⟩)
    · have beside' : ¬ close (grade y) (grade z) := fun close' =>
        beside (trans x z y inX inZ inY near (tolerance.symm _ _ close'))
      rcases lt_or_ge (grade y) (grade x) with lower | upper
      · exact .inl (.inr ⟨beside,lower⟩)
      · refine .inr (.inr ⟨beside',lt_of_not_ge fun below => beside ?_⟩)
        exact (tolerance.between _ _ _ upper below near).1
  · by_cases beside : close (grade x) (grade y)
    · have beside' : ¬ close (grade y) (grade z) := fun close' => far (trans x y z inX inY inZ beside close')
      refine .inr (.inr ⟨beside',lt_of_not_ge fun below => beside' ?_⟩)
      exact (tolerance.between _ _ _ below higher.le (tolerance.symm _ _ beside)).1
    · rcases lt_or_ge (grade y) (grade x) with lower | upper
      · exact .inl (.inr ⟨beside,lower⟩)
      · refine .inr (.inr ⟨fun close' => far ?_,lt_of_lt_of_le higher upper⟩)
        exact tolerance.symm _ _ (tolerance.between _ _ _ higher.le upper (tolerance.symm _ _ close')).1

theorem Tolerance.trans_of_pair (tolerance : Tolerance close) {p q x y z : γ} (inX : x = p ∨ x = q) (inY : y = p ∨ y = q)
    (inZ : z = p ∨ z = q) (near : close x y) (near' : close y z) : close x z := by
  rcases inX with rfl | rfl
  · rcases inZ with rfl | rfl
    · exact tolerance.refl _
    · rcases inY with rfl | rfl
      · exact near'
      · exact near
  · rcases inZ with rfl | rfl
    · rcases inY with rfl | rfl
      · exact near
      · exact near'
    · exact tolerance.refl _

theorem Tolerance.trans_of_pairs (tolerance : Tolerance close) {p q p' q' x y z : γ}
    (apart : ∀ v w, (v = p ∨ v = q) → (w = p' ∨ w = q') → ¬ close v w)
    (inX : (x = p ∨ x = q) ∨ x = p' ∨ x = q') (inY : (y = p ∨ y = q) ∨ y = p' ∨ y = q')
    (inZ : (z = p ∨ z = q) ∨ z = p' ∨ z = q') (near : close x y) (near' : close y z) : close x z := by
  rcases inY with inY | inY
  · have inX' := inX.resolve_right fun other => apart y x inY other (tolerance.symm _ _ near)
    have inZ' := inZ.resolve_right fun other => apart y z inY other near'
    exact tolerance.trans_of_pair inX' inY inZ' near near'
  · have inX' := inX.resolve_left fun other => apart x y other inY near
    have inZ' := inZ.resolve_left fun other => apart z y other inY (tolerance.symm _ _ near')
    exact tolerance.trans_of_pair inX' inY inZ' near near'

def Ahead (close : γ → γ → Prop) (g g' : γ) : Prop := ¬ close g g' ∧ g' < g

theorem Ahead.mono (tolerance : Tolerance close) {a a' b b' : γ} (ahead : Ahead close a b) (up : a ≤ a') (down : b' ≤ b) :
    Ahead close a' b' := by
  obtain ⟨far,higher⟩ := ahead
  refine ⟨fun near => far ?_,lt_of_le_of_lt down (lt_of_lt_of_le higher up)⟩
  have lowered := (tolerance.between b' b a' down (higher.le.trans up) (tolerance.symm _ _ near)).2
  exact tolerance.symm _ _ (tolerance.between b a a' higher.le up lowered).1

theorem leads_chain_iff (tolerance : Tolerance close) {chain : δ → γ} (falls : Antitone chain) {x y : α}
    (gradeX : grade x = chain (distance x)) (gradeY : grade y = chain (distance y)) :
    Leads close grade distance x y ↔ distance x < distance y := by
  rw [Leads,gradeX,gradeY]
  constructor
  · rintro (⟨_,nearer⟩ | ⟨_,higher⟩)
    · exact nearer
    · exact lt_of_not_ge fun below => absurd (falls below) (not_le_of_gt higher)
  · intro nearer
    by_cases near : close (chain (distance x)) (chain (distance y))
    · exact .inl ⟨near,nearer⟩
    · refine .inr ⟨near,lt_of_le_of_ne (falls nearer.le) fun same => near ?_⟩
      rw [same]
      exact tolerance.refl _

section

variable (tolerance : Tolerance close) {lower upper : δ → γ} (falls : Antitone lower) (falls' : Antitone upper)
  (above : ∀ d, lower d ≤ upper d)

include tolerance falls falls' above

omit falls' in
theorem leads_upper_iff {x y : α} (gradeX : grade x = upper (distance x)) (gradeY : grade y = lower (distance y)) :
    Leads close grade distance x y ↔
      distance x < distance y ∨ Ahead close (upper (distance x)) (lower (distance y)) := by
  rw [Leads,gradeX,gradeY]
  constructor
  · rintro (⟨_,nearer⟩ | ahead)
    · exact .inl nearer
    · exact .inr ahead
  · rintro (nearer | ahead)
    · by_cases near : close (upper (distance x)) (lower (distance y))
      · exact .inl ⟨near,nearer⟩
      · have bound := (falls nearer.le).trans (above (distance x))
        refine .inr ⟨near,lt_of_le_of_ne bound fun same => near ?_⟩
        rw [same]
        exact tolerance.refl _
    · exact .inr ahead

omit falls in
theorem leads_lower_iff {x y : α} (gradeX : grade x = lower (distance x)) (gradeY : grade y = upper (distance y)) :
    Leads close grade distance x y ↔
      distance x < distance y ∧ ¬ Ahead close (upper (distance y)) (lower (distance x)) := by
  rw [Leads,gradeX,gradeY]
  constructor
  · rintro (⟨near,nearer⟩ | ⟨far,higher⟩)
    · exact ⟨nearer,fun ahead => ahead.1 (tolerance.symm _ _ near)⟩
    · refine ⟨lt_of_not_ge fun below => ?_,fun ahead => lt_asymm ahead.2 higher⟩
      have bound := (above (distance x)).trans (falls' below)
      exact absurd higher (not_lt_of_ge bound)
  · rintro ⟨nearer,behind⟩
    by_cases near : close (lower (distance x)) (upper (distance y))
    · exact .inl ⟨near,nearer⟩
    · refine .inr ⟨near,lt_of_not_ge fun below => behind ⟨fun near' => near (tolerance.symm _ _ near'),?_⟩⟩
      refine lt_of_le_of_ne below fun same => near ?_
      rw [same]
      exact tolerance.refl _

theorem leads_of_chains (raised : α → Prop) (raisedGrade : ∀ x, S x → raised x → grade x = upper (distance x))
    (plainGrade : ∀ x, S x → ¬ raised x → grade x = lower (distance x)) : WeakOrderOn S (Leads close grade distance) := by
  refine ⟨fun x y _ _ => Leads.asymm tolerance,fun x y z inX inY inZ leads => ?_⟩
  have further {a b c d : δ} (ahead : Ahead close (upper a) (lower b)) (near : c ≤ a) (far : b ≤ d) :
      Ahead close (upper c) (lower d) := ahead.mono tolerance (falls' near) (falls far)
  have chain := @leads_chain_iff α γ δ _ _ close grade distance tolerance
  have up := @leads_upper_iff α γ δ _ _ close grade distance tolerance lower upper falls above
  have down := @leads_lower_iff α γ δ _ _ close grade distance tolerance lower upper falls' above
  -- the first item leads the second, or the second is no further away
  rcases lt_or_ge (distance x) (distance y) with nearer | below
  · by_cases raisedX : raised x
    · by_cases raisedY : raised y
      · exact .inl ((chain falls' (raisedGrade x inX raisedX) (raisedGrade y inY raisedY)).mpr nearer)
      · exact .inl ((up (raisedGrade x inX raisedX) (plainGrade y inY raisedY)).mpr (.inl nearer))
    · by_cases raisedY : raised y
      · by_cases ahead : Ahead close (upper (distance y)) (lower (distance x))
        · by_cases raisedZ : raised z
          · obtain ⟨_,behind⟩ := (down (plainGrade x inX raisedX) (raisedGrade z inZ raisedZ)).mp leads
            refine .inr ((chain falls' (raisedGrade y inY raisedY) (raisedGrade z inZ raisedZ)).mpr ?_)
            exact lt_of_not_ge fun near => behind (further ahead near le_rfl)
          · have beyond := (chain falls (plainGrade x inX raisedX) (plainGrade z inZ raisedZ)).mp leads
            exact .inr ((up (raisedGrade y inY raisedY) (plainGrade z inZ raisedZ)).mpr (.inr (further ahead le_rfl beyond.le)))
        · exact .inl ((down (plainGrade x inX raisedX) (raisedGrade y inY raisedY)).mpr ⟨nearer,ahead⟩)
      · exact .inl ((chain falls (plainGrade x inX raisedX) (plainGrade y inY raisedY)).mpr nearer)
  · by_cases raisedX : raised x
    · have gradeX := raisedGrade x inX raisedX
      by_cases raisedZ : raised z
      · have gradeZ := raisedGrade z inZ raisedZ
        have nearer := lt_of_le_of_lt below ((chain falls' gradeX gradeZ).mp leads)
        by_cases raisedY : raised y
        · exact .inr ((chain falls' (raisedGrade y inY raisedY) gradeZ).mpr nearer)
        · have gradeY := plainGrade y inY raisedY
          by_cases ahead : Ahead close (upper (distance z)) (lower (distance y))
          · exact .inl ((up gradeX gradeY).mpr (.inr (further ahead ((chain falls' gradeX gradeZ).mp leads).le le_rfl)))
          · exact .inr ((down gradeY gradeZ).mpr ⟨nearer,ahead⟩)
      · have gradeZ := plainGrade z inZ raisedZ
        rcases (up gradeX gradeZ).mp leads with before | ahead
        · have nearer := lt_of_le_of_lt below before
          by_cases raisedY : raised y
          · exact .inr ((up (raisedGrade y inY raisedY) gradeZ).mpr (.inl nearer))
          · exact .inr ((chain falls (plainGrade y inY raisedY) gradeZ).mpr nearer)
        · by_cases raisedY : raised y
          · exact .inr ((up (raisedGrade y inY raisedY) gradeZ).mpr (.inr (further ahead below le_rfl)))
          · have gradeY := plainGrade y inY raisedY
            rcases lt_or_ge (distance y) (distance z) with nearer | beyond
            · exact .inr ((chain falls gradeY gradeZ).mpr nearer)
            · exact .inl ((up gradeX gradeY).mpr (.inr (further ahead le_rfl beyond)))
    · have gradeX := plainGrade x inX raisedX
      by_cases raisedZ : raised z
      · have gradeZ := raisedGrade z inZ raisedZ
        obtain ⟨before,behind⟩ := (down gradeX gradeZ).mp leads
        have nearer := lt_of_le_of_lt below before
        by_cases raisedY : raised y
        · exact .inr ((chain falls' (raisedGrade y inY raisedY) gradeZ).mpr nearer)
        · refine .inr ((down (plainGrade y inY raisedY) gradeZ).mpr ⟨nearer,fun ahead => behind ?_⟩)
          exact further ahead le_rfl below
      · have gradeZ := plainGrade z inZ raisedZ
        have nearer := lt_of_le_of_lt below ((chain falls gradeX gradeZ).mp leads)
        by_cases raisedY : raised y
        · exact .inr ((up (raisedGrade y inY raisedY) gradeZ).mpr (.inl nearer))
        · exact .inr ((chain falls (plainGrade y inY raisedY) gradeZ).mpr nearer)

end

end

end ApexLs.Collections
