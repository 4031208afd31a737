import Mathlib.Data.List.Nodup
import Mathlib.Logic.Relation

/-! Recursive listings. An item is listed with what it keeps, then its inner items are listed in the
same way. Where every item has one owner, nothing is listed twice. -/
namespace ApexLs.Collections

variable {α : Type u}

def listing (kept inner : α → List α) : Nat → α → List α
  | 0,_ => []
  | depth + 1,a => a :: (kept a ++ (inner a).flatMap (listing kept inner depth))

def Within (inner : α → List α) : Nat → α → Prop
  | 0,_ => False
  | depth + 1,a => ∀ b ∈ inner a, Within inner depth b

def Holds (inner : α → List α) : α → α → Prop := Relation.ReflTransGen (fun a b => b ∈ inner a)

variable {kept inner : α → List α}

theorem mem_listing_succ : s ∈ listing kept inner (depth + 1) a ↔
    s = a ∨ s ∈ kept a ∨ ∃ b ∈ inner a, s ∈ listing kept inner depth b := by
  simp [listing]

theorem holds_of_mem_listing (member : s ∈ listing kept inner depth a) : ∃ o, Holds inner a o ∧ (s = o ∨ s ∈ kept o) := by
  induction depth generalizing a with
  | zero => cases member
  | succ depth ih =>
    rcases mem_listing_succ.mp member with rfl | own | ⟨b,child,below⟩
    · exact ⟨s,.refl,.inl rfl⟩
    · exact ⟨a,.refl,.inr own⟩
    · obtain ⟨o,held,here⟩ := ih below
      exact ⟨o,.head child held,here⟩

theorem mem_listing_of_holds (within : Within inner depth a) (held : Holds inner a o) (here : s = o ∨ s ∈ kept o) :
    s ∈ listing kept inner depth a := by
  induction depth generalizing a with
  | zero => exact within.elim
  | succ depth ih =>
    rcases Relation.ReflTransGen.cases_head held with rfl | ⟨b,child,rest⟩
    · exact mem_listing_succ.mpr (here.imp_right .inl)
    · exact mem_listing_succ.mpr (.inr (.inr ⟨b,child,ih (within b child) rest⟩))

theorem mem_listing (within : Within inner depth a) :
    s ∈ listing kept inner depth a ↔ ∃ o, Holds inner a o ∧ (s = o ∨ s ∈ kept o) :=
  ⟨holds_of_mem_listing,fun ⟨_,held,here⟩ => mem_listing_of_holds within held here⟩

section

variable {rank : α → Nat}

theorem within_of_rank (rank : α → Nat) (known : List α) (listed : ∀ a, ∀ b ∈ inner a, b ∈ known ∧ rank a < rank b)
    (enough : (known.filter (fun b => rank a < rank b)).length < depth) : Within inner depth a := by
  induction depth generalizing a with
  | zero => exact absurd enough (Nat.not_lt_zero _)
  | succ depth ih =>
    intro b child
    obtain ⟨present,above⟩ := listed a b child
    apply ih
    have nested : known.filter (fun c => rank b < rank c) =
        (known.filter (fun c => rank a < rank c)).filter (fun c => rank b < rank c) := by
      rw [List.filter_filter]
      apply List.filter_congr
      intro c _
      rw [Bool.eq_iff_iff,Bool.and_eq_true,decide_eq_true_eq,decide_eq_true_eq]
      omega
    have fewer : ((known.filter (fun c => rank a < rank c)).filter (fun c => rank b < rank c)).length <
        (known.filter (fun c => rank a < rank c)).length := by
      rw [List.length_filter_lt_length_iff_exists]
      exact ⟨b,List.mem_filter.mpr ⟨present,by simpa using above⟩,by simp⟩
    rw [nested]
    omega

theorem Holds.rank_le (listed : ∀ a, ∀ b ∈ inner a, rank a < rank b) (held : Holds inner a b) : rank a ≤ rank b := by
  induction held with
  | refl => exact Nat.le_refl _
  | tail _ child ih => exact Nat.le_of_lt (Nat.lt_of_le_of_lt ih (listed _ _ child))

end

/-- Below the root every item has one owner, and what is kept is kept once and is nobody's inner item. -/
structure Apart (kept inner : α → List α) (root : α) : Prop where
  owner : ∀ {a a' b}, Holds inner root a → Holds inner root a' → b ∈ inner a → b ∈ inner a' → a = a'
  keeper : ∀ {a a' b}, Holds inner root a → Holds inner root a' → b ∈ kept a → b ∈ kept a' → a = a'
  separate : ∀ {a b}, Holds inner root a → Holds inner root b → b ∉ kept a
  innerOnce : ∀ {a}, Holds inner root a → (inner a).Nodup
  keptOnce : ∀ {a}, Holds inner root a → (kept a).Nodup

namespace Apart

variable {rank : α → Nat} {root : α}

theorem holders_comparable (apart : Apart kept inner root) (first : Holds inner root a) (second : Holds inner root a')
    (held : Holds inner a o) (held' : Holds inner a' o) : Holds inner a a' ∨ Holds inner a' a := by
  induction held with
  | refl => exact .inr held'
  | @tail b c upTo child ih =>
    rcases Relation.ReflTransGen.cases_tail held' with rfl | ⟨d,upTo',child'⟩
    · exact .inl (upTo.tail child)
    · obtain rfl := apart.owner (first.trans upTo) (second.trans upTo') child child'
      exact ih upTo'

theorem inner_disjoint (apart : Apart kept inner root) (listed : ∀ a, ∀ b ∈ inner a, rank a < rank b)
    (reached : Holds inner root a) (child : b ∈ inner a) (child' : b' ∈ inner a) (held : Holds inner b o)
    (held' : Holds inner b' o) : b = b' := by
  -- an inner item below another one would be owned by something below the owner of both
  have above : ∀ c c', c ∈ inner a → c' ∈ inner a → Holds inner c c' → c = c' := by
    intro c c' here here' down
    rcases Relation.ReflTransGen.cases_tail down with rfl | ⟨d,upTo,last⟩
    · rfl
    · obtain rfl := apart.owner ((reached.tail here).trans upTo) reached last here'
      have := listed _ _ here
      have := Holds.rank_le listed upTo
      omega
  rcases apart.holders_comparable (reached.tail child) (reached.tail child') held held' with down | down
  · exact above b b' child child' down
  · exact (above b' b child' child down).symm

theorem listing_nodup (apart : Apart kept inner root) (rank : α → Nat) (listed : ∀ a, ∀ b ∈ inner a, rank a < rank b)
    (reached : Holds inner root a) : (listing kept inner depth a).Nodup := by
  induction depth generalizing a with
  | zero => exact List.nodup_nil
  | succ depth ih =>
    rw [listing,List.nodup_cons,List.mem_append,List.mem_flatMap]
    refine ⟨?_,List.nodup_append.mpr ⟨apart.keptOnce reached,
      List.nodup_flatMap.mpr ⟨fun b child => ih (reached.tail child),?_⟩,?_⟩⟩
    · rintro (own | ⟨b,child,below⟩)
      · exact apart.separate reached reached own
      · obtain ⟨o,held,rfl | own⟩ := holds_of_mem_listing below
        · have := listed _ _ child
          have := Holds.rank_le listed held
          omega
        · exact apart.separate ((reached.tail child).trans held) reached own
    · refine (List.Nodup.pairwise_of_forall_ne (apart.innerOnce reached) fun b child b' child' different => ?_)
      refine List.disjoint_left.mpr fun s below below' => ?_
      obtain ⟨o,held,here⟩ := holds_of_mem_listing below
      obtain ⟨o',held',here'⟩ := holds_of_mem_listing below'
      have toO := (reached.tail child).trans held
      have toO' := (reached.tail child').trans held'
      have same : o = o' := by
        rcases here with rfl | own <;> rcases here' with rfl | own'
        · rfl
        · exact absurd own' (apart.separate toO' toO)
        · exact absurd own (apart.separate toO toO')
        · exact apart.keeper toO toO' own own'
      exact different (apart.inner_disjoint listed reached child child' held (same ▸ held'))
    · rintro s own s' below rfl
      obtain ⟨b,child,below⟩ := List.mem_flatMap.mp below
      obtain ⟨o,held,rfl | own'⟩ := holds_of_mem_listing below
      · exact apart.separate reached ((reached.tail child).trans held) own
      · obtain rfl := apart.keeper reached ((reached.tail child).trans held) own own'
        have := listed _ _ child
        have := Holds.rank_le listed held
        omega

end Apart

theorem kept_once (once : (listing kept inner (depth + 1) a).Nodup) (within : Within inner (depth + 1) a) (child : b ∈ inner a)
    (held : Holds inner b o) (own : s ∈ kept a) : s ∉ kept o := by
  intro again
  rw [listing,List.nodup_cons,List.nodup_append] at once
  have below : s ∈ (inner a).flatMap (listing kept inner depth) :=
    List.mem_flatMap.mpr ⟨b,child,mem_listing_of_holds (within b child) held (.inr again)⟩
  exact once.2.2.2 s own s below rfl

end ApexLs.Collections
