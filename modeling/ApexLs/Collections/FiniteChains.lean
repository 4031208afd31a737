import Mathlib.Data.List.Basic

/-! Chains of keys, each of which leads to an item and perhaps to another key. A chain that ends meets no key twice. -/
namespace ApexLs.Collections

variable {α : Type u} {κ : Type v} {next : κ → Option (α × Option κ)}

/-- The items of the whole chain from a key, with the keys they were found by. -/
inductive Trail (next : κ → Option (α × Option κ)) : Option κ → List (κ × α) → Prop where
  | ended : Trail next none []
  | missing : next k = none → Trail next (some k) []
  | found : next k = some (a,onward) → Trail next onward trail → Trail next (some k) ((k,a) :: trail)

def trail (next : κ → Option (α × Option κ)) : Nat → Option κ → Option (List (κ × α))
  | _,none => some []
  | 0,some _ => none
  | n + 1,some k =>
    match next k with
    | none => some []
    | some (a,onward) => (trail next n onward).map ((k,a) :: ·)

theorem Trail.of_trail {n : Nat} {start : Option κ} {items : List (κ × α)} (whole : trail next n start = some items) :
    Trail next start items := by
  induction n generalizing start items with
  | zero =>
    cases start with
    | none =>
      cases whole
      exact .ended
    | some k => cases whole
  | succ n ih =>
    cases start with
    | none =>
      cases whole
      exact .ended
    | some k =>
      rw [trail] at whole
      cases answer : next k with
      | none =>
        rw [answer] at whole
        cases whole
        exact .missing answer
      | some found =>
        rw [answer] at whole
        obtain ⟨rest,further,rfl⟩ := Option.map_eq_some_iff.mp whole
        exact .found answer (ih further)

theorem Trail.unique {start : Option κ} {trail trail' : List (κ × α)} (first : Trail next start trail)
    (second : Trail next start trail') : trail = trail' := by
  induction first generalizing trail' with
  | ended =>
    cases second
    rfl
  | missing absent =>
    cases second with
    | missing => rfl
    | found present => exact absurd (absent.symm.trans present) (Option.some_ne_none _).symm
  | found present _ ih =>
    cases second with
    | missing absent => exact absurd (absent.symm.trans present) (Option.some_ne_none _).symm
    | found present' rest =>
      obtain ⟨rfl,rfl⟩ := Prod.mk.inj (Option.some.inj (present.symm.trans present'))
      rw [ih rest]

theorem Trail.of_append {start : Option κ} {k : κ} {a : α} {before after : List (κ × α)}
    (trail : Trail next start (before ++ (k,a) :: after)) : Trail next (some k) ((k,a) :: after) := by
  induction before generalizing start with
  | nil =>
    cases trail with
    | found present rest => exact .found present rest
  | cons first before ih =>
    cases trail with
    | found _ rest => exact ih rest

theorem Trail.keys_nodup {start : Option κ} {trail : List (κ × α)} (whole : Trail next start trail) :
    (trail.map Prod.fst).Nodup := by
  induction whole with
  | ended | missing => exact List.nodup_nil
  | @found k a _ trail present rest ih =>
    refine List.nodup_cons.mpr ⟨fun again => ?_,ih⟩
    -- the chain from the second occurrence would be the whole chain
    obtain ⟨⟨k',b⟩,member,rfl⟩ := List.mem_map.mp again
    obtain ⟨before,after,rfl⟩ := List.append_of_mem member
    have same := (Trail.found present rest).unique rest.of_append
    have lengths := congrArg List.length same
    simp only [List.length_cons,List.length_append] at lengths
    omega

end ApexLs.Collections
