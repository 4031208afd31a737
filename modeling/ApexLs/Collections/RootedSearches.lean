import ApexLs.Collections.VisitedWalks

/-! Searches up a chain of items that ask a root item where the chain has nothing. The chain may come back to itself, and then
the search goes on for ever. -/
namespace ApexLs.Collections

variable {α : Type u} {β : Type v} (own : α → Option β) (next : α → Option α) (asks : α → Bool) (root : Option α)

def rootedSearch : Nat → α → Option (Option β)
  | 0,_ => none
  | steps + 1,a =>
    match own a with
    | some b => some (some b)
    | none =>
      ((next a).elim (some none) (rootedSearch steps)).bind fun above =>
        match above with
        | some b => some (some b)
        | none => if asks a then root.elim (some none) (rootedSearch steps) else some none

def ComesTo (a : α) (b : β) : Prop :=
  ∃ i c, along next (some a) i = some c ∧ own c = some b ∧ ∀ j < i, ∀ d, along next (some a) j = some d → own d = none

def RunsOut (a : α) : Prop := (∃ i, along next (some a) i = none) ∧ ∀ i c, along next (some a) i = some c → own c = none

def Asks (a : α) : Prop := ∃ i c, along next (some a) i = some c ∧ asks c = true

variable {own next asks root}

theorem along_succ_of_next {a a' : α} (up : next a = some a') (i : Nat) :
    along next (some a) (i + 1) = along next (some a') i := by
  rw [← along_from,Option.bind_some,up]

theorem along_succ_of_end {a : α} (end_ : next a = none) (i : Nat) : along next (some a) (i + 1) = none := by
  rw [← along_from,Option.bind_some,end_,along_none]

theorem comesTo_of_own {a : α} {b : β} (has : own a = some b) : ComesTo own next a b :=
  ⟨0,a,rfl,has,fun _ less => absurd less (Nat.not_lt_zero _)⟩

theorem comesTo_of_next {a a' : α} {b : β} (without : own a = none) (up : next a = some a') :
    ComesTo own next a b ↔ ComesTo own next a' b := by
  constructor
  · rintro ⟨i,c,reached,has,before⟩
    cases i with
    | zero =>
      cases reached
      rw [without] at has
      cases has
    | succ i =>
      rw [along_succ_of_next up] at reached
      exact ⟨i,c,reached,has,fun j less d there => before (j + 1) (by omega) d ((along_succ_of_next up j).trans there)⟩
  · rintro ⟨i,c,reached,has,before⟩
    refine ⟨i + 1,c,(along_succ_of_next up i).trans reached,has,fun j less d there => ?_⟩
    cases j with
    | zero =>
      cases there
      exact without
    | succ j => exact before j (by omega) d ((along_succ_of_next up j).symm.trans there)

theorem runsOut_of_next {a a' : α} (without : own a = none) (up : next a = some a') :
    RunsOut own next a ↔ RunsOut own next a' := by
  constructor
  · rintro ⟨⟨i,ended⟩,bare⟩
    refine ⟨?_,fun j c there => bare (j + 1) c ((along_succ_of_next up j).trans there)⟩
    cases i with
    | zero => cases ended
    | succ i => exact ⟨i,(along_succ_of_next up i).symm.trans ended⟩
  · rintro ⟨⟨i,ended⟩,bare⟩
    refine ⟨⟨i + 1,(along_succ_of_next up i).trans ended⟩,fun j c there => ?_⟩
    cases j with
    | zero =>
      cases there
      exact without
    | succ j => exact bare j c ((along_succ_of_next up j).symm.trans there)

theorem runsOut_of_end {a : α} (without : own a = none) (end_ : next a = none) : RunsOut own next a := by
  refine ⟨⟨1,along_succ_of_end end_ 0⟩,fun j c there => ?_⟩
  cases j with
  | zero =>
    cases there
    exact without
  | succ j =>
    rw [along_succ_of_end end_] at there
    cases there

theorem asks_of_next {a a' : α} (up : next a = some a') : Asks next asks a ↔ asks a = true ∨ Asks next asks a' := by
  constructor
  · rintro ⟨i,c,reached,asked⟩
    cases i with
    | zero =>
      cases reached
      exact .inl asked
    | succ i => exact .inr ⟨i,c,(along_succ_of_next up i).symm.trans reached,asked⟩
  · rintro (asked | ⟨i,c,reached,asked⟩)
    · exact ⟨0,a,rfl,asked⟩
    · exact ⟨i + 1,c,(along_succ_of_next up i).trans reached,asked⟩

theorem asks_of_end {a : α} (end_ : next a = none) : Asks next asks a ↔ asks a = true := by
  constructor
  · rintro ⟨i,c,reached,asked⟩
    cases i with
    | zero =>
      cases reached
      exact asked
    | succ i =>
      rw [along_succ_of_end end_] at reached
      cases reached
  · exact fun asked => ⟨0,a,rfl,asked⟩

theorem exists_comesTo {a c : α} {i : Nat} (reached : along next (some a) i = some c) (has : own c ≠ none) :
    ∃ b, ComesTo own next a b := by
  induction i using Nat.strongRecOn generalizing c with
  | ind i ih =>
    by_cases earlier : ∃ j < i, ∃ d, along next (some a) j = some d ∧ own d ≠ none
    · obtain ⟨j,less,d,there,hasToo⟩ := earlier
      exact ih j less there hasToo
    · obtain ⟨b,held⟩ := Option.ne_none_iff_exists'.mp has
      refine ⟨b,i,c,reached,held,fun j less d there => ?_⟩
      by_contra hasToo
      exact earlier ⟨j,less,d,there,hasToo⟩

theorem ComesTo.not_runsOut {a : α} {b : β} (comes : ComesTo own next a b) : ¬RunsOut own next a := by
  rintro ⟨-,bare⟩
  obtain ⟨i,c,reached,has,-⟩ := comes
  rw [bare i c reached] at has
  cases has

theorem rootedSearch_of_own {a : α} {b : β} (has : own a = some b) (steps : Nat) :
    rootedSearch own next asks root (steps + 1) a = some (some b) := by
  rw [rootedSearch,has]

theorem rootedSearch_of_bare {a : α} (without : own a = none) (steps : Nat) : rootedSearch own next asks root (steps + 1) a =
    ((next a).elim (some none) (rootedSearch own next asks root steps)).bind fun above =>
      match above with
      | some b => some (some b)
      | none => if asks a then root.elim (some none) (rootedSearch own next asks root steps) else some none := by
  rw [rootedSearch,without]

theorem rootedSearch_succ {steps : Nat} {a : α} {answer : Option β}
    (over_ : rootedSearch own next asks root steps a = some answer) :
    rootedSearch own next asks root (steps + 1) a = some answer := by
  induction steps generalizing a answer with
  | zero => cases over_
  | succ steps ih =>
    have kept (start : Option α) {found : Option β}
        (there : start.elim (some none) (rootedSearch own next asks root steps) = some found) :
        start.elim (some none) (rootedSearch own next asks root (steps + 1)) = some found := by
      cases start with
      | none => exact there
      | some b => exact ih there
    cases has : own a with
    | some b =>
      rw [rootedSearch_of_own has] at over_ ⊢
      exact over_
    | none =>
      rw [rootedSearch_of_bare has] at over_ ⊢
      obtain ⟨above,there,rest⟩ := Option.bind_eq_some_iff.mp over_
      refine Option.bind_eq_some_iff.mpr ⟨above,kept _ there,?_⟩
      cases above with
      | some b => exact rest
      | none =>
        dsimp only at rest ⊢
        split
        next asked => exact kept _ ((if_pos asked).symm.trans rest)
        next quiet => exact (if_neg quiet).symm.trans rest

theorem rootedSearch_mono {steps more : Nat} {a : α} {answer : Option β} (enough : steps ≤ more)
    (over_ : rootedSearch own next asks root steps a = some answer) : rootedSearch own next asks root more a = some answer := by
  induction enough with
  | refl => exact over_
  | step _ ih => exact rootedSearch_succ ih

theorem elim_rootedSearch_mono {steps more : Nat} {start : Option α} {answer : Option β} (enough : steps ≤ more)
    (over_ : start.elim (some none) (rootedSearch own next asks root steps) = some answer) :
    start.elim (some none) (rootedSearch own next asks root more) = some answer := by
  cases start with
  | none => exact over_
  | some a => exact rootedSearch_mono enough over_

def SearchAnswers (own : α → Option β) (next : α → Option α) (asks : α → Bool) (root : Option α) (a : α) : Option β → Prop
  | some b => ComesTo own next a b ∨ RunsOut own next a ∧ Asks next asks a ∧ ∃ r, root = some r ∧ ComesTo own next r b
  | none => RunsOut own next a ∧ (Asks next asks a → ∀ r, root = some r → RunsOut own next r ∧ ¬Asks next asks r)

theorem answers_of_root {a : α} {answer : Option β} {steps : Nat} (out : RunsOut own next a) (asked : Asks next asks a)
    (sound : ∀ r, rootedSearch own next asks root steps r = some answer → SearchAnswers own next asks root r answer)
    (there : root.elim (some none) (rootedSearch own next asks root steps) = some answer) :
    SearchAnswers own next asks root a answer := by
  cases held : root with
  | none =>
    rw [held] at there
    cases there
    exact ⟨out,fun _ r absent => absurd absent.symm (Option.some_ne_none r)⟩
  | some r =>
    rw [held] at there sound
    have answers := sound r there
    cases answer with
    | some b =>
      obtain comes | ⟨-,-,r',same,comes⟩ := answers
      · exact .inr ⟨out,asked,r,rfl,comes⟩
      · exact .inr ⟨out,asked,r',same,comes⟩
    | none =>
      refine ⟨out,fun _ r' same => ?_⟩
      cases same
      exact ⟨answers.1,fun again => (answers.2 again r rfl).2 again⟩

theorem answers_of_rootedSearch {steps : Nat} {a : α} {answer : Option β}
    (over_ : rootedSearch own next asks root steps a = some answer) : SearchAnswers own next asks root a answer := by
  induction steps generalizing a answer with
  | zero => cases over_
  | succ steps ih =>
    cases has : own a with
    | some b =>
      rw [rootedSearch_of_own has] at over_
      cases over_
      exact .inl (comesTo_of_own has)
    | none =>
      rw [rootedSearch_of_bare has] at over_
      obtain ⟨above,there,rest⟩ := Option.bind_eq_some_iff.mp over_
      cases up : next a with
      | none =>
        rw [up] at there
        cases there
        have out := runsOut_of_end has up
        dsimp only at rest
        split at rest
        next asked => exact answers_of_root out ((asks_of_end up).mpr asked) (fun _ => ih) rest
        next quiet =>
          cases rest
          exact ⟨out,fun asked => absurd ((asks_of_end up).mp asked) quiet⟩
      | some a' =>
        rw [up] at there
        have answers := ih there
        cases above with
        | some b =>
          cases rest
          obtain comes | ⟨out,asked,fromRoot⟩ := answers
          · exact .inl ((comesTo_of_next has up).mpr comes)
          · exact .inr ⟨(runsOut_of_next has up).mpr out,(asks_of_next up).mpr (.inr asked),fromRoot⟩
        | none =>
          have out := (runsOut_of_next has up).mpr answers.1
          dsimp only at rest
          split at rest
          next asked => exact answers_of_root out ((asks_of_next up).mpr (.inl asked)) (fun _ => ih) rest
          next quiet =>
            cases rest
            exact ⟨out,fun asked => answers.2 (((asks_of_next up).mp asked).resolve_left quiet)⟩

theorem rootedSearch_of_comesTo {a : α} {b : β} (comes : ComesTo own next a b) :
    ∃ steps, rootedSearch own next asks root steps a = some (some b) := by
  have walk (i : Nat) : ∀ a c, along next (some a) i = some c → own c = some b →
      (∀ j < i, ∀ d, along next (some a) j = some d → own d = none) →
      rootedSearch own next asks root (i + 1) a = some (some b) := by
    induction i with
    | zero =>
      intro a c reached has _
      cases reached
      exact rootedSearch_of_own has 0
    | succ i ih =>
      intro a c reached has before
      obtain ⟨a',up⟩ := along_before reached (Nat.succ_le_succ (Nat.zero_le i))
      change next a = some a' at up
      have rest := ih a' c ((along_succ_of_next up i).symm.trans reached) has fun j less d there =>
        before (j + 1) (by omega) d ((along_succ_of_next up j).trans there)
      rw [rootedSearch_of_bare (before 0 (Nat.succ_pos i) a rfl),up,Option.elim_some,rest]
      rfl
  obtain ⟨i,c,reached,has,before⟩ := comes
  exact ⟨i + 1,walk i a c reached has before⟩

theorem rootedSearch_of_quiet {a : α} (out : RunsOut own next a) (quiet : ¬Asks next asks a) :
    ∃ steps, rootedSearch own next asks root steps a = some none := by
  have ⟨i,ended⟩ := out.1
  induction i generalizing a with
  | zero => cases ended
  | succ i ih =>
    have without := out.2 0 a rfl
    have silent : asks a ≠ true := fun asked => quiet ⟨0,a,rfl,asked⟩
    cases up : next a with
    | none =>
      refine ⟨1,?_⟩
      rw [rootedSearch_of_bare without,up]
      exact if_neg silent
    | some a' =>
      have quiet' : ¬Asks next asks a' := fun asked => quiet ((asks_of_next up).mpr (.inr asked))
      obtain ⟨steps,there⟩ := ih ((runsOut_of_next without up).mp out) quiet' ((along_succ_of_next up i).symm.trans ended)
      refine ⟨steps + 1,?_⟩
      rw [rootedSearch_of_bare without,up,Option.elim_some,there]
      exact if_neg silent

theorem rootedSearch_of_asks {a : α} {answer : Option β} {n : Nat} (out : RunsOut own next a) (asked : Asks next asks a)
    (fromRoot : root.elim (some none) (rootedSearch own next asks root n) = some answer) :
    ∃ steps, rootedSearch own next asks root steps a = some answer := by
  have ⟨i,ended⟩ := out.1
  induction i generalizing a with
  | zero => cases ended
  | succ i ih =>
    have without := out.2 0 a rfl
    -- what is above is the answer already, or nothing, and then this item asks itself
    have here {above : Option β} {m : Nat} (there : (next a).elim (some none) (rootedSearch own next asks root m) = some above)
        (which : above = answer ∨ above = none ∧ asks a = true) :
        rootedSearch own next asks root (max n m + 1) a = some answer := by
      rw [rootedSearch_of_bare without,elim_rootedSearch_mono (Nat.le_max_right n m) there,Option.bind_some]
      have rooted := elim_rootedSearch_mono (Nat.le_max_left n m) fromRoot
      obtain rfl | ⟨rfl,asking⟩ := which
      · cases above with
        | some b => rfl
        | none =>
          dsimp only
          split
          next => exact rooted
          next => rfl
      · exact (if_pos asking).trans rooted
    cases up : next a with
    | none => exact ⟨_,here (m := 0) (by rw [up]; rfl) (.inr ⟨rfl,(asks_of_end up).mp asked⟩)⟩
    | some a' =>
      have out' := (runsOut_of_next without up).mp out
      have above {m : Nat} {found : Option β} (there : rootedSearch own next asks root m a' = some found) :
          (next a).elim (some none) (rootedSearch own next asks root m) = some found := by
        rw [up]
        exact there
      by_cases asked' : Asks next asks a'
      · obtain ⟨m,there⟩ := ih out' asked' ((along_succ_of_next up i).symm.trans ended)
        exact ⟨_,here (above there) (.inl rfl)⟩
      · obtain ⟨m,there⟩ : ∃ m, rootedSearch own next asks root m a' = some none := rootedSearch_of_quiet out' asked'
        exact ⟨_,here (above there) (.inr ⟨rfl,((asks_of_next up).mp asked).resolve_right asked'⟩)⟩

theorem rootedSearch_iff {a : α} {answer : Option β} :
    (∃ steps, rootedSearch own next asks root steps a = some answer) ↔ SearchAnswers own next asks root a answer := by
  constructor
  · exact fun ⟨_,over_⟩ => answers_of_rootedSearch over_
  · intro answers
    cases answer with
    | some b =>
      obtain comes | ⟨out,asked,r,same,comes⟩ := answers
      · exact rootedSearch_of_comesTo comes
      · obtain ⟨n,there⟩ : ∃ n, rootedSearch own next asks root n r = some (some b) := rootedSearch_of_comesTo comes
        refine rootedSearch_of_asks (n := n) out asked ?_
        rw [same] at there ⊢
        exact there
    | none =>
      obtain ⟨out,rooted⟩ := answers
      by_cases asked : Asks next asks a
      · cases held : root with
        | none => exact rootedSearch_of_asks (n := 0) out asked rfl
        | some r =>
          obtain ⟨rootOut,rootQuiet⟩ := rooted asked r held
          obtain ⟨n,there⟩ : ∃ n, rootedSearch own next asks (some r) n r = some none := rootedSearch_of_quiet rootOut rootQuiet
          exact rootedSearch_of_asks (n := n) out asked there
      · exact rootedSearch_of_quiet out asked

end ApexLs.Collections
