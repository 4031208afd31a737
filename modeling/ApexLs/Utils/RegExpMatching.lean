import ApexLs.Utils.RegExpPatterns

/-! How `RegExp` with the flag `i` looks for a pattern in a text. A matcher gives the ends it can come to, in the order in
which the backtracking comes to them. -/
namespace ApexLs.Utils.RegExp

structure State where
  endIndex : Nat
  captures : Nat → Option (Nat × Nat) := fun _ => none

def State.clear (x : State) (before inside : Nat) : State :=
  { x with captures := fun k => if before < k ∧ k ≤ before + inside then none else x.captures k }

/-- What lies between the ends of `x` and `y` is held by the group, whichever of them is first. -/
def State.capture (x y : State) (index : Nat) : State :=
  { y with captures := fun k =>
    if k = index then some (min x.endIndex y.endIndex,max x.endIndex y.endIndex) else y.captures k }

section

variable [LetterTables]

def canonicalize (c : CodeUnit) : CodeUnit :=
  match LetterTables.toUppercase c with
  | [upper] => if 128 ≤ c.toNat ∧ upper.toNat < 128 then c else upper
  | _ => c

/-- Some member of the sets stands for the letter, but for the case. -/
def inSets (members : List CharSet) (c : CodeUnit) : Bool :=
  (List.range 0x10000).any fun n =>
    members.any (·.has (UInt16.ofNat n)) && canonicalize (UInt16.ofNat n) = canonicalize c

def isWordAt (input : List CodeUnit) (i : Nat) : Bool := input[i]?.any isWordChar

def isBoundary (input : List CodeUnit) (i : Nat) : Bool :=
  (0 < i && isWordAt input (i - 1)) != isWordAt input i

/-- Where a piece of the given length ends, if there is room for it. -/
def advance (input : List CodeUnit) (ahead : Bool) (length i : Nat) : Option Nat :=
  if ahead then (if i + length ≤ input.length then some (i + length) else none)
  else if length ≤ i then some (i - length) else none

def oneLetter (input : List CodeUnit) (accepts : CodeUnit → Bool) (ahead : Bool) (x : State) : List State :=
  match advance input ahead 1 x.endIndex with
  | some i => if input[min i x.endIndex]?.any accepts then [{ x with endIndex := i }] else []
  | none => []

def samePiece (input : List CodeUnit) (i j length : Nat) : Bool :=
  (List.range length).all fun k => input[i + k]?.map canonicalize = input[j + k]?.map canonicalize

def backreference (input : List CodeUnit) (index : Nat) (ahead : Bool) (x : State) : List State :=
  match x.captures index with
  | none => [x]
  | some (start,stop) =>
    match advance input ahead (stop - start) x.endIndex with
    | some i => if samePiece input start (min i x.endIndex) (stop - start) then [{ x with endIndex := i }] else []
    | none => []

/-- The repetitions beyond the least number. One that is at its start again does not count; with as much fuel as there
are letters, and one more, none is missed. -/
def repeatMore (m : State → List State) (greedy : Bool) : Nat → Option Nat → State → List State
  | _,some 0,x => [x]
  | 0,_,x => [x]
  | fuel + 1,max,x =>
    let more := ((m x).filter (·.endIndex ≠ x.endIndex)).flatMap (repeatMore m greedy fuel (max.map (· - 1)))
    if greedy then more ++ [x] else x :: more

def repeatMatcher (m : State → List State) (greedy : Bool) (fuel : Nat) : Nat → Option Nat → State → List State
  | 0,max,x => repeatMore m greedy fuel max x
  | least + 1,max,x => (m x).flatMap (repeatMatcher m greedy fuel least (max.map (· - 1)))

def matcher (input : List CodeUnit) : Regex → Bool → State → List State
  | .empty,_,x => [x]
  | .literal c,ahead,x => oneLetter input (fun d => canonicalize d = canonicalize c) ahead x
  | .set inverted members,ahead,x => oneLetter input (fun d => inSets members d != inverted) ahead x
  | .seq first second,ahead,x =>
    if ahead then (matcher input first ahead x).flatMap (matcher input second ahead)
    else (matcher input second ahead x).flatMap (matcher input first ahead)
  | .alt first second,ahead,x => matcher input first ahead x ++ matcher input second ahead x
  | .group index body,ahead,x => (matcher input body ahead x).map fun y => x.capture y index
  | .reference index,ahead,x => backreference input index ahead x
  | .lineStart,_,x => if x.endIndex = 0 then [x] else []
  | .lineEnd,_,x => if x.endIndex = input.length then [x] else []
  | .boundary inverted,_,x => if isBoundary input x.endIndex != inverted then [x] else []
  | .look ahead negated body,_,x =>
    let found := (matcher input body ahead x).head?
    if negated then (if found.isNone then [x] else [])
    else found.elim [] fun y => [{ x with captures := y.captures }]
  | .repeated least max greedy before inside body,ahead,x =>
    repeatMatcher (fun x => matcher input body ahead (x.clear before inside)) greedy (input.length + 1) least max x

def Regex.test (r : Regex) (input : List CodeUnit) : Bool :=
  (List.range (input.length + 1)).any fun i => (matcher input r true { endIndex := i }).isEmpty = false

end

theorem self_mem_repeatMore (m : State → List State) (greedy : Bool) (fuel : Nat) (max : Option Nat) (x : State) :
    x ∈ repeatMore m greedy fuel max x := by
  unfold repeatMore
  split
  · exact List.mem_singleton_self x
  · exact List.mem_singleton_self x
  · cases greedy with
    | true => exact List.mem_append_right _ (List.mem_singleton_self x)
    | false => exact List.mem_cons_self

theorem repeatMore_succ (m : State → List State) (greedy : Bool) (fuel : Nat) {max : Option Nat} (more : max ≠ some 0)
    (x : State) :
    repeatMore m greedy (fuel + 1) max x =
      let more := ((m x).filter (·.endIndex ≠ x.endIndex)).flatMap (repeatMore m greedy fuel (max.map (· - 1)))
      if greedy then more ++ [x] else x :: more := by
  rw [repeatMore]
  exact more

theorem mem_repeatMore_succ {m : State → List State} {greedy : Bool} {fuel : Nat} {max : Option Nat} (more : max ≠ some 0)
    {x y : State} : y ∈ repeatMore m greedy (fuel + 1) max x ↔
      y = x ∨ ∃ z ∈ m x, z.endIndex ≠ x.endIndex ∧ y ∈ repeatMore m greedy fuel (max.map (· - 1)) z := by
  rw [repeatMore_succ m greedy fuel more x]
  cases greedy with
  | true => simp [and_assoc,or_comm]
  | false => simp [and_assoc]

theorem repeatMore_stop (m : State → List State) (greedy : Bool) (fuel : Nat) (x : State) :
    repeatMore m greedy fuel (some 0) x = [x] := by
  cases fuel with
  | zero => rfl
  | succ fuel => rfl

section

variable [LetterTables]

omit [LetterTables] in
theorem isWordChar_beyond {c : CodeUnit} (beyond : 128 ≤ c.toNat) : isWordChar c = false := by
  have far (low high : Char) (small : (unit high).toNat < 128) : between low high c = false := by
    rw [between,Bool.and_eq_false_iff]
    refine .inr (decide_eq_false fun below => ?_)
    have := UInt16.le_iff_toNat_le.mp below
    omega
  have other : c ≠ unit '_' := by
    rintro rfl
    exact absurd beyond (by decide)
  simp [isWordChar,isLetter,isDigit,far 'a' 'z' (by decide),far 'A' 'Z' (by decide),far '0' '9' (by decide),other]

theorem canonicalize_ascii {c : CodeUnit} (ascii : c.toNat < 128) :
    canonicalize c = if 97 ≤ c.toNat ∧ c.toNat ≤ 122 then c - 32 else c := by
  rw [canonicalize,LetterTables.upper_ascii c ascii]
  exact if_neg fun both => absurd both.1 (by omega)

theorem canonicalize_beyond {c : CodeUnit} (beyond : 128 ≤ c.toNat) : 128 ≤ (canonicalize c).toNat := by
  unfold canonicalize
  split
  · split
    · exact beyond
    · rename_i upper _ far
      by_contra small
      exact far ⟨beyond,by omega⟩
  · exact beyond

omit [LetterTables] in
theorem isWordChar_ascii : ∀ n < 128, isWordChar (if 97 ≤ n ∧ n ≤ 122 then UInt16.ofNat n - 32 else UInt16.ofNat n) =
    isWordChar (UInt16.ofNat n) := by decide

theorem isWordChar_canonicalize (c : CodeUnit) : isWordChar (canonicalize c) = isWordChar c := by
  by_cases ascii : c.toNat < 128
  · have upper := isWordChar_ascii c.toNat ascii
    rw [UInt16.ofNat_toNat] at upper
    rw [canonicalize_ascii ascii,upper]
  · have beyond : 128 ≤ c.toNat := by omega
    rw [isWordChar_beyond beyond,isWordChar_beyond (canonicalize_beyond beyond)]

def SameLetters (input input' : List CodeUnit) : Prop := input.map canonicalize = input'.map canonicalize

namespace SameLetters

variable {input input' : List CodeUnit}

section

variable (same : SameLetters input input')
include same

theorem length_eq : input.length = input'.length := by
  simpa using congrArg List.length same

theorem getElem? (i : Nat) :
    input[i]?.map canonicalize = input'[i]?.map canonicalize := by
  rw [← List.getElem?_map,← List.getElem?_map,same]

theorem any (i : Nat) {accepts : CodeUnit → Bool}
    (blind : ∀ c d, canonicalize c = canonicalize d → accepts c = accepts d) :
    input[i]?.any accepts = input'[i]?.any accepts := by
  have letter := same.getElem? i
  cases here : input[i]? with
  | none => cases there : input'[i]? with
    | none => rfl
    | some d => simp [here,there] at letter
  | some c => cases there : input'[i]? with
    | none => simp [here,there] at letter
    | some d =>
      rw [here,there] at letter
      exact blind c d (Option.some.inj letter)

theorem isWordAt_eq (i : Nat) : isWordAt input i = isWordAt input' i :=
  same.any i fun c d letters => by rw [← isWordChar_canonicalize c,letters,isWordChar_canonicalize]

theorem isBoundary_eq (i : Nat) : isBoundary input i = isBoundary input' i := by
  rw [isBoundary,isBoundary,same.isWordAt_eq,same.isWordAt_eq]

theorem advance_eq (ahead : Bool) (length i : Nat) :
    advance input ahead length i = advance input' ahead length i := by
  rw [advance,advance,same.length_eq]

theorem oneLetter_eq {accepts : CodeUnit → Bool}
    (blind : ∀ c d, canonicalize c = canonicalize d → accepts c = accepts d) (ahead : Bool) (x : State) :
    oneLetter input accepts ahead x = oneLetter input' accepts ahead x := by
  simp only [oneLetter,same.advance_eq,same.any _ blind]

theorem samePiece_eq (i j length : Nat) :
    samePiece input i j length = samePiece input' i j length := by
  simp only [samePiece,same.getElem?]

theorem backreference_eq (index : Nat) (ahead : Bool) (x : State) :
    backreference input index ahead x = backreference input' index ahead x := by
  simp only [backreference,same.advance_eq,same.samePiece_eq]

theorem matcher_eq (r : Regex) (ahead : Bool) (x : State) :
    matcher input r ahead x = matcher input' r ahead x := by
  induction r generalizing ahead x with
  | empty => rfl
  | literal c => exact same.oneLetter_eq (fun d e letters => by rw [letters]) ahead x
  | set inverted members => exact same.oneLetter_eq (fun d e letters => by simp only [inSets,letters]) ahead x
  | seq first second ih₁ ih₂ => simp only [matcher,ih₁,ih₂,funext (ih₁ ahead),funext (ih₂ ahead)]
  | alt first second ih₁ ih₂ => rw [matcher,matcher,ih₁,ih₂]
  | group index body ih => rw [matcher,matcher,ih]
  | reference index => exact same.backreference_eq index ahead x
  | lineStart => rfl
  | lineEnd => rw [matcher,matcher,same.length_eq]
  | boundary inverted => rw [matcher,matcher,same.isBoundary_eq]
  | look ahead' negated body ih => rw [matcher,matcher,ih]
  | repeated least max greedy before inside body ih =>
    rw [matcher,matcher,same.length_eq]
    simp only [ih]

theorem test_eq (r : Regex) : r.test input = r.test input' := by
  simp only [Regex.test,same.length_eq,same.matcher_eq]

end

end SameLetters

end

def Regex.looks : Regex → Bool
  | .lineStart | .lineEnd | .boundary _ | .look _ _ _ => true
  | .seq first second | .alt first second => first.looks || second.looks
  | .group _ body | .repeated _ _ _ _ _ body => body.looks
  | .empty | .literal _ | .set _ _ | .reference _ => false

def State.shift (k : Nat) (x : State) : State :=
  ⟨x.endIndex + k,fun index => (x.captures index).map fun p => (p.1 + k,p.2 + k)⟩

theorem shift_captures (x : State) (k index : Nat) :
    (x.shift k).captures index = (x.captures index).map fun p => (p.1 + k,p.2 + k) := rfl

/-- `text` holds `piece` from the index `k` on. -/
structure Holds (text piece : List CodeUnit) (k : Nat) : Prop where
  fits : piece.length + k ≤ text.length
  same : ∀ i < piece.length, text[i + k]? = piece[i]?

theorem holds_append (before piece behind : List CodeUnit) : Holds (before ++ piece ++ behind) piece before.length := by
  refine ⟨by simp only [List.length_append]; omega,fun i inside => ?_⟩
  rw [List.append_assoc,List.getElem?_append_right (Nat.le_add_left _ _),Nat.add_sub_cancel,List.getElem?_append_left inside]

/-- What `m` comes to, `m'` comes to as well, `k` letters further on. -/
def Follows (k : Nat) (m m' : State → List State) : Prop := ∀ x, ∀ y ∈ m x, y.shift k ∈ m' (x.shift k)

namespace Follows

variable {k : Nat} {m m' : State → List State}

theorem repeatMore (follows : Follows k m m') (greedy : Bool) {fuel fuel' : Nat} (more : fuel ≤ fuel') (max : Option Nat) :
    Follows k (repeatMore m greedy fuel max) (repeatMore m' greedy fuel' max) := by
  induction fuel generalizing fuel' max with
  | zero =>
    intro x y member
    obtain rfl : y = x := by
      cases max with
      | none => exact List.mem_singleton.mp member
      | some max => cases max <;> exact List.mem_singleton.mp member
    exact self_mem_repeatMore _ _ _ _ _
  | succ fuel ih =>
    obtain ⟨fuel',rfl⟩ : ∃ n : Nat, fuel' = n + 1 := ⟨fuel' - 1,by omega⟩
    intro x y member
    by_cases stop : max = some 0
    · rw [stop,repeatMore_stop] at member
      rw [List.mem_singleton.mp member]
      exact self_mem_repeatMore _ _ _ _ _
    · rw [mem_repeatMore_succ stop] at member ⊢
      rcases member with rfl | ⟨z,first,moved,rest⟩
      · exact .inl rfl
      · refine .inr ⟨z.shift k,follows x z first,fun back => moved ?_,ih (by omega) _ z y rest⟩
        exact Nat.add_right_cancel back

theorem repeatMatcher (follows : Follows k m m') (greedy : Bool) {fuel fuel' : Nat} (more : fuel ≤ fuel') (least : Nat)
    (max : Option Nat) : Follows k (repeatMatcher m greedy fuel least max) (repeatMatcher m' greedy fuel' least max) := by
  induction least generalizing max with
  | zero => exact follows.repeatMore greedy more max
  | succ least ih =>
    intro x y member
    obtain ⟨z,first,rest⟩ := List.mem_flatMap.mp member
    exact List.mem_flatMap.mpr ⟨z.shift k,follows x z first,ih _ z y rest⟩

end Follows

theorem shift_clear (x : State) (k before inside : Nat) : (x.clear before inside).shift k = (x.shift k).clear before inside := by
  unfold State.clear State.shift
  congr 1
  funext index
  dsimp only
  split <;> rfl

theorem shift_capture (x y : State) (k index : Nat) : (x.capture y index).shift k = (x.shift k).capture (y.shift k) index := by
  unfold State.capture State.shift
  congr 1
  funext i
  dsimp only
  split
  · rw [Nat.add_min_add_right,Nat.add_max_add_right]
    rfl
  · rfl

namespace Holds

variable {text piece : List CodeUnit} {k : Nat}

theorem advance_ahead {input : List CodeUnit} : advance input true length i = some j ↔ j = i + length ∧ j ≤ input.length := by
  unfold RegExp.advance
  grind

theorem advance (holds : Holds text piece k) (moved : RegExp.advance piece true length i = some j) :
    RegExp.advance text true length (i + k) = some (j + k) := by
  obtain ⟨rfl,inside⟩ := advance_ahead.mp moved
  have := holds.fits
  exact advance_ahead.mpr ⟨by omega,by omega⟩

theorem min_ahead {input : List CodeUnit} (moved : RegExp.advance input true length i = some j) : min j i = i := by
  obtain ⟨rfl,-⟩ := advance_ahead.mp moved
  exact Nat.min_eq_right (Nat.le_add_right _ _)

theorem oneLetter (holds : Holds text piece k) (accepts : CodeUnit → Bool) :
    Follows k (oneLetter piece accepts true) (oneLetter text accepts true) := by
  intro x y member
  unfold RegExp.oneLetter at member ⊢
  split at member
  · rename_i j moved
    have further : RegExp.advance text true 1 (x.shift k).endIndex = some (j + k) := holds.advance moved
    have inside : x.endIndex < piece.length := by
      obtain ⟨rfl,inside⟩ := advance_ahead.mp moved
      exact inside
    simp only [further,min_ahead further]
    rw [min_ahead moved] at member
    rw [show text[(x.shift k).endIndex]? = piece[x.endIndex]? from holds.same _ inside]
    split at member
    · rw [if_pos ‹_›,List.mem_singleton.mp member]
      exact List.mem_singleton_self _
    · cases member
  · cases member

section

variable [LetterTables]

theorem samePiece (holds : Holds text piece k) (inside : j + length ≤ piece.length)
    (same : samePiece piece i j length = true) : RegExp.samePiece text (i + k) (j + k) length = true := by
  unfold RegExp.samePiece at same ⊢
  rw [List.all_eq_true] at same ⊢
  intro n member
  have small := List.mem_range.mp member
  have letters := of_decide_eq_true (same n member)
  have here : (i + n) < piece.length := by
    by_contra beyond
    rw [List.getElem?_eq_none (Nat.le_of_not_lt beyond),List.getElem?_eq_getElem (show j + n < piece.length by omega)] at letters
    cases letters
  rw [Nat.add_right_comm i,Nat.add_right_comm j,holds.same _ here,holds.same _ (by omega)]
  exact decide_eq_true letters

theorem backreference (holds : Holds text piece k) (index : Nat) :
    Follows k (backreference piece index true) (backreference text index true) := by
  intro x y member
  unfold RegExp.backreference at member ⊢
  cases held : x.captures index with
  | none =>
    have held' : (x.shift k).captures index = none := by rw [shift_captures,held]; rfl
    rw [held] at member
    rw [held',List.mem_singleton.mp member]
    exact List.mem_singleton_self _
  | some p =>
    have held' : (x.shift k).captures index = some (p.1 + k,p.2 + k) := by rw [shift_captures,held]; rfl
    rw [held] at member
    rw [held']
    dsimp only at member ⊢
    rw [Nat.add_sub_add_right]
    split at member
    · rename_i j moved
      have further : RegExp.advance text true (p.2 - p.1) (x.shift k).endIndex = some (j + k) := holds.advance moved
      simp only [further,min_ahead further]
      rw [min_ahead moved] at member
      split at member
      · rename_i same
        have inside : x.endIndex + (p.2 - p.1) ≤ piece.length := by
          obtain ⟨rfl,inside⟩ := advance_ahead.mp moved
          exact inside
        have same' : RegExp.samePiece text (p.1 + k) (x.shift k).endIndex (p.2 - p.1) = true := holds.samePiece inside same
        rw [if_pos same',List.mem_singleton.mp member]
        exact List.mem_singleton_self _
      · cases member
    · cases member

theorem matcher (holds : Holds text piece k) (r : Regex) (blind : r.looks = false) :
    Follows k (matcher piece r true) (matcher text r true) := by
  induction r with
  | empty =>
    intro x y member
    rw [List.mem_singleton.mp member]
    exact List.mem_singleton_self _
  | literal c => exact holds.oneLetter _
  | set inverted members => exact holds.oneLetter _
  | seq first second ih₁ ih₂ =>
    obtain ⟨blind₁,blind₂⟩ := Bool.or_eq_false_iff.mp blind
    intro x y member
    obtain ⟨z,one,other⟩ := List.mem_flatMap.mp member
    exact List.mem_flatMap.mpr ⟨z.shift k,ih₁ blind₁ x z one,ih₂ blind₂ z y other⟩
  | alt first second ih₁ ih₂ =>
    obtain ⟨blind₁,blind₂⟩ := Bool.or_eq_false_iff.mp blind
    intro x y member
    exact List.mem_append.mpr ((List.mem_append.mp member).imp (ih₁ blind₁ x y) (ih₂ blind₂ x y))
  | group index body ih =>
    intro x y member
    obtain ⟨z,inner,rfl⟩ := List.mem_map.mp member
    exact List.mem_map.mpr ⟨z.shift k,ih blind x z inner,(shift_capture x z k index).symm⟩
  | reference index => exact holds.backreference index
  | lineStart => cases blind
  | lineEnd => cases blind
  | boundary inverted => cases blind
  | look ahead negated body ih => cases blind
  | repeated least max greedy before inside body ih =>
    have follows : Follows k (fun x => RegExp.matcher piece body true (x.clear before inside))
        (fun x => RegExp.matcher text body true (x.clear before inside)) := by
      intro x y member
      have found := ih blind (x.clear before inside) y member
      rwa [shift_clear] at found
    have more : piece.length + 1 ≤ text.length + 1 := by
      have := holds.fits
      omega
    exact Follows.repeatMatcher follows greedy more least max

theorem test (holds : Holds text piece k) (r : Regex) (blind : r.looks = false) (found : r.test piece = true) :
    r.test text = true := by
  obtain ⟨i,start,nonempty⟩ := List.any_eq_true.mp found
  obtain ⟨y,member⟩ := List.exists_mem_of_ne_nil _ (List.isEmpty_eq_false_iff.mp (of_decide_eq_true nonempty))
  have shifted := holds.matcher r blind _ y member
  refine List.any_eq_true.mpr ⟨i + k,?_,decide_eq_true (List.isEmpty_eq_false_iff.mpr (List.ne_nil_of_mem shifted))⟩
  have := holds.fits
  have := List.mem_range.mp start
  exact List.mem_range.mpr (by omega)

end

end Holds

section

variable [LetterTables]

theorem mem_inSets {members : List CharSet} {set : CharSet} {c : CodeUnit} (member : set ∈ members) (has : set.has c = true) :
    inSets members c = true := by
  refine List.any_eq_true.mpr ⟨c.toNat,List.mem_range.mpr c.toNat_lt,?_⟩
  rw [UInt16.ofNat_toNat,Bool.and_eq_true]
  exact ⟨List.any_eq_true.mpr ⟨set,member,has⟩,decide_eq_true rfl⟩

omit [LetterTables] in
theorem oneLetter_accepted {input : List CodeUnit} {accepts : CodeUnit → Bool} {x : State} {c : CodeUnit}
    (letter : input[x.endIndex]? = some c) (accepted : accepts c = true) :
    { x with endIndex := x.endIndex + 1 } ∈ oneLetter input accepts true x := by
  have moved : advance input true 1 x.endIndex = some (x.endIndex + 1) :=
    Holds.advance_ahead.mpr ⟨rfl,(List.getElem?_eq_some_iff.mp letter).1⟩
  simp only [oneLetter,moved,Holds.min_ahead moved,letter,Option.any_some,if_pos accepted]
  exact List.mem_singleton_self _

theorem plainNode_accepted {input : List CodeUnit} {x : State} {c : CodeUnit} (letter : input[x.endIndex]? = some c) :
    { x with endIndex := x.endIndex + 1 } ∈ matcher input (plainNode c) true x := by
  by_cases dot : c = unit '.'
  · rw [plainNode,if_pos dot]
    refine oneLetter_accepted letter ?_
    have found : inSets [.named .lineTerminator true] c = true := mem_inSets (List.mem_singleton_self _) (by rw [dot]; decide)
    rw [found]
    rfl
  · rw [plainNode,if_neg dot]
    exact oneLetter_accepted letter (decide_eq_true rfl)

theorem sequence_plain (before text : List CodeUnit) (x : State) (here : x.endIndex = before.length) :
    { x with endIndex := (before ++ text).length } ∈
      matcher (before ++ text) ((text.map plainNode).foldr .seq .empty) true x := by
  induction text generalizing before x with
  | nil =>
    rw [List.append_nil,← here]
    exact List.mem_singleton_self x
  | cons c text ih =>
    have letter : (before ++ c :: text)[x.endIndex]? = some c := by
      rw [here,List.getElem?_append_right (Nat.le_refl _),Nat.sub_self]
      rfl
    have rest := ih (before ++ [c]) { x with endIndex := x.endIndex + 1 } (by rw [here,List.length_append]; rfl)
    rw [List.append_assoc] at rest
    exact List.mem_flatMap.mpr ⟨_,plainNode_accepted letter,rest⟩

theorem test_plain (text : List CodeUnit) : ((text.map plainNode).foldr .seq .empty : Regex).test text = true := by
  refine List.any_eq_true.mpr ⟨0,List.mem_range.mpr (Nat.succ_pos _),?_⟩
  exact decide_eq_true (List.isEmpty_eq_false_iff.mpr (List.ne_nil_of_mem (sequence_plain [] text _ rfl)))

omit [LetterTables] in
theorem looks_plain (text : List CodeUnit) : ((text.map plainNode).foldr .seq .empty : Regex).looks = false := by
  induction text with
  | nil => rfl
  | cons c text ih =>
    have blind : (plainNode c).looks = false := by
      unfold plainNode
      split <;> rfl
    exact Bool.or_eq_false_iff.mpr ⟨blind,ih⟩

end

end ApexLs.Utils.RegExp
