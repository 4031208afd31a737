import ApexLs.Collections.WhileLoops
import ApexLs.Utils.Text

/-! The check of the escapes in string literals: a loop over the index, and the grammar that it decides. -/
namespace ApexLs.Validation.LiteralValidator

open ApexLs.Collections ApexLs.Utils

inductive ErrorCode where
  | invalidStringLiteralIllegalLastCharacter
  | invalidStringLiteralIllegalLinebreaks
  | invalidStringLiteralIllegalUnicodeSequence
  | invalidStringLiteralIllegalUnicode
  | invalidStringLiteralIllegalCharacterSequence
  deriving DecidableEq, Repr

structure StringLiteralError where
  code : ErrorCode
  illegalSequence : Option (List CodeUnit) := none
  deriving DecidableEq, Repr

def isLinebreak (c : CodeUnit) : Bool := c = unit '\n' || c = unit '\r'

def isEscapable (c : CodeUnit) : Bool := ['\'','"','\\','b','f','n','r','t'].any fun letter => c = unit letter

def isHexDigit (c : CodeUnit) : Bool :=
  (unit '0' ≤ c && c ≤ unit '9') || (unit 'a' ≤ c && c ≤ unit 'f') || (unit 'A' ≤ c && c ≤ unit 'F')

/-- A round of the loop: the indices that it reads, and its error or the index of the next round. -/
structure Round where
  reads : List Nat
  outcome : StringLiteralError ⊕ Nat

def round (inner : List CodeUnit) (i : Nat) : Round :=
  let c := inner[i]?
  if c = some (unit '\\') then
    if i = inner.length - 1 then ⟨[i],.inl { code := .invalidStringLiteralIllegalLastCharacter }⟩
    else
      let next := inner[i + 1]?
      if next.any isLinebreak then ⟨[i,i + 1],.inl { code := .invalidStringLiteralIllegalLinebreaks }⟩
      else if next = some (unit 'u') then
        let hex := substring inner (i + 2) (i + 6)
        let reads := [i,i + 1] ++ List.range' (i + 2) hex.length
        if hex.length < 4 then
          ⟨reads,.inl
            { code := .invalidStringLiteralIllegalUnicodeSequence,illegalSequence := some ([unit '\\',unit 'u'] ++ hex) }⟩
        else if !hex.all isHexDigit then
          ⟨reads,.inl { code := .invalidStringLiteralIllegalUnicode,illegalSequence := some hex }⟩
        else ⟨reads,.inr (i + 5 + 1)⟩
      else if !next.any isEscapable then
        ⟨[i,i + 1],.inl
          { code := .invalidStringLiteralIllegalCharacterSequence,illegalSequence := some (unit '\\' :: next.toList) }⟩
      else ⟨[i,i + 1],.inr (i + 1 + 1)⟩
  else if c.any isLinebreak then ⟨[i],.inl { code := .invalidStringLiteralIllegalLinebreaks }⟩
  else ⟨[i],.inr (i + 1)⟩

structure Scan where
  index : Nat := 0
  error : Option StringLiteralError := none
  reads : List Nat := []

def Scan.goesOn (inner : List CodeUnit) (s : Scan) : Bool := s.error.isNone && s.index < inner.length

def Scan.advance (inner : List CodeUnit) (s : Scan) : Scan :=
  let r := round inner s.index
  match r.outcome with
  | .inl error => { s with error := some error,reads := s.reads ++ r.reads }
  | .inr index => { s with index := index,reads := s.reads ++ r.reads }

def scan (inner : List CodeUnit) (rounds : Nat) : Option Scan :=
  whileLoop (Scan.goesOn inner) (Scan.advance inner) rounds {}

def validateStringLiteralValue (value : List CodeUnit) : Option StringLiteralError :=
  (scan value value.length).bind Scan.error

def validateStringLiteral (rawText : List CodeUnit) : Option StringLiteralError :=
  if rawText.length < 2 then none else validateStringLiteralValue (rawText.drop 1).dropLast

inductive Escaped : List CodeUnit → Prop
  | nil : Escaped []
  | plain (c : CodeUnit) (rest : List CodeUnit) (letter : c ≠ unit '\\') (whole : isLinebreak c = false)
      (more : Escaped rest) : Escaped (c :: rest)
  | simple (c : CodeUnit) (rest : List CodeUnit) (known : isEscapable c = true) (more : Escaped rest) :
      Escaped (unit '\\' :: c :: rest)
  | unicode (hex rest : List CodeUnit) (four : hex.length = 4) (digits : hex.all isHexDigit = true) (more : Escaped rest) :
      Escaped (unit '\\' :: unit 'u' :: (hex ++ rest))

theorem escaped_plain_iff {c : CodeUnit} {rest : List CodeUnit} (letter : c ≠ unit '\\') :
    Escaped (c :: rest) ↔ isLinebreak c = false ∧ Escaped rest := by
  constructor
  · intro escaped
    cases escaped with
    | plain _ _ _ whole more => exact ⟨whole,more⟩
    | simple => exact absurd rfl letter
    | unicode => exact absurd rfl letter
  · exact fun ⟨whole,more⟩ => .plain c rest letter whole more

theorem escaped_simple_iff {c : CodeUnit} {rest : List CodeUnit} (other : c ≠ unit 'u') :
    Escaped (unit '\\' :: c :: rest) ↔ isEscapable c = true ∧ Escaped rest := by
  constructor
  · intro escaped
    cases escaped with
    | plain _ _ letter => exact absurd rfl letter
    | simple _ _ known more => exact ⟨known,more⟩
    | unicode => exact absurd rfl other
  · exact fun ⟨known,more⟩ => .simple c rest known more

theorem escaped_unicode_iff {rest : List CodeUnit} : Escaped (unit '\\' :: unit 'u' :: rest) ↔
    (rest.take 4).length = 4 ∧ (rest.take 4).all isHexDigit = true ∧ Escaped (rest.drop 4) := by
  constructor
  · intro escaped
    cases escaped with
    | plain _ _ letter => exact absurd rfl letter
    | simple _ _ known => exact absurd known (by decide)
    | unicode hex rest four digits more =>
      rw [← four,List.take_left,List.drop_left]
      exact ⟨rfl,digits,more⟩
  · rintro ⟨four,digits,more⟩
    have escaped := Escaped.unicode (rest.take 4) (rest.drop 4) four digits more
    rwa [List.take_append_drop] at escaped

theorem not_escaped_backslash : ¬Escaped [unit '\\'] := by
  intro escaped
  cases escaped with
  | plain _ _ letter => exact absurd rfl letter

def Round.Tells (inner : List CodeUnit) (i : Nat) (r : Round) : Prop :=
  (∀ read_ ∈ r.reads, read_ < inner.length) ∧
    match r.outcome with
    | .inl _ => ¬Escaped (inner.drop i)
    | .inr j => i < j ∧ j ≤ inner.length ∧ (Escaped (inner.drop i) ↔ Escaped (inner.drop j))

theorem of_linebreak {c : CodeUnit} (linebreak : isLinebreak c = true) : c ≠ unit 'u' ∧ isEscapable c = false := by
  rw [isLinebreak,Bool.or_eq_true,decide_eq_true_eq,decide_eq_true_eq] at linebreak
  obtain rfl | rfl := linebreak <;> decide

theorem reads_of_two {inner : List CodeUnit} {i : Nat} (inside : i + 1 < inner.length) :
    ∀ read_ ∈ [i,i + 1], read_ < inner.length := by
  intro read_ member
  simp only [List.mem_cons,List.not_mem_nil,or_false] at member
  omega

theorem substring_four (inner : List CodeUnit) (i : Nat) : substring inner (i + 2) (i + 6) = (inner.drop (i + 2)).take 4 := by
  rw [substring,Nat.min_eq_left (by omega),Nat.max_eq_right (by omega),show i + 6 - (i + 2) = 4 by omega]

theorem round_tells {inner : List CodeUnit} {i : Nat} (inside : i < inner.length) : (round inner i).Tells inner i := by
  have here := List.drop_eq_getElem_cons inside
  have one : ∀ read_ ∈ [i], read_ < inner.length := fun read_ member => List.mem_singleton.mp member ▸ inside
  rw [round,List.getElem?_eq_getElem inside]
  dsimp only
  split
  next backslash =>
    rw [Option.some.inj backslash] at here
    split
    next last =>
      refine ⟨one,?_⟩
      rw [here,List.drop_eq_nil_of_le (by omega)]
      exact not_escaped_backslash
    next notLast =>
      have inside' : i + 1 < inner.length := by omega
      have two := reads_of_two inside'
      rw [List.drop_eq_getElem_cons inside'] at here
      rw [List.getElem?_eq_getElem inside',Option.any_some,Option.any_some]
      split
      next linebreak =>
        obtain ⟨other,unknown⟩ := of_linebreak linebreak
        refine ⟨two,?_⟩
        rw [here,escaped_simple_iff other]
        exact fun ⟨known,_⟩ => Bool.false_ne_true (unknown.symm.trans known)
      next whole =>
        split
        next unicode =>
          rw [Option.some.inj unicode] at here
          have within : ∀ read_ ∈ [i,i + 1] ++ List.range' (i + 2) (substring inner (i + 2) (i + 6)).length,
              read_ < inner.length := by
            intro read_ member
            obtain first | digit := List.mem_append.mp member
            · exact two read_ first
            · rw [substring_four,List.length_take,List.length_drop,List.mem_range'_1] at digit
              omega
          rw [substring_four] at within ⊢
          split
          next short =>
            refine ⟨within,?_⟩
            rw [here,escaped_unicode_iff]
            exact fun ⟨four,_⟩ => absurd four (Nat.ne_of_lt short)
          next long =>
            have four : ((inner.drop (i + 2)).take 4).length = 4 :=
              Nat.le_antisymm (List.length_take_le 4 _) (Nat.le_of_not_lt long)
            split
            next stray =>
              refine ⟨within,?_⟩
              rw [here,escaped_unicode_iff]
              rintro ⟨-,digits,-⟩
              rw [Bool.not_eq_true',digits] at stray
              cases stray
            next digits =>
              rw [Bool.not_eq_true',Bool.not_eq_false] at digits
              have room : i + 2 + 4 ≤ inner.length := by
                rw [List.length_take,List.length_drop] at four
                omega
              refine ⟨within,by omega,room,?_⟩
              rw [here,escaped_unicode_iff,List.drop_drop]
              exact ⟨fun ⟨_,_,more⟩ => more,fun more => ⟨four,digits,more⟩⟩
        next other =>
          split
          next unknown =>
            refine ⟨two,?_⟩
            rw [here,escaped_simple_iff fun same => other (congrArg some same)]
            rintro ⟨known,-⟩
            rw [known] at unknown
            cases unknown
          next known =>
            rw [Bool.not_eq_true',Bool.not_eq_false] at known
            refine ⟨two,by omega,inside',?_⟩
            rw [here,escaped_simple_iff fun same => other (congrArg some same)]
            exact and_iff_right known
  next letter =>
    have letter' : inner[i] ≠ unit '\\' := fun same => letter (congrArg some same)
    rw [Option.any_some]
    split
    next linebreak =>
      refine ⟨one,?_⟩
      rw [here,escaped_plain_iff letter']
      exact fun ⟨whole,_⟩ => Bool.false_ne_true (whole.symm.trans linebreak)
    next whole =>
      refine ⟨one,Nat.lt_succ_self i,inside,?_⟩
      rw [here,escaped_plain_iff letter']
      exact and_iff_right (Bool.eq_false_iff.mpr whole)

/-- Between rounds the index is in the text or at its end, and the rest decides on the whole. -/
structure Scan.Sound (inner : List CodeUnit) (s : Scan) : Prop where
  inside : s.index ≤ inner.length
  reads : ∀ read_ ∈ s.reads, read_ < inner.length
  rest : s.error = none → (Escaped inner ↔ Escaped (inner.drop s.index))
  wrong : s.error ≠ none → ¬Escaped inner

theorem goesOn_iff {inner : List CodeUnit} {s : Scan} : s.goesOn inner = true ↔ s.error = none ∧ s.index < inner.length := by
  rw [Scan.goesOn,Bool.and_eq_true,Option.isNone_iff_eq_none,decide_eq_true_eq]

theorem Scan.Sound.advance {inner : List CodeUnit} {s : Scan} (sound : s.Sound inner) (more : s.goesOn inner = true) :
    (s.advance inner).Sound inner := by
  obtain ⟨none_,inside⟩ := goesOn_iff.mp more
  obtain ⟨reads,told⟩ := round_tells inside
  have reads' : ∀ read_ ∈ s.reads ++ (round inner s.index).reads, read_ < inner.length := fun read_ member =>
    (List.mem_append.mp member).elim (sound.reads read_) (reads read_)
  rw [Scan.advance]
  cases outcome : (round inner s.index).outcome with
  | inl error =>
    rw [outcome] at told
    refine ⟨sound.inside,reads',fun absent => ?_,fun _ => ?_⟩
    · cases absent
    · rw [sound.rest none_]
      exact told
  | inr j =>
    rw [outcome] at told
    obtain ⟨-,room,same⟩ := told
    exact ⟨room,reads',fun _ => (sound.rest none_).trans same,fun error => absurd none_ error⟩

def Scan.left (inner : List CodeUnit) (s : Scan) : Nat := if s.error = none then inner.length - s.index else 0

theorem Scan.left_advance {inner : List CodeUnit} {s : Scan} (more : s.goesOn inner = true) :
    (s.advance inner).left inner < s.left inner := by
  obtain ⟨none_,inside⟩ := goesOn_iff.mp more
  obtain ⟨-,told⟩ := round_tells inside
  rw [Scan.left,Scan.left,if_pos none_,Scan.advance]
  cases outcome : (round inner s.index).outcome with
  | inl error =>
    dsimp only
    rw [if_neg (Option.some_ne_none error)]
    omega
  | inr j =>
    rw [outcome] at told
    dsimp only at told ⊢
    rw [if_pos none_]
    omega

/-- The scan ends after no more rounds than there are code units, it reads no code unit past the end, and it finds no error
in the texts of the escape grammar and in no others. -/
theorem validateStringLiteralValue_exact (value : List CodeUnit) :
    (∃ s, scan value value.length = some s ∧ s.goesOn value = false ∧ ∀ read_ ∈ s.reads, read_ < value.length) ∧
      (validateStringLiteralValue value = none ↔ Escaped value) := by
  have start : Scan.Sound value {} := by
    refine ⟨Nat.zero_le _,fun _ member => absurd member List.not_mem_nil,fun _ => Iff.rfl,fun error => absurd rfl error⟩
  have keeps (s : Scan) (sound : s.Sound value) (more : s.goesOn value = true) := sound.advance more
  obtain ⟨s,ended⟩ := whileLoop_of_measure keeps (Scan.left value) (fun _ _ more => Scan.left_advance more) start
    (Nat.le_refl value.length)
  obtain ⟨sound,done⟩ := whileLoop_spec keeps start ended
  refine ⟨⟨s,ended,done,sound.reads⟩,?_⟩
  rw [validateStringLiteralValue,scan,ended,Option.bind_some]
  constructor
  · intro none_
    have atEnd : value.length ≤ s.index := Nat.le_of_not_lt fun less => Bool.false_ne_true
      (done.symm.trans (goesOn_iff.mpr ⟨none_,less⟩))
    rw [sound.rest none_,List.drop_eq_nil_of_le atEnd]
    exact .nil
  · intro escaped
    by_contra error
    exact sound.wrong error escaped

example : validateStringLiteral (unitsOf "'\\u00GG'") =
    some { code := .invalidStringLiteralIllegalUnicode,illegalSequence := some (unitsOf "00GG") } := by decide

end ApexLs.Validation.LiteralValidator
