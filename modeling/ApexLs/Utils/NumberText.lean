import Mathlib.Algebra.Field.Rat
import Mathlib.Data.List.TakeWhile
import Mathlib.Tactic.IntervalCases
import ApexLs.Utils.Runtime
import ApexLs.Utils.Text

/-! `Number` of a text and the text of an integer. A numeral is read back, and a text with a colon
is not a number. -/
namespace ApexLs.Utils

def digitValue (c : Char) : Option Nat :=
  if c.isDigit then some (c.toNat - 48)
  else if 'a' ≤ c ∧ c ≤ 'f' then some (c.toNat - 87)
  else if 'A' ≤ c ∧ c ≤ 'F' then some (c.toNat - 55)
  else none

def digitStep (base value : Nat) (c : Char) : Option Nat :=
  (digitValue c).bind fun digit => if digit < base then some (base * value + digit) else none

def digits (base : Nat) (cs : List Char) : Option Nat :=
  if cs = [] then none else cs.foldlM (digitStep base) 0

def digitsOrNone (cs : List Char) : Option Nat := if cs = [] then some 0 else digits 10 cs

def exponentPart : List Char → Option Int
  | [] => some 0
  | _ :: '+' :: cs => (digits 10 cs).map Int.ofNat
  | _ :: '-' :: cs => (digits 10 cs).map (fun n => -Int.ofNat n)
  | _ :: cs => (digits 10 cs).map Int.ofNat

def beforeExponent (c : Char) : Bool := c ≠ 'e' && c ≠ 'E'

def unsignedDecimal (cs : List Char) : Option ℚ :=
  let mantissa := cs.takeWhile beforeExponent
  let whole := mantissa.takeWhile (· ≠ '.')
  let fraction := (mantissa.dropWhile (· ≠ '.')).drop 1
  if whole = [] ∧ fraction = [] then none
  else do
    let w ← digitsOrNone whole
    let f ← digitsOrNone fraction
    let e ← exponentPart (cs.dropWhile beforeExponent)
    some ((w + f / 10 ^ fraction.length) * 10 ^ e)

/-- `Number`, where it is finite: the value that is then rounded to a double. -/
def number (text : String) : Option ℚ :=
  match (trim text).toList with
  | [] => some 0
  | '0' :: 'x' :: cs => (digits 16 cs).map (Nat.cast : Nat → ℚ)
  | '0' :: 'X' :: cs => (digits 16 cs).map (Nat.cast : Nat → ℚ)
  | '0' :: 'o' :: cs => (digits 8 cs).map (Nat.cast : Nat → ℚ)
  | '0' :: 'O' :: cs => (digits 8 cs).map (Nat.cast : Nat → ℚ)
  | '0' :: 'b' :: cs => (digits 2 cs).map (Nat.cast : Nat → ℚ)
  | '0' :: 'B' :: cs => (digits 2 cs).map (Nat.cast : Nat → ℚ)
  | '+' :: cs => unsignedDecimal cs
  | '-' :: cs => (unsignedDecimal cs).map (- ·)
  | cs => unsignedDecimal cs

theorem digitSteps_free {base : Nat} {cs : List Char} : ∀ {value n : Nat},
    cs.foldlM (digitStep base) value = some n → ':' ∉ cs := by
  induction cs with
  | nil => exact fun _ => List.not_mem_nil
  | cons c cs ih =>
    intro value n read_
    rw [List.foldlM_cons] at read_
    obtain ⟨next,first,rest⟩ := Option.bind_eq_some_iff.mp read_
    rintro (_ | ⟨_,later⟩)
    · exact absurd first (by simp [digitStep,show digitValue ':' = none by decide])
    · exact ih rest later

theorem digits_free {base n : Nat} {cs : List Char} (read_ : digits base cs = some n) : ':' ∉ cs := by
  unfold digits at read_
  split at read_
  · cases read_
  · exact digitSteps_free read_

theorem digitsOrNone_free {n : Nat} {cs : List Char} (read_ : digitsOrNone cs = some n) : ':' ∉ cs := by
  unfold digitsOrNone at read_
  split at read_
  next empty => simp [empty]
  next => exact digits_free read_

theorem mapped_digits_free {α : Type} {base : Nat} {f : Nat → α} {a : α} {cs : List Char}
    (read_ : (digits base cs).map f = some a) : ':' ∉ cs := by
  obtain ⟨n,digits_,_⟩ := Option.map_eq_some_iff.mp read_
  exact digits_free digits_

theorem exponentPart_free {e : Int} {c : Char} {cs : List Char} (letter : c ≠ ':')
    (read_ : exponentPart (c :: cs) = some e) : ':' ∉ c :: cs := by
  unfold exponentPart at read_
  split at read_
  next empty => cases empty
  next rest equal =>
    obtain ⟨rfl,rfl⟩ := List.cons.inj equal
    simpa [letter.symm] using mapped_digits_free read_
  next rest equal =>
    obtain ⟨rfl,rfl⟩ := List.cons.inj equal
    simpa [letter.symm] using mapped_digits_free read_
  next rest _ _ equal =>
    obtain ⟨rfl,rfl⟩ := List.cons.inj equal
    simpa [letter.symm] using mapped_digits_free read_

theorem dropWhile_stop {p : Char → Bool} {c : Char} {cs rest : List Char} (left : cs.dropWhile p = c :: rest) :
    p c = false := by
  have full : cs.dropWhile p ≠ [] := by
    rw [left]
    exact List.cons_ne_nil _ _
  have head := List.head_dropWhile_not p full
  simp only [left,List.head_cons] at head
  exact head

theorem unsignedDecimal_free {q : ℚ} {cs : List Char} (read_ : unsignedDecimal cs = some q) : ':' ∉ cs := by
  simp only [unsignedDecimal] at read_
  split at read_
  · cases read_
  obtain ⟨w,whole,read_⟩ := Option.bind_eq_some_iff.mp read_
  obtain ⟨f,fraction,read_⟩ := Option.bind_eq_some_iff.mp read_
  obtain ⟨e,exponent,-⟩ := Option.bind_eq_some_iff.mp read_
  rw [← List.takeWhile_append_dropWhile (p := beforeExponent) (l := cs)]
  intro member
  rcases List.mem_append.mp member with inMantissa | inExponent
  · rw [← List.takeWhile_append_dropWhile (p := (· ≠ '.')) (l := cs.takeWhile beforeExponent)] at inMantissa
    rcases List.mem_append.mp inMantissa with inWhole | after
    · exact digitsOrNone_free whole inWhole
    · cases point : (cs.takeWhile beforeExponent).dropWhile (· ≠ '.') with
      | nil =>
        rw [point] at after
        exact absurd after List.not_mem_nil
      | cons c rest =>
        have stop : c = '.' := by simpa using dropWhile_stop point
        rw [point] at after fraction
        rcases List.mem_cons.mp after with colon | later
        · exact absurd (colon.trans stop) (by decide)
        · exact digitsOrNone_free fraction later
  · cases letter : cs.dropWhile beforeExponent with
    | nil =>
      rw [letter] at inExponent
      exact absurd inExponent List.not_mem_nil
    | cons c rest =>
      have stop := dropWhile_stop letter
      rw [letter] at inExponent exponent
      refine exponentPart_free ?_ exponent inExponent
      rintro rfl
      exact absurd stop (by decide)

theorem dropWhile_keeps {p : Char → Bool} {c : Char} (solid : p c = false) {cs : List Char} (member : c ∈ cs) :
    c ∈ cs.dropWhile p := by
  rw [← List.takeWhile_append_dropWhile (p := p) (l := cs)] at member
  rcases List.mem_append.mp member with dropped | kept
  · have blank := List.all_eq_true.mp List.all_takeWhile c dropped
    rw [solid] at blank
    cases blank
  · exact kept

theorem trim_keeps {c : Char} (solid : isWhiteSpace c = false) {s : String} (member : c ∈ s.toList) :
    c ∈ (trim s).toList := by
  rw [trim,String.toList_ofList,List.mem_reverse]
  exact dropWhile_keeps solid (List.mem_reverse.mpr (dropWhile_keeps solid member))

theorem number_of_colon {text : String} (colon : ':' ∈ text.toList) : number text = none := by
  have kept := trim_keeps (by decide) colon
  cases read_ : number text with
  | none => rfl
  | some q =>
    exfalso
    unfold number at read_
    revert kept
    generalize (trim text).toList = cs at read_
    split at read_
    next => exact List.not_mem_nil
    iterate 6 next => simpa using mapped_digits_free read_
    next => simpa using unsignedDecimal_free read_
    next =>
      obtain ⟨value,unsigned,-⟩ := Option.map_eq_some_iff.mp read_
      simpa using unsignedDecimal_free unsigned
    next => exact unsignedDecimal_free read_

theorem trim_of_solid {s : String} (solid : ∀ c ∈ s.toList, isWhiteSpace c = false) : trim s = s := by
  have kept : ∀ cs : List Char, (∀ c ∈ cs, isWhiteSpace c = false) → cs.dropWhile isWhiteSpace = cs := by
    intro cs every
    cases cs with
    | nil => rfl
    | cons c cs => rw [List.dropWhile_cons,if_neg (by simp [every c (.head _)])]
  rw [trim,kept _ solid,kept _ (fun c member => solid c (List.mem_reverse.mp member)),List.reverse_reverse]
  exact String.ofList_toList

theorem digit_lt {c : Char} (digit : c.isDigit) : c.toNat - 48 < 10 := by
  simp only [Char.isDigit,Bool.and_eq_true,decide_eq_true_eq,ge_iff_le,UInt32.le_iff_toNat_le] at digit
  have high : c.val.toNat ≤ 57 := digit.2
  change c.val.toNat - 48 < 10
  omega

theorem digitSteps_value {cs : List Char} (decimal : ∀ c ∈ cs, c.isDigit) :
    ∀ value, cs.foldlM (digitStep 10) value = some (Nat.ofDigitChars 10 cs value) := by
  induction cs with
  | nil => exact fun value => by simp
  | cons c cs ih =>
    intro value
    have digit := decimal c (.head _)
    rw [List.foldlM_cons,Nat.ofDigitChars_cons]
    simp only [digitStep,digitValue,digit,if_true,Option.bind_some,digit_lt digit]
    exact ih (fun x member => decimal x (.tail _ member)) _

theorem toDigits_decimal (n : Nat) : ∀ c ∈ Nat.toDigits 10 n, c.isDigit :=
  fun _ member => Nat.isDigit_of_mem_toDigits (by decide) (by decide) member

theorem digits_toDigits (n : Nat) : digits 10 (Nat.toDigits 10 n) = some n := by
  rw [digits,if_neg Nat.toDigits_ne_nil,digitSteps_value (toDigits_decimal n),Nat.ofDigitChars_ten_toDigits]

theorem unsignedDecimal_toDigits (n : Nat) : unsignedDecimal (Nat.toDigits 10 n) = some (n : ℚ) := by
  have mantissa : (Nat.toDigits 10 n).takeWhile beforeExponent = Nat.toDigits 10 n := by
    refine List.takeWhile_eq_self_iff.mpr fun c member => ?_
    by_contra letter
    have notDigit : c = 'e' ∨ c = 'E' := by simpa [beforeExponent,or_iff_not_imp_left] using letter
    rcases notDigit with rfl | rfl
    all_goals exact absurd (toDigits_decimal n _ member) (by decide)
  have exponent : (Nat.toDigits 10 n).dropWhile beforeExponent = [] := by
    apply List.dropWhile_eq_nil_iff.mpr
    exact List.takeWhile_eq_self_iff.mp mantissa
  have noPoint : ∀ c ∈ Nat.toDigits 10 n, decide (c ≠ '.') = true := by
    intro c member
    refine decide_eq_true ?_
    rintro rfl
    exact absurd (toDigits_decimal n _ member) (by decide)
  have whole := List.takeWhile_eq_self_iff.mpr noPoint
  have fraction := List.dropWhile_eq_nil_iff.mpr noPoint
  simp only [unsignedDecimal,mantissa,exponent,whole,fraction]
  simp [digitsOrNone,exponentPart,digits_toDigits,Nat.toDigits_ne_nil]

theorem int_toString_toList (v : Int) : (toString v).toList =
    if v < 0 then '-' :: Nat.toDigits 10 v.natAbs else Nat.toDigits 10 v.natAbs := by
  cases v with
  | ofNat n =>
    rw [if_neg (by simp)]
    exact toString_toList n
  | negSucc n =>
    rw [if_pos (Int.negSucc_lt_zero n)]
    change ("-" ++ Nat.repr (n + 1)).toList = _
    rw [String.toList_append]
    exact congrArg ('-' :: ·) (toString_toList (n + 1))

theorem digit_solid {c : Char} (digit : c.isDigit) : isWhiteSpace c = false := by
  simp only [Char.isDigit,Bool.and_eq_true,decide_eq_true_eq,ge_iff_le,UInt32.le_iff_toNat_le] at digit
  obtain ⟨low,high⟩ : 48 ≤ c.toNat ∧ c.toNat ≤ 57 := digit
  rw [← Char.ofNat_toNat c]
  interval_cases c.toNat
  all_goals decide

theorem toString_solid (v : Int) : ∀ c ∈ (toString v).toList, isWhiteSpace c = false := by
  intro c member
  have digits_ : ∀ c ∈ Nat.toDigits 10 v.natAbs, isWhiteSpace c = false :=
    fun c member => digit_solid (toDigits_decimal _ c member)
  rw [int_toString_toList] at member
  split at member
  · rcases List.mem_cons.mp member with rfl | digit
    · decide
    · exact digits_ c digit
  · exact digits_ c member

theorem number_toString (v : Int) : number (toString v) = some (v : ℚ) := by
  unfold number
  rw [trim_of_solid (toString_solid v),int_toString_toList]
  by_cases negative : v < 0
  · rw [if_pos negative]
    simp only [unsignedDecimal_toDigits,Option.map_some]
    have magnitude : (v.natAbs : Int) = -v := by omega
    rw [← Int.cast_natCast,magnitude]
    simp
  · rw [if_neg negative]
    have decimal := toDigits_decimal v.natAbs
    have magnitude : (v.natAbs : Int) = v := by omega
    have value : unsignedDecimal (Nat.toDigits 10 v.natAbs) = some (v : ℚ) := by
      rw [unsignedDecimal_toDigits,← Int.cast_natCast,magnitude]
    have full := @Nat.toDigits_ne_nil v.natAbs 10
    generalize Nat.toDigits 10 v.natAbs = cs at decimal value full
    -- No digit is the letter of a base or a sign.
    split
    next => exact absurd rfl full
    iterate 6 next => exact absurd (decimal _ (.tail _ (.head _))) (by decide)
    next => exact absurd (decimal _ (.head _)) (by decide)
    next => exact absurd (decimal _ (.head _)) (by decide)
    next => exact value

theorem toString_no_colon (v : Int) : ':' ∉ (toString v).toList := by
  intro colon
  rw [int_toString_toList] at colon
  have digits_ : ':' ∉ Nat.toDigits 10 v.natAbs := fun member => absurd (toDigits_decimal _ _ member) (by decide)
  split at colon
  · exact digits_ (List.mem_of_ne_of_mem (by decide) colon)
  · exact digits_ colon

end ApexLs.Utils
