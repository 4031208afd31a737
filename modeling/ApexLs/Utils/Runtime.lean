import Mathlib.Data.Nat.Digits.Defs
import Mathlib.Data.List.Basic

/-! What the code takes from its runtime: lower-casing, the generated keyword tables and
the namespaces of the bundled standard library. The three laws are the facts about
lower-casing that the case-insensitive maps rest on. -/
namespace ApexLs.Utils

def separator : String := "\x1f"

class Runtime where
  toLowerCase : String → String
  apexKeywords : String → Bool
  builtinTypeNames : String → Bool
  contextualKeywords : String → Bool
  namespaceIndex : String → Bool
  lower_lower : ∀ s, toLowerCase (toLowerCase s) = toLowerCase s
  lower_separator : ∀ a b, toLowerCase (a ++ separator ++ b) = toLowerCase a ++ separator ++ toLowerCase b
  lower_numeral : ∀ n : Nat, toLowerCase (toString n) = toString n

export Runtime (toLowerCase)

section

variable [Runtime]

@[simp] theorem lower_lower (s : String) : toLowerCase (toLowerCase s) = toLowerCase s :=
  Runtime.lower_lower s

/-- `isApexKeyword`: built-in type names and contextual keywords stay identifiers. -/
def isApexKeyword (name : String) : Bool :=
  if name = "" then false
  else if Runtime.builtinTypeNames (toLowerCase name) then false
  else if Runtime.contextualKeywords (toLowerCase name) then false
  else Runtime.apexKeywords (toLowerCase name)

def isStdApexNamespace (namespace_ : String) : Bool := Runtime.namespaceIndex (toLowerCase namespace_)

end

def asciiLower (s : String) : String := String.ofList (s.toList.map Char.toLower)

/-- Letter by letter, as far as texts are ASCII. -/
class AsciiLowering extends Runtime where
  lower_ascii : ∀ s, (∀ c ∈ s.toList, c.val < 128) → toLowerCase s = asciiLower s

export AsciiLowering (lower_ascii)

theorem lower_eq [AsciiLowering] {s lower : String} (ascii : s.toList.all fun c => c.val < 128) (lowered : asciiLower s = lower) :
    toLowerCase s = lower :=
  (lower_ascii s fun c member => of_decide_eq_true (List.all_eq_true.mp ascii c member)).trans lowered

theorem charToLower_idem (c : Char) : c.toLower.toLower = c.toLower := by
  by_cases upper : c.val ≥ 'A'.val ∧ c.val ≤ 'Z'.val
  · have lower : ¬ (c.toLower.val ≥ 'A'.val ∧ c.toLower.val ≤ 'Z'.val) := by
      have shifted : c.toLower.val = c.val + 32 := by
        have raised : c.toLower = ⟨c.val + ('a'.val - 'A'.val),_⟩ := dif_pos upper
        rw [raised]
        rfl
      have lo : 65 ≤ c.val.toNat := UInt32.le_iff_toNat_le.mp upper.1
      have hi : c.val.toNat ≤ 90 := UInt32.le_iff_toNat_le.mp upper.2
      rintro ⟨_,le⟩
      rw [shifted] at le
      have wrapped : (c.val.toNat + 32) % 2^32 ≤ 90 := UInt32.le_iff_toNat_le.mp le
      omega
    exact dif_neg lower
  · have same : c.toLower = c := dif_neg upper
    rw [same,same]

theorem charToLower_digit (c : Char) (digit : c.isDigit) : c.toLower = c := by
  have notUpper : ¬ (c.val ≥ 'A'.val ∧ c.val ≤ 'Z'.val) := by
    simp only [Char.isDigit,Bool.and_eq_true,decide_eq_true_eq,ge_iff_le,UInt32.le_iff_toNat_le] at digit ⊢
    have hi : c.val.toNat ≤ 57 := digit.2
    rintro ⟨lo,_⟩
    have lo' : 65 ≤ c.val.toNat := lo
    omega
  exact dif_neg notUpper

theorem toString_toList (n : Nat) : (toString n).toList = Nat.toDigits 10 n := by
  change (Nat.repr n).toList = _
  simp [Nat.repr]

theorem numeral_digit (n : Nat) (c : Char) (member : c ∈ (toString n).toList) : c.isDigit := by
  rw [toString_toList] at member
  exact Nat.isDigit_of_mem_toDigits (by decide) (by decide) member

/-- A runtime that lower-cases ASCII letters, with the tables a small program needs. -/
@[reducible] def asciiRuntime : Runtime where
  toLowerCase := asciiLower
  apexKeywords name := name ∈ ["class","void","null","get","set","system","list","string"]
  builtinTypeNames name := name ∈ ["string","integer","list"]
  contextualKeywords name := name ∈ ["get","set","system"]
  namespaceIndex name := name ∈ ["system"]
  lower_lower s := by
    simp only [asciiLower,String.toList_ofList,List.map_map]
    congr 1
    exact List.map_congr_left (fun c _ => charToLower_idem c)
  lower_separator a b := by
    simp only [asciiLower,String.toList_append,List.map_append,String.ofList_append]
    rfl
  lower_numeral n := by
    have digits : ∀ c ∈ (toString n).toList, c.toLower = c :=
      fun c member => charToLower_digit c (numeral_digit n c member)
    rw [asciiLower,List.map_congr_left digits,List.map_id']
    exact String.ofList_toList

end ApexLs.Utils
