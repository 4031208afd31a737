import ApexLs.Utils.Runtime

/-! ASCII lower-casing on the bytes of a text. It is the function of `asciiRuntime`, in a
form that concrete runs evaluate without decoding each text and encoding it again. -/
namespace ApexLs.Utils

def lowerByte (b : UInt8) : UInt8 := if 65 ≤ b.toNat ∧ b.toNat ≤ 90 then b + 32 else b

theorem lowerByte_other {v : Nat} (small : v < 256) (other : v < 65 ∨ 90 < v) :
    lowerByte (UInt8.ofNat v) = UInt8.ofNat v := by
  refine if_neg ?_
  rw [UInt8.toNat_ofNat_of_lt' small]
  omega

theorem lowerByte_letter {v : Nat} (lo : 65 ≤ v) (hi : v ≤ 90) :
    lowerByte (UInt8.ofNat v) = UInt8.ofNat (v + 32) := by
  refine (if_pos ?_).trans ?_
  · rw [UInt8.toNat_ofNat_of_lt' (show v < 256 by omega)]
    exact ⟨lo,hi⟩
  · rw [UInt8.ofNat_add]
    rfl

theorem encode_ascii {c : Char} (ascii : c.val.toNat ≤ 127) :
    String.utf8EncodeChar c = [UInt8.ofNat c.val.toNat] := if_pos ascii

theorem lowerByte_beyond {c : Char} (beyond : 127 < c.val.toNat) :
    ∀ b ∈ String.utf8EncodeChar c, lowerByte b = b := by
  intro b member
  simp only [String.utf8EncodeChar,show ¬ c.val.toNat ≤ 127 by omega,if_false] at member
  split at member
  · simp only [List.mem_cons,List.not_mem_nil,or_false] at member
    rcases member with rfl | rfl <;> exact lowerByte_other (by omega) (by omega)
  · split at member
    · simp only [List.mem_cons,List.not_mem_nil,or_false] at member
      rcases member with rfl | rfl | rfl <;> exact lowerByte_other (by omega) (by omega)
    · simp only [List.mem_cons,List.not_mem_nil,or_false] at member
      rcases member with rfl | rfl | rfl | rfl <;> exact lowerByte_other (by omega) (by omega)

theorem encode_toLower (c : Char) :
    String.utf8EncodeChar c.toLower = (String.utf8EncodeChar c).map lowerByte := by
  by_cases upper : c.val ≥ 'A'.val ∧ c.val ≤ 'Z'.val
  · have lo : 65 ≤ c.val.toNat := UInt32.le_iff_toNat_le.mp upper.1
    have hi : c.val.toNat ≤ 90 := UInt32.le_iff_toNat_le.mp upper.2
    have raised : c.toLower = ⟨c.val + ('a'.val - 'A'.val),_⟩ := dif_pos upper
    have shifted : c.toLower.val.toNat = c.val.toNat + 32 := by
      rw [raised]
      change (c.val.toNat + 32) % 2^32 = _
      omega
    rw [encode_ascii (by omega),encode_ascii (c := c) (by omega),shifted,List.map_singleton,lowerByte_letter lo hi]
  · have same : c.toLower = c := dif_neg upper
    have kept : ∀ b ∈ String.utf8EncodeChar c, lowerByte b = id b := by
      by_cases ascii : c.val.toNat ≤ 127
      · rw [encode_ascii ascii]
        intro b member
        obtain rfl := List.mem_singleton.mp member
        refine lowerByte_other (by omega) ?_
        by_contra letter
        exact upper ⟨UInt32.le_iff_toNat_le.mpr (show 65 ≤ c.val.toNat by omega),
          UInt32.le_iff_toNat_le.mpr (show c.val.toNat ≤ 90 by omega)⟩
      · exact lowerByte_beyond (by omega)
    rw [same,List.map_congr_left kept,List.map_id]

def lowerBytes (s : String) : List UInt8 := s.toByteArray.data.toList.map lowerByte

theorem asciiLower_bytes (s : String) : (asciiLower s).toByteArray = ⟨⟨lowerBytes s⟩⟩ := by
  rw [asciiLower,String.toByteArray_ofList,lowerBytes,← String.utf8Encode_toList]
  simp only [List.utf8Encode,List.flatMap_map,encode_toLower,List.toList_data_toByteArray,List.map_flatMap]
  exact ByteArray.ext (Array.ext' List.toList_data_toByteArray)

def byteLower (s : String) : String := ⟨⟨⟨lowerBytes s⟩⟩,asciiLower_bytes s ▸ (asciiLower s).isValidUTF8⟩

theorem asciiLower_eq_byteLower : asciiLower = byteLower :=
  funext (fun s => String.toByteArray_inj.mp (asciiLower_bytes s))

@[reducible] def byteRuntime : Runtime :=
  { asciiRuntime with
    toLowerCase := byteLower
    lower_lower := asciiLower_eq_byteLower ▸ asciiRuntime.lower_lower
    lower_separator := asciiLower_eq_byteLower ▸ asciiRuntime.lower_separator
    lower_numeral := asciiLower_eq_byteLower ▸ asciiRuntime.lower_numeral }

theorem asciiRuntime_eq : asciiRuntime = byteRuntime := by
  unfold asciiRuntime byteRuntime
  congr 1
  exact asciiLower_eq_byteLower

theorem of_byteRuntime (P : Runtime → Prop) (onBytes : P byteRuntime) : P asciiRuntime :=
  asciiRuntime_eq ▸ onBytes

end ApexLs.Utils
