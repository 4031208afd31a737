import Mathlib.Data.List.Basic

/-! Texts as the runtime has them: trimmed of their white space, and indexed by their UTF-16 code units. -/
namespace ApexLs.Utils

def isWhiteSpace (c : Char) : Bool :=
  ('\t' ≤ c && c ≤ '\r') || c = ' ' || c = '\u00a0' || c = '\u1680' || ('\u2000' ≤ c && c ≤ '\u200a') ||
    c = '\u2028' || c = '\u2029' || c = '\u202f' || c = '\u205f' || c = '\u3000' || c = '\ufeff'

def trim (s : String) : String :=
  String.ofList (((s.toList.dropWhile isWhiteSpace).reverse.dropWhile isWhiteSpace).reverse)

abbrev CodeUnit := UInt16

def unit (c : Char) : CodeUnit := c.val.toUInt16

def unitsOf (s : String) : List CodeUnit := s.toList.flatMap fun c =>
  if c.val < 0x10000 then [unit c]
  else [0xd800 + ((c.val - 0x10000) / 0x400).toUInt16,0xdc00 + ((c.val - 0x10000) % 0x400).toUInt16]

/-- `substring`: the indices are brought into the text, and into their order. -/
def substring (text : List CodeUnit) (start end_ : Nat) : List CodeUnit :=
  let from_ := min start end_
  (text.drop from_).take (max start end_ - from_)

end ApexLs.Utils
