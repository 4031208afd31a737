import Mathlib.Data.Prod.Lex
import ApexLs.Resolution.ScopeLookup

/-! Source ranges ordered by their ends. A range holds the positions from its start to its end, both
included; the blocks of a parsed file nest or stand apart. -/
namespace ApexLs.Resolution

open ApexLs.Utils ApexLs.Types

/-- Positions in the order of the text: by line, then by column. -/
abbrev Point := ℕ ×ₗ ℕ

def Position.point (position : Position) : Point := toLex (position.line,position.character)

def start (r : Range) : Point := toLex (r.startLine,r.startColumn)

def finish (r : Range) : Point := toLex (r.endLine,r.endColumn)

theorem point_le_iff {line column line' column' : ℕ} : (toLex (line,column) : Point) ≤ toLex (line',column') ↔
    line < line' ∨ line = line' ∧ column ≤ column' :=
  Prod.Lex.toLex_le_toLex

theorem rangeContains_iff {r : Range} {position : Position} : rangeContains r position = true ↔
    start r ≤ position.point ∧ position.point ≤ finish r := by
  unfold start finish Position.point
  rw [point_le_iff,point_le_iff]
  simp only [rangeContains,Bool.and_eq_true,Bool.or_eq_true,decide_eq_true_eq,gt_iff_lt,ge_iff_le]
  constructor
  · rintro ⟨after | ⟨same,after⟩,before⟩
    · exact ⟨.inl after,before⟩
    · exact ⟨.inr ⟨same.symm,after⟩,before⟩
  · rintro ⟨after | ⟨same,after⟩,before⟩
    · exact ⟨.inl after,before⟩
    · exact ⟨.inr ⟨same.symm,after⟩,before⟩

structure Within (inner outer : Range) : Prop where
  opens : start outer ≤ start inner
  closes : finish inner ≤ finish outer

def Apart (r r' : Range) : Prop := finish r < start r' ∨ finish r' < start r

instance : DecidableRel Within := fun _ _ => decidable_of_iff' _ ⟨fun h => And.intro h.opens h.closes,fun h => ⟨h.1,h.2⟩⟩

instance : DecidableRel Apart := fun _ _ => inferInstanceAs (Decidable (_ ∨ _))

theorem Within.contains {inner outer : Range} (nested : Within inner outer) {position : Position}
    (contains : rangeContains inner position = true) : rangeContains outer position = true := by
  obtain ⟨after,before⟩ := rangeContains_iff.mp contains
  exact rangeContains_iff.mpr ⟨nested.opens.trans after,before.trans nested.closes⟩

theorem Apart.not_both {r r' : Range} (apart : Apart r r') {position : Position} (contains : rangeContains r position = true) :
    rangeContains r' position ≠ true := by
  intro contains'
  obtain ⟨after,before⟩ := rangeContains_iff.mp contains
  obtain ⟨after',before'⟩ := rangeContains_iff.mp contains'
  rcases apart with ends | begins
  · exact absurd (after'.trans before) (not_le.mpr ends)
  · exact absurd (after.trans before') (not_le.mpr begins)

namespace FileTable

def Laminar (t : FileTable) : Prop :=
  ∀ b ∈ t.getAllSymbols, ∀ c ∈ t.getAllSymbols, b.isBlockSymbol = true → c.isBlockSymbol = true →
    Within b.location.symbolRange c.location.symbolRange ∨ Within c.location.symbolRange b.location.symbolRange ∨
      Apart b.location.symbolRange c.location.symbolRange

instance (t : FileTable) : Decidable t.Laminar := inferInstanceAs (Decidable (∀ b ∈ t.getAllSymbols, _))

def containingBlocks (t : FileTable) (position : Position) : List ApexSymbol :=
  t.getAllSymbols.filter fun s => s.isBlockSymbol && rangeContains s.location.symbolRange position

theorem mem_containingBlocks {t : FileTable} {position : Position} {b : ApexSymbol} : b ∈ t.containingBlocks position ↔
    b ∈ t.getAllSymbols ∧ b.isBlockSymbol = true ∧ rangeContains b.location.symbolRange position = true := by
  rw [containingBlocks,List.mem_filter,Bool.and_eq_true]

end FileTable
end ApexLs.Resolution
