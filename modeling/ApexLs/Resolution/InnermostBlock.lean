import ApexLs.Collections.StableChoice
import ApexLs.Resolution.BlockRanges

/-! The block that `findContainingBlockSymbol` picks. It compares weights, a thousand for each line and one
for each column; a nested block weighs less as long as no column reaches a thousand. -/
namespace ApexLs.Resolution

open ApexLs.Utils ApexLs.Types ApexLs.Collections

theorem rangeSize_weakOrder :
    WeakOrderOn (fun _ => True) fun b c : ApexSymbol => rangeSize b.location.symbolRange < rangeSize c.location.symbolRange where
  asymm b c _ _ lighter := not_lt.mpr lighter.le
  through b c d _ _ _ lighter := by
    rcases lt_or_ge (rangeSize b.location.symbolRange) (rangeSize c.location.symbolRange) with left | right
    · exact .inl left
    · exact .inr (right.trans_lt lighter)

namespace FileTable

structure Innermost (t : FileTable) (position : Position) (b : ApexSymbol) : Prop where
  member : b ∈ t.containingBlocks position
  within : ∀ c ∈ t.containingBlocks position, Within b.location.symbolRange c.location.symbolRange

/-- Every block that contains the position and is not innermost weighs more than an innermost one, or as much and
is listed after it. -/
def InnermostLightest (t : FileTable) (position : Position) : Prop :=
  ∀ front c back, t.containingBlocks position = front ++ c :: back → ¬ t.Innermost position c →
    ∃ b, t.Innermost position b ∧ (rangeSize b.location.symbolRange < rangeSize c.location.symbolRange ∨
      rangeSize b.location.symbolRange = rangeSize c.location.symbolRange ∧ b ∈ front)

/-- What `findContainingBlockSymbol` returns contains the position and lies in every block that does. -/
def FindsInnermost (t : FileTable) (position : Position) : Prop :=
  ∃ b, t.findContainingBlockSymbol position = some b ∧ b.isBlockSymbol = true ∧
    rangeContains b.location.symbolRange position = true ∧
    ∀ c ∈ t.getAllSymbols, c.isBlockSymbol = true → rangeContains c.location.symbolRange position = true →
      Within b.location.symbolRange c.location.symbolRange

variable {t : FileTable} {position : Position}

theorem findContainingBlockSymbol_eq_some {b : ApexSymbol} : t.findContainingBlockSymbol position = some b ↔
    First (fun b c => rangeSize b.location.symbolRange < rangeSize c.location.symbolRange) (t.containingBlocks position) b := by
  dsimp only [findContainingBlockSymbol]
  rw [← containingBlocks]
  cases t.containingBlocks position with
  | nil =>
    constructor
    · intro found
      cases found
    · rintro ⟨front,back,cut,_⟩
      simp at cut
  | cons c rest =>
    have first := first_foldl rangeSize_weakOrder c rest
    constructor
    · intro found
      exact Option.some.inj found ▸ first
    · intro first'
      exact congrArg some (first.unique first')

theorem findsInnermost_iff_innermost : t.FindsInnermost position ↔
    ∃ b, t.findContainingBlockSymbol position = some b ∧ t.Innermost position b := by
  constructor
  · rintro ⟨b,found,block,contains,within⟩
    obtain ⟨front,back,cut,_⟩ := findContainingBlockSymbol_eq_some.mp found
    refine ⟨b,found,by rw [cut]; simp,fun c member => ?_⟩
    obtain ⟨listed,block',contains'⟩ := mem_containingBlocks.mp member
    exact within c listed block' contains'
  · rintro ⟨b,found,member,within⟩
    obtain ⟨_,block,contains⟩ := mem_containingBlocks.mp member
    exact ⟨b,found,block,contains,fun c listed block' contains' => within c (mem_containingBlocks.mpr ⟨listed,block',contains'⟩)⟩

theorem exists_findContainingBlockSymbol {c : ApexSymbol} (member : c ∈ t.containingBlocks position) :
    ∃ b, t.findContainingBlockSymbol position = some b := by
  cases listed : t.containingBlocks position with
  | nil => simp [listed] at member
  | cons first rest =>
    exact ⟨_,findContainingBlockSymbol_eq_some.mpr (listed ▸ first_foldl rangeSize_weakOrder first rest)⟩

theorem InnermostLightest.innermost_of_first (lightest : t.InnermostLightest position) {b : ApexSymbol}
    (found : First (fun b c => rangeSize b.location.symbolRange < rangeSize c.location.symbolRange)
      (t.containingBlocks position) b) : t.Innermost position b := by
  obtain ⟨front,back,cut,leads,_⟩ := id found
  by_contra outer
  obtain ⟨c,innermost,lighter | ⟨same,early⟩⟩ := lightest front b back cut outer
  · exact found.led rangeSize_weakOrder (fun _ _ => trivial) c innermost.member lighter
  · exact absurd (leads c early) (not_lt.mpr same.le)

theorem Innermost.lightest {b : ApexSymbol} (innermost : t.Innermost position b)
    (found : First (fun b c => rangeSize b.location.symbolRange < rangeSize c.location.symbolRange)
      (t.containingBlocks position) b) : t.InnermostLightest position := by
  intro front c back cut outer
  have apart : b ≠ c := fun same => outer (same ▸ innermost)
  refine ⟨b,innermost,?_⟩
  rcases found.ahead cut apart with lighter | ⟨heavy,early⟩
  · exact .inl lighter
  · rcases (not_lt.mp heavy).lt_or_eq with lighter | same
    · exact .inl lighter
    · exact .inr ⟨same,early⟩

/-- Where a block contains the position, the innermost is found just where it is the lightest. -/
theorem findsInnermost_iff (t : FileTable) (position : Position)
    (inBlock : ∃ c ∈ t.getAllSymbols, c.isBlockSymbol = true ∧ rangeContains c.location.symbolRange position = true) :
    t.FindsInnermost position ↔ t.InnermostLightest position := by
  obtain ⟨c,listed,block,contains⟩ := inBlock
  obtain ⟨b,found⟩ := exists_findContainingBlockSymbol (mem_containingBlocks.mpr ⟨listed,block,contains⟩)
  have first := findContainingBlockSymbol_eq_some.mp found
  rw [findsInnermost_iff_innermost]
  constructor
  · rintro ⟨b',found',innermost⟩
    obtain rfl := Option.some.inj (found.symm.trans found')
    exact innermost.lightest first
  · intro lightest
    exact ⟨b,found,lightest.innermost_of_first first⟩

end FileTable

/-- `{ ... }` on two lines, around a block of one long line. -/
def aroundLongLine : ApexSymbol := {
  id := "file:///T.cls#T.go$block1"
  name := "block1"
  kind := .block
  scopeType := some .method
  fileUri := "file:///T.cls"
  location := ⟨⟨1,0,2,0⟩,⟨1,0,2,0⟩⟩ }

def longLine : ApexSymbol := {
  id := "file:///T.cls#T.go.block1$block2"
  name := "block2"
  kind := .block
  scopeType := some .if_
  parentId := .of "file:///T.cls#T.go$block1"
  fileUri := "file:///T.cls"
  location := ⟨⟨1,2,1,1500⟩,⟨1,2,1,1500⟩⟩ }

def longLineTable : FileTable where
  heap r := if r = .declared 0 then aroundLongLine else longLine
  table := { symbolArray := [.declared 0,.declared 1] }

theorem findsInnermost_iff_longLine :
    longLineTable.FindsInnermost ⟨1,5⟩ ↔ longLineTable.InnermostLightest ⟨1,5⟩ :=
  FileTable.findsInnermost_iff longLineTable ⟨1,5⟩ ⟨longLine,.tail _ (.head _),rfl,rfl⟩

/-- The outer block weighs a thousand, the block in it 1498. -/
theorem long_line_weighs_more : ¬ ∀ (t : FileTable) (position : Position), t.Laminar →
    (∃ c ∈ t.getAllSymbols, c.isBlockSymbol = true ∧ rangeContains c.location.symbolRange position = true) →
    t.FindsInnermost position := by
  intro always
  have laminar : longLineTable.Laminar := by decide
  obtain ⟨b,found,_,_,within⟩ := always longLineTable ⟨1,5⟩ laminar ⟨longLine,.tail _ (.head _),rfl,rfl⟩
  obtain rfl : aroundLongLine = b := Option.some.inj found
  exact absurd (within longLine (.tail _ (.head _)) rfl rfl) (by decide)

end ApexLs.Resolution
