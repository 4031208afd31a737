import ApexLs.Resolution.InnermostBlock
import ApexLs.Resolution.LocalOccurrences

/-! A variable as seen from a position. `resolveVariableAtPosition` visits the blocks around the position from the
one that starts last; of blocks that start together the one listed first comes first, and it need not be the inner one. -/
namespace ApexLs.Resolution

open ApexLs.Utils ApexLs.Types ApexLs.Collections

def startsLater (b c : ApexSymbol) : Prop := start c.location.symbolRange < start b.location.symbolRange

theorem startsLater_weakOrder : WeakOrderOn (fun _ => True) startsLater where
  asymm b c _ _ later := not_lt.mpr later.le
  through b c d _ _ _ later := by
    rcases lt_or_ge (start c.location.symbolRange) (start b.location.symbolRange) with left | right
    · exact .inl left
    · exact .inr (later.trans_le right)

def startOrder (a b : ApexSymbol) : Bool :=
  let rangeA := a.location.symbolRange
  let rangeB := b.location.symbolRange
  rangeB.startLine < rangeA.startLine || rangeB.startLine = rangeA.startLine && rangeB.startColumn ≤ rangeA.startColumn

theorem startOrder_iff {a b : ApexSymbol} : startOrder a b = true ↔ ¬ startsLater b a := by
  rw [startsLater,not_lt,start,start,point_le_iff]
  simp only [startOrder,Bool.or_eq_true,Bool.and_eq_true,decide_eq_true_eq]

section

variable [Runtime]

def nameMatches (name : String) (s : ApexSymbol) : Bool := toLowerCase s.name = toLowerCase name && isVariableLike s

namespace FileTable

variable (t : FileTable) (position : Position) (name : String)

def declares (b : ApexSymbol) : Bool := t.getAllSymbols.any fun s => childOf b s && nameMatches name s

def declaringBlocks : List ApexSymbol := (t.containingBlocks position).filter (t.declares name)

/-- Every block of the id contains the position and lies in every block around it that declares the name. -/
def InnermostId (id : String) : Prop :=
  ∀ b ∈ t.getAllSymbols, b.isBlockSymbol = true → b.id = id → rangeContains b.location.symbolRange position = true ∧
    ∀ c ∈ t.declaringBlocks position name, Within b.location.symbolRange c.location.symbolRange

/-- What is visible under the name at the position: what the innermost of the declaring blocks declares, else what
the file does. -/
inductive SeenAs : Option ApexSymbol → Prop
  | inBlock (v b : ApexSymbol) (listed : v ∈ t.getAllSymbols) (named : nameMatches name v = true)
      (declaring : b ∈ t.declaringBlocks position name) (child : childOf b v = true)
      (innermost : t.InnermostId position name b.id) : SeenAs (some v)
  | inFile (v : ApexSymbol) (listed : v ∈ t.getAllSymbols) (named : nameMatches name v = true) (root : v.parentId = .null)
      (free : t.declaringBlocks position name = []) : SeenAs (some v)
  | nowhere (free : t.declaringBlocks position name = [])
      (unknown : ∀ v ∈ t.getAllSymbols, v.parentId = .null → nameMatches name v = false) : SeenAs none

/-- A declaring block that is not innermost starts before another one, or with one that is listed before it. -/
def InnerListedFirst : Prop :=
  ∀ front c back, t.declaringBlocks position name = front ++ c :: back → ¬ t.InnermostId position name c.id →
    ∃ b ∈ t.declaringBlocks position name, start c.location.symbolRange < start b.location.symbolRange ∨
      start b.location.symbolRange = start c.location.symbolRange ∧ b ∈ front

variable {t position name}

theorem mem_declaringBlocks {b : ApexSymbol} : b ∈ t.declaringBlocks position name ↔
    b ∈ t.containingBlocks position ∧ t.declares name b = true :=
  List.mem_filter

theorem resolveVariableAtPosition_eq : resolveVariableAtPosition t position name =
    (((t.containingBlocks position).mergeSort startOrder).findSome? fun scope =>
      t.getAllSymbols.find? fun s => childOf scope s && nameMatches name s).or
      (t.getAllSymbols.find? fun s => s.parentId = .null && nameMatches name s) :=
  rfl

theorem declared_of_find {b v : ApexSymbol}
    (found : t.getAllSymbols.find? (fun s => childOf b s && nameMatches name s) = some v) :
    v ∈ t.getAllSymbols ∧ childOf b v = true ∧ nameMatches name v = true := by
  have meets := List.find?_some found
  rw [Bool.and_eq_true] at meets
  exact ⟨List.mem_of_find?_eq_some found,meets.1,meets.2⟩

theorem declares_iff {b : ApexSymbol} : t.declares name b = true ↔
    (t.getAllSymbols.find? fun s => childOf b s && nameMatches name s).isSome = true := by
  rw [List.find?_isSome,declares,List.any_eq_true]

theorem resolveVariableAtPosition_cases (t : FileTable) (position : Position) (name : String) :
    (t.declaringBlocks position name = [] ∧ resolveVariableAtPosition t position name =
      t.getAllSymbols.find? fun s => s.parentId = .null && nameMatches name s) ∨
    ∃ w v, First startsLater (t.declaringBlocks position name) w ∧
      t.getAllSymbols.find? (fun s => childOf w s && nameMatches name s) = some v ∧
      resolveVariableAtPosition t position name = some v := by
  rw [resolveVariableAtPosition_eq]
  cases answer : ((t.containingBlocks position).mergeSort startOrder).findSome? fun scope =>
    t.getAllSymbols.find? fun s => childOf scope s && nameMatches name s with
  | none =>
    refine .inl ⟨List.filter_eq_nil_iff.mpr fun b member declaring => ?_,Option.none_or⟩
    have silent := List.findSome?_eq_none_iff.mp answer b (List.mem_mergeSort.mpr member)
    rw [declares_iff,silent] at declaring
    cases declaring
  | some v =>
    obtain ⟨early,w,late,sorted,found,silent⟩ := List.findSome?_eq_some_iff.mp answer
    refine .inr ⟨w,v,?_,found,Option.some_or⟩
    apply find?_mergeSort startsLater_weakOrder (fun _ _ => startOrder_iff) (t.declares name)
    refine List.find?_eq_some_iff_append.mpr ⟨by rw [declares_iff,found]; rfl,early,late,sorted,fun b member => ?_⟩
    rw [Bool.not_eq_true',← Bool.not_eq_true,declares_iff,silent b member]
    exact Bool.false_ne_true

theorem InnerListedFirst.innermost (inner : t.InnerListedFirst position name) {w : ApexSymbol}
    (first : First startsLater (t.declaringBlocks position name) w) : t.InnermostId position name w.id := by
  obtain ⟨front,back,cut,leads,_⟩ := id first
  by_contra outer
  obtain ⟨b,declaring,later | ⟨same,early⟩⟩ := inner front w back cut outer
  · exact first.led startsLater_weakOrder (fun _ _ => trivial) b declaring later
  · exact absurd (leads b early) (not_lt.mpr same.ge)

theorem innerListedFirst_of_first {w : ApexSymbol} (first : First startsLater (t.declaringBlocks position name) w)
    (innermost : t.InnermostId position name w.id) : t.InnerListedFirst position name := by
  intro front c back cut outer
  have apart : w ≠ c := fun same => outer (same ▸ innermost)
  refine ⟨w,first.mem,?_⟩
  rcases first.ahead cut apart with later | ⟨earlier,listed⟩
  · exact .inl later
  · rcases (not_lt.mp earlier).lt_or_eq with later | same
    · exact .inl later
    · exact .inr ⟨same.symm,listed⟩

/-- The lookup is lexical just where inner blocks are listed before the outer ones they start with. -/
theorem resolveVariableAtPosition_lexical_iff (t : FileTable) (position : Position) (name : String) :
    t.SeenAs position name (resolveVariableAtPosition t position name) ↔ t.InnerListedFirst position name := by
  rcases resolveVariableAtPosition_cases t position name with ⟨free,answer⟩ | ⟨w,v,first,found,answer⟩
  · have vacuous : t.InnerListedFirst position name := by
      intro front c back cut
      simp [free] at cut
    refine ⟨fun _ => vacuous,fun _ => ?_⟩
    rw [answer]
    cases found : t.getAllSymbols.find? fun s => s.parentId = .null && nameMatches name s with
    | none =>
      refine .nowhere free fun v listed root => ?_
      have silent := List.find?_eq_none.mp found v listed
      simpa [root] using silent
    | some v =>
      have meets := List.find?_some found
      rw [Bool.and_eq_true,decide_eq_true_eq] at meets
      exact .inFile v (List.mem_of_find?_eq_some found) meets.2 meets.1 free
  · rw [answer]
    obtain ⟨listed,child,named⟩ := declared_of_find found
    constructor
    · intro seen
      cases seen with
      | inBlock _ b _ _ declaring child' innermost =>
        refine innerListedFirst_of_first first ?_
        simp only [childOf,decide_eq_true_eq] at child child'
        rw [child',ParentId.of.injEq] at child
        exact child ▸ innermost
      | inFile _ _ _ _ free => exact absurd free (List.ne_nil_of_mem first.mem)
    · intro inner
      exact .inBlock v w listed named first.mem child (inner.innermost first)

end FileTable
end

def scopeBlock (id : String) (range : Range) : ApexSymbol := {
  id := id
  name := "block"
  kind := .block
  fileUri := "file:///T.cls"
  location := ⟨range,range⟩ }

/-- `Integer x;` directly in a block. -/
def declarationOfX (parent : String) : ApexSymbol := {
  id := parent ++ ".x"
  name := "x"
  kind := .variable
  parentId := .of parent
  fileUri := "file:///T.cls"
  location := ⟨⟨2,2,2,12⟩,⟨2,10,2,11⟩⟩ }

/-- Two blocks that start together, the outer one listed first; both declare `x`. -/
def sharedStart : FileTable where
  heap
    | .declared 0 => scopeBlock "outer" ⟨1,0,9,1⟩
    | .declared 1 => declarationOfX "outer"
    | .declared 2 => scopeBlock "inner" ⟨1,0,5,1⟩
    | _ => declarationOfX "inner"
  table := { symbolArray := [.declared 0,.declared 1,.declared 2,.declared 3] }

/-- In the inner block the `x` of the outer one is seen. -/
theorem outer_declaration_seen : ¬ ∀ (t : FileTable) (position : Position) (name : String), t.Laminar →
    @FileTable.SeenAs asciiRuntime t position name (@resolveVariableAtPosition asciiRuntime t position name) := by
  intro always
  let _ := asciiRuntime
  have laminar : sharedStart.Laminar := by decide
  have around : sharedStart.containingBlocks ⟨3,0⟩ = [scopeBlock "outer" ⟨1,0,9,1⟩,scopeBlock "inner" ⟨1,0,5,1⟩] := rfl
  have answer : resolveVariableAtPosition sharedStart ⟨3,0⟩ "x" = some (declarationOfX "outer") := by
    rw [FileTable.resolveVariableAtPosition_eq,around,List.mergeSort_of_pairwise (by decide)]
    rfl
  have seen := always sharedStart ⟨3,0⟩ "x" laminar
  rw [answer] at seen
  cases seen with
  | inBlock _ b _ _ declaring child innermost =>
    have outer : b.id = "outer" := by simpa [childOf,declarationOfX,eq_comm] using child
    have inner : scopeBlock "inner" ⟨1,0,5,1⟩ ∈ sharedStart.declaringBlocks ⟨3,0⟩ "x" := by
      rw [FileTable.mem_declaringBlocks,around]
      exact ⟨.tail _ (.head _),rfl⟩
    exact absurd ((innermost (scopeBlock "outer" ⟨1,0,9,1⟩) (.head _) rfl outer.symm).2 _ inner) (by decide)
  | inFile _ _ _ root _ => cases root

end ApexLs.Resolution
