import ApexLs.Collections.WhileLoops
import ApexLs.Utils.Text

/-! The worker's documents: offsets and positions from the starts of the lines. -/
namespace ApexLs.Server.WorkerDocuments

open ApexLs.Collections ApexLs.Utils

structure Position where
  line : Int
  character : Int
  deriving DecidableEq, Repr

structure Range where
  start : Position
  end_ : Position
  deriving DecidableEq, Repr

def lineFeed : CodeUnit := 10
def carriageReturn : CodeUnit := 13

section

variable (content : List CodeUnit)

def lineStarts : List Nat :=
  0 :: ((List.range content.length).filter fun i => content[i]? = some lineFeed).map (· + 1)

def lineStart (line : Nat) : Nat := (lineStarts content).getD line 0

def lineEnd (line : Nat) : Nat :=
  if line + 1 < (lineStarts content).length then lineStart content (line + 1) else content.length

def offsetAt (position : Position) : Nat :=
  let line := (max 0 (min position.line ((lineStarts content).length - 1 : Nat))).toNat
  let maxChar := lineEnd content line - lineStart content line
  lineStart content line + (max 0 (min position.character maxChar)).toNat

/-- Two halves of the window at least are left in every round, so that no more rounds are made than there are lines. -/
def positionAt (offset : Int) : Option Position :=
  let clamped := (max 0 (min offset content.length)).toNat
  (searchLast (fun mid => lineStart content mid ≤ clamped) (lineStarts content).length ((lineStarts content).length - 1)).map
    fun w => ⟨w.low,clamped - lineStart content w.low⟩

def getText : Option Range → List CodeUnit
  | some range => substring content (offsetAt content range.start) (offsetAt content range.end_)
  | none => content

/-- A line ends before the index: at a line feed, or at a carriage return that no line feed follows. -/
def BreaksBefore (i : Nat) : Prop :=
  content[i - 1]? = some lineFeed ∨ content[i - 1]? = some carriageReturn ∧ content[i]? ≠ some lineFeed

instance (i : Nat) : Decidable (BreaksBefore content i) := instDecidableOr

def protocolLineStarts : List Nat := 0 :: (List.range' 1 content.length).filter fun i => BreaksBefore content i

def protocolLineStart (line : Nat) : Nat := (protocolLineStarts content).getD line 0

/-- The position is in a line of the protocol, before its end, or at the end of the last one. -/
def Within (line character : Nat) : Prop :=
  line + 1 < (protocolLineStarts content).length ∧
      protocolLineStart content line + character < protocolLineStart content (line + 1) ∨
    line + 1 = (protocolLineStarts content).length ∧ protocolLineStart content line + character ≤ content.length

structure ConvertsFaithfully : Prop where
  ends : ∀ offset : Int, ∃ position, positionAt content offset = some position
  offset : ∀ o : Nat, o ≤ content.length → ∀ position, positionAt content o = some position → offsetAt content position = o
  position : ∀ l c : Nat, Within content l c → positionAt content (offsetAt content ⟨l,c⟩) = some ⟨l,c⟩
  monotone : ∀ l c l' c' : Nat, l < l' ∨ l = l' ∧ c ≤ c' → offsetAt content ⟨l,c⟩ ≤ offsetAt content ⟨l',c'⟩
  lines : lineStarts content = protocolLineStarts content
  text : ∀ l c l' c' : Nat, Within content l c → Within content l' c' → l < l' ∨ l = l' ∧ c ≤ c' →
    getText content (some ⟨⟨l,c⟩,⟨l',c'⟩⟩) = (content.drop (protocolLineStart content l + c)).take
      (protocolLineStart content l' + c' - (protocolLineStart content l + c))

variable {content}

theorem mem_lineStarts {s : Nat} : s ∈ lineStarts content ↔ s = 0 ∨ ∃ i, content[i]? = some lineFeed ∧ s = i + 1 := by
  simp only [lineStarts,List.mem_cons,List.mem_map,List.mem_filter,List.mem_range,decide_eq_true_eq]
  refine or_congr_right (exists_congr fun i => ?_)
  constructor
  · exact fun ⟨⟨_,feed⟩,same⟩ => ⟨feed,same.symm⟩
  · exact fun ⟨feed,same⟩ => ⟨⟨(List.getElem?_eq_some_iff.mp feed).1,feed⟩,same.symm⟩

theorem lineStarts_ascend : (lineStarts content).Pairwise (· < ·) := by
  refine List.pairwise_cons.mpr ⟨fun s member => ?_,?_⟩
  · obtain ⟨i,-,rfl⟩ := List.mem_map.mp member
    exact Nat.succ_pos i
  · exact (List.pairwise_lt_range.filter _).map _ fun _ _ less => Nat.succ_lt_succ less

theorem lineStarts_pos (content : List CodeUnit) : 0 < (lineStarts content).length := Nat.succ_pos _

theorem lineStart_eq_getElem {k : Nat} (inside : k < (lineStarts content).length) :
    lineStart content k = (lineStarts content)[k] := by
  rw [lineStart,List.getD_eq_getElem?_getD,List.getElem?_eq_getElem inside,Option.getD_some]

theorem lineStart_mem {k : Nat} (inside : k < (lineStarts content).length) : lineStart content k ∈ lineStarts content := by
  rw [lineStart_eq_getElem inside]
  exact List.getElem_mem inside

@[simp] theorem lineStart_zero : lineStart content 0 = 0 := rfl

theorem lineStart_lt {j k : Nat} (less : j < k) (inside : k < (lineStarts content).length) :
    lineStart content j < lineStart content k := by
  rw [lineStart_eq_getElem inside,lineStart_eq_getElem (Nat.lt_trans less inside)]
  exact List.pairwise_iff_getElem.mp lineStarts_ascend j k _ inside less

theorem lineStart_le {j k : Nat} (le : j ≤ k) (inside : k < (lineStarts content).length) :
    lineStart content j ≤ lineStart content k := by
  obtain rfl | less := Nat.eq_or_lt_of_le le
  · exact Nat.le_refl _
  · exact Nat.le_of_lt (lineStart_lt less inside)

theorem lineStart_le_length {k : Nat} (inside : k < (lineStarts content).length) : lineStart content k ≤ content.length := by
  obtain zero | ⟨i,feed,next⟩ := mem_lineStarts.mp (lineStart_mem inside)
  · exact zero ▸ Nat.zero_le _
  · exact next ▸ (List.getElem?_eq_some_iff.mp feed).1

theorem lineStart_le_lineEnd {k : Nat} (inside : k < (lineStarts content).length) :
    lineStart content k ≤ lineEnd content k := by
  rw [lineEnd]
  split
  next more => exact Nat.le_of_lt (lineStart_lt (Nat.lt_succ_self k) more)
  next => exact lineStart_le_length inside

def lineOf (content : List CodeUnit) (l : Nat) : Nat := min l ((lineStarts content).length - 1)

theorem lineOf_lt (content : List CodeUnit) (l : Nat) : lineOf content l < (lineStarts content).length := by
  have some_ := lineStarts_pos content
  rw [lineOf]
  omega

theorem offsetAt_cast (l c : Nat) : offsetAt content ⟨l,c⟩ = lineStart content (lineOf content l) +
    min c (lineEnd content (lineOf content l) - lineStart content (lineOf content l)) := by
  have line : (max 0 (min (l : Int) ((lineStarts content).length - 1 : Nat))).toNat = lineOf content l := by
    rw [lineOf]
    omega
  rw [offsetAt,line]
  have ordered := lineStart_le_lineEnd (lineOf_lt content l)
  dsimp only
  omega

theorem offsetAt_le_lineEnd (content : List CodeUnit) (l c : Nat) :
    offsetAt content ⟨l,c⟩ ≤ lineEnd content (lineOf content l) := by
  have ordered := lineStart_le_lineEnd (lineOf_lt content l)
  rw [offsetAt_cast]
  omega

def LineAt (content : List CodeUnit) (clamped k : Nat) : Prop :=
  LastPassing (fun mid => lineStart content mid ≤ clamped) ((lineStarts content).length - 1) k

theorem positionAt_spec (content : List CodeUnit) (offset : Int) : let clamped := (max 0 (min offset content.length)).toNat
    ∃ k : Nat, positionAt content offset = some ⟨k,clamped - lineStart content k⟩ ∧ LineAt content clamped k := by
  intro clamped
  have some_ := lineStarts_pos content
  have earlier (i j : Nat) (le : i ≤ j) (within : j ≤ (lineStarts content).length - 1)
      (passed : decide (lineStart content j ≤ clamped) = true) : decide (lineStart content i ≤ clamped) = true :=
    decide_eq_true (Nat.le_trans (lineStart_le le (by omega)) (of_decide_eq_true passed))
  obtain ⟨w,ended,last⟩ := searchLast_spec earlier (decide_eq_true (Nat.zero_le clamped))
    (Nat.sub_le (lineStarts content).length 1)
  exact ⟨w.low,congrArg (Option.map _) ended,last⟩

theorem positionAt_eq {o k : Nat} (within : o ≤ content.length) (at_ : LineAt content o k) :
    positionAt content o = some ⟨k,(o - lineStart content k : Nat)⟩ := by
  have clamped : (max 0 (min (o : Int) content.length)).toNat = o := by omega
  obtain ⟨k',found,last⟩ := positionAt_spec content o
  rw [clamped] at found last
  rw [found,last.unique at_,Int.ofNat_sub (of_decide_eq_true at_.holds)]

theorem lineAt_of_between {o k : Nat} (inside : k < (lineStarts content).length) (after : lineStart content k ≤ o)
    (before : k + 1 < (lineStarts content).length → o < lineStart content (k + 1)) : LineAt content o k := by
  refine ⟨by omega,decide_eq_true after,fun j within passed => Nat.le_of_not_lt fun beyond => ?_⟩
  have early : lineStart content (k + 1) ≤ lineStart content j := lineStart_le beyond (by omega)
  have late : lineStart content j ≤ o := of_decide_eq_true passed
  have less := before (by omega)
  omega

theorem lineAt_le_lineEnd {o k : Nat} (within : o ≤ content.length) (at_ : LineAt content o k) : o ≤ lineEnd content k := by
  rw [lineEnd]
  split
  next more =>
    refine Nat.le_of_lt (Nat.lt_of_not_le fun early => ?_)
    exact Nat.not_succ_le_self k (at_.last (k + 1) (by omega) (decide_eq_true early))
  next => exact within

theorem offsetAt_positionAt {o : Nat} (within : o ≤ content.length) {p : Position} (found : positionAt content o = some p) :
    offsetAt content p = o := by
  have clamped : (max 0 (min (o : Int) content.length)).toNat = o := by omega
  obtain ⟨k,_,at_⟩ := positionAt_spec content o
  rw [clamped] at at_
  rw [positionAt_eq within at_] at found
  have started : lineStart content k ≤ o := of_decide_eq_true at_.holds
  have ended := lineAt_le_lineEnd within at_
  have line : lineOf content k = k := Nat.min_eq_left at_.inside
  rw [← Option.some.inj found,offsetAt_cast,line]
  omega

theorem lineStarts_eq_iff : lineStarts content = protocolLineStarts content ↔
    ∀ i, content[i]? = some carriageReturn → content[i + 1]? = some lineFeed := by
  constructor
  · intro same i alone
    by_contra other
    have inside : i < content.length := (List.getElem?_eq_some_iff.mp alone).1
    have starts : i + 1 ∈ protocolLineStarts content := by
      refine List.mem_cons_of_mem _ (List.mem_filter.mpr ⟨List.mem_range'_1.mpr (by omega),decide_eq_true (.inr ⟨alone,other⟩)⟩)
    rw [← same,mem_lineStarts] at starts
    obtain zero | ⟨j,feed,next⟩ := starts
    · cases zero
    · rw [← Nat.succ.inj next,alone] at feed
      exact absurd feed (by decide)
  · intro paired
    rw [lineStarts,protocolLineStarts,List.range'_succ_left,List.filter_map,List.range_eq_range']
    refine congrArg (fun starts => 0 :: starts.map (· + 1)) (List.filter_congr fun i _ => ?_)
    rw [Function.comp_apply,decide_eq_decide,BreaksBefore,Nat.add_sub_cancel]
    exact (or_iff_left fun ⟨alone,other⟩ => other (paired i alone)).symm

theorem lastLine_empty_iff : lineStart content ((lineStarts content).length - 1) = content.length ↔
    ∀ c, content.getLast? = some c → c = lineFeed := by
  have some_ := lineStarts_pos content
  have inside : (lineStarts content).length - 1 < (lineStarts content).length := Nat.sub_one_lt_of_lt some_
  rw [List.getLast?_eq_getElem?]
  constructor
  · intro empty c last
    have member := lineStart_mem inside
    rw [empty,mem_lineStarts] at member
    obtain none_ | ⟨i,feed,next⟩ := member
    · have less := (List.getElem?_eq_some_iff.mp last).1
      omega
    · rw [next,Nat.add_sub_cancel,feed] at last
      exact (Option.some.inj last).symm
  · intro feed
    refine Nat.le_antisymm (lineStart_le_length inside) ?_
    have member : content.length ∈ lineStarts content := by
      rw [mem_lineStarts]
      obtain zero | positive := Nat.eq_zero_or_pos content.length
      · exact .inl zero
      · refine .inr ⟨content.length - 1,?_,by omega⟩
        have last := List.getElem?_eq_getElem (l := content) (i := content.length - 1) (by omega)
        rw [last,feed _ last]
    obtain ⟨k,within,same⟩ := List.getElem_of_mem member
    rw [← lineStart_eq_getElem within] at same
    rw [← same]
    exact lineStart_le (Nat.le_sub_one_of_lt within) inside

theorem lineEnd_last : lineEnd content ((lineStarts content).length - 1) = content.length := by
  have some_ := lineStarts_pos content
  rw [lineEnd,if_neg (by omega)]

theorem offsetAt_monotone_iff : (∀ l c l' c' : Nat, l < l' ∨ l = l' ∧ c ≤ c' →
    offsetAt content ⟨l,c⟩ ≤ offsetAt content ⟨l',c'⟩) ↔
      lineStart content ((lineStarts content).length - 1) = content.length := by
  have some_ := lineStarts_pos content
  have inside : (lineStarts content).length - 1 < (lineStarts content).length := Nat.sub_one_lt_of_lt some_
  constructor
  · intro monotone
    have ordered := monotone ((lineStarts content).length - 1) content.length (lineStarts content).length 0 (.inl inside)
    have last : lineOf content ((lineStarts content).length - 1) = (lineStarts content).length - 1 := Nat.min_self _
    have beyond : lineOf content (lineStarts content).length = (lineStarts content).length - 1 :=
      Nat.min_eq_right (Nat.sub_le _ 1)
    have within := lineStart_le_length inside
    rw [offsetAt_cast,offsetAt_cast,last,beyond,lineEnd_last] at ordered
    omega
  · intro empty l c l' c' before
    obtain less | same := Nat.lt_or_eq_of_le (show lineOf content l ≤ lineOf content l' by rw [lineOf,lineOf]; omega)
    · -- the first position is not after the end of its line, and the second one is in a later line
      have ended := offsetAt_le_lineEnd content l c
      have within := lineOf_lt content l'
      have next := lineStart_le less within
      rw [lineEnd,if_pos (Nat.lt_of_le_of_lt less within)] at ended
      have started : lineStart content (lineOf content l') ≤ offsetAt content ⟨l',c'⟩ := by
        rw [offsetAt_cast]
        omega
      exact Nat.le_trans ended (Nat.le_trans next started)
    · rw [offsetAt_cast,offsetAt_cast,← same]
      obtain later | ⟨-,le⟩ := before
      · have last : lineOf content l = (lineStarts content).length - 1 := by
          rw [lineOf,lineOf] at same
          rw [lineOf]
          omega
        rw [last,lineEnd_last,empty]
        omega
      · omega

theorem offsetAt_within (lines : lineStarts content = protocolLineStarts content) {l c : Nat} (within : Within content l c) :
    offsetAt content ⟨l,c⟩ = protocolLineStart content l + c ∧ protocolLineStart content l + c ≤ content.length ∧
      LineAt content (protocolLineStart content l + c) l := by
  have same (k : Nat) : protocolLineStart content k = lineStart content k := by rw [protocolLineStart,← lines,lineStart]
  rw [Within,same,same,← lines] at within
  have inside : l < (lineStarts content).length := by omega
  have line : lineOf content l = l := Nat.min_eq_left (Nat.le_sub_one_of_lt inside)
  have ordered := lineStart_le_lineEnd inside
  rw [offsetAt_cast,line,same]
  obtain ⟨more,before⟩ | ⟨last,before⟩ := within
  · have limit := lineStart_le_length more
    have ended : lineEnd content l = lineStart content (l + 1) := if_pos more
    refine ⟨?_,by omega,lineAt_of_between inside (Nat.le_add_right _ c) fun _ => before⟩
    rw [ended]
    omega
  · have ended : lineEnd content l = content.length := if_neg (by omega)
    refine ⟨?_,before,lineAt_of_between inside (Nat.le_add_right _ c) fun more => absurd more (by omega)⟩
    rw [ended]
    omega

/-- The conversions are faithful if and only if every carriage return is before a line feed, and the text is empty or ends
in a line feed. -/
theorem convertsFaithfully_iff (content : List CodeUnit) : ConvertsFaithfully content ↔
    (∀ i, content[i]? = some carriageReturn → content[i + 1]? = some lineFeed) ∧
      ∀ c, content.getLast? = some c → c = lineFeed := by
  constructor
  · intro faithful
    exact ⟨lineStarts_eq_iff.mp faithful.lines,lastLine_empty_iff.mp (offsetAt_monotone_iff.mp faithful.monotone)⟩
  · rintro ⟨paired,empty⟩
    have lines := lineStarts_eq_iff.mpr paired
    have monotone := offsetAt_monotone_iff.mpr (lastLine_empty_iff.mpr empty)
    refine ⟨fun offset => ?_,fun o within p found => offsetAt_positionAt within found,fun l c within => ?_,monotone,lines,?_⟩
    · obtain ⟨k,found,-⟩ := positionAt_spec content offset
      exact ⟨_,found⟩
    · obtain ⟨at_,limit,line⟩ := offsetAt_within lines within
      rw [at_,positionAt_eq limit line]
      have same : lineStart content l = protocolLineStart content l := by rw [protocolLineStart,← lines,lineStart]
      rw [same,Nat.add_sub_cancel_left]
    · intro l c l' c' start end_ before
      have ordered := monotone l c l' c' before
      rw [getText]
      dsimp only
      rw [(offsetAt_within lines start).1,(offsetAt_within lines end_).1] at ordered ⊢
      rw [substring,Nat.min_eq_left ordered,Nat.max_eq_right ordered]

/-- The carriage return does not end the first line. -/
theorem carriage_return_missed : ¬ConvertsFaithfully (unitsOf "a\rb\n") := by
  intro faithful
  exact absurd faithful.lines (by decide)

end

end ApexLs.Server.WorkerDocuments
