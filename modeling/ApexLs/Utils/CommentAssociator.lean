import Mathlib.Algebra.Order.Field.Rat
import Mathlib.Data.List.Sort
import Mathlib.Tactic.Linarith
import Mathlib.Tactic.NormNum
import ApexLs.Types.Symbol

/-! The association of comments with symbols. Each symbol near a comment gives a candidate with a confidence; the candidates are
sorted by six rules and the first is kept. Confidences are the exact results of the arithmetic, rounded. -/
namespace ApexLs.Utils

open ApexLs.Types

inductive CommentType where
  | line | block
  deriving DecidableEq, Repr, Inhabited

structure ApexComment where
  text : String
  type : CommentType
  range : Range
  tokenIndex : Nat
  isDocumentation : Option Bool := none
  deriving DecidableEq, Repr

inductive CommentAssociationType where
  | preceding | inline | internal | trailing
  deriving DecidableEq, Repr

structure CommentAssociation where
  comment : ApexComment
  symbolKey : String
  associationType : CommentAssociationType
  confidence : ℚ
  distance : Nat
  symbolKind : SymbolKind
  deriving DecidableEq

structure CommentAssociationConfig where
  maxPrecedingDistance : ℚ := 3
  maxTrailingDistance : ℚ := 1
  documentationBoost : ℚ
  minConfidence : ℚ := 1/2

/-- The rounding of finite numbers: it keeps order, sign and small integers, and is accurate about one. -/
structure Rounding where
  round : ℚ → ℚ
  mono : Monotone round
  idem : ∀ x, round (round x) = round x
  odd : ∀ x, round (-x) = -round x
  one : round 1 = 1
  accurate : ∀ x, |x| ≤ 2 → |round x - x| ≤ 1/1000

namespace Rounding

def exact : Rounding where
  round x := x
  mono _ _ bound := bound
  idem _ := rfl
  odd _ := rfl
  one := rfl
  accurate x _ := by simp

def defaultAssociationConfig (r : Rounding) : CommentAssociationConfig := { documentationBoost := r.round (3/10) }

def isCommentInsideSymbol (comment : ApexComment) (symbol : ApexSymbol) : Bool :=
  symbol.location.symbolRange.startLine ≤ comment.range.startLine &&
    comment.range.startLine ≤ symbol.location.symbolRange.endLine

/-- The confidence of a comment `distance` lines above a symbol. -/
def precedingConfidence (r : Rounding) (isBlockComment : Bool) (allowedPrecedingDistance : ℚ) (distance : Nat) : ℚ :=
  let floor := if isBlockComment then r.round (4/5) else r.round (3/5)
  let penalty := if isBlockComment then r.round (1/5) else r.round (3/10)
  max floor (r.round (1 - r.round (r.round (distance / allowedPrecedingDistance) * penalty)))

def baseAssociation (r : Rounding) (config : CommentAssociationConfig) (comment : ApexComment) (symbol : ApexSymbol)
    (distance : Nat) : Option (CommentAssociationType × ℚ) :=
  let commentLine := comment.range.startLine
  let isBlockComment := comment.type = .block
  if commentLine = symbol.location.identifierRange.startLine then some (.inline,r.round (9/10))
  else if commentLine < symbol.location.symbolRange.startLine then
    if distance > config.maxPrecedingDistance then none
    else some (.preceding,r.precedingConfidence isBlockComment config.maxPrecedingDistance distance)
  else if isCommentInsideSymbol comment symbol then some (.internal,r.round (7/10))
  else if distance > config.maxTrailingDistance then none
  else some (.trailing,if isBlockComment then r.round (1/5) else r.round (2/5))

def boosted (r : Rounding) (confidence boost : ℚ) : ℚ := min 1 (r.round (confidence + boost))

def boostDocumentation (r : Rounding) (config : CommentAssociationConfig) (comment : ApexComment) (confidence : ℚ) : ℚ :=
  if comment.isDocumentation = some true then r.boosted confidence config.documentationBoost else confidence

def boostKind (r : Rounding) (kind : SymbolKind) (confidence : ℚ) : ℚ :=
  if kind = .class_ ∨ kind = .method then r.boosted confidence (r.round (1/10)) else confidence

def analyzeAssociation (r : Rounding) (config : CommentAssociationConfig) (comment : ApexComment) (symbol : ApexSymbol) :
    Option CommentAssociation :=
  let distance := ((comment.range.startLine : Int) - symbol.location.symbolRange.startLine).natAbs
  (r.baseAssociation config comment symbol distance).map fun (associationType,baseConfidence) =>
    { comment := comment
      symbolKey := symbol.name
      associationType := associationType
      confidence := r.boostKind symbol.kind (r.boostDocumentation config comment baseConfidence)
      distance := distance
      symbolKind := symbol.kind }

def isSameLine (a : CommentAssociation) : Bool := a.associationType = .inline || a.associationType = .trailing

def compareAssociations (r : Rounding) (a b : CommentAssociation) : ℚ :=
  if isSameLine a ≠ isSameLine b then (if isSameLine a then -1 else 1)
  else if a.associationType = .internal ∧ b.associationType = .preceding then -1
  else if b.associationType = .internal ∧ a.associationType = .preceding then 1
  -- not reached: the rule before has decided
  else if a.associationType = .preceding ∧ b.associationType = .internal ∧ a.symbolKind ≠ .class_ ∧ b.symbolKind = .class_ then
    -1
  else if b.associationType = .preceding ∧ a.associationType = .internal ∧ b.symbolKind ≠ .class_ ∧ a.symbolKind = .class_ then
    1
  else if a.associationType = .internal ∧ b.associationType = .internal ∧ a.distance ≠ b.distance then
    (a.distance : ℚ) - b.distance
  else if |r.round (a.confidence - b.confidence)| < r.round (1/100) then (a.distance : ℚ) - b.distance
  else r.round (b.confidence - a.confidence)

def getBestAssociation (r : Rounding) (candidates : List CommentAssociation) : Option CommentAssociation :=
  (candidates.insertionSort fun a b => r.compareAssociations a b ≤ 0).head?

def findCandidateAssociations (r : Rounding) (config : CommentAssociationConfig) (comment : ApexComment)
    (symbols : List ApexSymbol) : List CommentAssociation :=
  symbols.filterMap (r.analyzeAssociation config comment)

/-- The symbols a comment may be associated with, from the top of the file down. -/
def sortedSymbols (symbols : List ApexSymbol) : List ApexSymbol :=
  (symbols.filter fun s => !s.isBlockSymbol).insertionSort fun a b =>
    a.location.symbolRange.startLine ≤ b.location.symbolRange.startLine

def associate (r : Rounding) (config : CommentAssociationConfig) (symbols : List ApexSymbol) (comment : ApexComment) :
    Option CommentAssociation :=
  (r.getBestAssociation (r.findCandidateAssociations config comment (sortedSymbols symbols))).filter fun best =>
    config.minConfidence ≤ best.confidence

def associateComments (r : Rounding) (config : CommentAssociationConfig) (comments : List ApexComment)
    (symbols : List ApexSymbol) : List CommentAssociation :=
  (comments.insertionSort fun a b => a.range.startLine ≤ b.range.startLine).filterMap (r.associate config symbols)

end Rounding
end ApexLs.Utils
