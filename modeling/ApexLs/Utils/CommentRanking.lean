import Mathlib.Tactic.Linarith
import Mathlib.Tactic.NormNum
import ApexLs.Collections.StableChoice
import ApexLs.Collections.TolerantRanking
import ApexLs.Utils.CommentAssociator

/-! The order of the candidates for one comment. The comparator forgives a difference of a hundredth in confidence, which is
not transitive of itself; among the confidences that one comment can get it makes a strict weak order all the same. -/
namespace ApexLs.Utils

open ApexLs.Types ApexLs.Collections

/-- The place of a type of association: on the line of the symbol, inside it, before it. -/
def CommentAssociationType.rank : CommentAssociationType → Nat
  | .inline => 0
  | .trailing => 0
  | .internal => 1
  | .preceding => 2

theorem CommentAssociationType.rank_eq_one {t : CommentAssociationType} : t.rank = 1 ↔ t = .internal := by
  cases t <;> simp [rank]

theorem CommentAssociationType.preceding_of_rank {t : CommentAssociationType} {n : Nat} (far : t.rank = n + 2) :
    t = .preceding := by
  cases t <;> simp [rank] at far ⊢

namespace Rounding

variable (r : Rounding)

theorem zero : r.round 0 = 0 := by
  have odd := r.odd 0
  rw [neg_zero] at odd
  linarith

theorem nonneg {x : ℚ} (bound : 0 ≤ x) : 0 ≤ r.round x := r.zero ▸ r.mono bound

/-- A number as the runtime has it, at most one. -/
structure Confidence (x : ℚ) : Prop where
  rounded : r.round x = x
  bound : x ≤ 1

theorem confidence_round {x : ℚ} (bound : x ≤ 1) : r.Confidence (r.round x) := ⟨r.idem x,r.one ▸ r.mono bound⟩

theorem Confidence.max {x y : ℚ} (first : r.Confidence x) (second : r.Confidence y) : r.Confidence (max x y) := by
  rcases max_choice x y with same | same
  · rwa [same]
  · rwa [same]

theorem confidence_boosted (confidence boost : ℚ) : r.Confidence (r.boosted confidence boost) := by
  unfold boosted
  rcases min_choice 1 (r.round (confidence + boost)) with same | same
  · rw [same]
    exact ⟨r.one,le_rfl⟩
  · exact ⟨by rw [same,r.idem],min_le_left _ _⟩

theorem boosted_mono {boost : ℚ} : Monotone fun confidence => r.boosted confidence boost := by
  intro x y bound
  exact min_le_min_left _ (r.mono (by linarith))

theorem Confidence.le_boosted {x boost : ℚ} (confidence : r.Confidence x) (up : 0 ≤ boost) : x ≤ r.boosted x boost := by
  refine le_min confidence.bound ?_
  calc x = r.round x := confidence.rounded.symm
    _ ≤ r.round (x + boost) := r.mono (by linarith)

def Close (x y : ℚ) : Prop := |r.round (x - y)| < r.round (1/100)

theorem hundredth : 9/1000 ≤ r.round (1/100) ∧ r.round (1/100) ≤ 11/1000 := by
  have near := abs_le.mp (r.accurate (1/100) (by norm_num))
  constructor <;> linarith [near.1,near.2]

theorem tolerance : Tolerance r.Close where
  refl x := by
    have positive := r.hundredth.1
    simp only [Close,sub_self,r.zero,abs_zero]
    linarith
  symm x y near := by
    have swapped : r.round (y - x) = -r.round (x - y) := by rw [← r.odd,neg_sub]
    rwa [Close,swapped,abs_neg]
  between x y z low high near := by
    have whole : r.round (x - z) ≤ 0 := r.zero ▸ r.mono (by linarith)
    have first : r.round (x - y) ≤ 0 := r.zero ▸ r.mono (by linarith)
    have second : r.round (y - z) ≤ 0 := r.zero ▸ r.mono (by linarith)
    have inner : r.round (x - z) ≤ r.round (x - y) := r.mono (by linarith)
    have inner' : r.round (x - z) ≤ r.round (y - z) := r.mono (by linarith)
    simp only [Close,abs_of_nonpos whole,abs_of_nonpos first,abs_of_nonpos second] at near ⊢
    constructor <;> linarith

theorem not_close {x y : ℚ} (apart : 1/50 ≤ y - x) (bound : y - x ≤ 2) : ¬ r.Close x y := by
  have near := abs_le.mp (r.accurate (x - y) (abs_le.mpr ⟨by linarith,by linarith⟩))
  have bound := r.hundredth.2
  rw [Close,not_lt]
  refine le_trans ?_ (neg_le_abs _)
  linarith [near.2]

def tieBreak (a b : CommentAssociation) : ℚ :=
  if |r.round (a.confidence - b.confidence)| < r.round (1/100) then (a.distance : ℚ) - b.distance
  else r.round (b.confidence - a.confidence)

theorem compareAssociations_eq (a b : CommentAssociation) : r.compareAssociations a b =
    if a.associationType.rank < b.associationType.rank then -1
    else if b.associationType.rank < a.associationType.rank then 1
    else if a.associationType = .internal ∧ a.distance ≠ b.distance then (a.distance : ℚ) - b.distance
    else r.tieBreak a b := by
  obtain ⟨_,_,type,_,_,_⟩ := a
  obtain ⟨_,_,type',_,_,_⟩ := b
  cases type <;> cases type' <;> simp [compareAssociations,isSameLine,CommentAssociationType.rank,tieBreak]

def Before (a b : CommentAssociation) : Prop := r.compareAssociations a b < 0

theorem round_sub_swap (x y : ℚ) : r.round (y - x) = -r.round (x - y) := by rw [← r.odd,neg_sub]

theorem compareAssociations_swap (a b : CommentAssociation) : r.compareAssociations b a = -r.compareAssociations a b := by
  have tied : r.tieBreak b a = -r.tieBreak a b := by
    unfold tieBreak
    rw [r.round_sub_swap a.confidence b.confidence,abs_neg]
    split
    next => exact (neg_sub _ _).symm
    next => exact (neg_neg _).symm
  rw [compareAssociations_eq,compareAssociations_eq]
  rcases lt_trichotomy a.associationType.rank b.associationType.rank with lower | same | higher
  · rw [if_neg (by omega),if_pos lower,if_pos lower]
    norm_num
  · have inside : b.associationType = .internal ↔ a.associationType = .internal := by
      rw [← CommentAssociationType.rank_eq_one,← CommentAssociationType.rank_eq_one,same]
    simp only [same,lt_irrefl,if_false,inside,tied,ne_comm (a := b.distance)]
    split
    next => exact (neg_sub _ _).symm
    next => rfl
  · rw [if_pos higher,if_neg (by omega),if_pos higher]

theorem tieBreak_lt_iff (a b : CommentAssociation) : r.tieBreak a b < 0 ↔
    Leads r.Close CommentAssociation.confidence CommentAssociation.distance a b := by
  have positive := r.hundredth.1
  unfold tieBreak Leads
  split
  next near =>
    have near' : r.Close a.confidence b.confidence := near
    simp [near']
  next far =>
    have far' : ¬ r.Close a.confidence b.confidence := far
    simp only [far',false_and,not_false_eq_true,true_and,false_or]
    rw [not_lt] at far
    constructor
    · intro negative
      by_contra higher
      have up := r.nonneg (show 0 ≤ b.confidence - a.confidence by linarith)
      linarith
    · intro higher
      have down : 0 ≤ r.round (a.confidence - b.confidence) := r.nonneg (by linarith)
      rw [abs_of_nonneg down] at far
      rw [r.round_sub_swap]
      linarith

theorem before_iff_of_rank_ne {a b : CommentAssociation} (apart : a.associationType.rank ≠ b.associationType.rank) :
    r.Before a b ↔ a.associationType.rank < b.associationType.rank := by
  rw [Before,compareAssociations_eq]
  by_cases lower : a.associationType.rank < b.associationType.rank
  · simp [lower]
  · rw [if_neg lower,if_pos (by omega)]
    simp [lower]

theorem before_iff_leads {a b : CommentAssociation} (same : a.associationType.rank = b.associationType.rank)
    (outside : a.associationType ≠ .internal ∨ a.distance = b.distance) :
    r.Before a b ↔ Leads r.Close CommentAssociation.confidence CommentAssociation.distance a b := by
  rw [Before,compareAssociations_eq,if_neg (by omega),if_neg (by omega),if_neg ?_,tieBreak_lt_iff]
  rcases outside with other | level
  · simp [other]
  · simp [level]

theorem before_iff_nearer {a b : CommentAssociation} (same : a.associationType.rank = b.associationType.rank)
    (inside : a.associationType = .internal) (apart : a.distance ≠ b.distance) :
    r.Before a b ↔ a.distance < b.distance := by
  rw [Before,compareAssociations_eq,if_neg (by omega),if_neg (by omega),if_pos ⟨inside,apart⟩]
  simp

def baseConfidence (config : CommentAssociationConfig) (comment : ApexComment) : CommentAssociationType → Nat → ℚ
  | .inline,_ => r.round (9/10)
  | .internal,_ => r.round (7/10)
  | .trailing,_ => if comment.type = .block then r.round (1/5) else r.round (2/5)
  | .preceding,distance => r.precedingConfidence (comment.type = .block) config.maxPrecedingDistance distance

/-- An association that the comment gets with some symbol. -/
def Candidate (config : CommentAssociationConfig) (comment : ApexComment) (a : CommentAssociation) : Prop :=
  ∃ symbol, r.analyzeAssociation config comment symbol = some a

section

variable {r} {config : CommentAssociationConfig} {comment : ApexComment} {a : CommentAssociation}

/-- The confidence of a candidate before the boost for classes and methods. -/
def plainConfidence (r : Rounding) (config : CommentAssociationConfig) (comment : ApexComment) (type : CommentAssociationType)
    (distance : Nat) : ℚ :=
  r.boostDocumentation config comment (r.baseConfidence config comment type distance)

theorem baseAssociation_some {symbol : ApexSymbol} {distance : Nat} {type : CommentAssociationType} {base : ℚ}
    (found : r.baseAssociation config comment symbol distance = some (type,base)) :
    base = r.baseConfidence config comment type distance ∧
      (type = .preceding → comment.range.startLine < symbol.location.symbolRange.startLine ∧
        (distance : ℚ) ≤ config.maxPrecedingDistance) := by
  simp only [baseAssociation] at found
  split at found
  next =>
    obtain ⟨rfl,rfl⟩ := Prod.mk.inj (Option.some.inj found)
    simp [baseConfidence]
  next =>
    split at found
    next above =>
      split at found
      next => cases found
      next near =>
        obtain ⟨rfl,rfl⟩ := Prod.mk.inj (Option.some.inj found)
        exact ⟨rfl,fun _ => ⟨above,le_of_not_gt near⟩⟩
    next =>
      split at found
      next =>
        obtain ⟨rfl,rfl⟩ := Prod.mk.inj (Option.some.inj found)
        simp [baseConfidence]
      next =>
        split at found
        next => cases found
        next =>
          obtain ⟨rfl,rfl⟩ := Prod.mk.inj (Option.some.inj found)
          simp [baseConfidence]

theorem Candidate.positive (candidate : r.Candidate config comment a) (above : a.associationType = .preceding) :
    0 < config.maxPrecedingDistance := by
  obtain ⟨symbol,found⟩ := candidate
  obtain ⟨⟨type,base⟩,based,rfl⟩ := Option.map_eq_some_iff.mp found
  obtain ⟨below,near⟩ := (baseAssociation_some based).2 above
  refine lt_of_lt_of_le ?_ near
  have apart : 0 < ((comment.range.startLine : Int) - symbol.location.symbolRange.startLine).natAbs := by omega
  exact_mod_cast apart

theorem Candidate.confidence_eq (candidate : r.Candidate config comment a) :
    a.confidence = r.boostKind a.symbolKind (r.plainConfidence config comment a.associationType a.distance) := by
  obtain ⟨symbol,found⟩ := candidate
  obtain ⟨⟨type,base⟩,based,rfl⟩ := Option.map_eq_some_iff.mp found
  simp only [plainConfidence,(baseAssociation_some based).1]

theorem confidence_preceding (isBlockComment : Bool) {allowed : ℚ} (positive : 0 < allowed) (distance : Nat) :
    r.Confidence (r.precedingConfidence isBlockComment allowed distance) := by
  have penalty : 0 ≤ if isBlockComment then r.round (1/5) else r.round (3/10) := by
    split
    next => exact r.nonneg (by norm_num)
    next => exact r.nonneg (by norm_num)
  have share : 0 ≤ r.round (distance / allowed) := r.nonneg (div_nonneg (Nat.cast_nonneg _) positive.le)
  unfold precedingConfidence
  refine Confidence.max r ?_ (r.confidence_round ?_)
  · split
    next => exact r.confidence_round (by norm_num)
    next => exact r.confidence_round (by norm_num)
  · have taken := r.nonneg (mul_nonneg share penalty)
    linarith

theorem precedingConfidence_antitone (isBlockComment : Bool) {allowed : ℚ} (positive : 0 < allowed) :
    Antitone (r.precedingConfidence isBlockComment allowed) := by
  have penalty : 0 ≤ if isBlockComment then r.round (1/5) else r.round (3/10) := by
    split
    next => exact r.nonneg (by norm_num)
    next => exact r.nonneg (by norm_num)
  intro d d' nearer
  have share : r.round (d / allowed) ≤ r.round (d' / allowed) := r.mono (by gcongr)
  have taken := r.mono (mul_le_mul_of_nonneg_right share penalty)
  exact max_le_max_left _ (r.mono (by linarith))

theorem boostDocumentation_mono : Monotone (r.boostDocumentation config comment) := by
  intro x y bound
  unfold boostDocumentation
  split
  next => exact r.boosted_mono bound
  next => exact bound

theorem Confidence.boostDocumentation {x : ℚ} (confidence : r.Confidence x) :
    r.Confidence (r.boostDocumentation config comment x) := by
  unfold Rounding.boostDocumentation
  split
  next => exact r.confidence_boosted _ _
  next => exact confidence

def raise (r : Rounding) (confidence : ℚ) : ℚ := r.boosted confidence (r.round (1/10))

theorem Confidence.le_raise {x : ℚ} (confidence : r.Confidence x) : x ≤ r.raise x :=
  Confidence.le_boosted r confidence (r.nonneg (by norm_num))

theorem boostKind_pair (kind : SymbolKind) (x : ℚ) : r.boostKind kind x = x ∨ r.boostKind kind x = r.raise x := by
  unfold boostKind
  split
  next => exact .inr rfl
  next => exact .inl rfl

theorem confidence_of_type (candidate : r.Candidate config comment a) {type : CommentAssociationType}
    (typed : a.associationType = type) {plain : ℚ} (level : r.plainConfidence config comment type a.distance = plain) :
    a.confidence = plain ∨ a.confidence = r.raise plain := by
  rw [candidate.confidence_eq,typed,level]
  exact boostKind_pair _ _

theorem preceding_weak : WeakOrderOn (fun a => r.Candidate config comment a ∧ a.associationType = .preceding) r.Before := by
  by_cases positive : 0 < config.maxPrecedingDistance
  · have falls := precedingConfidence_antitone (r := r) (comment.type = .block) positive
    have lower : Antitone (r.plainConfidence config comment .preceding) := fun d d' nearer =>
      boostDocumentation_mono (falls nearer)
    have upper : Antitone fun d => r.raise (r.plainConfidence config comment .preceding d) := fun d d' nearer =>
      r.boosted_mono (lower nearer)
    have above : ∀ d, r.plainConfidence config comment .preceding d ≤ r.raise (r.plainConfidence config comment .preceding d) :=
      fun d => (confidence_preceding _ positive d).boostDocumentation.le_raise
    refine WeakOrderOn.congr (leads_of_chains r.tolerance lower upper above
      (fun a => a.symbolKind = .class_ ∨ a.symbolKind = .method) ?_ ?_) fun a b member member' =>
        before_iff_leads r ?_ (.inl ?_)
    · rintro a ⟨candidate,type⟩ kind
      rw [candidate.confidence_eq,boostKind,if_pos kind,type]
      rfl
    · rintro a ⟨candidate,type⟩ kind
      rw [candidate.confidence_eq,boostKind,if_neg kind,type]
    · rw [member.2,member'.2]
    · simp [member.2]
  · constructor
    · exact fun a b member => absurd (member.1.positive member.2) positive
    · exact fun a b c member => absurd (member.1.positive member.2) positive

theorem internal_weak : WeakOrderOn (fun a => r.Candidate config comment a ∧ a.associationType = .internal) r.Before := by
  refine WeakOrderOn.lex CommentAssociation.distance (fun distance => ?_) fun a b member member' apart => ?_
  · refine WeakOrderOn.congr (leads_of_transitive r.tolerance fun a b c inA inB inC => ?_) fun a b member member' =>
      before_iff_leads r (by rw [member.1.2,member'.1.2]) (.inr (member.2.trans member'.2.symm))
    have pair {a : CommentAssociation} (member : r.Candidate config comment a ∧ a.associationType = .internal) :=
      confidence_of_type member.1 member.2 rfl
    exact r.tolerance.trans_of_pair (pair inA.1) (pair inB.1) (pair inC.1)
  · exact before_iff_nearer r (by rw [member.2,member'.2]) member.2 apart

theorem accurate_le {x bound : ℚ} (small : |x| ≤ 2) (below : x + 1/1000 ≤ bound) : r.round x ≤ bound := by
  have near := abs_le.mp (r.accurate x small)
  linarith [near.2]

theorem le_accurate {x bound : ℚ} (small : |x| ≤ 2) (above : bound ≤ x - 1/1000) : bound ≤ r.round x := by
  have near := abs_le.mp (r.accurate x small)
  linarith [near.1]

theorem tenth : 99/1000 ≤ r.round (1/10) ∧ r.round (1/10) ≤ 101/1000 :=
  ⟨le_accurate (by norm_num) (by norm_num),accurate_le (by norm_num) (by norm_num)⟩

theorem raise_one : r.raise 1 = 1 := by
  have up : r.round 1 ≤ r.round (1 + r.round (1/10)) := r.mono (by linarith [r.tenth.1])
  rw [r.one] at up
  exact min_eq_left up

theorem raise_le {x : ℚ} (low : 0 ≤ x) (high : x ≤ 1) : r.raise x ≤ x + 102/1000 := by
  have step := r.tenth
  refine (min_le_right _ _).trans (accurate_le (abs_le.mpr ⟨by linarith,by linarith⟩) ?_)
  linarith [step.2]

theorem raise_felt {x : ℚ} (low : 0 ≤ x) (high : x ≤ 1) : r.raise x = 1 ∨ x + 98/1000 ≤ r.raise x := by
  have step := r.tenth
  rcases min_choice 1 (r.round (x + r.round (1/10))) with top | under
  · exact .inl top
  · right
    rw [raise,boosted,under]
    exact le_accurate (abs_le.mpr ⟨by linarith,by linarith⟩) (by linarith [step.1])

/-- Of the confidences on the line of a symbol and after it, the first is the highest there is, or far above the other. -/
structure OnLine (r : Rounding) (trailing inline : ℚ) : Prop where
  low : 0 ≤ trailing
  high : trailing ≤ 1
  above : inline = 1 ∨ trailing ≤ 503/1000 ∧ r.Confidence inline ∧ 899/1000 ≤ inline

theorem OnLine.trans {trailing inline x y z : ℚ} (line : r.OnLine trailing inline)
    (inX : (x = trailing ∨ x = r.raise trailing) ∨ x = inline ∨ x = r.raise inline)
    (inY : (y = trailing ∨ y = r.raise trailing) ∨ y = inline ∨ y = r.raise inline)
    (inZ : (z = trailing ∨ z = r.raise trailing) ∨ z = inline ∨ z = r.raise inline)
    (near : r.Close x y) (near' : r.Close y z) : r.Close x z := by
  have low := line.low
  have high := line.high
  rcases line.above with top | ⟨under,confidence,above⟩
  · rw [top,raise_one,or_self] at inX inY inZ
    rcases raise_felt (r := r) low high with capped | felt
    · rw [capped,or_assoc,or_self] at inX inY inZ
      exact r.tolerance.trans_of_pair inX inY inZ near near'
    · -- the raised confidence may be close to one; the plain one is close to neither
      have regroup {v : ℚ} (inV : (v = trailing ∨ v = r.raise trailing) ∨ v = 1) :
          (v = trailing ∨ v = trailing) ∨ v = r.raise trailing ∨ v = 1 := by rwa [or_self,← or_assoc]
      have bound : r.raise trailing ≤ 1 := (r.confidence_boosted _ _).bound
      refine r.tolerance.trans_of_pairs ?_ (regroup inX) (regroup inY) (regroup inZ) near near'
      rintro v w (rfl | rfl) (rfl | rfl) <;> exact r.not_close (by linarith) (by linarith)
  · have raised := raise_le (r := r) low high
    have raised' := confidence.le_raise
    have bound : r.raise inline ≤ 1 := (r.confidence_boosted _ _).bound
    have felt : 0 ≤ r.raise trailing := le_min (by norm_num) (r.nonneg (by linarith [r.tenth.1]))
    refine r.tolerance.trans_of_pairs ?_ inX inY inZ near near'
    rintro v w (rfl | rfl) (rfl | rfl) <;> exact r.not_close (by linarith) (by linarith)

variable (config comment) in
theorem trailing_bounds : 0 ≤ r.baseConfidence config comment .trailing 0 ∧
    r.baseConfidence config comment .trailing 0 ≤ 401/1000 := by
  change 0 ≤ (if comment.type = .block then _ else _) ∧ (if comment.type = .block then _ else _) ≤ _
  split
  next => exact ⟨r.nonneg (by norm_num),accurate_le (by norm_num) (by norm_num)⟩
  next => exact ⟨r.nonneg (by norm_num),accurate_le (by norm_num) (by norm_num)⟩

theorem onLine (boost : 0 ≤ config.documentationBoost) :
    r.OnLine (r.plainConfidence config comment .trailing 0) (r.plainConfidence config comment .inline 0) := by
  obtain ⟨trailingLow,trailingHigh⟩ := trailing_bounds (r := r) config comment
  have inlineLow : 899/1000 ≤ r.baseConfidence config comment .inline 0 := le_accurate (by norm_num) (by norm_num)
  have inline : r.Confidence (r.baseConfidence config comment .inline 0) := r.confidence_round (by norm_num)
  unfold plainConfidence boostDocumentation
  split
  next =>
    have raised := Confidence.le_boosted r inline boost
    refine ⟨le_min (by norm_num) (r.nonneg (by linarith)),(r.confidence_boosted _ _).bound,?_⟩
    by_cases full : 1 ≤ r.baseConfidence config comment .inline 0 + config.documentationBoost
    · exact .inl (min_eq_left (r.one ▸ r.mono full))
    · refine .inr ⟨(min_le_right _ _).trans (accurate_le (abs_le.mpr ⟨by linarith,by linarith⟩) (by linarith)),
        r.confidence_boosted _ _,by linarith⟩
  next => exact ⟨trailingLow,by linarith,.inr ⟨by linarith,inline,inlineLow⟩⟩

theorem sameLine_weak (boost : 0 ≤ config.documentationBoost) :
    WeakOrderOn (fun a => r.Candidate config comment a ∧ a.associationType.rank = 0) r.Before := by
  refine WeakOrderOn.congr (leads_of_transitive r.tolerance fun a b c inA inB inC => ?_) fun a b member member' =>
    before_iff_leads r (by rw [member.2,member'.2]) (.inl fun inside => ?_)
  · have among {a : CommentAssociation} (member : r.Candidate config comment a ∧ a.associationType.rank = 0) :
        (a.confidence = r.plainConfidence config comment .trailing 0 ∨
          a.confidence = r.raise (r.plainConfidence config comment .trailing 0)) ∨
        a.confidence = r.plainConfidence config comment .inline 0 ∨
          a.confidence = r.raise (r.plainConfidence config comment .inline 0) := by
      cases type : a.associationType with
      | inline => exact .inr (confidence_of_type member.1 type rfl)
      | trailing => exact .inl (confidence_of_type member.1 type rfl)
      | internal => simp [type,CommentAssociationType.rank] at member
      | preceding => simp [type,CommentAssociationType.rank] at member
    exact (onLine boost).trans (among inA) (among inB) (among inC)
  · simp [inside,CommentAssociationType.rank] at member

theorem candidates_weak (boost : 0 ≤ config.documentationBoost) : WeakOrderOn (r.Candidate config comment) r.Before := by
  refine WeakOrderOn.lex (fun a => a.associationType.rank) (fun rank => ?_) fun a b _ _ apart => before_iff_of_rank_ne r apart
  match rank with
  | 0 => exact sameLine_weak boost
  | 1 => exact internal_weak.mono fun a member => ⟨member.1,CommentAssociationType.rank_eq_one.mp member.2⟩
  | rank + 2 => exact preceding_weak.mono fun a member => ⟨member.1,CommentAssociationType.preceding_of_rank member.2⟩

end

/-! The symbol that a comment is kept for. Only candidates that tie at one line leave a say to the order of the listing. A comment
inside a class never goes to the member it stands above: what it is inside of comes before what it precedes. -/
section

variable {r : Rounding} {config : CommentAssociationConfig} {comment : ApexComment} {symbols : List ApexSymbol}

theorem compareAssociations_sorts (a b : CommentAssociation) : r.compareAssociations a b ≤ 0 ↔ ¬ r.Before b a := by
  rw [Before,compareAssociations_swap,not_lt,Left.neg_nonpos_iff]

def semanticSymbols (symbols : List ApexSymbol) : List ApexSymbol := symbols.filter fun s => !s.isBlockSymbol

def confident (config : CommentAssociationConfig) (best : CommentAssociation) : Bool := config.minConfidence ≤ best.confidence

theorem associate_eq : r.associate config symbols comment =
    (chosen (fun a b => r.compareAssociations a b ≤ 0) (r.analyzeAssociation config comment)
      (fun s => s.location.symbolRange.startLine) (semanticSymbols symbols)).filter (confident config) := rfl

/-- No candidate precedes the symbol's, and those tied with it start no higher. -/
abbrev LeadingSymbol (r : Rounding) (config : CommentAssociationConfig) (comment : ApexComment) (symbols : List ApexSymbol) :
    ApexSymbol → CommentAssociation → Prop :=
  Leading r.Before (r.analyzeAssociation config comment) (fun s => s.location.symbolRange.startLine) (semanticSymbols symbols)

/-- All symbols that lead give the same association, or none that is confident enough. -/
def Unrivalled (r : Rounding) (config : CommentAssociationConfig) (comment : ApexComment) (symbols : List ApexSymbol) : Prop :=
  ∀ s a s' a', LeadingSymbol r config comment symbols s a → LeadingSymbol r config comment symbols s' a' →
    (some a).filter (confident config) = (some a').filter (confident config)

/-- The comment is documentation inside the class and shortly above the member, on lines where no symbol starts, is named or
ends. -/
structure DocumentsMember (config : CommentAssociationConfig) (comment : ApexComment) (symbols : List ApexSymbol)
    (enclosing member : ApexSymbol) : Prop where
  documentation : comment.isDocumentation = some true
  lines : comment.range.startLine ≤ comment.range.endLine
  enclosingListed : enclosing ∈ symbols
  isClass : enclosing.kind = .class_
  inside : enclosing.location.symbolRange.startLine ≤ comment.range.startLine ∧
    comment.range.endLine ≤ enclosing.location.symbolRange.endLine
  memberListed : member ∈ symbols
  semantic : member.isBlockSymbol = false
  precedes : comment.range.endLine < member.location.symbolRange.startLine
  within : member.location.symbolRange.startLine ≤ enclosing.location.symbolRange.endLine
  near : (member.location.symbolRange.startLine : ℚ) - comment.range.startLine ≤ config.maxPrecedingDistance
  alone : ∀ s ∈ symbols, ∀ line ∈ [s.location.symbolRange.startLine,s.location.identifierRange.startLine,
    s.location.symbolRange.endLine], line < comment.range.startLine ∨ comment.range.endLine < line

/-- The candidates for a comment are in a strict weak order, the listing of the symbols does not matter, and a comment that
documents a member is kept for such a member. -/
structure AssociatesWell (r : Rounding) (config : CommentAssociationConfig) (comment : ApexComment) (symbols : List ApexSymbol) :
    Prop where
  ordered : IsStrictWeakOrder {a // r.Candidate config comment a} fun a b => r.Before a b
  orderFree : ∀ listed : List ApexSymbol, listed.Perm symbols →
    r.associate config listed comment = r.associate config symbols comment
  specific : ∀ enclosing member, DocumentsMember config comment symbols enclosing member →
    ∃ member', DocumentsMember config comment symbols enclosing member' ∧
      r.associate config symbols comment = r.analyzeAssociation config comment member'

theorem semanticSymbols_relist {listed : List ApexSymbol} (relisted : listed.Perm (semanticSymbols symbols)) :
    ∃ whole : List ApexSymbol, whole.Perm symbols ∧ semanticSymbols whole = listed := by
  have semantic : ∀ s ∈ listed, !s.isBlockSymbol := fun s member => (List.mem_filter.mp (relisted.mem_iff.mp member)).2
  refine ⟨listed ++ symbols.filter fun s => !(!s.isBlockSymbol),?_,?_⟩
  · exact (relisted.append_right _).trans (List.filter_append_perm _ _)
  · rw [semanticSymbols,List.filter_append,List.filter_eq_self.mpr semantic,List.filter_filter]
    simp

theorem orderFree_iff (boost : 0 ≤ config.documentationBoost) :
    (∀ listed : List ApexSymbol, listed.Perm symbols →
      r.associate config listed comment = r.associate config symbols comment) ↔ r.Unrivalled config comment symbols := by
  rw [Unrivalled,← chosen_filter_perm_iff (candidates_weak boost) compareAssociations_sorts (fun s a gives => ⟨s,gives⟩)]
  constructor
  · intro free listed relisted
    obtain ⟨whole,same,rfl⟩ := semanticSymbols_relist relisted
    exact free whole same
  · intro free listed relisted
    exact free _ (relisted.filter _)

theorem analyzeAssociation_of_base {symbol : ApexSymbol} {type : CommentAssociationType} {base : ℚ}
    (based : r.baseAssociation config comment symbol
      ((comment.range.startLine : Int) - symbol.location.symbolRange.startLine).natAbs = some (type,base)) :
    ∃ a, r.analyzeAssociation config comment symbol = some a ∧ a.associationType = type := by
  rw [analyzeAssociation,based]
  exact ⟨_,rfl,rfl⟩

namespace DocumentsMember

variable {enclosing member : ApexSymbol}

section

variable (documents : DocumentsMember config comment symbols enclosing member)
include documents

theorem semantic_class :
    enclosing ∈ semanticSymbols symbols := by
  refine List.mem_filter.mpr ⟨documents.enclosingListed,?_⟩
  simp [ApexSymbol.isBlockSymbol,documents.isClass]

theorem internal :
    ∃ a, r.analyzeAssociation config comment enclosing = some a ∧ a.associationType = .internal := by
  have starts := documents.inside.1
  have ends := documents.inside.2
  have lines := documents.lines
  have named := documents.alone enclosing documents.enclosingListed enclosing.location.identifierRange.startLine (by simp)
  have within : isCommentInsideSymbol comment enclosing = true := by
    rw [isCommentInsideSymbol,Bool.and_eq_true,decide_eq_true_iff,decide_eq_true_iff]
    omega
  apply analyzeAssociation_of_base
  rw [baseAssociation,if_neg (by omega),if_neg (by omega),if_pos within]

theorem preceding :
    ∃ a, r.analyzeAssociation config comment member = some a ∧ a.associationType = .preceding := by
  have below := documents.precedes
  have lines := documents.lines
  have named := documents.alone member documents.memberListed member.location.identifierRange.startLine (by simp)
  have distance : ((((comment.range.startLine : Int) - member.location.symbolRange.startLine).natAbs : ℕ) : ℚ) =
      member.location.symbolRange.startLine - comment.range.startLine := by
    rw [show ((comment.range.startLine : Int) - member.location.symbolRange.startLine).natAbs =
      member.location.symbolRange.startLine - comment.range.startLine by omega,Nat.cast_sub (by omega)]
  apply analyzeAssociation_of_base
  rw [baseAssociation,if_neg (by omega),if_pos (by omega),if_neg (by rw [distance,not_lt]; exact documents.near)]

end

end DocumentsMember

theorem not_specific (boost : 0 ≤ config.documentationBoost) {enclosing member : ApexSymbol}
    (documents : DocumentsMember config comment symbols enclosing member) :
    r.associate config symbols comment ≠ r.analyzeAssociation config comment member := by
  obtain ⟨inner,encloses,internal⟩ := documents.internal (r := r)
  obtain ⟨above,precedes,preceding⟩ := documents.preceding (r := r)
  rw [associate_eq,precedes]
  intro kept
  obtain ⟨best,_⟩ := Option.filter_eq_some_iff.mp kept
  obtain ⟨_,leading⟩ := leading_of_chosen (candidates_weak boost) compareAssociations_sorts (fun s a gives => ⟨s,gives⟩) best
  refine leading.led enclosing documents.semantic_class inner encloses ?_
  rw [before_iff_of_rank_ne] <;> simp [internal,preceding,CommentAssociationType.rank]

theorem not_associatesWell (boost : 0 ≤ config.documentationBoost) {enclosing member : ApexSymbol}
    (documents : DocumentsMember config comment symbols enclosing member) : ¬ r.AssociatesWell config comment symbols := by
  intro well
  obtain ⟨member',documents',kept⟩ := well.specific enclosing member documents
  exact not_specific boost documents' kept

/-- A comment is associated well just when the candidates that lead agree and it documents no member of a class it is inside. -/
theorem associatesWell_iff (boost : 0 ≤ config.documentationBoost) : r.AssociatesWell config comment symbols ↔
    r.Unrivalled config comment symbols ∧
      ∀ enclosing member, ¬ DocumentsMember config comment symbols enclosing member := by
  constructor
  · intro well
    exact ⟨(orderFree_iff boost).mp well.orderFree,fun enclosing member documents => not_associatesWell boost documents well⟩
  · rintro ⟨unrivalled,nothing⟩
    exact ⟨(candidates_weak boost).isStrictWeakOrder,(orderFree_iff boost).mpr unrivalled,
      fun enclosing member documents => absurd documents (nothing enclosing member)⟩

theorem default_boost (r : Rounding) : 0 ≤ r.defaultAssociationConfig.documentationBoost := r.nonneg (by norm_num)

def documentedClass : ApexSymbol :=
  { id := "file:///Foo.cls#Foo$class", name := "Foo", kind := .class_, fileUri := "file:///Foo.cls"
    location := { symbolRange := ⟨1,0,9,1⟩, identifierRange := ⟨1,13,1,16⟩ } }

def documentedMethod : ApexSymbol :=
  { id := "file:///Foo.cls#class:Foo:run$method", name := "run", kind := .method, fileUri := "file:///Foo.cls"
    location := { symbolRange := ⟨4,2,6,3⟩, identifierRange := ⟨4,14,4,17⟩ } }

def methodComment : ApexComment :=
  { text := "/** Runs. */", type := .block, range := ⟨3,2,3,14⟩, tokenIndex := 5, isDocumentation := some true }

theorem associatesWell_iff_foo : 0 ≤ exact.defaultAssociationConfig.documentationBoost ∧
    (exact.AssociatesWell exact.defaultAssociationConfig methodComment [documentedClass,documentedMethod] ↔
      exact.Unrivalled exact.defaultAssociationConfig methodComment [documentedClass,documentedMethod] ∧
        ∀ enclosing member, ¬ DocumentsMember exact.defaultAssociationConfig methodComment [documentedClass,documentedMethod]
          enclosing member) :=
  ⟨exact.default_boost,associatesWell_iff exact.default_boost⟩

/-- The comment goes to the class. -/
theorem method_comment_on_class :
    ¬ exact.AssociatesWell exact.defaultAssociationConfig methodComment [documentedClass,documentedMethod] := by
  have documents : DocumentsMember exact.defaultAssociationConfig methodComment [documentedClass,documentedMethod]
      documentedClass documentedMethod := by
    refine ⟨rfl,by decide,by simp,rfl,by decide,by simp,rfl,by decide,by decide,?_,?_⟩
    · norm_num [documentedMethod,methodComment,defaultAssociationConfig]
    · intro s member
      rcases List.mem_pair.mp member with rfl | rfl
      · decide
      · decide
  exact not_associatesWell exact.default_boost documents

end

end Rounding
end ApexLs.Utils
