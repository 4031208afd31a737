import ApexLs.Validation.ReturnStatements

/-! The validator of jump statements. Its listener counts the loops and the methods around a statement. -/
namespace ApexLs.Validation.ControlFlowValidator

open ApexLs.Collections ApexLs.Parser ApexLs.Types ApexLs.Utils

inductive ErrorCode where
  | invalidBreak | invalidContinue | invalidReturnFromNonMethod
  deriving DecidableEq, Repr

structure ControlFlowError where
  ctx : Nat
  code : ErrorCode
  deriving DecidableEq, Repr

structure ControlFlowListener where
  errors : List ControlFlowError := []
  loopDepth : Int := 0
  methodDepth : Int := 0
  deriving DecidableEq, Repr

namespace ControlFlowListener

def enterBreakStatement (ctx : Nat) (s : ControlFlowListener) : ControlFlowListener :=
  if s.loopDepth = 0 then { s with errors := s.errors ++ [⟨ctx,.invalidBreak⟩] } else s

def enterContinueStatement (ctx : Nat) (s : ControlFlowListener) : ControlFlowListener :=
  if s.loopDepth = 0 then { s with errors := s.errors ++ [⟨ctx,.invalidContinue⟩] } else s

def enterReturnStatement (ctx : Nat) (s : ControlFlowListener) : ControlFlowListener :=
  if s.methodDepth = 0 then { s with errors := s.errors ++ [⟨ctx,.invalidReturnFromNonMethod⟩] } else s

def listener : Listener Rule ControlFlowListener where
  enter ctx t s :=
    match t.label with
    | .forStatement | .whileStatement | .doWhileStatement => { s with loopDepth := s.loopDepth + 1 }
    | .methodDeclaration _ | .constructorDeclaration => { s with methodDepth := s.methodDepth + 1 }
    | .breakStatement => s.enterBreakStatement ctx
    | .continueStatement => s.enterContinueStatement ctx
    | .returnStatement => s.enterReturnStatement ctx
    | _ => s
  exit _ t s :=
    match t.label with
    | .forStatement | .whileStatement | .doWhileStatement => { s with loopDepth := s.loopDepth - 1 }
    | .methodDeclaration _ | .constructorDeclaration => { s with methodDepth := s.methodDepth - 1 }
    | _ => s

end ControlFlowListener

open ControlFlowListener

def validate (parseTree : ParseTree) : List ControlFlowError := (parseTree.tree.walk listener 0 {}).errors

abbrev Depths := Int × Int

def deeper (depths : Depths) (r : Rule) : Depths :=
  (depths.1 + if r.isLoop then 1 else 0,depths.2 + if r.isMethodOrConstructor then 1 else 0)

def errorAt (depths : Depths) (r : Rule) : Option ErrorCode :=
  match r with
  | .breakStatement => if depths.1 = 0 then some .invalidBreak else none
  | .continueStatement => if depths.1 = 0 then some .invalidContinue else none
  | .returnStatement => if depths.2 = 0 then some .invalidReturnFromNonMethod else none
  | _ => none

def reported (depths : Depths) (ctx : Nat) (t : OrderedTree Rule) : List ControlFlowError :=
  (errorAt depths t.label).toList.map (⟨ctx,·⟩)

def counted (depths : Depths) (errors : List ControlFlowError) : ControlFlowListener := ⟨errors,depths.1,depths.2⟩

theorem enter_counted (ctx : Nat) (t : OrderedTree Rule) (depths : Depths) (errors : List ControlFlowError) :
    listener.enter ctx t (counted depths errors) = counted (deeper depths t.label) (errors ++ reported depths ctx t) := by
  simp only [listener,reported]
  cases t.label with
  | breakStatement =>
    by_cases outside : depths.1 = 0 <;>
      simp [enterBreakStatement,counted,deeper,errorAt,Rule.isLoop,Rule.isMethodOrConstructor,outside]
  | continueStatement =>
    by_cases outside : depths.1 = 0 <;>
      simp [enterContinueStatement,counted,deeper,errorAt,Rule.isLoop,Rule.isMethodOrConstructor,outside]
  | returnStatement =>
    by_cases outside : depths.2 = 0 <;>
      simp [enterReturnStatement,counted,deeper,errorAt,Rule.isLoop,Rule.isMethodOrConstructor,outside]
  | _ => simp [counted,deeper,errorAt,Rule.isLoop,Rule.isMethodOrConstructor]

theorem exit_counted (ctx : Nat) (t : OrderedTree Rule) (depths : Depths) (errors : List ControlFlowError) :
    listener.exit ctx t (counted (deeper depths t.label) errors) = counted depths errors := by
  simp only [listener]
  cases t.label <;> simp [counted,deeper,Rule.isLoop,Rule.isMethodOrConstructor]

theorem contextAt_deeper (above : List Rule) : OrderedTree.contextAt deeper (0,0) above =
    ((above.countP Rule.isLoop : Int),(above.countP Rule.isMethodOrConstructor : Int)) := by
  induction above with
  | nil => rfl
  | cons r above ih =>
    rw [OrderedTree.contextAt] at ih ⊢
    rw [List.foldr_cons,ih,deeper]
    by_cases loop : r.isLoop <;> by_cases method : r.isMethodOrConstructor <;> simp [loop,method]

theorem mem_validate (parseTree : ParseTree) (e : ControlFlowError) :
    e ∈ validate parseTree ↔ ∃ p ∈ parseTree.tree.places [] 0, p.2.1 = e.ctx ∧
      errorAt (p.1.countP Rule.isLoop,p.1.countP Rule.isMethodOrConstructor) p.2.2.label = some e.code := by
  have all := (OrderedTree.walk_collects (P := fun _ => True) (fun n t c es _ => enter_counted n t c es)
    (fun n t c es _ => exit_counted n t c es)).1 parseTree.tree 0 (0,0) [] (fun _ _ => trivial)
  have errors : validate parseTree = OrderedTree.collect deeper reported (0,0) 0 parseTree.tree :=
    congrArg ControlFlowListener.errors all
  have collected := (OrderedTree.mem_collect deeper reported (c := (0,0)) (e := e)).1 parseTree.tree [] 0
  rw [errors]
  refine collected.trans ?_
  obtain ⟨ctx,code⟩ := e
  simp only [reported,contextAt_deeper,List.mem_map,Option.mem_toList,ControlFlowError.mk.injEq]
  constructor
  · rintro ⟨p,place,_,error,number,rfl⟩
    exact ⟨p,place,number,error⟩
  · rintro ⟨p,place,number,error⟩
    exact ⟨p,place,code,error,number,rfl⟩

theorem mem_validate_at {parseTree : ParseTree} {p : List Rule × Nat × OrderedTree Rule} (place : p ∈ parseTree.tree.places [] 0)
    (code : ErrorCode) : ⟨p.2.1,code⟩ ∈ validate parseTree ↔
      errorAt (p.1.countP Rule.isLoop,p.1.countP Rule.isMethodOrConstructor) p.2.2.label = some code := by
  rw [mem_validate]
  constructor
  · rintro ⟨q,other,number,error⟩
    obtain rfl : q = p := OrderedTree.places_unique.1 _ _ _ q other p place number
    exact error
  · intro error
    exact ⟨p,place,rfl,error⟩

def isBody : Rule → Bool
  | .methodDeclaration _ | .constructorDeclaration | .getter | .setter | .initializer | .triggerUnit => true
  | _ => false

def mayReturn : Rule → Bool
  | .methodDeclaration _ | .constructorDeclaration | .getter | .setter | .triggerUnit => true
  | _ => false

/-- The kinds of bodies that the listener does not count as methods. -/
def isUncounted : Rule → Bool
  | .getter | .setter | .triggerUnit => true
  | _ => false

def innermostBody (above : List Rule) : Option Rule := above.find? isBody

def inLoop (above : List Rule) : Bool := (above.takeWhile (!isBody ·)).any Rule.isLoop

structure JudgedByBody [Runtime] (parseTree : ParseTree) : Prop where
  breaks : ∀ p ∈ parseTree.tree.places [] 0, p.2.2.label = .breakStatement →
    (⟨p.2.1,.invalidBreak⟩ ∈ validate parseTree ↔ inLoop p.1 = false)
  continues : ∀ p ∈ parseTree.tree.places [] 0, p.2.2.label = .continueStatement →
    (⟨p.2.1,.invalidContinue⟩ ∈ validate parseTree ↔ inLoop p.1 = false)
  returns : ∀ p ∈ parseTree.tree.places [] 0, p.2.2.label = .returnStatement →
    (⟨p.2.1,.invalidReturnFromNonMethod⟩ ∈ validate parseTree ↔ (innermostBody p.1).any mayReturn = false)
  /-- a bare return that the other validator accepts -/
  bare : ∀ p ∈ parseTree.tree.places [] 0, p.2.2.label = .returnStatement →
    ReturnStatementValidator.expressionOf p.2.1 p.2.2 = none → (innermostBody p.1).any mayReturn = true →
    (∀ allSymbols resolvedType, ∀ e ∈ ReturnStatementValidator.validate allSymbols resolvedType parseTree, e.ctx ≠ p.2.1) →
    ⟨p.2.1,.invalidReturnFromNonMethod⟩ ∉ validate parseTree

theorem rank_of_isBody {r : Rule} (body : isBody r = true) : r.rank < 2 ∧ r.isLoop = false := by
  cases r with
  | methodDeclaration id => exact ⟨Nat.lt_succ_self _,rfl⟩
  | constructorDeclaration | getter | setter | initializer | triggerUnit => decide
  | _ => exact absurd body Bool.false_ne_true

theorem of_rank_zero {r : Rule} (zero : r.rank = 0) : r.isLoop = false ∧ r.isMethodOrConstructor = false := by
  cases r <;> first | exact ⟨rfl,rfl⟩ | cases zero

theorem isBody_of_method {r : Rule} (method : r.isMethodOrConstructor = true) : isBody r = true := by
  cases r <;> first | rfl | cases method

theorem split_at_body {r : Rule} {above : List Rule} (contained : Contained (r :: above)) :
    above.any Rule.isLoop = inLoop above ∧
      above.any Rule.isMethodOrConstructor = (innermostBody above).any Rule.isMethodOrConstructor := by
  induction above generalizing r with
  | nil => simp [inLoop,innermostBody]
  | cons a above ih =>
    by_cases body : isBody a = true
    · obtain ⟨outside,itself⟩ := rank_of_isBody body
      have declarations := declarations_above contained.2 outside
      have noLoop : above.any Rule.isLoop = false :=
        List.any_eq_false.mpr (fun b member => by simp [(of_rank_zero (declarations b member)).1])
      have noMethod : above.any Rule.isMethodOrConstructor = false :=
        List.any_eq_false.mpr (fun b member => by simp [(of_rank_zero (declarations b member)).2])
      simp [inLoop,innermostBody,body,noLoop,noMethod,itself]
    · obtain ⟨loops,methods⟩ := ih contained.2
      have notMethod : a.isMethodOrConstructor = false :=
        Bool.eq_false_iff.mpr (fun method => body (isBody_of_method method))
      rw [List.any_cons,List.any_cons,loops,methods,notMethod]
      simp [inLoop,innermostBody,body]

theorem places_contained_root (parseTree : ParseTree) {p : List Rule × Nat × OrderedTree Rule}
    (place : p ∈ parseTree.tree.places [] 0) : Contained (p.2.2.label :: p.1) :=
  places_contained.1 _ parseTree.grammatical [] 0 trivial p place

theorem countP_eq_zero (above : List Rule) (counts : Rule → Bool) :
    (above.countP counts : Int) = 0 ↔ above.any counts = false := by
  rw [Int.natCast_eq_zero,List.countP_eq_zero,List.any_eq_false]

theorem loop_reported (parseTree : ParseTree) {p : List Rule × Nat × OrderedTree Rule} (place : p ∈ parseTree.tree.places [] 0) :
    (p.1.countP Rule.isLoop : Int) = 0 ↔ inLoop p.1 = false := by
  rw [countP_eq_zero,(split_at_body (places_contained_root parseTree place)).1]

theorem return_reported (parseTree : ParseTree) {p : List Rule × Nat × OrderedTree Rule} (place : p ∈ parseTree.tree.places [] 0)
    (return_ : p.2.2.label = .returnStatement) : ⟨p.2.1,.invalidReturnFromNonMethod⟩ ∈ validate parseTree ↔
      (innermostBody p.1).any Rule.isMethodOrConstructor = false := by
  rw [mem_validate_at place,return_,← (split_at_body (places_contained_root parseTree place)).2,← countP_eq_zero]
  simp [errorAt]

theorem mayReturn_eq (r : Rule) : mayReturn r = (r.isMethodOrConstructor || isUncounted r) ∧
    (r.isMethodOrConstructor && isUncounted r) = false := by
  cases r <;> exact ⟨rfl,rfl⟩

/-- Jump statements are judged by their body exactly where no getter, setter or trigger has a return statement of its own. -/
theorem judgedByBody_iff [Runtime] (parseTree : ParseTree) : JudgedByBody parseTree ↔
    ∀ p ∈ parseTree.tree.places [] 0, p.2.2.label = .returnStatement → (innermostBody p.1).any isUncounted = false := by
  have split (body : Option Rule) : body.any mayReturn = (body.any Rule.isMethodOrConstructor || body.any isUncounted) ∧
      (body.any Rule.isMethodOrConstructor && body.any isUncounted) = false := by
    cases body with
    | none => exact ⟨rfl,rfl⟩
    | some r => exact mayReturn_eq r
  constructor
  · intro judged p place return_
    have given := judged.returns p place return_
    rw [return_reported parseTree place return_] at given
    obtain ⟨cases_,apart⟩ := split (innermostBody p.1)
    rw [cases_] at given
    cases method : (innermostBody p.1).any Rule.isMethodOrConstructor <;> simp_all
  · intro counted
    have returns (p) (place : p ∈ parseTree.tree.places [] 0) (return_ : p.2.2.label = .returnStatement) :
        ⟨p.2.1,.invalidReturnFromNonMethod⟩ ∈ validate parseTree ↔ (innermostBody p.1).any mayReturn = false := by
      rw [return_reported parseTree place return_,(split _).1,counted p place return_,Bool.or_false]
    refine ⟨?_,?_,returns,?_⟩
    · intro p place break_
      rw [mem_validate_at place,break_,← loop_reported parseTree place]
      simp [errorAt]
    · intro p place continue_
      rw [mem_validate_at place,continue_,← loop_reported parseTree place]
      simp [errorAt]
    · intro p place return_ _ may _ error
      have refused := (returns p place return_).mp error
      rw [may] at refused
      cases refused

def getterReturn : ParseTree where
  tree := .node .compilationUnit [.node .declaration [.node .getter
    [.node .block [.node .statement [.node .returnStatement [.node .expression []]]]]]]
  grammatical := by decide

/-- A getter cannot return its value. -/
theorem getter_return_refused : ¬ ∀ parseTree, @JudgedByBody asciiRuntime parseTree := by
  intro always
  have judged := @JudgedByBody.returns asciiRuntime _ (always getterReturn)
  have place : ([.statement,.block,.getter,.declaration,.compilationUnit],5,.node .returnStatement [.node .expression []]) ∈
      getterReturn.tree.places [] 0 := by
    simp [getterReturn,OrderedTree.places,OrderedTree.placesAll]
  have refused : (⟨5,.invalidReturnFromNonMethod⟩ : ControlFlowError) ∈ validate getterReturn := by decide
  have outside := (judged _ place rfl).mp refused
  exact absurd outside (by decide)

end ApexLs.Validation.ControlFlowValidator
