import ApexLs.Collections.TreeWalks

/-! Parse trees as the validators walk them. Tokens are left out, and whatever holds no statement is
one kind of node, whether it is an expression, a type or a header. -/
namespace ApexLs.Parser

open ApexLs.Collections

inductive Rule where
  | compilationUnit | triggerUnit
  /-- classes, interfaces, their bodies and members, properties, the block of a trigger -/
  | declaration
  | methodDeclaration (id : Option String) | constructorDeclaration | getter | setter
  /-- a member of a class that is a block -/
  | initializer
  | block | statement | ifStatement | switchStatement | whenControl | forStatement | whileStatement | doWhileStatement
  | tryStatement | catchClause | finallyBlock | runAsStatement
  | returnStatement | throwStatement | breakStatement | continueStatement | otherStatement
  | expression
  deriving DecidableEq, Repr

namespace Rule

/-- Declarations are outside executable bodies, bodies outside statements, statements outside expressions. -/
def rank : Rule → Nat
  | compilationUnit | triggerUnit | declaration => 0
  | methodDeclaration _ | constructorDeclaration | getter | setter | initializer => 1
  | expression => 3
  | _ => 2

def isSimple : Rule → Bool
  | returnStatement | throwStatement | breakStatement | continueStatement | otherStatement => true
  | _ => false

def isMethodOrConstructor : Rule → Bool
  | methodDeclaration _ | constructorDeclaration => true
  | _ => false

def isReturnOrThrow (r : Rule) : Bool := r = returnStatement || r = throwStatement

def isClause (r : Rule) : Bool := r = catchClause || r = finallyBlock

def isLoop (r : Rule) : Bool := r = forStatement || r = whileStatement || r = doWhileStatement

def mayContain (parent child : Rule) : Bool :=
  match parent with
  | block => child = statement
  | statement => child.rank = 2 && child ≠ statement && !child.isClause && child ≠ whenControl
  | tryStatement => child = block || child.isClause
  | expression => child = expression
  | compilationUnit | triggerUnit | declaration =>
    (child.rank < 2 && child ≠ compilationUnit && child ≠ triggerUnit) || child = statement || child = expression
  | _ =>
    if parent.isSimple then child = expression
    else child = block || child = statement || child = whenControl || child = expression

theorem isReturnOrThrow_iff {r : Rule} : r.isReturnOrThrow = true ↔ r = returnStatement ∨ r = throwStatement := by
  simp [isReturnOrThrow]

end Rule

mutual

/-- Every node holds what the grammar lets it hold, and a statement is one of its kinds. -/
def grammatical : OrderedTree Rule → Bool
  | .node r ts => ts.all (fun t => r.mayContain t.label) && (r ≠ .statement || ts.length ≤ 1) && grammaticalAll ts

def grammaticalAll : List (OrderedTree Rule) → Bool
  | [] => true
  | t :: ts => grammatical t && grammaticalAll ts

end

structure ParseTree where
  tree : OrderedTree Rule
  grammatical : grammatical tree = true

theorem grammatical_node (ok : grammatical (.node r ts) = true) :
    (∀ t ∈ ts, r.mayContain t.label = true) ∧ (r = .statement → ts.length ≤ 1) ∧ grammaticalAll ts = true := by
  simp only [Parser.grammatical,Bool.and_eq_true,List.all_eq_true,Bool.or_eq_true,decide_eq_true_eq] at ok
  refine ⟨ok.1.1,fun same => ?_,ok.2⟩
  rcases ok.1.2 with apart | short
  · exact absurd same apart
  · exact short

theorem grammaticalAll_cons (ok : grammaticalAll (t :: ts) = true) : Parser.grammatical t = true ∧ grammaticalAll ts = true := by
  simpa only [grammaticalAll,Bool.and_eq_true] using ok

theorem grammatical_of_mem {ts : List (OrderedTree Rule)} (ok : grammaticalAll ts = true) :
    ∀ t ∈ ts, Parser.grammatical t = true := by
  induction ts with
  | nil => simp
  | cons t ts ih =>
    obtain ⟨first,rest⟩ := grammaticalAll_cons ok
    exact List.forall_mem_cons.mpr ⟨first,ih rest⟩

theorem grammatical_nodes :
    (∀ t : OrderedTree Rule, Parser.grammatical t = true → ∀ n, ∀ p ∈ t.nodes n, Parser.grammatical p.2 = true) ∧
      ∀ ts : List (OrderedTree Rule), grammaticalAll ts = true → ∀ n, ∀ p ∈ OrderedTree.nodesAll n ts,
        Parser.grammatical p.2 = true := by
  apply OrderedTree.forest_induction
  · intro r ts below ok n p member
    rcases List.mem_cons.mp member with rfl | inside
    · exact ok
    · exact below (grammatical_node ok).2.2 _ p inside
  · intro _ n p member
    cases member
  · intro t ts first rest ok n p member
    obtain ⟨okFirst,okRest⟩ := grammaticalAll_cons ok
    rcases List.mem_append.mp member with inside | inside
    · exact first okFirst _ p inside
    · exact rest okRest _ p inside

theorem mayContain_ne_triggerUnit {parent child : Rule} (may : parent.mayContain child = true) : child ≠ .triggerUnit := by
  rintro rfl
  cases parent <;> simp [Rule.mayContain,Rule.rank,Rule.isSimple,Rule.isClause] at may

theorem nodesAll_ne_triggerUnit :
    (∀ t : OrderedTree Rule, grammatical t = true → t.label ≠ .triggerUnit → ∀ n, ∀ p ∈ t.nodes n, p.2.label ≠ .triggerUnit) ∧
      ∀ ts : List (OrderedTree Rule), grammaticalAll ts = true → (∀ t ∈ ts, t.label ≠ .triggerUnit) →
        ∀ n, ∀ p ∈ OrderedTree.nodesAll n ts, p.2.label ≠ .triggerUnit := by
  apply OrderedTree.forest_induction
  · intro r ts below ok root n p member
    rcases List.mem_cons.mp member with rfl | inside
    · exact root
    · obtain ⟨may,_,okBelow⟩ := grammatical_node ok
      exact below okBelow (fun t listed => mayContain_ne_triggerUnit (may t listed)) _ p inside
  · intro _ _ n p member
    cases member
  · intro t ts first rest ok roots n p member
    obtain ⟨okFirst,okRest⟩ := grammaticalAll_cons ok
    obtain ⟨root,rootsRest⟩ := List.forall_mem_cons.mp roots
    rcases List.mem_append.mp member with inside | inside
    · exact first okFirst root _ p inside
    · exact rest okRest rootsRest _ p inside

theorem rank_of_mayContain {parent child : Rule} (may : parent.mayContain child = true) :
    parent.rank ≤ child.rank ∧ (child.rank < 2 → parent.rank = 0) := by
  by_cases declaration : parent.rank = 0
  · exact ⟨declaration ▸ Nat.zero_le _,fun _ => declaration⟩
  -- below a body or a statement there are statements and expressions only
  have executable : ¬ child.rank < 2 := by
    intro low
    cases child with
    | compilationUnit | triggerUnit | declaration | methodDeclaration id | constructorDeclaration | getter | setter
      | initializer =>
      cases parent <;> first | exact declaration rfl | exact absurd may Bool.false_ne_true
    | _ => exact absurd low (by decide)
  refine ⟨?_,fun low => absurd low executable⟩
  cases parent with
  | expression =>
    obtain rfl : child = .expression := of_decide_eq_true may
    exact Nat.le_refl _
  | _ => exact Nat.le_trans (Nat.le_of_ble_eq_true rfl) (Nat.le_of_not_lt executable)

def Contained : List Rule → Prop
  | r :: parent :: above => parent.mayContain r = true ∧ Contained (parent :: above)
  | _ => True

theorem places_contained :
    (∀ t : OrderedTree Rule, grammatical t = true → ∀ above n, Contained (t.label :: above) →
      ∀ p ∈ t.places above n, Contained (p.2.2.label :: p.1)) ∧
    ∀ ts : List (OrderedTree Rule), grammaticalAll ts = true → ∀ above n, (∀ t ∈ ts, Contained (t.label :: above)) →
      ∀ p ∈ OrderedTree.placesAll above n ts, Contained (p.2.2.label :: p.1) := by
  apply OrderedTree.forest_induction
  · intro r ts below ok above n here p member
    obtain ⟨may,_,okBelow⟩ := grammatical_node ok
    rcases List.mem_cons.mp member with rfl | inside
    · exact here
    · exact below okBelow (r :: above) _ (fun t listed => ⟨may t listed,here⟩) p inside
  · intro _ above n _ p member
    cases member
  · intro t ts first rest ok above n here p member
    obtain ⟨okFirst,okRest⟩ := grammaticalAll_cons ok
    obtain ⟨hereFirst,hereRest⟩ := List.forall_mem_cons.mp here
    rcases List.mem_append.mp member with inside | inside
    · exact first okFirst _ _ hereFirst p inside
    · exact rest okRest _ _ hereRest p inside

theorem declarations_above {r : Rule} {above : List Rule} (contained : Contained (r :: above)) (outside : r.rank < 2) :
    ∀ a ∈ above, a.rank = 0 := by
  induction above generalizing r with
  | nil => simp
  | cons a above ih =>
    have zero := (rank_of_mayContain contained.1).2 outside
    exact List.forall_mem_cons.mpr ⟨zero,ih contained.2 (by omega)⟩

end ApexLs.Parser
