import Mathlib.Data.List.Perm.Subperm
import ApexLs.Parser.ParseTree

/-! The validator of unreachable statements. Its listener keeps one list of statements for each block,
which nested statements without braces share, and one index, which every nested block resets. -/
namespace ApexLs.Validation.UnreachableStatementValidator

open ApexLs.Collections ApexLs.Parser

structure UnreachableStatementListener where
  unreachableStatements : List Nat := []
  currentBlockStatements : List Nat := []
  /-- the innermost block first -/
  blockStack : List (List Nat) := []
  returnOrThrowIndex : Int := -1
  deriving DecidableEq, Repr

def statementsAfter (statements : List Nat) (index : Int) : List Nat :=
  if index ≥ 0 then statements.drop (index + 1).toNat else []

namespace UnreachableStatementListener

def enterBlock (s : UnreachableStatementListener) : UnreachableStatementListener :=
  { s with
    blockStack := s.currentBlockStatements :: s.blockStack
    currentBlockStatements := []
    returnOrThrowIndex := -1 }

def exitBlock (s : UnreachableStatementListener) : UnreachableStatementListener where
  unreachableStatements := s.unreachableStatements ++ statementsAfter s.currentBlockStatements s.returnOrThrowIndex
  currentBlockStatements := s.blockStack.head?.getD []
  blockStack := s.blockStack.tail
  returnOrThrowIndex := -1

def enterStatement (ctx : Nat) (s : UnreachableStatementListener) : UnreachableStatementListener :=
  { s with currentBlockStatements := s.currentBlockStatements ++ [ctx] }

def enterReturnOrThrow (s : UnreachableStatementListener) : UnreachableStatementListener :=
  { s with returnOrThrowIndex := (s.currentBlockStatements.length : Int) - 1 }

def listener : Listener Rule UnreachableStatementListener where
  enter ctx t s :=
    match t.label with
    | .block => s.enterBlock
    | .statement => s.enterStatement ctx
    | .returnStatement | .throwStatement => s.enterReturnOrThrow
    | _ => s
  exit _ t s := if t.label = .block then s.exitBlock else s

end UnreachableStatementListener

/-- The contexts that `validate` reports with `UNREACHABLE_STATEMENT`. -/
def validate (parseTree : ParseTree) : List Nat :=
  (parseTree.tree.walk UnreachableStatementListener.listener 0 {}).unreachableStatements

def isJump (t : OrderedTree Rule) : Bool := t.label = .statement && t.children.any (·.label.isReturnOrThrow)

/-- The statements of a block after the first of them that is a return or throw statement. -/
def afterJump : List (Nat × OrderedTree Rule) → List (Nat × OrderedTree Rule)
  | [] => []
  | p :: ps => if isJump p.2 then ps else afterJump ps

/-- A direct child of a block, behind one that is a return or throw statement. -/
def Unreachable (t : OrderedTree Rule) (ctx : Nat) : Prop :=
  ∃ p ∈ t.nodes 0, p.2.label = .block ∧
    ∃ before s after, OrderedTree.numbered (p.1 + 1) p.2.children = before ++ (ctx,s) :: after ∧
    ∃ q ∈ before, isJump q.2 = true

/-- What the list and the index of a block see of its parts: statements, those nested without braces
included, and where return and throw statements and nested blocks stand between them. -/
inductive Item where
  | statement (ctx : Nat)
  | jump
  | block
  deriving DecidableEq, Repr

def Item.isStatement : Item → Bool
  | .statement _ => true
  | _ => false

def Item.number : Item → Option Nat
  | .statement ctx => some ctx
  | _ => none

def numbers (items : List Item) : List Nat := items.filterMap Item.number

mutual

def surface (n : Nat) : OrderedTree Rule → List Item
  | .node r ts =>
    match r with
    | .block => [.block]
    | .statement => .statement n :: surfaceAll (n + 1) ts
    | .returnStatement | .throwStatement => .jump :: surfaceAll (n + 1) ts
    | _ => surfaceAll (n + 1) ts

def surfaceAll (n : Nat) : List (OrderedTree Rule) → List Item
  | [] => []
  | t :: ts => surface n t ++ surfaceAll (n + t.size) ts

end

def itemsOf (p : Nat × OrderedTree Rule) : List Item := surfaceAll (p.1 + 1) p.2.children

/-- A statement in which no other one, no block and no return or throw stands. -/
def Plain (p : Nat × OrderedTree Rule) : Prop := itemsOf p = []

/-- Statements behind a return or throw statement end with another one or with a nested block. -/
def NoneOpen (items : List Item) : Prop :=
  ∀ before after, items = before ++ .jump :: after → (∀ i ∈ after, i.isStatement = true) → after = []

/-- Behind a return or throw statement of the block there are only plain statements; in a block that has
none behind one, no statement follows a return or throw nested in a statement without braces, except for
a later one of these or a nested block. -/
structure Guarded (p : Nat × OrderedTree Rule) : Prop where
  plain : ∀ q ∈ afterJump (OrderedTree.numbered (p.1 + 1) p.2.children), Plain q
  closed : afterJump (OrderedTree.numbered (p.1 + 1) p.2.children) = [] → NoneOpen (itemsOf p)

/-- What an item does to the statements and the index of the block. -/
def note (s : List Nat × Int) : Item → List Nat × Int
  | .statement ctx => (s.1 ++ [ctx],s.2)
  | .jump => (s.1,(s.1.length : Int) - 1)
  | .block => (s.1,-1)

def leftover (items : List Item) : List Nat :=
  let s := items.foldl note ([],-1)
  statementsAfter s.1 s.2

mutual

def reports (n : Nat) : OrderedTree Rule → List Nat
  | .node r ts => reportsAll (n + 1) ts ++ if r = .block then leftover (surfaceAll (n + 1) ts) else []

def reportsAll (n : Nat) : List (OrderedTree Rule) → List Nat
  | [] => []
  | t :: ts => reports n t ++ reportsAll (n + t.size) ts

end

/-- The state after items have been met, with what was reported below them. -/
def met (s : UnreachableStatementListener) (items : List Item) (reported : List Nat) : UnreachableStatementListener where
  unreachableStatements := s.unreachableStatements ++ reported
  currentBlockStatements := (items.foldl note (s.currentBlockStatements,s.returnOrThrowIndex)).1
  blockStack := s.blockStack
  returnOrThrowIndex := (items.foldl note (s.currentBlockStatements,s.returnOrThrowIndex)).2

theorem walk_met :
    (∀ (t : OrderedTree Rule) n s, t.walk UnreachableStatementListener.listener n s = met s (surface n t) (reports n t)) ∧
      ∀ (ts : List (OrderedTree Rule)) n s, OrderedTree.walkAll UnreachableStatementListener.listener n ts s =
        met s (surfaceAll n ts) (reportsAll n ts) := by
  apply OrderedTree.forest_induction
  · intro r ts below n s
    rw [OrderedTree.walk,below]
    cases r <;>
      simp [UnreachableStatementListener.listener,OrderedTree.label,met,surface,reports,note,leftover,
        UnreachableStatementListener.enterBlock,UnreachableStatementListener.exitBlock,
        UnreachableStatementListener.enterStatement,UnreachableStatementListener.enterReturnOrThrow]
  · intro n s
    simp [OrderedTree.walkAll,met,surfaceAll,reportsAll]
  · intro t ts first rest n s
    rw [OrderedTree.walkAll,first,rest]
    simp [met,surfaceAll,reportsAll]

theorem mem_reports :
    (∀ (t : OrderedTree Rule) n ctx, ctx ∈ reports n t ↔ ∃ p ∈ t.nodes n, p.2.label = .block ∧ ctx ∈ leftover (itemsOf p)) ∧
      ∀ (ts : List (OrderedTree Rule)) n ctx, ctx ∈ reportsAll n ts ↔
        ∃ p ∈ OrderedTree.nodesAll n ts, p.2.label = .block ∧ ctx ∈ leftover (itemsOf p) := by
  apply OrderedTree.forest_induction
  · intro r ts below n ctx
    simp only [reports,OrderedTree.nodes,List.mem_append,below,List.exists_mem_cons_iff,OrderedTree.label,
      OrderedTree.children,itemsOf]
    rw [or_comm]
    refine or_congr ?_ Iff.rfl
    split <;> simp_all
  · intro n ctx
    simp [reportsAll,OrderedTree.nodesAll]
  · intro t ts first rest n ctx
    simp only [reportsAll,OrderedTree.nodesAll,List.mem_append,first,rest,or_and_right,exists_or]

theorem numbers_append (a b : List Item) : numbers (a ++ b) = numbers a ++ numbers b := List.filterMap_append

theorem surface_sublist :
    (∀ (t : OrderedTree Rule) n, (numbers (surface n t)).Sublist ((t.nodes n).map Prod.fst)) ∧
      ∀ (ts : List (OrderedTree Rule)) n, (numbers (surfaceAll n ts)).Sublist ((OrderedTree.nodesAll n ts).map Prod.fst) := by
  apply OrderedTree.forest_induction
  · intro r ts below n
    have inside := below (n + 1)
    rw [OrderedTree.nodes,List.map_cons]
    cases r with
    | block => exact List.nil_sublist _
    | statement => exact inside.cons_cons n
    | _ => exact inside.cons n
  · intro n
    exact List.nil_sublist _
  · intro t ts first rest n
    rw [surfaceAll,numbers_append,OrderedTree.nodesAll,List.map_append]
    exact (first n).append (rest _)

theorem surfaceAll_nodup (n : Nat) (ts : List (OrderedTree Rule)) : (numbers (surfaceAll n ts)).Nodup :=
  (OrderedTree.numbers_nodup.2 ts n).sublist (surface_sublist.2 ts n)

theorem surfaceAll_within {n : Nat} {ts : List (OrderedTree Rule)} (member : ctx ∈ numbers (surfaceAll n ts)) :
    n ≤ ctx ∧ ctx < n + OrderedTree.sizeAll ts := by
  obtain ⟨p,inside,rfl⟩ := List.mem_map.mp ((surface_sublist.2 ts n).subset member)
  exact OrderedTree.numbers_within.2 ts n p inside

theorem itemsOf_within {p : Nat × OrderedTree Rule} (member : ctx ∈ numbers (itemsOf p)) : p.1 < ctx ∧ ctx < p.1 + p.2.size := by
  have bounds := surfaceAll_within member
  obtain ⟨n,⟨r,ts⟩⟩ := p
  simp only [OrderedTree.children,OrderedTree.size] at bounds ⊢
  omega

theorem nested_apart :
    (∀ (t : OrderedTree Rule) n, ∀ p ∈ t.nodes n, p.2.label = .block → ∀ ctx ∈ numbers (itemsOf p), ctx ∉ numbers (surface n t)) ∧
      ∀ (ts : List (OrderedTree Rule)) n, ∀ p ∈ OrderedTree.nodesAll n ts, p.2.label = .block → ∀ ctx ∈ numbers (itemsOf p),
        ctx ∉ numbers (surfaceAll n ts) := by
  apply OrderedTree.forest_induction
  · intro r ts below n p member block ctx listed outside
    rcases List.mem_cons.mp member with rfl | inside
    · obtain rfl : r = .block := block
      cases outside
    · have notBelow := below (n + 1) p inside block ctx listed
      have := (OrderedTree.numbers_within.2 ts (n + 1) p inside).1
      have := (itemsOf_within listed).1
      cases r with
      | block => cases outside
      | statement =>
        rcases List.mem_cons.mp outside with same | outside
        · omega
        · exact notBelow outside
      | _ => exact notBelow outside
  · intro n p member
    cases member
  · intro t ts first rest n p member block ctx listed outside
    rw [surfaceAll,numbers_append] at outside
    have within := itemsOf_within listed
    rcases List.mem_append.mp member with inside | inside
    · rcases List.mem_append.mp outside with outside | outside
      · exact first n p inside block ctx listed outside
      · have := (OrderedTree.nodes_range.1 t n p inside).2
        have := surfaceAll_within outside
        omega
    · rcases List.mem_append.mp outside with outside | outside
      · obtain ⟨q,at_,rfl⟩ := List.mem_map.mp ((surface_sublist.1 t n).subset outside)
        have := OrderedTree.numbers_within.1 t n q at_
        have := (OrderedTree.nodes_range.2 ts _ p inside).1
        omega
      · exact rest _ p inside block ctx listed outside

theorem block_unique :
    (∀ (t : OrderedTree Rule) n, ∀ p ∈ t.nodes n, ∀ q ∈ t.nodes n, p.2.label = .block → q.2.label = .block →
      ∀ ctx ∈ numbers (itemsOf p), ctx ∈ numbers (itemsOf q) → p = q) ∧
    ∀ (ts : List (OrderedTree Rule)) n, ∀ p ∈ OrderedTree.nodesAll n ts, ∀ q ∈ OrderedTree.nodesAll n ts,
      p.2.label = .block → q.2.label = .block →
      ∀ ctx ∈ numbers (itemsOf p), ctx ∈ numbers (itemsOf q) → p = q := by
  apply OrderedTree.forest_induction
  · intro r ts below n p first q second blockP blockQ ctx inP inQ
    rcases List.mem_cons.mp first with rfl | first
    · rcases List.mem_cons.mp second with rfl | second
      · rfl
      · exact absurd inP (nested_apart.2 ts _ q second blockQ ctx inQ)
    · rcases List.mem_cons.mp second with rfl | second
      · exact absurd inQ (nested_apart.2 ts _ p first blockP ctx inP)
      · exact below _ p first q second blockP blockQ ctx inP inQ
  · intro n p member
    cases member
  · intro t ts first rest n p left q right blockP blockQ ctx inP inQ
    have withinP := itemsOf_within inP
    have withinQ := itemsOf_within inQ
    rcases List.mem_append.mp left with left | left <;> rcases List.mem_append.mp right with right | right
    · exact first n p left q right blockP blockQ ctx inP inQ
    · have := (OrderedTree.nodes_range.1 t n p left).2
      have := (OrderedTree.nodes_range.2 ts _ q right).1
      omega
    · have := (OrderedTree.nodes_range.2 ts _ p left).1
      have := (OrderedTree.nodes_range.1 t n q right).2
      omega
    · exact rest _ p left q right blockP blockQ ctx inP inQ

/-- The statements behind the last return or throw, where no nested block comes after it. -/
def pending (o : Option (List Nat)) : Item → Option (List Nat)
  | .statement ctx => o.map (· ++ [ctx])
  | .jump => some []
  | .block => none

theorem foldl_note {items : List Item} {statements : List Nat} {index : Int} {o : Option (List Nat)} (some_ : statements ≠ [])
    (agree : index = -1 ∧ o = none ∨ ∃ k : Nat, index = k ∧ k < statements.length ∧ o = some (statements.drop (k + 1))) :
    statementsAfter (items.foldl note (statements,index)).1 (items.foldl note (statements,index)).2 =
      (items.foldl pending o).getD [] := by
  induction items generalizing statements index o with
  | nil =>
    rcases agree with ⟨rfl,rfl⟩ | ⟨k,rfl,_,rfl⟩
    · rfl
    · have nonneg : (k : Int) ≥ 0 := by omega
      have next : ((k : Int) + 1).toNat = k + 1 := by omega
      simp [statementsAfter,nonneg,next]
  | cons item items ih =>
    have length := List.length_pos_of_ne_nil some_
    cases item with
    | statement ctx =>
      refine ih (by simp) ?_
      rcases agree with ⟨rfl,rfl⟩ | ⟨k,rfl,bound,rfl⟩
      · exact .inl ⟨rfl,rfl⟩
      · have longer : k < (statements ++ [ctx]).length := by
          rw [List.length_append]
          omega
        refine .inr ⟨k,rfl,longer,?_⟩
        rw [pending,Option.map_some]
        exact congrArg some (List.drop_append_of_le_length bound).symm
    | jump =>
      refine ih some_ (.inr ⟨statements.length - 1,?_,?_,?_⟩)
      · change (statements.length : Int) - 1 = _
        omega
      · change statements.length - 1 < statements.length
        omega
      · have none_ : statements.drop (statements.length - 1 + 1) = [] := List.drop_eq_nil_of_le (by omega)
        exact congrArg some none_.symm
    | block => exact ih some_ (.inl ⟨rfl,rfl⟩)

theorem leftover_cons (ctx : Nat) (items : List Item) :
    leftover (.statement ctx :: items) = ((Item.statement ctx :: items).foldl pending none).getD [] := by
  have first : [ctx] ≠ [] := by simp
  change statementsAfter (items.foldl note ([ctx],-1)).1 (items.foldl note ([ctx],-1)).2 = (items.foldl pending none).getD []
  exact foldl_note first (.inl ⟨rfl,rfl⟩)

theorem pending_statements {items : List Item} (only : ∀ i ∈ items, i.isStatement = true) (o : Option (List Nat)) :
    items.foldl pending o = o.map (· ++ numbers items) := by
  induction items generalizing o with
  | nil => simp [numbers]
  | cons item items ih =>
    obtain ⟨first,rest⟩ := List.forall_mem_cons.mp only
    cases item with
    | statement ctx =>
      rw [List.foldl_cons,ih rest]
      cases o <;> simp [pending,numbers,Item.number]
    | jump => cases first
    | block => cases first

theorem pending_jump (before after : List Item) (o : Option (List Nat)) :
    (before ++ .jump :: after).foldl pending o = after.foldl pending (some []) := by
  simp [pending]

theorem lastMark (items : List Item) : (∀ i ∈ items, i.isStatement = true) ∨
    ∃ before mark after, items = before ++ mark :: after ∧ mark.isStatement = false ∧ ∀ i ∈ after, i.isStatement = true := by
  induction items with
  | nil => exact .inl (by simp)
  | cons item items ih =>
    rcases ih with only | ⟨before,mark,after,rfl,marked,only⟩
    · cases kind : item.isStatement with
      | true => exact .inl (List.forall_mem_cons.mpr ⟨kind,only⟩)
      | false => exact .inr ⟨[],item,items,rfl,kind,only⟩
    · exact .inr ⟨item :: before,mark,after,rfl,marked,only⟩

theorem numbers_statements {items : List Item} (only : ∀ i ∈ items, i.isStatement = true) (none_ : numbers items = []) :
    items = [] := by
  cases items with
  | nil => rfl
  | cons item items =>
    have first := only item List.mem_cons_self
    cases item with
    | statement ctx => simp [numbers,Item.number] at none_
    | jump => cases first
    | block => cases first

theorem pending_none_iff (items : List Item) : (items.foldl pending none).getD [] = [] ↔ NoneOpen items := by
  constructor
  · rintro none_ before after rfl only
    rw [pending_jump,pending_statements only] at none_
    exact numbers_statements only (by simpa using none_)
  · intro closed
    rcases lastMark items with only | ⟨before,mark,after,rfl,marked,only⟩
    · rw [pending_statements only]
      rfl
    · cases mark with
      | statement ctx => cases marked
      | jump =>
        rw [closed before after rfl only,pending_jump]
        rfl
      | block =>
        simp only [List.foldl_append,List.foldl_cons,pending]
        rw [pending_statements only]
        rfl

def flat (q : Nat × OrderedTree Rule) : List Item := .statement q.1 :: itemsOf q

theorem surfaceAll_flat {ts : List (OrderedTree Rule)} (statements : ∀ t ∈ ts, t.label = .statement) (n : Nat) :
    surfaceAll n ts = (OrderedTree.numbered n ts).flatMap flat := by
  induction ts generalizing n with
  | nil => rfl
  | cons t ts ih =>
    obtain ⟨first,rest⟩ := List.forall_mem_cons.mp statements
    obtain ⟨r,below⟩ := t
    obtain rfl : r = .statement := first
    rw [surfaceAll,OrderedTree.numbered,List.flatMap_cons,ih rest]
    rfl

theorem numbered_mem {ts : List (OrderedTree Rule)} {n : Nat} (member : q ∈ OrderedTree.numbered n ts) : q.2 ∈ ts := by
  induction ts generalizing n with
  | nil => cases member
  | cons t ts ih =>
    rcases List.mem_cons.mp member with rfl | later
    · exact List.mem_cons_self
    · exact List.mem_cons_of_mem _ (ih later)

theorem block_statements (ok : grammatical t = true) (block : t.label = .block) : ∀ c ∈ t.children, c.label = .statement := by
  obtain ⟨r,ts⟩ := t
  obtain rfl : r = .block := block
  intro c member
  simpa [Rule.mayContain] using (grammatical_node ok).1 c member

theorem surfaceAll_expressions {ts : List (OrderedTree Rule)} (only : ∀ t ∈ ts, t.label = .expression)
    (ok : grammaticalAll ts = true) (n : Nat) : surfaceAll n ts = [] := by
  have nothing : (∀ t : OrderedTree Rule, grammatical t = true → t.label = .expression → ∀ n, surface n t = []) ∧
      ∀ ts : List (OrderedTree Rule), grammaticalAll ts = true → (∀ t ∈ ts, t.label = .expression) → ∀ n,
        surfaceAll n ts = [] := by
    apply OrderedTree.forest_induction
    · intro r ts below ok expression n
      obtain rfl : r = .expression := expression
      refine below (grammatical_node ok).2.2 (fun t member => ?_) (n + 1)
      simpa [Rule.mayContain] using (grammatical_node ok).1 t member
    · exact fun _ _ _ => rfl
    · intro t ts first rest ok only n
      obtain ⟨okFirst,okRest⟩ := grammaticalAll_cons ok
      obtain ⟨here,later⟩ := List.forall_mem_cons.mp only
      rw [surfaceAll,first okFirst here,rest okRest later]
      rfl
  exact nothing.2 ts ok only n

theorem itemsOf_jump {q : Nat × OrderedTree Rule} (ok : grammatical q.2 = true) (jump : isJump q.2 = true) :
    itemsOf q = [.jump] := by
  obtain ⟨n,⟨r,ts⟩⟩ := q
  rw [isJump,Bool.and_eq_true,List.any_eq_true] at jump
  obtain ⟨isStatement,c,member,kind⟩ := jump
  obtain rfl : r = .statement := of_decide_eq_true isStatement
  obtain ⟨_,short,okBelow⟩ := grammatical_node ok
  obtain rfl : ts = [c] := by
    match ts,short rfl,member with
    | [d],_,member => rw [List.mem_singleton.mp member]
  obtain ⟨r,below⟩ := c
  change r.isReturnOrThrow = true at kind
  have okChild := (grammaticalAll_cons okBelow).1
  obtain ⟨may,_,okRest⟩ := grammatical_node okChild
  have expressions : ∀ t ∈ below, t.label = .expression := by
    intro t inside
    have held := may t inside
    rcases Rule.isReturnOrThrow_iff.mp kind with rfl | rfl <;> simpa [Rule.mayContain,Rule.isSimple] using held
  have none_ := surfaceAll_expressions expressions okRest (n + 1 + 1)
  rcases Rule.isReturnOrThrow_iff.mp kind with rfl | rfl <;> simp [itemsOf,OrderedTree.children,surfaceAll,surface,none_]

theorem afterJump_split (l : List (Nat × OrderedTree Rule)) :
    afterJump l = [] ∨ ∃ before jump, l = before ++ jump :: afterJump l ∧ isJump jump.2 = true := by
  induction l with
  | nil => exact .inl rfl
  | cons p l ih =>
    rw [afterJump]
    split
    next jump => exact .inr ⟨[],p,rfl,jump⟩
    next =>
      rcases ih with none_ | ⟨before,j,same,jump⟩
      · exact .inl none_
      · exact .inr ⟨p :: before,j,congrArg (p :: ·) same,jump⟩

theorem leftover_block {p : Nat × OrderedTree Rule} (ok : grammatical p.2 = true) (block : p.2.label = .block) :
    leftover (itemsOf p) = ((itemsOf p).foldl pending none).getD [] := by
  have flattened := surfaceAll_flat (block_statements ok block) (p.1 + 1)
  rw [itemsOf,flattened]
  cases OrderedTree.numbered (p.1 + 1) p.2.children with
  | nil => rfl
  | cons q l => exact leftover_cons q.1 (itemsOf q ++ l.flatMap flat)

theorem flat_plain {l : List (Nat × OrderedTree Rule)} (plain : ∀ q ∈ l, Plain q) :
    (∀ i ∈ l.flatMap flat, i.isStatement = true) ∧ numbers (l.flatMap flat) = l.map Prod.fst := by
  induction l with
  | nil => simp [numbers]
  | cons q l ih =>
    obtain ⟨first,rest⟩ := List.forall_mem_cons.mp plain
    obtain ⟨only,same⟩ := ih rest
    have alone : flat q = [.statement q.1] := by rw [flat,show itemsOf q = [] from first]
    rw [List.flatMap_cons,alone,numbers_append,same]
    refine ⟨?_,rfl⟩
    intro i member
    rcases List.mem_append.mp member with here | later
    · rw [List.mem_singleton.mp here]
      rfl
    · exact only i later

theorem numbers_length {items : List Item} (only : ∀ i ∈ items, i.isStatement = true) :
    (numbers items).length = items.length := by
  induction items with
  | nil => rfl
  | cons item items ih =>
    obtain ⟨first,rest⟩ := List.forall_mem_cons.mp only
    cases item with
    | statement ctx => exact congrArg (· + 1) (ih rest)
    | jump => cases first
    | block => cases first

theorem plain_of_length {l : List (Nat × OrderedTree Rule)} (short : (l.flatMap flat).length ≤ l.length) : ∀ q ∈ l, Plain q := by
  induction l with
  | nil => simp
  | cons q l ih =>
    rw [List.flatMap_cons,List.length_append,flat,List.length_cons,List.length_cons] at short
    have least : l.length ≤ (l.flatMap flat).length := by
      clear ih short
      induction l with
      | nil => exact Nat.le_refl _
      | cons r l ih =>
        rw [List.flatMap_cons,List.length_append,flat,List.length_cons,List.length_cons]
        omega
    refine List.forall_mem_cons.mpr ⟨List.length_eq_zero_iff.mp (by omega),ih (by omega)⟩

theorem plain_of_pending {l : List (Nat × OrderedTree Rule)} (some_ : l ≠ []) (distinct : (numbers (l.flatMap flat)).Nodup)
    (same : ∀ ctx, ctx ∈ ((l.flatMap flat).foldl pending (some [])).getD [] ↔ ctx ∈ l.map Prod.fst) : ∀ q ∈ l, Plain q := by
  have statements : ∀ i ∈ l.flatMap flat, i.isStatement = true := by
    obtain ⟨first,l,rfl⟩ := List.exists_cons_of_ne_nil some_
    rcases lastMark ((first :: l).flatMap flat) with only | ⟨before,mark,after,split_,marked,only⟩
    · exact only
    · -- the first statement stands before every mark, so it is not pending
      exfalso
      have pendingAfter : first.1 ∈ numbers after := by
        have listed := (same first.1).mpr List.mem_cons_self
        rw [split_] at listed
        cases mark with
        | statement ctx => cases marked
        | jump =>
          rw [pending_jump,pending_statements only] at listed
          simpa using listed
        | block =>
          simp only [List.foldl_append,List.foldl_cons,pending] at listed
          rw [pending_statements only] at listed
          cases listed
      cases before with
      | nil =>
        obtain rfl : Item.statement first.1 = mark := (List.cons.inj split_).1
        cases marked
      | cons item before =>
        obtain ⟨rfl,rest⟩ := List.cons.inj split_
        rw [split_] at distinct
        have apart : first.1 ∉ numbers (before ++ mark :: after) := (List.nodup_cons.mp distinct).1
        rw [numbers_append] at apart
        apply apart
        refine List.mem_append_right _ ?_
        cases mark with
        | statement ctx => cases marked
        | jump => exact pendingAfter
        | block => exact pendingAfter
  rw [pending_statements statements] at same
  have inside : numbers (l.flatMap flat) ⊆ l.map Prod.fst := fun ctx member => (same ctx).mp (by simpa using member)
  have short := (List.subperm_of_subset distinct inside).length_le
  rw [numbers_length statements,List.length_map] at short
  exact plain_of_length short

section

variable {p : Nat × OrderedTree Rule} (ok : grammatical p.2 = true) (block : p.2.label = .block)
include ok block

theorem leftover_right_iff :
    (∀ ctx, ctx ∈ leftover (itemsOf p) ↔
      ctx ∈ (afterJump (OrderedTree.numbered (p.1 + 1) p.2.children)).map Prod.fst) ↔ Guarded p := by
  have flattened : itemsOf p = (OrderedTree.numbered (p.1 + 1) p.2.children).flatMap flat :=
    surfaceAll_flat (block_statements ok block) (p.1 + 1)
  have distinct : (numbers (itemsOf p)).Nodup := surfaceAll_nodup _ _
  rw [leftover_block ok block]
  rcases afterJump_split (OrderedTree.numbered (p.1 + 1) p.2.children) with none_ | ⟨before,j,split_,jump⟩
  · have nothing : (∀ ctx, ctx ∈ ((itemsOf p).foldl pending none).getD [] ↔
        ctx ∈ (afterJump (OrderedTree.numbered (p.1 + 1) p.2.children)).map Prod.fst) ↔ NoneOpen (itemsOf p) := by
      rw [none_,← pending_none_iff]
      simp [List.eq_nil_iff_forall_not_mem]
    rw [nothing]
    exact ⟨fun closed => ⟨by simp [none_],fun _ => closed⟩,fun guarded => guarded.closed none_⟩
  · have okJump : grammatical j.2 = true := by
      have listed : j ∈ OrderedTree.numbered (p.1 + 1) p.2.children := split_ ▸ List.mem_append_right _ List.mem_cons_self
      obtain ⟨n,⟨r,ts⟩⟩ := p
      exact grammatical_of_mem (grammatical_node ok).2.2 _ (numbered_mem listed)
    have items : itemsOf p = (before.flatMap flat ++ [.statement j.1]) ++
        .jump :: (afterJump (OrderedTree.numbered (p.1 + 1) p.2.children)).flatMap flat := by
      rw [flattened]
      conv_lhs => rw [split_]
      rw [List.flatMap_append,List.flatMap_cons]
      simp [flat,itemsOf_jump okJump jump]
    have flatRest : (numbers ((afterJump (OrderedTree.numbered (p.1 + 1) p.2.children)).flatMap flat)).Nodup := by
      rw [items,numbers_append] at distinct
      exact (List.nodup_append.mp distinct).2.1
    rw [items,pending_jump]
    constructor
    · intro same
      by_cases some_ : afterJump (OrderedTree.numbered (p.1 + 1) p.2.children) = []
      · refine ⟨by simp [some_],fun _ => (pending_none_iff _).mp ?_⟩
        rw [items,pending_jump,some_]
        rfl
      · exact ⟨plain_of_pending some_ flatRest same,fun none_ => absurd none_ some_⟩
    · intro guarded ctx
      obtain ⟨only,same⟩ := flat_plain guarded.plain
      rw [pending_statements only,same]
      simp

theorem leftover_listed (member : ctx ∈ leftover (itemsOf p)) : ctx ∈ numbers (itemsOf p) := by
  rw [leftover_block ok block] at member
  rcases lastMark (itemsOf p) with only | ⟨before,mark,after,split_,marked,only⟩
  · rw [pending_statements only] at member
    cases member
  · rw [split_] at member ⊢
    have inside : ctx ∈ numbers after → ctx ∈ numbers (before ++ mark :: after) := by
      intro listed
      rw [numbers_append]
      exact List.mem_append_right _ (((List.sublist_cons_self mark after).filterMap Item.number).subset listed)
    cases mark with
    | statement ctx => cases marked
    | jump =>
      rw [pending_jump,pending_statements only] at member
      exact inside (by simpa using member)
    | block =>
      simp only [List.foldl_append,List.foldl_cons,pending] at member
      rw [pending_statements only] at member
      cases member

theorem afterJump_listed (member : ctx ∈ (afterJump (OrderedTree.numbered (p.1 + 1) p.2.children)).map Prod.fst) :
    ctx ∈ numbers (itemsOf p) := by
  obtain ⟨q,listed,rfl⟩ := List.mem_map.mp member
  have inside : q ∈ OrderedTree.numbered (p.1 + 1) p.2.children := by
    rcases afterJump_split (OrderedTree.numbered (p.1 + 1) p.2.children) with none_ | ⟨before,j,split_,_⟩
    · rw [none_] at listed
      cases listed
    · rw [split_]
      exact List.mem_append_right _ (List.mem_cons_of_mem _ listed)
  rw [itemsOf,surfaceAll_flat (block_statements ok block)]
  refine List.mem_filterMap.mpr ⟨.statement q.1,?_,rfl⟩
  exact List.mem_flatMap.mpr ⟨q,inside,List.mem_cons_self⟩

end

theorem blocks_right_iff {t : OrderedTree Rule} (ok : grammatical t = true) :
    (∀ ctx, (∃ p ∈ t.nodes 0, p.2.label = .block ∧ ctx ∈ leftover (itemsOf p)) ↔
      ∃ p ∈ t.nodes 0, p.2.label = .block ∧ ctx ∈ (afterJump (OrderedTree.numbered (p.1 + 1) p.2.children)).map Prod.fst) ↔
    ∀ p ∈ t.nodes 0, p.2.label = .block →
      ∀ ctx, ctx ∈ leftover (itemsOf p) ↔ ctx ∈ (afterJump (OrderedTree.numbered (p.1 + 1) p.2.children)).map Prod.fst := by
  have okAt := grammatical_nodes.1 t ok 0
  constructor
  · intro every p member block ctx
    constructor
    · intro reported
      obtain ⟨q,other,blockQ,expected⟩ := (every ctx).mp ⟨p,member,block,reported⟩
      obtain rfl : p = q := block_unique.1 t 0 p member q other block blockQ ctx
        (leftover_listed (okAt p member) block reported) (afterJump_listed (okAt q other) blockQ expected)
      exact expected
    · intro expected
      obtain ⟨q,other,blockQ,reported⟩ := (every ctx).mpr ⟨p,member,block,expected⟩
      obtain rfl : p = q := block_unique.1 t 0 p member q other block blockQ ctx
        (afterJump_listed (okAt p member) block expected) (leftover_listed (okAt q other) blockQ reported)
      exact reported
  · intro each ctx
    refine exists_congr fun p => and_congr_right fun member => and_congr_right fun block => each p member block ctx

theorem mem_afterJump {l : List (Nat × OrderedTree Rule)} : ctx ∈ (afterJump l).map Prod.fst ↔
    ∃ before s after, l = before ++ (ctx,s) :: after ∧ ∃ q ∈ before, isJump q.2 = true := by
  induction l with
  | nil => simp [afterJump]
  | cons p l ih =>
    rw [afterJump]
    split
    next jump =>
      constructor
      · intro member
        obtain ⟨⟨_,s⟩,listed,rfl⟩ := List.mem_map.mp member
        obtain ⟨before,after,rfl⟩ := List.append_of_mem listed
        exact ⟨p :: before,s,after,rfl,p,List.mem_cons_self,jump⟩
      · rintro ⟨before,s,after,split_,q,inside,_⟩
        obtain ⟨first,before,rfl⟩ := List.exists_cons_of_ne_nil (List.ne_nil_of_mem inside)
        obtain ⟨rfl,rfl⟩ := List.cons.inj split_
        exact List.mem_map.mpr ⟨(ctx,s),by simp,rfl⟩
    next noJump =>
      rw [ih]
      constructor
      · rintro ⟨before,s,after,rfl,q,inside,jump⟩
        exact ⟨p :: before,s,after,rfl,q,List.mem_cons_of_mem _ inside,jump⟩
      · rintro ⟨before,s,after,split_,q,inside,jump⟩
        obtain ⟨first,before,rfl⟩ := List.exists_cons_of_ne_nil (List.ne_nil_of_mem inside)
        obtain ⟨rfl,rfl⟩ := List.cons.inj split_
        rcases List.mem_cons.mp inside with rfl | inside
        · exact absurd jump noJump
        · exact ⟨before,s,after,rfl,q,inside,jump⟩

/-- The reports on a file are right exactly where every block is guarded. -/
theorem unreachable_reports_iff (parseTree : ParseTree) :
    (∀ ctx, ctx ∈ validate parseTree ↔ Unreachable parseTree.tree ctx) ↔
      ∀ p ∈ parseTree.tree.nodes 0, p.2.label = .block → Guarded p := by
  have reported : ∀ ctx, ctx ∈ validate parseTree ↔
      ∃ p ∈ parseTree.tree.nodes 0, p.2.label = .block ∧ ctx ∈ leftover (itemsOf p) := by
    intro ctx
    have walked := walk_met.1 parseTree.tree 0 {}
    rw [validate,walked]
    exact mem_reports.1 parseTree.tree 0 ctx
  have expected : ∀ ctx, Unreachable parseTree.tree ctx ↔ ∃ p ∈ parseTree.tree.nodes 0, p.2.label = .block ∧
      ctx ∈ (afterJump (OrderedTree.numbered (p.1 + 1) p.2.children)).map Prod.fst := by
    intro ctx
    exact exists_congr fun p => and_congr_right fun _ => and_congr_right fun _ => mem_afterJump.symm
  simp only [reported,expected]
  rw [blocks_right_iff parseTree.grammatical]
  refine forall₃_congr fun p member block => ?_
  exact leftover_right_iff (grammatical_nodes.1 _ parseTree.grammatical 0 p member) block

/-- `{ if (c) return; s; }` -/
def guardClause : ParseTree where
  tree := .node .block [.node .statement [.node .ifStatement [.node .expression [],.node .statement [.node .returnStatement []]]],
    .node .statement [.node .otherStatement []]]
  grammatical := by decide

/-- The statement behind the guard clause is reported. -/
theorem guard_clause_reported :
    ¬ ∀ (parseTree : ParseTree) (ctx : Nat), ctx ∈ validate parseTree ↔ Unreachable parseTree.tree ctx := by
  intro always
  have reported : 6 ∈ validate guardClause := by decide
  obtain ⟨p,member,block,before,s,after,split_,q,inside,jump⟩ := (always guardClause 6).mp reported
  have only : ∀ p ∈ guardClause.tree.nodes 0, p.2.label = .block → ∀ q ∈ OrderedTree.numbered (p.1 + 1) p.2.children,
      isJump q.2 = false := by decide
  have listed : q ∈ OrderedTree.numbered (p.1 + 1) p.2.children := by
    rw [split_]
    exact List.mem_append_left _ inside
  rw [only p member block q listed] at jump
  cases jump

end ApexLs.Validation.UnreachableStatementValidator
