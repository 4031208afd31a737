import Mathlib.Tactic.Tauto
import ApexLs.Parser.ParseTree

/-! The validator of try statements. Its listener knows the try statement it is in by one variable,
which the end of a nested try statement empties. -/
namespace ApexLs.Validation.TryCatchFinallyValidator

open ApexLs.Collections ApexLs.Parser

structure TryEntry where
  ctx : Nat
  hasCatch : Bool := false
  hasFinally : Bool := false
  deriving DecidableEq, Repr

structure TryCatchFinallyListener where
  tryStatements : List TryEntry := []
  currentTry : Option Nat := none
  deriving DecidableEq, Repr

def updateFirst (meets : α → Bool) (f : α → α) : List α → List α
  | [] => []
  | a :: rest => if meets a then f a :: rest else a :: updateFirst meets f rest

namespace TryCatchFinallyListener

def enterTryStatement (ctx : Nat) (s : TryCatchFinallyListener) : TryCatchFinallyListener :=
  { currentTry := some ctx,tryStatements := s.tryStatements ++ [{ ctx }] }

def exitTryStatement (s : TryCatchFinallyListener) : TryCatchFinallyListener := { s with currentTry := none }

def markCurrent (mark : TryEntry → TryEntry) (s : TryCatchFinallyListener) : TryCatchFinallyListener :=
  match s.currentTry with
  | some currentTry => { s with tryStatements := updateFirst (·.ctx = currentTry) mark s.tryStatements }
  | none => s

def enterCatchClause (s : TryCatchFinallyListener) : TryCatchFinallyListener :=
  s.markCurrent ({ · with hasCatch := true })

def enterFinallyBlock (s : TryCatchFinallyListener) : TryCatchFinallyListener :=
  s.markCurrent ({ · with hasFinally := true })

def listener : Listener Rule TryCatchFinallyListener where
  enter ctx t s :=
    match t.label with
    | .tryStatement => s.enterTryStatement ctx
    | .catchClause => s.enterCatchClause
    | .finallyBlock => s.enterFinallyBlock
    | _ => s
  exit _ t s := if t.label = .tryStatement then s.exitTryStatement else s

end TryCatchFinallyListener

/-- The contexts that `validate` reports with `INVALID_TRY_NEEDS_CATCH_OR_FINALLY`. -/
def validate (parseTree : ParseTree) : List Nat :=
  let tryStatements := (parseTree.tree.walk TryCatchFinallyListener.listener 0 {}).tryStatements
  (tryStatements.filter fun entry => !entry.hasCatch && !entry.hasFinally).map TryEntry.ctx

mutual

def containsTry : OrderedTree Rule → Bool
  | .node r ts => r = .tryStatement || anyContainsTry ts

def anyContainsTry : List (OrderedTree Rule) → Bool
  | [] => false
  | t :: ts => containsTry t || anyContainsTry ts

end

/-- The clauses among neighbours that are met before a try statement has ended, where the try
statement around them is still known. -/
def marks (known : Bool) : List (OrderedTree Rule) → List Rule
  | [] => []
  | t :: ts => (if known && t.label.isClause then [t.label] else []) ++ marks (known && !containsTry t) ts

def TryEntry.mark (e : TryEntry) (clauses : List Rule) : TryEntry :=
  { e with hasCatch := e.hasCatch || .catchClause ∈ clauses,hasFinally := e.hasFinally || .finallyBlock ∈ clauses }

mutual

def entries (n : Nat) : OrderedTree Rule → List TryEntry
  | .node r ts => (if r = .tryStatement then [TryEntry.mark { ctx := n } (marks true ts)] else []) ++ entriesAll (n + 1) ts

def entriesAll (n : Nat) : List (OrderedTree Rule) → List TryEntry
  | [] => []
  | t :: ts => entries n t ++ entriesAll (n + t.size) ts

end

/-- What clauses do to the entry of the try statement that is known. -/
def marked (current : Option Nat) (clauses : List Rule) (es : List TryEntry) : List TryEntry :=
  match current with
  | some c => updateFirst (·.ctx = c) (·.mark clauses) es
  | none => es

section

variable {es : List TryEntry} {current : Option Nat}

section

variable {meets : α → Bool} {f : α → α}

theorem updateFirst_none {l : List α} (apart : ∀ a ∈ l, meets a = false) :
    updateFirst meets f l = l := by
  induction l with
  | nil => rfl
  | cons a l ih =>
    obtain ⟨first,rest⟩ := List.forall_mem_cons.mp apart
    simp [updateFirst,first,ih rest]

theorem updateFirst_id (same : ∀ a, f a = a) (l : List α) : updateFirst meets f l = l := by
  induction l with
  | nil => rfl
  | cons a l ih =>
    by_cases here : meets a = true
    · simp [updateFirst,here,same]
    · simp [updateFirst,here,ih]

theorem updateFirst_append {l new : List α} (apart : ∀ a ∈ new, meets a = false) :
    updateFirst meets f (l ++ new) = updateFirst meets f l ++ new := by
  induction l with
  | nil => exact updateFirst_none apart
  | cons a l ih =>
    simp only [List.cons_append,updateFirst]
    split
    next => rfl
    next => rw [ih,List.cons_append]

theorem updateFirst_last {l : List α} (before : ∀ b ∈ l, meets b = false)
    (here : meets a = true) : updateFirst meets f (l ++ [a]) = l ++ [f a] := by
  induction l with
  | nil => simp [updateFirst,here]
  | cons b l ih =>
    obtain ⟨first,rest⟩ := List.forall_mem_cons.mp before
    simp [updateFirst,first,ih rest]

end

theorem updateFirst_twice {p : α → Bool} {f g : α → α} (kept : ∀ a, p (f a) = p a) (l : List α) :
    updateFirst p g (updateFirst p f l) = updateFirst p (g ∘ f) l := by
  induction l with
  | nil => rfl
  | cons a l ih =>
    by_cases here : p a = true
    · simp [updateFirst,here,kept]
    · simp [updateFirst,here,ih]

theorem mark_mark (e : TryEntry) (first second : List Rule) : (e.mark first).mark second = e.mark (first ++ second) := by
  simp [TryEntry.mark,Bool.or_assoc]

@[simp] theorem mark_nil (e : TryEntry) : e.mark [] = e := by
  simp [TryEntry.mark]

@[simp] theorem marked_nil (current : Option Nat) (es : List TryEntry) : marked current [] es = es := by
  cases current with
  | none => rfl
  | some c => exact updateFirst_id mark_nil es

theorem marked_marked (first second : List Rule) :
    marked current second (marked current first es) = marked current (first ++ second) es := by
  cases current with
  | none => rfl
  | some c =>
    have both := updateFirst_twice (g := (·.mark second)) (f := (·.mark first)) (p := (·.ctx = c)) (fun _ => rfl) es
    simpa only [marked,Function.comp_def,mark_mark] using both

theorem marked_append {new : List TryEntry} (clauses : List Rule) (apart : ∀ e ∈ new, current ≠ some e.ctx) :
    marked current clauses (es ++ new) = marked current clauses es ++ new := by
  cases current with
  | none => rfl
  | some c =>
    apply updateFirst_append
    intro e inside
    have other := apart e inside
    simpa [eq_comm] using other

theorem marked_ctx (current : Option Nat) (clauses : List Rule) (es : List TryEntry) :
    (marked current clauses es).map TryEntry.ctx = es.map TryEntry.ctx := by
  cases current with
  | none => rfl
  | some c =>
    rw [marked]
    induction es with
    | nil => rfl
    | cons e es ih =>
      rw [updateFirst]
      split
      next => rfl
      next => rw [List.map_cons,List.map_cons,ih]

end

theorem marks_unknown (ts : List (OrderedTree Rule)) : marks false ts = [] := by
  induction ts with
  | nil => rfl
  | cons t ts ih => simp [marks,ih]

theorem marks_none {ts : List (OrderedTree Rule)} (known : Bool) (none_ : ∀ t ∈ ts, t.label.isClause = false) :
    marks known ts = [] := by
  induction ts generalizing known with
  | nil => rfl
  | cons t ts ih =>
    obtain ⟨first,rest⟩ := List.forall_mem_cons.mp none_
    simp [marks,first,ih _ rest]

theorem no_clause (ok : grammatical (.node r ts) = true) (other : r ≠ .tryStatement) : ∀ t ∈ ts, t.label.isClause = false := by
  intro t member
  refine Bool.eq_false_iff.mpr (fun clause => ?_)
  have may := (grammatical_node ok).1 t member
  generalize t.label = child at may clause
  cases child with
  | catchClause | finallyBlock => cases r <;> first | exact other rfl | exact Bool.false_ne_true may
  | _ => exact Bool.false_ne_true clause

theorem entries_within :
    (∀ (t : OrderedTree Rule) n, ∀ e ∈ entries n t, n ≤ e.ctx ∧ e.ctx < n + t.size) ∧
      ∀ (ts : List (OrderedTree Rule)) n, ∀ e ∈ entriesAll n ts, n ≤ e.ctx ∧ e.ctx < n + OrderedTree.sizeAll ts := by
  apply OrderedTree.forest_induction
  · intro r ts below n e member
    simp only [entries,List.mem_append,OrderedTree.size] at member ⊢
    rcases member with own | inside
    · split at own
      · obtain rfl := List.mem_singleton.mp own
        simp only [TryEntry.mark]
        omega
      · cases own
    · have := below (n + 1) e inside
      omega
  · intro n e member
    cases member
  · intro t ts first rest n e member
    simp only [entriesAll,List.mem_append,OrderedTree.sizeAll] at member ⊢
    rcases member with inside | inside
    · have := first n e inside
      omega
    · have := rest _ e inside
      omega

/-- What a walk makes of a state: a clause marks the try statement that is known, and a try statement
leaves none known. -/
def after (current : Option Nat) (es : List TryEntry) (clauses : List Rule) (new : List TryEntry) (ended : Bool) :
    TryCatchFinallyListener where
  tryStatements := marked current clauses es ++ new
  currentTry := if ended then none else current

theorem enter_clause (clause : r.isClause = true) (ts : List (OrderedTree Rule)) (n : Nat)
    (current : Option Nat) (es : List TryEntry) :
    TryCatchFinallyListener.listener.enter n (.node r ts) ⟨es,current⟩ = ⟨marked current [r] es,current⟩ := by
  have catch_ : (·.mark [Rule.catchClause]) = fun e : TryEntry => { e with hasCatch := true } := by
    funext e
    simp [TryEntry.mark]
  have finally_ : (·.mark [Rule.finallyBlock]) = fun e : TryEntry => { e with hasFinally := true } := by
    funext e
    simp [TryEntry.mark]
  cases r <;> cases clause <;> cases current <;>
    simp [TryCatchFinallyListener.listener,OrderedTree.label,TryCatchFinallyListener.enterCatchClause,
      TryCatchFinallyListener.enterFinallyBlock,TryCatchFinallyListener.markCurrent,marked,catch_,finally_]

theorem walk_after :
    (∀ t : OrderedTree Rule, grammatical t = true → ∀ n current es, (∀ c, current = some c → c < n) → (∀ e ∈ es, e.ctx < n) →
      t.walk TryCatchFinallyListener.listener n ⟨es,current⟩ =
        after current es (if t.label.isClause then [t.label] else []) (entries n t) (containsTry t)) ∧
    ∀ ts : List (OrderedTree Rule), grammaticalAll ts = true → ∀ n current es, (∀ c, current = some c → c < n) →
      (∀ e ∈ es, e.ctx < n) →
      OrderedTree.walkAll TryCatchFinallyListener.listener n ts ⟨es,current⟩ =
        after current es (marks current.isSome ts) (entriesAll n ts) (anyContainsTry ts) := by
  apply OrderedTree.forest_induction
  · intro r ts below ok n current es earlier numbered
    obtain ⟨_,_,okBelow⟩ := grammatical_node ok
    have later : ∀ c, current = some c → c < n + 1 := fun c same => by have := earlier c same; omega
    rw [OrderedTree.walk,OrderedTree.label]
    by_cases try_ : r = .tryStatement
    · subst try_
      have entered : TryCatchFinallyListener.listener.enter n (.node .tryStatement ts) ⟨es,current⟩ =
          ⟨es ++ [{ ctx := n }],some n⟩ := rfl
      have left : ∀ s, TryCatchFinallyListener.listener.exit n (.node .tryStatement ts) s = { s with currentTry := none } :=
        fun _ => rfl
      have inside := below okBelow (n + 1) (some n) (es ++ [{ ctx := n }]) (by simp) (by
        intro e member
        rcases List.mem_append.mp member with old | new
        · have := numbered e old
          omega
        · simp [List.mem_singleton.mp new])
      have own : marked (some n) (marks true ts) (es ++ [{ ctx := n }]) = es ++ [TryEntry.mark { ctx := n } (marks true ts)] := by
        apply updateFirst_last
        · intro e member
          have := numbered e member
          simp only [decide_eq_false_iff_not]
          omega
        · simp
      rw [entered,inside,left]
      simp [after,own,entries,containsTry,Rule.isClause]
    · have left : ∀ s, TryCatchFinallyListener.listener.exit n (.node r ts) s = s := fun s => if_neg try_
      have clauses := no_clause ok try_
      have state : ∀ es' : List TryEntry, es'.map TryEntry.ctx = es.map TryEntry.ctx →
          OrderedTree.walkAll TryCatchFinallyListener.listener (n + 1) ts ⟨es',current⟩ =
            after current es' [] (entriesAll (n + 1) ts) (anyContainsTry ts) := by
        intro es' same
        rw [below okBelow (n + 1) current es' later,marks_none _ clauses]
        intro e member
        have listed : e.ctx ∈ es.map TryEntry.ctx := same ▸ List.mem_map.mpr ⟨e,member,rfl⟩
        obtain ⟨old,inside,ctx⟩ := List.mem_map.mp listed
        have := numbered old inside
        omega
      by_cases clause : r.isClause = true
      · rw [enter_clause clause,state _ (marked_ctx current [r] es),left]
        simp [after,clause,entries,containsTry,try_]
      · have entered : TryCatchFinallyListener.listener.enter n (.node r ts) ⟨es,current⟩ = ⟨es,current⟩ := by
          simp only [TryCatchFinallyListener.listener,OrderedTree.label]
          split <;> first | rfl | simp_all [Rule.isClause]
        rw [entered,state es rfl,left]
        simp [after,clause,entries,containsTry,try_]
  · intro _ n current es earlier numbered
    simp [OrderedTree.walkAll,after,marks,entriesAll,anyContainsTry]
  · intro t ts first rest ok n current es earlier numbered
    obtain ⟨okFirst,okRest⟩ := grammaticalAll_cons ok
    have size := OrderedTree.size_pos t
    let current' := if containsTry t then none else current
    have earlier' : ∀ c, current' = some c → c < n + t.size := by
      intro c same
      have known : current = some c := by
        simp only [current'] at same
        split at same
        · cases same
        · exact same
      have := earlier c known
      omega
    have numbered' : ∀ clauses, ∀ e ∈ marked current clauses es ++ entries n t, e.ctx < n + t.size := by
      intro clauses e member
      rcases List.mem_append.mp member with old | new
      · have listed : e.ctx ∈ es.map TryEntry.ctx := marked_ctx current clauses es ▸ List.mem_map.mpr ⟨e,old,rfl⟩
        obtain ⟨before,inside,same⟩ := List.mem_map.mp listed
        have := numbered before inside
        omega
      · exact (entries_within.1 t n e new).2
    rw [OrderedTree.walkAll,first okFirst n current es earlier numbered]
    refine (rest okRest (n + t.size) current' _ earlier' (numbered' _)).trans ?_
    have apart : ∀ e ∈ entries n t, current' ≠ some e.ctx := by
      intro e member same
      have known : current = some e.ctx := by
        simp only [current'] at same
        split at same
        · cases same
        · exact same
      have := earlier _ known
      have := entries_within.1 t n e member
      omega
    simp only [after,marked_append _ apart,entriesAll,anyContainsTry,List.append_assoc,TryCatchFinallyListener.mk.injEq]
    constructor
    · congr 1
      -- from the end of a nested try statement on, no clause marks anything
      cases contains : containsTry t with
      | true =>
        have unknown : current' = none := by simp [current',contains]
        cases current <;> simp [unknown,marks,contains,marks_unknown,marked]
      | false =>
        have known : current' = current := by simp [current',contains]
        cases current with
        | none => simp [known,marked]
        | some c => simp [known,marks,contains,marked_marked]
    · simp only [current']
      by_cases contains : containsTry t = true <;> simp [contains]

theorem entries_nodes :
    (∀ (t : OrderedTree Rule) n, ∀ e, e ∈ entries n t ↔ ∃ p ∈ t.nodes n, p.2.label = .tryStatement ∧
      e = TryEntry.mark { ctx := p.1 } (marks true p.2.children)) ∧
    ∀ (ts : List (OrderedTree Rule)) n, ∀ e, e ∈ entriesAll n ts ↔ ∃ p ∈ OrderedTree.nodesAll n ts, p.2.label = .tryStatement ∧
      e = TryEntry.mark { ctx := p.1 } (marks true p.2.children) := by
  apply OrderedTree.forest_induction
  · intro r ts below n e
    simp only [entries,OrderedTree.nodes,List.mem_append,below,List.exists_mem_cons_iff,OrderedTree.label,OrderedTree.children]
    refine or_congr ?_ Iff.rfl
    split <;> simp_all
  · intro n e
    simp [entriesAll,OrderedTree.nodesAll]
  · intro t ts first rest n e
    simp only [entriesAll,OrderedTree.nodesAll,List.mem_append,first,rest,or_and_right,exists_or]

def HasClause (t : OrderedTree Rule) : Prop := ∃ c ∈ t.children, c.label.isClause = true

def FreeBeforeClauses (t : OrderedTree Rule) : Prop := ∀ c ∈ t.children.takeWhile (!·.label.isClause), containsTry c = false

theorem marks_clauses {known : Bool} {ts : List (OrderedTree Rule)} : ∀ r ∈ marks known ts, r.isClause = true := by
  induction ts generalizing known with
  | nil => simp [marks]
  | cons t ts ih =>
    intro r member
    rcases List.mem_append.mp member with here | later
    · split at here
      next both =>
        obtain rfl := List.mem_singleton.mp here
        simp only [Bool.and_eq_true] at both
        exact both.2
      next => cases here
    · exact ih r later

theorem marks_nil_iff {ts : List (OrderedTree Rule)} : marks true ts = [] ↔
    (∀ c ∈ ts, c.label.isClause = false) ∨ ∃ c ∈ ts.takeWhile (!·.label.isClause), containsTry c = true := by
  induction ts with
  | nil => simp [marks]
  | cons t ts ih =>
    cases clause : t.label.isClause with
    | true => simp [marks,clause]
    | false =>
      cases contains : containsTry t with
      | true => simp [marks,clause,contains,marks_unknown]
      | false =>
        have same : marks true (t :: ts) = marks true ts := by simp [marks,clause,contains]
        rw [same,ih]
        simp [clause,contains]

theorem mem_validate_iff (parseTree : ParseTree) (member : (ctx,t) ∈ parseTree.tree.nodes 0) (try_ : t.label = .tryStatement) :
    ctx ∈ validate parseTree ↔ marks true t.children = [] := by
  have walked := walk_after.1 parseTree.tree parseTree.grammatical 0 none [] (by simp) (by simp)
  have final : (parseTree.tree.walk TryCatchFinallyListener.listener 0 {}).tryStatements = entries 0 parseTree.tree := by
    rw [walked]
    rfl
  simp only [validate,final,List.mem_map,List.mem_filter,Bool.and_eq_true,Bool.not_eq_true']
  constructor
  · rintro ⟨e,⟨listed,noCatch,noFinally⟩,rfl⟩
    obtain ⟨⟨m,u⟩,inside,_,rfl⟩ := (entries_nodes.1 parseTree.tree 0 e).mp listed
    obtain rfl : u = t := OrderedTree.nodes_unique inside member
    simp only [TryEntry.mark,Bool.false_or,decide_eq_false_iff_not] at noCatch noFinally
    refine List.eq_nil_iff_forall_not_mem.mpr fun r mark => ?_
    have clause := marks_clauses r mark
    simp only [Rule.isClause,Bool.or_eq_true,decide_eq_true_eq] at clause
    rcases clause with rfl | rfl
    · exact noCatch mark
    · exact noFinally mark
  · intro none_
    refine ⟨TryEntry.mark { ctx } (marks true t.children),⟨?_,?_,?_⟩,rfl⟩
    · exact (entries_nodes.1 _ 0 _).mpr ⟨_,member,try_,rfl⟩
    · simp [none_]
    · simp [none_]

/-- The verdict on a try statement is right exactly where it has no clause or none of the parts before its
first clause holds a try statement. -/
theorem try_verdict_iff (parseTree : ParseTree) (ctx : Nat) (t : OrderedTree Rule) (member : (ctx,t) ∈ parseTree.tree.nodes 0)
    (try_ : t.label = .tryStatement) :
    (ctx ∈ validate parseTree ↔ ¬ HasClause t) ↔ (HasClause t → FreeBeforeClauses t) := by
  rw [mem_validate_iff parseTree member try_,marks_nil_iff]
  have noClause : (∀ c ∈ t.children, c.label.isClause = false) ↔ ¬ HasClause t := by simp [HasClause]
  have notFree : (∃ c ∈ t.children.takeWhile (!·.label.isClause), containsTry c = true) ↔ ¬ FreeBeforeClauses t := by
    simp [FreeBeforeClauses]
  rw [noClause,notFree]
  tauto

/-- `try { try { } finally { } } catch (Exception e) { }` -/
def nestedTry : ParseTree where
  tree := .node .tryStatement [.node .block [.node .statement [.node .tryStatement
    [.node .block [],.node .finallyBlock [.node .block []]]]],.node .catchClause [.node .expression [],.node .block []]]
  grammatical := by decide

/-- The outer statement is reported although it has a catch clause. -/
theorem nested_try_reported :
    ¬ ∀ (parseTree : ParseTree) (ctx : Nat) (t : OrderedTree Rule), (ctx,t) ∈ parseTree.tree.nodes 0 → t.label = .tryStatement →
      (ctx ∈ validate parseTree ↔ ¬ HasClause t) := by
  intro always
  have verdict := always nestedTry 0 nestedTry.tree (by simp [nestedTry,OrderedTree.nodes]) rfl
  have reported : 0 ∈ validate nestedTry := by decide
  exact verdict.mp reported
    ⟨.node .catchClause [.node .expression [],.node .block []],by simp [nestedTry,OrderedTree.children],rfl⟩

/-- `try { } catch (Exception e) { try { } }` -/
def tryInClause : ParseTree where
  tree := .node .tryStatement [.node .block [],.node .catchClause [.node .expression [],.node .block
    [.node .statement [.node .tryStatement [.node .block []]]]]]
  grammatical := by decide

theorem tryInClause_right : 0 ∈ validate tryInClause ↔ ¬ HasClause tryInClause.tree := by
  refine (try_verdict_iff tryInClause 0 tryInClause.tree (by simp [tryInClause,OrderedTree.nodes]) rfl).mpr fun _ c member => ?_
  obtain rfl : c = .node .block [] := by simpa [tryInClause,OrderedTree.children,OrderedTree.label,Rule.isClause] using member
  rfl

end ApexLs.Validation.TryCatchFinallyValidator
