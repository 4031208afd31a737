import ApexLs.Collections.Chains
import ApexLs.Validation.DuplicateMethods

/-! The validator that looks for fields and local variables declared twice. Two locals are taken to share
a scope where the same method contains them, whatever blocks they stand in, and a declaration is told from
another one by its id. -/
namespace ApexLs.Validation.DuplicateSymbols

open ApexLs.Collections ApexLs.Types ApexLs.Utils DuplicateMethods

section

variable (heap : Heap) (symbols : List Ref)

def withId (id : String) : Option Ref := symbols.find? fun s => (heap s).id = id

/-- `symbol.parentId ? allSymbols.find(..) : null` -/
def parentOf (s : Ref) : Option Ref := if parentIdOf (heap s) = "" then none else withId heap symbols (parentIdOf (heap s))

def isMethodOrConstructor (s : Ref) : Bool := (heap s).isMethodOrConstructorSymbol

/-- One turn of `findContainingMethod`: the method found, or the symbol to go on with. -/
def upward (current : Ref) : Option (Ref ⊕ Ref) :=
  if isMethodOrConstructor heap current then some (.inl current)
  else (parentOf heap symbols current).map fun parent => if isMethodOrConstructor heap parent then .inl parent else .inr parent

/-- The loop ends at the second visit of an id, so a turn for every symbol is enough. -/
def findContainingMethod (symbol : Ref) : Option Ref :=
  guardedWalk (fun s => (heap s).id) (upward heap symbols) (symbols.length + 2) [] symbol

def isVariable (s : Ref) : Bool := (heap s).kind = .parameter || (heap s).kind = .variable

variable [Runtime]

def nameOf (s : Ref) : String := toLowerCase (heap s).name

def rival (variable_ s : Ref) : Bool :=
  (heap s).id ≠ (heap variable_).id && isVariable heap s && nameOf heap s = nameOf heap variable_

def findDuplicateInSameScope (variable_ currentParent : Ref) : Option Ref :=
  match findContainingMethod heap symbols variable_ with
  | none => symbols.find? fun s => rival heap variable_ s && (heap s).parentId = .of (heap currentParent).id
  | some containingMethod => symbols.find? fun s => rival heap variable_ s &&
      ((findContainingMethod heap symbols s).map fun m => (heap m).id) = some (heap containingMethod).id

def duplicateVariables : List Ref :=
  (symbols.filter fun s => (heap s).kind = .variable).filter fun variable_ =>
    (parentOf heap symbols variable_).any fun parent => (findDuplicateInSameScope heap symbols variable_ parent).isSome

/-- The static and the other fields seen in a type, and the duplicates among them. -/
structure SeenFields where
  staticFields : OrderedMap String Ref := .empty
  nonStaticFields : OrderedMap String Ref := .empty
  duplicates : List Ref := []

def seeField (seen : SeenFields) (field : Ref) : SeenFields :=
  let name := nameOf heap field
  if (heap field).modifiers.isStatic then
    if seen.staticFields.has name then { seen with duplicates := seen.duplicates ++ [field] }
    else { seen with staticFields := seen.staticFields.set name field }
  else if seen.nonStaticFields.has name then { seen with duplicates := seen.duplicates ++ [field] }
  else { seen with nonStaticFields := seen.nonStaticFields.set name field }

def staticFirst (seen : SeenFields) : List Ref :=
  seen.staticFields.entries.filterMap fun (name,staticField) =>
    (seen.nonStaticFields.get? name).bind fun nonStaticField =>
      if (heap staticField).location.identifierRange.startLine < (heap nonStaticField).location.identifierRange.startLine
      then some staticField else none

def duplicateFields : List Ref :=
  let fields := symbols.filter fun s => (heap s).kind = .field && parentIdOf (heap s) ≠ ""
  (groupBy (fun s => parentIdOf (heap s)) fields).entries.flatMap fun (parentId,parentFields) =>
    if (withId heap symbols parentId).isNone then []
    else
      let seen := parentFields.foldl (seeField heap) {}
      seen.duplicates ++ staticFirst heap seen

def validate (localizeTyped : Localizer) : Except String ValidationResult :=
  resultOf
    ((duplicateFields heap symbols).map (fun s =>
      reported localizeTyped "duplicate.field" [(heap s).name] (heap s).location) ++
    (duplicateVariables heap symbols).map fun s =>
      reported localizeTyped "duplicate.variable" [(heap s).name] (heap s).location) []

end

/-- A table of properly nested scopes: the id of a scope is its own, and going up the parents comes to an end. -/
structure NestedScopes where
  heap : Heap
  symbols : List Ref
  own : ∀ s p, parentOf heap symbols s = some p → ∀ r ∈ symbols, (heap r).id = (heap p).id → r = p
  depth : Ref → Nat
  nested : ∀ s p, parentOf heap symbols s = some p → depth p < depth s

namespace NestedScopes

variable (t : NestedScopes)

def Up (s p : Ref) : Prop := parentOf t.heap t.symbols s = some p

def MethodOf (s m : Ref) : Prop :=
  isMethodOrConstructor t.heap m = true ∧
    Relation.ReflTransGen (Onward (parentOf t.heap t.symbols) (isMethodOrConstructor t.heap)) s m

variable [Runtime]

structure Namesake (v s : Ref) : Prop where
  listed : s ∈ t.symbols
  other : s ≠ v
  variable_ : isVariable t.heap s = true
  name : nameOf t.heap s = nameOf t.heap v
  method : ∃ m, t.MethodOf v m ∧ t.MethodOf s m

/-- What the one declares is declared in the block of the other or in a block enclosing it. -/
def AtOrAround (v s : Ref) : Prop := ∃ block own, t.Up s block ∧ t.Up v own ∧ Relation.ReflTransGen t.Up own block

/-- A local is reported if and only if a namesake is declared in its block or in one around it. -/
def ReportsByScope : Prop :=
  ∀ v m, v ∈ t.symbols → (t.heap v).kind = .variable → t.MethodOf v m →
    (v ∈ duplicateVariables t.heap t.symbols ↔ ∃ s, t.Namesake v s ∧ t.AtOrAround v s)

/-- Where a namesake with another id stands in a disjoint or an inner block, there is one at or around the local too; and
where one stands at or around it, there is one with another id in the method. -/
structure BlocksTell : Prop where
  outward : ∀ v s, v ∈ t.symbols → (t.heap v).kind = .variable → t.Namesake v s → (t.heap s).id ≠ (t.heap v).id →
    ¬ t.AtOrAround v s → ∃ u, t.Namesake v u ∧ t.AtOrAround v u
  apart : ∀ v s, v ∈ t.symbols → (t.heap v).kind = .variable → t.Namesake v s → (t.heap s).id = (t.heap v).id →
    t.AtOrAround v s → ∃ u, t.Namesake v u ∧ (t.heap u).id ≠ (t.heap v).id

variable {t}

omit [Runtime]

theorem Up.mem (up : t.Up s p) : p ∈ t.symbols := by
  rw [Up,parentOf] at up
  split at up
  next => cases up
  next => exact List.mem_of_find?_eq_some up

theorem methodOf_iff : t.MethodOf s m ↔ isMethodOrConstructor t.heap s = true ∧ m = s ∨
    isMethodOrConstructor t.heap s = false ∧ ∃ p, t.Up s p ∧ t.MethodOf p m := by
  constructor
  · rintro ⟨method,reached⟩
    rcases Relation.ReflTransGen.cases_head reached with rfl | ⟨p,⟨goes,up⟩,rest⟩
    · exact .inl ⟨method,rfl⟩
    · exact .inr ⟨goes,p,up,method,rest⟩
  · rintro (⟨method,rfl⟩ | ⟨goes,p,up,method,rest⟩)
    · exact ⟨method,.refl⟩
    · exact ⟨method,.head ⟨goes,up⟩ rest⟩

theorem upward_closed (s p : Ref) (onward : upward t.heap t.symbols s = some (.inr p)) : p ∈ t.symbols := by
  rw [upward] at onward
  split at onward
  next => cases onward
  next =>
    obtain ⟨q,up,same⟩ := Option.map_eq_some_iff.mp onward
    split at same
    next => cases same
    next =>
      obtain rfl := Sum.inr.inj same
      exact Up.mem up

theorem id_ne_above (member : s ∈ t.symbols) (above : Relation.TransGen t.Up s q) : (t.heap q).id ≠ (t.heap s).id := by
  have lower : t.depth q < t.depth s := by
    induction above with
    | single up => exact t.nested _ _ up
    | tail _ up ih => exact (t.nested _ _ up).trans ih
  obtain ⟨r,_,up⟩ := Relation.TransGen.tail'_iff.mp above
  intro same
  obtain rfl := t.own r q up s member same.symm
  exact lt_irrefl _ lower

theorem walk_iff (turns : Nat) (visited : List String) (s m : Ref) (member : s ∈ t.symbols) (enough : t.depth s < turns)
    (fresh : ∀ q, Relation.ReflTransGen t.Up s q → (t.heap q).id ∉ visited) :
    guardedWalk (fun s => (t.heap s).id) (upward t.heap t.symbols) turns visited s = some m ↔ t.MethodOf s m := by
  induction turns generalizing s visited with
  | zero => exact absurd enough (Nat.not_lt_zero _)
  | succ turns ih =>
    rw [guardedWalk,if_neg (fresh s .refl),upward,methodOf_iff]
    cases method : isMethodOrConstructor t.heap s with
    | true =>
      rw [if_pos rfl,Option.bind_some]
      exact ⟨fun found => .inl ⟨rfl,(Option.some.inj found).symm⟩,fun h => h.elim (fun here => congrArg some here.2.symm)
        fun onward => absurd onward.1 (by simp)⟩
    | false =>
      cases up : parentOf t.heap t.symbols s with
      | none =>
        have top : ¬ ∃ p, t.Up s p ∧ t.MethodOf p m := by
          rintro ⟨p,found,_⟩
          rw [Up,up] at found
          cases found
        rw [if_neg Bool.false_ne_true,Option.map_none,Option.bind_none]
        exact iff_of_false (by simp) fun h => h.elim (fun here => absurd here.1 (by simp)) fun onward => top onward.2
      | some p =>
        have step : (∃ p, t.Up s p ∧ t.MethodOf p m) ↔ t.MethodOf p m := by
          constructor
          · rintro ⟨q,found,rest⟩
            rw [Up,up] at found
            exact Option.some.inj found ▸ rest
          · exact fun rest => ⟨p,up,rest⟩
        cases ahead : isMethodOrConstructor t.heap p with
        | true =>
          have here : t.MethodOf p m ↔ p = m := by
            rw [methodOf_iff,ahead]
            simp [eq_comm]
          simp [ahead,step,here]
        | false =>
          have rest := ih ((t.heap s).id :: visited) p (Up.mem up) (by have := t.nested s p up; omega) (by
            intro q reached
            rw [List.mem_cons,not_or]
            exact ⟨id_ne_above member (.head' up reached),fresh q (.head up reached)⟩)
          simp [ahead,step,rest]

theorem findContainingMethod_iff (member : s ∈ t.symbols) :
    findContainingMethod t.heap t.symbols s = some m ↔ t.MethodOf s m := by
  have enough := @guardedWalk_enough _ _ _ _ (fun s => (t.heap s).id) _ t.symbols _ _ upward_closed
    (le_refl _) (Nat.le_add_right (t.symbols.length + 2) (t.depth s + 1)) s
  rw [findContainingMethod,← enough]
  exact walk_iff _ [] s m member (by omega) (by simp)

theorem MethodOf.unique (first : t.MethodOf s m) (second : t.MethodOf s m') (member : s ∈ t.symbols) : m = m' :=
  Option.some.inj (((findContainingMethod_iff member).mpr first).symm.trans ((findContainingMethod_iff member).mpr second))

theorem MethodOf.scope (around : t.MethodOf s m) (apart : isMethodOrConstructor t.heap s = false) : ∃ r, t.Up r m := by
  rcases Relation.ReflTransGen.cases_tail around.2 with rfl | ⟨r,_,onward⟩
  · rw [around.1] at apart
    cases apart
  · exact ⟨r,onward.2⟩

theorem MethodOf.mem (around : t.MethodOf s m) (member : s ∈ t.symbols) : m ∈ t.symbols := by
  rcases Relation.ReflTransGen.cases_tail around.2 with rfl | ⟨r,_,onward⟩
  · exact member
  · exact Up.mem onward.2

theorem not_method_of_isVariable {heap : Heap} (variable_ : isVariable heap s = true) : isMethodOrConstructor heap s = false := by
  simp only [isVariable,Bool.or_eq_true,decide_eq_true_eq] at variable_
  rcases variable_ with kind | kind <;> simp [isMethodOrConstructor,ApexSymbol.isMethodOrConstructorSymbol,kind]

variable [Runtime]

theorem reported_iff (member : v ∈ t.symbols) (local_ : (t.heap v).kind = .variable) (around : t.MethodOf v m) :
    v ∈ duplicateVariables t.heap t.symbols ↔ ∃ s, t.Namesake v s ∧ (t.heap s).id ≠ (t.heap v).id := by
  have variable_ : isVariable t.heap v = true := by simp [isVariable,local_]
  have apart := not_method_of_isVariable variable_
  obtain ⟨p,up⟩ : ∃ p, t.Up v p := by
    rcases methodOf_iff.mp around with ⟨method,_⟩ | ⟨_,p,up,_⟩
    · rw [apart] at method
      cases method
    · exact ⟨p,up⟩
  have parent : parentOf t.heap t.symbols v = some p := up
  have found := (findContainingMethod_iff member).mpr around
  rw [duplicateVariables,List.mem_filter,List.mem_filter,parent,Option.any_some,findDuplicateInSameScope,found]
  simp only [List.find?_isSome,Bool.and_eq_true,decide_eq_true_eq]
  constructor
  · rintro ⟨_,s,listed,rivals,same⟩
    simp only [rival,Bool.and_eq_true,decide_eq_true_eq] at rivals
    obtain ⟨m',found',idEq⟩ := Option.map_eq_some_iff.mp same
    have around' := (findContainingMethod_iff listed).mp found'
    -- the id of a method is its own
    obtain ⟨r,scope⟩ := around.scope apart
    obtain rfl := t.own r m scope m' (around'.mem listed) idEq
    exact ⟨s,⟨listed,fun same => rivals.1.1 (same ▸ rfl),rivals.1.2,rivals.2,m',around,around'⟩,rivals.1.1⟩
  · rintro ⟨s,namesake,differ⟩
    obtain ⟨m',around',own⟩ := namesake.method
    obtain rfl := around.unique around' member
    refine ⟨⟨member,local_⟩,s,namesake.listed,?_,?_⟩
    · simp [rival,differ,namesake.variable_,namesake.name]
    · rw [(findContainingMethod_iff namesake.listed).mpr own]
      rfl

/-- Locals are reported by scope exactly where blocks tell their namesakes apart as ids do. -/
theorem reportsByScope_iff (t : NestedScopes) : t.ReportsByScope ↔ t.BlocksTell := by
  constructor
  · intro reports
    refine ⟨fun v s member local_ namesake differ _ => ?_,fun v s member local_ namesake _ around => ?_⟩
    · obtain ⟨m,inMethod,_⟩ := namesake.method
      exact (reports v m member local_ inMethod).mp ((reported_iff member local_ inMethod).mpr ⟨s,namesake,differ⟩)
    · obtain ⟨m,inMethod,_⟩ := namesake.method
      exact (reported_iff member local_ inMethod).mp ((reports v m member local_ inMethod).mpr ⟨s,namesake,around⟩)
  · intro tell v m member local_ inMethod
    rw [reported_iff member local_ inMethod]
    constructor
    · rintro ⟨s,namesake,differ⟩
      by_cases around : t.AtOrAround v s
      · exact ⟨s,namesake,around⟩
      · exact tell.outward v s member local_ namesake differ around
    · rintro ⟨s,namesake,around⟩
      by_cases same : (t.heap s).id = (t.heap v).id
      · exact tell.apart v s member local_ namesake same around
      · exact ⟨s,namesake,same⟩

end NestedScopes

/-- `void m() { for (…) { Integer i; } for (…) { Integer i; } }`, the loops as blocks of the method. -/
def siblingLoops : Heap
  | .declared 0 => { id := "C.m",name := "m",kind := .method,location := SymbolTable.lineLocation 1,fileUri := "file:///C.cls" }
  | .declared 1 => { id := "for_1",name := "for_1",kind := .block,location := SymbolTable.lineLocation 2,
                     fileUri := "file:///C.cls",parentId := .of "C.m" }
  | .declared 2 => { id := "for_2",name := "for_2",kind := .block,location := SymbolTable.lineLocation 3,
                     fileUri := "file:///C.cls",parentId := .of "C.m" }
  | .declared 3 => { id := "for_1.i",name := "i",kind := .variable,location := SymbolTable.lineLocation 2,
                     fileUri := "file:///C.cls",parentId := .of "for_1" }
  | _ => { id := "for_2.i",name := "i",kind := .variable,location := SymbolTable.lineLocation 3,
           fileUri := "file:///C.cls",parentId := .of "for_2" }

def loopSymbols : List Ref := [.declared 0,.declared 1,.declared 2,.declared 3,.declared 4]

theorem siblingLoops_parent (s p : Ref) (up : parentOf siblingLoops loopSymbols s = some p) :
    p = .declared 0 ∧ (s = .declared 1 ∨ s = .declared 2) ∨
      p = .declared 1 ∧ s = .declared 3 ∨ p = .declared 2 ∧ s ∉ [.declared 0,.declared 1,.declared 2,.declared 3] := by
  match s with
  | .declared 0 =>
    have known : parentOf siblingLoops loopSymbols (.declared 0) = none := by decide
    exact absurd (up.symm.trans known) (by simp)
  | .declared 1 =>
    have known : parentOf siblingLoops loopSymbols (.declared 1) = some (.declared 0) := by decide
    exact .inl ⟨Option.some.inj (up.symm.trans known),.inl rfl⟩
  | .declared 2 =>
    have known : parentOf siblingLoops loopSymbols (.declared 2) = some (.declared 0) := by decide
    exact .inl ⟨Option.some.inj (up.symm.trans known),.inr rfl⟩
  | .declared 3 =>
    have known : parentOf siblingLoops loopSymbols (.declared 3) = some (.declared 1) := by decide
    exact .inr (.inl ⟨Option.some.inj (up.symm.trans known),rfl⟩)
  | .declared (n + 4) =>
    have known : parentOf siblingLoops loopSymbols (.declared 4) = some (.declared 2) := by decide
    exact .inr (.inr ⟨Option.some.inj (up.symm.trans known),by simp⟩)
  | .scalar id =>
    have known : parentOf siblingLoops loopSymbols (.declared 4) = some (.declared 2) := by decide
    exact .inr (.inr ⟨Option.some.inj (up.symm.trans known),by simp⟩)

def nestedLoops : NestedScopes where
  heap := siblingLoops
  symbols := loopSymbols
  own s p up := by
    have scopes : ∀ p ∈ [Ref.declared 0,.declared 1,.declared 2], ∀ r ∈ loopSymbols,
        (siblingLoops r).id = (siblingLoops p).id → r = p := by decide
    rcases siblingLoops_parent s p up with ⟨rfl,_⟩ | ⟨rfl,_⟩ | ⟨rfl,_⟩ <;> exact scopes _ (by decide)
  depth r := if r = .declared 0 then 0 else if r = .declared 1 ∨ r = .declared 2 then 1 else 2
  nested s p up := by
    rcases siblingLoops_parent s p up with ⟨rfl,rfl | rfl⟩ | ⟨rfl,rfl⟩ | ⟨rfl,inner⟩
    · decide
    · decide
    · decide
    · simp only [List.mem_cons,List.not_mem_nil,or_false,not_or] at inner
      simp [inner]

/-- Two loops with a variable of one name: both variables are reported. -/
theorem sibling_loops_reported : ¬ ∀ t : NestedScopes, @NestedScopes.ReportsByScope t asciiRuntime := by
  intro always
  let _ := asciiRuntime
  have up : nestedLoops.Up (.declared 3) (.declared 1) :=
    (by decide : parentOf siblingLoops loopSymbols (.declared 3) = some (.declared 1))
  have further : nestedLoops.Up (.declared 1) (.declared 0) :=
    (by decide : parentOf siblingLoops loopSymbols (.declared 1) = some (.declared 0))
  have inMethod : nestedLoops.MethodOf (.declared 3) (.declared 0) :=
    ⟨by decide,.head ⟨by decide,up⟩ (.head ⟨by decide,further⟩ .refl)⟩
  have reported : Ref.declared 3 ∈ duplicateVariables siblingLoops loopSymbols := by decide +kernel
  obtain ⟨s,namesake,block,own,scope,up',around⟩ := (always nestedLoops _ _ (by decide) rfl inMethod).mp reported
  -- the only other variable of the name stands in the other loop
  have only : ∀ s ∈ loopSymbols, isVariable siblingLoops s = true → s ≠ .declared 3 → s = .declared 4 := by decide
  obtain rfl := only s namesake.listed namesake.variable_ namesake.other
  have second : nestedLoops.Up (.declared 4) (.declared 2) :=
    (by decide : parentOf siblingLoops loopSymbols (.declared 4) = some (.declared 2))
  obtain rfl : block = .declared 2 := Option.some.inj (Eq.trans (Eq.symm scope) second)
  obtain rfl : own = .declared 1 := Option.some.inj (Eq.trans (Eq.symm up') up)
  rcases Relation.ReflTransGen.cases_head around with same | ⟨p,next,rest⟩
  · cases same
  · obtain rfl : p = .declared 0 := Option.some.inj (Eq.trans (Eq.symm next) further)
    rcases Relation.ReflTransGen.cases_head rest with same | ⟨q,top,_⟩
    · cases same
    · have none_ : parentOf siblingLoops loopSymbols (.declared 0) = none := by decide
      exact absurd (Eq.trans (Eq.symm top) none_) (by simp)

end ApexLs.Validation.DuplicateSymbols
