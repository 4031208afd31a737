import ApexLs.Collections.OrderedMap
import ApexLs.Parser.ParseTree
import ApexLs.Types.Symbol
import ApexLs.Utils.Runtime

/-! The validator of return statements. It knows the return types of methods by their names. -/
namespace ApexLs.Validation.ReturnStatementValidator

open ApexLs.Collections ApexLs.Parser ApexLs.Types ApexLs.Utils

structure MethodContext where
  isVoid : Bool := false
  isTrigger : Bool := false
  returnType : Option String := none
  deriving DecidableEq, Repr

structure ReturnEntry where
  ctx : Nat
  expression : Nat
  methodReturnType : Option String
  deriving DecidableEq, Repr

inductive ReturnError where
  | invalidReturnVoid (ctx : Nat)
  | invalidTriggerReturn (ctx : Nat)
  | methodDoesNotSupportReturnType (ctx : Nat) (returnType expressionType : String)
  deriving DecidableEq, Repr

def ReturnError.ctx : ReturnError → Nat
  | .invalidReturnVoid ctx | .invalidTriggerReturn ctx | .methodDoesNotSupportReturnType ctx _ _ => ctx

structure ReturnStatementListener where
  errors : List ReturnError := []
  returnStatements : List ReturnEntry := []
  /-- the innermost method first -/
  methodStack : List MethodContext := []
  isInTrigger : Bool := false
  deriving DecidableEq, Repr

def expressionOf (ctx : Nat) (t : OrderedTree Rule) : Option Nat :=
  ((OrderedTree.numbered (ctx + 1) t.children).find? (fun p => p.2.label = .expression)).map Prod.fst

structure MethodNames where
  voidMethods : List String := []
  methodReturnTypes : OrderedMap String String := .empty

section

variable [Runtime]

def isVoidReturnType (method : ApexSymbol) : Bool :=
  orElse (method.returnType.map (fun t => toLowerCase t.name))
    (orElse (method.returnType.map (fun t => toLowerCase t.originalTypeString)) "") = "void"

/-- `method.returnType?.name`, where it is not empty. -/
def returnTypeName (method : ApexSymbol) : Option String := (method.returnType.map TypeInfo.name).filter (· ≠ "")

def collectMethod (names : MethodNames) (method : ApexSymbol) : MethodNames :=
  let methodNameLower := toLowerCase method.name
  if method.hasBody = some false then names
  else if isVoidReturnType method then { names with voidMethods := names.voidMethods ++ [methodNameLower] }
  else
    match returnTypeName method with
    | some name => { names with methodReturnTypes := names.methodReturnTypes.set methodNameLower (toLowerCase name) }
    | none => names

def collectMethods (methods : List ApexSymbol) : MethodNames := methods.foldl collectMethod {}

variable (names : MethodNames)

/-- The context that `enterMethodDeclaration` and `enterConstructorDeclaration` push. -/
def methodContext : Rule → Option MethodContext
  | .methodDeclaration id =>
    match id.filter (· ≠ "") with
    | none => some {}
    | some methodName =>
      some { isVoid := toLowerCase methodName ∈ names.voidMethods
             returnType := names.methodReturnTypes.get? (toLowerCase methodName) }
  | .constructorDeclaration => some {}
  | _ => none

def enterReturnStatement (ctx : Nat) (t : OrderedTree Rule) (s : ReturnStatementListener) : ReturnStatementListener :=
  match expressionOf ctx t with
  | none => s
  | some expression =>
    match s.methodStack.head? with
    | none => if s.isInTrigger then { s with errors := s.errors ++ [.invalidTriggerReturn ctx] } else s
    | some currentContext =>
      if currentContext.isVoid then { s with errors := s.errors ++ [.invalidReturnVoid ctx] }
      else if truthy currentContext.returnType then
        { s with returnStatements := s.returnStatements ++ [⟨ctx,expression,currentContext.returnType⟩] }
      else s

def listener : Listener Rule ReturnStatementListener where
  enter ctx t s :=
    match t.label with
    | .triggerUnit => { s with isInTrigger := true }
    | .returnStatement => enterReturnStatement ctx t s
    | r =>
      match methodContext names r with
      | some c => { s with methodStack := c :: s.methodStack }
      | none => s
  exit _ t s := if (methodContext names t.label).isSome then { s with methodStack := s.methodStack.tail } else s

def areTypesCompatible (type1 type2 : String) : Bool :=
  let t1 := toLowerCase type1
  let t2 := toLowerCase type2
  let numericTypes := ["integer","long","double","decimal"]
  t1 = t2 || (t1 ∈ numericTypes && t2 ∈ numericTypes) || t1 = "null" || t2 = "null" ||
    (t1 = "string" && t2 = "string") || (t1 = "boolean" && t2 = "boolean")

/-- The check of one expression, given the types that expressions resolve to. -/
def checkReturnType (resolvedType : Nat → Option String) (entry : ReturnEntry) : Option ReturnError :=
  let returnTypeLower := toLowerCase (entry.methodReturnType.getD "")
  match (resolvedType entry.expression).filter (· ≠ "") with
  | none => none
  | some expressionType =>
    if returnTypeLower ≠ "" && returnTypeLower ≠ "void" && !areTypesCompatible returnTypeLower expressionType then
      some (.methodDoesNotSupportReturnType entry.ctx returnTypeLower expressionType)
    else none

def walked (allSymbols : List ApexSymbol) (parseTree : ParseTree) : ReturnStatementListener :=
  parseTree.tree.walk (listener (collectMethods (allSymbols.filter (·.kind = .method)))) 0 {}

def validate (allSymbols : List ApexSymbol) (resolvedType : Nat → Option String) (parseTree : ParseTree) : List ReturnError :=
  let s := walked allSymbols parseTree
  s.errors ++ s.returnStatements.filterMap (checkReturnType resolvedType)

end

section

variable [Runtime]

def isNamesake (name : String) (method : ApexSymbol) : Bool :=
  method.hasBody ≠ some false && toLowerCase method.name = toLowerCase name

def typeName (method : ApexSymbol) : Option String :=
  if isVoidReturnType method then none else returnTypeName method

def lastType (methods : List ApexSymbol) (name : String) : Option String :=
  ((methods.filter (isNamesake name)).filterMap typeName).getLast?

theorem collectMethod_void (names : MethodNames) (method : ApexSymbol) (name : String) :
    toLowerCase name ∈ (collectMethod names method).voidMethods ↔
      toLowerCase name ∈ names.voidMethods ∨ isNamesake name method = true ∧ isVoidReturnType method = true := by
  unfold collectMethod isNamesake
  dsimp only
  split
  next bodiless => simp [bodiless]
  next bodied =>
    split
    next void =>
      rw [List.mem_append,List.mem_singleton]
      simp [bodied,void,eq_comm]
    next notVoid => split <;> simp [notVoid]

theorem collectMethod_type (names : MethodNames) (method : ApexSymbol) (name : String) :
    (collectMethod names method).methodReturnTypes.get? (toLowerCase name) =
      ((if isNamesake name method then typeName method else none).map toLowerCase).or
        (names.methodReturnTypes.get? (toLowerCase name)) := by
  unfold collectMethod isNamesake typeName
  dsimp only
  split
  next bodiless => simp [bodiless]
  next bodied =>
    split
    next => simp
    next =>
      split
      next type found =>
        rw [OrderedMap.get?_set]
        by_cases same : toLowerCase name = toLowerCase method.name
        · simp [bodied,found,same]
        · have other : toLowerCase method.name ≠ toLowerCase name := fun h => same h.symm
          simp [same,other]
      next none_ => simp [none_]

theorem mem_voidMethods (methods : List ApexSymbol) (start : MethodNames) (name : String) :
    toLowerCase name ∈ (methods.foldl collectMethod start).voidMethods ↔ toLowerCase name ∈ start.voidMethods ∨
      ∃ m ∈ methods, isNamesake name m = true ∧ isVoidReturnType m = true := by
  induction methods generalizing start with
  | nil => simp
  | cons m methods ih =>
    rw [List.foldl_cons,ih,collectMethod_void,List.exists_mem_cons_iff,or_assoc]

theorem methodReturnTypes_get? (methods : List ApexSymbol) (start : MethodNames) (name : String) :
    (methods.foldl collectMethod start).methodReturnTypes.get? (toLowerCase name) =
      ((lastType methods name).map toLowerCase).or (start.methodReturnTypes.get? (toLowerCase name)) := by
  induction methods generalizing start with
  | nil => rfl
  | cons m methods ih =>
    rw [List.foldl_cons,ih,collectMethod_type,lastType,lastType,← Option.or_assoc,← Option.map_or]
    congr 2
    by_cases namesake : isNamesake name m = true
    · simp only [namesake,if_true,List.filter_cons_of_pos,List.filterMap_cons]
      cases typeName m with
      | none => simp
      | some type =>
        rw [List.getLast?_cons]
        cases ((methods.filter (isNamesake name)).filterMap typeName).getLast? <;> rfl
    · simp [namesake]

structure Visit where
  ctx : Nat
  expression : Nat
  method : Option MethodContext

def visit (stack : List MethodContext) (ctx : Nat) (t : OrderedTree Rule) : List Visit :=
  if t.label = .returnStatement then (expressionOf ctx t).toList.map (⟨ctx,·,stack.head?⟩) else []

def enclosed (names : MethodNames) (stack : List MethodContext) (r : Rule) : List MethodContext :=
  (methodContext names r).toList ++ stack

def Visit.error (isInTrigger : Bool) (v : Visit) : Option ReturnError :=
  match v.method with
  | none => if isInTrigger then some (.invalidTriggerReturn v.ctx) else none
  | some currentContext => if currentContext.isVoid then some (.invalidReturnVoid v.ctx) else none

def Visit.entry (v : Visit) : Option ReturnEntry :=
  v.method.bind fun currentContext =>
    if !currentContext.isVoid && truthy currentContext.returnType then some ⟨v.ctx,v.expression,currentContext.returnType⟩
    else none

def visited (isInTrigger : Bool) (stack : List MethodContext) (visits : List Visit) : ReturnStatementListener where
  errors := visits.filterMap (Visit.error isInTrigger)
  returnStatements := visits.filterMap Visit.entry
  methodStack := stack
  isInTrigger := isInTrigger

theorem enter_visited (names : MethodNames) (isInTrigger : Bool) (n : Nat) (t : OrderedTree Rule) (stack : List MethodContext)
    (visits : List Visit) (inside : t.label ≠ .triggerUnit) :
    (listener names).enter n t (visited isInTrigger stack visits) =
      visited isInTrigger (enclosed names stack t.label) (visits ++ visit stack n t) := by
  by_cases return_ : t.label = .returnStatement
  · have entered : (listener names).enter n t (visited isInTrigger stack visits) =
        enterReturnStatement n t (visited isInTrigger stack visits) := by simp [listener,return_]
    rw [entered,enterReturnStatement,visit,if_pos return_]
    cases expressionOf n t with
    | none => simp [enclosed,methodContext,return_]
    | some expression =>
      have alone : enclosed names stack t.label = stack := by simp [enclosed,methodContext,return_]
      cases top : stack.head? with
      | none => cases isInTrigger <;> simp [alone,visited,top,Visit.error,Visit.entry]
      | some currentContext =>
        by_cases void : currentContext.isVoid = true
        · simp [alone,visited,top,Visit.error,Visit.entry,void]
        · by_cases typed : truthy currentContext.returnType = true <;>
            simp [alone,visited,top,Visit.error,Visit.entry,void,typed]
  · have entered : (listener names).enter n t (visited isInTrigger stack visits) =
        visited isInTrigger (enclosed names stack t.label) visits := by
      simp only [listener,enclosed]
      generalize t.label = r at inside return_
      cases found : methodContext names r <;> cases r <;> simp_all [visited]
    rw [entered,visit,if_neg return_,List.append_nil]

theorem exit_visited (names : MethodNames) (isInTrigger : Bool) (n : Nat) (t : OrderedTree Rule) (stack : List MethodContext)
    (visits : List Visit) : (listener names).exit n t (visited isInTrigger (enclosed names stack t.label) visits) =
      visited isInTrigger stack visits := by
  simp only [listener,enclosed]
  cases methodContext names t.label <;> rfl

theorem walked_visited (allSymbols : List ApexSymbol) (parseTree : ParseTree) : ∃ isInTrigger,
    walked allSymbols parseTree = visited isInTrigger [] (OrderedTree.collect
      (enclosed (collectMethods (allSymbols.filter (·.kind = .method)))) visit [] 0 parseTree.tree) := by
  let names := collectMethods (allSymbols.filter (·.kind = .method))
  obtain ⟨tree,ok⟩ := parseTree
  obtain ⟨r,ts⟩ := tree
  obtain ⟨may,_,okBelow⟩ := grammatical_node ok
  by_cases trigger : r = .triggerUnit
  · subst trigger
    have inside := nodesAll_ne_triggerUnit.2 ts okBelow (fun t listed => mayContain_ne_triggerUnit (may t listed)) 1
    have below := (OrderedTree.walk_collects (P := (· ≠ .triggerUnit)) (fun n t stack visits =>
      enter_visited names true n t stack visits)
      (fun n t stack visits _ => exit_visited names true n t stack visits)).2 ts 1 [] [] inside
    exact ⟨true,below⟩
  · have inside := nodesAll_ne_triggerUnit.1 (.node r ts) ok trigger 0
    have all := (OrderedTree.walk_collects (P := (· ≠ .triggerUnit)) (fun n t stack visits =>
      enter_visited names false n t stack visits)
      (fun n t stack visits _ => exit_visited names false n t stack visits)).1 (.node r ts) 0 [] [] inside
    exact ⟨false,all⟩

theorem contextAt_enclosed (names : MethodNames) (above : List Rule) :
    OrderedTree.contextAt (enclosed names) [] above = above.filterMap (methodContext names) := by
  induction above with
  | nil => rfl
  | cons r above ih =>
    rw [OrderedTree.contextAt] at ih ⊢
    rw [List.foldr_cons,ih,enclosed,List.filterMap_cons]
    cases methodContext names r <;> rfl

theorem mem_visits (names : MethodNames) (t : OrderedTree Rule) (v : Visit) :
    v ∈ OrderedTree.collect (enclosed names) visit [] 0 t ↔
      ∃ p ∈ t.places [] 0, v ∈ visit (p.1.filterMap (methodContext names)) p.2.1 p.2.2 := by
  have collected := (OrderedTree.mem_collect (enclosed names) visit (c := []) (e := v)).1 t [] 0
  simpa only [contextAt_enclosed,List.filterMap_nil] using collected

end

structure ReturnsIn (t : OrderedTree Rule) (ctx expression : Nat) (name : String) : Prop where
  place : ∃ above u, (above,ctx,u) ∈ t.places [] 0 ∧ u.label = .returnStatement ∧ expressionOf ctx u = some expression ∧
    above.find? Rule.isMethodOrConstructor = some (.methodDeclaration (some name))
  named : name ≠ ""

section

variable [Runtime]

theorem methodContext_isSome (names : MethodNames) (r : Rule) : (methodContext names r).isSome = r.isMethodOrConstructor := by
  cases r with
  | methodDeclaration id =>
    rw [methodContext]
    cases id.filter (· ≠ "") <;> rfl
  | _ => rfl

theorem innermost (names : MethodNames) (above : List Rule) (found : above.find? Rule.isMethodOrConstructor = some r) :
    above.findSome? (methodContext names) = methodContext names r := by
  induction above with
  | nil => cases found
  | cons a above ih =>
    have isSome := methodContext_isSome names a
    rw [List.find?_cons] at found
    split at found
    next here =>
      obtain rfl := Option.some.inj found
      obtain ⟨c,context⟩ := Option.isSome_iff_exists.mp (isSome.trans here)
      rw [List.findSome?_cons,context]
    next elsewhere =>
      have none_ : methodContext names a = none := by
        rw [← Option.not_isSome_iff_eq_none,isSome,elsewhere]
        exact Bool.false_ne_true
      rw [List.findSome?_cons,none_]
      exact ih found

def contextOf (names : MethodNames) (name : String) : MethodContext where
  isVoid := toLowerCase name ∈ names.voidMethods
  returnType := names.methodReturnTypes.get? (toLowerCase name)

theorem visit_of_returnsIn {names : MethodNames} {t : OrderedTree Rule} (returns : ReturnsIn t ctx expression name) {v : Visit} :
    v ∈ OrderedTree.collect (enclosed names) visit [] 0 t ∧ v.ctx = ctx ↔ v = ⟨ctx,expression,some (contextOf names name)⟩ := by
  obtain ⟨above,u,place,return_,value,found⟩ := returns.place
  have context : methodContext names (.methodDeclaration (some name)) = some (contextOf names name) := by
    have given : (some name).filter (· ≠ "") = some name := by simp [returns.named]
    rw [methodContext,given]
    rfl
  have here : visit (above.filterMap (methodContext names)) ctx u = [⟨ctx,expression,some (contextOf names name)⟩] := by
    simp [visit,return_,value,innermost names above found,context]
  rw [mem_visits]
  constructor
  · rintro ⟨⟨p,other,given⟩,same⟩
    have number : p.2.1 = ctx := by
      rw [visit] at given
      split at given
      · obtain ⟨e,_,rfl⟩ := List.mem_map.mp given
        exact same
      · cases given
    obtain rfl : p = (above,ctx,u) := OrderedTree.places_unique.1 t [] 0 p other _ place number
    rw [here] at given
    exact List.mem_singleton.mp given
  · rintro rfl
    exact ⟨⟨_,place,by rw [here]; exact List.mem_singleton.mpr rfl⟩,rfl⟩

omit [Runtime] in
theorem entry_iff (c : MethodContext) : Visit.entry ⟨ctx,expression,some c⟩ = some ⟨ctx,expression,some type⟩ ↔
    c.isVoid = false ∧ c.returnType.filter (· ≠ "") = some type := by
  obtain ⟨isVoid,isTrigger,returnType⟩ := c
  cases isVoid with
  | true => simp [Visit.entry]
  | false =>
    cases returnType with
    | none => simp [Visit.entry]
    | some name =>
      by_cases empty : name = ""
      · simp [Visit.entry,truthy,empty]
      · simp [Visit.entry,truthy,empty]
        rintro rfl
        exact empty

theorem mem_validate_void (allSymbols : List ApexSymbol) (resolvedType : Nat → Option String) (parseTree : ParseTree) :
    .invalidReturnVoid ctx ∈ validate allSymbols resolvedType parseTree ↔
      .invalidReturnVoid ctx ∈ (walked allSymbols parseTree).errors := by
  simp only [validate,List.mem_append,List.mem_filterMap]
  refine or_iff_left ?_
  rintro ⟨entry,_,checked⟩
  unfold checkReturnType at checked
  dsimp only at checked
  split at checked
  · cases checked
  · split at checked
    · cases checked
    · cases checked

theorem walked_of_returnsIn (allSymbols : List ApexSymbol) {parseTree : ParseTree}
    (returns : ReturnsIn parseTree.tree ctx expression name) :
    let c := contextOf (collectMethods (allSymbols.filter (·.kind = .method))) name
    (.invalidReturnVoid ctx ∈ (walked allSymbols parseTree).errors ↔ c.isVoid = true) ∧
      ∀ type, ⟨ctx,expression,some type⟩ ∈ (walked allSymbols parseTree).returnStatements ↔
        c.isVoid = false ∧ c.returnType.filter (· ≠ "") = some type := by
  obtain ⟨isInTrigger,final⟩ := walked_visited allSymbols parseTree
  intro c
  rw [final]
  constructor
  · simp only [visited,List.mem_filterMap]
    constructor
    · rintro ⟨v,member,error⟩
      have same : v.ctx = ctx := by
        simp only [Visit.error] at error
        split at error <;> split at error <;> simp_all
      obtain rfl := (visit_of_returnsIn returns).mp ⟨member,same⟩
      simp only [Visit.error] at error
      split at error
      · assumption
      · cases error
    · intro void
      have void' : (contextOf (collectMethods (allSymbols.filter (·.kind = .method))) name).isVoid = true := void
      exact ⟨_,((visit_of_returnsIn returns).mpr rfl).1,by simp [Visit.error,void']⟩
  · intro type
    simp only [visited,List.mem_filterMap]
    constructor
    · rintro ⟨v,member,entry⟩
      have same : v.ctx = ctx := by
        obtain ⟨currentContext,_,here⟩ := Option.bind_eq_some_iff.mp entry
        split at here
        · exact congrArg ReturnEntry.ctx (Option.some.inj here)
        · cases here
      obtain rfl := (visit_of_returnsIn returns).mp ⟨member,same⟩
      exact (entry_iff _).mp entry
    · intro typed
      exact ⟨_,((visit_of_returnsIn returns).mpr rfl).1,(entry_iff c).mpr typed⟩

/-- The type that the check compares with for a method: the name of its return type, where it has one. -/
def declaredType (method : ApexSymbol) : Option String := ((typeName method).map toLowerCase).filter (· ≠ "")

/-- A return statement is judged by the method `m`: it is refused where `m` is void, and its expression is
compared with the return type of `m`. -/
structure JudgedBy (allSymbols : List ApexSymbol) (parseTree : ParseTree) (m : ApexSymbol) (ctx expression : Nat) : Prop where
  void : ∀ resolvedType, .invalidReturnVoid ctx ∈ validate allSymbols resolvedType parseTree ↔ isVoidReturnType m = true
  compared : ∀ type, ⟨ctx,expression,some type⟩ ∈ (walked allSymbols parseTree).returnStatements ↔ declaredType m = some type

/-- No namesake with a body makes a difference: the method is void, or none of them is void and the last
one with a return type has the type of the method. -/
def NamesakesAgree (methods : List ApexSymbol) (name : String) (m : ApexSymbol) : Prop :=
  isVoidReturnType m = true ∨ (∀ h ∈ methods, isNamesake name h = true → isVoidReturnType h = false) ∧
    ((lastType methods name).map toLowerCase).filter (· ≠ "") = declaredType m

/-- A return statement with a value in a method is judged by this method exactly where its namesakes agree with it. -/
theorem judgedBy_iff (allSymbols : List ApexSymbol) (parseTree : ParseTree) (ctx expression : Nat) (name : String)
    (returns : ReturnsIn parseTree.tree ctx expression name) (m : ApexSymbol) (member : m ∈ allSymbols)
      (method : m.kind = .method)
    (own : isNamesake name m = true) :
    JudgedBy allSymbols parseTree m ctx expression ↔ NamesakesAgree (allSymbols.filter (·.kind = .method)) name m := by
  obtain ⟨errors,entries⟩ := walked_of_returnsIn allSymbols returns
  let methods := allSymbols.filter (·.kind = .method)
  have listed : m ∈ methods := List.mem_filter.mpr ⟨member,by simpa using method⟩
  have void : (contextOf (collectMethods methods) name).isVoid = true ↔
      ∃ h ∈ methods, isNamesake name h = true ∧ isVoidReturnType h = true := by
    have collected := mem_voidMethods methods {} name
    simp only [List.not_mem_nil,false_or] at collected
    change decide _ = true ↔ _
    rw [decide_eq_true_iff]
    exact collected
  have types : (contextOf (collectMethods methods) name).returnType = (lastType methods name).map toLowerCase := by
    have collected := methodReturnTypes_get? methods {} name
    rw [OrderedMap.get?_empty,Option.or_none] at collected
    exact collected
  constructor
  · intro judged
    by_cases isVoid : isVoidReturnType m = true
    · exact .inl isVoid
    · have notVoid : (contextOf (collectMethods methods) name).isVoid = false := by
        by_contra some_
        have reported := (mem_validate_void allSymbols (fun _ => none) parseTree).mpr
          (errors.mpr (Bool.eq_true_of_not_eq_false some_))
        exact isVoid ((judged.void _).mp reported)
      refine .inr ⟨fun h inside namesake => ?_,?_⟩
      · by_contra some_
        have found := void.mpr ⟨h,inside,namesake,Bool.eq_true_of_not_eq_false some_⟩
        rw [notVoid] at found
        cases found
      · rw [← types]
        refine Option.ext fun type => ?_
        have same := (entries type).symm.trans (judged.compared type)
        exact ⟨fun typed => same.mp ⟨notVoid,typed⟩,fun typed => (same.mpr typed).2⟩
  · rintro (isVoid | ⟨none_,same⟩)
    · have found := void.mpr ⟨m,listed,own,isVoid⟩
      refine ⟨fun _ => by rw [mem_validate_void,errors]; exact iff_of_true found isVoid,fun type => ?_⟩
      rw [entries type,found]
      simp [declaredType,typeName,isVoid]
    · have notVoid : ¬ (contextOf (collectMethods methods) name).isVoid = true := by
        rintro found
        obtain ⟨h,inside,namesake,isVoid⟩ := void.mp found
        rw [none_ h inside namesake] at isVoid
        cases isVoid
      refine ⟨fun _ => by rw [mem_validate_void,errors]; exact iff_of_false notVoid (by simp [none_ m listed own]),fun type => ?_⟩
      rw [entries type,types,← same]
      exact ⟨And.right,fun typed => ⟨Bool.eq_false_of_not_eq_true notVoid,typed⟩⟩

end

def methodNamed (name type : String) (startLine : Nat) : ApexSymbol :=
  { id := name ++ type,name := name,kind := .method,location := ⟨⟨startLine,2,startLine + 2,3⟩,⟨startLine,10,startLine,13⟩⟩
    fileUri := "file:///C.cls",returnType := some (.simple type),hasBody := some true }

def twoMethods (first second : String) : OrderedTree Rule :=
  .node .compilationUnit [.node .declaration
    [.node (.methodDeclaration (some first)) [.node .block []],
      .node (.methodDeclaration (some second)) [.node .block [.node .statement [.node .returnStatement [.node .expression []]]]]]]

theorem twoMethods_returnsIn (first second : String) (named : second ≠ "") : ReturnsIn (twoMethods first second) 7 8 second := by
  refine ⟨⟨[.statement,.block,.methodDeclaration (some second),.declaration,.compilationUnit],
    .node .returnStatement [.node .expression []],?_,rfl,rfl,rfl⟩,named⟩
  simp [twoMethods,OrderedTree.places,OrderedTree.placesAll,OrderedTree.size,OrderedTree.sizeAll]

def overloads : ParseTree := ⟨twoMethods "run" "run",by decide⟩

def otherNames : ParseTree := ⟨twoMethods "run" "walk",by decide⟩

/-- A void method of another name does not matter. -/
theorem judgedBy_other_name : @JudgedBy asciiRuntime [methodNamed "run" "void" 2,methodNamed "walk" "Integer" 4] otherNames
    (methodNamed "walk" "Integer" 4) 7 8 := by
  let _ := asciiRuntime
  have returns : ReturnsIn otherNames.tree 7 8 "walk" := twoMethods_returnsIn "run" "walk" (by decide)
  refine (judgedBy_iff [methodNamed "run" "void" 2,methodNamed "walk" "Integer" 4] otherNames 7 8 "walk" returns
    (methodNamed "walk" "Integer" 4) (by simp) rfl (by decide +kernel)).mpr (.inr ⟨?_,by decide +kernel⟩)
  decide +kernel

/-- A method that is not void has a void overload; its return statement is refused. -/
theorem void_overload_refuses :
    ¬ ∀ (allSymbols : List ApexSymbol) (parseTree : ParseTree) (ctx expression : Nat) (name : String),
      ReturnsIn parseTree.tree ctx expression name → ∀ m ∈ allSymbols, m.kind = .method →
        @isNamesake asciiRuntime name m = true → @JudgedBy asciiRuntime allSymbols parseTree m ctx expression := by
  intro always
  have returns : ReturnsIn overloads.tree 7 8 "run" := twoMethods_returnsIn "run" "run" (by decide)
  have judged := always [methodNamed "run" "void" 2,methodNamed "run" "Integer" 4] overloads 7 8 "run" returns
    (methodNamed "run" "Integer" 4) (by simp) rfl (by decide +kernel)
  have refused : ReturnError.invalidReturnVoid 7 ∈
      @validate asciiRuntime [methodNamed "run" "void" 2,methodNamed "run" "Integer" 4] (fun _ => none) overloads := by
    decide +kernel
  have void := (@JudgedBy.void asciiRuntime _ _ _ _ _ judged _).mp refused
  have notVoid : @isVoidReturnType asciiRuntime (methodNamed "run" "Integer" 4) = false := by decide +kernel
  rw [notVoid] at void
  cases void

end ApexLs.Validation.ReturnStatementValidator
