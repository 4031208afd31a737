import ApexLs.Collections.Chains
import ApexLs.Utils.Runtime
import ApexLs.Utils.Text
import ApexLs.Validation.ValidatorRegistry

/-! The two validators that follow superclasses by recursion, without a record of the classes they
have seen. The first argument of each recursion is the number of stack frames it may take. -/
namespace ApexLs.Validation

open ApexLs.Collections ApexLs.Types ApexLs.Utils

variable [Runtime]

/-- The type text a tier compares: the resolved name or, before resolution, the type as written. -/
def comparedType (tier : ValidationTier) (parameter : ParameterSymbol) : String :=
  let name := parameter.type.map fun t => toLowerCase t.name
  let original := parameter.type.map fun t => toLowerCase t.originalTypeString
  match tier with
  | .thorough => orElse name (orElse original "")
  | .immediate => orElse original (orElse name "")

def areMethodSignaturesIdentical (tier : ValidationTier) (method1 method2 : ApexSymbol) : Bool :=
  method1.kind = .method && method2.kind = .method && toLowerCase method1.name = toLowerCase method2.name &&
    (method1.parameters.getD []).map (comparedType tier) = (method2.parameters.getD []).map (comparedType tier)

def hasParentId (s : ApexSymbol) : Bool :=
  match s.parentId with
  | .of id => id ≠ ""
  | .undefined | .null => false

/-- `allSymbols.find((s) => s.id === symbol.parentId)`. -/
def withIdOfParent (symbols : List ApexSymbol) (symbol : ApexSymbol) : Option ApexSymbol :=
  symbols.find? fun s => .of s.id = symbol.parentId

def isClassBlock (s : ApexSymbol) : Bool := s.isBlockSymbol && s.scopeType = some .class_

/-- `findParentClassInSameFile`, given how the enclosing class is looked up. -/
def parentClassInSameFile (outer : List ApexSymbol → Option ApexSymbol) (childClass : ApexSymbol)
    (allSymbols : List ApexSymbol) : Option ApexSymbol :=
  if truthy childClass.superClass then
    let superClassName := toLowerCase (trim (childClass.superClass.getD ""))
    let allClasses := allSymbols.filter fun s => s.kind = .class_ && s.fileUri = childClass.fileUri
    let outerClass := if hasParentId childClass then outer allClasses else none
    (outerClass.filter fun c => toLowerCase c.name = superClassName).or
      (allClasses.find? fun c => toLowerCase c.name = superClassName)
  else none

def classBlockOf (allSymbols : List ApexSymbol) (classSymbol : ApexSymbol) : Option ApexSymbol :=
  allSymbols.find? fun s => isClassBlock s && s.parentId = .of classSymbol.id

/-- The methods directly in a class. Without a class block the comparison is with `undefined`. -/
def methodsDirectlyIn (allSymbols : List ApexSymbol) (classSymbol : ApexSymbol) : List ApexSymbol :=
  let blockId := (classBlockOf allSymbols classSymbol).elim ParentId.undefined (fun block => .of block.id)
  allSymbols.filter fun s => s.kind = .method && (s.parentId = blockId || s.parentId = .of classSymbol.id)

section

variable (parent : ApexSymbol → Option ApexSymbol) (allSymbols : List ApexSymbol) (tier : ValidationTier)

def findMethodsInClass : Nat → ApexSymbol → Option (List ApexSymbol)
  | 0,_ => none
  | frames + 1,classSymbol =>
    let methods := methodsDirectlyIn allSymbols classSymbol
    if tier = .immediate then
      match parent classSymbol with
      | none => some methods
      | some parentClass => (findMethodsInClass frames parentClass).map (methods ++ ·)
    else some methods

def getAllAbstractMethods : Nat → ApexSymbol → Option (List ApexSymbol)
  | 0,_ => none
  | frames + 1,classSymbol =>
    (findMethodsInClass parent allSymbols tier frames classSymbol).bind fun methods =>
      let abstractMethods := methods.filter (·.modifiers.isAbstract)
      match parent classSymbol with
      | none => some abstractMethods
      | some parentClass => (getAllAbstractMethods frames parentClass).map (abstractMethods ++ ·)

def findParentMethod (method : ApexSymbol) : Nat → ApexSymbol → Option (Option ApexSymbol)
  | 0,_ => none
  | frames + 1,childClass =>
    match parent childClass with
    | none => some none
    | some parentClass =>
      (findMethodsInClass parent allSymbols tier frames parentClass).bind fun parentMethods =>
        match parentMethods.find? (areMethodSignaturesIdentical tier method) with
        | some parentMethod => some (some parentMethod)
        | none => findParentMethod method frames parentClass

end

def frames (allSymbols : List ApexSymbol) : Nat := allSymbols.length + 2

def reportsOf (check : ApexSymbol → Option (List ValidationInfo)) : List ApexSymbol → Option (List ValidationInfo)
  | [] => some []
  | s :: rest => (check s).bind fun reports => (reportsOf check rest).map (reports ++ ·)

abbrev Localizer := String → List String → String

def reported (localizeTyped : Localizer) (code : String) (arguments : List String) (location : SymbolLocation) :
    ValidationInfo :=
  ⟨localizeTyped code arguments,some location,some code⟩

def resultOf (errors warnings : List ValidationInfo) : Except String ValidationResult :=
  .ok ⟨errors.isEmpty,.infos errors,.infos warnings⟩

namespace AbstractMethodImplementationValidator

def findParentClassInSameFile (allSymbols : List ApexSymbol) (childClass : ApexSymbol) : Option ApexSymbol :=
  parentClassInSameFile (fun allClasses => (withIdOfParent allClasses childClass).or
    ((allSymbols.find? fun s => isClassBlock s && .of s.id = childClass.parentId).bind (withIdOfParent allClasses)))
    childClass allSymbols

def isMethodImplemented (implementingMethod abstractMethod : ApexSymbol) : Bool :=
  areMethodSignaturesIdentical .immediate implementingMethod abstractMethod

def checkClass (localizeTyped : Localizer) (allSymbols : List ApexSymbol) (tier : ValidationTier) (cls : ApexSymbol) :
    Option (List ValidationInfo) :=
  if cls.modifiers.isAbstract then some []
  else
    (getAllAbstractMethods (findParentClassInSameFile allSymbols) allSymbols tier (frames allSymbols) cls).map
      fun abstractMethods =>
        let classBlock := classBlockOf allSymbols cls
        let classMethods := allSymbols.filter fun s => s.kind = .method &&
          (s.parentId = .of cls.id || classBlock.any (fun block => s.parentId = .of block.id))
        (abstractMethods.filter fun abstractMethod => !classMethods.any (isMethodImplemented · abstractMethod)).map
          fun abstractMethod =>
            reported localizeTyped "class.must.implement.abstract.method" [cls.name,abstractMethod.name] cls.location

def validator (localizeTyped : Localizer) : Validator where
  id := "abstract-method-implementation"
  name := "Abstract Method Implementation Validator"
  tier := .immediate
  priority := 11
  prerequisites := ⟨some .publicApi,false,false⟩
  validate table options :=
    let classes := table.symbols.filter (·.kind = .class_)
    (reportsOf (checkClass localizeTyped table.symbols options.tier) classes).map (resultOf · [])

end AbstractMethodImplementationValidator

namespace MethodOverrideValidator

def findParentClassInSameFile (allSymbols : List ApexSymbol) (childClass : ApexSymbol) : Option ApexSymbol :=
  parentClassInSameFile (fun allClasses => withIdOfParent allClasses childClass) childClass allSymbols

def visibilityOrder : SymbolVisibility → Int
  | .private_ => 0
  | .protected_ | .default => 1
  | .public_ => 2
  | .global => 3

def compareVisibility (vis1 vis2 : SymbolVisibility) : Int := visibilityOrder vis1 - visibilityOrder vis2

def containingClass (allSymbols : List ApexSymbol) (method : ApexSymbol) : Option ApexSymbol :=
  let classes := allSymbols.filter (·.kind = .class_)
  (withIdOfParent classes method).or <|
    ((allSymbols.find? fun s => s.isBlockSymbol && .of s.id = method.parentId).filter
      (·.scopeType = some .class_)).bind (withIdOfParent classes)

def checkOverride (localizeTyped : Localizer) (allSymbols : List ApexSymbol) (method cls : ApexSymbol)
    (parentMethod : Option ApexSymbol) : List ValidationInfo :=
  let report := fun code arguments => [reported localizeTyped code arguments method.location]
  let parentClass := findParentClassInSameFile allSymbols cls
  match method.modifiers.isOverride,parentMethod with
  | true,none => if parentClass.isSome then report "method.does.not.override" [method.name] else []
  | true,some overridden =>
    if overridden.modifiers.isStatic then report "cannot.override.static.method" [overridden.name,method.name]
    else if !overridden.modifiers.isVirtual && !overridden.modifiers.isAbstract then
      if parentClass.any (fun c => !c.modifiers.isVirtual && !c.modifiers.isAbstract) then
        report "non.virtual.methods.cannot.override" []
      else report "method.does.not.override" [method.name]
    else if compareVisibility method.modifiers.visibility overridden.modifiers.visibility < 0 then
      report "cannot.reduce.method.visibility.override" [method.name]
    else []
  | false,none => []
  | false,some overridden =>
    if overridden.modifiers.isStatic then report "cannot.override.static.method" [overridden.name,method.name]
    else report "methods.must.override" [method.name]

def checkMethod (localizeTyped : Localizer) (allSymbols : List ApexSymbol) (tier : ValidationTier) (method : ApexSymbol) :
    Option (List ValidationInfo) :=
  match containingClass allSymbols method with
  | none => some []
  | some cls =>
    (findParentMethod (findParentClassInSameFile allSymbols) allSymbols tier method (frames allSymbols) cls).map
      (checkOverride localizeTyped allSymbols method cls)

def validator (localizeTyped : Localizer) : Validator where
  id := "method-override"
  name := "Method Override Validator"
  tier := .immediate
  priority := 9
  prerequisites := ⟨some .publicApi,false,false⟩
  validate table options :=
    let methods := table.symbols.filter (·.kind = .method)
    (reportsOf (checkMethod localizeTyped table.symbols options.tier) methods).map (resultOf · [])

end MethodOverrideValidator

omit [Runtime] in
theorem withIdOfParent_mem (found : withIdOfParent symbols s = some c) : c ∈ symbols :=
  List.mem_of_find?_eq_some found

theorem parentClassInSameFile_mem {outer : List ApexSymbol → Option ApexSymbol}
    (inside : ∀ classes c, outer classes = some c → c ∈ classes)
    (found : parentClassInSameFile outer childClass allSymbols = some p) : p ∈ allSymbols := by
  rw [parentClassInSameFile] at found
  split at found
  · rcases Option.or_eq_some_iff.mp found with enclosing | ⟨_,named⟩
    · have outerClass := (Option.filter_eq_some_iff.mp enclosing).1
      split at outerClass
      · exact List.mem_of_mem_filter (inside _ _ outerClass)
      · cases outerClass
    · exact List.mem_of_mem_filter (List.mem_of_find?_eq_some named)
  · cases found

theorem AbstractMethodImplementationValidator.parent_mem
    (found : findParentClassInSameFile allSymbols childClass = some p) : p ∈ allSymbols := by
  apply parentClassInSameFile_mem _ found
  intro classes c enclosing
  rcases Option.or_eq_some_iff.mp enclosing with direct | ⟨_,throughBlock⟩
  · exact withIdOfParent_mem direct
  · obtain ⟨block,_,outer⟩ := Option.bind_eq_some_iff.mp throughBlock
    exact withIdOfParent_mem outer

theorem MethodOverrideValidator.parent_mem
    (found : findParentClassInSameFile allSymbols childClass = some p) : p ∈ allSymbols :=
  parentClassInSameFile_mem (fun _ _ enclosing => withIdOfParent_mem enclosing) found

def never (_ : ApexSymbol) : Bool := false

section

variable {parent : ApexSymbol → Option ApexSymbol} {allSymbols : List ApexSymbol}

omit [Runtime] in
theorem findMethodsInClass_isSome_iff :
    (findMethodsInClass parent allSymbols .immediate n c).isSome ↔ endsWithin parent never n c = true := by
  induction n generalizing c with
  | zero => simp [findMethodsInClass,endsWithin]
  | succ n ih =>
    rw [findMethodsInClass,endsWithin_succ_iff]
    cases found : parent c with
    | none => simp
    | some p => simp [ih,never]

omit [Runtime] in
theorem findMethodsInClass_thorough :
    findMethodsInClass parent allSymbols .thorough (n + 1) c = some (methodsDirectlyIn allSymbols c) := by
  simp [findMethodsInClass]

omit [Runtime] in
theorem findMethodsInClass_isSome (ends : endsWithin parent stop n c = true)
    (stops : tier = .immediate → stop = never) : (findMethodsInClass parent allSymbols tier n c).isSome := by
  cases tier with
  | immediate =>
    rw [stops rfl] at ends
    exact findMethodsInClass_isSome_iff.mpr ends
  | thorough =>
    cases n with
    | zero => cases ends
    | succ n => rw [findMethodsInClass_thorough,Option.isSome_some]

omit [Runtime] in
theorem getAllAbstractMethods_isSome (ends : endsWithin parent never m c = true) (more : m < n) :
    (getAllAbstractMethods parent allSymbols tier n c).isSome := by
  induction m generalizing n c with
  | zero => cases ends
  | succ m ih =>
    obtain ⟨n,rfl⟩ := Nat.exists_eq_succ_of_ne_zero (Nat.ne_of_gt (Nat.zero_lt_of_lt more))
    have methods : (findMethodsInClass parent allSymbols tier n c).isSome :=
      findMethodsInClass_isSome (endsWithin_mono ends (Nat.le_of_lt_succ more)) (fun _ => rfl)
    obtain ⟨own,got⟩ := Option.isSome_iff_exists.mp methods
    simp only [getAllAbstractMethods,got,Option.bind_some]
    cases found : parent c with
    | none => rfl
    | some p =>
      rw [Option.isSome_map]
      exact ih (endsWithin_onward ends ⟨rfl,found⟩) (by omega)

omit [Runtime] in
theorem endsWithin_of_getAllAbstractMethods (back : (getAllAbstractMethods parent allSymbols tier n c).isSome) :
    endsWithin parent never n c = true := by
  induction n generalizing c with
  | zero => cases back
  | succ n ih =>
    rw [endsWithin_succ_iff]
    refine .inr fun p found => ih ?_
    obtain ⟨answer,came⟩ := Option.isSome_iff_exists.mp back
    obtain ⟨methods,_,rest⟩ := Option.bind_eq_some_iff.mp came
    simp only [found] at rest
    obtain ⟨inherited,above,_⟩ := Option.map_eq_some_iff.mp rest
    exact Option.isSome_of_eq_some above

/-- Where the search for an overridden method stops on its way up. In the immediate tier the
methods of all ancestors are collected anyway. -/
def overrideStop (parent : ApexSymbol → Option ApexSymbol) (allSymbols : List ApexSymbol) (method : ApexSymbol) :
    ValidationTier → ApexSymbol → Bool
  | .immediate,_ => false
  | .thorough,c => (parent c).any fun p =>
    (methodsDirectlyIn allSymbols p).any (areMethodSignaturesIdentical .thorough method)

theorem findParentMethod_isSome (ends : endsWithin parent (overrideStop parent allSymbols method tier) m c = true)
    (more : m < n) : (findParentMethod parent allSymbols tier method n c).isSome := by
  induction m generalizing n c with
  | zero => cases ends
  | succ m ih =>
    obtain ⟨n,rfl⟩ := Nat.exists_eq_succ_of_ne_zero (Nat.ne_of_gt (Nat.zero_lt_of_lt more))
    rw [findParentMethod]
    cases found : parent c with
    | none => rfl
    | some p =>
      have further : ∀ stops : overrideStop parent allSymbols method tier c = false,
          (findParentMethod parent allSymbols tier method n p).isSome :=
        fun stops => ih (endsWithin_onward ends ⟨stops,found⟩) (by omega)
      dsimp only
      cases tier with
      | immediate =>
        have methods : (findMethodsInClass parent allSymbols .immediate n p).isSome := by
          apply findMethodsInClass_isSome_iff.mpr
          exact endsWithin_mono (endsWithin_onward ends ⟨rfl,found⟩) (by omega)
        obtain ⟨inherited,got⟩ := Option.isSome_iff_exists.mp methods
        simp only [got,Option.bind_some]
        split
        · rfl
        · exact further rfl
      | thorough =>
        obtain ⟨n,rfl⟩ := Nat.exists_eq_succ_of_ne_zero (show n ≠ 0 by omega)
        rw [findMethodsInClass_thorough,Option.bind_some]
        split
        · rfl
        · next unmatched =>
          apply further
          simp only [overrideStop,found,Option.any_some]
          simpa using unmatched

theorem endsWithin_of_findParentMethod (back : (findParentMethod parent allSymbols tier method n c).isSome) :
    endsWithin parent (overrideStop parent allSymbols method tier) n c = true := by
  induction n generalizing c with
  | zero => cases back
  | succ n ih =>
    rw [endsWithin_succ_iff]
    by_cases stops : overrideStop parent allSymbols method tier c = true
    · exact .inl stops
    refine .inr fun p found => ?_
    obtain ⟨answer,came⟩ := Option.isSome_iff_exists.mp back
    simp only [findParentMethod,found] at came
    obtain ⟨methods,got,rest⟩ := Option.bind_eq_some_iff.mp came
    cases tier with
    | immediate => exact findMethodsInClass_isSome_iff.mp (Option.isSome_of_eq_some got)
    | thorough =>
      cases n with
      | zero => cases got
      | succ n =>
        rw [findMethodsInClass_thorough] at got
        cases got
        split at rest
        · next matched =>
          exact absurd (by
            simp only [overrideStop,found,Option.any_some]
            exact List.any_eq_true.mpr ⟨_,List.mem_of_find?_eq_some matched,List.find?_some matched⟩) stops
        · exact ih (Option.isSome_of_eq_some rest)

end

omit [Runtime] in
theorem reportsOf_isSome_iff {check : ApexSymbol → Option (List ValidationInfo)} {symbols : List ApexSymbol} :
    (reportsOf check symbols).isSome ↔ ∀ s ∈ symbols, (check s).isSome := by
  induction symbols with
  | nil => simp [reportsOf]
  | cons s rest ih =>
    rw [reportsOf,List.forall_mem_cons]
    cases check s with
    | none => simp
    | some reports => simp [ih]

/-- The superclasses of every class that is not abstract come to an end. -/
def AbstractMethodImplementationValidator.Straight (allSymbols : List ApexSymbol) : Prop :=
  ∀ cls ∈ allSymbols, cls.kind = .class_ → cls.modifiers.isAbstract = false →
    ¬ Loops (findParentClassInSameFile allSymbols) never cls

theorem AbstractMethodImplementationValidator.validate_isSome_iff (localizeTyped : Localizer) (table : ValidationTable)
    (options : ValidationOptions) :
    ((validator localizeTyped).validate table options).isSome ↔ Straight table.symbols := by
  have closed : ∀ a b, findParentClassInSameFile table.symbols a = some b → b ∈ table.symbols := fun _ _ => parent_mem
  simp only [validator,Option.isSome_map,reportsOf_isSome_iff,List.mem_filter,decide_eq_true_eq,and_imp,Straight]
  refine forall₃_congr fun cls member _ => ?_
  rw [checkClass]
  cases cls.modifiers.isAbstract with
  | true => simp
  | false =>
    simp only [Bool.false_eq_true,if_false,Option.isSome_map,forall_const]
    constructor
    · exact fun back => not_loops_of_endsWithin (endsWithin_of_getAllAbstractMethods back)
    · intro straight
      apply getAllAbstractMethods_isSome _ (Nat.lt_succ_self (table.symbols.length + 1))
      exact (endsWithin_iff closed member (Nat.le_succ _)).mpr straight

/-- On the way up from the class of a method the superclasses come to an end, or the method is
found before they repeat. -/
def MethodOverrideValidator.Straight (allSymbols : List ApexSymbol) (tier : ValidationTier) : Prop :=
  ∀ method ∈ allSymbols, method.kind = .method → ∀ cls, containingClass allSymbols method = some cls →
    ¬ Loops (findParentClassInSameFile allSymbols)
      (overrideStop (findParentClassInSameFile allSymbols) allSymbols method tier) cls

omit [Runtime] in
theorem MethodOverrideValidator.containingClass_mem (found : containingClass allSymbols method = some cls) :
    cls ∈ allSymbols := by
  rcases Option.or_eq_some_iff.mp found with direct | ⟨_,throughBlock⟩
  · exact List.mem_of_mem_filter (withIdOfParent_mem direct)
  · obtain ⟨block,_,outer⟩ := Option.bind_eq_some_iff.mp throughBlock
    exact List.mem_of_mem_filter (withIdOfParent_mem outer)

theorem MethodOverrideValidator.validate_isSome_iff (localizeTyped : Localizer) (table : ValidationTable)
    (options : ValidationOptions) :
    ((validator localizeTyped).validate table options).isSome ↔ Straight table.symbols options.tier := by
  have closed : ∀ a b, findParentClassInSameFile table.symbols a = some b → b ∈ table.symbols := fun _ _ => parent_mem
  simp only [validator,Option.isSome_map,reportsOf_isSome_iff,List.mem_filter,decide_eq_true_eq,and_imp,Straight]
  refine forall₃_congr fun method _ _ => ?_
  rw [checkMethod]
  cases found : containingClass table.symbols method with
  | none => simp
  | some cls =>
    simp only [Option.isSome_map,Option.some.injEq,forall_eq']
    constructor
    · exact fun back => not_loops_of_endsWithin (endsWithin_of_findParentMethod back)
    · intro straight
      apply findParentMethod_isSome _ (Nat.lt_succ_self (table.symbols.length + 1))
      exact (endsWithin_iff closed (containingClass_mem found) (Nat.le_succ _)).mpr straight

end ApexLs.Validation
