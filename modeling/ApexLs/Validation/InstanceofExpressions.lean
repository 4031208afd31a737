import Mathlib.Tactic.Tauto
import ApexLs.Types.TypeReferences
import ApexLs.Validation.Inheritance
import ApexLs.Validation.TypeAssignability

/-! The validator of `instanceof`. It calls a test false where the left type is not assignable to the right one, and true only
for `Object` and for one name. -/
namespace ApexLs.Validation.InstanceofValidator

open ApexLs.Collections ApexLs.Types ApexLs.Utils ApexLs.Validation.TypeAssignability

/-- `expression instanceof typeRef`: the type that the operand is cast to, the type that it is resolved to, and that of a
literal. -/
structure InstanceofExpression where
  castType : Option TypeRef := none
  resolvedType : Option String := none
  literalType : Option String := none
  typeRef : TypeRef
  location : SymbolLocation

/-- The types of a workspace, with those of the file and those found by a name among them. -/
structure TypeHierarchy where
  types : List ApexSymbol
  allSymbols : List ApexSymbol
  findSymbolByName : String → List ApexSymbol
  inFile : ∀ s ∈ allSymbols, s.inTypeSymbolGroup = true → s ∈ types
  found : ∀ name, ∀ s ∈ findSymbolByName name, s.inTypeSymbolGroup = true → s ∈ types

section

variable [Runtime] (isPrimitiveType : String → Bool) (primitives : PrimitiveTypes) (h : TypeHierarchy) (e : InstanceofExpression)

def leftType : Option String :=
  let castName := e.castType.map fun typeRef => toLowerCase (createTypeInfoFromTypeRef isPrimitiveType typeRef).name
  if truthy castName then castName else e.resolvedType

def effectiveLeftType : String := orElse (leftType isPrimitiveType e) (orElse e.literalType "object")

omit [Runtime] in
def rightType : TypeInfo := createTypeInfoFromTypeRef isPrimitiveType e.typeRef

def rightBase : String := toLowerCase (rightType isPrimitiveType e).name

/-- The first type of the file with the right name, else what is found by it. -/
def rightSymbols : List ApexSymbol :=
  match h.allSymbols.find? fun s => s.inTypeSymbolGroup && toLowerCase s.name = rightBase isPrimitiveType e with
  | some rightInAll => [rightInAll]
  | none => h.findSymbolByName (rightType isPrimitiveType e).originalTypeString

def verdict : Except String (Option (String × List String)) :=
  let effectiveLeft := effectiveLeftType isPrimitiveType e
  let rightTypeName := (rightType isPrimitiveType e).originalTypeString
  let right := rightBase isPrimitiveType e
  let symbols := rightSymbols isPrimitiveType h e
  if primitives.instanceofPrimitive right then .ok (some ("invalid.instanceof.invalid.type",[rightTypeName]))
  else if primitives.instanceofPrimitive (toLowerCase effectiveLeft) then
    .ok (some ("invalid.instanceof.invalid.type",[effectiveLeft]))
  else if right ≠ "object" && symbols.isEmpty then .ok none
  else
    (isAssignable primitives effectiveLeft right .instanceofRhs (h.allSymbols ++ symbols)).map fun assignable =>
      if assignable then
        if right = "object" ||
            (toLowerCase effectiveLeft = right || (leftType isPrimitiveType e).any (toLowerCase · = right)) then
          some ("invalid.instanceof.always.true",[effectiveLeft,rightTypeName])
        else none
      else if toLowerCase effectiveLeft ≠ "object" && truthy (leftType isPrimitiveType e) then
        some ("invalid.instanceof.always.false",[effectiveLeft,rightTypeName])
      else none

def validate (localizeTyped : Localizer) (expressions : List InstanceofExpression) : Except String ValidationResult := do
  let verdicts ← expressions.mapM fun e => (verdict isPrimitiveType primitives h e).map fun error =>
    error.map fun (code,arguments) => reported localizeTyped code arguments e.location
  resultOf (verdicts.filterMap id) []

end

section

variable [Runtime] (types : List ApexSymbol)

/-- By their plain names: one type is the other or a subtype of it by some links; all are below `Object`. -/
def IsBelow (x y : String) : Prop := y = "object" ∨ Relation.ReflTransGen (Link types) x y

def Extensible (x : String) : Prop := ∃ s, symbolNamed types x = some s ∧ s.kind = .class_ ∧
  (s.modifiers.isVirtual = true ∨ s.modifiers.isAbstract = true)

def IsInterface (x : String) : Prop := ∃ s, symbolNamed types x = some s ∧ s.kind = .interface

/-- A class that may still be declared: it extends at most one class and implements any interfaces. -/
structure NewClass where
  superClass : Option String
  interfaces : List String
  extensible : ∀ x ∈ superClass, Extensible types x
  implemented : ∀ x ∈ interfaces, IsInterface types x

def NewClass.IsBelow {types : List ApexSymbol} (d : NewClass types) (y : String) : Prop :=
  y = "object" ∨ ∃ x ∈ d.superClass.toList ++ d.interfaces, Relation.ReflTransGen (Link types) x y

/-- Some type, declared already or still to be declared, is below both. -/
def CanMeet (x y : String) : Prop :=
  (∃ c, IsBelow types c x ∧ IsBelow types c y) ∨ ∃ d : NewClass types, d.IsBelow x ∧ d.IsBelow y

variable {types}

theorem canMeet_of_below (below : IsBelow types x y) : CanMeet types x y ∧ CanMeet types y x :=
  ⟨.inl ⟨x,.inr .refl,below⟩,.inl ⟨x,below,.inr .refl⟩⟩

end

section

variable [Runtime] (isPrimitiveType : String → Bool) (primitives : PrimitiveTypes) (h : TypeHierarchy) (e : InstanceofExpression)

def Reports (code : String) : Prop := ∃ arguments, verdict isPrimitiveType primitives h e = .ok (some (code,arguments))

/-- A test of a known static type is called false only if no class can be below both types, and it is called true whenever
the left type is a proper subtype of the right one. -/
structure JudgesInstanceof : Prop where
  alwaysFalse : ∀ left ≠ "", leftType isPrimitiveType e = some left →
    CanMeet h.types (plainName left) (plainName (rightType isPrimitiveType e).name) →
      ¬ Reports isPrimitiveType primitives h e "invalid.instanceof.always.false"
  alwaysTrue : ∀ left ≠ "", leftType isPrimitiveType e = some left →
    IsBelow h.types (plainName left) (plainName (rightType isPrimitiveType e).name) →
      plainName left ≠ plainName (rightType isPrimitiveType e).name →
        Reports isPrimitiveType primitives h e "invalid.instanceof.always.true"

def NotJudged (left : String) : Prop :=
  primitives.instanceofPrimitive (rightBase isPrimitiveType e) = true ∨ primitives.instanceofPrimitive (toLowerCase left) = true ∨
    rightBase isPrimitiveType e ≠ "object" ∧ rightSymbols isPrimitiveType h e = []

/-- A rule accepts the two names, or the symbol of the one names the other. -/
def Accepted (left : String) : Prop :=
  Covered primitives (h.allSymbols ++ rightSymbols isPrimitiveType h e) .instanceofRhs (plainName left)
    (canonicalizeStandardTypeName (plainName (rightBase isPrimitiveType e)))

/-- What can meet is accepted or not judged, and of a proper subtype the right type is `Object`. -/
structure Decided : Prop where
  alwaysFalse : ∀ left ≠ "", leftType isPrimitiveType e = some left →
    CanMeet h.types (plainName left) (plainName (rightType isPrimitiveType e).name) →
      NotJudged isPrimitiveType primitives h e left ∨ Accepted isPrimitiveType primitives h e left
  alwaysTrue : ∀ left ≠ "", leftType isPrimitiveType e = some left →
    IsBelow h.types (plainName left) (plainName (rightType isPrimitiveType e).name) →
      plainName left ≠ plainName (rightType isPrimitiveType e).name →
        ¬ NotJudged isPrimitiveType primitives h e left ∧ rightBase isPrimitiveType e = "object" ∧
          Accepted isPrimitiveType primitives h e left

variable {isPrimitiveType primitives h e}

omit [Runtime] in
theorem exists_ok_ite {c : Prop} [Decidable c] {x y : Except ε α} (first : ∃ answer, x = .ok answer)
    (second : ∃ answer, y = .ok answer) : ∃ answer, (if c then x else y) = .ok answer := by
  split
  next => exact first
  next => exact second

theorem isAssignable_instanceof (primitives : PrimitiveTypes) (allSymbols : List ApexSymbol) (a b : String) :
    ∃ answer, isAssignable primitives a b .instanceofRhs allSymbols = .ok answer := by
  have ruled (x y : String) : ∃ rule, builtInRule primitives .instanceofRhs x y = .ok rule := by
    have answered (rule : Option Bool) : ∃ r, (.ok rule : Except String (Option Bool)) = .ok r := ⟨rule,rfl⟩
    have other : ¬ AssignabilityContext.instanceofRhs = .assignment := by decide
    rw [builtInRule,if_neg other]
    -- each rule before the promotions answers
    iterate 7 refine exists_ok_ite (answered _) ?_
    exact answered none
  obtain ⟨rule,ok⟩ := ruled (base (toLowerCase a)) (canonicalizeStandardTypeName (base (toLowerCase b)))
  refine ⟨rule.getD (declares allSymbols (base (toLowerCase a)) (canonicalizeStandardTypeName (base (toLowerCase b)))),?_⟩
  rw [isAssignable,ok]
  rfl

theorem verdict_judged (known : left ≠ "") (static : leftType isPrimitiveType e = some left)
    (judged : ¬ NotJudged isPrimitiveType primitives h e left) : ∃ assignable,
    (assignable = true ↔ Accepted isPrimitiveType primitives h e left) ∧ verdict isPrimitiveType primitives h e =
      .ok (if assignable then
        if rightBase isPrimitiveType e = "object" ∨ toLowerCase left = rightBase isPrimitiveType e then
          some ("invalid.instanceof.always.true",[left,(rightType isPrimitiveType e).originalTypeString])
        else none
      else if toLowerCase left ≠ "object" then
        some ("invalid.instanceof.always.false",[left,(rightType isPrimitiveType e).originalTypeString])
      else none) := by
  have effective : effectiveLeftType isPrimitiveType e = left := by
    rw [effectiveLeftType,static]
    exact if_neg known
  have stated : truthy (some left) = true := by simpa [truthy] using known
  simp only [NotJudged,not_or] at judged
  obtain ⟨answer,ok⟩ := isAssignable_instanceof primitives
    (h.allSymbols ++ rightSymbols isPrimitiveType h e) left (rightBase isPrimitiveType e)
  refine ⟨answer,?_,?_⟩
  · have accepted := isAssignable_iff primitives (h.allSymbols ++ rightSymbols isPrimitiveType h e) .instanceofRhs left
      (rightBase isPrimitiveType e)
    rw [ok] at accepted
    simpa [Accepted] using accepted
  · rw [verdict,effective,static,stated,ok,if_neg judged.1,if_neg judged.2.1,if_neg (by simpa using judged.2.2)]
    cases answer <;> simp [Except.map]

theorem not_reports_of_notJudged (known : left ≠ "") (static : leftType isPrimitiveType e = some left)
    (skipped : NotJudged isPrimitiveType primitives h e left) (other : code ≠ "invalid.instanceof.invalid.type") :
    ¬ Reports isPrimitiveType primitives h e code := by
  have effective : effectiveLeftType isPrimitiveType e = left := by
    rw [effectiveLeftType,static]
    exact if_neg known
  rintro ⟨arguments,reported⟩
  rw [verdict,effective] at reported
  split at reported
  · cases reported
    exact other rfl
  next proper =>
    split at reported
    · cases reported
      exact other rfl
    next proper' =>
      have missing := (skipped.resolve_left proper).resolve_left proper'
      rw [if_pos (by simpa using missing)] at reported
      cases reported

theorem accepted_of_object (object : toLowerCase left = "object") : Accepted isPrimitiveType primitives h e left := by
  refine .rule ?_
  have plain : plainName left = "object" := by rw [plainName,object]; decide
  rw [plain,builtInRule]
  by_cases same : "object" = canonicalizeStandardTypeName (plainName (rightBase isPrimitiveType e))
  · simp [← same]
  · simp [same]

theorem reports_alwaysFalse_iff (known : left ≠ "") (static : leftType isPrimitiveType e = some left) :
    Reports isPrimitiveType primitives h e "invalid.instanceof.always.false" ↔
      ¬ NotJudged isPrimitiveType primitives h e left ∧ ¬ Accepted isPrimitiveType primitives h e left := by
  by_cases skipped : NotJudged isPrimitiveType primitives h e left
  · exact iff_of_false (not_reports_of_notJudged known static skipped (by decide)) fun both => both.1 skipped
  · obtain ⟨assignable,accepted,said⟩ := verdict_judged known static skipped
    rw [Reports,said,← accepted]
    cases assignable with
    | true =>
      by_cases sure : rightBase isPrimitiveType e = "object" ∨ toLowerCase left = rightBase isPrimitiveType e <;> simp [sure]
    | false =>
      have named : toLowerCase left ≠ "object" := fun object => absurd (accepted.mpr (accepted_of_object object)) (by simp)
      simp [named,skipped]

theorem reports_alwaysTrue_iff (known : left ≠ "") (static : leftType isPrimitiveType e = some left) :
    Reports isPrimitiveType primitives h e "invalid.instanceof.always.true" ↔
      ¬ NotJudged isPrimitiveType primitives h e left ∧ Accepted isPrimitiveType primitives h e left ∧
        (rightBase isPrimitiveType e = "object" ∨ toLowerCase left = rightBase isPrimitiveType e) := by
  by_cases skipped : NotJudged isPrimitiveType primitives h e left
  · exact iff_of_false (not_reports_of_notJudged known static skipped (by decide)) fun both => both.1 skipped
  · obtain ⟨assignable,accepted,said⟩ := verdict_judged known static skipped
    rw [Reports,said,← accepted]
    cases assignable with
    | true =>
      by_cases sure : rightBase isPrimitiveType e = "object" ∨ toLowerCase left = rightBase isPrimitiveType e <;>
        simp [sure,skipped]
    | false => by_cases named : toLowerCase left = "object" <;> simp [named]

end

def typeNamed (name : String) (superClass : Option String) : ApexSymbol :=
  { id := name,name := name,kind := .class_,location := ⟨⟨1,0,1,0⟩,⟨1,0,1,0⟩⟩,fileUri := "file:///T.cls",superClass := superClass
    modifiers := { isVirtual := true } }

/-- `virtual class Animal {}` and `virtual class Dog extends Animal {}` -/
def kennel : TypeHierarchy where
  types := [typeNamed "Animal" none,typeNamed "Dog" (some "Animal")]
  allSymbols := [typeNamed "Animal" none,typeNamed "Dog" (some "Animal")]
  findSymbolByName _ := []
  inFile _ listed _ := listed
  found _ _ listed _ := absurd listed List.not_mem_nil

/-- `animal instanceof Dog` -/
def downcast : InstanceofExpression where
  resolvedType := some "Animal"
  typeRef := .mk [] ⟨"Dog",by decide,by decide⟩ [] 0
  location := ⟨⟨4,8,4,29⟩,⟨4,8,4,29⟩⟩

end ApexLs.Validation.InstanceofValidator
