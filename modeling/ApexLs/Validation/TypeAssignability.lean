import Mathlib.Logic.Relation
import ApexLs.Utils.Text
import ApexLs.Validation.HierarchyCycles

/-! Assignability of types by their names. The target is brought to a canonical form, the source is not,
and one link of the hierarchy is followed. -/
namespace ApexLs.Validation.TypeAssignability

open ApexLs.Collections ApexLs.Types ApexLs.Utils

structure PrimitiveTypes where
  nonNullable : String → Bool
  instanceofPrimitive : String → Bool

inductive AssignabilityContext where
  | methodParameter | instanceofRhs | assignment
  deriving DecidableEq, Repr

def base (s : String) : String := String.ofList ((s.toList.reverse.takeWhile (· ≠ '.')).reverse)

def typeAliases : List (String × List String) :=
  [("object",["object","system.object"]),("type",["type","system.type"]),
    ("version",["version","system.version","package.version"]),
    ("schedulablecontext",["schedulablecontext","system.schedulablecontext"]),("formula",["formula","system.formula"])]

def numericPromotions : List (String × List String) :=
  [("integer",["long","double","decimal"]),("long",["double","decimal"]),("double",["decimal"])]

/-- The lower-case keys that a record has from `Object.prototype`. What they hold has no `includes`. -/
def inheritedKeys : List String := ["constructor","__proto__"]

variable [Runtime]

def normalize (value : String) : String := toLowerCase (trim value)

def canonicalizeStandardTypeName (value : String) : String :=
  let normalized := normalize value
  ((typeAliases.find? fun entry => normalized ∈ entry.2).map Prod.fst).getD normalized

def isStandardTypeAlias (value canonical : String) : Bool := canonicalizeStandardTypeName value = canonical

def isTypeSymbol (s : ApexSymbol) : Bool := s.kind = .class_ || s.kind = .interface || s.kind = .enum

/-- The first class, interface or enum with a name that is in lower case already. -/
def symbolNamed (allSymbols : List ApexSymbol) (name : String) : Option ApexSymbol :=
  allSymbols.find? fun s => isTypeSymbol s && toLowerCase s.name = name

/-- `NUMERIC_PROMOTIONS[source]?.includes(target)` -/
def promotes (source target : String) : Except String Bool :=
  if source ∈ inheritedKeys then .error "promotions?.includes is not a function"
  else .ok (numericPromotions.any fun entry => entry.1 = source && target ∈ entry.2)

def builtInRule (primitives : PrimitiveTypes) (context : AssignabilityContext) (source target : String) :
    Except String (Option Bool) :=
  if context = .methodParameter && target = "" then .ok (some true)
  else if source = target then .ok (some true)
  else if source = "null" then .ok (some (context ≠ .assignment || !primitives.nonNullable target))
  else if source = "" then .ok (some true)
  else if source = "object" then .ok (some (context ≠ .assignment || target = "object"))
  else if target = "object" then
    .ok (some (match context with
      | .methodParameter => source ≠ "void"
      | .instanceofRhs => !primitives.instanceofPrimitive source
      | .assignment => true))
  else if context = .methodParameter && isStandardTypeAlias target "type" then .ok (some (source ∈ ["type","object"]))
  else if context = .assignment then
    if target = "string" && source = "id" then .ok (some true)
    else (promotes source target).map fun promoted => if promoted then some true else none
  else .ok none

/-- The subtype check: the source's symbol names the target itself. -/
def declares (allSymbols : List ApexSymbol) (source target : String) : Bool :=
  match symbolNamed allSymbols source,symbolNamed allSymbols target with
  | some sourceSymbol,some _ => (sourceSymbol.superClass.map toLowerCase) = some target ||
      (sourceSymbol.interfaces.getD []).any (toLowerCase · = target)
  | _,_ => false

def isAssignable (primitives : PrimitiveTypes) (sourceType targetType : String) (context : AssignabilityContext)
    (allSymbols : List ApexSymbol) : Except String Bool :=
  let source := base (toLowerCase sourceType)
  let target := canonicalizeStandardTypeName (base (toLowerCase targetType))
  (builtInRule primitives context source target).map fun rule => rule.getD (declares allSymbols source target)

def plainName (name : String) : String := base (toLowerCase name)

/-- The first type of a name extends or implements a listed type, by a name of it. -/
def Link (allSymbols : List ApexSymbol) (x y : String) : Prop :=
  ∃ s, symbolNamed allSymbols x = some s ∧ ∃ n ∈ superNames s ++ interfaceNames s, plainName n = y ∧
    (symbolNamed allSymbols y).isSome = true

/-- One name for a type, or a name of a type that it is a subtype of by some links. -/
def IsSubtype (allSymbols : List ApexSymbol) (a b : String) : Prop :=
  Relation.ReflTransGen (Link allSymbols) (plainName a) (plainName b)

def RespectsSubtyping (primitives : PrimitiveTypes) (allSymbols : List ApexSymbol)
    (context : AssignabilityContext) (a b : String) :
    Prop :=
  IsSubtype allSymbols a b → isAssignable primitives a b context allSymbols = .ok true

/-- A built-in rule accepts the pair, or none decides and the first type of the one name gives the other without a qualifier. -/
inductive Covered (primitives : PrimitiveTypes) (allSymbols : List ApexSymbol) (context : AssignabilityContext)
    (x y : String) : Prop
  | rule (accepts : builtInRule primitives context x y = .ok (some true))
  | link (silent : builtInRule primitives context x y = .ok none) (s : ApexSymbol) (first : symbolNamed allSymbols x = some s)
      (listed : (symbolNamed allSymbols y).isSome = true)
      (plain : ∃ n ∈ s.superClass.toList ++ interfaceNames s, toLowerCase n = y)

theorem declares_iff (allSymbols : List ApexSymbol) (x y : String) : declares allSymbols x y = true ↔
    ∃ s, symbolNamed allSymbols x = some s ∧ (symbolNamed allSymbols y).isSome = true ∧
      ∃ n ∈ s.superClass.toList ++ interfaceNames s, toLowerCase n = y := by
  rw [declares]
  cases symbolNamed allSymbols x with
  | none => simp
  | some s =>
    cases symbolNamed allSymbols y with
    | none => simp
    | some t =>
      simp only [interfaceNames,Bool.or_eq_true,decide_eq_true_eq,List.any_eq_true,List.mem_append,Option.mem_toList,
        Option.some.injEq,exists_eq_left',Option.isSome_some,true_and,or_and_right,exists_or,Option.map_eq_some_iff]

theorem isAssignable_iff (primitives : PrimitiveTypes) (allSymbols : List ApexSymbol)
    (context : AssignabilityContext) (a b : String) :
    isAssignable primitives a b context allSymbols = .ok true ↔
      Covered primitives allSymbols context (plainName a) (canonicalizeStandardTypeName (plainName b)) := by
  have answer : isAssignable primitives a b context allSymbols =
      (builtInRule primitives context (plainName a) (canonicalizeStandardTypeName (plainName b))).map
        (·.getD (declares allSymbols (plainName a) (canonicalizeStandardTypeName (plainName b)))) := rfl
  rw [answer]
  generalize plainName a = x
  generalize canonicalizeStandardTypeName (plainName b) = y
  constructor
  · intro assignable
    cases ruled : builtInRule primitives context x y with
    | error e =>
      rw [ruled] at assignable
      cases assignable
    | ok rule =>
      rw [ruled] at assignable
      have accepted : rule.getD (declares allSymbols x y) = true := Except.ok.inj assignable
      cases rule with
      | some accepts =>
        obtain rfl : accepts = true := accepted
        exact .rule ruled
      | none =>
        obtain ⟨s,first,listed,plain⟩ := (declares_iff allSymbols x y).mp accepted
        exact .link ruled s first listed plain
  · rintro (accepts | ⟨silent,s,first,listed,plain⟩)
    · rw [accepts]
      rfl
    · rw [silent]
      exact congrArg Except.ok ((declares_iff allSymbols x y).mpr ⟨s,first,listed,plain⟩)

def classNamed (name : String) (superClass : Option String) : ApexSymbol :=
  { id := name,name := name,kind := .class_,location := ⟨⟨1,0,1,0⟩,⟨1,0,1,0⟩⟩,
    fileUri := "file:///" ++ name ++ ".cls",superClass := superClass }

/-- `Leaf` extends `Branch`, which extends `Root`. -/
def twoLinks : List ApexSymbol := [classNamed "Root" none,classNamed "Branch" (some "Root"),classNamed "Leaf" (some "Branch")]

end ApexLs.Validation.TypeAssignability
