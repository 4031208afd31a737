import ApexLs.Collections.ChainSearch
import ApexLs.Validation.MethodLookup

/-! Which methods a call may use, by their access modifiers and the static context of the call. The
loops that walk up parents and superclasses keep no record of where they have been. -/
namespace ApexLs.Validation.MethodResolutionValidator

open ApexLs.Collections ApexLs.Types ApexLs.Utils

section

variable (allSymbols : List ApexSymbol) (containingClass : ApexSymbol)

def classBlock : Option ApexSymbol :=
  allSymbols.find? fun s => s.isBlockSymbol && s.scopeType = some .class_ && s.parentId = .of containingClass.id

def allMethodsInClass : List ApexSymbol :=
  let classBlockId := (classBlock allSymbols containingClass).elim ParentId.undefined fun block => .of block.id
  allSymbols.filter fun s => isMethodSymbol s && (s.parentId = classBlockId || s.parentId = .of containingClass.id)

def methodStartLine (s : ApexSymbol) : Nat := s.location.identifierRange.startLine

/-- Whether the call is in the method. A location that covers the name alone reaches down to the next method. -/
def containsCall (methods : List ApexSymbol) (callLine : Nat) (s : ApexSymbol) : Bool :=
  let methodEndLine := s.location.identifierRange.endLine
  if methodEndLine = 0 || methodEndLine = methodStartLine s then
    let hasMethodBetween := methods.any fun otherMethod => otherMethod.id ≠ s.id &&
      methodStartLine s < methodStartLine otherMethod && methodStartLine otherMethod ≤ callLine
    methodStartLine s ≤ callLine && !hasMethodBetween
  else methodStartLine s ≤ callLine && callLine ≤ methodEndLine

def containingMethod (callLine : Nat) : Option ApexSymbol :=
  let methods := allMethodsInClass allSymbols containingClass
  ((methods.filter (containsCall methods callLine)).mergeSort fun a b => methodStartLine b ≤ methodStartLine a).head?

def isStaticCall (isStatic : Option Bool) (callLocation : SymbolLocation) : Bool :=
  isStatic.getD false ||
    (containingMethod allSymbols containingClass callLocation.identifierRange.startLine).any fun s => s.modifiers.isStatic

end

section

variable [Runtime]

def hasAnnotation (symbol : ApexSymbol) (annotationName : String) : Bool :=
  (symbol.annotations.getD []).any fun annotation => toLowerCase annotation.name = toLowerCase annotationName

def isTestClass (symbol : ApexSymbol) : Bool := hasAnnotation symbol "isTest"

end

section

variable (manager : SymbolManager) (allSymbols : List ApexSymbol)

def parentOf (s : ApexSymbol) : Option ApexSymbol := (parentKey s).bind (resolveParent manager allSymbols)

/-- The loop of `findDeclaringClass`, in so many rounds at most. -/
def findDeclaringClass : Nat → ApexSymbol → Option (Option ApexSymbol)
  | 0,_ => none
  | rounds + 1,current =>
    if isClassOrInterfaceSymbol current then some (some current)
    else
      match parentOf manager allSymbols current with
      | none => some none
      | some parent =>
        if isClassOrInterfaceSymbol parent then some (some parent)
        else
          let grandParent := if parent.isBlockSymbol then parentOf manager allSymbols parent else none
          match grandParent.filter isClassOrInterfaceSymbol with
          | some class_ => some (some class_)
          | none => findDeclaringClass rounds parent

def getEnclosingClass (typeSymbol : ApexSymbol) : Option ApexSymbol :=
  (parentOf manager allSymbols typeSymbol).bind fun parent =>
    if isClassOrInterfaceSymbol parent then some parent
    else if parent.isBlockSymbol && parent.scopeType = some .class_ then
      (parentOf manager allSymbols parent).filter isClassOrInterfaceSymbol
    else none

variable [Runtime]

/-- The loop of `isInTestContext`, in so many rounds at most. -/
def isInTestContext : Nat → ApexSymbol → Option Bool
  | 0,_ => none
  | rounds + 1,current =>
    if isTestClass current then some true
    else
      match getEnclosingClass manager allSymbols current with
      | none => some false
      | some enclosing => isInTestContext rounds enclosing

def superclassOf (childClass : ApexSymbol) : Option ApexSymbol :=
  (childClass.superClass.filter (· ≠ "")).bind (superclassNamed manager)

/-- The recursion of `isSubclassOf`, in so many calls at most. -/
def isSubclassOf (parentClass : ApexSymbol) : Nat → ApexSymbol → Option Bool
  | 0,_ => none
  | calls + 1,childClass =>
    if childClass.superClass = some parentClass.name then some true
    else
      match superclassOf manager childClass with
      | none => some false
      | some superClassSymbol => isSubclassOf parentClass calls superClassSymbol

def testVisible (method callingClass : ApexSymbol) (rounds : Nat) : Option Bool :=
  if hasAnnotation method "TestVisible" then isInTestContext manager allSymbols rounds callingClass else some false

def protectedVisible (method callingClass declaringClass : ApexSymbol) (rounds : Nat) : Option Bool :=
  (isSubclassOf manager declaringClass rounds callingClass).bind fun extends_ =>
    if extends_ then some true
    else if (getEnclosingClass manager allSymbols callingClass).any fun enclosing => enclosing.id = declaringClass.id then
      some true
    else testVisible manager allSymbols method callingClass rounds

def restrictedVisible (method callingClass : ApexSymbol) (declaringClass : Option ApexSymbol) (rounds : Nat) : Option Bool :=
  match declaringClass with
  | none => some true
  | some declaringClass =>
    if declaringClass.id = callingClass.id then some true
    else if method.modifiers.visibility = .protected_ then
      protectedVisible manager allSymbols method callingClass declaringClass rounds
    else testVisible manager allSymbols method callingClass rounds

def isMethodVisible (method callingClass : ApexSymbol) (isStaticContext : Bool) (rounds : Nat) : Option Bool :=
  if method.modifiers.isStatic && !isStaticContext then some false
  else if method.modifiers.visibility = .public_ || method.modifiers.visibility = .global then some true
  else (findDeclaringClass manager allSymbols rounds method).bind fun declaringClass =>
    restrictedVisible manager allSymbols method callingClass declaringClass rounds

end

end ApexLs.Validation.MethodResolutionValidator
