import Mathlib.Data.List.Infix
import ApexLs.Validation.Inheritance

/-! The lookup of the methods of a name in a class and in its superclasses, across the loaded files. -/
namespace ApexLs.Validation.MethodResolutionValidator

open ApexLs.Collections ApexLs.Types ApexLs.Utils

structure SymbolManager where
  loaded : List ApexSymbol

def isMethodSymbol (s : ApexSymbol) : Bool := s.kind = .method

def isClassOrInterfaceSymbol (s : ApexSymbol) : Bool := s.kind = .class_ || s.kind = .interface

namespace SymbolManager

def findSymbolByName [Runtime] (manager : SymbolManager) (name : String) : List ApexSymbol :=
  manager.loaded.filter fun s => toLowerCase s.name = toLowerCase name

def findSymbolsInFile (manager : SymbolManager) (fileUri : String) : List ApexSymbol :=
  manager.loaded.filter fun s => s.fileUri = fileUri

def getSymbol (manager : SymbolManager) (id : String) : Option ApexSymbol := manager.loaded.find? fun s => s.id = id

end SymbolManager

def parentKey (s : ApexSymbol) : Option String :=
  match s.parentId with
  | .of id => if id = "" then none else some id
  | .undefined | .null => none

section

variable (manager : SymbolManager) (allSymbols : List ApexSymbol)

def resolveParent (id : String) : Option ApexSymbol := (allSymbols.find? fun s => s.id = id).or (manager.getSymbol id)

/-- The walk from a method ends at a class or an interface, or goes on to the parent. -/
def upward (current : ApexSymbol) : Option (ApexSymbol ⊕ ApexSymbol) :=
  if isClassOrInterfaceSymbol current then some (.inl current)
  else ((parentKey current).bind (resolveParent manager allSymbols)).map .inr

/-- The loop of `findMethodsInClass`, with its `visited` set. -/
def declaringClass (method : ApexSymbol) : Option ApexSymbol :=
  guardedWalk ApexSymbol.id (upward manager allSymbols) (allSymbols.length + manager.loaded.length + 2) [] method

def sameType (classSymbol s : ApexSymbol) : Bool := s.name = classSymbol.name && s.fileUri = classSymbol.fileUri

def parentBlock (method : ApexSymbol) : Option ApexSymbol :=
  (allSymbols.find? fun s => .of s.id = method.parentId).or
    (((parentKey method).bind manager.getSymbol).filter ApexSymbol.isBlockSymbol)

def blockParent (block : ApexSymbol) : Option ApexSymbol :=
  (allSymbols.find? fun s => .of s.id = block.parentId).or
    (((parentKey block).bind manager.getSymbol).filter isClassOrInterfaceSymbol)

/-- Whether `findMethodsInClass` takes the method for one of the class. -/
def attributed (classSymbol method : ApexSymbol) : Bool :=
  (declaringClass manager allSymbols method).any (sameType classSymbol) || method.parentId = .of classSymbol.id ||
    (parentBlock manager allSymbols method).any fun block => block.isBlockSymbol &&
      ((blockParent manager allSymbols block).any (fun s => isClassOrInterfaceSymbol s && sameType classSymbol s) ||
        block.parentId = .of classSymbol.id)

def methodsInFile (classSymbol : ApexSymbol) : List ApexSymbol :=
  if classSymbol.fileUri = "" then []
  else
    let methodsInFile := allSymbols.filter fun s => isMethodSymbol s && s.fileUri = classSymbol.fileUri
    if methodsInFile.isEmpty && "apexlib://".toList.isPrefixOf classSymbol.fileUri.toList then
      (manager.findSymbolsInFile classSymbol.fileUri).filter isMethodSymbol
    else methodsInFile

def findMethodsInClass (classSymbol : ApexSymbol) : List ApexSymbol :=
  (methodsInFile manager allSymbols classSymbol).filter (attributed manager allSymbols classSymbol)

end

section

variable [Runtime] (manager : SymbolManager)

def superclassNamed (superClassName : String) : Option ApexSymbol :=
  (manager.findSymbolByName superClassName).find? isClassOrInterfaceSymbol

def symbolsOfFile (classSymbol : ApexSymbol) : List ApexSymbol :=
  if classSymbol.fileUri = "" then [] else manager.findSymbolsInFile classSymbol.fileUri

/-- The recursion, in so many classes at most. -/
def findMethodsInSuperclass (methodName : String) : Nat → String → Option (List ApexSymbol)
  | 0,superClassName => if (superclassNamed manager superClassName).isNone then some [] else none
  | classes + 1,superClassName =>
    match superclassNamed manager superClassName with
    | none => some []
    | some superClassSymbol =>
      let superClassMethods := findMethodsInClass manager (symbolsOfFile manager superClassSymbol) superClassSymbol
      let matchingMethods := superClassMethods.filter fun m => m.name = methodName
      match superClassSymbol.superClass.filter (· ≠ "") with
      | none => some matchingMethods
      | some further => (findMethodsInSuperclass methodName classes further).map (matchingMethods ++ ·)

def symbolsForClass (allSymbols : List ApexSymbol) (classSymbol : ApexSymbol) : List ApexSymbol :=
  if classSymbol.fileUri ≠ "" && !allSymbols.any (fun s => s.fileUri = classSymbol.fileUri) then
    manager.findSymbolsInFile classSymbol.fileUri
  else allSymbols

def findMethodsInHierarchy (classes : Nat) (classSymbol : ApexSymbol) (methodName : String)
    (allSymbols : List ApexSymbol) : Option (List ApexSymbol) :=
  let classMethods := findMethodsInClass manager (symbolsForClass manager allSymbols classSymbol) classSymbol
  let matchingMethods := classMethods.filter fun m => m.name = methodName
  match classSymbol.superClass.filter (· ≠ "") with
  | none => some matchingMethods
  | some superClass => (findMethodsInSuperclass manager methodName classes superClass).map (matchingMethods ++ ·)

/-- The first check of `validate` for a call, with the length of its `chainNodes`. -/
def checkMethodExists (localizeTyped : Localizer) (classes : Nat) (targetClass : ApexSymbol) (methodName : String)
    (chainNodes : Nat) (callLocation : SymbolLocation) (allSymbols : List ApexSymbol) : Option (List ValidationInfo) :=
  (findMethodsInHierarchy manager classes targetClass methodName allSymbols).map fun candidateMethods =>
    if candidateMethods.isEmpty && !(chainNodes > 1) then
      [reported localizeTyped "invalid.method.not.found" [methodName,targetClass.name] callLocation]
    else []

/-- A class of the hierarchy with the symbols that its methods are looked up in. -/
structure Level where
  classSymbol : ApexSymbol
  symbols : List ApexSymbol

def superLevel (l : Level) : Option Level :=
  ((l.classSymbol.superClass.filter (· ≠ "")).bind (superclassNamed manager)).map fun c => ⟨c,symbolsOfFile manager c⟩

def startLevel (allSymbols : List ApexSymbol) (classSymbol : ApexSymbol) : Level :=
  ⟨classSymbol,symbolsForClass manager allSymbols classSymbol⟩

def Above (start l : Level) : Prop := Relation.ReflTransGen (fun a b => superLevel manager a = some b) start l

/-- The method is declared by the class: walking up from it, the first class met has its id. -/
def Declares (l : Level) (method : ApexSymbol) : Prop :=
  method ∈ methodsInFile manager l.symbols l.classSymbol ∧
    ∃ c, declaringClass manager l.symbols method = some c ∧ c.id = l.classSymbol.id

/-- Methods of the name, in any letter case, declared in the hierarchy. -/
def Inherits (start : Level) (methodName : String) (method : ApexSymbol) : Prop :=
  (∃ l, Above manager start l ∧ Declares manager l method) ∧ toLowerCase method.name = toLowerCase methodName

/-- Methods that the lookup takes for methods of a class of the hierarchy. -/
def Attributes (start : Level) (method : ApexSymbol) : Prop :=
  ∃ l, Above manager start l ∧ method ∈ findMethodsInClass manager l.symbols l.classSymbol

end

/-- The names of the methods written otherwise. -/
def respellSymbol (respell : String → String) (s : ApexSymbol) : ApexSymbol :=
  if isMethodSymbol s then { s with name := respell s.name } else s

def SymbolManager.respelled (manager : SymbolManager) (respell : String → String) : SymbolManager :=
  ⟨manager.loaded.map (respellSymbol respell)⟩

/-- A lookup: the class, the method, how many chain nodes the call has, and the symbols around. -/
structure Lookup where
  manager : SymbolManager
  allSymbols : List ApexSymbol
  targetClass : ApexSymbol
  methodName : String
  chainNodes : Nat

namespace Lookup

variable [Runtime]

def find (q : Lookup) (classes : Nat) : Option (List ApexSymbol) :=
  findMethodsInHierarchy q.manager classes q.targetClass q.methodName q.allSymbols

def check (q : Lookup) (localizeTyped : Localizer) (callLocation : SymbolLocation) (classes : Nat) :
    Option (List ValidationInfo) :=
  checkMethodExists q.manager localizeTyped classes q.targetClass q.methodName q.chainNodes callLocation q.allSymbols

def start (q : Lookup) : Level := startLevel q.manager q.allSymbols q.targetClass

def Reported (q : Lookup) : Prop :=
  ∃ classes, q.check (fun code _ => code) default classes ≠ none ∧ q.check (fun code _ => code) default classes ≠ some []

/-- The lookup ends, with the methods of the name in any letter case, and reports that there is none. -/
structure Finds (q : Lookup) : Prop where
  ends : ∃ classes, (q.find classes).isSome
  exact_ : ∀ classes found, q.find classes = some found → ∀ m, m ∈ found ↔ Inherits q.manager q.start q.methodName m
  reports : ∀ localizeTyped callLocation classes errors, q.check localizeTyped callLocation classes = some errors →
    (errors ≠ [] ↔ ¬ ∃ m, Inherits q.manager q.start q.methodName m)

/-- The superclasses end; the methods of the name are spelled as in the call and taken for methods of
the hierarchy, and no other is; a call behind a receiver has one. -/
structure Plain (q : Lookup) : Prop where
  straight : ¬ Loops (superLevel q.manager) (fun _ => false) q.start
  spelled : ∀ m, Inherits q.manager q.start q.methodName m → m.name = q.methodName ∧ Attributes q.manager q.start m
  owned : ∀ m, Attributes q.manager q.start m → m.name = q.methodName → Inherits q.manager q.start q.methodName m
  qualified : 1 < q.chainNodes → ∃ m, Inherits q.manager q.start q.methodName m

def respelled (q : Lookup) (respell : String → String) (methodName : String) : Lookup :=
  { q with
    manager := q.manager.respelled respell
    allSymbols := q.allSymbols.map (respellSymbol respell)
    methodName := methodName }

/-- The verdict is the same in any spelling of the declarations and of the call. -/
def Steady (q : Lookup) : Prop :=
  ∀ respell methodName, (∀ n, toLowerCase (respell n) = toLowerCase n) →
    toLowerCase methodName = toLowerCase q.methodName → ((q.respelled respell methodName).Reported ↔ q.Reported)

end Lookup

end ApexLs.Validation.MethodResolutionValidator
