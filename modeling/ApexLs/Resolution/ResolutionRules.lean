import Mathlib.Data.List.Sort
import ApexLs.Types.Symbol
import ApexLs.Utils.Runtime
import ApexLs.Utils.Text

/-! The rules that resolve the parts of a type name, and the order they are tried in. -/
namespace ApexLs.Resolution

open ApexLs.Types ApexLs.Utils

/-- A namespace descriptor; `name` is `global`, or `global__module`. -/
structure Namespace where
  global : String
  module_ : String := ""
  deriving DecidableEq, Repr

namespace Namespace

def name (n : Namespace) : String := if n.module_ = "" then n.global else n.global ++ "__" ++ n.module_

def isEmptyOrNull (n : Namespace) : Bool := n.global = "" && n.module_ = ""

end Namespace

inductive ReferenceType where
  | load | store | method | class_ | none_
  deriving DecidableEq, Repr

structure CompilationContext where
  namespace_ : Option Namespace
  version : Nat
  referencingType : ApexSymbol

/-- A provider of symbols. A rejected promise is an error. -/
structure SymbolProvider where
  find : ApexSymbol → String → Except String (Option ApexSymbol)
  findScalarKeywordType : String → Except String (Option ApexSymbol)
  findSObjectType : String → Except String (Option ApexSymbol)
  findInDefaultNamespaceOrder : String → ApexSymbol → Except String (Option ApexSymbol)
  findInImplicitFileNamespaceSlot : String → Nat → ApexSymbol → Except String (Option ApexSymbol)
  findInExplicitNamespace : String → String → ApexSymbol → Except String (Option ApexSymbol)
  isBuiltInNamespace : String → Except String Bool
  isSObjectContainerNamespace : String → Except String Bool
  findInAnyStandardNamespace : Option (String → ApexSymbol → Except String (Option ApexSymbol))

structure NamespaceResolutionContext where
  compilationContext : CompilationContext
  referenceType : ReferenceType
  nameParts : List String
  adjustedNameParts : List String

structure ResolutionRule where
  name : String
  priority : Nat
  appliesTo : NamespaceResolutionContext → Bool
  resolve : NamespaceResolutionContext → SymbolProvider → Except String (Option ApexSymbol)

structure NamespaceResolutionResult where
  symbol : Option ApexSymbol
  isResolved : Bool
  resolutionRule : Option String
  confidence : Nat
  errorMessage : Option String := none
  unresolvedNameParts : Option (List String) := none

structure TypeNameConstructionOptions where
  normalizeCase : Bool := true
  separator : String := "/"

section

variable [Runtime]

def createTypeWithNamespace (namespace_ : Namespace) (typeName : String) (options : TypeNameConstructionOptions := {}) :
    String :=
  let result := if namespace_.isEmptyOrNull then typeName
    else namespace_.name ++ (if options.separator = "" then "/" else options.separator) ++ typeName
  if options.normalizeCase then toLowerCase result else result

def isPrimaryImplicitNamespace (namespace_ : String) : Bool :=
  ["System","Schema"].any fun ns => toLowerCase (trim ns) = toLowerCase (trim namespace_)

namespace NamespaceResolutionContext

variable (context : NamespaceResolutionContext)

def onePart : Bool := context.adjustedNameParts.length = 1

def twoParts : Bool := context.adjustedNameParts.length = 2

/-- `adjustedNameParts[0]`, where there is one. -/
def firstPart : String := context.adjustedNameParts.headD ""

def secondPart : String := (context.adjustedNameParts.drop 1).headD ""

def referencingType : ApexSymbol := context.compilationContext.referencingType

end NamespaceResolutionContext

def namedScalarOrVoid : ResolutionRule where
  name := "NamedScalarOrVoid"
  priority := 1
  appliesTo context := context.onePart
  resolve context symbols := symbols.findScalarKeywordType context.firstPart

def topLevelTypeInSameNamespace : ResolutionRule where
  name := "TopLevelTypeInSameNamespace"
  priority := 6
  appliesTo context := context.onePart && context.compilationContext.namespace_.isSome
  resolve context symbols :=
    match context.compilationContext.namespace_ with
    | none => .ok none
    | some namespace_ =>
      symbols.find context.referencingType (createTypeWithNamespace namespace_ context.firstPart ⟨true,"."⟩)

def builtInSystemSchema : ResolutionRule where
  name := "BuiltInSystemSchema"
  priority := 7
  appliesTo context := context.onePart
  resolve context symbols := symbols.findInDefaultNamespaceOrder context.firstPart context.referencingType

def sObject : ResolutionRule where
  name := "SObject"
  priority := 8
  appliesTo context := context.onePart
  resolve context symbols := symbols.findSObjectType context.firstPart

def fileBaseSystemNamespace : ResolutionRule where
  name := "FileBaseSystemNamespace"
  priority := 9
  appliesTo context := context.onePart
  resolve context symbols := do
    let currentNamespace := orElse context.referencingType.namespace_
      ((context.compilationContext.namespace_.map Namespace.name).getD "")
    if currentNamespace ≠ "" && !isPrimaryImplicitNamespace currentNamespace && context.referenceType = .method then
      let found ← symbols.findInExplicitNamespace currentNamespace context.firstPart context.referencingType
      if found.isSome then return found
    symbols.findInImplicitFileNamespaceSlot context.firstPart 0 context.referencingType

def fileBaseSchemaNamespace : ResolutionRule where
  name := "FileBaseSchemaNamespace"
  priority := 10
  appliesTo context := context.onePart
  resolve context symbols := symbols.findInImplicitFileNamespaceSlot context.firstPart 1 context.referencingType

def builtInMethodNamespace : ResolutionRule where
  name := "BuiltInMethodNamespace"
  priority := 11
  appliesTo context := context.onePart && context.referenceType = .method
  resolve context symbols :=
    match symbols.findInAnyStandardNamespace with
    | some findInAnyStandardNamespace => findInAnyStandardNamespace context.firstPart context.referencingType
    | none => .ok none

def workspaceType : ResolutionRule where
  name := "WorkspaceType"
  priority := 12
  appliesTo context := context.onePart
  resolve context symbols := symbols.find context.referencingType context.firstPart

def namespaceAndTopLevelType : ResolutionRule where
  name := "NamespaceAndTopLevelType"
  priority := 4
  appliesTo context := context.twoParts
  resolve context symbols :=
    symbols.find context.referencingType (createTypeWithNamespace ⟨context.firstPart,""⟩ context.secondPart)

def builtInNamespace : ResolutionRule where
  name := "BuiltInNamespace"
  priority := 5
  appliesTo context := context.twoParts
  resolve context symbols := do
    if !(← symbols.isBuiltInNamespace context.firstPart) then return none
    symbols.findInExplicitNamespace context.firstPart context.secondPart context.referencingType

def schemaSObject : ResolutionRule where
  name := "SchemaSObject"
  priority := 6
  appliesTo context := context.twoParts
  resolve context symbols := do
    if !(← symbols.isSObjectContainerNamespace context.firstPart) then return none
    symbols.findSObjectType context.secondPart

def methodOnePartOrder : List ResolutionRule :=
  [topLevelTypeInSameNamespace,namedScalarOrVoid,builtInSystemSchema,fileBaseSystemNamespace,fileBaseSchemaNamespace,
    builtInMethodNamespace,sObject,workspaceType]

def defaultOnePartOrder : List ResolutionRule :=
  [namedScalarOrVoid,topLevelTypeInSameNamespace,builtInSystemSchema,sObject,fileBaseSystemNamespace,
    fileBaseSchemaNamespace,workspaceType]

def getTwoPartRules : List ResolutionRule :=
  [namespaceAndTopLevelType,builtInNamespace,schemaSObject].insertionSort fun a b => a.priority ≤ b.priority

def getResolutionOrder (referenceType : ReferenceType) : List ResolutionRule :=
  (if referenceType = .method then methodOnePartOrder else defaultOnePartOrder) ++ getTwoPartRules

def adjustEmptyNames (nameParts : List String) (version : Nat) : List String :=
  nameParts.filter fun part => part ≠ "" || version < 50

def validateTriggerNamespace (nameParts : List String) : Bool :=
  (nameParts.head?.filter (· ≠ "")).all fun firstPart => toLowerCase firstPart ≠ "trigger"

def createUnresolvedResult (errorMessage : String) (nameParts : List String) : NamespaceResolutionResult where
  symbol := none
  isResolved := false
  resolutionRule := none
  confidence := 0
  errorMessage := some errorMessage
  unresolvedNameParts := some nameParts

def calculateConfidence (rule : ResolutionRule) (context : NamespaceResolutionContext) : Nat :=
  let builtIn := if rule.name = "NamedScalarOrVoid" || rule.name = "BuiltInSystemSchema" then 30 else 0
  let explicit := if context.adjustedNameParts.length ≥ 2 then 20 else 0
  let sameNamespace :=
    if context.compilationContext.namespace_.isSome && rule.name = "TopLevelTypeInSameNamespace" then 20 else 0
  min (50 + builtIn + explicit + sameNamespace) 95

def validateAndNormalizeInput (nameParts : List String) (compilationContext : CompilationContext) :
    Except String (List String) :=
  let adjustedNameParts := adjustEmptyNames nameParts compilationContext.version
  if adjustedNameParts.length > 4 then
    .error ("Too many name parts: " ++ toString adjustedNameParts.length ++ " (max: 4)")
  else if !validateTriggerNamespace adjustedNameParts then
    .error "Trigger namespace cannot be used for type references"
  else .ok (adjustedNameParts.map toLowerCase)

def applyResolutionRules (context : NamespaceResolutionContext) (symbolProvider : SymbolProvider) :
    List ResolutionRule → Except String NamespaceResolutionResult
  | [] => .ok (createUnresolvedResult "No resolution rule matched" context.adjustedNameParts)
  | rule :: rules => do
    if !rule.appliesTo context then applyResolutionRules context symbolProvider rules
    else
      match ← rule.resolve context symbolProvider with
      | some symbol =>
        return { symbol := some symbol,isResolved := true,resolutionRule := some rule.name
                 confidence := calculateConfidence rule context }
      | none => applyResolutionRules context symbolProvider rules

def resolveTypeName (nameParts : List String) (compilationContext : CompilationContext) (referenceType : ReferenceType)
    (symbolProvider : SymbolProvider) : NamespaceResolutionResult :=
  match validateAndNormalizeInput nameParts compilationContext with
  | .error errorMessage => createUnresolvedResult errorMessage nameParts
  | .ok adjustedNameParts =>
    let context : NamespaceResolutionContext := ⟨compilationContext,referenceType,nameParts,adjustedNameParts⟩
    match applyResolutionRules context symbolProvider (getResolutionOrder referenceType) with
    | .ok result => result
    | .error message => createUnresolvedResult ("Resolution error: " ++ message) nameParts

end

end ApexLs.Resolution
