import ApexLs.Types.SymbolTable

/-! The standard library as messages. A file becomes the message of its top-level type, which carries
the members, the inner types and the blocks found in the flat list of the file's symbols. -/
namespace ApexLs.Cache

open ApexLs.Types

/-! The messages. -/

structure ProtoTypeReference where
  name : String
  originalTypeString : String
  isArray : Bool
  isCollection : Bool
  isPrimitive : Bool
  typeParameters : List ProtoTypeReference := []
  keyType : Option ProtoTypeReference := none
  namespace_ : String := ""
  deriving Repr, Inhabited

inductive Visibility where
  | unspecified | public_ | private_ | protected_ | global | default
  deriving DecidableEq, Repr, Inhabited

structure ProtoModifiers where
  visibility : Visibility
  isStatic : Bool
  isFinal : Bool
  isAbstract : Bool
  isVirtual : Bool
  isOverride : Bool
  isTransient : Bool
  isTestMethod : Bool
  isWebService : Bool
  deriving DecidableEq, Repr, Inhabited

structure ProtoSymbolLocation where
  symbolRange : Option Range
  identifierRange : Option Range
  deriving DecidableEq, Repr, Inhabited

structure ProtoAnnotationParameter where
  name : String
  value : String
  deriving DecidableEq, Repr, Inhabited

structure ProtoAnnotation where
  name : String
  location : Option ProtoSymbolLocation
  parameters : List ProtoAnnotationParameter
  deriving DecidableEq, Repr, Inhabited

structure ProtoParameterSymbol where
  id : String
  name : String
  type : Option ProtoTypeReference
  location : Option ProtoSymbolLocation
  modifiers : Option ProtoModifiers
  parentId : String
  deriving Repr, Inhabited

structure ProtoMethodSymbol where
  id : String
  name : String
  isConstructor : Bool
  returnType : Option ProtoTypeReference
  parameters : List ProtoParameterSymbol
  location : Option ProtoSymbolLocation
  modifiers : Option ProtoModifiers
  annotations : List ProtoAnnotation
  parentId : String
  hasBody : Bool
  fqn : String
  fileUri : String
  deriving Repr, Inhabited

inductive VariableKind where
  | unspecified | field | property | parameter | variable | enumValue
  deriving DecidableEq, Repr, Inhabited

structure ProtoVariableSymbol where
  id : String
  name : String
  kind : VariableKind
  type : Option ProtoTypeReference
  initialValue : String
  location : Option ProtoSymbolLocation
  modifiers : Option ProtoModifiers
  parentId : String
  initializerType : Option ProtoTypeReference
  fqn : String
  fileUri : String
  deriving Repr, Inhabited

structure ProtoBlockSymbol where
  id : String
  name : String
  scopeType : Option ScopeType
  location : Option ProtoSymbolLocation
  parentId : String
  fileUri : String
  deriving Repr, Inhabited

inductive TypeKind where
  | unspecified | class_ | interface | enum | trigger
  deriving DecidableEq, Repr, Inhabited

structure ProtoTypeSymbol where
  id : String
  name : String
  kind : TypeKind
  fqn : String
  location : Option ProtoSymbolLocation
  modifiers : Option ProtoModifiers
  superClass : String
  interfaces : List String
  annotations : List ProtoAnnotation
  methods : List ProtoMethodSymbol
  fields : List ProtoVariableSymbol
  properties : List ProtoVariableSymbol
  innerTypes : List ProtoTypeSymbol
  enumValues : List ProtoVariableSymbol
  fileUri : String
  parentId : String
  blocks : List ProtoBlockSymbol
  deriving Repr, Inhabited

def parentText : ParentId → String
  | .of id => id
  | .undefined => ""
  | .null => ""

namespace StandardLibrarySerializer

def isTypeSymbol (symbol : ApexSymbol) : Bool :=
  symbol.kind = .class_ || symbol.kind = .interface || symbol.kind = .enum || symbol.kind = .trigger

def convertVisibility : SymbolVisibility → Visibility
  | .public_ => .public_
  | .private_ => .private_
  | .protected_ => .protected_
  | .global => .global
  | .default => .default

def convertTypeKind : SymbolKind → TypeKind
  | .class_ => .class_
  | .interface => .interface
  | .enum => .enum
  | .trigger => .trigger
  | _ => .unspecified

def convertVariableKind : SymbolKind → VariableKind
  | .field => .field
  | .property => .property
  | .parameter => .parameter
  | .variable => .variable
  | .enumValue => .enumValue
  | _ => .unspecified

def convertModifiers (modifiers : SymbolModifiers) : ProtoModifiers where
  visibility := convertVisibility modifiers.visibility
  isStatic := modifiers.isStatic
  isFinal := modifiers.isFinal
  isAbstract := modifiers.isAbstract
  isVirtual := modifiers.isVirtual
  isOverride := modifiers.isOverride
  isTransient := modifiers.isTransient
  isTestMethod := modifiers.isTestMethod
  isWebService := modifiers.isWebService

def convertLocation (location : SymbolLocation) : ProtoSymbolLocation :=
  ⟨some location.symbolRange,some location.identifierRange⟩

def convertAnnotations (annotations : List Annotation) : List ProtoAnnotation :=
  annotations.map (fun ann => ⟨ann.name,some (convertLocation ann.location),
    ann.parameters.map (fun p => ⟨orElse p.name "",p.value⟩)⟩)

mutual

def convertTypeInfo : TypeInfo → ProtoTypeReference
  | .mk name originalTypeString isArray isCollection isPrimitive typeParameters keyType namespace_ =>
    { name,originalTypeString,isArray,isCollection,isPrimitive
      typeParameters := convertTypeInfos typeParameters
      keyType := convertKeyType keyType
      namespace_ := namespace_.getD "" }

def convertTypeInfos : List TypeInfo → List ProtoTypeReference
  | [] => []
  | t :: ts => convertTypeInfo t :: convertTypeInfos ts

def convertKeyType : Option TypeInfo → Option ProtoTypeReference
  | none => none
  | some t => some (convertTypeInfo t)

end

/-- `convertTypeReference`: no type is `void`. -/
def convertTypeReference : Option TypeInfo → ProtoTypeReference
  | none => { name := "void",originalTypeString := "void",isArray := false,isCollection := false,isPrimitive := true }
  | some typeInfo => convertTypeInfo typeInfo

def convertParameterSymbol (param : ParameterSymbol) : ProtoParameterSymbol where
  id := param.id
  name := param.name
  type := some (convertTypeReference param.type)
  location := some (convertLocation param.location)
  modifiers := some (convertModifiers param.modifiers)
  parentId := parentText param.parentId

def convertMethodSymbol (symbol : ApexSymbol) : ProtoMethodSymbol where
  id := symbol.id
  name := symbol.name
  isConstructor := symbol.isConstructor.getD false || symbol.kind = .constructor
  returnType := some (convertTypeReference symbol.returnType)
  parameters := (symbol.parameters.getD []).map convertParameterSymbol
  location := some (convertLocation symbol.location)
  modifiers := some (convertModifiers symbol.modifiers)
  annotations := convertAnnotations (symbol.annotations.getD [])
  parentId := parentText symbol.parentId
  hasBody := symbol.hasBody.getD true
  fqn := orElse symbol.fqn ""
  fileUri := symbol.fileUri

def convertVariableSymbol (symbol : ApexSymbol) : ProtoVariableSymbol where
  id := symbol.id
  name := symbol.name
  kind := convertVariableKind symbol.kind
  type := some (convertTypeReference symbol.type)
  initialValue := orElse symbol.initialValue ""
  location := some (convertLocation symbol.location)
  modifiers := some (convertModifiers symbol.modifiers)
  parentId := parentText symbol.parentId
  initializerType := symbol.initializerType.map (fun type => convertTypeReference (some type))
  fqn := orElse symbol.fqn ""
  fileUri := symbol.fileUri

def convertBlockSymbol (symbol : ApexSymbol) : ProtoBlockSymbol where
  id := symbol.id
  name := symbol.name
  scopeType := symbol.scopeType
  location := some (convertLocation symbol.location)
  parentId := parentText symbol.parentId
  fileUri := symbol.fileUri

section

variable (allSymbols : List ApexSymbol)

/-- `allSymbols.find((s) => s.id === id)` -/
def findById (id : String) : Option ApexSymbol := allSymbols.find? (fun s => s.id = id)

/-- `isChildOf`: the parent is the type, or a block whose parent is the type. -/
def isChildOf (child parent : ApexSymbol) : Bool :=
  let parentId := parentText child.parentId
  if parentId = "" then false
  else if parentId = parent.id then true
  else (findById allSymbols parentId).any (fun p => p.kind = .block && p.parentId = .of parent.id)

/-- The loop of `isInTypeHierarchy`. A turn leaves one more id in `visited`, so there are no more turns than symbols. -/
def leadsToType (typeId : String) : Nat → List String → ApexSymbol → Bool
  | 0,_,_ => false
  | turns + 1,visited,current =>
    if current.id ∈ visited then false
    else if current.id = typeId then true
    else if parentText current.parentId = "" then false
    else (findById allSymbols (parentText current.parentId)).any (leadsToType typeId turns (current.id :: visited))

def isInTypeHierarchy (blockSymbol : ApexSymbol) (typeId : String) : Bool :=
  leadsToType allSymbols typeId (allSymbols.length + 1) [] blockSymbol

def blocksOf (symbol : ApexSymbol) : List ApexSymbol :=
  allSymbols.filter (fun sym => sym.isBlockSymbol && isInTypeHierarchy allSymbols sym symbol.id)

def childrenOf (picks : ApexSymbol → Bool) (symbol : ApexSymbol) : List ApexSymbol :=
  allSymbols.filter (fun child => isChildOf allSymbols child symbol && picks child)

/-- `convertTypeSymbol`, to a depth of the nesting: an inner type is converted as its outer one is. -/
def convertTypeSymbol (namespace_ : String) : Nat → ApexSymbol → Option ProtoTypeSymbol
  | 0,_ => none
  | depth + 1,symbol =>
    ((childrenOf allSymbols isTypeSymbol symbol).mapM (convertTypeSymbol namespace_ depth)).map fun innerTypes =>
      { id := symbol.id
        name := symbol.name
        kind := convertTypeKind symbol.kind
        fqn := orElse symbol.fqn (namespace_ ++ "." ++ symbol.name)
        location := some (convertLocation symbol.location)
        modifiers := some (convertModifiers symbol.modifiers)
        superClass := orElse symbol.superClass ""
        interfaces := symbol.interfaces.getD []
        annotations := convertAnnotations (symbol.annotations.getD [])
        methods := (childrenOf allSymbols ApexSymbol.isMethodOrConstructorSymbol symbol).map convertMethodSymbol
        fields := (childrenOf allSymbols (fun child => child.kind = .field) symbol).map convertVariableSymbol
        properties := (childrenOf allSymbols (fun child => child.kind = .property) symbol).map convertVariableSymbol
        innerTypes := innerTypes
        enumValues := (childrenOf allSymbols (fun child => child.kind = .enumValue) symbol).map convertVariableSymbol
        fileUri := symbol.fileUri
        parentId := parentText symbol.parentId
        blocks := (blocksOf allSymbols symbol).map convertBlockSymbol }

def extractTypeSymbols (namespace_ : String) (depth : Nat) : Option (List ProtoTypeSymbol) :=
  (allSymbols.filter (fun symbol => isTypeSymbol symbol && symbol.parentId = .null)).mapM
    (convertTypeSymbol allSymbols namespace_ depth)

end
end StandardLibrarySerializer
end ApexLs.Cache
