import ApexLs.Cache.StdlibSerializer

/-! Symbol tables from messages. Every symbol of a message becomes a new object, which keeps the id it
was serialized under, and is added to the table of the file. -/
namespace ApexLs.Cache

open ApexLs.Utils ApexLs.Types ApexLs.Collections

def parentOr (text : String) (fallback : ParentId) : ParentId := if text = "" then fallback else .of text

structure Hydration where
  heap : Heap
  table : SymbolTable
  next : Nat

namespace Hydration

def addSymbol [Runtime] (s : Hydration) (symbol : ApexSymbol) : Hydration :=
  let added := s.table.addSymbol (s.heap.put (.declared s.next) symbol) (.declared s.next)
  ⟨added.1,added.2,s.next + 1⟩

def addSymbols [Runtime] (s : Hydration) (symbols : List ApexSymbol) : Hydration := symbols.foldl addSymbol s

def new (fileUri : String) : Hydration where
  heap := fun _ => default
  table := ({} : SymbolTable).setMetadata ⟨fileUri,1,some false,.complete⟩
  next := 0

def getAllSymbols (s : Hydration) : List ApexSymbol := s.table.getAllSymbols.map s.heap

end Hydration

namespace StandardLibraryDeserializer

def convertVisibility : Visibility → SymbolVisibility
  | .public_ => .public_
  | .private_ => .private_
  | .protected_ => .protected_
  | .global => .global
  | .default => .default
  | .unspecified => .default

def convertTypeKind : TypeKind → SymbolKind
  | .class_ => .class_
  | .interface => .interface
  | .enum => .enum
  | .trigger => .trigger
  | .unspecified => .class_

def convertVariableKind : VariableKind → SymbolKind
  | .field => .field
  | .property => .property
  | .parameter => .parameter
  | .variable => .variable
  | .enumValue => .enumValue
  | .unspecified => .variable

def createDefaultModifiers : SymbolModifiers := {}

def convertModifiers : Option ProtoModifiers → SymbolModifiers
  | none => createDefaultModifiers
  | some proto =>
    { visibility := convertVisibility proto.visibility
      isStatic := proto.isStatic
      isFinal := proto.isFinal
      isAbstract := proto.isAbstract
      isVirtual := proto.isVirtual
      isOverride := proto.isOverride
      isTransient := proto.isTransient
      isTestMethod := proto.isTestMethod
      isWebService := proto.isWebService
      isBuiltIn := false }

def convertRange (proto : Option Range) : Range := proto.getD ⟨1,0,1,0⟩

def createDefaultLocation : SymbolLocation := ⟨⟨1,0,1,0⟩,⟨1,0,1,0⟩⟩

def convertLocation : Option ProtoSymbolLocation → SymbolLocation
  | none => createDefaultLocation
  | some proto => ⟨convertRange proto.symbolRange,convertRange proto.identifierRange⟩

def convertAnnotations (protos : List ProtoAnnotation) : List Annotation :=
  protos.map (fun ann => ⟨ann.name,convertLocation ann.location,
    ann.parameters.map (fun p => ⟨if p.name = "" then none else some p.name,p.value⟩)⟩)

mutual

def convertTypeInfo (proto : ProtoTypeReference) : TypeInfo :=
  match proto with
  | { name,originalTypeString,isArray,isCollection,isPrimitive,typeParameters,keyType,namespace_ := _ } =>
    .mk name originalTypeString isArray isCollection isPrimitive (convertTypeInfos typeParameters) (convertKeyType keyType) none
  termination_by structural proto

def convertTypeInfos : List ProtoTypeReference → List TypeInfo
  | [] => []
  | proto :: protos => convertTypeInfo proto :: convertTypeInfos protos
  termination_by structural protos => protos

def convertKeyType : Option ProtoTypeReference → Option TypeInfo
  | none => none
  | some proto => some (convertTypeInfo proto)
  termination_by structural proto => proto

end

def createVoidType : TypeInfo := .simple "void"

def convertTypeReference : Option ProtoTypeReference → TypeInfo
  | none => createVoidType
  | some proto => convertTypeInfo proto

/-- `symbol.id = proto.id`, in the key too, where the message has an id. -/
def preserveId (protoId : String) (symbol : ApexSymbol) : ApexSymbol :=
  if protoId = "" then symbol
  else { symbol with id := protoId,key := { symbol.key with unifiedId := some protoId } }

def createBlockSymbol [Runtime] (name : String) (scopeType : Option ScopeType) (location : SymbolLocation)
    (fileUri : String) (parentId : ParentId) : ApexSymbol :=
  let blockLocation : SymbolLocation := ⟨location.symbolRange,location.symbolRange⟩
  let id := generateSymbolId name fileUri [] "block"
  { id := id
    name := name
    kind := .block
    location := blockLocation
    fileUri := fileUri
    parentId := parentId
    key := { keyPrefix := "block",name := name,path := [fileUri,name],unifiedId := some id,
             fileUri := some fileUri,kind := some .block }
    modifiers := {}
    scopeType := scopeType }

section

variable [Runtime]

def convertParameterToVariableSymbol (proto : ProtoParameterSymbol) (parentId : String) : ApexSymbol :=
  { preserveId proto.id (createFullSymbol proto.name .parameter (convertLocation proto.location) ""
      (convertModifiers proto.modifiers) (parentOr proto.parentId (.of parentId))) with
    type := some (convertTypeReference proto.type) }

def heldByMethod (param : ApexSymbol) : ParameterSymbol where
  id := param.id
  name := param.name
  type := param.type
  location := param.location
  modifiers := param.modifiers
  parentId := param.parentId

def convertMethodSymbol (proto : ProtoMethodSymbol) (parentId namespace_ : String) : ApexSymbol :=
  let kind := if proto.isConstructor then SymbolKind.constructor else .method
  let symbol := preserveId proto.id (createFullSymbol proto.name kind (convertLocation proto.location) proto.fileUri
    (convertModifiers proto.modifiers) (parentOr proto.parentId (.of parentId))
    (if proto.fqn = "" then none else some proto.fqn) (some namespace_) (some (convertAnnotations proto.annotations)))
  { symbol with
    returnType := some (convertTypeReference proto.returnType)
    parameters := some (proto.parameters.map (fun p => heldByMethod (convertParameterToVariableSymbol p symbol.id)))
    isConstructor := some proto.isConstructor
    hasBody := some proto.hasBody }

def convertVariableSymbol (proto : ProtoVariableSymbol) (parentId namespace_ : String) : ApexSymbol :=
  { preserveId proto.id (createFullSymbol proto.name (convertVariableKind proto.kind) (convertLocation proto.location)
      proto.fileUri (convertModifiers proto.modifiers) (parentOr proto.parentId (.of parentId))
      (if proto.fqn = "" then none else some proto.fqn) (some namespace_)) with
    type := some (convertTypeReference proto.type)
    initialValue := if proto.initialValue = "" then none else some proto.initialValue
    initializerType := proto.initializerType.map (fun type => convertTypeReference (some type)) }

def convertBlockSymbol (proto : ProtoBlockSymbol) (namespace_ : String) : ApexSymbol :=
  let blockSymbol := preserveId proto.id (createBlockSymbol proto.name proto.scopeType (convertLocation proto.location)
    proto.fileUri (parentOr proto.parentId .null))
  if namespace_ = "" then blockSymbol else { blockSymbol with namespace_ := some namespace_ }

/-- `convertTypeSymbol`: the parent that is handed down goes before the serialized one. -/
def convertTypeSymbol (proto : ProtoTypeSymbol) (parentId : Option String) (namespace_ : String) : ApexSymbol :=
  { preserveId proto.id (createFullSymbol proto.name (convertTypeKind proto.kind) (convertLocation proto.location)
      proto.fileUri (convertModifiers proto.modifiers) (parentOr (parentId.getD "") (parentOr proto.parentId .null))
      (some proto.fqn) (some namespace_) (some (convertAnnotations proto.annotations))) with
    superClass := if proto.superClass = "" then none else some proto.superClass
    interfaces := some proto.interfaces }

end

section

variable [Runtime]

/-- The fields, properties and enum values, which follow the methods. -/
def addVariables (s : Hydration) (protoType : ProtoTypeSymbol) (typeId namespace_ : String) : Hydration :=
  let s := s.addSymbols (protoType.fields.map (fun p => convertVariableSymbol p typeId namespace_))
  let s := s.addSymbols (protoType.properties.map (fun p => convertVariableSymbol p typeId namespace_))
  s.addSymbols (protoType.enumValues.map (fun p => convertVariableSymbol p typeId namespace_))

def addBlocks (s : Hydration) (protoType : ProtoTypeSymbol) (namespace_ : String) : Hydration :=
  s.addSymbols (protoType.blocks.map (fun p => convertBlockSymbol p namespace_))

mutual

/-- `addInnerTypeToSymbolTable`: the methods come without their parameters. -/
def addInnerTypeToSymbolTable (s : Hydration) (protoType : ProtoTypeSymbol) (parentId namespace_ : String) : Hydration :=
  match protoType with
  | { innerTypes,.. } =>
    let typeSymbol := convertTypeSymbol protoType (some parentId) namespace_
    let s := addBlocks (s.addSymbol typeSymbol) protoType namespace_
    let s := s.addSymbols (protoType.methods.map (fun p => convertMethodSymbol p typeSymbol.id namespace_))
    addInnerTypes (addVariables s protoType typeSymbol.id namespace_) innerTypes typeSymbol.id namespace_
  termination_by structural protoType

def addInnerTypes (s : Hydration) (innerTypes : List ProtoTypeSymbol) (parentId namespace_ : String) : Hydration :=
  match innerTypes with
  | [] => s
  | innerType :: rest => addInnerTypes (addInnerTypeToSymbolTable s innerType parentId namespace_) rest parentId namespace_
  termination_by structural innerTypes

end

def methodWithParameters (typeId namespace_ : String) (protoMethod : ProtoMethodSymbol) : List ApexSymbol :=
  let methodSymbol := convertMethodSymbol protoMethod typeId namespace_
  methodSymbol :: protoMethod.parameters.map (fun p => convertParameterToVariableSymbol p methodSymbol.id)

def createSymbolTableForType (protoType : ProtoTypeSymbol) (namespace_ : String) : Hydration :=
  let typeSymbol := convertTypeSymbol protoType none namespace_
  let s := addBlocks ((Hydration.new protoType.fileUri).addSymbol typeSymbol) protoType namespace_
  let s := s.addSymbols (protoType.methods.flatMap (methodWithParameters typeSymbol.id namespace_))
  addInnerTypes (addVariables s protoType typeSymbol.id namespace_) protoType.innerTypes typeSymbol.id namespace_

end
end StandardLibraryDeserializer

end ApexLs.Cache
