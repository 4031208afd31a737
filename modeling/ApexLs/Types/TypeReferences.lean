import Mathlib.Logic.Function.Iterate
import ApexLs.Types.Symbol
import ApexLs.Utils.Text

/-! Type references as the grammar gives them, and the records that the code makes of them. -/
namespace ApexLs.Types

open ApexLs.Utils

/-- One name of a type reference; the collection keywords are spelled `List`, `Set` and `Map`. -/
structure Identifier where
  text : String
  nonempty : text ≠ ""
  plain : '.' ∉ text.toList ∧ '<' ∉ text.toList
  deriving DecidableEq

/-- `Outer.Inner<…>[]`: its names, the arguments of the first name that has some, its pairs of brackets. -/
inductive TypeRef where
  | mk (qualifier : List Identifier) (name : Identifier) (typeArguments : List TypeRef) (dimensions : Nat)

namespace TypeInfo

def typeParameters : TypeInfo → List TypeInfo
  | .mk _ _ _ _ _ typeParameters _ _ => typeParameters

def isArray : TypeInfo → Bool
  | .mk _ _ isArray .. => isArray

def keyType : TypeInfo → Option TypeInfo
  | .mk _ _ _ _ _ _ keyType _ => keyType

def namespace_ : TypeInfo → Option String
  | .mk _ _ _ _ _ _ _ namespace_ => namespace_

def withArguments (typeParameters : List TypeInfo) (originalTypeString : String) : TypeInfo → TypeInfo
  | .mk name _ isArray isCollection isPrimitive _ keyType namespace_ =>
    .mk name originalTypeString isArray isCollection isPrimitive typeParameters keyType namespace_

end TypeInfo

def joinTypes (types : List TypeInfo) : String := ", ".intercalate (types.map TypeInfo.originalTypeString)

def extractBaseTypeName (typeString : String) : String :=
  if '<' ∈ typeString.toList then trim (String.ofList (typeString.toList.takeWhile (· ≠ '<'))) else typeString

def createQualifiedTypeInfo (typeString baseTypeName : String) : TypeInfo :=
  let parts := (baseTypeName.toList.splitOn '.').map String.ofList
  .mk (".".intercalate parts.tail) typeString false false false [] none parts.head?

def createArrayTypeInfo (elementType : TypeInfo) : TypeInfo :=
  .mk (elementType.name ++ "[]") (elementType.originalTypeString ++ "[]") true false false [elementType] none
    elementType.namespace_

def buildCollectionTypeString (baseName : String) (typeParameters : List TypeInfo) : String :=
  if typeParameters = [] then baseName else baseName ++ "<" ++ joinTypes typeParameters ++ ">"

def createCollectionTypeInfo (collectionName : String) (typeParameters : List TypeInfo) : TypeInfo :=
  .mk collectionName (buildCollectionTypeString collectionName typeParameters) false true false typeParameters none none

def mapTypeString (keyType valueType : TypeInfo) : String :=
  "Map<" ++ keyType.originalTypeString ++ ", " ++ valueType.originalTypeString ++ ">"

def createMapTypeInfo (keyType valueType : TypeInfo) : TypeInfo :=
  .mk "Map" (mapTypeString keyType valueType) false true false [valueType] (some keyType) none

section

variable (isPrimitiveType : String → Bool)

def createSimpleTypeInfo (typeString baseTypeName : String) : TypeInfo :=
  .mk baseTypeName typeString false false (isPrimitiveType baseTypeName) [] none none

def createTypeInfo (typeString : String) : TypeInfo :=
  let baseTypeName := extractBaseTypeName typeString
  if '.' ∈ baseTypeName.toList then createQualifiedTypeInfo typeString baseTypeName
  else createSimpleTypeInfo isPrimitiveType typeString baseTypeName

def qualifiedName (qualifier : List Identifier) (name : Identifier) : String :=
  ".".intercalate ((qualifier ++ [name]).map Identifier.text)

def mapArguments (qualifier : List Identifier) (name : Identifier) : List α → Option (α × α)
  | keyType :: valueType :: _ => if qualifier = [] ∧ name.text = "Map" then some (keyType,valueType) else none
  | _ => none

def typeInfoOf (qualifier : List Identifier) (name : Identifier) (typeParameters : List TypeInfo) : TypeInfo :=
  match mapArguments qualifier name typeParameters with
  | some (keyType,valueType) => createMapTypeInfo keyType valueType
  | none =>
    if qualifier = [] ∧ (name.text = "List" ∨ name.text = "Set") ∧ typeParameters ≠ [] then
      createCollectionTypeInfo name.text typeParameters
    else
      let base := createTypeInfo isPrimitiveType (qualifiedName qualifier name)
      if typeParameters ≠ [] then
        base.withArguments typeParameters (qualifiedName qualifier name ++ "<" ++ joinTypes typeParameters ++ ">")
      else base

mutual

def createTypeInfoFromTypeRef : TypeRef → TypeInfo
  | .mk qualifier name typeArguments dimensions =>
    createArrayTypeInfo^[dimensions] (typeInfoOf isPrimitiveType qualifier name (createTypeInfos typeArguments))

def createTypeInfos : List TypeRef → List TypeInfo
  | [] => []
  | t :: ts => createTypeInfoFromTypeRef t :: createTypeInfos ts

end

end

theorem createTypeInfos_eq (isPrimitiveType : String → Bool) (ts : List TypeRef) :
    createTypeInfos isPrimitiveType ts = ts.map (createTypeInfoFromTypeRef isPrimitiveType) := by
  induction ts with
  | nil => rw [createTypeInfos,List.map_nil]
  | cons t ts ih => rw [createTypeInfos,List.map_cons,ih]

@[simp] theorem qualifiedName_nil (name : Identifier) : qualifiedName [] name = name.text := rfl

theorem qualifiedName_cons (outer : Identifier) (qualifier : List Identifier) (name : Identifier) :
    qualifiedName (outer :: qualifier) name = outer.text ++ "." ++ qualifiedName qualifier name := by
  rw [qualifiedName,qualifiedName,List.cons_append,List.map_cons]
  exact String.intercalate_cons_of_ne_nil (by simp)

theorem toList_qualifiedName (qualifier : List Identifier) (name : Identifier) : (qualifiedName qualifier name).toList =
    ['.'].intercalate ((qualifier ++ [name]).map fun i => i.text.toList) := by
  rw [qualifiedName,String.toList_intercalate,List.map_map]
  rfl

/-- The name that the record of a reference gets: without the namespace, which is its first qualifier. -/
def recordName : List Identifier → Identifier → String
  | [],name => name.text
  | _ :: qualifier,name => qualifiedName qualifier name

theorem unbracketed_qualifiedName (qualifier : List Identifier) (name : Identifier) :
    '<' ∉ (qualifiedName qualifier name).toList := by
  induction qualifier with
  | nil => exact name.plain.2
  | cons outer qualifier ih => simp [qualifiedName_cons,outer.plain.2,ih]

theorem extractBaseTypeName_qualifiedName (qualifier : List Identifier) (name : Identifier) :
    extractBaseTypeName (qualifiedName qualifier name) = qualifiedName qualifier name :=
  if_neg (unbracketed_qualifiedName qualifier name)

theorem splitOn_qualifiedName (qualifier : List Identifier) (name : Identifier) :
    ((qualifiedName qualifier name).toList.splitOn '.').map String.ofList = (qualifier ++ [name]).map Identifier.text := by
  rw [toList_qualifiedName,List.splitOn_intercalate]
  · simp
  · simp only [List.mem_map]
    rintro _ ⟨i,_,rfl⟩
    exact i.plain.1
  · simp

variable (isPrimitiveType : String → Bool)

theorem createTypeInfo_plain (name : Identifier) : createTypeInfo isPrimitiveType (qualifiedName [] name) =
    .mk name.text name.text false false (isPrimitiveType name.text) [] none none := by
  have base := extractBaseTypeName_qualifiedName [] name
  rw [qualifiedName_nil] at base
  rw [qualifiedName_nil,createTypeInfo,base]
  exact if_neg name.plain.1

theorem createTypeInfo_qualified (outer : Identifier) (qualifier : List Identifier) (name : Identifier) :
    createTypeInfo isPrimitiveType (qualifiedName (outer :: qualifier) name) =
      .mk (qualifiedName qualifier name) (qualifiedName (outer :: qualifier) name) false false false [] none
        (some outer.text) := by
  have dotted : '.' ∈ (qualifiedName (outer :: qualifier) name).toList := by simp [qualifiedName_cons]
  rw [createTypeInfo,extractBaseTypeName_qualifiedName]
  refine (if_pos dotted).trans ?_
  rw [createQualifiedTypeInfo,splitOn_qualifiedName]
  rfl

theorem createTypeInfo_leaf (qualifier : List Identifier) (name : Identifier) : ∃ isPrimitive namespace_,
    createTypeInfo isPrimitiveType (qualifiedName qualifier name) =
      .mk (recordName qualifier name) (qualifiedName qualifier name) false false isPrimitive [] none namespace_ := by
  cases qualifier with
  | nil => exact ⟨_,_,createTypeInfo_plain isPrimitiveType name⟩
  | cons outer qualifier => exact ⟨_,_,createTypeInfo_qualified isPrimitiveType outer qualifier name⟩

/-- `List` and `Set` by themselves. -/
def isCollectionName (qualifier : List Identifier) (name : Identifier) : Bool :=
  qualifier = [] && (name.text = "List" || name.text = "Set")

theorem typeInfoOf_nil (qualifier : List Identifier) (name : Identifier) :
    typeInfoOf isPrimitiveType qualifier name [] = createTypeInfo isPrimitiveType (qualifiedName qualifier name) := by
  simp [typeInfoOf,mapArguments]

theorem typeInfoOf_arguments (qualifier : List Identifier) (name : Identifier) (typeParameters : List TypeInfo)
    (some_ : typeParameters ≠ []) (noMap : mapArguments qualifier name typeParameters = none) : ∃ isPrimitive namespace_,
    typeInfoOf isPrimitiveType qualifier name typeParameters =
      .mk (recordName qualifier name) (qualifiedName qualifier name ++ "<" ++ joinTypes typeParameters ++ ">") false
        (isCollectionName qualifier name) isPrimitive typeParameters none namespace_ := by
  rw [typeInfoOf,noMap]
  dsimp only
  by_cases collection : qualifier = [] ∧ (name.text = "List" ∨ name.text = "Set") ∧ typeParameters ≠ []
  · obtain ⟨rfl,named,_⟩ := collection
    have is : isCollectionName [] name = true := by simpa [isCollectionName] using named
    rw [if_pos ⟨rfl,named,some_⟩,is,createCollectionTypeInfo,buildCollectionTypeString,if_neg some_]
    exact ⟨_,_,rfl⟩
  · obtain ⟨isPrimitive,namespace_,leaf⟩ := createTypeInfo_leaf isPrimitiveType qualifier name
    have isNot : isCollectionName qualifier name = false := by
      simpa [isCollectionName,some_] using collection
    rw [if_neg collection,if_pos some_,leaf,isNot]
    exact ⟨_,_,rfl⟩

theorem mapArguments_eq_some (found : mapArguments qualifier name typeParameters = some (keyType,valueType)) :
    qualifier = [] ∧ name.text = "Map" ∧ ∃ rest, typeParameters = keyType :: valueType :: rest := by
  unfold mapArguments at found
  split at found
  next k v rest =>
    split at found
    next named =>
      obtain ⟨rfl,rfl⟩ := Prod.mk.inj (Option.some.inj found)
      exact ⟨named.1,named.2,rest,rfl⟩
    next => cases found
  next => cases found

theorem name_typeInfoOf (qualifier : List Identifier) (name : Identifier) (typeParameters : List TypeInfo) :
    (typeInfoOf isPrimitiveType qualifier name typeParameters).name = recordName qualifier name := by
  cases arguments : mapArguments qualifier name typeParameters with
  | some pair =>
    obtain ⟨rfl,named,_⟩ := mapArguments_eq_some arguments
    rw [typeInfoOf,arguments,recordName,named]
    rfl
  | none =>
    by_cases empty : typeParameters = []
    · obtain ⟨_,_,leaf⟩ := createTypeInfo_leaf isPrimitiveType qualifier name
      rw [empty,typeInfoOf_nil,leaf]
      rfl
    · obtain ⟨_,_,record⟩ := typeInfoOf_arguments isPrimitiveType qualifier name typeParameters empty arguments
      rw [record]
      rfl

theorem recordName_eq_iff (qualifier : List Identifier) (name : Identifier) :
    recordName qualifier name = qualifiedName qualifier name ↔ qualifier = [] := by
  cases qualifier with
  | nil => exact iff_of_true rfl rfl
  | cons outer qualifier =>
    refine iff_of_false (fun same => ?_) (List.cons_ne_nil _ _)
    have lengths := congrArg String.length same
    rw [recordName,qualifiedName_cons] at lengths
    simp at lengths

end ApexLs.Types
