import ApexLs.Cache.StdlibDeserializer

/-! Types through the cache, with each field as the code has it: a namespace is an object with a name of its own, and an empty
list of type parameters is not the same as none. -/
namespace ApexLs.Cache

open ApexLs.Types

structure Namespace where
  global : String
  module_ : String := ""
  deriving DecidableEq, Repr

def Namespace.toString (n : Namespace) : String :=
  if n.module_ = "" then n.global else n.global ++ "__" ++ n.module_

inductive TypeRecord where
  | mk (name originalTypeString : String) (isArray isCollection isPrimitive : Bool)
      (typeParameters : Option (List TypeRecord)) (keyType : Option TypeRecord) (namespace_ : Option Namespace)

namespace TypeRecord

mutual

def serialize : TypeRecord → ProtoTypeReference
  | .mk name originalTypeString isArray isCollection isPrimitive typeParameters keyType namespace_ =>
    { name,originalTypeString,isArray,isCollection,isPrimitive
      typeParameters := serializeParameters typeParameters
      keyType := serializeKeyType keyType
      namespace_ := (namespace_.map Namespace.toString).getD "" }

def serializeParameters : Option (List TypeRecord) → List ProtoTypeReference
  | none => []
  | some typeParameters => serializeAll typeParameters

def serializeAll : List TypeRecord → List ProtoTypeReference
  | [] => []
  | t :: ts => serialize t :: serializeAll ts

def serializeKeyType : Option TypeRecord → Option ProtoTypeReference
  | none => none
  | some t => some (serialize t)

end

/-- `typeParameters.length > 0 ? typeParameters : undefined` -/
def present : List TypeRecord → Option (List TypeRecord)
  | [] => none
  | first :: rest => some (first :: rest)

mutual

/-- `convertTypeReference` of the deserializer, which reads every field but the namespace. -/
def deserialize (proto : ProtoTypeReference) : TypeRecord :=
  match proto with
  | { name,originalTypeString,isArray,isCollection,isPrimitive,typeParameters,keyType,namespace_ := _ } =>
    .mk name originalTypeString isArray isCollection isPrimitive
      (present (deserializeAll typeParameters)) (deserializeKeyType keyType) none
  termination_by structural proto

def deserializeAll : List ProtoTypeReference → List TypeRecord
  | [] => []
  | proto :: protos => deserialize proto :: deserializeAll protos
  termination_by structural protos => protos

def deserializeKeyType : Option ProtoTypeReference → Option TypeRecord
  | none => none
  | some proto => some (deserialize proto)
  termination_by structural proto => proto

end

mutual

def toTypeInfo : TypeRecord → TypeInfo
  | .mk name originalTypeString isArray isCollection isPrimitive typeParameters keyType namespace_ =>
    .mk name originalTypeString isArray isCollection isPrimitive (toTypeInfos typeParameters) (toKeyType keyType)
      (namespace_.map Namespace.toString)

def toTypeInfos : Option (List TypeRecord) → List TypeInfo
  | none => []
  | some typeParameters => toTypeInfoAll typeParameters

def toTypeInfoAll : List TypeRecord → List TypeInfo
  | [] => []
  | t :: ts => toTypeInfo t :: toTypeInfoAll ts

def toKeyType : Option TypeRecord → Option TypeInfo
  | none => none
  | some t => some (toTypeInfo t)

end

mutual

/-- No part of the type has a namespace, or a list of type parameters with nothing in it. -/
def Plain : TypeRecord → Prop
  | .mk _ _ _ _ _ typeParameters keyType namespace_ =>
    namespace_ = none ∧ PlainParameters typeParameters ∧ PlainKeyType keyType

def PlainParameters : Option (List TypeRecord) → Prop
  | none => True
  | some typeParameters => typeParameters ≠ [] ∧ PlainAll typeParameters

def PlainAll : List TypeRecord → Prop
  | [] => True
  | t :: ts => Plain t ∧ PlainAll ts

def PlainKeyType : Option TypeRecord → Prop
  | none => True
  | some t => Plain t

end

mutual

theorem serialize_toTypeInfo (t : TypeRecord) :
    StandardLibrarySerializer.convertTypeInfo t.toTypeInfo = t.serialize := by
  cases t with
  | mk name originalTypeString isArray isCollection isPrimitive typeParameters keyType namespace_ =>
    rw [toTypeInfo,serialize,StandardLibrarySerializer.convertTypeInfo,serializeParameters_toTypeInfos,
      serializeKeyType_toKeyType]

theorem serializeParameters_toTypeInfos (ts : Option (List TypeRecord)) :
    StandardLibrarySerializer.convertTypeInfos (toTypeInfos ts) = serializeParameters ts := by
  cases ts with
  | none => rw [toTypeInfos,serializeParameters,StandardLibrarySerializer.convertTypeInfos]
  | some ts => rw [toTypeInfos,serializeParameters,serializeAll_toTypeInfoAll]

theorem serializeAll_toTypeInfoAll (ts : List TypeRecord) :
    StandardLibrarySerializer.convertTypeInfos (toTypeInfoAll ts) = serializeAll ts := by
  cases ts with
  | nil => rw [toTypeInfoAll,serializeAll,StandardLibrarySerializer.convertTypeInfos]
  | cons t ts =>
    rw [toTypeInfoAll,serializeAll,StandardLibrarySerializer.convertTypeInfos,serialize_toTypeInfo,
      serializeAll_toTypeInfoAll]

theorem serializeKeyType_toKeyType (t : Option TypeRecord) :
    StandardLibrarySerializer.convertKeyType (toKeyType t) = serializeKeyType t := by
  cases t with
  | none => rw [toKeyType,serializeKeyType,StandardLibrarySerializer.convertKeyType]
  | some t => rw [toKeyType,serializeKeyType,StandardLibrarySerializer.convertKeyType,serialize_toTypeInfo]

end

theorem toTypeInfos_present (ts : List TypeRecord) : toTypeInfos (present ts) = toTypeInfoAll ts := by
  cases ts with
  | nil => rw [present,toTypeInfos,toTypeInfoAll]
  | cons t ts => rw [present,toTypeInfos]

mutual

theorem toTypeInfo_deserialize (proto : ProtoTypeReference) :
    (deserialize proto).toTypeInfo = StandardLibraryDeserializer.convertTypeInfo proto := by
  cases proto with
  | mk name originalTypeString isArray isCollection isPrimitive typeParameters keyType namespace_ =>
    rw [deserialize,toTypeInfo,StandardLibraryDeserializer.convertTypeInfo,toTypeInfos_present,toTypeInfoAll_deserializeAll,
      toKeyType_deserializeKeyType]
    rfl

theorem toTypeInfoAll_deserializeAll (protos : List ProtoTypeReference) :
    toTypeInfoAll (deserializeAll protos) = StandardLibraryDeserializer.convertTypeInfos protos := by
  cases protos with
  | nil => rw [deserializeAll,toTypeInfoAll,StandardLibraryDeserializer.convertTypeInfos]
  | cons proto protos =>
    rw [deserializeAll,toTypeInfoAll,StandardLibraryDeserializer.convertTypeInfos,toTypeInfo_deserialize,
      toTypeInfoAll_deserializeAll]

theorem toKeyType_deserializeKeyType (proto : Option ProtoTypeReference) :
    toKeyType (deserializeKeyType proto) = StandardLibraryDeserializer.convertKeyType proto := by
  cases proto with
  | none => rw [deserializeKeyType,toKeyType,StandardLibraryDeserializer.convertKeyType]
  | some proto => rw [deserializeKeyType,toKeyType,StandardLibraryDeserializer.convertKeyType,toTypeInfo_deserialize]

end

mutual

theorem survives_iff_plain (t : TypeRecord) : deserialize (serialize t) = t ↔ Plain t := by
  cases t with
  | mk name originalTypeString isArray isCollection isPrimitive typeParameters keyType namespace_ =>
    rw [serialize,deserialize,Plain,← parameters_survive_iff,← keyType_survives_iff]
    simp [and_comm,and_assoc,eq_comm]

theorem parameters_survive_iff (ts : Option (List TypeRecord)) :
    present (deserializeAll (serializeParameters ts)) = ts ↔ PlainParameters ts := by
  cases ts with
  | none => simp [serializeParameters,deserializeAll,present,PlainParameters]
  | some ts =>
    rw [serializeParameters,PlainParameters,← all_survive_iff]
    cases ts with
    | nil => simp [serializeAll,deserializeAll,present]
    | cons t ts => simp [serializeAll,deserializeAll,present]

theorem all_survive_iff (ts : List TypeRecord) : deserializeAll (serializeAll ts) = ts ↔ PlainAll ts := by
  cases ts with
  | nil => simp [serializeAll,deserializeAll,PlainAll]
  | cons t ts => rw [serializeAll,deserializeAll,PlainAll,List.cons_eq_cons,survives_iff_plain,all_survive_iff]

theorem keyType_survives_iff (t : Option TypeRecord) : deserializeKeyType (serializeKeyType t) = t ↔ PlainKeyType t := by
  cases t with
  | none => simp [serializeKeyType,deserializeKeyType,PlainKeyType]
  | some t => rw [serializeKeyType,deserializeKeyType,PlainKeyType,Option.some_inj,survives_iff_plain]

end

/-- A type survives the cache just when no part of it has a namespace or an empty list of type parameters. -/
theorem cached_type_iff (t : TypeRecord) : deserialize (serialize t) = t ↔ Plain t := survives_iff_plain t

mutual

theorem plain_deserialize (proto : ProtoTypeReference) : Plain (deserialize proto) := by
  cases proto with
  | mk name originalTypeString isArray isCollection isPrimitive typeParameters keyType namespace_ =>
    rw [deserialize,Plain]
    refine ⟨rfl,?_,?_⟩
    · cases typeParameters with
      | nil => exact trivial
      | cons first rest => exact ⟨nofun,plain_deserializeAll (first :: rest)⟩
    · cases keyType with
      | none => exact trivial
      | some key => exact plain_deserialize key

theorem plain_deserializeAll (protos : List ProtoTypeReference) : PlainAll (deserializeAll protos) := by
  cases protos with
  | nil => exact trivial
  | cons first rest => exact ⟨plain_deserialize first,plain_deserializeAll rest⟩

end

/-- Whatever a cache holds, a type that was read from it survives the cache. -/
theorem read_type_survives (proto : ProtoTypeReference) :
    deserialize (serialize (deserialize proto)) = deserialize proto :=
  (survives_iff_plain _).mpr (plain_deserialize proto)

def pageReference : TypeRecord :=
  .mk "PageReference" "System.PageReference" false false false none none (some { global := "System" })

theorem page_reference_loses_namespace : ¬ ∀ t : TypeRecord, deserialize (serialize t) = t := by
  intro always
  have plain := (survives_iff_plain pageReference).mp (always pageReference)
  simp [pageReference,Plain] at plain

end TypeRecord
end ApexLs.Cache
