import ApexLs.Resolution.PreferredTypes
import ApexLs.Types.TypeReferences

/-! The generic arguments of a receiver put for the type variables of its members. The map from variables
holds the names of the arguments only, and only names and written types are replaced. -/
namespace ApexLs.Resolution

open ApexLs.Types ApexLs.Utils

def substituteTypeName (substitutions : GenericTypeSubstitutionMap) (typeName : String) : String :=
  if typeName.length = 1 then (substitutions.lookup typeName).getD typeName else typeName

def rewritten (isArray : Bool) (name : String) (typeParameters : List TypeInfo) (keyType : Option TypeInfo)
    (originalTypeString : String) : String :=
  match typeParameters with
  | [] => originalTypeString
  | first :: _ =>
    if isArray then first.originalTypeString ++ "[]"
    else match keyType.filter fun _ => name = "Map" with
      | some key => mapTypeString key first
      | none => name ++ "<" ++ joinTypes typeParameters ++ ">"

mutual

def replaceIn (substitutions : GenericTypeSubstitutionMap) : TypeInfo → TypeInfo
  | .mk name originalTypeString isArray isCollection isPrimitive typeParameters keyType namespace_ =>
    let substitutedName := substituteTypeName substitutions name
    let substitutedTypeParameters := replaceInAll substitutions typeParameters
    let substitutedKeyType := replaceInKey substitutions keyType
    .mk substitutedName
      (rewritten isArray substitutedName substitutedTypeParameters substitutedKeyType
        (substituteTypeName substitutions originalTypeString))
      isArray isCollection isPrimitive substitutedTypeParameters substitutedKeyType namespace_

def replaceInAll (substitutions : GenericTypeSubstitutionMap) : List TypeInfo → List TypeInfo
  | [] => []
  | t :: ts => replaceIn substitutions t :: replaceInAll substitutions ts

def replaceInKey (substitutions : GenericTypeSubstitutionMap) : Option TypeInfo → Option TypeInfo
  | none => none
  | some t => some (replaceIn substitutions t)

end

def applyTypeSubstitutions (typeInfo : TypeInfo) (substitutions : Option GenericTypeSubstitutionMap) : TypeInfo :=
  match substitutions with
  | none => typeInfo
  | some substitutions => if substitutions = [] then typeInfo else replaceIn substitutions typeInfo

/-! What the replacement is for: arguments put for variables, as whole types. -/

mutual

def outline : TypeInfo → TypeInfo
  | .mk name originalTypeString isArray isCollection _ typeParameters keyType _ =>
    .mk name originalTypeString isArray isCollection false (outlines typeParameters) (keyOutline keyType) none

def outlines : List TypeInfo → List TypeInfo
  | [] => []
  | t :: ts => outline t :: outlines ts

def keyOutline : Option TypeInfo → Option TypeInfo
  | none => none
  | some t => some (outline t)

end

def bracketed (dimensions : Nat) : TypeRef → TypeRef
  | .mk qualifier name typeArguments own => .mk qualifier name typeArguments (own + dimensions)

/-- The argument that a bare name stands for. -/
def argumentOf (arguments : String → Option TypeRef) (qualifier : List Identifier) (name : Identifier)
    (typeArguments : List TypeRef) : Option TypeRef :=
  if qualifier = [] ∧ typeArguments.isEmpty then arguments name.text else none

mutual

def instantiate (arguments : String → Option TypeRef) : TypeRef → TypeRef
  | .mk qualifier name typeArguments dimensions =>
    match argumentOf arguments qualifier name typeArguments with
    | some argument => bracketed dimensions argument
    | none => .mk qualifier name (instantiateAll arguments typeArguments) dimensions

def instantiateAll (arguments : String → Option TypeRef) : List TypeRef → List TypeRef
  | [] => []
  | t :: ts => instantiate arguments t :: instantiateAll arguments ts

end

inductive GenericReceiver where
  | list (element : TypeRef)
  | set (element : TypeRef)
  | map (key value : TypeRef)

namespace GenericReceiver

def typeRef : GenericReceiver → TypeRef
  | list element => .mk [] ⟨"List",by decide,by decide⟩ [element] 0
  | set element => .mk [] ⟨"Set",by decide,by decide⟩ [element] 0
  | map key value => .mk [] ⟨"Map",by decide,by decide⟩ [key,value] 0

/-- The variables that the library's declaration of the collection uses. -/
def bindings : GenericReceiver → List (String × TypeRef)
  | list element | set element => [("T",element)]
  | map key value => [("K",key),("V",value)]

def arguments (receiver : GenericReceiver) (variableName : String) : Option TypeRef := receiver.bindings.lookup variableName

end GenericReceiver

section

variable [Runtime] (isPrimitiveType : String → Bool)

def substituted (receiver : GenericReceiver) (t : TypeRef) : TypeInfo :=
  applyTypeSubstitutions (createTypeInfoFromTypeRef isPrimitiveType t)
    (createGenericTypeSubstitutionMap (some (createTypeInfoFromTypeRef isPrimitiveType receiver.typeRef)))

/-- It is the record of the type with whole arguments in place of the variables. -/
def SubstitutesWholeTypes (receiver : GenericReceiver) (t : TypeRef) : Prop :=
  outline (substituted isPrimitiveType receiver t) =
    outline (createTypeInfoFromTypeRef isPrimitiveType (instantiate receiver.arguments t))

end

def Bare : TypeRef → Prop
  | .mk qualifier _ typeArguments dimensions => qualifier = [] ∧ typeArguments = [] ∧ dimensions = 0

def readArguments (qualifier : List Identifier) (name : Identifier) (typeArguments : List TypeRef) : Nat :=
  if qualifier = [] ∧ name.text = "Map" then 2 else typeArguments.length

section

variable (isPrimitiveType : String → Bool) (arguments : String → Option TypeRef)

def argumentName (v : String) : String :=
  ((arguments v).map fun argument => (createTypeInfoFromTypeRef isPrimitiveType argument).name).getD v

mutual

/-- A variable stands outside brackets and its argument is one bare name; what is not a variable does not share the
name of one, and has no qualifier where it has arguments. -/
def NamesSuffice : TypeRef → Prop
  | .mk qualifier name typeArguments dimensions =>
    match argumentOf arguments qualifier name typeArguments with
    | some argument => Bare argument ∧ (dimensions = 0 ∨ argumentName isPrimitiveType arguments name.text = name.text)
    | none =>
      argumentName isPrimitiveType arguments (recordName qualifier name) = recordName qualifier name ∧
        (typeArguments.isEmpty ∨ qualifier = []) ∧
          NamesSufficeIn (readArguments qualifier name typeArguments) typeArguments

def NamesSufficeIn : Nat → List TypeRef → Prop
  | n + 1,t :: ts => NamesSuffice t ∧ NamesSufficeIn n ts
  | _,_ => True

end

end

/-! The replacement node by node. -/

theorem replaceInAll_eq (substitutions : GenericTypeSubstitutionMap) (ts : List TypeInfo) :
    replaceInAll substitutions ts = ts.map (replaceIn substitutions) := by
  induction ts with
  | nil => rw [replaceInAll,List.map_nil]
  | cons t ts ih => rw [replaceInAll,List.map_cons,ih]

theorem outlines_eq (ts : List TypeInfo) : outlines ts = ts.map outline := by
  induction ts with
  | nil => rw [outlines,List.map_nil]
  | cons t ts ih => rw [outlines,List.map_cons,ih]

theorem instantiateAll_eq (arguments : String → Option TypeRef) (ts : List TypeRef) :
    instantiateAll arguments ts = ts.map (instantiate arguments) := by
  induction ts with
  | nil => rw [instantiateAll,List.map_nil]
  | cons t ts ih => rw [instantiateAll,List.map_cons,ih]

theorem outline_originalTypeString (t : TypeInfo) : (outline t).originalTypeString = t.originalTypeString := by
  cases t
  rw [outline]
  rfl

theorem joinTypes_eq_of_outlines (same : ts.map outline = ts'.map outline) : joinTypes ts = joinTypes ts' := by
  have written := congrArg (List.map TypeInfo.originalTypeString) same
  simp only [List.map_map,Function.comp_def,outline_originalTypeString] at written
  rw [joinTypes,joinTypes,written]

section

variable (isPrimitiveType : String → Bool) (substitutions : GenericTypeSubstitutionMap)

theorem substituteTypeName_long {typeName : String} (long : typeName.length ≠ 1) :
    substituteTypeName substitutions typeName = typeName :=
  if_neg long

theorem outline_createArrayTypeInfo (x : TypeInfo) : outline (createArrayTypeInfo x) =
    .mk (x.name ++ "[]") (x.originalTypeString ++ "[]") true false false [outline x] none none := by
  rw [createArrayTypeInfo,outline,outlines_eq]
  rfl

theorem outline_replaceIn_array (x : TypeInfo) : outline (replaceIn substitutions (createArrayTypeInfo x)) =
    .mk (x.name ++ "[]") ((replaceIn substitutions x).originalTypeString ++ "[]") true false false
      [outline (replaceIn substitutions x)] none none := by
  have long : (x.name ++ "[]").length ≠ 1 := by
    have brackets : "[]".length = 2 := rfl
    rw [String.length_append]
    omega
  rw [createArrayTypeInfo,replaceIn,replaceInAll_eq,outline,outlines_eq,substituteTypeName_long substitutions long]
  rfl

theorem array_iff (x y : TypeInfo) :
    outline (replaceIn substitutions (createArrayTypeInfo x)) = outline (createArrayTypeInfo y) ↔
      outline (replaceIn substitutions x) = outline y ∧ x.name = y.name := by
  rw [outline_replaceIn_array,outline_createArrayTypeInfo]
  constructor
  · intro same
    injection same with names _ _ _ _ elements
    exact ⟨(List.cons.inj elements).1,by simpa using names⟩
  · rintro ⟨elements,names⟩
    have written := congrArg TypeInfo.originalTypeString elements
    rw [outline_originalTypeString,outline_originalTypeString] at written
    rw [elements,names,written]

theorem name_arrays (x y : TypeInfo) (dimensions : Nat) :
    (createArrayTypeInfo^[dimensions] x).name = (createArrayTypeInfo^[dimensions] y).name ↔ x.name = y.name := by
  induction dimensions with
  | zero => exact Iff.rfl
  | succ n ih =>
    rw [Function.iterate_succ_apply',Function.iterate_succ_apply',← ih]
    exact ⟨fun same => by simpa [createArrayTypeInfo,TypeInfo.name] using same,fun same => congrArg (· ++ "[]") same⟩

theorem arrays_iff (x y : TypeInfo) (dimensions : Nat) :
    outline (replaceIn substitutions (createArrayTypeInfo^[dimensions] x)) = outline (createArrayTypeInfo^[dimensions] y) ↔
      outline (replaceIn substitutions x) = outline y ∧ (dimensions = 0 ∨ x.name = y.name) := by
  induction dimensions with
  | zero => simp
  | succ n ih =>
    rw [Function.iterate_succ_apply',Function.iterate_succ_apply',array_iff,ih,name_arrays]
    exact ⟨fun h => ⟨h.1.1,.inr h.2⟩,fun h => by
      have names := h.2.resolve_left (Nat.succ_ne_zero n)
      exact ⟨⟨h.1,.inr names⟩,names⟩⟩

theorem map_iff (k v k' v' : TypeInfo) (kept : substituteTypeName substitutions "Map" = "Map") :
    outline (replaceIn substitutions (createMapTypeInfo k v)) = outline (createMapTypeInfo k' v') ↔
      outline (replaceIn substitutions k) = outline k' ∧ outline (replaceIn substitutions v) = outline v' := by
  have left : outline (replaceIn substitutions (createMapTypeInfo k v)) =
      .mk "Map" (mapTypeString (replaceIn substitutions k) (replaceIn substitutions v)) false true false
        [outline (replaceIn substitutions v)] (some (outline (replaceIn substitutions k))) none := by
    rw [createMapTypeInfo,replaceIn,replaceInAll_eq,replaceInKey,outline,outlines_eq,keyOutline,kept]
    rfl
  have right : outline (createMapTypeInfo k' v') =
      .mk "Map" (mapTypeString k' v') false true false [outline v'] (some (outline k')) none := by
    rw [createMapTypeInfo,outline,outlines_eq,keyOutline]
    rfl
  rw [left,right]
  constructor
  · intro same
    injection same with _ _ _ _ _ values keys
    exact ⟨Option.some.inj keys,(List.cons.inj values).1⟩
  · rintro ⟨keys,values⟩
    have writtenKey := congrArg TypeInfo.originalTypeString keys
    have writtenValue := congrArg TypeInfo.originalTypeString values
    rw [outline_originalTypeString,outline_originalTypeString] at writtenKey writtenValue
    rw [keys,values,mapTypeString,mapTypeString,writtenKey,writtenValue]

theorem arguments_iff (name written : String) (collection : Bool) (isPrimitive isPrimitive' : Bool)
    (namespace_ namespace_' : Option String) (ts ts' : List TypeInfo) (some_ : ts ≠ []) :
    outline (replaceIn substitutions
        (.mk name (written ++ "<" ++ joinTypes ts ++ ">") false collection isPrimitive ts none namespace_)) =
      outline (.mk name (written ++ "<" ++ joinTypes ts' ++ ">") false collection isPrimitive' ts' none namespace_') ↔
    substituteTypeName substitutions name = name ∧ name = written ∧
      (ts.map (replaceIn substitutions)).map outline = ts'.map outline := by
  rw [replaceIn,outline,outline,outlines_eq,outlines_eq,replaceInAll_eq]
  have rebuilt : rewritten false (substituteTypeName substitutions name) (ts.map (replaceIn substitutions))
      (replaceInKey substitutions none) (substituteTypeName substitutions (written ++ "<" ++ joinTypes ts ++ ">")) =
      substituteTypeName substitutions name ++ "<" ++ joinTypes (ts.map (replaceIn substitutions)) ++ ">" := by
    obtain ⟨t,rest,rfl⟩ := List.exists_cons_of_ne_nil some_
    rw [replaceInKey]
    rfl
  rw [rebuilt]
  constructor
  · intro same
    injection same with names texts _ _ _ elements
    have joined := joinTypes_eq_of_outlines elements
    rw [joined,names] at texts
    exact ⟨names,by simpa using texts,elements⟩
  · rintro ⟨names,rfl,elements⟩
    rw [joinTypes_eq_of_outlines elements,names,elements]
    rfl

variable {isPrimitiveType substitutions} {arguments : String → Option TypeRef}

/-- The map holds the names of the arguments, and its variables have one character. -/
def HoldsNames (isPrimitiveType : String → Bool) (arguments : String → Option TypeRef)
    (substitutions : GenericTypeSubstitutionMap) : Prop :=
  ∀ v, substituteTypeName substitutions v = argumentName isPrimitiveType arguments v

theorem name_of_leaf (qualifier : List Identifier) (name : Identifier) :
    (createTypeInfo isPrimitiveType (qualifiedName qualifier name)).name = recordName qualifier name := by
  obtain ⟨_,_,leaf⟩ := createTypeInfo_leaf isPrimitiveType qualifier name
  rw [leaf]
  rfl

theorem leaf_iff (argument : TypeRef) :
    .mk (createTypeInfoFromTypeRef isPrimitiveType argument).name
        (createTypeInfoFromTypeRef isPrimitiveType argument).name false false false [] none none =
      outline (createTypeInfoFromTypeRef isPrimitiveType argument) ↔ Bare argument := by
  obtain ⟨qualifier,name,typeArguments,dimensions⟩ := argument
  rw [Bare,createTypeInfoFromTypeRef]
  cases dimensions with
  | succ n =>
    rw [Function.iterate_succ_apply',outline_createArrayTypeInfo]
    simp
  | zero =>
    rw [Function.iterate_zero_apply,name_typeInfoOf]
    cases pair : mapArguments qualifier name (createTypeInfos isPrimitiveType typeArguments) with
    | some both =>
      obtain ⟨keyType,valueType⟩ := both
      obtain ⟨_,_,rest,two⟩ := mapArguments_eq_some pair
      have given : typeArguments ≠ [] := by
        rintro rfl
        rw [createTypeInfos] at two
        cases two
      rw [typeInfoOf,pair]
      dsimp only
      rw [createMapTypeInfo,outline]
      simp [given]
    | none =>
      by_cases empty : typeArguments = []
      · subst empty
        obtain ⟨_,_,leaf⟩ := createTypeInfo_leaf isPrimitiveType qualifier name
        rw [createTypeInfos,typeInfoOf_nil,leaf,outline,outlines,keyOutline,← recordName_eq_iff qualifier name]
        simp
      · have given : createTypeInfos isPrimitiveType typeArguments ≠ [] := by
          rw [createTypeInfos_eq]
          simpa using empty
        obtain ⟨_,_,record⟩ := typeInfoOf_arguments isPrimitiveType qualifier name _ given pair
        rw [record,outline,outlines_eq]
        simp [given,empty]

theorem create_bracketed (argument : TypeRef) (dimensions : Nat) :
    createTypeInfoFromTypeRef isPrimitiveType (bracketed dimensions argument) =
      createArrayTypeInfo^[dimensions] (createTypeInfoFromTypeRef isPrimitiveType argument) := by
  obtain ⟨qualifier,name,typeArguments,own⟩ := argument
  rw [bracketed,createTypeInfoFromTypeRef,createTypeInfoFromTypeRef,Nat.add_comm,Function.iterate_add_apply]

theorem argumentOf_eq_some {typeArguments : List TypeRef}
    (bound : argumentOf arguments qualifier name typeArguments = some argument) :
    qualifier = [] ∧ typeArguments = [] ∧ arguments name.text = some argument := by
  unfold argumentOf at bound
  split at bound
  next plain => exact ⟨plain.1,List.isEmpty_iff.mp plain.2,bound⟩
  next => cases bound

theorem replaceIn_leaf (holds : HoldsNames isPrimitiveType arguments substitutions) (qualifier : List Identifier)
    (name : Identifier) :
    outline (replaceIn substitutions (createTypeInfo isPrimitiveType (qualifiedName qualifier name))) =
      .mk (argumentName isPrimitiveType arguments (recordName qualifier name))
        (argumentName isPrimitiveType arguments (qualifiedName qualifier name)) false false false [] none none := by
  obtain ⟨_,_,leaf⟩ := createTypeInfo_leaf isPrimitiveType qualifier name
  rw [leaf,replaceIn,outline,replaceInAll,replaceInKey,outlines,keyOutline,holds,rewritten,holds]

theorem qualifiedName_long (outer : Identifier) (qualifier : List Identifier) (name : Identifier) :
    (qualifiedName (outer :: qualifier) name).length ≠ 1 := by
  have first : outer.text.length ≠ 0 := fun none => outer.nonempty (by simpa using none)
  have dot : ".".length = 1 := rfl
  rw [qualifiedName_cons,String.length_append,String.length_append]
  omega

theorem named_iff (holds : HoldsNames isPrimitiveType arguments substitutions) (qualifier : List Identifier) (name : Identifier) :
    outline (replaceIn substitutions (createTypeInfo isPrimitiveType (qualifiedName qualifier name))) =
        outline (createTypeInfo isPrimitiveType (qualifiedName qualifier name)) ↔
      argumentName isPrimitiveType arguments (recordName qualifier name) = recordName qualifier name := by
  have kept : argumentName isPrimitiveType arguments (recordName qualifier name) = recordName qualifier name →
      argumentName isPrimitiveType arguments (qualifiedName qualifier name) = qualifiedName qualifier name := by
    cases qualifier with
    | nil => exact id
    | cons outer qualifier =>
      exact fun _ => (holds _).symm.trans (substituteTypeName_long substitutions (qualifiedName_long outer qualifier name))
  obtain ⟨_,_,leaf⟩ := createTypeInfo_leaf isPrimitiveType qualifier name
  rw [replaceIn_leaf holds,leaf,outline,outlines,keyOutline]
  constructor
  · intro same
    injection same
  · intro same
    rw [kept same,same]


theorem length_createTypeInfos (ts : List TypeRef) : (createTypeInfos isPrimitiveType ts).length = ts.length := by
  rw [createTypeInfos_eq,List.length_map]

theorem length_instantiateAll (ts : List TypeRef) : (instantiateAll arguments ts).length = ts.length := by
  rw [instantiateAll_eq,List.length_map]

theorem mapArguments_instantiateAll (noMap : mapArguments qualifier name (createTypeInfos isPrimitiveType typeArguments) = none) :
    mapArguments qualifier name (createTypeInfos isPrimitiveType (instantiateAll arguments typeArguments)) = none := by
  cases typeArguments with
  | nil => rfl
  | cons t ts =>
    cases ts with
    | nil => rfl
    | cons t' ts => simpa [createTypeInfos,instantiateAll,mapArguments] using noMap

theorem two_of_length : (ts : List α) → 2 ≤ ts.length → ∃ t t' rest, ts = t :: t' :: rest
  | t :: t' :: rest,_ => ⟨t,t',rest,rfl⟩

/-- A reference without its brackets, and not a variable: the records agree where the name stays, the qualifier is none
if there are arguments, and the arguments that the record has agree. -/
theorem base_iff (holds : HoldsNames isPrimitiveType arguments substitutions) (qualifier : List Identifier) (name : Identifier)
    (typeArguments : List TypeRef) :
    outline (replaceIn substitutions
        (typeInfoOf isPrimitiveType qualifier name (createTypeInfos isPrimitiveType typeArguments))) =
        outline (typeInfoOf isPrimitiveType qualifier name
          (createTypeInfos isPrimitiveType (instantiateAll arguments typeArguments))) ↔
      argumentName isPrimitiveType arguments (recordName qualifier name) = recordName qualifier name ∧
        (typeArguments.isEmpty ∨ qualifier = []) ∧
          (((createTypeInfos isPrimitiveType typeArguments).take (readArguments qualifier name typeArguments)).map
              (replaceIn substitutions)).map outline =
            ((createTypeInfos isPrimitiveType (instantiateAll arguments typeArguments)).take
              (readArguments qualifier name typeArguments)).map outline := by
  cases pair : mapArguments qualifier name (createTypeInfos isPrimitiveType typeArguments) with
  | some both =>
    obtain ⟨keyType,valueType⟩ := both
    obtain ⟨rfl,named,rest,two⟩ := mapArguments_eq_some pair
    obtain ⟨k,v,others,rfl⟩ := two_of_length typeArguments (by
      rw [← @length_createTypeInfos isPrimitiveType,two]
      simp)
    have kept : argumentName isPrimitiveType arguments "Map" = "Map" :=
      (holds _).symm.trans (substituteTypeName_long substitutions (by decide))
    have isMap (keyType valueType : TypeInfo) (rest : List TypeInfo) :
        typeInfoOf isPrimitiveType [] name (keyType :: valueType :: rest) = createMapTypeInfo keyType valueType := by
      simp [typeInfoOf,mapArguments,named]
    simp only [createTypeInfos,instantiateAll,isMap]
    rw [map_iff substitutions _ _ _ _ ((holds _).trans kept)]
    simp [recordName,named,kept,readArguments]
  | none =>
    by_cases empty : typeArguments = []
    · subst empty
      simp [createTypeInfos,instantiateAll,typeInfoOf_nil,named_iff holds]
    · have given : createTypeInfos isPrimitiveType typeArguments ≠ [] := by
        rw [createTypeInfos_eq]
        simpa using empty
      have given' : createTypeInfos isPrimitiveType (instantiateAll arguments typeArguments) ≠ [] := by
        rw [createTypeInfos_eq,instantiateAll_eq]
        simpa using empty
      obtain ⟨_,_,record⟩ := typeInfoOf_arguments isPrimitiveType qualifier name _ given pair
      obtain ⟨_,_,record'⟩ := typeInfoOf_arguments isPrimitiveType qualifier name _ given' (mapArguments_instantiateAll pair)
      have all : typeArguments.length ≤ readArguments qualifier name typeArguments := by
        rw [readArguments]
        split
        next map =>
          by_contra long
          obtain ⟨k,v,others,rfl⟩ := two_of_length typeArguments (by omega)
          simp [createTypeInfos,mapArguments,map.1,map.2] at pair
        next => exact le_rfl
      rw [record,record',arguments_iff substitutions _ _ _ _ _ _ _ _ _ given,recordName_eq_iff,holds,
        List.take_of_length_le (by rwa [length_createTypeInfos]),
        List.take_of_length_le (by rwa [length_createTypeInfos,length_instantiateAll])]
      simp [empty]

mutual

theorem replaceIn_iff (holds : HoldsNames isPrimitiveType arguments substitutions) : (t : TypeRef) →
    (outline (replaceIn substitutions (createTypeInfoFromTypeRef isPrimitiveType t)) =
      outline (createTypeInfoFromTypeRef isPrimitiveType (instantiate arguments t)) ↔
        NamesSuffice isPrimitiveType arguments t)
  | .mk qualifier name typeArguments dimensions => by
    rw [instantiate,NamesSuffice,createTypeInfoFromTypeRef]
    cases bound : argumentOf arguments qualifier name typeArguments with
    | some argument =>
      obtain ⟨rfl,rfl,value⟩ := argumentOf_eq_some bound
      have named : argumentName isPrimitiveType arguments name.text =
          (createTypeInfoFromTypeRef isPrimitiveType argument).name := by
        rw [argumentName,value]
        rfl
      dsimp only
      rw [create_bracketed,arrays_iff,createTypeInfos,typeInfoOf_nil,replaceIn_leaf holds,name_of_leaf]
      simp only [recordName,qualifiedName_nil,named]
      rw [leaf_iff,eq_comm (a := name.text)]
    | none =>
      dsimp only
      rw [createTypeInfoFromTypeRef,arrays_iff,base_iff holds,replaceInAll_iff holds,name_typeInfoOf,name_typeInfoOf]
      simp only [or_true,and_true]

theorem replaceInAll_iff (holds : HoldsNames isPrimitiveType arguments substitutions) : (n : Nat) → (ts : List TypeRef) →
    ((((createTypeInfos isPrimitiveType ts).take n).map (replaceIn substitutions)).map outline =
      ((createTypeInfos isPrimitiveType (instantiateAll arguments ts)).take n).map outline ↔
        NamesSufficeIn isPrimitiveType arguments n ts)
  | 0,_ => by simp [NamesSufficeIn]
  | n + 1,[] => by simp [NamesSufficeIn,createTypeInfos,instantiateAll]
  | n + 1,t :: ts => by
    rw [createTypeInfos,instantiateAll,createTypeInfos,NamesSufficeIn,← replaceIn_iff holds t,← replaceInAll_iff holds n ts]
    simp

end

end

section

variable [AsciiLowering] (isPrimitiveType : String → Bool)

omit [AsciiLowering] in
theorem create_name_ne (t : TypeRef) : (createTypeInfoFromTypeRef isPrimitiveType t).name ≠ "" := by
  obtain ⟨qualifier,name,typeArguments,dimensions⟩ := t
  rw [createTypeInfoFromTypeRef]
  cases dimensions with
  | succ n =>
    rw [Function.iterate_succ_apply',createArrayTypeInfo,TypeInfo.name]
    simp
  | zero =>
    rw [Function.iterate_zero_apply,name_typeInfoOf]
    cases qualifier with
    | nil => exact name.nonempty
    | cons outer qualifier =>
      rw [recordName]
      cases qualifier with
      | nil => exact name.nonempty
      | cons => simp [qualifiedName_cons]

def namesOf (receiver : GenericReceiver) : GenericTypeSubstitutionMap :=
  receiver.bindings.map fun binding => (binding.1,(createTypeInfoFromTypeRef isPrimitiveType binding.2).name)

theorem createGenericTypeSubstitutionMap_receiver (receiver : GenericReceiver) :
    createGenericTypeSubstitutionMap (some (createTypeInfoFromTypeRef isPrimitiveType receiver.typeRef)) =
      some (namesOf isPrimitiveType receiver) := by
  have list : toLowerCase "List" = "list" := lower_eq (by decide) (by decide)
  have set : toLowerCase "Set" = "set" := lower_eq (by decide) (by decide)
  have map : toLowerCase "Map" = "map" := lower_eq (by decide) (by decide)
  cases receiver with
  | list element =>
    have record : createTypeInfoFromTypeRef isPrimitiveType (GenericReceiver.list element).typeRef =
        createCollectionTypeInfo "List" [createTypeInfoFromTypeRef isPrimitiveType element] := by
      simp [GenericReceiver.typeRef,createTypeInfoFromTypeRef,createTypeInfos,typeInfoOf,mapArguments]
    rw [record,createGenericTypeSubstitutionMap,Option.bind_some,
      show (createCollectionTypeInfo "List" _).name = "List" from rfl,list]
    simp [createCollectionTypeInfo,TypeInfo.typeParameters,namesOf,GenericReceiver.bindings,create_name_ne]
  | set element =>
    have record : createTypeInfoFromTypeRef isPrimitiveType (GenericReceiver.set element).typeRef =
        createCollectionTypeInfo "Set" [createTypeInfoFromTypeRef isPrimitiveType element] := by
      simp [GenericReceiver.typeRef,createTypeInfoFromTypeRef,createTypeInfos,typeInfoOf,mapArguments]
    rw [record,createGenericTypeSubstitutionMap,Option.bind_some,
      show (createCollectionTypeInfo "Set" _).name = "Set" from rfl,set]
    simp [createCollectionTypeInfo,TypeInfo.typeParameters,namesOf,GenericReceiver.bindings,create_name_ne]
  | map key value =>
    have record : createTypeInfoFromTypeRef isPrimitiveType (GenericReceiver.map key value).typeRef =
        createMapTypeInfo (createTypeInfoFromTypeRef isPrimitiveType key) (createTypeInfoFromTypeRef isPrimitiveType value) := by
      simp [GenericReceiver.typeRef,createTypeInfoFromTypeRef,createTypeInfos,typeInfoOf,mapArguments]
    rw [record,createGenericTypeSubstitutionMap,Option.bind_some,show (createMapTypeInfo _ _).name = "Map" from rfl,map]
    have named (t : TypeRef) : (some (createTypeInfoFromTypeRef isPrimitiveType t).name).filter (· ≠ "") =
        some (createTypeInfoFromTypeRef isPrimitiveType t).name :=
      Option.filter_some_pos (by simpa using create_name_ne isPrimitiveType t)
    simp only [createMapTypeInfo,TypeInfo.typeParameters,TypeInfo.keyType,List.head?_cons,Option.map_some,named]
    rfl

omit [AsciiLowering] in
theorem bindings_short (receiver : GenericReceiver) : ∀ binding ∈ receiver.bindings, binding.1.length = 1 := by
  have t : "T".length = 1 := by decide
  have k : "K".length = 1 := by decide
  have v : "V".length = 1 := by decide
  cases receiver <;> simp [GenericReceiver.bindings,t,k,v]

omit [AsciiLowering] in
theorem holdsNames (receiver : GenericReceiver) :
    HoldsNames isPrimitiveType receiver.arguments (namesOf isPrimitiveType receiver) := by
  intro v
  have looked : (namesOf isPrimitiveType receiver).lookup v =
      (receiver.arguments v).map fun argument => (createTypeInfoFromTypeRef isPrimitiveType argument).name := by
    rw [namesOf,GenericReceiver.arguments]
    induction receiver.bindings with
    | nil => rfl
    | cons binding rest ih =>
      rw [List.map_cons,List.lookup_cons,List.lookup_cons,ih]
      cases v == binding.1 <;> rfl
  rw [substituteTypeName,argumentName,looked]
  by_cases one : v.length = 1
  · exact if_pos one
  · have free : receiver.arguments v = none := by
      refine List.lookup_eq_none_iff.mpr fun binding member => ?_
      rw [bne_iff_ne]
      rintro rfl
      exact one (bindings_short receiver binding member)
    rw [if_neg one,free]
    rfl

/-- The replacement gives whole types exactly where names suffice. -/
theorem substitutesWholeTypes_iff (receiver : GenericReceiver) (t : TypeRef) :
    SubstitutesWholeTypes isPrimitiveType receiver t ↔ NamesSuffice isPrimitiveType receiver.arguments t := by
  have some_ : namesOf isPrimitiveType receiver ≠ [] := by cases receiver <;> simp [namesOf,GenericReceiver.bindings]
  rw [SubstitutesWholeTypes,substituted,createGenericTypeSubstitutionMap_receiver,applyTypeSubstitutions,if_neg some_]
  exact replaceIn_iff (holdsNames isPrimitiveType receiver) t

end

/-- `List<Map<Id, Account>>`, whose element is seen as a bare `Map`. -/
def nestedElement : GenericReceiver := .list (.mk [] ⟨"Map",by decide,by decide⟩
  [.mk [] ⟨"Id",by decide,by decide⟩ [] 0,.mk [] ⟨"Account",by decide,by decide⟩ [] 0] 0)

def elementType : TypeRef := .mk [] ⟨"T",by decide,by decide⟩ [] 0

/-- The arguments of a nested element are lost. -/
theorem nested_arguments_lost : ¬ ∀ (isPrimitiveType : String → Bool) (receiver : GenericReceiver) (t : TypeRef),
    @SubstitutesWholeTypes asciiRuntime isPrimitiveType receiver t := by
  intro always
  let _ := asciiRuntime
  have whole := congrArg (fun t => t.keyType.isSome) (always (fun _ => false) nestedElement elementType)
  revert whole
  decide +kernel

end ApexLs.Resolution
