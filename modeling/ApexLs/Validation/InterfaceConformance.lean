import ApexLs.Collections.MarkingSearch
import ApexLs.Collections.OrderedMap
import ApexLs.Validation.HierarchyCycles
import ApexLs.Validation.Inheritance

/-! What the validator of interface hierarchies reports for a class and an interface it implements. -/
namespace ApexLs.Validation.InterfaceHierarchyValidator

open ApexLs.Collections ApexLs.Types ApexLs.Utils

variable [Runtime]

def methodsOf (allSymbols : List ApexSymbol) (t : ApexSymbol) : List ApexSymbol :=
  allSymbols.filter fun s => s.kind = .method &&
    (s.parentId = .of t.id || (classBlockOf allSymbols t).any (fun block => block.id ≠ "" && s.parentId = .of block.id))

/-- `parameters.map((p) => p.type.name.toLowerCase())`; a parameter has a type. -/
def parameterTypeNames (method : ApexSymbol) : List String :=
  (method.parameters.getD []).map fun p => toLowerCase ((p.type.map TypeInfo.name).getD "")

def getMethodSignature (method : ApexSymbol) : String :=
  toLowerCase method.name ++ "(" ++ ",".intercalate (parameterTypeNames method) ++ ")"

def isMethodImplemented (classMethod interfaceMethod : ApexSymbol) : Bool :=
  toLowerCase classMethod.name = toLowerCase interfaceMethod.name &&
    parameterTypeNames classMethod = parameterTypeNames interfaceMethod

/-- A method is kept under its signature, unless one is there. -/
def addMethod (methods : OrderedMap String ApexSymbol) (method : ApexSymbol) : OrderedMap String ApexSymbol :=
  if methods.has (getMethodSignature method) then methods else methods.set (getMethodSignature method) method

section

variable (allInterfaces allSymbols : List ApexSymbol)

def getAllInterfaceMethods (iface : ApexSymbol) : Option (List ApexSymbol) :=
  (MarkingSearch.visitOnce (extendedTypes interfaceNames allInterfaces) (fun i => toLowerCase i.name)
    (fun i methods => (methodsOf allSymbols i).foldl addMethod methods) (frames allInterfaces) iface ([],.empty)).map
    fun found => found.2.entries.map Prod.snd

def hasDeprecatedAnnotation (s : ApexSymbol) : Bool :=
  (s.annotations.getD []).any fun ann => trim (String.ofList ((toLowerCase ann.name).toList.takeWhile (· ≠ '('))) = "deprecated"

def isPublic (v : SymbolVisibility) : Bool := v = .global || v = .public_

variable (localizeTyped : Localizer)

def checkRequired (cls : ApexSymbol) (classMethods : List ApexSymbol) (requiredMethod : ApexSymbol) : List ValidationInfo :=
  match classMethods.find? (isMethodImplemented · requiredMethod) with
  | none =>
    [reported localizeTyped "interface.implementation.missing.method" [cls.name,requiredMethod.name] cls.location]
  | some implementingMethod =>
    (if hasDeprecatedAnnotation implementingMethod then
      [reported localizeTyped "interface.implementation.method.deprecated" [implementingMethod.name] implementingMethod.location]
    else []) ++
    (if isPublic requiredMethod.modifiers.visibility && !isPublic implementingMethod.modifiers.visibility then
      [reported localizeTyped "interface.implementation.method.not.visible" [implementingMethod.name,requiredMethod.name]
        implementingMethod.location]
    else [])

/-- The errors and the warnings for one name among the interfaces of a class. -/
def checkInterface (cls : ApexSymbol) (ifaceName : String) : Option (List ValidationInfo × List ValidationInfo) :=
  match typeNamed allInterfaces ifaceName with
  | none => some ([],[⟨"Interface '" ++ ifaceName ++ "' implemented by class '" ++ cls.name ++
    "' not found in current file or symbol manager",
      some cls.location,some "MISSING_INTERFACE"⟩])
  | some iface =>
    if iface.kind ≠ .interface then some ([reported localizeTyped "invalid.interface" [ifaceName] cls.location],[])
    else (getAllInterfaceMethods allInterfaces allSymbols iface).map fun requiredMethods =>
      (requiredMethods.flatMap (checkRequired localizeTyped cls (methodsOf allSymbols cls)),[])

/-- The second pass over the interfaces of a class, with the names that came before. -/
def checkInterfaces (cls : ApexSymbol) (seenInterfaces : List String) :
    List String → Option (List ValidationInfo × List ValidationInfo)
  | [] => some ([],[])
  | ifaceName :: rest =>
    let ifaceKey := toLowerCase ifaceName
    (if ifaceKey ∈ seenInterfaces then
      some ([reported localizeTyped "interface.already.implemented" [ifaceName] cls.location],[])
    else checkInterface allInterfaces allSymbols localizeTyped cls ifaceName).bind fun here =>
      (checkInterfaces cls (seenInterfaces ++ [ifaceKey]) rest).map fun later => (here.1 ++ later.1,here.2 ++ later.2)

def checkClass (cls : ApexSymbol) : Option (List ValidationInfo × List ValidationInfo) :=
  if cls.modifiers.isAbstract then some ([],[])
  else checkInterfaces allInterfaces allSymbols localizeTyped cls [] (interfaceNames cls)

end

section

variable (allInterfaces allSymbols : List ApexSymbol)

/-- The required methods of an interface that are reported as missing in a class. -/
def missingMethods (cls iface : ApexSymbol) : Option (List ApexSymbol) :=
  (getAllInterfaceMethods allInterfaces allSymbols iface).map
    (List.filter fun r => !(methodsOf allSymbols cls).any (isMethodImplemented · r))

theorem checkInterface_missing (localizeTyped : Localizer) (cls : ApexSymbol)
    (found : typeNamed allInterfaces ifaceName = some iface)
    (interface : iface.kind = .interface) :
    (checkInterface allInterfaces allSymbols localizeTyped cls ifaceName).map
        (fun r => r.1.filter (·.code = some "interface.implementation.missing.method")) =
      (missingMethods allInterfaces allSymbols cls iface).map (List.map fun r =>
        reported localizeTyped "interface.implementation.missing.method" [cls.name,r.name] cls.location) := by
  have one (r : ApexSymbol) : (checkRequired localizeTyped cls (methodsOf allSymbols cls) r).filter
      (·.code = some "interface.implementation.missing.method") =
        if (methodsOf allSymbols cls).any (isMethodImplemented · r) then []
        else [reported localizeTyped "interface.implementation.missing.method" [cls.name,r.name] cls.location] := by
    have any_ : (methodsOf allSymbols cls).any (isMethodImplemented · r) =
        ((methodsOf allSymbols cls).find? (isMethodImplemented · r)).isSome := by
      rw [Bool.eq_iff_iff,List.find?_isSome,List.any_eq_true]
    rw [checkRequired,any_]
    cases (methodsOf allSymbols cls).find? (isMethodImplemented · r) with
    | none => simp [reported]
    | some m =>
      by_cases deprecated : hasDeprecatedAnnotation m <;>
        by_cases hidden : isPublic r.modifiers.visibility && !isPublic m.modifiers.visibility <;>
          simp [reported,deprecated,hidden]
  simp only [checkInterface,found,interface,ne_eq,not_true_eq_false,if_false,missingMethods,Option.map_map]
  congr 1
  funext required
  simp only [Function.comp_apply,List.filter_flatMap,one]
  induction required with
  | nil => rfl
  | cons r rest ih =>
    rw [List.flatMap_cons,ih,List.filter_cons]
    cases (methodsOf allSymbols cls).any (isMethodImplemented · r) <;> rfl

end

mutual

/-- A type by its names in lower case, with its generic arguments. -/
def shape : TypeInfo → TypeInfo
  | .mk name _ _ _ _ typeParameters keyType _ =>
    .mk (toLowerCase name) "" false false false (shapes typeParameters) (keyShape keyType) none

def shapes : List TypeInfo → List TypeInfo
  | [] => []
  | t :: ts => shape t :: shapes ts

def keyShape : Option TypeInfo → Option TypeInfo
  | none => none
  | some t => some (shape t)

end

def parameterShapes (method : ApexSymbol) : List (Option TypeInfo) := (method.parameters.getD []).map fun p => p.type.map shape

/-- The same name ignoring case, and the same parameter types with their generic arguments. -/
def SameSignature (a b : ApexSymbol) : Prop := toLowerCase a.name = toLowerCase b.name ∧ parameterShapes a = parameterShapes b

section

variable (allInterfaces allSymbols : List ApexSymbol)

/-- A method of the interface or of one that it extends, directly or not. -/
def Required (iface m : ApexSymbol) : Prop :=
  ∃ i, Relation.ReflTransGen (Extends interfaceNames allInterfaces) iface i ∧ m ∈ methodsOf allSymbols i

def visibleClasses : List ApexSymbol := allSymbols.filter (·.kind = .class_)

/-- The class, or one it inherits from, declares a method of the signature. -/
def Provided (cls r : ApexSymbol) : Prop :=
  ∃ d, Relation.ReflTransGen (Extends superNames (visibleClasses allSymbols)) cls d ∧
    ∃ m ∈ methodsOf allSymbols d, SameSignature m r

/-- The required signatures are considered once each, and reported where they are not provided. -/
structure ConformsTo (cls iface : ApexSymbol) (considered missing : List ApexSymbol) : Prop where
  sound : ∀ m ∈ considered, Required allInterfaces allSymbols iface m
  complete : ∀ r, Required allInterfaces allSymbols iface r → ∃ m ∈ considered, SameSignature m r
  once : considered.Pairwise (¬ SameSignature · ·)
  reported : ∀ r, Required allInterfaces allSymbols iface r → ((∃ m ∈ missing, SameSignature m r) ↔ ¬ Provided allSymbols cls r)

def ReportedExactly (cls iface : ApexSymbol) : Prop :=
  ∃ considered missing, getAllInterfaceMethods allInterfaces allSymbols iface = some considered ∧
    missingMethods allInterfaces allSymbols cls iface = some missing ∧
      ConformsTo allInterfaces allSymbols cls iface considered missing

/-- Required methods differ by more than generic arguments, and the class itself has a method of the name and the
bare types exactly where the signature is provided. -/
structure BareTypesTell (cls iface : ApexSymbol) : Prop where
  apart : ∀ r r', Required allInterfaces allSymbols iface r → Required allInterfaces allSymbols iface r' →
    getMethodSignature r = getMethodSignature r' → SameSignature r r'
  own : ∀ r, Required allInterfaces allSymbols iface r →
    ((∃ m ∈ methodsOf allSymbols cls, isMethodImplemented m r = true) ↔ Provided allSymbols cls r)

end

theorem SameSignature.symm (same : SameSignature a b) : SameSignature b a := ⟨same.1.symm,same.2.symm⟩

theorem SameSignature.trans (first : SameSignature a b) (second : SameSignature b c) : SameSignature a c :=
  ⟨first.1.trans second.1,first.2.trans second.2⟩

theorem shape_name (t : TypeInfo) : (shape t).name = toLowerCase t.name := by
  cases t
  rw [shape]
  rfl

theorem parameterTypeNames_eq (m : ApexSymbol) :
    parameterTypeNames m = (parameterShapes m).map fun t => t.elim (toLowerCase "") TypeInfo.name := by
  rw [parameterTypeNames,parameterShapes,List.map_map]
  refine List.map_congr_left fun p _ => ?_
  rw [Function.comp_apply]
  cases p.type with
  | none => rfl
  | some t => exact (shape_name t).symm

theorem SameSignature.bare (same : SameSignature a b) : getMethodSignature a = getMethodSignature b ∧
    ∀ m, isMethodImplemented m a = isMethodImplemented m b := by
  have types : parameterTypeNames a = parameterTypeNames b := by rw [parameterTypeNames_eq,parameterTypeNames_eq,same.2]
  refine ⟨?_,fun m => ?_⟩
  · rw [getMethodSignature,getMethodSignature,same.1,types]
  · rw [isMethodImplemented,isMethodImplemented,same.1,types]

structure Kept (methods : OrderedMap String ApexSymbol) (added : List ApexSymbol) : Prop where
  sound : ∀ k m, methods.get? k = some m → m ∈ added ∧ getMethodSignature m = k
  complete : ∀ m ∈ added, methods.has (getMethodSignature m) = true

theorem kept_empty : Kept .empty [] where
  sound _ _ found := by cases found
  complete _ member := by cases member

theorem kept_addMethod (kept : Kept methods added) (m : ApexSymbol) : Kept (addMethod methods m) (added ++ [m]) := by
  rw [addMethod]
  split
  next present =>
    refine ⟨fun k n found => ?_,fun n member => ?_⟩
    · obtain ⟨inside,key⟩ := kept.sound k n found
      exact ⟨List.mem_append_left _ inside,key⟩
    · rcases List.mem_append.mp member with before | here
      · exact kept.complete n before
      · obtain rfl := List.mem_singleton.mp here
        exact present
  next absent =>
    refine ⟨fun k n found => ?_,fun n member => ?_⟩
    · rw [OrderedMap.get?_set] at found
      split at found
      next same =>
        obtain rfl := Option.some.inj found
        exact ⟨by simp,same.symm⟩
      next other =>
        obtain ⟨inside,key⟩ := kept.sound k n found
        exact ⟨List.mem_append_left _ inside,key⟩
    · rw [OrderedMap.has,OrderedMap.get?_set]
      split
      next => rfl
      next other =>
        rcases List.mem_append.mp member with before | here
        · exact kept.complete n before
        · exact absurd (congrArg getMethodSignature (List.mem_singleton.mp here)) other

theorem kept_foldl (kept : Kept methods added) (more : List ApexSymbol) :
    Kept (more.foldl addMethod methods) (added ++ more) := by
  induction more generalizing methods added with
  | nil => simpa using kept
  | cons m more ih =>
    have step := ih (kept_addMethod kept m)
    rwa [List.append_assoc] at step

theorem kept_foldl_foldl (allSymbols : List ApexSymbol) (kept : Kept methods added) (interfaces : List ApexSymbol) :
    Kept (interfaces.foldl (fun ms i => (methodsOf allSymbols i).foldl addMethod ms) methods)
      (added ++ interfaces.flatMap (methodsOf allSymbols)) := by
  induction interfaces generalizing methods added with
  | nil => simpa using kept
  | cons i interfaces ih =>
    have step := ih (kept_foldl kept (methodsOf allSymbols i))
    rwa [List.append_assoc] at step

theorem typeSymbollower (same : toLowerCase a = toLowerCase b) (allTypes : List ApexSymbol) :
    typeNamed allTypes a = typeNamed allTypes b := by
  rw [typeNamed,typeNamed,same]

theorem typeSymbolself (found : typeNamed allTypes name = some t) : typeNamed allTypes t.name = some t := by
  have same : toLowerCase t.name = toLowerCase name := by simpa using List.find?_some found
  rwa [typeSymbollower same]

theorem getAllInterfaceMethods_spec (allInterfaces allSymbols : List ApexSymbol)
    (named : typeNamed allInterfaces ifaceName = some iface) :
    ∃ considered, getAllInterfaceMethods allInterfaces allSymbols iface = some considered ∧
      (∀ m ∈ considered, Required allInterfaces allSymbols iface m) ∧
      (∀ r, Required allInterfaces allSymbols iface r → ∃ m ∈ considered, getMethodSignature m = getMethodSignature r) ∧
      (considered.map getMethodSignature).Nodup := by
  have reaches (b) : MarkingSearch.Reaches (extendedTypes interfaceNames allInterfaces) iface b ↔
      Relation.ReflTransGen (Extends interfaceNames allInterfaces) iface b := by
    have links : (fun a b => b ∈ extendedTypes interfaceNames allInterfaces a) = Extends interfaceNames allInterfaces := by
      funext a b
      exact propext mem_extendedTypes
    rw [MarkingSearch.Reaches,links]
  have first (b) (reached : Relation.ReflTransGen (Extends interfaceNames allInterfaces) iface b) :
      typeNamed allInterfaces b.name = some b := by
    rcases Relation.ReflTransGen.cases_tail reached with rfl | ⟨_,_,_,_,found⟩
    · exact typeSymbolself named
    · exact typeSymbolself found
  have ends : (getAllInterfaceMethods allInterfaces allSymbols iface).isSome := by
    rw [getAllInterfaceMethods,Option.isSome_map]
    refine MarkingSearch.visitOnce_ends (allInterfaces.map fun i => toLowerCase i.name) ?_ iface _ (by simp [frames])
    intro a b link
    obtain ⟨_,_,found⟩ := mem_extendedTypes.mp link
    exact List.mem_map.mpr ⟨b,List.mem_of_find?_eq_some found,rfl⟩
  obtain ⟨considered,gathered⟩ := Option.isSome_iff_exists.mp ends
  obtain ⟨after,found,rfl⟩ := Option.map_eq_some_iff.mp gathered
  obtain ⟨met,data,entered⟩ := MarkingSearch.visitOnce_reaches found (by
    intro b c toB toC same
    exact Option.some.inj ((first b ((reaches b).mp toB)).symm.trans
      ((typeSymbollower same _).trans (first c ((reaches c).mp toC)))))
  have kept : Kept after.2 (met.flatMap (methodsOf allSymbols)) := by
    have all := kept_foldl_foldl allSymbols (kept_empty) met
    rw [data]
    simpa using all
  have required (m) : m ∈ met.flatMap (methodsOf allSymbols) ↔ Required allInterfaces allSymbols iface m := by
    simp only [List.mem_flatMap,entered,reaches]
    rfl
  refine ⟨_,gathered,?_,?_,?_⟩
  · intro m member
    obtain ⟨⟨k,_⟩,entry,rfl⟩ := List.mem_map.mp member
    exact (required _).mp (kept.sound k _ (OrderedMap.get?_eq_some_iff.mpr entry)).1
  · intro r needed
    obtain ⟨m,got⟩ := OrderedMap.has_iff.mp (kept.complete r ((required r).mpr needed))
    exact ⟨m,List.mem_map.mpr ⟨_,OrderedMap.get?_eq_some_iff.mp got,rfl⟩,(kept.sound _ m got).2⟩
  · have keys : (after.2.entries.map Prod.snd).map getMethodSignature = after.2.entries.map Prod.fst := by
      rw [List.map_map]
      refine List.map_congr_left fun p entry => ?_
      exact (kept.sound p.1 p.2 (OrderedMap.get?_eq_some_iff.mpr entry)).2
    rw [keys]
    exact after.2.unique

theorem mem_missing_iff {considered own : List ApexSymbol}
    (inside : m ∈ considered) (same : SameSignature m r) :
    (∃ n ∈ considered.filter (fun r => !own.any (isMethodImplemented · r)), SameSignature n r) ↔
      ¬ ∃ i ∈ own, isMethodImplemented i r = true := by
  have bare (n) (alike : SameSignature n r) : own.any (isMethodImplemented · n) = own.any (isMethodImplemented · r) := by
    simp only [alike.bare.2]
  constructor
  · rintro ⟨n,member,alike⟩ implemented
    have none_ := (List.mem_filter.mp member).2
    rw [bare n alike,List.any_eq_true.mpr implemented] at none_
    cases none_
  · intro none_
    refine ⟨m,List.mem_filter.mpr ⟨inside,?_⟩,same⟩
    rw [bare m same,Bool.not_eq_true']
    exact Bool.eq_false_of_not_eq_true fun any_ => none_ (List.any_eq_true.mp any_)

/-- Missing methods of an interface are reported exactly where the bare types of the parameters tell what is provided. -/
theorem reportedExactly_iff_bareTypesTell (allInterfaces allSymbols : List ApexSymbol) (cls : ApexSymbol) (ifaceName : String)
    (iface : ApexSymbol) (named : typeNamed allInterfaces ifaceName = some iface) :
    ReportedExactly allInterfaces allSymbols cls iface ↔ BareTypesTell allInterfaces allSymbols cls iface := by
  obtain ⟨considered,gathered,sound,complete,once⟩ := getAllInterfaceMethods_spec allInterfaces allSymbols named
  have missing_ : missingMethods allInterfaces allSymbols cls iface =
      some (considered.filter fun r => !(methodsOf allSymbols cls).any (isMethodImplemented · r)) := by
    rw [missingMethods,gathered,Option.map_some]
  constructor
  · rintro ⟨considered',missing',gathered',missing'',conforms⟩
    obtain rfl := Option.some.inj (gathered.symm.trans gathered')
    obtain rfl := Option.some.inj (missing_.symm.trans missing'')
    refine ⟨fun r r' needed needed' same => ?_,fun r needed => ?_⟩
    · obtain ⟨m,inside,alike⟩ := conforms.complete r needed
      obtain ⟨m',inside',alike'⟩ := conforms.complete r' needed'
      have keys : getMethodSignature m = getMethodSignature m' := by rw [alike.bare.1,same,alike'.bare.1]
      obtain rfl := List.inj_on_of_nodup_map once inside inside' keys
      exact alike.symm.trans alike'
    · obtain ⟨m,inside,alike⟩ := conforms.complete r needed
      exact not_iff_not.mp ((mem_missing_iff inside alike).symm.trans (conforms.reported r needed))
  · intro tells
    have represented (r) (needed : Required allInterfaces allSymbols iface r) : ∃ m ∈ considered, SameSignature m r := by
      obtain ⟨m,inside,same⟩ := complete r needed
      exact ⟨m,inside,tells.apart m r (sound m inside) needed same⟩
    refine ⟨considered,_,gathered,missing_,sound,represented,?_,fun r needed => ?_⟩
    · have apart := List.pairwise_map.mp once
      exact apart.imp fun differ same => differ same.bare.1
    · obtain ⟨m,inside,alike⟩ := represented r needed
      exact (mem_missing_iff inside alike).trans (not_congr (tells.own r needed))

def typeSymbol (name : String) (kind : SymbolKind) (superClass : Option String) (interfaces : List String) : ApexSymbol :=
  { id := name,name := name,kind := kind,location := ⟨⟨1,0,1,0⟩,⟨1,0,1,0⟩⟩,fileUri := "file:///" ++ name ++ ".cls"
    superClass := superClass,interfaces := some interfaces }

def runOf (name : String) : ApexSymbol :=
  { id := name ++ ":run",name := "run",kind := .method,location := ⟨⟨1,0,1,0⟩,⟨1,0,1,0⟩⟩,fileUri := "file:///" ++ name ++ ".cls"
    parentId := .of name,parameters := some [] }

def runs : ApexSymbol := typeSymbol "Runs" .interface none []

def base : ApexSymbol := typeSymbol "Base" .class_ none ["Runs"]

def derived : ApexSymbol := typeSymbol "Derived" .class_ (some "Base") ["Runs"]

def inheriting : List ApexSymbol := [runs,runOf "Runs",base,runOf "Base",derived]

omit [Runtime] in
theorem methodsOf_runs : methodsOf inheriting runs = [runOf "Runs"] := by
  simp [methodsOf,inheriting,runs,base,derived,runOf,typeSymbol,classBlockOf,isClassBlock,ApexSymbol.isBlockSymbol]

omit [Runtime] in
theorem methodsOf_base : methodsOf inheriting base = [runOf "Base"] := by
  simp [methodsOf,inheriting,runs,base,derived,runOf,typeSymbol,classBlockOf,isClassBlock,ApexSymbol.isBlockSymbol]

theorem required_runs (m : ApexSymbol) : Required [runs] inheriting runs m ↔ m = runOf "Runs" := by
  constructor
  · rintro ⟨i,reached,member⟩
    rcases Relation.ReflTransGen.cases_head reached with rfl | ⟨j,⟨name,extended,_⟩,_⟩
    · rw [methodsOf_runs] at member
      exact List.mem_singleton.mp member
    · cases extended
  · rintro rfl
    exact ⟨runs,.refl,by rw [methodsOf_runs]; exact List.mem_singleton.mpr rfl⟩

omit [Runtime] in
/-- A class with the required method itself. -/
theorem base_reportedExactly : @ReportedExactly asciiRuntime [runs] inheriting base runs := by
  let _ := asciiRuntime
  refine (reportedExactly_iff_bareTypesTell [runs] inheriting base "Runs" runs rfl).mpr ⟨?_,?_⟩
  · intro r r' needed needed' _
    rw [(required_runs r).mp needed,(required_runs r').mp needed']
    exact ⟨rfl,rfl⟩
  · intro r needed
    obtain rfl := (required_runs r).mp needed
    refine iff_of_true ⟨runOf "Base",?_,by decide +kernel⟩ ⟨base,.refl,runOf "Base",?_,rfl,rfl⟩ <;>
      rw [methodsOf_base] <;> exact List.mem_singleton.mpr rfl

omit [Runtime] in
/-- A class that inherits the required method is reported. -/
theorem inherited_method_ignored :
    ¬ ∀ (allInterfaces allSymbols : List ApexSymbol) (cls : ApexSymbol) (ifaceName : String) (iface : ApexSymbol),
      @typeNamed asciiRuntime allInterfaces ifaceName = some iface →
        @ReportedExactly asciiRuntime allInterfaces allSymbols cls iface := by
  intro always
  let _ := asciiRuntime
  obtain ⟨considered,missing,gathered,missing_,conforms⟩ := always [runs] inheriting derived "Runs" runs rfl
  rw [missingMethods,gathered,Option.map_some] at missing_
  obtain rfl := Option.some.inj missing_
  have needed : Required [runs] inheriting runs (runOf "Runs") := (required_runs _).mpr rfl
  obtain ⟨m,inside,alike⟩ := conforms.complete _ needed
  have none_ : methodsOf inheriting derived = [] := by
    simp [methodsOf,inheriting,runs,base,derived,runOf,typeSymbol,classBlockOf,isClassBlock,ApexSymbol.isBlockSymbol]
  have lacks : ¬ ∃ i ∈ methodsOf inheriting derived, isMethodImplemented i (runOf "Runs") = true := by
    rw [none_]
    simp
  have reported := (mem_missing_iff inside alike).mpr lacks
  have extends_ : Extends superNames (visibleClasses inheriting) derived base :=
    ⟨"Base",List.mem_singleton.mpr rfl,rfl⟩
  exact (conforms.reported _ needed).mp reported
    ⟨base,.single extends_,runOf "Base",by rw [methodsOf_base]; exact List.mem_singleton.mpr rfl,rfl,rfl⟩

end ApexLs.Validation.InterfaceHierarchyValidator
