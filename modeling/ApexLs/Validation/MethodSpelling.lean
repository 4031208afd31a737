import ApexLs.Validation.MethodHierarchy

/-! What the lookup of a method makes of another spelling of the methods. -/
namespace ApexLs.Validation.MethodResolutionValidator

open ApexLs.Collections ApexLs.Types ApexLs.Utils

section

variable (respell : String → String)

section

variable (s : ApexSymbol)
include s

@[simp] theorem respellSymbol_id : (respellSymbol respell s).id = s.id := by
  rw [respellSymbol]
  split <;> rfl

@[simp] theorem respellSymbol_kind : (respellSymbol respell s).kind = s.kind := by
  rw [respellSymbol]
  split <;> rfl

@[simp] theorem respellSymbol_parentId : (respellSymbol respell s).parentId = s.parentId := by
  rw [respellSymbol]
  split <;> rfl

@[simp] theorem respellSymbol_fileUri : (respellSymbol respell s).fileUri = s.fileUri := by
  rw [respellSymbol]
  split <;> rfl

@[simp] theorem isMethodSymbol_respellSymbol :
    isMethodSymbol (respellSymbol respell s) = isMethodSymbol s := by
  simp [isMethodSymbol]

@[simp] theorem isClassOrInterfaceSymbol_respellSymbol :
    isClassOrInterfaceSymbol (respellSymbol respell s) = isClassOrInterfaceSymbol s := by
  simp [isClassOrInterfaceSymbol]

@[simp] theorem isBlockSymbol_respellSymbol :
    (respellSymbol respell s).isBlockSymbol = s.isBlockSymbol := by
  simp [ApexSymbol.isBlockSymbol]

@[simp] theorem parentKey_respellSymbol : parentKey (respellSymbol respell s) = parentKey s := by
  simp [parentKey]

end

theorem respellSymbol_type (type : isClassOrInterfaceSymbol s = true) : respellSymbol respell s = s := by
  rw [respellSymbol,if_neg]
  intro method
  rw [isMethodSymbol,decide_eq_true_iff] at method
  simp [isClassOrInterfaceSymbol,method] at type

theorem respellSymbol_method (method : isMethodSymbol s = true) : (respellSymbol respell s).name = respell s.name := by
  rw [respellSymbol,if_pos method]

variable (manager : SymbolManager) (symbols : List ApexSymbol)

theorem getSymbol_respelled (id : String) :
    (manager.respelled respell).getSymbol id = (manager.getSymbol id).map (respellSymbol respell) := by
  simp [SymbolManager.getSymbol,SymbolManager.respelled,List.find?_map,Function.comp_def]

theorem findSymbolsInFile_respelled (fileUri : String) :
    (manager.respelled respell).findSymbolsInFile fileUri =
      (manager.findSymbolsInFile fileUri).map (respellSymbol respell) := by
  simp [SymbolManager.findSymbolsInFile,SymbolManager.respelled,List.filter_map,Function.comp_def]

theorem resolveParent_respelled (id : String) :
    resolveParent (manager.respelled respell) (symbols.map (respellSymbol respell)) id =
      (resolveParent manager symbols id).map (respellSymbol respell) := by
  simp only [resolveParent,List.find?_map,Function.comp_def,respellSymbol_id,getSymbol_respelled]
  cases symbols.find? fun s => s.id = id <;> rfl

theorem upward_respelled (s : ApexSymbol) :
    upward (manager.respelled respell) (symbols.map (respellSymbol respell)) (respellSymbol respell s) =
      (upward manager symbols s).map (Sum.map id (respellSymbol respell)) := by
  rw [upward,upward,isClassOrInterfaceSymbol_respellSymbol,parentKey_respellSymbol]
  split
  case isTrue type => simp [respellSymbol_type respell type]
  case isFalse =>
    cases parentKey s with
    | none => rfl
    | some key =>
      rw [Option.bind_some,Option.bind_some,resolveParent_respelled]
      cases resolveParent manager symbols key <;> rfl

theorem declaringClass_respelled (method : ApexSymbol) :
    declaringClass (manager.respelled respell) (symbols.map (respellSymbol respell)) (respellSymbol respell method) =
      declaringClass manager symbols method := by
  rw [declaringClass,declaringClass,SymbolManager.respelled,List.length_map,List.length_map]
  exact guardedWalk_map (respellSymbol respell) (respellSymbol_id respell) (upward_respelled respell manager symbols) _ _ _

theorem parentBlock_respelled (method : ApexSymbol) :
    parentBlock (manager.respelled respell) (symbols.map (respellSymbol respell)) (respellSymbol respell method) =
      (parentBlock manager symbols method).map (respellSymbol respell) := by
  rw [parentBlock,parentBlock,parentKey_respellSymbol,respellSymbol_parentId,List.find?_map]
  simp only [Function.comp_def,respellSymbol_id]
  cases symbols.find? fun s => .of s.id = method.parentId with
  | some block => rfl
  | none =>
    rw [Option.map_none,Option.none_or,Option.none_or]
    cases parentKey method with
    | none => rfl
    | some key =>
      rw [Option.bind_some,Option.bind_some,getSymbol_respelled]
      cases manager.getSymbol key <;> simp [Option.filter,apply_ite]

theorem blockParent_respelled (block : ApexSymbol) :
    blockParent (manager.respelled respell) (symbols.map (respellSymbol respell)) (respellSymbol respell block) =
      (blockParent manager symbols block).map (respellSymbol respell) := by
  rw [blockParent,blockParent,parentKey_respellSymbol,respellSymbol_parentId,List.find?_map]
  simp only [Function.comp_def,respellSymbol_id]
  cases symbols.find? fun s => .of s.id = block.parentId with
  | some parent => rfl
  | none =>
    rw [Option.map_none,Option.none_or,Option.none_or]
    cases parentKey block with
    | none => rfl
    | some key =>
      rw [Option.bind_some,Option.bind_some,getSymbol_respelled]
      cases manager.getSymbol key <;> simp [Option.filter,apply_ite]

theorem attributed_respelled (c method : ApexSymbol) :
    attributed (manager.respelled respell) (symbols.map (respellSymbol respell)) c (respellSymbol respell method) =
      attributed manager symbols c method := by
  have sameType_respelled (s : ApexSymbol) : (isClassOrInterfaceSymbol s && sameType c (respellSymbol respell s)) =
      (isClassOrInterfaceSymbol s && sameType c s) := by
    cases type : isClassOrInterfaceSymbol s
    · rfl
    · rw [respellSymbol_type respell type]
  rw [attributed,attributed,declaringClass_respelled,parentBlock_respelled,respellSymbol_parentId]
  simp only [Option.any_map,blockParent_respelled,isBlockSymbol_respellSymbol,
    isClassOrInterfaceSymbol_respellSymbol,sameType_respelled,respellSymbol_parentId]

theorem methodsInFile_respelled (c : ApexSymbol) :
    methodsInFile (manager.respelled respell) (symbols.map (respellSymbol respell)) c =
      (methodsInFile manager symbols c).map (respellSymbol respell) := by
  simp only [methodsInFile,findSymbolsInFile_respelled,List.filter_map,Function.comp_def,isMethodSymbol_respellSymbol,
    respellSymbol_fileUri,List.isEmpty_map]
  split
  · rfl
  · split <;> rfl

theorem findMethodsInClass_respelled (c : ApexSymbol) :
    findMethodsInClass (manager.respelled respell) (symbols.map (respellSymbol respell)) c =
      (findMethodsInClass manager symbols c).map (respellSymbol respell) := by
  simp only [findMethodsInClass,methodsInFile_respelled,List.filter_map,Function.comp_def,attributed_respelled]

theorem isMethodSymbol_of_found (found : m ∈ findMethodsInClass manager symbols c) : isMethodSymbol m = true := by
  have member := (List.mem_filter.mp found).1
  simp only [methodsInFile] at member
  split at member
  · exact absurd member List.not_mem_nil
  · split at member
    · exact (List.mem_filter.mp member).2
    · have both := (List.mem_filter.mp member).2
      rw [Bool.and_eq_true] at both
      exact both.1

end

def Level.respelled (l : Level) (respell : String → String) : Level :=
  ⟨l.classSymbol,l.symbols.map (respellSymbol respell)⟩

theorem isMethodSymbol_of_attributes [Runtime] {manager : SymbolManager} (mine : Attributes manager start m) :
    isMethodSymbol m = true := by
  obtain ⟨l,-,found⟩ := mine
  exact isMethodSymbol_of_found manager l.symbols found

section

variable [Runtime] {respell : String → String} (cased : ∀ n, toLowerCase (respell n) = toLowerCase n)
variable (manager : SymbolManager)

include cased

theorem toLowerCase_respellSymbol (s : ApexSymbol) : toLowerCase (respellSymbol respell s).name = toLowerCase s.name := by
  rw [respellSymbol]
  split
  · exact cased s.name
  · rfl

theorem superclassNamed_respelled (name : String) :
    superclassNamed (manager.respelled respell) name = superclassNamed manager name := by
  simp only [superclassNamed,SymbolManager.findSymbolByName,SymbolManager.respelled,List.filter_map,Function.comp_def,
    toLowerCase_respellSymbol cased,List.find?_map,isClassOrInterfaceSymbol_respellSymbol]
  cases found : List.find? _ _ with
  | none => rfl
  | some c =>
    have type : isClassOrInterfaceSymbol c = true := List.find?_some found
    rw [Option.map_some,respellSymbol_type respell type]

omit cased [Runtime] in
theorem symbolsOfFile_respelled (c : ApexSymbol) :
    symbolsOfFile (manager.respelled respell) c = (symbolsOfFile manager c).map (respellSymbol respell) := by
  rw [symbolsOfFile,symbolsOfFile,findSymbolsInFile_respelled]
  split <;> rfl

theorem superLevel_respelled (l : Level) :
    superLevel (manager.respelled respell) (l.respelled respell) = (superLevel manager l).map (·.respelled respell) := by
  simp only [superLevel,Level.respelled,superclassNamed_respelled cased,symbolsOfFile_respelled,Option.map_map]
  rfl

omit cased [Runtime] in
theorem startLevel_respelled (symbols : List ApexSymbol) (c : ApexSymbol) :
    startLevel (manager.respelled respell) (symbols.map (respellSymbol respell)) c =
      (startLevel manager symbols c).respelled respell := by
  simp only [startLevel,symbolsForClass,Level.respelled,List.any_map,Function.comp_def,respellSymbol_fileUri,
    findSymbolsInFile_respelled]
  split <;> rfl

theorem above_respelled (start : Level) : Above (manager.respelled respell) (start.respelled respell) l' ↔
    ∃ l, Above manager start l ∧ l' = l.respelled respell := by
  constructor
  · intro path
    induction path with
    | refl => exact ⟨start,.refl,rfl⟩
    | tail _ goes ih =>
      obtain ⟨l,above,rfl⟩ := ih
      rw [superLevel_respelled cased] at goes
      obtain ⟨further,onward,rfl⟩ := Option.map_eq_some_iff.mp goes
      exact ⟨further,above.tail onward,rfl⟩
  · rintro ⟨l,above,rfl⟩
    refine Relation.ReflTransGen.lift (·.respelled respell) (fun a b goes => ?_) _ _ above
    exact (superLevel_respelled cased manager a).trans (congrArg _ goes)

theorem attributes_respelled (start : Level) :
    Attributes (manager.respelled respell) (start.respelled respell) m' ↔
      ∃ m, Attributes manager start m ∧ m' = respellSymbol respell m := by
  constructor
  · rintro ⟨l',above,mine⟩
    obtain ⟨l,reached,rfl⟩ := (above_respelled cased manager start).mp above
    rw [Level.respelled,findMethodsInClass_respelled] at mine
    obtain ⟨m,found,rfl⟩ := List.mem_map.mp mine
    exact ⟨m,⟨l,reached,found⟩,rfl⟩
  · rintro ⟨m,⟨l,above,mine⟩,rfl⟩
    refine ⟨_,(above_respelled cased manager start).mpr ⟨l,above,rfl⟩,?_⟩
    rw [Level.respelled,findMethodsInClass_respelled]
    exact List.mem_map_of_mem mine

end

namespace Lookup

variable [Runtime] {q : Lookup}

theorem reported_iff : q.Reported ↔ (∃ classes, endsWithin (superLevel q.manager) (fun _ => false) (classes + 1) q.start = true) ∧
    (¬ ∃ m, Attributes q.manager q.start m ∧ m.name = q.methodName) ∧ ¬ 1 < q.chainNodes := by
  constructor
  · rintro ⟨classes,ends,reports⟩
    obtain ⟨errors,checked⟩ := Option.ne_none_iff_exists'.mp ends
    obtain ⟨methods,found,-⟩ := check_eq_some_iff.mp checked
    rw [checked] at reports
    have ended := lookFrom_isSome_iff.mp (Option.isSome_iff_exists.mpr ⟨methods,(find_eq q classes).symm.trans found⟩)
    exact ⟨⟨classes,ended⟩,(check_reports_iff checked).mp fun none => reports (congrArg some none)⟩
  · rintro ⟨⟨classes,ends⟩,missing⟩
    have answers : (lookFrom q.manager q.methodName classes q.start).isSome := lookFrom_isSome_iff.mpr ends
    obtain ⟨methods,found⟩ := Option.isSome_iff_exists.mp answers
    obtain ⟨errors,checked⟩ := check_of_find (q := q) found (fun code _ => code) default
    have reports := (check_reports_iff checked).mpr missing
    refine ⟨classes,by simp [checked],?_⟩
    rw [checked]
    exact fun none => reports (Option.some.inj none)

theorem reported_respelled_iff (cased : ∀ n, toLowerCase (respell n) = toLowerCase n) (methodName : String) :
    (q.respelled respell methodName).Reported ↔
      (∃ classes, endsWithin (superLevel q.manager) (fun _ => false) (classes + 1) q.start = true) ∧
        (¬ ∃ m, Attributes q.manager q.start m ∧ respell m.name = methodName) ∧ ¬ 1 < q.chainNodes := by
  have start : (q.respelled respell methodName).start = q.start.respelled respell :=
    startLevel_respelled q.manager q.allSymbols q.targetClass
  have ends (classes : Nat) := endsWithin_map (·.respelled respell) (superLevel_respelled cased q.manager) classes q.start
  have found : (∃ m, Attributes (q.manager.respelled respell) (q.start.respelled respell) m ∧ m.name = methodName) ↔
      ∃ m, Attributes q.manager q.start m ∧ respell m.name = methodName := by
    constructor
    · rintro ⟨m',mine',named⟩
      obtain ⟨m,mine,rfl⟩ := (attributes_respelled cased q.manager q.start).mp mine'
      rw [respellSymbol_method respell (isMethodSymbol_of_attributes mine)] at named
      exact ⟨m,mine,named⟩
    · rintro ⟨m,mine,named⟩
      refine ⟨_,(attributes_respelled cased q.manager q.start).mpr ⟨m,mine,rfl⟩,?_⟩
      rw [respellSymbol_method respell (isMethodSymbol_of_attributes mine)]
      exact named
  rw [reported_iff,start]
  exact and_congr (exists_congr fun classes => by rw [← ends]; rfl) (and_congr_left' (not_congr found))

/-- Where the superclasses end, another spelling makes no difference in three cases only: behind a
receiver, without a method of the name, and for a name that no letter case changes. -/
theorem steady_iff (straight : ¬ Loops (superLevel q.manager) (fun _ => false) q.start) : q.Steady ↔
    1 < q.chainNodes ∨ (¬ ∃ m, Attributes q.manager q.start m ∧ toLowerCase m.name = toLowerCase q.methodName) ∨
      ∀ n, toLowerCase n = toLowerCase q.methodName → n = q.methodName := by
  have answers : ∃ classes, (lookFrom q.manager q.methodName classes q.start).isSome := lookFrom_ends_iff.mpr straight
  obtain ⟨classes,ends⟩ := answers
  have ended := lookFrom_isSome_iff.mp ends
  constructor
  · intro steady
    by_contra other
    push Not at other
    obtain ⟨behind,⟨m,mine,named⟩,n,same,differs⟩ := other
    -- all methods of the name spelled as in the call, or the call spelled otherwise
    have cased : ∀ k, toLowerCase (if toLowerCase k = toLowerCase q.methodName then q.methodName else k) = toLowerCase k := by
      intro k
      split
      case isTrue equal => exact equal.symm
      case isFalse => rfl
    have verdict := (steady _ q.methodName cased rfl).trans (steady _ n cased same).symm
    rw [reported_respelled_iff cased,reported_respelled_iff cased] at verdict
    have missing := verdict.mpr ⟨⟨classes,ended⟩,?_,Nat.not_lt.mpr behind⟩
    · exact missing.2.1 ⟨m,mine,if_pos named⟩
    · rintro ⟨k,-,spelled⟩
      split at spelled
      case isTrue => exact differs spelled.symm
      case isFalse other => exact other (spelled ▸ same)
  · intro cases_ respell methodName cased same
    rw [reported_respelled_iff cased,reported_iff]
    refine and_congr_right fun _ => and_congr_left fun behind => not_congr ?_
    rcases cases_ with far | nowhere | fixed
    · exact absurd far behind
    · refine iff_of_false (fun ⟨m,mine,named⟩ => nowhere ⟨m,mine,?_⟩) (fun ⟨m,mine,named⟩ => nowhere ⟨m,mine,congrArg _ named⟩)
      rw [← cased,named,same]
    · refine exists_congr fun m => and_congr_right fun _ => ?_
      rw [fixed methodName same]
      constructor
      · intro named
        exact fixed m.name (by rw [← cased,named])
      · intro named
        exact fixed (respell m.name) (by rw [cased,named])

/-- The lookup is exact and ends if and only if the superclasses end, every method of the name is
spelled as in the call and taken for one of its class, and no receiver hides a missing method. The
verdict then holds in any spelling if and only if it never depends on one. -/
theorem finds_any_spelling_iff (q : Lookup) : (q.Finds ↔ q.Plain) ∧ (q.Finds ∧ q.Steady ↔ q.Plain ∧
    (1 < q.chainNodes ∨ (¬ ∃ m, Attributes q.manager q.start m ∧ toLowerCase m.name = toLowerCase q.methodName) ∨
      ∀ n, toLowerCase n = toLowerCase q.methodName → n = q.methodName)) := by
  refine ⟨finds_iff,?_⟩
  rw [finds_iff]
  exact and_congr_right fun plain => steady_iff plain.straight

end Lookup

/-- `class Car { void startEngine() {} }` and, in it, the call `startengine()` -/
def garage : Lookup :=
  let site : SymbolLocation := ⟨⟨1,0,3,1⟩,⟨1,6,1,9⟩⟩
  let car : ApexSymbol := { id := "Car",name := "Car",kind := .class_,location := site,fileUri := "file:///Car.cls" }
  let block : ApexSymbol :=
    { id := "Car:block",name := "class_1_10",kind := .block,location := site,fileUri := "file:///Car.cls",parentId := .of "Car" }
  let startEngine : ApexSymbol :=
    { id := "Car:startEngine",name := "startEngine",kind := .method,location := site,fileUri := "file:///Car.cls"
      parentId := .of "Car:block" }
  ⟨⟨[car,block,startEngine]⟩,[car,block,startEngine],car,"startengine",1⟩

/-- A call in lower case does not find the method and is reported. -/
theorem lower_case_call_missed : (@Lookup.find asciiRuntime garage 0).map List.length = some 0 ∧
    @Lookup.Reported asciiRuntime garage ∧ ¬ @Lookup.Finds asciiRuntime garage := by
  let _ := asciiRuntime
  have missed : (garage.find 0).map List.length = some 0 := by decide +kernel
  have said : ((garage.check (fun code _ => code) default 0).map fun errors => errors.map (·.code)) =
      some [some "invalid.method.not.found"] := by
    decide +kernel
  obtain ⟨errors,checked,codes⟩ := Option.map_eq_some_iff.mp said
  have nonempty : errors ≠ [] := fun none => by rw [none] at codes; cases codes
  have declared : (declaringClass garage.manager garage.allSymbols (garage.allSymbols.getLast (by decide))).map (·.id) =
      some garage.targetClass.id := by
    decide +kernel
  obtain ⟨c,walked,same⟩ := Option.map_eq_some_iff.mp declared
  have inherited : Inherits garage.manager garage.start garage.methodName (garage.allSymbols.getLast (by decide)) :=
    ⟨⟨garage.start,.refl,List.mem_singleton.mpr rfl,c,walked,same⟩,by decide +kernel⟩
  refine ⟨missed,⟨0,by simp [checked],?_⟩,fun finds => ?_⟩
  · rw [checked]
    exact fun none => nonempty (Option.some.inj none)
  · exact (finds.reports _ _ 0 errors checked).mp nonempty ⟨_,inherited⟩

end ApexLs.Validation.MethodResolutionValidator
