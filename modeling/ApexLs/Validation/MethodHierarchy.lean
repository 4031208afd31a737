import ApexLs.Collections.Chains
import ApexLs.Validation.MethodLookup

/-! When the lookup of a method through the superclasses is exact and ends. -/
namespace ApexLs.Validation.MethodResolutionValidator

open ApexLs.Collections ApexLs.Types ApexLs.Utils

section

variable [Runtime] (manager : SymbolManager)

def matchingMethods (methodName : String) (l : Level) : List ApexSymbol :=
  (findMethodsInClass manager l.symbols l.classSymbol).filter fun m => m.name = methodName

/-- The lookup from a class on, in so many superclasses at most. -/
def lookFrom (methodName : String) (classes : Nat) (l : Level) : Option (List ApexSymbol) :=
  match l.classSymbol.superClass.filter (· ≠ "") with
  | none => some (matchingMethods manager methodName l)
  | some further =>
    (findMethodsInSuperclass manager methodName classes further).map (matchingMethods manager methodName l ++ ·)

variable {manager}

theorem findMethodsInSuperclass_missing (missing : superclassNamed manager name = none) (methodName : String) (classes : Nat) :
    findMethodsInSuperclass manager methodName classes name = some [] := by
  cases classes with
  | zero => simp [findMethodsInSuperclass,missing]
  | succ classes => simp [findMethodsInSuperclass,missing]

theorem findMethodsInSuperclass_succ (found : superclassNamed manager name = some c) (methodName : String) (classes : Nat) :
    findMethodsInSuperclass manager methodName (classes + 1) name =
      lookFrom manager methodName classes ⟨c,symbolsOfFile manager c⟩ := by
  rw [findMethodsInSuperclass,found]
  rfl

theorem lookFrom_last (last : superLevel manager l = none) (methodName : String) (classes : Nat) :
    lookFrom manager methodName classes l = some (matchingMethods manager methodName l) := by
  rw [lookFrom]
  cases extends_ : l.classSymbol.superClass.filter (· ≠ "") with
  | none => rfl
  | some further =>
    rw [superLevel,extends_] at last
    have missing : superclassNamed manager further = none := Option.map_eq_none_iff.mp last
    simp [findMethodsInSuperclass_missing missing]

theorem superLevel_eq_some (goes : superLevel manager l = some l') : ∃ further c,
    l.classSymbol.superClass.filter (· ≠ "") = some further ∧ superclassNamed manager further = some c ∧
      l' = ⟨c,symbolsOfFile manager c⟩ := by
  obtain ⟨c,named,rfl⟩ := Option.map_eq_some_iff.mp goes
  obtain ⟨further,extends_,named⟩ := Option.bind_eq_some_iff.mp named
  exact ⟨further,c,extends_,named,rfl⟩

theorem lookFrom_zero (goes : superLevel manager l = some l') (methodName : String) :
    lookFrom manager methodName 0 l = none := by
  obtain ⟨further,c,extends_,named,-⟩ := superLevel_eq_some goes
  rw [lookFrom,extends_]
  simp [findMethodsInSuperclass,named]

theorem lookFrom_succ (goes : superLevel manager l = some l') (methodName : String) (classes : Nat) :
    lookFrom manager methodName (classes + 1) l =
      (lookFrom manager methodName classes l').map (matchingMethods manager methodName l ++ ·) := by
  obtain ⟨further,c,extends_,named,rfl⟩ := superLevel_eq_some goes
  rw [lookFrom,extends_]
  simp only [findMethodsInSuperclass_succ named]

theorem lookFrom_eq (methodName : String) (classes : Nat) (l : Level) : lookFrom manager methodName classes l =
    if endsWithin (superLevel manager) (fun _ => false) (classes + 1) l then
      some ((chainFrom (superLevel manager) (classes + 1) l).flatMap (matchingMethods manager methodName))
    else none := by
  induction classes generalizing l with
  | zero =>
    rw [endsWithin,chainFrom]
    cases goes : superLevel manager l with
    | none => simp [lookFrom_last goes]
    | some l' => simp [lookFrom_zero goes,endsWithin]
  | succ classes ih =>
    rw [endsWithin,chainFrom]
    cases goes : superLevel manager l with
    | none => simp [lookFrom_last goes]
    | some l' =>
      rw [lookFrom_succ goes,ih l',Option.all_some,Option.elim_some,List.flatMap_cons,Bool.false_or]
      split
      · rfl
      · rfl

omit [Runtime] in
theorem mem_matchingMethods : m ∈ matchingMethods manager methodName l ↔
    m ∈ findMethodsInClass manager l.symbols l.classSymbol ∧ m.name = methodName := by
  rw [matchingMethods,List.mem_filter,decide_eq_true_iff]

theorem mem_lookFrom (found : lookFrom manager methodName classes l = some methods) :
    m ∈ methods ↔ Attributes manager l m ∧ m.name = methodName := by
  rw [lookFrom_eq] at found
  split at found
  case isFalse => cases found
  case isTrue ends =>
    obtain rfl := Option.some.inj found
    rw [List.mem_flatMap,Attributes]
    constructor
    · rintro ⟨l',reached,matching⟩
      obtain ⟨mine,same⟩ := mem_matchingMethods.mp matching
      exact ⟨⟨l',(mem_chainFrom_iff (fun _ => rfl) ends).mp reached,mine⟩,same⟩
    · rintro ⟨⟨l',above,mine⟩,same⟩
      exact ⟨l',(mem_chainFrom_iff (fun _ => rfl) ends).mpr above,mem_matchingMethods.mpr ⟨mine,same⟩⟩

theorem lookFrom_isSome_iff :
    (lookFrom manager methodName classes l).isSome ↔ endsWithin (superLevel manager) (fun _ => false) (classes + 1) l = true := by
  rw [lookFrom_eq]
  split
  case isTrue ends => exact ⟨fun _ => ends,fun _ => rfl⟩
  case isFalse endless => exact ⟨fun some => absurd some (by simp),fun ends => absurd ends endless⟩

theorem lookFrom_ends_iff : (∃ classes, (lookFrom manager methodName classes l).isSome) ↔
    ¬ Loops (superLevel manager) (fun _ => false) l := by
  constructor
  · rintro ⟨classes,ends⟩
    exact not_loops_of_endsWithin (lookFrom_isSome_iff.mp ends)
  · intro straight
    have closed : ∀ a b, superLevel manager a = some b →
        b ∈ manager.loaded.map (fun c => (⟨c,symbolsOfFile manager c⟩ : Level)) := by
      intro a b goes
      obtain ⟨further,c,-,named,rfl⟩ := superLevel_eq_some goes
      have loaded := (List.mem_filter.mp (List.mem_of_find?_eq_some named)).1
      exact List.mem_map.mpr ⟨c,loaded,rfl⟩
    have ends := (endsWithin_from_iff closed (Nat.lt_succ_self _)).mpr straight
    exact ⟨_,lookFrom_isSome_iff.mpr ends⟩

end

namespace Lookup

variable [Runtime] {q : Lookup}

theorem find_eq (q : Lookup) (classes : Nat) : q.find classes = lookFrom q.manager q.methodName classes q.start := rfl

theorem mem_find (found : q.find classes = some methods) :
    m ∈ methods ↔ Attributes q.manager q.start m ∧ m.name = q.methodName :=
  mem_lookFrom found

theorem check_eq_some_iff : q.check localizeTyped callLocation classes = some errors ↔
    ∃ methods, q.find classes = some methods ∧ (if methods.isEmpty && !(q.chainNodes > 1) then
      [reported localizeTyped "invalid.method.not.found" [q.methodName,q.targetClass.name] callLocation] else []) = errors :=
  Option.map_eq_some_iff

theorem check_of_find (found : q.find classes = some methods) (localizeTyped : Localizer) (callLocation : SymbolLocation) :
    ∃ errors, q.check localizeTyped callLocation classes = some errors :=
  ⟨_,check_eq_some_iff.mpr ⟨methods,found,rfl⟩⟩

theorem check_reports_iff (checked : q.check localizeTyped callLocation classes = some errors) :
    errors ≠ [] ↔ (¬ ∃ m, Attributes q.manager q.start m ∧ m.name = q.methodName) ∧ ¬ 1 < q.chainNodes := by
  obtain ⟨methods,found,rfl⟩ := check_eq_some_iff.mp checked
  have empty : methods.isEmpty = true ↔ ¬ ∃ m, Attributes q.manager q.start m ∧ m.name = q.methodName := by
    rw [List.isEmpty_iff,List.eq_nil_iff_forall_not_mem,not_exists]
    exact forall_congr' fun m => not_congr (mem_find found)
  rw [← empty]
  cases methods.isEmpty <;> by_cases behind : 1 < q.chainNodes <;> simp [behind]

/-- The lookup finds the methods of the name and reports that there is none if and only if the
superclasses end, the methods are spelled as in the call, and no receiver hides a missing one. -/
theorem finds_iff : q.Finds ↔ q.Plain := by
  constructor
  · intro ok
    obtain ⟨classes,ends⟩ := ok.ends
    obtain ⟨methods,found⟩ := Option.isSome_iff_exists.mp ends
    have same : ∀ m, Attributes q.manager q.start m ∧ m.name = q.methodName ↔
        Inherits q.manager q.start q.methodName m :=
      fun m => (mem_find found).symm.trans (ok.exact_ classes methods found m)
    refine ⟨lookFrom_ends_iff.mp ok.ends,fun m inherited => ?_,fun m mine named => (same m).mp ⟨mine,named⟩,fun behind => ?_⟩
    · obtain ⟨mine,named⟩ := (same m).mpr inherited
      exact ⟨named,mine⟩
    · obtain ⟨errors,checked⟩ := check_of_find found (fun code _ => code) default
      by_contra nowhere
      have reports := (ok.reports (fun code _ => code) default classes errors checked).mpr nowhere
      exact ((check_reports_iff checked).mp reports).2 behind
  · intro plain
    have same : ∀ m, Attributes q.manager q.start m ∧ m.name = q.methodName ↔
        Inherits q.manager q.start q.methodName m :=
      fun m => ⟨fun ⟨mine,named⟩ => plain.owned m mine named,fun inherited => (plain.spelled m inherited).symm⟩
    refine ⟨lookFrom_ends_iff.mpr plain.straight,fun classes methods found m => (mem_find found).trans (same m),?_⟩
    intro localizeTyped callLocation classes errors checked
    rw [check_reports_iff checked,exists_congr same]
    exact ⟨fun none => none.1,fun nowhere => ⟨nowhere,fun behind => nowhere (plain.qualified behind)⟩⟩

end Lookup

end ApexLs.Validation.MethodResolutionValidator
