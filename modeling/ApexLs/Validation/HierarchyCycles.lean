import ApexLs.Collections.PathSearch
import ApexLs.Types.Symbol
import ApexLs.Utils.Runtime

/-! The circularity checks of classes and of interfaces. A name stands for the first type of that name. -/
namespace ApexLs.Validation

open ApexLs.Collections ApexLs.Types ApexLs.Utils

variable [Runtime]

/-- `allTypes.find((t) => t.name.toLowerCase() === name.toLowerCase())` -/
def typeNamed (allTypes : List ApexSymbol) (name : String) : Option ApexSymbol :=
  allTypes.find? fun t => toLowerCase t.name = toLowerCase name

def extendedTypes (extendedNames : ApexSymbol → List String) (allTypes : List ApexSymbol) (t : ApexSymbol) : List ApexSymbol :=
  (extendedNames t).filterMap (typeNamed allTypes)

def superNames (cls : ApexSymbol) : List String := (cls.superClass.filter (· ≠ "")).toList

def interfaceNames (iface : ApexSymbol) : List String := iface.interfaces.getD []

namespace ClassHierarchyValidator

def detectCircularInheritance (allClasses : List ApexSymbol) (frames : Nat) (cls : ApexSymbol)
    (path : PathSearch.Path String String) : Option (Option (List String) × PathSearch.Path String String) :=
  PathSearch.search (extendedTypes superNames allClasses) ApexSymbol.name toLowerCase frames cls path

end ClassHierarchyValidator

namespace InterfaceHierarchyValidator

def detectCircularInheritance (allInterfaces : List ApexSymbol) (frames : Nat) (iface : ApexSymbol)
    (path : PathSearch.Path String String) : Option (Option (List String) × PathSearch.Path String String) :=
  PathSearch.search (extendedTypes interfaceNames allInterfaces) ApexSymbol.name toLowerCase frames iface path

end InterfaceHierarchyValidator

def Extends (extendedNames : ApexSymbol → List String) (allTypes : List ApexSymbol) (t u : ApexSymbol) : Prop :=
  ∃ name ∈ extendedNames t, typeNamed allTypes name = some u

/-- The names of a chain of links, the first of which comes back at the end. -/
def IsCircular (extendedNames : ApexSymbol → List String) (allTypes : List ApexSymbol) (names : List String) : Prop :=
  ∃ chain : List ApexSymbol, chain.IsChain (Extends extendedNames allTypes) ∧ chain.map ApexSymbol.name = names ∧
    2 ≤ names.length ∧ names.head?.map toLowerCase = names.getLast?.map toLowerCase

structure DetectsCircularity (extendedNames : ApexSymbol → List String) (allTypes : List ApexSymbol)
    (detect : Nat → ApexSymbol → PathSearch.Path String String → Option (Option (List String) × PathSearch.Path String String)) :
    Prop where
  ends : ∀ frames t path, allTypes.length + 2 ≤ frames → (detect frames t path).isSome
  restores : ∀ frames t path after, detect frames t path = some (none,after) → after = path
  exact : ∀ frames t answer after, detect frames t {} = some (answer,after) → (answer ≠ none ↔
    ∃ rest, (t :: rest).IsChain (Extends extendedNames allTypes) ∧ ¬ ((t :: rest).map (toLowerCase ∘ ApexSymbol.name)).Nodup)
  circular : ∀ frames t cycle after, detect frames t {} = some (some cycle,after) → IsCircular extendedNames allTypes cycle

theorem mem_extendedTypes {extendedNames : ApexSymbol → List String} {allTypes : List ApexSymbol} {t u : ApexSymbol} :
    u ∈ extendedTypes extendedNames allTypes t ↔ Extends extendedNames allTypes t u :=
  List.mem_filterMap

theorem linked_iff (extendedNames : ApexSymbol → List String) (allTypes chain : List ApexSymbol) :
    PathSearch.Linked (extendedTypes extendedNames allTypes) chain ↔ chain.IsChain (Extends extendedNames allTypes) :=
  List.IsChain.iff fun _ _ => mem_extendedTypes

theorem search_detectsCircularity (extendedNames : ApexSymbol → List String) (allTypes : List ApexSymbol) :
    DetectsCircularity extendedNames allTypes
      (PathSearch.search (extendedTypes extendedNames allTypes) ApexSymbol.name toLowerCase) where
  ends frames t path enough := by
    refine PathSearch.search_ends (allTypes.map (toLowerCase ∘ ApexSymbol.name)) ?_ t path (by simpa using enough)
    intro a b member
    obtain ⟨name,_,found⟩ := mem_extendedTypes.mp member
    exact List.mem_map.mpr ⟨b,List.mem_of_find?_eq_some found,rfl⟩
  restores frames t path after found := PathSearch.search_restores found
  exact frames t answer after found := by
    rw [Option.ne_none_iff_isSome,(PathSearch.search_exact found).1]
    simp only [linked_iff]
  circular frames t cycle after found := by
    obtain ⟨⟨chain,linked,names⟩,long,closed⟩ := (PathSearch.search_exact found).2 cycle rfl
    exact ⟨chain,(linked_iff _ _ _).mp linked,names,long,closed⟩

/-- Both checks end, find the circular chains, and leave no trace where they find none. -/
theorem detectCircularInheritance_exact (allTypes : List ApexSymbol) :
    DetectsCircularity superNames allTypes (ClassHierarchyValidator.detectCircularInheritance allTypes) ∧
      DetectsCircularity interfaceNames allTypes (InterfaceHierarchyValidator.detectCircularInheritance allTypes) :=
  ⟨search_detectsCircularity superNames allTypes,search_detectsCircularity interfaceNames allTypes⟩

end ApexLs.Validation
