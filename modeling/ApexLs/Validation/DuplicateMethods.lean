import ApexLs.Collections.Groups
import ApexLs.Types.SymbolTableIndexes
import ApexLs.Validation.Inheritance

/-! The two validators that look for methods declared twice. One compares all methods of a type that have
different ids, in the way of the tier; the other takes the first method of each id and compares bare types. -/
namespace ApexLs.Validation.DuplicateMethods

open ApexLs.Collections ApexLs.Types ApexLs.Utils

def parentIdOf (s : ApexSymbol) : String :=
  match s.parentId with
  | .of id => id
  | .undefined | .null => ""

section

variable [Runtime] (heap : Heap) (symbols : List Ref)

def isMethod (s : Ref) : Bool := (heap s).kind = .method

def methodsByParent (methods : List Ref) : OrderedMap String (List Ref) :=
  groupBy (fun m => parentIdOf (heap m)) (methods.filter fun m => parentIdOf (heap m) ≠ "")

/-- The pairs that one type's methods are found to make, each with the symbol of the type. -/
def pairsByParent (compare : List Ref → List (Ref × Ref)) (methods : List Ref) : List (Ref × Ref) :=
  (methodsByParent heap methods).entries.flatMap fun (parentId,parentMethods) =>
    match symbols.find? fun s => (heap s).id = parentId with
    | none => []
    | some parent => (compare parentMethods).map fun pair => (parent,pair.2)

/-- `DuplicateMethodValidator` on the methods of one type: by name, then in pairs. -/
def identicalPairs (tier : ValidationTier) (parentMethods : List Ref) : List (Ref × Ref) :=
  (groupBy (fun m => toLowerCase (heap m).name) parentMethods).entries.flatMap fun (_,methodsWithSameName) =>
    (pairs methodsWithSameName).filter fun (method1,method2) =>
      (heap method1).id ≠ (heap method2).id && areMethodSignaturesIdentical tier (heap method1) (heap method2)

def duplicateMethods (tier : ValidationTier) : List (Ref × Ref) :=
  pairsByParent heap symbols (identicalPairs heap tier) (symbols.filter (isMethod heap))

def typeName (parameter : ParameterSymbol) : String := toLowerCase ((parameter.type.map TypeInfo.name).getD "")

def areSignaturesEquivalent (method1 method2 : ApexSymbol) : Bool :=
  toLowerCase method1.name = toLowerCase method2.name &&
    (method1.parameters.getD []).map typeName = (method2.parameters.getD []).map typeName

/-- `method.key.unifiedId || method.id` -/
def unifiedId (s : ApexSymbol) : String := orElse s.key.unifiedId s.id

def equivalentPairs (parentMethods : List Ref) : List (Ref × Ref) :=
  (pairs parentMethods).filter fun (method1,method2) => areSignaturesEquivalent (heap method1) (heap method2)

def equivalentMethods : List (Ref × Ref) :=
  pairsByParent heap symbols (equivalentPairs heap) (firsts (fun m => unifiedId (heap m)) (symbols.filter (isMethod heap)))

def methodAlreadyExists (localizeTyped : Localizer) (found : List (Ref × Ref)) : List ValidationInfo :=
  found.map fun (parent,method) =>
    reported localizeTyped "method.already.exists" [(heap method).name,"",(heap parent).name] (heap method).location

structure MethodOf (parentId : String) (m : Ref) : Prop where
  listed : m ∈ symbols
  method : isMethod heap m = true
  below : parentIdOf (heap m) = parentId
  given : parentId ≠ ""
  parent : ∃ s ∈ symbols, (heap s).id = parentId

def Siblings (a b : Ref) : Prop := ∃ parentId, MethodOf heap symbols parentId a ∧ MethodOf heap symbols parentId b

def Flagged (found : List (Ref × Ref)) (m : Ref) : Prop := ∃ parent, (parent,m) ∈ found

/-! What the validators find, by the pairs of the table's methods. -/

variable {heap symbols}

omit [Runtime] in
theorem mem_pairsByParent {compare : List Ref → List (Ref × Ref)} (within : ∀ l x m, (x,m) ∈ compare l → m ∈ l)
    (methods : List Ref) : Flagged (pairsByParent heap symbols compare methods) m ↔ ∃ parentId, parentId ≠ "" ∧
      (∃ s ∈ symbols, (heap s).id = parentId) ∧
        ∃ x, (x,m) ∈ compare (methods.filter fun m => parentIdOf (heap m) = parentId) := by
  have group (parentId : String) (given : parentId ≠ "") :
      (methods.filter fun m => parentIdOf (heap m) ≠ "").filter (fun m => parentIdOf (heap m) = parentId) =
        methods.filter fun m => parentIdOf (heap m) = parentId := by
    rw [List.filter_filter]
    refine List.filter_congr fun m _ => ?_
    by_cases same : parentIdOf (heap m) = parentId <;> simp [same,given]
  constructor
  · rintro ⟨parent,found⟩
    obtain ⟨⟨parentId,parentMethods⟩,entry,found⟩ := List.mem_flatMap.mp found
    obtain ⟨rfl,a,member,here⟩ := (mem_groupBy _).mp entry
    have given : parentId ≠ "" := here ▸ (by simpa using (List.mem_filter.mp member).2)
    dsimp only at found
    split at found
    next => cases found
    next s looked =>
      obtain ⟨⟨x,_⟩,pair,same⟩ := List.mem_map.mp found
      obtain ⟨rfl,rfl⟩ := Prod.mk.inj same
      rw [group parentId given] at pair
      exact ⟨parentId,given,⟨s,List.mem_of_find?_eq_some looked,by simpa using List.find?_some looked⟩,x,pair⟩
  · rintro ⟨parentId,given,⟨s,member,here⟩,x,pair⟩
    obtain ⟨parent,looked⟩ := Option.isSome_iff_exists.mp
      (List.find?_isSome (p := fun s => decide ((heap s).id = parentId)).mpr ⟨s,member,by simpa using here⟩)
    obtain ⟨listed,below⟩ := List.mem_filter.mp (within _ _ _ pair)
    refine ⟨parent,List.mem_flatMap.mpr ⟨(parentId,_),(mem_groupBy _).mpr ⟨rfl,m,?_,by simpa using below⟩,?_⟩⟩
    · have same : parentIdOf (heap m) = parentId := by simpa using below
      exact List.mem_filter.mpr ⟨listed,by simpa [same] using given⟩
    · dsimp only
      rw [looked,group parentId given]
      exact List.mem_map.mpr ⟨(x,m),pair,rfl⟩

theorem mem_identicalPairs {tier : ValidationTier} {l : List Ref} : (x,m) ∈ identicalPairs heap tier l ↔
    [x,m].Sublist l ∧ (heap x).id ≠ (heap m).id ∧ areMethodSignaturesIdentical tier (heap x) (heap m) = true := by
  constructor
  · intro found
    obtain ⟨⟨name,sameName⟩,entry,found⟩ := List.mem_flatMap.mp found
    obtain ⟨rfl,_⟩ := (mem_groupBy _).mp entry
    obtain ⟨pair,differ⟩ := List.mem_filter.mp found
    rw [Bool.and_eq_true] at differ
    exact ⟨(pair_filter.mp (mem_pairs.mp pair)).1,by simpa using differ.1,differ.2⟩
  · rintro ⟨pair,differ,identical⟩
    have named : toLowerCase (heap x).name = toLowerCase (heap m).name := by
      simp only [areMethodSignaturesIdentical,Bool.and_eq_true,decide_eq_true_eq] at identical
      exact identical.1.2
    refine List.mem_flatMap.mpr ⟨(toLowerCase (heap m).name,_),(mem_groupBy _).mpr ⟨rfl,m,pair_right pair,rfl⟩,?_⟩
    refine List.mem_filter.mpr ⟨mem_pairs.mpr (pair_filter.mpr ⟨pair,by simpa using named,by simp⟩),?_⟩
    simpa using ⟨differ,identical⟩

omit [Runtime] in
theorem siblings_iff {methods : List Ref} (among : methods.Sublist (symbols.filter (isMethod heap))) :
    (∃ parentId, parentId ≠ "" ∧ (∃ s ∈ symbols, (heap s).id = parentId) ∧
        [x,m].Sublist (methods.filter fun m => parentIdOf (heap m) = parentId)) ↔
      [x,m].Sublist methods ∧ Siblings heap symbols x m := by
  have listed {r : Ref} (member : r ∈ methods) : r ∈ symbols ∧ isMethod heap r = true :=
    List.mem_filter.mp (among.subset member)
  constructor
  · rintro ⟨parentId,given,parent,pair⟩
    obtain ⟨pair,first,second⟩ := pair_filter.mp pair
    have x_ := listed (pair_left pair)
    have m_ := listed (pair_right pair)
    exact ⟨pair,parentId,⟨x_.1,x_.2,by simpa using first,given,parent⟩,⟨m_.1,m_.2,by simpa using second,given,parent⟩⟩
  · rintro ⟨pair,parentId,first,second⟩
    exact ⟨parentId,first.given,first.parent,pair_filter.mpr ⟨pair,by simpa using first.below,by simpa using second.below⟩⟩

theorem flagged_duplicateMethods (tier : ValidationTier) : Flagged (duplicateMethods heap symbols tier) m ↔
    ∃ x, [x,m].Sublist symbols ∧ Siblings heap symbols x m ∧ (heap x).id ≠ (heap m).id ∧
      areMethodSignaturesIdentical tier (heap x) (heap m) = true := by
  rw [duplicateMethods,mem_pairsByParent fun l x m found => pair_right (mem_identicalPairs.mp found).1]
  simp only [mem_identicalPairs]
  constructor
  · rintro ⟨parentId,given,parent,x,pair,differ,identical⟩
    obtain ⟨pair,siblings⟩ := (siblings_iff (List.Sublist.refl _)).mp ⟨parentId,given,parent,pair⟩
    exact ⟨x,(pair_filter.mp pair).1,siblings,differ,identical⟩
  · rintro ⟨x,pair,siblings,differ,identical⟩
    have methods : [x,m].Sublist (symbols.filter (isMethod heap)) := by
      obtain ⟨_,first,second⟩ := siblings
      exact pair_filter.mpr ⟨pair,first.method,second.method⟩
    obtain ⟨parentId,given,parent,pair⟩ := (siblings_iff (List.Sublist.refl _)).mpr ⟨methods,siblings⟩
    exact ⟨parentId,given,parent,x,pair,differ,identical⟩

theorem flagged_equivalentMethods (once : symbols.Nodup) : Flagged (equivalentMethods heap symbols) m ↔
    ∃ x, [x,m].Sublist symbols ∧ Siblings heap symbols x m ∧
      IsFirst (fun m => unifiedId (heap m)) (symbols.filter (isMethod heap)) x ∧
      IsFirst (fun m => unifiedId (heap m)) (symbols.filter (isMethod heap)) m ∧
      areSignaturesEquivalent (heap x) (heap m) = true := by
  have pairIn (l : List Ref) (x m : Ref) : (x,m) ∈ equivalentPairs heap l ↔
      [x,m].Sublist l ∧ areSignaturesEquivalent (heap x) (heap m) = true := by
    rw [equivalentPairs,List.mem_filter,mem_pairs]
  have methodsOnce := once.filter (isMethod heap)
  rw [equivalentMethods,mem_pairsByParent fun l x m found => pair_right ((pairIn l x m).mp found).1]
  simp only [pairIn]
  constructor
  · rintro ⟨parentId,given,parent,x,pair,equivalent⟩
    obtain ⟨pair,siblings⟩ := (siblings_iff (firsts_sublist _ _)).mp ⟨parentId,given,parent,pair⟩
    obtain ⟨pair,first,second⟩ := (pair_firsts _ methodsOnce).mp pair
    exact ⟨x,(pair_filter.mp pair).1,siblings,first,second,equivalent⟩
  · rintro ⟨x,pair,siblings,first,second,equivalent⟩
    have methods : [x,m].Sublist (symbols.filter (isMethod heap)) :=
      pair_filter.mpr ⟨pair,(List.mem_filter.mp first.1).2,(List.mem_filter.mp second.1).2⟩
    obtain ⟨parentId,given,parent,pair⟩ := (siblings_iff (firsts_sublist _ _)).mpr
      ⟨(pair_firsts _ methodsOnce).mpr ⟨methods,first,second⟩,siblings⟩
    exact ⟨parentId,given,parent,x,pair,equivalent⟩

def writtenType (parameter : ParameterSymbol) : String := toLowerCase ((parameter.type.map TypeInfo.originalTypeString).getD "")

/-- The same name and the same parameter types with their arguments, ignoring case. -/
def SameSignature (a b : ApexSymbol) : Prop :=
  toLowerCase a.name = toLowerCase b.name ∧ (a.parameters.getD []).map writtenType = (b.parameters.getD []).map writtenType

end

/-- The symbols of a table: each object once, with the id of its key, and parameters with types, whose names follow from
what is written. -/
structure Listing [Runtime] where
  heap : Heap
  symbols : List Ref
  once : symbols.Nodup
  synchronized : ∀ s ∈ symbols, Synchronized (heap s)
  typed : ∀ s ∈ symbols, ∀ p ∈ (heap s).parameters.getD [], writtenType p ≠ "" ∧ typeName p ≠ "" ∧ p.type.isSome
  named : ∀ s ∈ symbols, ∀ p ∈ (heap s).parameters.getD [], ∀ s' ∈ symbols, ∀ p' ∈ (heap s').parameters.getD [],
    writtenType p = writtenType p' → typeName p = typeName p'

namespace Listing

variable [Runtime] (l : Listing)

def Siblings (a b : Ref) : Prop := DuplicateMethods.Siblings l.heap l.symbols a b

def Duplicate (tier : ValidationTier) (m : Ref) : Prop := Flagged (duplicateMethods l.heap l.symbols tier) m

def Equivalent (m : Ref) : Prop := Flagged (equivalentMethods l.heap l.symbols) m

def AllDistinct (a : Ref) : Prop := ∀ b c, l.Siblings a b → l.Siblings a c → b ≠ c → ¬ SameSignature (l.heap b) (l.heap c)

/-- A signature that is declared at two places is reported, nothing is where all signatures differ, and the two validators
agree where types are resolved. -/
structure DetectsDuplicates : Prop where
  complete : ∀ tier a b, l.Siblings a b → SameSignature (l.heap a) (l.heap b) → (l.heap a).location ≠ (l.heap b).location →
    ∃ m, l.Duplicate tier m ∧ l.Siblings a m ∧ SameSignature (l.heap a) (l.heap m)
  sound : ∀ tier a, l.AllDistinct a → ∀ m, l.Siblings a m → ¬ l.Duplicate tier m
  agree : ∀ m, l.Equivalent m ↔ l.Duplicate .thorough m

def FirstOfId (m : Ref) : Prop := IsFirst (fun m => (l.heap m).id) (l.symbols.filter (isMethod l.heap)) m

/-- Ids tell declarations of one signature apart where they stand at two places; where all signatures differ, they do not
tell apart what differs in type arguments; and no id comes back after a method with another id and the same bare signature,
where the first with either id counts. -/
structure IdsTell : Prop where
  apart : ∀ a b, l.Siblings a b → SameSignature (l.heap a) (l.heap b) → (l.heap a).location ≠ (l.heap b).location →
    ∃ m, l.Siblings a m ∧ SameSignature (l.heap a) (l.heap m) ∧ (l.heap m).id ≠ (l.heap a).id
  bare : ∀ a, l.AllDistinct a → ∀ b c, l.Siblings a b → l.Siblings a c →
    areSignaturesEquivalent (l.heap b) (l.heap c) = true → (l.heap b).id = (l.heap c).id
  first : ∀ x m, [x,m].Sublist l.symbols → l.Siblings x m → areSignaturesEquivalent (l.heap x) (l.heap m) = true →
    (l.heap x).id ≠ (l.heap m).id → l.FirstOfId m ∧
      ∃ y, [y,m].Sublist l.symbols ∧ l.Siblings y m ∧ areSignaturesEquivalent (l.heap y) (l.heap m) = true ∧ l.FirstOfId y

variable {l}

theorem Siblings.symm (siblings : l.Siblings a b) : l.Siblings b a := by
  obtain ⟨parentId,first,second⟩ := siblings
  exact ⟨parentId,second,first⟩

theorem Siblings.trans (first : l.Siblings a b) (second : l.Siblings b c) : l.Siblings a c := by
  obtain ⟨parentId,a_,b_⟩ := first
  obtain ⟨other,b_',c_⟩ := second
  obtain rfl : parentId = other := b_.below.symm.trans b_'.below
  exact ⟨parentId,a_,c_⟩

theorem Siblings.mem (siblings : l.Siblings a b) : a ∈ l.symbols ∧ isMethod l.heap a = true := by
  obtain ⟨_,first,_⟩ := siblings
  exact ⟨first.listed,first.method⟩

theorem bare_of_same (siblings : l.Siblings a b) (same : SameSignature (l.heap a) (l.heap b)) :
    areSignaturesEquivalent (l.heap a) (l.heap b) = true := by
  have types := map_determined
    (fun p member q member' => l.named a siblings.mem.1 p member b siblings.symm.mem.1 q member') same.2
  simpa [areSignaturesEquivalent,same.1] using types

theorem comparedTypes (member : a ∈ l.symbols) (tier : ValidationTier) :
    ((l.heap a).parameters.getD []).map (comparedType tier) =
      ((l.heap a).parameters.getD []).map (if tier = .immediate then writtenType else typeName) := by
  refine List.map_congr_left fun p parameter => ?_
  obtain ⟨written,name,given⟩ := l.typed a member p parameter
  obtain ⟨t,type⟩ := Option.isSome_iff_exists.mp given
  cases tier with
  | immediate =>
    rw [writtenType,type] at written
    simpa [comparedType,writtenType,type,orElse] using fun empty => absurd empty written
  | thorough =>
    rw [typeName,type] at name
    simpa [comparedType,typeName,type,orElse] using fun empty => absurd empty name

theorem identical_iff (siblings : l.Siblings a b) (tier : ValidationTier) :
    areMethodSignaturesIdentical tier (l.heap a) (l.heap b) = true ↔ if tier = .immediate then
      SameSignature (l.heap a) (l.heap b) else areSignaturesEquivalent (l.heap a) (l.heap b) = true := by
  have first : (l.heap a).kind = .method := by simpa [isMethod] using siblings.mem.2
  have second : (l.heap b).kind = .method := by simpa [isMethod] using siblings.symm.mem.2
  simp only [areMethodSignaturesIdentical,first,second,comparedTypes siblings.mem.1,comparedTypes siblings.symm.mem.1]
  cases tier <;> simp [SameSignature,areSignaturesEquivalent]

theorem identical_of_same (siblings : l.Siblings a b) (same : SameSignature (l.heap a) (l.heap b)) (tier : ValidationTier) :
    areMethodSignaturesIdentical tier (l.heap a) (l.heap b) = true := by
  rw [identical_iff siblings]
  split
  next => exact same
  next => exact bare_of_same siblings same

theorem bare_of_identical (siblings : l.Siblings a b) (tier : ValidationTier)
    (identical : areMethodSignaturesIdentical tier (l.heap a) (l.heap b) = true) :
    areSignaturesEquivalent (l.heap a) (l.heap b) = true := by
  rw [identical_iff siblings] at identical
  split at identical
  next => exact bare_of_same siblings identical
  next => exact identical

theorem unifiedId_eq (member : m ∈ l.symbols) : unifiedId (l.heap m) = (l.heap m).id := by
  have sync := l.synchronized m member
  rw [unifiedId,sync.keyed,orElse,if_neg sync.nonempty]

theorem duplicate_iff (tier : ValidationTier) : l.Duplicate tier m ↔ ∃ x, [x,m].Sublist l.symbols ∧ l.Siblings x m ∧
    (l.heap x).id ≠ (l.heap m).id ∧ areMethodSignaturesIdentical tier (l.heap x) (l.heap m) = true :=
  flagged_duplicateMethods tier

theorem equivalent_iff : l.Equivalent m ↔ ∃ x, [x,m].Sublist l.symbols ∧ l.Siblings x m ∧ l.FirstOfId x ∧ l.FirstOfId m ∧
    areSignaturesEquivalent (l.heap x) (l.heap m) = true := by
  have first (r : Ref) : IsFirst (fun m => unifiedId (l.heap m)) (l.symbols.filter (isMethod l.heap)) r ↔ l.FirstOfId r :=
    isFirst_congr fun b member => unifiedId_eq (List.mem_filter.mp member).1
  rw [Equivalent,flagged_equivalentMethods l.once]
  simp only [first]
  exact Iff.rfl

theorem id_ne_of_first (pair : [x,m].Sublist l.symbols) (siblings : l.Siblings x m) (first : l.FirstOfId m) :
    (l.heap x).id ≠ (l.heap m).id :=
  first.2 x (pair_filter.mpr ⟨pair,siblings.mem.2,siblings.symm.mem.2⟩)

theorem duplicate_or (siblings : l.Siblings a b) (differ : (l.heap a).id ≠ (l.heap b).id)
    (identical : areMethodSignaturesIdentical tier (l.heap a) (l.heap b) = true)
    (identical' : areMethodSignaturesIdentical tier (l.heap b) (l.heap a) = true) : l.Duplicate tier a ∨ l.Duplicate tier b := by
  rcases pair_or siblings.mem.1 siblings.symm.mem.1 (fun same => differ (same ▸ rfl)) with pair | pair
  · exact .inr ((duplicate_iff tier).mpr ⟨a,pair,siblings,differ,identical⟩)
  · exact .inl ((duplicate_iff tier).mpr ⟨b,pair,siblings.symm,differ.symm,identical'⟩)

theorem equivalent_symm (same : areSignaturesEquivalent a b = true) : areSignaturesEquivalent b a = true := by
  simp only [areSignaturesEquivalent,Bool.and_eq_true,decide_eq_true_eq] at same ⊢
  exact ⟨same.1.symm,same.2.symm⟩

variable (l)

theorem complete_iff : (∀ tier a b, l.Siblings a b → SameSignature (l.heap a) (l.heap b) →
      (l.heap a).location ≠ (l.heap b).location →
        ∃ m, l.Duplicate tier m ∧ l.Siblings a m ∧ SameSignature (l.heap a) (l.heap m)) ↔
    ∀ a b, l.Siblings a b → SameSignature (l.heap a) (l.heap b) → (l.heap a).location ≠ (l.heap b).location →
      ∃ m, l.Siblings a m ∧ SameSignature (l.heap a) (l.heap m) ∧ (l.heap m).id ≠ (l.heap a).id := by
  constructor
  · intro complete a b siblings same places
    obtain ⟨m,duplicate,sibling,one⟩ := complete .immediate a b siblings same places
    obtain ⟨x,pair,siblings',differ,identical⟩ := (duplicate_iff _).mp duplicate
    have same' : SameSignature (l.heap x) (l.heap m) := by simpa using (identical_iff siblings' .immediate).mp identical
    -- the two have different ids, so one of them differs from `a`
    by_cases own : (l.heap m).id = (l.heap a).id
    · refine ⟨x,sibling.trans siblings'.symm,⟨one.1.trans same'.1.symm,one.2.trans same'.2.symm⟩,?_⟩
      rw [← own]
      exact differ
    · exact ⟨m,sibling,one,own⟩
  · intro apart tier a b siblings same places
    obtain ⟨m,sibling,one,differ⟩ := apart a b siblings same places
    have found := duplicate_or sibling differ.symm (identical_of_same sibling one tier)
      (identical_of_same sibling.symm ⟨one.1.symm,one.2.symm⟩ tier)
    rcases found with reported | reported
    · exact ⟨a,reported,sibling.trans sibling.symm,rfl,rfl⟩
    · exact ⟨m,reported,sibling,one⟩

theorem sound_iff : (∀ tier a, l.AllDistinct a → ∀ m, l.Siblings a m → ¬ l.Duplicate tier m) ↔
    ∀ a, l.AllDistinct a → ∀ b c, l.Siblings a b → l.Siblings a c →
      areSignaturesEquivalent (l.heap b) (l.heap c) = true → (l.heap b).id = (l.heap c).id := by
  constructor
  · intro sound a distinct b c first second equivalent
    by_contra differ
    have siblings := first.symm.trans second
    have identical {b c : Ref} (siblings : l.Siblings b c) (equivalent : areSignaturesEquivalent (l.heap b) (l.heap c) = true) :
        areMethodSignaturesIdentical .thorough (l.heap b) (l.heap c) = true :=
      (identical_iff siblings .thorough).mpr (by simpa using equivalent)
    rcases duplicate_or siblings differ (identical siblings equivalent) (identical siblings.symm (equivalent_symm equivalent))
      with reported | reported
    · exact sound .thorough a distinct b first reported
    · exact sound .thorough a distinct c second reported
  · intro bare tier a distinct m sibling reported
    obtain ⟨x,_,siblings,differ,identical⟩ := (duplicate_iff tier).mp reported
    exact differ (bare a distinct x m (sibling.trans siblings.symm) sibling (bare_of_identical siblings tier identical))

theorem agree_iff : (∀ m, l.Equivalent m ↔ l.Duplicate .thorough m) ↔
    ∀ x m, [x,m].Sublist l.symbols → l.Siblings x m → areSignaturesEquivalent (l.heap x) (l.heap m) = true →
      (l.heap x).id ≠ (l.heap m).id → l.FirstOfId m ∧
        ∃ y, [y,m].Sublist l.symbols ∧ l.Siblings y m ∧ areSignaturesEquivalent (l.heap y) (l.heap m) = true ∧ l.FirstOfId y := by
  have thorough {x m : Ref} (siblings : l.Siblings x m) : areMethodSignaturesIdentical .thorough (l.heap x) (l.heap m) = true ↔
      areSignaturesEquivalent (l.heap x) (l.heap m) = true := by simpa using identical_iff siblings .thorough
  constructor
  · intro agree x m pair siblings equivalent differ
    have reported := (agree m).mpr ((duplicate_iff _).mpr ⟨x,pair,siblings,differ,(thorough siblings).mpr equivalent⟩)
    obtain ⟨y,pair',siblings',first,own,equivalent'⟩ := equivalent_iff.mp reported
    exact ⟨own,y,pair',siblings',equivalent',first⟩
  · intro first m
    constructor
    · intro reported
      obtain ⟨x,pair,siblings,_,own,equivalent⟩ := equivalent_iff.mp reported
      exact (duplicate_iff _).mpr ⟨x,pair,siblings,id_ne_of_first pair siblings own,(thorough siblings).mpr equivalent⟩
    · intro reported
      obtain ⟨x,pair,siblings,differ,identical⟩ := (duplicate_iff _).mp reported
      obtain ⟨own,y,pair',siblings',equivalent,before⟩ := first x m pair siblings ((thorough siblings).mp identical) differ
      exact equivalent_iff.mpr ⟨y,pair',siblings',before,own,equivalent⟩

/-- Duplicates are detected exactly where the ids tell. -/
theorem detectsDuplicates_iff : l.DetectsDuplicates ↔ l.IdsTell := by
  constructor
  · rintro ⟨complete,sound,agree⟩
    exact ⟨(complete_iff l).mp complete,(sound_iff l).mp sound,(agree_iff l).mp agree⟩
  · rintro ⟨apart,bare,first⟩
    exact ⟨(complete_iff l).mpr apart,(sound_iff l).mpr bare,(agree_iff l).mpr first⟩

end Listing

def listingOf [Runtime] (heap : Heap) (calls : List SymbolTable.Call) (result : Heap × SymbolTable)
    (filled : run SymbolTable.call (heap,{}) calls = result)
    (typed : ∀ s ∈ result.2.getAllSymbols, ∀ p ∈ (result.1 s).parameters.getD [],
      writtenType p ≠ "" ∧ typeName p ≠ "" ∧ p.type.isSome)
    (named : ∀ s ∈ result.2.getAllSymbols, ∀ p ∈ (result.1 s).parameters.getD [], ∀ s' ∈ result.2.getAllSymbols,
      ∀ p' ∈ (result.1 s').parameters.getD [], writtenType p = writtenType p' → typeName p = typeName p') : Listing where
  heap := result.1
  symbols := result.2.getAllSymbols
  once := filled ▸ (SymbolTable.run_held heap calls).once
  synchronized := filled ▸ (SymbolTable.run_held heap calls).listed
  typed := typed
  named := named

/-- `class C` with `void foo(String x)` declared in two lines. -/
def declaredTwice : Heap
  | .declared 0 =>
    @createFullSymbol asciiRuntime "C" .block (SymbolTable.lineLocation 1) "file:///C.cls" {} .null none none none ["C"]
  | .declared 1 => @SymbolTable.methodOfC asciiRuntime "foo" "String" .publicApi .public_ 2
  | _ => @SymbolTable.methodOfC asciiRuntime "foo" "String" .publicApi .public_ 3

theorem declaredTwice_parameters (r : Ref) (p : ParameterSymbol) (member : p ∈ (declaredTwice r).parameters.getD []) :
    p.type = some (.simple "String") := by
  unfold declaredTwice at member
  split at member
  next => cases member
  next =>
    obtain rfl := List.mem_singleton.mp member
    rfl
  next =>
    obtain rfl := List.mem_singleton.mp member
    rfl

def twiceListing : @Listing asciiRuntime :=
  let _ := asciiRuntime
  { heap := declaredTwice
    symbols := [.declared 0,.declared 1,.declared 2]
    once := by decide
    synchronized := by
      have keyed : ∀ s ∈ [Ref.declared 0,.declared 1,.declared 2],
          (declaredTwice s).key.unifiedId = some (declaredTwice s).id ∧ (declaredTwice s).id ≠ "" := by decide +kernel
      exact fun s member => ⟨(keyed s member).1,(keyed s member).2⟩
    typed := by
      intro s _ p member
      rw [writtenType,typeName,declaredTwice_parameters s p member]
      decide +kernel
    named := by
      intro s _ p member s' _ p' member' _
      rw [typeName,typeName,declaredTwice_parameters s p member,declaredTwice_parameters s' p' member'] }

/-- Both declarations have one id, and none is reported. -/
theorem declared_twice_unreported : ¬ ∀ l : @Listing asciiRuntime, @Listing.DetectsDuplicates asciiRuntime l := by
  intro always
  let _ := asciiRuntime
  have ids : ∀ m ∈ [Ref.declared 0,.declared 1,.declared 2], isMethod declaredTwice m = true →
      (declaredTwice m).id = (declaredTwice (.declared 1)).id := by decide +kernel
  have siblings : twiceListing.Siblings (.declared 1) (.declared 2) :=
    ⟨"file:///C.cls#C.C$block",⟨by decide,by decide,by decide,by decide,.declared 0,by decide,by decide +kernel⟩,
      ⟨by decide,by decide,by decide,by decide,.declared 0,by decide,by decide +kernel⟩⟩
  have signature : SameSignature (declaredTwice (.declared 1)) (declaredTwice (.declared 2)) := ⟨rfl,rfl⟩
  obtain ⟨m,reported,_⟩ := (always twiceListing).complete .immediate _ _ siblings signature (by decide)
  obtain ⟨x,_,siblings,differ,_⟩ := (Listing.duplicate_iff _).mp reported
  exact differ ((ids x siblings.mem.1 siblings.mem.2).trans (ids m siblings.symm.mem.1 siblings.symm.mem.2).symm)

end ApexLs.Validation.DuplicateMethods
