import ApexLs.Validation.Inheritance

/-! The validator that follows parent ids by loops. The first argument of each loop is the number
of turns it may take. -/
namespace ApexLs.Validation.VariableShadowingValidator

open ApexLs.Collections ApexLs.Types ApexLs.Utils

variable (allSymbols : List ApexSymbol)

/-- `current.parentId ? allSymbols.find(..) : null`. -/
def parentOf (s : ApexSymbol) : Option ApexSymbol := if hasParentId s then withIdOfParent allSymbols s else none

/-- The loop of `findContainingMethod` and `findContainingClass`. -/
def findContaining (sought : ApexSymbol → Bool) : Nat → ApexSymbol → Option (Option ApexSymbol)
  | 0,_ => none
  | turns + 1,current =>
    if sought current then some (some current)
    else
      match parentOf allSymbols current with
      | none => some none
      | some parent => if sought parent then some (some parent) else findContaining sought turns parent

def isClassOrInterfaceSymbol (s : ApexSymbol) : Bool := s.kind = .class_ || s.kind = .interface

def findContainingMethod (turns : Nat) (symbol : ApexSymbol) : Option (Option ApexSymbol) :=
  findContaining allSymbols ApexSymbol.isMethodOrConstructorSymbol turns symbol

def findContainingClass (turns : Nat) (symbol : ApexSymbol) : Option (Option ApexSymbol) :=
  findContaining allSymbols isClassOrInterfaceSymbol turns symbol

def isDescendantOf (ancestor : ApexSymbol) : Nat → ApexSymbol → Option Bool
  | 0,_ => none
  | turns + 1,current =>
    if current.parentId = .of ancestor.id then some true
    else
      match parentOf allSymbols current with
      | none => some false
      | some parent => isDescendantOf ancestor turns parent

def filterEach (test : ApexSymbol → Option Bool) : List ApexSymbol → Option (List ApexSymbol)
  | [] => some []
  | s :: rest => (test s).bind fun keep => (filterEach test rest).map fun kept => if keep then s :: kept else kept

variable [Runtime]

def sameName (a b : ApexSymbol) : Bool := toLowerCase a.name = toLowerCase b.name

def namesake (variable_ s : ApexSymbol) : Bool :=
  s.id ≠ variable_.id && (s.kind = .parameter || s.kind = .variable) && sameName s variable_

/-- The test of `varsInOuterScope`. Variables in methods never shadow each other, whether the
methods are one or two. -/
def inOuterScope (turns : Nat) (variable_ : ApexSymbol) (containingMethod : Option ApexSymbol) (current s : ApexSymbol) :
    Option Bool :=
  if !namesake variable_ s then some false
  else
    (findContainingMethod allSymbols turns s).bind fun symbolMethod =>
      match symbolMethod,containingMethod with
      | some _,some _ => some false
      | _,_ => if s.parentId = .of current.id then some true else isDescendantOf allSymbols current turns s

def varsInOuterScope (turns : Nat) (variable_ : ApexSymbol) (containingMethod : Option ApexSymbol)
    (current : ApexSymbol) : Option (List ApexSymbol) :=
  filterEach (inOuterScope allSymbols turns variable_ containingMethod current) allSymbols

def climb (turns : Nat) (variable_ : ApexSymbol) (containingMethod : Option ApexSymbol) :
    Nat → ApexSymbol → Option (Option ApexSymbol)
  | 0,_ => none
  | left + 1,current =>
    (varsInOuterScope allSymbols turns variable_ containingMethod current).bind fun
      | first :: _ => some (some first)
      | [] =>
        match parentOf allSymbols current with
        | none => some none
        | some parent => climb turns variable_ containingMethod left parent

/-- A field of the containing class, or of one of its blocks, with the name of the variable. -/
def shadowedField (variable_ : ApexSymbol) (containingClass : Option ApexSymbol) : Option ApexSymbol :=
  containingClass.bind fun cls =>
    let classBlocks := allSymbols.filter fun s => s.isBlockSymbol && s.parentId = .of cls.id
    allSymbols.find? fun f => f.kind = .field && sameName f variable_ &&
      (f.parentId = .of cls.id || classBlocks.any (fun block => f.parentId = .of block.id))

def findShadowedSymbol (turns : Nat) (variable_ currentParent : ApexSymbol) : Option (Option ApexSymbol) :=
  (findContainingMethod allSymbols turns variable_).bind fun containingMethod =>
    (findContainingClass allSymbols turns variable_).bind fun containingClass =>
      match shadowedField allSymbols variable_ containingClass with
      | some field => some (some field)
      | none => climb allSymbols turns variable_ containingMethod turns currentParent

def turns : Nat := allSymbols.length + 1

def checkVariable (localizeTyped : Localizer) (variable_ : ApexSymbol) : Option (List ValidationInfo) :=
  match parentOf allSymbols variable_ with
  | none => some []
  | some parent => (findShadowedSymbol allSymbols (turns allSymbols) variable_ parent).map fun shadowed =>
    if shadowed.isSome then [reported localizeTyped "duplicate.variable" [variable_.name] variable_.location] else []

omit allSymbols in
def validator (localizeTyped : Localizer) : Validator where
  id := "variable-shadowing"
  name := "Variable Shadowing Validator"
  tier := .immediate
  priority := 1
  prerequisites := ⟨some .full,false,false⟩
  validate table _ :=
    (reportsOf (checkVariable table.symbols localizeTyped) (table.symbols.filter (·.kind = .variable))).map (resultOf [] ·)

/-- What the walks of a variable find, where they come to an end. -/
def methodOf (s : ApexSymbol) : Option ApexSymbol := (findContainingMethod allSymbols (turns allSymbols) s).getD none

def classOf (s : ApexSymbol) : Option ApexSymbol := (findContainingClass allSymbols (turns allSymbols) s).getD none

/-- The climb of a variable stops where an outer scope has its name. -/
def shadowedAt (variable_ current : ApexSymbol) : Bool :=
  (varsInOuterScope allSymbols (turns allSymbols) variable_ (methodOf allSymbols variable_) current).any (!·.isEmpty)

/-- The walks along parent ids that are made for a variable, by what they stop at and where they
start: to its method and its class; and, unless a field has its name, up from its parent, and
there from each namesake to its method and to the scope the climb has come to. -/
inductive Walk (variable_ : ApexSymbol) : (ApexSymbol → Bool) → ApexSymbol → Prop where
  | method : Walk variable_ ApexSymbol.isMethodOrConstructorSymbol variable_
  | class_ : Walk variable_ isClassOrInterfaceSymbol variable_
  | climb : shadowedField allSymbols variable_ (classOf allSymbols variable_) = none →
      parentOf allSymbols variable_ = some parent → Walk variable_ (shadowedAt allSymbols variable_) parent
  | other : shadowedField allSymbols variable_ (classOf allSymbols variable_) = none →
      s ∈ allSymbols → namesake variable_ s = true → Walk variable_ ApexSymbol.isMethodOrConstructorSymbol s
  | descent : shadowedField allSymbols variable_ (classOf allSymbols variable_) = none →
      parentOf allSymbols variable_ = some parent →
      Relation.ReflTransGen (Onward (parentOf allSymbols) (shadowedAt allSymbols variable_)) parent current →
      s ∈ allSymbols → namesake variable_ s = true →
      (methodOf allSymbols s = none ∨ methodOf allSymbols variable_ = none) →
      Walk variable_ (fun c => c.parentId = .of current.id) s

/-- None of the walks made for the variables of a table runs into a cycle of parent ids. -/
def Straight : Prop :=
  ∀ variable_ ∈ allSymbols, variable_.kind = .variable → (parentOf allSymbols variable_).isSome →
    ∀ stop start, Walk allSymbols variable_ stop start → ¬ Loops (parentOf allSymbols) stop start

variable {allSymbols}

omit [Runtime] in
theorem parentOf_mem (found : parentOf allSymbols s = some p) : p ∈ allSymbols := by
  rw [parentOf] at found
  split at found
  · exact withIdOfParent_mem found
  · cases found

omit [Runtime] in
theorem findContaining_isSome (ends : endsWithin (parentOf allSymbols) sought n s = true) :
    (findContaining allSymbols sought n s).isSome := by
  induction n generalizing s with
  | zero => cases ends
  | succ n ih =>
    rw [findContaining]
    split
    · rfl
    · next goes =>
      cases found : parentOf allSymbols s with
      | none => rfl
      | some parent =>
        dsimp only
        split
        · rfl
        · exact ih (endsWithin_onward ends ⟨by simpa using goes,found⟩)

omit [Runtime] in
theorem endsWithin_of_findContaining (back : (findContaining allSymbols sought n s).isSome) :
    endsWithin (parentOf allSymbols) sought (n + 1) s = true := by
  induction n generalizing s with
  | zero => cases back
  | succ n ih =>
    rw [endsWithin_succ_iff]
    by_cases stops : sought s = true
    · exact .inl stops
    refine .inr fun parent found => ?_
    simp only [findContaining,stops,found,Bool.false_eq_true,if_false] at back
    split at back
    · next ahead => exact endsWithin_succ_iff.mpr (.inl ahead)
    · exact ih back

omit [Runtime] in
theorem findContaining_isSome_iff (member : s ∈ allSymbols) :
    (findContaining allSymbols sought (turns allSymbols) s).isSome ↔ ¬ Loops (parentOf allSymbols) sought s := by
  constructor
  · exact fun back => not_loops_of_endsWithin (endsWithin_of_findContaining back)
  · intro straight
    apply findContaining_isSome
    exact (endsWithin_iff (fun _ _ => parentOf_mem) member (Nat.le_succ _)).mpr straight

omit [Runtime] in
theorem isDescendantOf_isSome_iff :
    (isDescendantOf allSymbols ancestor n s).isSome ↔
      endsWithin (parentOf allSymbols) (fun c => c.parentId = .of ancestor.id) n s = true := by
  induction n generalizing s with
  | zero => simp [isDescendantOf,endsWithin]
  | succ n ih =>
    rw [isDescendantOf,endsWithin_succ_iff]
    by_cases below : s.parentId = .of ancestor.id
    · simp [below]
    · cases found : parentOf allSymbols s with
      | none => simp [below]
      | some parent => simp [below,ih]

omit [Runtime] in
theorem filterEach_isSome_iff {test : ApexSymbol → Option Bool} {symbols : List ApexSymbol} :
    (filterEach test symbols).isSome ↔ ∀ s ∈ symbols, (test s).isSome := by
  induction symbols with
  | nil => simp [filterEach]
  | cons s rest ih =>
    rw [filterEach,List.forall_mem_cons]
    cases test s with
    | none => simp
    | some keep => simp [ih]

theorem varsInOuterScope_isSome_iff :
    (varsInOuterScope allSymbols (turns allSymbols) v (methodOf allSymbols v) current).isSome ↔
      ∀ s ∈ allSymbols, namesake v s = true →
        ¬ Loops (parentOf allSymbols) ApexSymbol.isMethodOrConstructorSymbol s ∧
          ((methodOf allSymbols s = none ∨ methodOf allSymbols v = none) →
            ¬ Loops (parentOf allSymbols) (fun c => c.parentId = .of current.id) s) := by
  rw [varsInOuterScope,filterEach_isSome_iff]
  refine forall₂_congr fun s member => ?_
  have descends : (isDescendantOf allSymbols current (turns allSymbols) s).isSome ↔
      ¬ Loops (parentOf allSymbols) (fun c => c.parentId = .of current.id) s := by
    rw [isDescendantOf_isSome_iff]
    exact endsWithin_iff (fun _ _ => parentOf_mem) member (Nat.le_succ _)
  have inMethod : (findContainingMethod allSymbols (turns allSymbols) s).isSome ↔
      ¬ Loops (parentOf allSymbols) ApexSymbol.isMethodOrConstructorSymbol s := findContaining_isSome_iff member
  rw [inOuterScope,← inMethod,← descends]
  cases same : namesake v s with
  | false => simp
  | true =>
    cases found : findContainingMethod allSymbols (turns allSymbols) s with
    | none => simp
    | some symbolMethod =>
      have own : methodOf allSymbols s = symbolMethod := by simp [methodOf,found]
      simp only [Bool.not_true,Bool.false_eq_true,if_false,Option.bind_some,Option.isSome_some,true_and,own,
        forall_const]
      have child : (if s.parentId = .of current.id then some true else
          isDescendantOf allSymbols current (turns allSymbols) s).isSome ↔
          (isDescendantOf allSymbols current (turns allSymbols) s).isSome := by
        split
        · next below => simp [turns,isDescendantOf,below]
        · exact Iff.rfl
      cases symbolMethod with
      | none => simpa using child
      | some m =>
        cases methodOf allSymbols v with
        | none => simpa using child
        | some m' => simp

theorem climb_isSome {p : ApexSymbol}
    (scans : ∀ current, Relation.ReflTransGen (Onward (parentOf allSymbols) (shadowedAt allSymbols v)) p current →
      (varsInOuterScope allSymbols (turns allSymbols) v (methodOf allSymbols v) current).isSome)
    (ends : endsWithin (parentOf allSymbols) (shadowedAt allSymbols v) n p = true) :
    (climb allSymbols (turns allSymbols) v (methodOf allSymbols v) n p).isSome := by
  induction n generalizing p with
  | zero => cases ends
  | succ n ih =>
    obtain ⟨found,scanned⟩ := Option.isSome_iff_exists.mp (scans p .refl)
    rw [climb,scanned,Option.bind_some]
    cases found with
    | cons first rest => rfl
    | nil =>
      have clear : shadowedAt allSymbols v p = false := by simp [shadowedAt,scanned]
      cases up : parentOf allSymbols p with
      | none => rfl
      | some parent =>
        have onward : Onward (parentOf allSymbols) (shadowedAt allSymbols v) p parent := ⟨clear,up⟩
        exact ih (fun current reached => scans current (.head onward reached)) (endsWithin_onward ends onward)

theorem scans_of_climb {p : ApexSymbol}
    (back : (climb allSymbols (turns allSymbols) v (methodOf allSymbols v) n p).isSome) :
    endsWithin (parentOf allSymbols) (shadowedAt allSymbols v) n p = true ∧
      ∀ current, Relation.ReflTransGen (Onward (parentOf allSymbols) (shadowedAt allSymbols v)) p current →
        (varsInOuterScope allSymbols (turns allSymbols) v (methodOf allSymbols v) current).isSome := by
  induction n generalizing p with
  | zero => cases back
  | succ n ih =>
    obtain ⟨answer,came⟩ := Option.isSome_iff_exists.mp back
    obtain ⟨found,scanned,rest⟩ := Option.bind_eq_some_iff.mp came
    have here := Option.isSome_of_eq_some scanned
    cases found with
    | cons first others =>
      have stops : shadowedAt allSymbols v p = true := by simp [shadowedAt,scanned]
      refine ⟨endsWithin_succ_iff.mpr (.inl stops),fun current reached => ?_⟩
      rcases Relation.ReflTransGen.cases_head reached with rfl | ⟨c,onward,_⟩
      · exact here
      · rw [onward.1] at stops
        cases stops
    | nil =>
      have above : ∀ parent, parentOf allSymbols p = some parent →
          (climb allSymbols (turns allSymbols) v (methodOf allSymbols v) n parent).isSome := by
        intro parent up
        simp only [up] at rest
        exact Option.isSome_of_eq_some rest
      refine ⟨endsWithin_succ_iff.mpr (.inr fun parent up => (ih (above parent up)).1),fun current reached => ?_⟩
      rcases Relation.ReflTransGen.cases_head reached with rfl | ⟨parent,onward,further⟩
      · exact here
      · exact (ih (above parent onward.2)).2 current further

theorem findShadowedSymbol_isSome_iff (member : v ∈ allSymbols) (up : parentOf allSymbols v = some p) :
    (findShadowedSymbol allSymbols (turns allSymbols) v p).isSome ↔
      ∀ stop start, Walk allSymbols v stop start → ¬ Loops (parentOf allSymbols) stop start := by
  have toMethod : (findContainingMethod allSymbols (turns allSymbols) v).isSome ↔
      ¬ Loops (parentOf allSymbols) ApexSymbol.isMethodOrConstructorSymbol v := findContaining_isSome_iff member
  have toClass : (findContainingClass allSymbols (turns allSymbols) v).isSome ↔
      ¬ Loops (parentOf allSymbols) isClassOrInterfaceSymbol v := findContaining_isSome_iff member
  constructor
  · intro back
    obtain ⟨answer,came⟩ := Option.isSome_iff_exists.mp back
    obtain ⟨m,inMethod,came⟩ := Option.bind_eq_some_iff.mp came
    obtain ⟨c,inClass,came⟩ := Option.bind_eq_some_iff.mp came
    have method : methodOf allSymbols v = m := by simp [methodOf,inMethod]
    have cls : classOf allSymbols v = c := by simp [classOf,inClass]
    -- without a field the climb was made, and came to an end
    have climbed : shadowedField allSymbols v (classOf allSymbols v) = none →
        endsWithin (parentOf allSymbols) (shadowedAt allSymbols v) (turns allSymbols) p = true ∧
        ∀ current, Relation.ReflTransGen (Onward (parentOf allSymbols) (shadowedAt allSymbols v)) p current →
          (varsInOuterScope allSymbols (turns allSymbols) v (methodOf allSymbols v) current).isSome := by
      intro noField
      rw [cls] at noField
      rw [noField,← method] at came
      exact scans_of_climb (Option.isSome_of_eq_some came)
    intro stop start walk
    cases walk with
    | method => exact toMethod.mp (Option.isSome_of_eq_some inMethod)
    | class_ => exact toClass.mp (Option.isSome_of_eq_some inClass)
    | climb noField parent =>
      cases up.symm.trans parent
      exact not_loops_of_endsWithin (climbed noField).1
    | other noField inside same =>
      have scans := (climbed noField).2 p .refl
      exact (varsInOuterScope_isSome_iff.mp scans _ inside same).1
    | descent noField parent reached inside same apart =>
      cases up.symm.trans parent
      have scans := (climbed noField).2 _ reached
      exact (varsInOuterScope_isSome_iff.mp scans _ inside same).2 apart
  · intro straight
    obtain ⟨m,inMethod⟩ := Option.isSome_iff_exists.mp (toMethod.mpr (straight _ _ .method))
    obtain ⟨c,inClass⟩ := Option.isSome_iff_exists.mp (toClass.mpr (straight _ _ .class_))
    have method : methodOf allSymbols v = m := by simp [methodOf,inMethod]
    have cls : classOf allSymbols v = c := by simp [classOf,inClass]
    rw [findShadowedSymbol,inMethod,inClass,Option.bind_some,Option.bind_some,← cls]
    cases noField : shadowedField allSymbols v (classOf allSymbols v) with
    | some field => rfl
    | none =>
      dsimp only
      rw [← method]
      apply climb_isSome
      · intro current reached
        rw [varsInOuterScope_isSome_iff]
        exact fun s inside same => ⟨straight _ _ (.other noField inside same),
          fun apart => straight _ _ (.descent noField up reached inside same apart)⟩
      · exact (endsWithin_iff (fun _ _ => parentOf_mem) (parentOf_mem up) (Nat.le_succ _)).mpr
          (straight _ _ (.climb noField up))

theorem validate_isSome_iff (localizeTyped : Localizer) (table : ValidationTable) (options : ValidationOptions) :
    ((validator localizeTyped).validate table options).isSome ↔ Straight table.symbols := by
  simp only [validator,Option.isSome_map,reportsOf_isSome_iff,List.mem_filter,decide_eq_true_eq,and_imp,Straight]
  refine forall₃_congr fun v member _ => ?_
  rw [checkVariable]
  cases up : parentOf table.symbols v with
  | none => simp
  | some parent =>
    simp only [Option.isSome_map,Option.isSome_some,forall_const]
    exact findShadowedSymbol_isSome_iff member up

end ApexLs.Validation.VariableShadowingValidator
