import ApexLs.Validation.MethodVisibility

/-! The access rules for methods, and when the validator follows them. -/
namespace ApexLs.Validation.MethodResolutionValidator

open ApexLs.Collections ApexLs.Types ApexLs.Utils

section

variable (manager : SymbolManager) (allSymbols : List ApexSymbol)

def DeclaredIn (method declaringClass : ApexSymbol) : Prop :=
  Relation.ReflTransGen (Onward (parentOf manager allSymbols) isClassOrInterfaceSymbol) method declaringClass ∧
    isClassOrInterfaceSymbol declaringClass = true

def InnerOf (callingClass declaringClass : ApexSymbol) : Prop :=
  ∃ enclosing, getEnclosingClass manager allSymbols callingClass = some enclosing ∧ enclosing.id = declaringClass.id

variable [Runtime]

/-- A class on the way up names the other as its superclass, in any letter case. -/
def Extends (callingClass declaringClass : ApexSymbol) : Prop :=
  ∃ c, Relation.ReflTransGen (fun a b => superclassOf manager a = some b) callingClass c ∧
    ∃ name, c.superClass = some name ∧ toLowerCase name = toLowerCase declaringClass.name

/-- The class names the other as its superclass, letter by letter. -/
def extendsExactly (declaringClass c : ApexSymbol) : Bool := c.superClass = some declaringClass.name

def ExtendsExactly (callingClass declaringClass : ApexSymbol) : Prop :=
  ∃ c, Relation.ReflTransGen (fun a b => superclassOf manager a = some b) callingClass c ∧
    extendsExactly declaringClass c = true

def TestExempt (method callingClass : ApexSymbol) : Prop :=
  hasAnnotation method "TestVisible" = true ∧
    ∃ c, Relation.ReflTransGen (fun a b => getEnclosingClass manager allSymbols a = some b) callingClass c ∧ isTestClass c = true

def Allowed (method callingClass : ApexSymbol) : Prop :=
  match method.modifiers.visibility with
  | .public_ | .global => True
  | .private_ | .default => (∃ d, DeclaredIn manager allSymbols method d ∧ d.id = callingClass.id) ∨
      TestExempt manager allSymbols method callingClass
  | .protected_ => (∃ d, DeclaredIn manager allSymbols method d ∧
      (d.id = callingClass.id ∨ Extends manager callingClass d ∨ InnerOf manager allSymbols callingClass d)) ∨
      TestExempt manager allSymbols method callingClass

structure FollowsRules (method callingClass : ApexSymbol) (isStaticContext : Bool) : Prop where
  ends : ∃ rounds, (isMethodVisible manager allSymbols method callingClass isStaticContext rounds).isSome
  rules : ∀ rounds visible, isMethodVisible manager allSymbols method callingClass isStaticContext rounds = some visible →
    (visible = true ↔ Allowed manager allSymbols method callingClass)

def TestWalkEnds (method callingClass : ApexSymbol) : Prop :=
  hasAnnotation method "TestVisible" = true → ¬ Loops (getEnclosingClass manager allSymbols) isTestClass callingClass

/-- The superclasses end or come to the exact name of the declaring class, and no other spelling of it decides. -/
structure SpelledAlike (method callingClass declaringClass : ApexSymbol) : Prop where
  straight : ¬ Loops (superclassOf manager) (extendsExactly declaringClass) callingClass
  alike : ExtendsExactly manager callingClass declaringClass ∨ InnerOf manager allSymbols callingClass declaringClass ∨
    (TestWalkEnds manager allSymbols method callingClass ∧
      (Extends manager callingClass declaringClass → TestExempt manager allSymbols method callingClass))

/-- A call that the static check turns away is not allowed anyway; otherwise the way up to the declaring
class ends at one, and of another class's restricted method the exception or the spelling is clear. -/
structure Ruled (method callingClass : ApexSymbol) (isStaticContext : Bool) : Prop where
  turnedAway : method.modifiers.isStatic = true → isStaticContext = false → ¬ Allowed manager allSymbols method callingClass
  restricted : (method.modifiers.isStatic = true → isStaticContext = true) → method.modifiers.visibility ≠ .public_ →
    method.modifiers.visibility ≠ .global →
      ¬ Loops (parentOf manager allSymbols) isClassOrInterfaceSymbol method ∧
        ((∃ d, DeclaredIn manager allSymbols method d) ∨ TestExempt manager allSymbols method callingClass) ∧
        ∀ d, DeclaredIn manager allSymbols method d → d.id ≠ callingClass.id →
          if method.modifiers.visibility = .protected_ then SpelledAlike manager allSymbols method callingClass d
          else TestWalkEnds manager allSymbols method callingClass

end

section

variable {manager : SymbolManager} {allSymbols : List ApexSymbol}

theorem mem_of_parentOf (up : parentOf manager allSymbols s = some p) : p ∈ allSymbols ++ manager.loaded := by
  obtain ⟨id,-,resolved⟩ := Option.bind_eq_some_iff.mp up
  rcases Option.or_eq_some_iff.mp resolved with found | ⟨-,found⟩
  · exact List.mem_append_left _ (List.mem_of_find?_eq_some found)
  · exact List.mem_append_right _ (List.mem_of_find?_eq_some found)

theorem mem_of_getEnclosingClass (up : getEnclosingClass manager allSymbols s = some p) : p ∈ allSymbols ++ manager.loaded := by
  obtain ⟨parent,parentUp,enclosing⟩ := Option.bind_eq_some_iff.mp up
  split at enclosing
  · exact Option.some.inj enclosing ▸ mem_of_parentOf parentUp
  · split at enclosing
    · exact mem_of_parentOf (Option.filter_eq_some_iff.mp enclosing).1
    · cases enclosing

theorem findDeclaringClass_of_firstOf (found : firstOf (parentOf manager allSymbols) isClassOrInterfaceSymbol n s = some r) :
    findDeclaringClass manager allSymbols n s = some r := by
  induction n generalizing s with
  | zero => cases found
  | succ n ih =>
    rw [findDeclaringClass]
    cases class_ : isClassOrInterfaceSymbol s with
    | true => exact (firstOf_stop class_ n).symm.trans found
    | false =>
      cases up : parentOf manager allSymbols s with
      | none => exact (firstOf_last class_ up n).symm.trans found
      | some parent =>
        rw [firstOf_onward ⟨class_,up⟩] at found
        have further := ih found
        -- what the round looks ahead to is what the next rounds come to
        cases parentClass : isClassOrInterfaceSymbol parent with
        | true =>
          cases n with
          | zero => cases found
          | succ n => simpa [findDeclaringClass,parentClass] using further
        | false =>
          simp only [parentClass,Bool.false_eq_true,if_false]
          split
          next class_ ahead =>
            obtain ⟨grand,grandClass⟩ := Option.filter_eq_some_iff.mp ahead
            split at grand
            next =>
              cases n with
              | zero => cases found
              | succ n =>
                rw [firstOf_onward ⟨parentClass,grand⟩] at found
                cases n with
                | zero => cases found
                | succ n => exact (firstOf_stop grandClass n).symm.trans found
            next => cases grand
          next => exact further

theorem firstOf_of_findDeclaringClass (found : findDeclaringClass manager allSymbols n s = some r) :
    firstOf (parentOf manager allSymbols) isClassOrInterfaceSymbol (n + 2) s = some r := by
  induction n generalizing s with
  | zero => cases found
  | succ n ih =>
    rw [findDeclaringClass] at found
    cases class_ : isClassOrInterfaceSymbol s with
    | true =>
      rw [class_] at found
      exact (firstOf_stop class_ _).trans found
    | false =>
      rw [class_] at found
      cases up : parentOf manager allSymbols s with
      | none =>
        rw [up] at found
        exact (firstOf_last class_ up _).trans found
      | some parent =>
        rw [firstOf_onward ⟨class_,up⟩]
        rw [up] at found
        cases parentClass : isClassOrInterfaceSymbol parent with
        | true =>
          simp only [parentClass,if_true,Bool.false_eq_true,if_false] at found
          exact (firstOf_stop parentClass _).trans found
        | false =>
          simp only [parentClass,Bool.false_eq_true,if_false] at found
          split at found
          next class_ ahead =>
            obtain ⟨grand,grandClass⟩ := Option.filter_eq_some_iff.mp ahead
            split at grand
            next =>
              rw [firstOf_onward ⟨parentClass,grand⟩]
              exact (firstOf_stop grandClass _).trans found
            next => cases grand
          next => exact ih found

theorem findDeclaringClass_mono (method : ApexSymbol) (found : findDeclaringClass manager allSymbols n method = some r)
    (more : n ≤ m) : findDeclaringClass manager allSymbols m method = some r := by
  induction n generalizing m method with
  | zero => cases found
  | succ n ih =>
    obtain ⟨m,rfl⟩ := Nat.exists_eq_add_of_le' (Nat.le_trans (Nat.le_add_left 1 n) more)
    simp only [findDeclaringClass] at found ⊢
    split at found
    next class_ =>
      rw [if_pos class_]
      exact found
    next class_ =>
      rw [if_neg class_]
      split at found
      next => exact found
      next parent _ =>
        split at found
        next parentClass =>
          rw [← found]
          exact if_pos parentClass
        next parentClass =>
          refine (if_neg parentClass).trans ?_
          split at found
          next => exact found
          next => exact ih parent found (Nat.le_of_succ_le_succ more)

theorem growing_findDeclaringClass (method : ApexSymbol) : Growing (findDeclaringClass manager allSymbols · method) :=
  fun _ _ _ found more => findDeclaringClass_mono method found more

theorem settles_findDeclaringClass_iff : Settles (findDeclaringClass manager allSymbols · method) r ↔
    ¬ Loops (parentOf manager allSymbols) isClassOrInterfaceSymbol method ∧
      ∀ d, r = some d ↔ DeclaredIn manager allSymbols method d := by
  have same : Settles (findDeclaringClass manager allSymbols · method) r ↔
      Settles (firstOf (parentOf manager allSymbols) isClassOrInterfaceSymbol · method) r :=
    ⟨fun ⟨n,found⟩ => ⟨n + 2,firstOf_of_findDeclaringClass found⟩,fun ⟨n,found⟩ => ⟨n,findDeclaringClass_of_firstOf found⟩⟩
  rw [same]
  exact settles_firstOf_iff fun _ _ up => mem_of_parentOf up

variable [Runtime]

theorem isInTestContext_eq (rounds : Nat) (c : ApexSymbol) : isInTestContext manager allSymbols rounds c =
    (firstOf (getEnclosingClass manager allSymbols) isTestClass rounds c).map Option.isSome := by
  induction rounds generalizing c with
  | zero => rfl
  | succ rounds ih =>
    rw [isInTestContext]
    cases test : isTestClass c with
    | true => simp [firstOf_stop test]
    | false =>
      cases up : getEnclosingClass manager allSymbols c with
      | none => simp [firstOf_last test up]
      | some enclosing => simp [firstOf_onward ⟨test,up⟩,ih]

theorem isSubclassOf_eq (parentClass : ApexSymbol) (calls : Nat) (c : ApexSymbol) : isSubclassOf manager parentClass calls c =
    (firstOf (superclassOf manager) (extendsExactly parentClass) calls c).map Option.isSome := by
  induction calls generalizing c with
  | zero => rfl
  | succ calls ih =>
    rw [isSubclassOf]
    by_cases named : c.superClass = some parentClass.name
    · have stops : extendsExactly parentClass c = true := decide_eq_true named
      simp [firstOf_stop stops,named]
    · have onward : extendsExactly parentClass c = false := decide_eq_false named
      cases up : superclassOf manager c with
      | none => simp [firstOf_last onward up,named]
      | some superClassSymbol => simp [firstOf_onward ⟨onward,up⟩,ih,named]

theorem settles_isInTestContext_iff : Settles (isInTestContext manager allSymbols · c) b ↔
    ¬ Loops (getEnclosingClass manager allSymbols) isTestClass c ∧ (b = true ↔
      ∃ d, Relation.ReflTransGen (fun a b => getEnclosingClass manager allSymbols a = some b) c d ∧ isTestClass d = true) := by
  rw [← exists_onward_iff]
  simp only [isInTestContext_eq]
  exact settles_found_iff fun _ _ up => mem_of_getEnclosingClass up

theorem settles_isSubclassOf_iff : Settles (isSubclassOf manager d · c) b ↔
    ¬ Loops (superclassOf manager) (extendsExactly d) c ∧ (b = true ↔ ExtendsExactly manager c d) := by
  have closed : ∀ a b, superclassOf manager a = some b → b ∈ manager.loaded := by
    intro a b up
    obtain ⟨name,-,named⟩ := Option.bind_eq_some_iff.mp up
    exact (List.mem_filter.mp (List.mem_of_find?_eq_some named)).1
  rw [ExtendsExactly,← exists_onward_iff]
  simp only [isSubclassOf_eq]
  exact settles_found_iff closed

theorem growing_isInTestContext (c : ApexSymbol) : Growing (isInTestContext manager allSymbols · c) := by
  simp only [isInTestContext_eq]
  exact growing_found c

theorem growing_isSubclassOf (d c : ApexSymbol) : Growing (isSubclassOf manager d · c) := by
  simp only [isSubclassOf_eq]
  exact growing_found c

theorem growing_testVisible (method callingClass : ApexSymbol) : Growing (testVisible manager allSymbols method callingClass) :=
  (growing_isInTestContext callingClass).ite (growing_const (some false))

theorem settles_testVisible_iff : Settles (testVisible manager allSymbols method callingClass) b ↔
    TestWalkEnds manager allSymbols method callingClass ∧ (b = true ↔ TestExempt manager allSymbols method callingClass) := by
  unfold testVisible TestWalkEnds TestExempt
  cases hasAnnotation method "TestVisible" with
  | true => simpa using settles_isInTestContext_iff
  | false => cases b <;> simp [settles_const_iff]

omit [Runtime] in
theorem innerOf_iff : ((getEnclosingClass manager allSymbols c).any fun enclosing => enclosing.id = d.id) = true ↔
    InnerOf manager allSymbols c d := by
  simp [Option.any_eq_true,InnerOf]

theorem settles_protectedVisible_iff : Settles (protectedVisible manager allSymbols method c d) b ↔
    ¬ Loops (superclassOf manager) (extendsExactly d) c ∧
      (ExtendsExactly manager c d ∨ InnerOf manager allSymbols c d → b = true) ∧
      (¬ (ExtendsExactly manager c d ∨ InnerOf manager allSymbols c d) → TestWalkEnds manager allSymbols method c ∧
        (b = true ↔ TestExempt manager allSymbols method c)) := by
  have subclass : Growing (isSubclassOf manager d · c) := growing_isSubclassOf d c
  have tested : Growing (testVisible manager allSymbols method c) := growing_testVisible method c
  have bound := settles_bind_iff (c := b) subclass fun extends_ =>
    (growing_const (some true)).ite (p := extends_ = true) ((growing_const (some true)).ite
      (p := ((getEnclosingClass manager allSymbols c).any fun enclosing => enclosing.id = d.id) = true) tested)
  refine bound.trans ?_
  have rest (extends_ : Bool) : Settles (fun rounds => if extends_ then some true else
      if (getEnclosingClass manager allSymbols c).any fun enclosing => enclosing.id = d.id then some true
      else testVisible manager allSymbols method c rounds) b ↔
      (extends_ = true ∨ InnerOf manager allSymbols c d → b = true) ∧
      (¬ (extends_ = true ∨ InnerOf manager allSymbols c d) → TestWalkEnds manager allSymbols method c ∧
        (b = true ↔ TestExempt manager allSymbols method c)) := by
    rw [settles_ite_iff,settles_ite_iff,innerOf_iff,settles_const_iff,Option.some_inj,← settles_testVisible_iff]
    rw [@eq_comm Bool true b]
    tauto
  constructor
  · rintro ⟨extends_,settled,followed⟩
    obtain ⟨straight,exactly⟩ := settles_isSubclassOf_iff.mp settled
    rw [rest,exactly] at followed
    exact ⟨straight,followed⟩
  · classical
    rintro ⟨straight,followed⟩
    refine ⟨decide (ExtendsExactly manager c d),settles_isSubclassOf_iff.mpr ⟨straight,decide_eq_true_iff⟩,?_⟩
    rw [rest,decide_eq_true_iff]
    exact followed

theorem growing_protectedVisible (method c d : ApexSymbol) : Growing (protectedVisible manager allSymbols method c d) :=
  (growing_isSubclassOf d c).bind fun _ => (growing_const (some true)).ite
    ((growing_const (some true)).ite (growing_testVisible method c))

theorem growing_restrictedVisible (method c : ApexSymbol) (d : Option ApexSymbol) :
    Growing (restrictedVisible manager allSymbols method c d) := by
  cases d with
  | none => exact growing_const (some true)
  | some d =>
    exact (growing_const (some true)).ite ((growing_protectedVisible method c d).ite (growing_testVisible method c))

theorem growing_isMethodVisible (method c : ApexSymbol) (isStaticContext : Bool) :
    Growing (isMethodVisible manager allSymbols method c isStaticContext) :=
  (growing_const (some false)).ite ((growing_const (some true)).ite
    ((growing_findDeclaringClass method).bind fun d => growing_restrictedVisible method c d))

theorem settles_restrictedVisible_some_iff : Settles (restrictedVisible manager allSymbols method c (some d)) b ↔
    (d.id = c.id → b = true) ∧ (d.id ≠ c.id →
      if method.modifiers.visibility = .protected_ then Settles (protectedVisible manager allSymbols method c d) b
      else Settles (testVisible manager allSymbols method c) b) := by
  refine settles_ite_iff.trans ?_
  rw [settles_const_iff,Option.some_inj,@eq_comm Bool true b]
  refine and_congr_right fun _ => forall_congr' fun _ => settles_ite_iff.trans ?_
  split
  case isTrue protected_ => exact ⟨fun both => both.1 protected_,fun left => ⟨fun _ => left,fun other => absurd protected_ other⟩⟩
  case isFalse other => exact ⟨fun both => both.2 other,fun right => ⟨fun protected_ => absurd protected_ other,fun _ => right⟩⟩

omit [Runtime] in
theorem declaredIn_unique (left : DeclaredIn manager allSymbols method d) (right : DeclaredIn manager allSymbols method d') :
    d = d' :=
  stopped_unique left.1 left.2 right.1 right.2

theorem settles_isMethodVisible_iff (passes : method.modifiers.isStatic = true → isStaticContext = true)
    (notPublic : method.modifiers.visibility ≠ .public_) (notGlobal : method.modifiers.visibility ≠ .global) :
    Settles (isMethodVisible manager allSymbols method c isStaticContext) b ↔
      ¬ Loops (parentOf manager allSymbols) isClassOrInterfaceSymbol method ∧
        ((¬ ∃ d, DeclaredIn manager allSymbols method d) → b = true) ∧
        ∀ d, DeclaredIn manager allSymbols method d → Settles (restrictedVisible manager allSymbols method c (some d)) b := by
  have unfolded : isMethodVisible manager allSymbols method c isStaticContext = fun rounds =>
      (findDeclaringClass manager allSymbols rounds method).bind fun d =>
        restrictedVisible manager allSymbols method c d rounds := by
    funext rounds
    rw [isMethodVisible,if_neg (by simpa using passes),if_neg (by simp [notPublic,notGlobal])]
  rw [unfolded,settles_bind_iff (growing_findDeclaringClass method) fun d => growing_restrictedVisible method c d]
  simp only [settles_findDeclaringClass_iff]
  constructor
  · rintro ⟨r,⟨straight,declared⟩,settled⟩
    refine ⟨straight,fun nowhere => ?_,fun d declaredIn => ?_⟩
    · cases r with
      | none => exact (Option.some.inj (settles_const_iff.mp settled)).symm
      | some d => exact absurd ⟨d,(declared d).mp rfl⟩ nowhere
    · rwa [(declared d).mpr declaredIn] at settled
  · rintro ⟨straight,nowhere,somewhere⟩
    obtain ⟨n,ends⟩ := exists_firstOf_of_not_loops (fun _ _ up => mem_of_parentOf up) straight
    obtain ⟨r,found⟩ := Option.isSome_iff_exists.mp ends
    have declared : ∀ d, r = some d ↔ DeclaredIn manager allSymbols method d := firstOf_spec found
    refine ⟨r,⟨straight,declared⟩,?_⟩
    cases r with
    | none =>
      have none_ : ¬ ∃ d, DeclaredIn manager allSymbols method d := fun ⟨d,declaredIn⟩ => by cases (declared d).mpr declaredIn
      exact settles_const_iff.mpr (congrArg some (nowhere none_).symm)
    | some d => exact somewhere d ((declared d).mp rfl)

theorem allowed_restricted_iff (notPublic : method.modifiers.visibility ≠ .public_)
    (notGlobal : method.modifiers.visibility ≠ .global) :
    Allowed manager allSymbols method c ↔ (∃ d, DeclaredIn manager allSymbols method d ∧ (d.id = c.id ∨
      method.modifiers.visibility = .protected_ ∧ (Extends manager c d ∨ InnerOf manager allSymbols c d))) ∨
      TestExempt manager allSymbols method c := by
  unfold Allowed
  cases visibility : method.modifiers.visibility with
  | public_ => exact absurd visibility notPublic
  | global => exact absurd visibility notGlobal
  | private_ => simp
  | default => simp
  | protected_ => simp

theorem ExtendsExactly.any_case (exactly : ExtendsExactly manager c d) : Extends manager c d := by
  obtain ⟨e,path,named⟩ := exactly
  exact ⟨e,path,d.name,of_decide_eq_true named,rfl⟩

theorem followsRules_iff : FollowsRules manager allSymbols method c isStaticContext ↔
    ∃ b, Settles (isMethodVisible manager allSymbols method c isStaticContext) b ∧
      (b = true ↔ Allowed manager allSymbols method c) := by
  constructor
  · rintro ⟨⟨rounds,ends⟩,rules⟩
    obtain ⟨b,answer⟩ := Option.isSome_iff_exists.mp ends
    exact ⟨b,⟨rounds,answer⟩,rules rounds b answer⟩
  · rintro ⟨b,⟨rounds,answer⟩,right⟩
    refine ⟨⟨rounds,Option.isSome_iff_exists.mpr ⟨b,answer⟩⟩,fun rounds' b' answer' => ?_⟩
    have same := (growing_isMethodVisible method c isStaticContext).unique ⟨rounds',answer'⟩ ⟨rounds,answer⟩
    rw [same]
    exact right

/-- Of another class's restricted method, the check says what the rules say if and only if the
exception or the spelling is clear. -/
theorem settles_allowed_iff (notPublic : method.modifiers.visibility ≠ .public_)
    (notGlobal : method.modifiers.visibility ≠ .global)
    (declared : DeclaredIn manager allSymbols method d) (verdict : b = true ↔ Allowed manager allSymbols method c) :
    Settles (restrictedVisible manager allSymbols method c (some d)) b ↔ (d.id ≠ c.id →
      if method.modifiers.visibility = .protected_ then SpelledAlike manager allSymbols method c d
      else TestWalkEnds manager allSymbols method c) := by
  rw [allowed_restricted_iff notPublic notGlobal] at verdict
  have theOne {P : ApexSymbol → Prop} : (∃ d', DeclaredIn manager allSymbols method d' ∧ P d') ↔ P d :=
    ⟨fun ⟨_,declared',holds⟩ => declaredIn_unique declared' declared ▸ holds,fun holds => ⟨d,declared,holds⟩⟩
  rw [theOne] at verdict
  rw [settles_restrictedVisible_some_iff,and_iff_right fun own => verdict.mpr (.inl (.inl own))]
  refine forall_congr' fun other => ?_
  rw [or_iff_right other] at verdict
  split
  case isFalse unprotected =>
    rw [settles_testVisible_iff,verdict,or_iff_right fun both => unprotected both.1]
    exact and_iff_left Iff.rfl
  case isTrue protected_ =>
    rw [settles_protectedVisible_iff,verdict,and_iff_right protected_]
    have implied := fun exactly : ExtendsExactly manager c d => exactly.any_case
    constructor
    · rintro ⟨straight,-,further⟩
      refine ⟨straight,?_⟩
      by_cases own : ExtendsExactly manager c d ∨ InnerOf manager allSymbols c d
      · exact own.imp_right .inl
      · obtain ⟨ends,exempt⟩ := further own
        exact .inr (.inr ⟨ends,fun extends_ => exempt.mp (.inl (.inl extends_))⟩)
    · rintro ⟨straight,alike⟩
      refine ⟨straight,fun own => .inl (own.imp_left implied),fun foreign => ?_⟩
      obtain exactly | inner | ⟨ends,exempt⟩ := alike
      · exact absurd (.inl exactly) foreign
      · exact absurd (.inr inner) foreign
      · refine ⟨ends,?_,.inr⟩
        rintro ((extends_ | inner) | tested)
        · exact exempt extends_
        · exact absurd (.inr inner) foreign
        · exact tested

theorem followsRules_of_open (passes : method.modifiers.isStatic = true → isStaticContext = true)
    (open_ : method.modifiers.visibility = .public_ ∨ method.modifiers.visibility = .global) :
    FollowsRules manager allSymbols method c isStaticContext := by
  refine followsRules_iff.mpr ⟨true,⟨0,?_⟩,iff_of_true rfl ?_⟩
  · rw [isMethodVisible,if_neg (by simpa using passes),if_pos (by simpa using open_)]
  · unfold Allowed
    rcases open_ with visibility | visibility <;> rw [visibility] <;> trivial

theorem followsRules_iff_of_turnedAway (static : method.modifiers.isStatic = true) (instance_ : isStaticContext = false) :
    FollowsRules manager allSymbols method c isStaticContext ↔ ¬ Allowed manager allSymbols method c := by
  have answers (rounds : Nat) : isMethodVisible manager allSymbols method c isStaticContext rounds = some false := by
    rw [isMethodVisible,if_pos (by simp [static,instance_])]
  rw [followsRules_iff]
  constructor
  · rintro ⟨b,⟨rounds,answer⟩,verdict⟩ allowed
    rw [answers] at answer
    cases (Option.some.inj answer).trans (verdict.mpr allowed)
  · exact fun barred => ⟨false,⟨0,answers 0⟩,iff_of_false Bool.false_ne_true barred⟩

theorem followsRules_iff_ruled : FollowsRules manager allSymbols method c isStaticContext ↔
    Ruled manager allSymbols method c isStaticContext := by
  by_cases passes : method.modifiers.isStatic = true → isStaticContext = true
  · have notTurned (static : method.modifiers.isStatic = true) : isStaticContext ≠ false := by simp [passes static]
    by_cases open_ : method.modifiers.visibility = .public_ ∨ method.modifiers.visibility = .global
    · refine iff_of_true (followsRules_of_open passes open_) ⟨fun static away => absurd away (notTurned static),?_⟩
      exact fun _ notPublic notGlobal => absurd open_ (not_or.mpr ⟨notPublic,notGlobal⟩)
    · obtain ⟨notPublic,notGlobal⟩ := not_or.mp open_
      rw [followsRules_iff]
      constructor
      · rintro ⟨b,settled,verdict⟩
        refine ⟨fun static away => absurd away (notTurned static),fun _ _ _ => ?_⟩
        obtain ⟨straight,nowhere,somewhere⟩ := (settles_isMethodVisible_iff passes notPublic notGlobal).mp settled
        refine ⟨straight,or_iff_not_imp_left.mpr fun none_ => ?_,fun d declared => ?_⟩
        · rcases (allowed_restricted_iff notPublic notGlobal).mp (verdict.mp (nowhere none_)) with ⟨d,declared,-⟩ | exempt
          · exact absurd ⟨d,declared⟩ none_
          · exact exempt
        · exact (settles_allowed_iff notPublic notGlobal declared verdict).mp (somewhere d declared)
      · classical
        rintro ⟨-,restricted⟩
        obtain ⟨straight,exempt,clear⟩ := restricted passes notPublic notGlobal
        have verdict := decide_eq_true_iff (p := Allowed manager allSymbols method c)
        refine ⟨_,(settles_isMethodVisible_iff passes notPublic notGlobal).mpr ⟨straight,fun none_ => ?_,
          fun d declared => ?_⟩,verdict⟩
        · exact verdict.mpr ((allowed_restricted_iff notPublic notGlobal).mpr (.inr (exempt.resolve_left none_)))
        · exact (settles_allowed_iff notPublic notGlobal declared verdict).mpr (clear d declared)
  · obtain ⟨static,away⟩ := Classical.not_imp.mp passes
    rw [Bool.not_eq_true] at away
    rw [followsRules_iff_of_turnedAway static away]
    exact ⟨fun barred => ⟨fun _ _ => barred,fun passes' => absurd passes' passes⟩,fun ruled => ruled.turnedAway static away⟩

end

structure UnqualifiedCall where
  manager : SymbolManager
  allSymbols : List ApexSymbol
  containingClass : ApexSymbol
  isStatic : Option Bool
  callLocation : SymbolLocation

namespace UnqualifiedCall

def isStaticContext (call : UnqualifiedCall) : Bool :=
  isStaticCall call.allSymbols call.containingClass call.isStatic call.callLocation

def visible [Runtime] (call : UnqualifiedCall) (method : ApexSymbol) (rounds : Nat) : Option Bool :=
  isMethodVisible call.manager call.allSymbols method call.containingClass call.isStaticContext rounds

structure Follows [Runtime] (call : UnqualifiedCall) (method : ApexSymbol) : Prop where
  ends : ∃ rounds, (call.visible method rounds).isSome
  rules : ∀ rounds visible, call.visible method rounds = some visible →
    (visible = true ↔ Allowed call.manager call.allSymbols method call.containingClass)

end UnqualifiedCall

/-- The check of visibility ends and follows the rules, in either static context and so for any call
without a receiver, if and only if it does not turn away a static method that the rules allow, its
walks end, and no letter case of a superclass decides. -/
theorem visibility_follows_rules_iff [Runtime] (call : UnqualifiedCall) (method : ApexSymbol) :
    (∀ isStaticContext, FollowsRules call.manager call.allSymbols method call.containingClass isStaticContext ↔
      Ruled call.manager call.allSymbols method call.containingClass isStaticContext) ∧
    (call.Follows method ↔ Ruled call.manager call.allSymbols method call.containingClass call.isStaticContext) := by
  refine ⟨fun _ => followsRules_iff_ruled,?_⟩
  rw [← followsRules_iff_ruled]
  exact ⟨fun follows => ⟨follows.ends,follows.rules⟩,fun follows => ⟨follows.ends,follows.rules⟩⟩

/-- `public class Jobs { public static void log() {} public void run() { log(); } }`, a line for each member -/
def loggingCall : UnqualifiedCall :=
  let symbol (id name : String) (kind : SymbolKind) (line : Nat) (parentId : ParentId) (isStatic : Bool) : ApexSymbol :=
    { id := id,name := name,kind := kind,location := ⟨⟨line,2,line,30⟩,⟨line,20,line,24⟩⟩,fileUri := "file:///Jobs.cls"
      parentId := parentId,modifiers := { visibility := .public_,isStatic := isStatic } }
  let jobs := symbol "Jobs" "Jobs" .class_ 1 .null false
  let block := { symbol "Jobs:block" "class_1" .block 1 (.of "Jobs") false with scopeType := some .class_ }
  let log := symbol "Jobs:log" "log" .method 2 (.of "Jobs:block") true
  let run := symbol "Jobs:run" "run" .method 3 (.of "Jobs:block") false
  ⟨⟨[jobs,block,log,run]⟩,[jobs,block,log,run],jobs,none,⟨⟨4,4,4,9⟩,⟨4,4,4,7⟩⟩⟩

def loggingMethod : ApexSymbol := loggingCall.allSymbols.get ⟨2,by decide⟩

/-- An instance method may not call a static one of its class. -/
theorem static_call_turned_away : @UnqualifiedCall.visible asciiRuntime loggingCall loggingMethod 0 = some false ∧
    @Allowed loggingCall.manager loggingCall.allSymbols asciiRuntime loggingMethod loggingCall.containingClass ∧
    ¬ @UnqualifiedCall.Follows asciiRuntime loggingCall loggingMethod := by
  let _ := asciiRuntime
  -- the last method that starts before the call
  have inRun : (allMethodsInClass loggingCall.allSymbols loggingCall.containingClass).filter
      (containsCall (allMethodsInClass loggingCall.allSymbols loggingCall.containingClass) 4) =
      [loggingCall.allSymbols.get ⟨3,by decide⟩] :=
    rfl
  have around : containingMethod loggingCall.allSymbols loggingCall.containingClass 4 =
      loggingCall.allSymbols.get ⟨3,by decide⟩ := by
    rw [containingMethod]
    simp only [inRun,List.mergeSort_singleton,List.head?_cons]
  have instance_ : loggingCall.isStaticContext = false := by
    have line : loggingCall.callLocation.identifierRange.startLine = 4 := rfl
    rw [UnqualifiedCall.isStaticContext,isStaticCall,line,around]
    rfl
  have turned : loggingCall.visible loggingMethod 0 = some false := by
    rw [UnqualifiedCall.visible,instance_]
    rfl
  have allowed : Allowed loggingCall.manager loggingCall.allSymbols loggingMethod loggingCall.containingClass := trivial
  exact ⟨turned,allowed,fun follows => Bool.false_ne_true ((follows.rules 0 false turned).mpr allowed)⟩

end ApexLs.Validation.MethodResolutionValidator
