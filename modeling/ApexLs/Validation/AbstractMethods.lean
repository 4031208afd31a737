import Mathlib.Data.List.Perm.Basic
import ApexLs.Validation.Inheritance

/-! Which abstract methods are reported as missing. The abstract methods of all ancestors are gathered;
what implements them is looked for in the class itself. -/
namespace ApexLs.Validation.AbstractMethodImplementationValidator

open ApexLs.Collections ApexLs.Types ApexLs.Utils

variable [Runtime]

def classMethods (allSymbols : List ApexSymbol) (cls : ApexSymbol) : List ApexSymbol :=
  allSymbols.filter fun s => s.kind = .method &&
    (s.parentId = .of cls.id || (classBlockOf allSymbols cls).any (fun block => s.parentId = .of block.id))

/-- `classMethods.some((m) => isMethodImplemented(m, abstractMethod))` -/
def ownSignature (allSymbols : List ApexSymbol) (cls m : ApexSymbol) : Bool :=
  (classMethods allSymbols cls).any (isMethodImplemented · m)

def unimplementedMethods (allSymbols : List ApexSymbol) (tier : ValidationTier) (cls : ApexSymbol) : Option (List ApexSymbol) :=
  if cls.modifiers.isAbstract then some []
  else (getAllAbstractMethods (findParentClassInSameFile allSymbols) allSymbols tier (frames allSymbols) cls).map
    (List.filter (!ownSignature allSymbols cls ·))

theorem checkClass_eq (localizeTyped : Localizer) (allSymbols : List ApexSymbol) (tier : ValidationTier) (cls : ApexSymbol) :
    checkClass localizeTyped allSymbols tier cls = (unimplementedMethods allSymbols tier cls).map (List.map fun m =>
      reported localizeTyped "class.must.implement.abstract.method" [cls.name,m.name] cls.location) := by
  rw [checkClass,unimplementedMethods]
  split
  · rfl
  · rw [Option.map_map]
    rfl

section

variable (allSymbols : List ApexSymbol)

def abstractMethodsIn (c : ApexSymbol) : List ApexSymbol := (methodsDirectlyIn allSymbols c).filter (·.modifiers.isAbstract)

/-- One of the classes has a method that is not abstract and has the signature. -/
def implementedAmong (classes : List ApexSymbol) (m : ApexSymbol) : Bool :=
  classes.any fun c => (methodsDirectlyIn allSymbols c).any fun i => !i.modifiers.isAbstract && isMethodImplemented i m

/-- Some ancestor declares the method abstract, and nothing below the ancestor implements it. -/
def Missing (cls m : ApexSymbol) : Prop :=
  ∃ below a, below.head? = some cls ∧ (below ++ [a]).IsChain (fun c p => findParentClassInSameFile allSymbols c = some p) ∧
    m ∈ abstractMethodsIn allSymbols a ∧ implementedAmong allSymbols below m = false

def missingAlong (below : List ApexSymbol) : List ApexSymbol → List ApexSymbol
  | [] => []
  | a :: above =>
    (abstractMethodsIn allSymbols a).filter (!implementedAmong allSymbols below ·) ++ missingAlong (below ++ [a]) above

def lineage (cls : ApexSymbol) : List ApexSymbol := chainFrom (findParentClassInSameFile allSymbols) (frames allSymbols) cls

def missingMethods (cls : ApexSymbol) : List ApexSymbol := missingAlong allSymbols [cls] (lineage allSymbols cls).tail

def ReportedExactly (tier : ValidationTier) (cls : ApexSymbol) : Prop :=
  ∃ found, unimplementedMethods allSymbols tier cls = some found ∧ (∀ m, m ∈ found ↔ Missing allSymbols cls m) ∧
    found.Perm (missingMethods allSymbols cls)

/-- For what a class and its ancestors declare abstract, the signatures in the class itself tell what is implemented;
in the immediate tier they are all there. -/
structure OwnSignaturesTell (tier : ValidationTier) (cls : ApexSymbol) : Prop where
  own : ∀ m ∈ abstractMethodsIn allSymbols cls, ownSignature allSymbols cls m = true
  inherited : ∀ below a, below.head? = some cls →
    (below ++ [a]).IsChain (fun c p => findParentClassInSameFile allSymbols c = some p) → ∀ m ∈ abstractMethodsIn allSymbols a,
    ownSignature allSymbols cls m = implementedAmong allSymbols below m ∧
      (tier = .immediate → ownSignature allSymbols cls m = true)

def gathered (tier : ValidationTier) : List ApexSymbol → List ApexSymbol
  | [] => []
  | c :: above => (if tier = .immediate then (c :: above).flatMap (abstractMethodsIn allSymbols)
      else abstractMethodsIn allSymbols c) ++ gathered tier above

end

section

variable {allSymbols : List ApexSymbol} {parent : ApexSymbol → Option ApexSymbol}

omit [Runtime] in
theorem findMethodsInClass_eq (ends : endsWithin parent never n c = true) :
    findMethodsInClass parent allSymbols .immediate n c = some
      ((chainFrom parent n c).flatMap (methodsDirectlyIn allSymbols)) := by
  induction n generalizing c with
  | zero => cases ends
  | succ n ih =>
    rw [findMethodsInClass,chainFrom]
    cases found : parent c with
    | none => simp
    | some p => simp [ih (endsWithin_onward ends ⟨rfl,found⟩)]

omit [Runtime] in
theorem getAllAbstractMethods_eq (ends : endsWithin parent never m c = true) (more : m < n) :
    getAllAbstractMethods parent allSymbols tier n c = some (gathered allSymbols tier (chainFrom parent m c)) := by
  induction m generalizing n c with
  | zero => cases ends
  | succ m ih =>
    obtain ⟨n,rfl⟩ := Nat.exists_eq_add_of_le' (Nat.le_trans (Nat.le_add_left 1 _) more)
    have onward (p) (found : parent c = some p) : endsWithin parent never m p = true := endsWithin_onward ends ⟨rfl,found⟩
    have here : (findMethodsInClass parent allSymbols tier n c).map (List.filter (·.modifiers.isAbstract)) =
        some (if tier = .immediate then (chainFrom parent (m + 1) c).flatMap (abstractMethodsIn allSymbols)
          else abstractMethodsIn allSymbols c) := by
      have enough : m + 1 ≤ n := by omega
      cases tier with
      | immediate =>
        rw [findMethodsInClass_eq (endsWithin_mono ends enough),chainFrom_stable (fun _ => rfl) ends enough,Option.map_some,
          List.filter_flatMap]
        rfl
      | thorough =>
        obtain ⟨n,rfl⟩ := Nat.exists_eq_add_of_le' (Nat.le_trans (Nat.le_add_left 1 m) enough)
        rw [findMethodsInClass_thorough]
        rfl
    obtain ⟨methods,got,same⟩ := Option.map_eq_some_iff.mp here
    simp only [getAllAbstractMethods,got,Option.bind_some,same]
    rw [chainFrom,gathered]
    cases found : parent c with
    | none => simp [gathered]
    | some p =>
      have rest := ih (onward p found) (show m < n by omega)
      simp [rest]

end

section

variable {allSymbols : List ApexSymbol}

theorem mem_missingAlong {below above : List ApexSymbol} {m : ApexSymbol} :
    m ∈ missingAlong allSymbols below above ↔ ∃ between a rest, above = between ++ a :: rest ∧
      m ∈ abstractMethodsIn allSymbols a ∧ implementedAmong allSymbols (below ++ between) m = false := by
  induction above generalizing below with
  | nil => simp [missingAlong]
  | cons b above ih =>
    simp only [missingAlong,List.mem_append,List.mem_filter,Bool.not_eq_true',ih]
    constructor
    · rintro (⟨declared,missing⟩ | ⟨between,a,rest,rfl,declared,missing⟩)
      · exact ⟨[],b,above,rfl,declared,by simpa using missing⟩
      · exact ⟨b :: between,a,rest,rfl,declared,by simpa using missing⟩
    · rintro ⟨between,a,rest,same,declared,missing⟩
      cases between with
      | nil =>
        obtain ⟨rfl,rfl⟩ := List.cons.inj same
        exact .inl ⟨declared,by simpa using missing⟩
      | cons c between =>
        obtain ⟨rfl,rfl⟩ := List.cons.inj same
        exact .inr ⟨between,a,rest,rfl,declared,by simpa using missing⟩

theorem chain_iff (ends : endsWithin (findParentClassInSameFile allSymbols) never (frames allSymbols) cls = true)
    {below : List ApexSymbol} {a : ApexSymbol} :
    (below.head? = some cls ∧ (below ++ [a]).IsChain (fun c p => findParentClassInSameFile allSymbols c = some p)) ↔
      ∃ between rest, below = cls :: between ∧ (lineage allSymbols cls).tail = between ++ a :: rest := by
  constructor
  · rintro ⟨head,linked⟩
    cases below with
    | nil => cases head
    | cons c between =>
      obtain rfl := Option.some.inj head
      obtain ⟨rest,whole⟩ := prefix_chainFrom (fun _ => rfl) ends linked
      refine ⟨between,rest,rfl,?_⟩
      rw [lineage,← whole]
      simp
  · rintro ⟨between,rest,rfl,tail⟩
    refine ⟨rfl,?_⟩
    have whole : lineage allSymbols cls = (cls :: between ++ [a]) ++ rest := by
      have split : lineage allSymbols cls = cls :: (lineage allSymbols cls).tail := rfl
      rw [split,tail]
      simp
    have linked := chainFrom_isChain (findParentClassInSameFile allSymbols) (frames allSymbols) cls
    rw [← lineage,whole] at linked
    exact linked.left_of_append

theorem mem_missingMethods (ends : endsWithin (findParentClassInSameFile allSymbols) never (frames allSymbols) cls = true)
    (m : ApexSymbol) : m ∈ missingMethods allSymbols cls ↔ Missing allSymbols cls m := by
  rw [missingMethods,mem_missingAlong]
  constructor
  · rintro ⟨between,a,rest,tail,declared,missing⟩
    obtain ⟨head,linked⟩ := (chain_iff ends).mpr ⟨between,rest,rfl,tail⟩
    exact ⟨cls :: between,a,head,linked,declared,missing⟩
  · rintro ⟨below,a,head,linked,declared,missing⟩
    obtain ⟨between,rest,rfl,tail⟩ := (chain_iff ends).mp ⟨head,linked⟩
    exact ⟨between,a,rest,tail,declared,missing⟩

theorem missingAlong_sublist (allSymbols below above : List ApexSymbol) :
    (missingAlong allSymbols below above).Sublist (above.flatMap (abstractMethodsIn allSymbols)) := by
  induction above generalizing below with
  | nil => exact List.Sublist.slnil
  | cons a above ih =>
    rw [missingAlong,List.flatMap_cons]
    exact List.filter_sublist.append (ih _)

theorem missing_of_count_eq [DecidableEq ApexSymbol] {below above : List ApexSymbol}
    (same : (missingAlong allSymbols below above).count m = (above.flatMap (abstractMethodsIn allSymbols)).count m) :
    ∀ between a rest, above = between ++ a :: rest → m ∈ abstractMethodsIn allSymbols a →
      implementedAmong allSymbols (below ++ between) m = false := by
  induction above generalizing below with
  | nil =>
    intro between a rest split
    cases between <;> cases split
  | cons b above ih =>
    intro between a rest split declared
    have here : ((abstractMethodsIn allSymbols b).filter (!implementedAmong allSymbols below ·)).count m ≤
        (abstractMethodsIn allSymbols b).count m := List.filter_sublist.count_le m
    have there := (missingAlong_sublist allSymbols (below ++ [b]) above).count_le m
    rw [missingAlong,List.flatMap_cons,List.count_append,List.count_append] at same
    cases between with
    | nil =>
      obtain ⟨rfl,rfl⟩ := List.cons.inj split
      have positive := List.count_pos_iff.mpr declared
      have kept : m ∈ (abstractMethodsIn allSymbols b).filter (!implementedAmong allSymbols below ·) :=
        List.count_pos_iff.mp (by omega)
      simpa using (List.mem_filter.mp kept).2
    | cons c between =>
      obtain ⟨rfl,rfl⟩ := List.cons.inj split
      simp only [List.append_eq] at same there
      have rest_ : (missingAlong allSymbols (below ++ [b]) (between ++ a :: rest)).count m =
          ((between ++ a :: rest).flatMap (abstractMethodsIn allSymbols)).count m := by omega
      have missing := ih rest_ between a rest rfl declared
      simpa using missing

omit [Runtime] in
theorem flatMap_sublist_gathered (allSymbols : List ApexSymbol) (tier : ValidationTier) (classes : List ApexSymbol) :
    (classes.flatMap (abstractMethodsIn allSymbols)).Sublist (gathered allSymbols tier classes) := by
  induction classes with
  | nil => exact List.Sublist.slnil
  | cons c above ih =>
    rw [gathered]
    split
    · exact List.sublist_append_left _ _
    · rw [List.flatMap_cons]
      exact (List.Sublist.refl _).append ih

omit [Runtime] in
theorem mem_gathered {tier : ValidationTier} {classes : List ApexSymbol} (member : m ∈ gathered allSymbols tier classes) :
    ∃ c ∈ classes, m ∈ abstractMethodsIn allSymbols c := by
  induction classes with
  | nil => cases member
  | cons c above ih =>
    rcases List.mem_append.mp member with here | further
    · split at here
      · exact List.mem_flatMap.mp here
      · exact ⟨c,List.mem_cons_self,here⟩
    · obtain ⟨d,inside,declared⟩ := ih further
      exact ⟨d,List.mem_cons_of_mem c inside,declared⟩

omit [Runtime] in
theorem gathered_twice [DecidableEq ApexSymbol] (allSymbols : List ApexSymbol) (cls : ApexSymbol)
    (above : List ApexSymbol) (m : ApexSymbol) :
    2 * (above.flatMap (abstractMethodsIn allSymbols)).count m ≤ (gathered allSymbols .immediate (cls :: above)).count m := by
  have again := (flatMap_sublist_gathered allSymbols .immediate above).count_le m
  rw [gathered,if_pos rfl,List.flatMap_cons,List.count_append,List.count_append]
  omega

omit [Runtime] in
theorem gathered_thorough (classes : List ApexSymbol) :
    gathered allSymbols .thorough classes = classes.flatMap (abstractMethodsIn allSymbols) := by
  induction classes with
  | nil => rfl
  | cons c above ih =>
    rw [gathered,ih,List.flatMap_cons]
    rfl

theorem missingAlong_eq_filter (own : ApexSymbol → Bool) {below above : List ApexSymbol}
    (tells : ∀ between a rest, above = between ++ a :: rest →
      ∀ m ∈ abstractMethodsIn allSymbols a, own m = implementedAmong allSymbols (below ++ between) m) :
    missingAlong allSymbols below above = (above.flatMap (abstractMethodsIn allSymbols)).filter (!own ·) := by
  induction above generalizing below with
  | nil => rfl
  | cons a above ih =>
    rw [missingAlong,List.flatMap_cons,List.filter_append]
    congr 1
    · refine List.filter_congr fun m declared => ?_
      have told := tells [] a above rfl m declared
      rw [List.append_nil] at told
      rw [told]
    · apply ih
      intro between b rest split m declared
      rw [tells (a :: between) b rest (by rw [split,List.cons_append]) m declared]
      simp

theorem filter_perm_iff (allSymbols : List ApexSymbol) (tier : ValidationTier) (cls : ApexSymbol)
    (above : List ApexSymbol) (own : ApexSymbol → Bool) :
    ((gathered allSymbols tier (cls :: above)).filter (!own ·)).Perm (missingAlong allSymbols [cls] above) ↔
      (∀ m ∈ abstractMethodsIn allSymbols cls, own m = true) ∧ ∀ between a rest, above = between ++ a :: rest →
        ∀ m ∈ abstractMethodsIn allSymbols a, own m = implementedAmong allSymbols (cls :: between) m ∧
          (tier = .immediate → own m = true) := by
  classical
  constructor
  · intro perm
    have counts (m) : ((gathered allSymbols tier (cls :: above)).filter (!own ·)).count m =
        (missingAlong allSymbols [cls] above).count m := perm.count_eq m
    have unowned (m) (lacks : own m = false) : (gathered allSymbols tier (cls :: above)).count m =
        (missingAlong allSymbols [cls] above).count m := by
      rw [← counts m,List.count_filter (by simp [lacks])]
    have fewer (m) := (missingAlong_sublist allSymbols [cls] above).count_le m
    have all (m) := (flatMap_sublist_gathered allSymbols tier (cls :: above)).count_le m
    simp only [List.flatMap_cons,List.count_append] at all
    refine ⟨fun m declared => ?_,fun between a rest split m declared => ?_⟩
    · by_contra lacks
      have positive := List.count_pos_iff.mpr declared
      have := unowned m (Bool.eq_false_of_not_eq_true lacks)
      have := fewer m
      have := all m
      omega
    · have positive : 0 < (above.flatMap (abstractMethodsIn allSymbols)).count m := by
        refine List.count_pos_iff.mpr (List.mem_flatMap.mpr ⟨a,?_,declared⟩)
        simp [split]
      cases owned : own m with
      | true =>
        refine ⟨?_,fun _ => rfl⟩
        by_contra missing
        have inMissing : m ∈ missingAlong allSymbols [cls] above :=
          mem_missingAlong.mpr ⟨between,a,rest,split,declared,Bool.eq_false_of_not_eq_true fun h => missing h.symm⟩
        have inFound := perm.mem_iff.mpr inMissing
        simp [owned] at inFound
      | false =>
        have equal := unowned m owned
        have few := fewer m
        have many := all m
        cases tier with
        | immediate =>
          have twice := gathered_twice allSymbols cls above m
          omega
        | thorough =>
          have same : (missingAlong allSymbols [cls] above).count m = (above.flatMap (abstractMethodsIn allSymbols)).count m := by
            omega
          have nothing := missing_of_count_eq same between a rest split declared
          exact ⟨nothing.symm,fun immediate => nomatch immediate⟩
  · rintro ⟨declaredHere,inherited⟩
    have here : (abstractMethodsIn allSymbols cls).filter (!own ·) = [] :=
      List.filter_eq_nil_iff.mpr fun m declared => by simp [declaredHere m declared]
    rw [missingAlong_eq_filter own fun between a rest split m declared => (inherited between a rest split m declared).1]
    cases tier with
    | thorough => rw [gathered_thorough,List.flatMap_cons,List.filter_append,here,List.nil_append]
    | immediate =>
      have above_ (m) (a) (inside : a ∈ above) (declared : m ∈ abstractMethodsIn allSymbols a) : own m = true := by
        obtain ⟨between,rest,split⟩ := List.append_of_mem inside
        exact (inherited between a rest split m declared).2 rfl
      have gatheredNone : (gathered allSymbols .immediate (cls :: above)).filter (!own ·) = [] := by
        refine List.filter_eq_nil_iff.mpr fun m member => ?_
        obtain ⟨c,inside,declared⟩ := mem_gathered member
        rcases List.mem_cons.mp inside with rfl | inside
        · simp [declaredHere m declared]
        · simp [above_ m c inside declared]
      have missingNone : (above.flatMap (abstractMethodsIn allSymbols)).filter (!own ·) = [] := by
        refine List.filter_eq_nil_iff.mpr fun m member => ?_
        obtain ⟨a,inside,declared⟩ := List.mem_flatMap.mp member
        simp [above_ m a inside declared]
      rw [gatheredNone,missingNone]

/-- For a class whose superclasses come to an end, the missing methods are reported exactly where its own
signatures tell what is implemented. -/
theorem reportedExactly_iff (allSymbols : List ApexSymbol) (tier : ValidationTier) (cls : ApexSymbol) (member : cls ∈ allSymbols)
    (concrete : cls.modifiers.isAbstract = false) (acyclic : ¬ Loops (findParentClassInSameFile allSymbols) never cls) :
    ReportedExactly allSymbols tier cls ↔ OwnSignaturesTell allSymbols tier cls := by
  have closed : ∀ a b, findParentClassInSameFile allSymbols a = some b → b ∈ allSymbols := fun _ _ => parent_mem
  have ends := (endsWithin_iff closed member (Nat.le_succ _)).mpr acyclic
  have endsFrames : endsWithin (findParentClassInSameFile allSymbols) never (frames allSymbols) cls = true :=
    endsWithin_mono ends (Nat.le_succ _)
  let found := (gathered allSymbols tier (lineage allSymbols cls)).filter (!ownSignature allSymbols cls ·)
  have reports : unimplementedMethods allSymbols tier cls = some found := by
    have all : getAllAbstractMethods (findParentClassInSameFile allSymbols) allSymbols tier (frames allSymbols) cls =
        some (gathered allSymbols tier (lineage allSymbols cls)) := by
      rw [lineage,chainFrom_stable (fun _ => rfl) ends (show _ ≤ frames allSymbols from Nat.le_succ _)]
      exact getAllAbstractMethods_eq ends (Nat.lt_succ_self _)
    simp [unimplementedMethods,concrete,all,found]
  have split : lineage allSymbols cls = cls :: (lineage allSymbols cls).tail := rfl
  have exact_ : ReportedExactly allSymbols tier cls ↔ found.Perm (missingMethods allSymbols cls) := by
    constructor
    · rintro ⟨other,same,_,perm⟩
      rw [reports] at same
      obtain rfl := Option.some.inj same
      exact perm
    · intro perm
      exact ⟨found,reports,fun m => perm.mem_iff.trans (mem_missingMethods endsFrames m),perm⟩
  have perm_iff := filter_perm_iff allSymbols tier cls (lineage allSymbols cls).tail (ownSignature allSymbols cls)
  refine (exact_.trans perm_iff).trans ?_
  constructor
  · rintro ⟨own,inherited⟩
    refine ⟨own,fun below a head linked m declared => ?_⟩
    obtain ⟨between,rest,rfl,tail⟩ := (chain_iff endsFrames).mp ⟨head,linked⟩
    exact inherited between a rest tail m declared
  · rintro ⟨own,inherited⟩
    refine ⟨own,fun between a rest tail m declared => ?_⟩
    obtain ⟨head,linked⟩ := (chain_iff endsFrames).mpr ⟨between,rest,rfl,tail⟩
    exact inherited _ a head linked m declared

end

def classNamed (name : String) (superClass : Option String) (isAbstract : Bool) : ApexSymbol :=
  { id := name,name := name,kind := .class_,location := ⟨⟨1,0,1,0⟩,⟨1,0,1,0⟩⟩,fileUri := "file:///Outer.cls"
    superClass := superClass,modifiers := { isAbstract := isAbstract } }

def blockOf (cls : String) : ApexSymbol :=
  { id := cls ++ ":block",name := "block",kind := .block,location := ⟨⟨1,0,1,0⟩,⟨1,0,1,0⟩⟩,fileUri := "file:///Outer.cls"
    parentId := .of cls,scopeType := some .class_ }

def runIn (cls : String) (isAbstract : Bool) : ApexSymbol :=
  { id := cls ++ ":run",name := "run",kind := .method,location := ⟨⟨1,0,1,0⟩,⟨1,0,1,0⟩⟩,fileUri := "file:///Outer.cls"
    parentId := .of (cls ++ ":block"),modifiers := { isAbstract := isAbstract } }

def middle : ApexSymbol := classNamed "Middle" (some "Base") false

def last : ApexSymbol := classNamed "Last" (some "Middle") false

/-- `Base` declares a method that `Middle` implements; `Last` extends `Middle`. -/
def threeClasses : List ApexSymbol :=
  [classNamed "Base" none true,blockOf "Base",runIn "Base" true,middle,blockOf "Middle",runIn "Middle" false,last,blockOf "Last"]

omit [Runtime] in
/-- Nothing is reported for the class that implements the method. -/
theorem middle_reportedExactly : @ReportedExactly asciiRuntime threeClasses .immediate middle := by
  let _ := asciiRuntime
  have ends : endsWithin (findParentClassInSameFile threeClasses) never (frames threeClasses) middle = true := by decide +kernel
  have short : (lineage threeClasses middle).tail.length = 1 := by decide +kernel
  have told : (lineage threeClasses middle).tail.all (fun a => (abstractMethodsIn threeClasses a).all fun m =>
      ownSignature threeClasses middle m && implementedAmong threeClasses [middle] m) = true := by decide +kernel
  have nothing : (abstractMethodsIn threeClasses middle).length = 0 := by decide +kernel
  refine (reportedExactly_iff threeClasses .immediate middle (by simp [threeClasses]) rfl
    (not_loops_of_endsWithin ends)).mpr ⟨?_,?_⟩
  · rw [List.eq_nil_of_length_eq_zero nothing]
    simp
  · intro below a head linked m declared
    obtain ⟨between,rest,rfl,tail⟩ := (chain_iff ends).mp ⟨head,linked⟩
    rw [tail,List.length_append,List.length_cons] at short
    obtain rfl : between = [] := List.eq_nil_of_length_eq_zero (by omega)
    rw [tail,List.nil_append,List.all_cons,Bool.and_eq_true,List.all_eq_true] at told
    obtain ⟨own,implemented⟩ := Bool.and_eq_true_iff.mp (told.1 m declared)
    exact ⟨own.trans implemented.symm,fun _ => own⟩

omit [Runtime] in
/-- A method that an intermediate class implements is reported for the class below it. -/
theorem intermediate_implementation_ignored :
    ¬ ∀ (allSymbols : List ApexSymbol) (tier : ValidationTier) (cls : ApexSymbol), cls ∈ allSymbols →
      cls.modifiers.isAbstract = false →
      ¬ Loops (@findParentClassInSameFile asciiRuntime allSymbols) never cls →
        @ReportedExactly asciiRuntime allSymbols tier cls := by
  intro always
  let _ := asciiRuntime
  have ends : endsWithin (findParentClassInSameFile threeClasses) never (frames threeClasses) last = true := by decide +kernel
  obtain ⟨found,reports,_,perm⟩ := always threeClasses .immediate last (by simp [threeClasses]) rfl
    (not_loops_of_endsWithin ends)
  have count : (unimplementedMethods threeClasses .immediate last).map List.length = some 3 := by decide +kernel
  have nothing : (missingMethods threeClasses last).length = 0 := by decide +kernel
  rw [reports,Option.map_some,perm.length_eq,nothing] at count
  cases count

end ApexLs.Validation.AbstractMethodImplementationValidator
