import ApexLs.Collections.Chains
import ApexLs.Resolution.PreferredTypes

/-! Type names of several parts. The table of the file is searched for the name and for every shorter
end of it, before any other file is asked for the name. -/
namespace ApexLs.Resolution

open ApexLs.Utils ApexLs.Types ApexLs.Collections

/-- The loaded files, and the keywords among names, which are not looked up. -/
structure Workspace where
  loaded : List ApexSymbol
  withheld : String → Bool

/-- A lookup of a type: the files, the name as it is written, and the file that it is written in. -/
structure TypeLookup where
  workspace : Workspace
  rawTypeName : String
  fileUri : Option String
  symbolTable : Option FileTable

section

variable [Runtime]

namespace Workspace

def findSymbolByName (w : Workspace) (name : String) : List ApexSymbol :=
  if w.withheld name then [] else w.loaded.filter fun s => sameName s.name name

def manager (w : Workspace) : SymbolManagerOps Unit where
  findSymbolByName name := pure (w.findSymbolByName name)

end Workspace

namespace TypeLookup

variable (q : TypeLookup)

def resolve : Option ApexSymbol :=
  (resolvePreferredTypeSymbolForLookup q.workspace.manager q.rawTypeName q.fileUri q.symbolTable).run () |>.1

def candidates : List String := buildTypeLookupCandidates q.rawTypeName

def normalizedUri : Option String := (given q.fileUri).map fun uri => extractFilePathFromUri (createFileUri uri)

def localTypeSymbols : List ApexSymbol := (q.symbolTable.elim [] FileTable.getAllSymbols).filter ApexSymbol.inTypeSymbolGroup

def typeCandidates (candidate : String) : List ApexSymbol :=
  (q.workspace.findSymbolByName candidate).filter ApexSymbol.inTypeSymbolGroup

def typeName : String := trim (normalizeTypeNameForLookup q.rawTypeName)

def symbols : List ApexSymbol := q.symbolTable.elim [] FileTable.getAllSymbols ++ q.workspace.loaded

def parent (s : ApexSymbol) : Option ApexSymbol :=
  match s.parentId with
  | .of id => q.symbols.find? fun p => p.id = id
  | _ => none

def EnclosedBy (s p : ApexSymbol) : Prop :=
  ∃ first, q.parent s = some first ∧ Relation.ReflTransGen (Onward q.parent ApexSymbol.inTypeSymbolGroup) first p ∧
    p.inTypeSymbolGroup = true

/-- A loaded type whose fully qualified name, or name after that of the type around it, is the name looked up. -/
structure Named (s : ApexSymbol) : Prop where
  listed : s ∈ q.symbols
  type : s.inTypeSymbolGroup = true
  named : (∃ fqn, s.fqn = some fqn ∧ fqn ≠ "" ∧ sameName fqn q.typeName = true) ∨
    ∃ p, q.EnclosedBy s p ∧ sameName (p.name ++ "." ++ s.name) q.typeName = true

def InCurrentFile (s : ApexSymbol) : Prop := s ∈ q.localTypeSymbols ∨ q.normalizedUri = some s.fileUri

/-- Where a type is named so, such a type is returned, one of the current file if there is one. -/
def FindsNamed : Prop :=
  (∃ s, q.Named s) → ∃ s, q.resolve = some s ∧ q.Named s ∧ ((∃ e, q.Named e ∧ q.InCurrentFile e) → q.InCurrentFile s)

def Unmatched (candidate : String) : Prop := ∀ s ∈ q.localTypeSymbols, matchesCandidate q.localTypeSymbols candidate s = false

/-- The first type of the table that matches the longest candidate that one matches. -/
def MatchedFirst (s : ApexSymbol) : Prop :=
  ∃ longer candidate shorter before after, q.candidates = longer ++ candidate :: shorter ∧ (∀ c ∈ longer, q.Unmatched c) ∧
    q.localTypeSymbols = before ++ s :: after ∧ matchesCandidate q.localTypeSymbols candidate s = true ∧
    ∀ s' ∈ before, matchesCandidate q.localTypeSymbols candidate s' = false

/-- The first type with the longest candidate for its simple name: one of the current file, or where there is none any. -/
def OfferedFirst (s : ApexSymbol) : Prop :=
  ∃ longer candidate shorter, q.candidates = longer ++ candidate :: shorter ∧ (∀ c ∈ longer, q.typeCandidates c = []) ∧
    ∃ before after, q.typeCandidates candidate = before ++ s :: after ∧
      (q.normalizedUri = some s.fileUri ∧ (∀ s' ∈ before, q.normalizedUri ≠ some s'.fileUri) ∨
        before = [] ∧ ∀ s' ∈ q.typeCandidates candidate, q.normalizedUri ≠ some s'.fileUri)

/-- A type so named is the first of the table to match, or none of the table matches and it is the first
offered by its simple name, and of the current file if one is. -/
def Uncaptured : Prop :=
  (∃ s, q.Named s) → ∃ s, q.Named s ∧ (q.MatchedFirst s ∨
    (∀ c ∈ q.candidates, q.Unmatched c) ∧ q.OfferedFirst s ∧ ((∃ e, q.Named e ∧ q.InCurrentFile e) → q.InCurrentFile s))

def offered (candidate : String) : Option ApexSymbol :=
  ((q.typeCandidates candidate).find? fun s => q.normalizedUri = some s.fileUri).or (q.typeCandidates candidate).head?

theorem findTypeByName_run (candidates : List String) :
    ((findTypeByName q.workspace.manager q.normalizedUri candidates).run ()).1 = candidates.findSome? q.offered := by
  induction candidates with
  | nil => rfl
  | cons candidate rest ih =>
    have names : (q.workspace.manager.findSymbolByName candidate).run () = pure (q.workspace.findSymbolByName candidate,()) :=
      rfl
    rw [List.findSome?_cons,← ih,findTypeByName,StateT.run_bind,names,pure_bind]
    cases answered : q.offered candidate with
    | none =>
      dsimp only [offered,typeCandidates] at answered ⊢
      rw [answered]
    | some s =>
      dsimp only [offered,typeCandidates] at answered ⊢
      rw [answered]
      rfl

theorem resolve_eq : q.resolve =
    (q.candidates.findSome? fun c => q.localTypeSymbols.find? (matchesCandidate q.localTypeSymbols c)).or
      (q.candidates.findSome? q.offered) := by
  rw [← findTypeByName_run]
  unfold resolve resolvePreferredTypeSymbolForLookup candidates localTypeSymbols normalizedUri
  dsimp only
  split
  next s found =>
    rw [found]
    rfl
  next found =>
    rw [found]
    rfl

variable {q}

theorem find?_eq_none_iff_unmatched :
    q.localTypeSymbols.find? (matchesCandidate q.localTypeSymbols c) = none ↔ q.Unmatched c := by
  rw [List.find?_eq_none]
  exact forall_congr' fun s => forall_congr' fun _ => by rw [Bool.not_eq_true]

theorem matchedFirst_iff : q.MatchedFirst s ↔
    q.candidates.findSome? (fun c => q.localTypeSymbols.find? (matchesCandidate q.localTypeSymbols c)) = some s := by
  rw [List.findSome?_eq_some_iff]
  simp only [List.find?_eq_some_iff_append,find?_eq_none_iff_unmatched,Bool.not_eq_true']
  constructor
  · rintro ⟨longer,candidate,shorter,before,after,cut,unmatched,cut',matches_,first⟩
    exact ⟨longer,candidate,shorter,cut,⟨matches_,before,after,cut',first⟩,unmatched⟩
  · rintro ⟨longer,candidate,shorter,cut,⟨matches_,before,after,cut',first⟩,unmatched⟩
    exact ⟨longer,candidate,shorter,before,after,cut,unmatched,cut',matches_,first⟩

theorem offered_eq_none_iff : q.offered c = none ↔ q.typeCandidates c = [] := by
  rw [offered,Option.or_eq_none_iff,List.head?_eq_none_iff]
  exact and_iff_right_of_imp fun none => by rw [none]; rfl

theorem offered_eq_some_iff : q.offered c = some s ↔ ∃ before after, q.typeCandidates c = before ++ s :: after ∧
    (q.normalizedUri = some s.fileUri ∧ (∀ s' ∈ before, q.normalizedUri ≠ some s'.fileUri) ∨
      before = [] ∧ ∀ s' ∈ q.typeCandidates c, q.normalizedUri ≠ some s'.fileUri) := by
  rw [offered,Option.or_eq_some_iff,List.find?_eq_some_iff_append,List.find?_eq_none,List.head?_eq_some_iff]
  simp only [decide_eq_true_eq,Bool.not_eq_true',decide_eq_false_iff_not]
  constructor
  · rintro (⟨here,before,after,cut,first⟩ | ⟨none_,after,cut⟩)
    · exact ⟨before,after,cut,.inl ⟨here,first⟩⟩
    · exact ⟨[],after,cut,.inr ⟨rfl,none_⟩⟩
  · rintro ⟨before,after,cut,⟨here,first⟩ | ⟨rfl,none_⟩⟩
    · exact .inl ⟨here,before,after,cut,first⟩
    · exact .inr ⟨none_,after,cut⟩

theorem offeredFirst_iff : q.OfferedFirst s ↔ q.candidates.findSome? q.offered = some s := by
  rw [List.findSome?_eq_some_iff]
  simp only [offered_eq_some_iff,offered_eq_none_iff]
  exact exists_congr fun longer => exists_congr fun candidate => exists_congr fun shorter =>
    and_congr_right fun _ => and_comm

theorem resolve_eq_some_iff : q.resolve = some s ↔
    q.MatchedFirst s ∨ (∀ c ∈ q.candidates, q.Unmatched c) ∧ q.OfferedFirst s := by
  rw [resolve_eq,Option.or_eq_some_iff,← matchedFirst_iff,← offeredFirst_iff,List.findSome?_eq_none_iff]
  refine or_congr_right (and_congr_left fun _ => forall_congr' fun c => forall_congr' fun _ => find?_eq_none_iff_unmatched)

theorem MatchedFirst.inCurrentFile (first : q.MatchedFirst s) : q.InCurrentFile s := by
  obtain ⟨_,_,_,before,after,_,_,cut,_⟩ := first
  exact .inl (cut ▸ List.mem_append_right before List.mem_cons_self)

/-- A qualified name is resolved to a type so named if and only if no shorter match captures it. -/
theorem findsNamed_iff (q : TypeLookup) : q.FindsNamed ↔ q.Uncaptured := by
  refine forall_congr' fun _ => exists_congr fun s => ?_
  rw [resolve_eq_some_iff]
  constructor
  · rintro ⟨matched | ⟨unmatched,offered⟩,named,prefers⟩
    · exact ⟨named,.inl matched⟩
    · exact ⟨named,.inr ⟨unmatched,offered,prefers⟩⟩
  · rintro ⟨named,matched | ⟨unmatched,offered,prefers⟩⟩
    · exact ⟨.inl matched,named,fun _ => matched.inCurrentFile⟩
    · exact ⟨.inr ⟨unmatched,offered⟩,named,prefers⟩

end TypeLookup

end

def topLevelClass (name fqn : String) : ApexSymbol :=
  { id := name,name := name,kind := .class_,location := ⟨⟨1,0,9,1⟩,⟨1,13,1,18⟩⟩,fileUri := "file:///" ++ name ++ ".cls"
    fqn := some fqn }

/-- The class `Inner` of `class Outer { class Inner {} }` -/
def innerClass : ApexSymbol :=
  { id := "Outer.Inner",name := "Inner",kind := .class_,location := ⟨⟨2,2,4,3⟩,⟨2,8,2,13⟩⟩,fileUri := "file:///Outer.cls"
    parentId := .of "Outer:block",fqn := some "outer.inner" }

/-- `Outer.Inner`, written in the file of another class `Inner` -/
def qualifiedUse : TypeLookup where
  workspace := ⟨[topLevelClass "Outer" "outer",innerClass,topLevelClass "Inner" "inner"],fun _ => false⟩
  rawTypeName := "Outer.Inner"
  fileUri := some "file:///Inner.cls"
  symbolTable := some ⟨fun _ => topLevelClass "Inner" "inner",{ symbolArray := [.declared 0] }⟩

/-- The class of the file captures the name. -/
theorem qualified_name_captured : @TypeLookup.Named asciiRuntime qualifiedUse innerClass ∧
    @TypeLookup.resolve asciiRuntime qualifiedUse = some (topLevelClass "Inner" "inner") ∧
    ¬ @TypeLookup.FindsNamed asciiRuntime qualifiedUse := by
  let _ := asciiRuntime
  have named : qualifiedUse.Named innerClass :=
    ⟨by simp [TypeLookup.symbols,qualifiedUse],rfl,.inl ⟨"outer.inner",rfl,by decide,by decide +kernel⟩⟩
  have listed : qualifiedUse.localTypeSymbols = [topLevelClass "Inner" "inner"] := rfl
  have captured : qualifiedUse.resolve = some (topLevelClass "Inner" "inner") := by
    refine TypeLookup.resolve_eq_some_iff.mpr (.inl ⟨["Outer.Inner"],"Inner",[],[],[],by decide +kernel,?_,listed,?_,?_⟩)
    · intro c longer s member
      obtain rfl := List.mem_singleton.mp longer
      rw [listed] at member ⊢
      obtain rfl := List.mem_singleton.mp member
      decide +kernel
    · rw [listed]
      decide +kernel
    · exact fun _ none_ => absurd none_ List.not_mem_nil
  have other : ¬ qualifiedUse.Named (topLevelClass "Inner" "inner") := by
    rintro ⟨-,-,⟨fqn,given_,-,same⟩ | ⟨p,⟨first,up,-⟩,-⟩⟩
    · obtain rfl := Option.some.inj given_
      exact absurd same (by decide +kernel)
    · cases up
  refine ⟨named,captured,fun finds => ?_⟩
  obtain ⟨s,answer,named',-⟩ := finds ⟨innerClass,named⟩
  exact other (Option.some.inj (captured.symm.trans answer) ▸ named')

end ApexLs.Resolution
