import ApexLs.Collections.GuardedWalk
import ApexLs.Collections.RootedSearches
import ApexLs.Resolution.LoadedFiles
import ApexLs.Types.UriBasedIdGenerator
import ApexLs.Utils.AsciiBytes

/-! Methods of a class by their names: its own, those of its superclasses, and those of `Object`. -/
namespace ApexLs.Resolution.InheritedMembers

open ApexLs.Collections ApexLs.Types ApexLs.Utils

/-- The loaded files, and the classes of the standard library by the names that they are loaded by. -/
structure Workspace where
  files : LoadedFiles
  resolveStandardApexClass : String → Option ApexSymbol

def parentIdOf (s : ApexSymbol) : Option String :=
  match s.parentId with
  | .of id => if id = "" then none else some id
  | _ => none

section

variable [Runtime] (allSymbols : List ApexSymbol) (contextSymbol : ApexSymbol) (memberName : String)

/-- At an id that is sought the walk is over, at another one it goes to the parent. -/
def parentStep (sought : String → Bool) (currentParentId : String) : Option (Unit ⊕ String) :=
  if sought currentParentId then some (.inl ())
  else ((allSymbols.find? fun sym => sym.id = currentParentId).bind parentIdOf).map .inr

/-- The ids of the parents, and of their parents, lead to one that is sought. -/
def isBelow (sought : String → Bool) (s : ApexSymbol) : Bool :=
  (parentIdOf s).any fun parentId =>
    (guardedWalk id (parentStep allSymbols sought) (allSymbols.length + 2) [] parentId).isSome

omit [Runtime] in
theorem isBelow_iff {sought : String → Bool} {s : ApexSymbol} : isBelow allSymbols sought s = true ↔
    ∃ parentId n, parentIdOf s = some parentId ∧ AnswersIn (parentStep allSymbols sought) n parentId () := by
  have closed (currentParentId further : String) (onward : parentStep allSymbols sought currentParentId = some (.inr further)) :
      further ∈ allSymbols.filterMap parentIdOf := by
    rw [parentStep] at onward
    split at onward
    next => cases onward
    next =>
      obtain ⟨id,above,same⟩ := Option.map_eq_some_iff.mp onward
      obtain ⟨parent,found,held⟩ := Option.bind_eq_some_iff.mp above
      cases same
      exact List.mem_filterMap.mpr ⟨parent,List.mem_of_find?_eq_some found,held⟩
  have enough : (allSymbols.filterMap parentIdOf).length + 2 ≤ allSymbols.length + 2 :=
    Nat.add_le_add_right (List.length_filterMap_le _ _) 2
  have walk (parentId : String) : (guardedWalk id (parentStep allSymbols sought) (allSymbols.length + 2) [] parentId).isSome ↔
      ∃ n, AnswersIn (parentStep allSymbols sought) n parentId () := by
    rw [Option.isSome_iff_exists,← guardedWalk_eq_some_iff (fun _ _ same => congrArg _ same) closed enough]
    exact ⟨fun ⟨(),found⟩ => found,fun found => ⟨(),found⟩⟩
  rw [isBelow,Option.any_eq_true]
  constructor
  · rintro ⟨parentId,held,found⟩
    obtain ⟨n,answers⟩ := (walk parentId).mp found
    exact ⟨parentId,n,held,answers⟩
  · rintro ⟨parentId,n,held,answers⟩
    exact ⟨parentId,held,(walk parentId).mpr ⟨n,answers⟩⟩

def classSymbolInTable : Option ApexSymbol := allSymbols.find? fun s =>
  s.kind = .class_ && toLowerCase s.name = toLowerCase contextSymbol.name && s.fileUri = contextSymbol.fileUri

def classSymbolId : String := orElse ((classSymbolInTable allSymbols contextSymbol).map ApexSymbol.id) contextSymbol.id

def isClassId (parentId : ParentId) : Bool :=
  parentId = .of (classSymbolId allSymbols contextSymbol) || parentId = .of contextSymbol.id

def classBlock : Option ApexSymbol :=
  (allSymbols.find? fun s => isClassBlock s && isClassId allSymbols contextSymbol s.parentId).or
    (if (classSymbolInTable allSymbols contextSymbol).isSome then
      allSymbols.find? fun s => isClassBlock s && s.fileUri = contextSymbol.fileUri &&
        ((parentIdOf s).isNone || s.parentId = .of (classSymbolId allSymbols contextSymbol))
    else none)

/-- Without a block of the class: a method of that very spelling, in any class block of the file or below the class. -/
def isFallbackMember (s : ApexSymbol) : Bool :=
  !s.isBlockSymbol && s.fileUri = contextSymbol.fileUri && s.name = memberName && s.kind = .method &&
    (let directParent := allSymbols.find? fun sym => s.parentId = .of sym.id && sym.isBlockSymbol
    directParent.any (fun b => isClassBlock b && b.fileUri = contextSymbol.fileUri) ||
      isBelow allSymbols (fun id => isClassId allSymbols contextSymbol (.of id)) s)

def isClassMember (resolvedClassBlock s : ApexSymbol) : Bool :=
  let directScopeMembers := allSymbols.filter (childOf resolvedClassBlock)
  !s.isBlockSymbol && s.fileUri = contextSymbol.fileUri &&
    (childOf resolvedClassBlock s || directScopeMembers.any (fun ds => childOf ds s) ||
      isBelow allSymbols (fun id => id = resolvedClassBlock.id) s)

def isMatchingMember (resolvedClassBlock s : ApexSymbol) : Bool :=
  isClassMember allSymbols contextSymbol resolvedClassBlock s && toLowerCase s.name = toLowerCase memberName && s.kind = .method

def parentChainMatches (method : ApexSymbol) : Bool :=
  (allSymbols.find? fun s => childOf s method && s.isBlockSymbol).any fun methodParentBlock =>
    isClassId allSymbols contextSymbol methodParentBlock.parentId

/-- What the symbols of its file have for the class. Only the first match is looked at. -/
def ownMember : Option ApexSymbol :=
  match classBlock allSymbols contextSymbol with
  | none => allSymbols.find? (isFallbackMember allSymbols contextSymbol memberName)
  | some resolvedClassBlock =>
    (allSymbols.find? (isMatchingMember allSymbols contextSymbol memberName resolvedClassBlock)).filter
      (parentChainMatches allSymbols contextSymbol)

end

namespace Workspace

variable (w : Workspace)

/-- The table of the class's file, by its address or by the whole address. -/
def symbolTable (contextSymbol : ApexSymbol) : Option FileTable :=
  let contextFile := contextSymbol.fileUri
  if contextFile = "" then none
  else (w.files.getSymbolTableForFile contextFile).or
    (if createFileUri contextFile = contextFile then none else w.files.getSymbolTableForFile (createFileUri contextFile))

variable [Runtime]

def resolveSuperclassSymbol (typeSymbol : ApexSymbol) : Option ApexSymbol :=
  (typeSymbol.superClass.filter (· ≠ "")).bind fun superclassName =>
    ((w.files.findSymbolByName superclassName).find? fun s => s.kind = .class_).or
      ((w.resolveStandardApexClass superclassName).filter fun s => s.kind = .class_)

def resolveObjectClass : Option ApexSymbol :=
  let standard (uri : String) := includes uri.toList "StandardApexLibrary" || includes uri.toList "apexlib://" ||
    includes uri.toList "builtins"
  ((w.files.findSymbolByName "Object").find? fun s => s.kind = .class_ && standard s.fileUri).or
    ((["Object","System.Object","Schema.Object"].findSome? w.resolveStandardApexClass).filter fun s => s.kind = .class_)

/-- `resolveMemberInContext` for methods on a class, with so many calls within one another. -/
def resolveMemberInContext (memberName : String) : Nat → ApexSymbol → Option (Option ApexSymbol)
  | 0,_ => none
  | calls + 1,contextSymbol =>
    match w.symbolTable contextSymbol with
    | none => some none
    | some symbolTable =>
      match ownMember symbolTable.getAllSymbols contextSymbol memberName with
      | some method => some (some method)
      | none =>
        if contextSymbol.kind ≠ .class_ then some none
        else
          let superclassMember := match w.resolveSuperclassSymbol contextSymbol with
            | some superclassSymbol => resolveMemberInContext memberName calls superclassSymbol
            | none => some none
          superclassMember.bind fun found =>
            match found with
            | some member => some (some member)
            | none =>
              if toLowerCase contextSymbol.name ≠ "object" then
                match w.resolveObjectClass with
                | some objectClass => resolveMemberInContext memberName calls objectClass
                | none => some none
              else some none

end Workspace

/-- A method that is looked up on a class, the superclasses of the classes, and `Object`. -/
structure MemberLookup [Runtime] where
  workspace : Workspace
  contextSymbol : ApexSymbol
  memberName : String
  isClass : contextSymbol.kind = .class_
  superclass : ApexSymbol → Option ApexSymbol
  object : Option ApexSymbol
  extends_ : ∀ c superClass, superclass c = some superClass → superClass.kind = .class_ ∧
    ∃ text, c.superClass = some text ∧ toLowerCase superClass.name = toLowerCase (lastSegment text)
  isObject : ∀ o, object = some o → o.kind = .class_ ∧ toLowerCase o.name = toLowerCase "Object"
  loaded : ∀ s, (∃ c, superclass c = some s) ∨ object = some s → s ∈ workspace.files.symbols ∨
    ∃ name, workspace.resolveStandardApexClass name = some s

section

variable [Runtime]

namespace Workspace

variable (w : Workspace) (memberName : String)

def own (c : ApexSymbol) : Option ApexSymbol :=
  (w.symbolTable c).bind fun symbolTable => ownMember symbolTable.getAllSymbols c memberName

/-- The class that the search goes on to: from a class in a loaded file, that which its text is taken for. -/
def next (c : ApexSymbol) : Option ApexSymbol :=
  if (w.symbolTable c).isSome ∧ c.kind = .class_ then w.resolveSuperclassSymbol c else none

/-- Where nothing is found above it, a class in a loaded file asks `Object`, unless that is its own name. -/
def asks (c : ApexSymbol) : Bool := (w.symbolTable c).isSome && c.kind = .class_ && toLowerCase c.name ≠ "object"

theorem resolveMemberInContext_eq (calls : Nat) (c : ApexSymbol) : w.resolveMemberInContext memberName calls c =
    rootedSearch (w.own memberName) w.next w.asks w.resolveObjectClass calls c := by
  induction calls generalizing c with
  | zero => rfl
  | succ calls ih =>
    have elims (start : Option ApexSymbol) : start.elim (some none) (rootedSearch (w.own memberName) w.next w.asks
        w.resolveObjectClass calls) = start.elim (some none) (w.resolveMemberInContext memberName calls) := by
      cases start with
      | none => rfl
      | some c => exact (ih c).symm
    rw [resolveMemberInContext,rootedSearch,own,next,asks,elims,elims]
    cases w.symbolTable c with
    | none => rfl
    | some symbolTable =>
      dsimp only [Option.bind_some,Option.isSome_some]
      cases ownMember symbolTable.getAllSymbols c memberName with
      | some method => rfl
      | none =>
        dsimp only
        by_cases kind : c.kind = .class_
        · rw [if_neg (not_not_intro kind)]
          refine congrArg₂ Option.bind ?_ (funext fun found => ?_)
          · cases w.resolveSuperclassSymbol c <;> simp [kind]
          · cases found with
            | some member => rfl
            | none =>
              by_cases named : toLowerCase c.name = "object"
              · simp [named]
              · cases w.resolveObjectClass <;> simp [kind,named]
        · simp [kind]

end Workspace

namespace MemberLookup

variable (q : MemberLookup)

def Returns (answer : Option ApexSymbol) : Prop :=
  ∃ calls, q.workspace.resolveMemberInContext q.memberName calls q.contextSymbol = some answer

/-- The class's own block declares a method of the name: no block of an inner class, of a method or of another class does. -/
def Declares (c method : ApexSymbol) : Prop :=
  ∃ symbolTable, q.workspace.symbolTable c = some symbolTable ∧ method ∈ symbolTable.getAllSymbols ∧ method.kind = .method ∧
    toLowerCase method.name = toLowerCase q.memberName ∧
    ∃ block ∈ symbolTable.getAllSymbols, isClassBlock block = true ∧ childOf c block = true ∧ childOf block method = true

def ancestor : Nat → Option ApexSymbol := along q.superclass (some q.contextSymbol)

def Nearest (method : ApexSymbol) : Prop :=
  ∃ i c, q.ancestor i = some c ∧ q.Declares c method ∧ ∀ j < i, ∀ d, q.ancestor j = some d → ∀ m, ¬q.Declares d m

def NoneDeclares : Prop := ∀ i c, q.ancestor i = some c → ∀ m, ¬q.Declares c m

/-- The method that the class has, by itself, by its superclasses or by `Object`. -/
def Inherited (method : ApexSymbol) : Prop :=
  q.Nearest method ∨ q.NoneDeclares ∧ ∃ o, q.object = some o ∧ q.Declares o method

def Absent : Prop := q.NoneDeclares ∧ ∀ o, q.object = some o → ∀ m, ¬q.Declares o m

/-- The lookup comes back with the method that the class has, or with none if it has none. -/
structure FollowsInheritance : Prop where
  terminates : ∃ answer, q.Returns answer
  found : ∀ method, q.Returns (some method) → q.Inherited method
  absent : q.Returns none → q.Absent

/-- Going up by the texts, the first class for which its file has anything has this. -/
def Meets (c method : ApexSymbol) : Prop := ComesTo (q.workspace.own q.memberName) q.workspace.next c method

/-- Going up by the texts comes to an end, and no file has anything for its class. -/
def Ends (c : ApexSymbol) : Prop := RunsOut (q.workspace.own q.memberName) q.workspace.next c

def AsksObject (c : ApexSymbol) : Prop := Asks q.workspace.next q.workspace.asks c

variable {q}

theorem returns_iff {answer : Option ApexSymbol} : q.Returns answer ↔
    SearchAnswers (q.workspace.own q.memberName) q.workspace.next q.workspace.asks q.workspace.resolveObjectClass q.contextSymbol
      answer := by
  simp only [Returns,Workspace.resolveMemberInContext_eq,rootedSearch_iff]

theorem returns_some_iff {method : ApexSymbol} : q.Returns (some method) ↔ q.Meets q.contextSymbol method ∨
    q.Ends q.contextSymbol ∧ q.AsksObject q.contextSymbol ∧
      ∃ o, q.workspace.resolveObjectClass = some o ∧ q.Meets o method :=
  returns_iff

theorem returns_none_iff : q.Returns none ↔ q.Ends q.contextSymbol ∧ (q.AsksObject q.contextSymbol →
    ∀ o, q.workspace.resolveObjectClass = some o → q.Ends o ∧ ¬q.AsksObject o) :=
  returns_iff

theorem Ends.not_meets {c method : ApexSymbol} (ends : q.Ends c) : ¬q.Meets c method := fun meets => meets.not_runsOut ends

/-- The file has for the class what its own block declares, and its text is taken for its superclass. -/
structure Agrees (q : MemberLookup) (c : ApexSymbol) : Prop where
  declared : ∀ m, q.workspace.own q.memberName c = some m → q.Declares c m
  complete : q.workspace.own q.memberName c = none → ∀ m, ¬q.Declares c m
  parent : q.workspace.next c = q.superclass c

theorem along_eq_ancestor (agree : ∀ i c, q.ancestor i = some c → q.Agrees c) (i : Nat) :
    along q.workspace.next (some q.contextSymbol) i = q.ancestor i := by
  induction i with
  | zero => rfl
  | succ i ih =>
    change (along q.workspace.next (some q.contextSymbol) i).bind q.workspace.next = (q.ancestor i).bind q.superclass
    rw [ih]
    cases held : q.ancestor i with
    | none => rfl
    | some c => exact (agree i c held).parent

end MemberLookup

end

/-- `class C { class D { void m() {} } void m() {} }` -/
def innerFirst : List ApexSymbol := [
  { id := "C",name := "C",kind := .class_,parentId := .null,fileUri := "file:///C.cls",location := ⟨⟨1,0,6,1⟩,⟨1,6,1,7⟩⟩ },
  { id := "C.block",name := "block1",kind := .block,scopeType := some .class_,parentId := .of "C",fileUri := "file:///C.cls"
    location := ⟨⟨1,8,6,1⟩,⟨1,8,6,1⟩⟩ },
  { id := "C.D",name := "D",kind := .class_,parentId := .of "C.block",fileUri := "file:///C.cls"
    location := ⟨⟨2,2,4,3⟩,⟨2,8,2,9⟩⟩ },
  { id := "C.D.block",name := "block2",kind := .block,scopeType := some .class_,parentId := .of "C.D",fileUri := "file:///C.cls"
    location := ⟨⟨2,10,4,3⟩,⟨2,10,4,3⟩⟩ },
  { id := "C.D.m",name := "m",kind := .method,parentId := .of "C.D.block",parameters := some [],fileUri := "file:///C.cls"
    location := ⟨⟨3,4,3,15⟩,⟨3,9,3,10⟩⟩ },
  { id := "C.m",name := "m",kind := .method,parentId := .of "C.block",parameters := some [],fileUri := "file:///C.cls"
    location := ⟨⟨5,2,5,13⟩,⟨5,7,5,8⟩⟩ }]

def lookupOfOwn [Runtime] : MemberLookup where
  workspace :=
    { files :=
        { symbols := innerFirst
          getSymbolTableForFile := fun fileUri => if fileUri = "file:///C.cls" then some (tableOf innerFirst) else none }
      resolveStandardApexClass := fun _ => none }
  contextSymbol := innerFirst.getD 0 default
  memberName := "m"
  isClass := rfl
  superclass _ := none
  object := none
  extends_ _ _ absent := absurd absent (Option.some_ne_none _).symm
  isObject _ absent := absurd absent (Option.some_ne_none _).symm
  loaded _ either := by
    obtain ⟨_,absent⟩ | absent := either <;> exact absurd absent (Option.some_ne_none _).symm

def lookupOfAbsent [Runtime] : MemberLookup := { lookupOfOwn with memberName := "n" }

end ApexLs.Resolution.InheritedMembers
