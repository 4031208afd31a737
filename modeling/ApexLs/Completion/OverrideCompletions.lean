import Mathlib.Data.List.DropRight
import Mathlib.Data.List.Sort
import ApexLs.Collections.FirstOfKey
import ApexLs.Resolution.LoadedFiles
import ApexLs.Utils.AsciiBytes

/-! The completion of `override`: the class around the cursor, the walk up the names of its superclasses, and the methods
of their files that are offered once for every signature. -/
namespace ApexLs.Completion

open ApexLs.Collections ApexLs.Resolution ApexLs.Types ApexLs.Utils

structure Cursor where
  line : Nat
  character : Nat
  deriving DecidableEq, Repr

def Cursor.position (cursor : Cursor) : Position := ⟨cursor.line + 1,cursor.character⟩

structure OverrideSymbol where
  id : String
  name : String
  kind : String := "method"
  parameters : List ParameterSymbol
  returnType : Option TypeInfo
  modifiers : SymbolModifiers
  insertText : String
  isSnippet : Bool := true
  location : SymbolLocation

structure OverrideCandidate where
  symbol : OverrideSymbol
  relevance : Rat
  context : String

/-- A type's text without its arguments, from the first `<` to the last `>`, and without brackets at its end. -/
def baseName (name : String) : String :=
  let argumentsAndRest := name.toList.dropWhile (· ≠ '<')
  let bare := if '>' ∈ argumentsAndRest then name.toList.takeWhile (· ≠ '<') ++ argumentsAndRest.rtakeWhile (· ≠ '>')
    else name.toList
  String.ofList (if ['[',']'] <:+ bare then bare.dropLast.dropLast else bare)

def isOverridableMethod (method : ApexSymbol) : Bool :=
  !method.modifiers.isStatic && !method.modifiers.isFinal && (method.modifiers.isVirtual || method.modifiers.isAbstract)

def shownType (p : ParameterSymbol) : String := (p.type.map TypeInfo.name).getD "Object"

def makeOverrideSymbol (method : ApexSymbol) : OverrideSymbol :=
  let params := method.parameters.getD []
  let paramText := ", ".intercalate (params.map fun p => shownType p ++ " " ++ p.name)
  let returnType := (method.returnType.map TypeInfo.name).getD "void"
  { id := "override:" ++ method.id
    name := method.name
    parameters := params
    returnType := method.returnType
    modifiers := method.modifiers
    insertText := returnType ++ " " ++ method.name ++ "(" ++ paramText ++ ") \x7b$\x7b0\x7d\x7d"
    location := method.location }

section

variable [Runtime]

def methodSignature (method : ApexSymbol) : String :=
  toLowerCase method.name ++ "(" ++ toLowerCase (",".intercalate ((method.parameters.getD []).map shownType)) ++ ")"

variable (files : LoadedFiles)

def resolveTypeByName (name : String) : Option ApexSymbol :=
  ((files.findSymbolByName (baseName name)).find? fun s =>
    s.kind = .class_ || s.kind = .interface || s.kind = .enum).filter ApexSymbol.inTypeSymbolGroup

def namedSuperclass (c : ApexSymbol) : Option ApexSymbol :=
  (c.superClass.filter (· ≠ "")).bind (resolveTypeByName files)

omit [Runtime] in
def getDirectMembers (typeSymbol : ApexSymbol) : List ApexSymbol :=
  if typeSymbol.fileUri = "" then []
  else
    match files.getSymbolTableForFile typeSymbol.fileUri with
    | none => files.findSymbolsInFile typeSymbol.fileUri
    | some symbolTable => symbolTable.getAllSymbols.filter fun s => s.kind = .method

omit [Runtime] in
def overridableMembers (typeSymbol : ApexSymbol) : List ApexSymbol :=
  (getDirectMembers files typeSymbol).filter fun member => member.kind = .method && isOverridableMethod member

/-- The methods of the types on the way up: ten of them at most, and none for the second time. -/
def collectOverridableMethods (startType : ApexSymbol) : List ApexSymbol :=
  (visitedWalk ApexSymbol.id (namedSuperclass files) 10 [] (some startType)).flatMap (overridableMembers files)

omit [Runtime] in
/-- The class with the fewest lines of those whose lines reach around the cursor's. -/
def findContainingClass (fileUri : String) (cursor : Cursor) : Option ApexSymbol :=
  let lines (s : ApexSymbol) : Int := (s.location.symbolRange.endLine : Int) - s.location.symbolRange.startLine
  let candidates := (files.findSymbolsInFile fileUri).filter fun s => s.kind = .class_ &&
    s.location.symbolRange.startLine ≤ cursor.line && s.location.symbolRange.endLine ≥ cursor.line
  (candidates.insertionSort fun a b => lines a ≤ lines b).head?.filter ApexSymbol.inTypeSymbolGroup

def getCompletions (fileUri : String) (cursor : Cursor) : List OverrideCandidate :=
  match (findContainingClass files fileUri cursor).bind (namedSuperclass files) with
  | none => []
  | some superType =>
    (firstOfKey methodSignature [] (collectOverridableMethods files superType)).map fun method =>
      { symbol := makeOverrideSymbol method,relevance := 0.95,context := "override candidate from " ++ superType.name }

/-- A method's signature: its name and the types of its parameters with their arguments, ignoring case. -/
def signature (name : String) (parameters : List ParameterSymbol) : String × List (Option String) :=
  (toLowerCase name,parameters.map fun p => p.type.map fun type => toLowerCase type.originalTypeString)

def signatureOf (method : ApexSymbol) : String × List (Option String) :=
  signature method.name (method.parameters.getD [])

structure OverrideRequest where
  files : LoadedFiles
  fileUri : String
  cursor : Cursor
  table : FileTable
  loaded : files.getSymbolTableForFile fileUri = some table
  inside : CallerAt table cursor.position
  supers : Superclasses files

namespace OverrideRequest

variable (q : OverrideRequest)

def outcome : List OverrideCandidate := getCompletions q.files q.fileUri q.cursor

def offered (σ : String × List (Option String)) : List OverrideCandidate :=
  q.outcome.filter fun candidate => signature candidate.symbol.name candidate.symbol.parameters = σ

def Inherits (method : ApexSymbol) : Prop :=
  ∃ i c, q.supers.above q.inside.caller i = some c ∧ q.files.Declares c method ∧ method.kind = .method

/-- The nearest superclass that declares the signature declares it so that it can be overridden. -/
def Overridable (σ : String × List (Option String)) : Prop :=
  ∃ i c, q.supers.above q.inside.caller i = some c ∧
    (∃ method, q.files.Declares c method ∧ method.kind = .method ∧ signatureOf method = σ ∧ isOverridableMethod method = true) ∧
    ∀ j < i, ∀ nearer, q.supers.above q.inside.caller j = some nearer →
      ∀ method, q.files.Declares nearer method → method.kind = .method → signatureOf method ≠ σ

/-- What can be overridden is offered once, and nothing else: no method that no superclass declares itself. -/
structure OffersExactly : Prop where
  once : ∀ σ, q.Overridable σ → (q.offered σ).length = 1
  never : ∀ σ, ¬q.Overridable σ → (q.offered σ).length = 0
  inherited : ∀ candidate ∈ q.outcome, ∃ method, q.Inherits method ∧ candidate.symbol.id = "override:" ++ method.id

/-- The type that the walk starts from: what the class of the fewest lines around the cursor's line names. -/
def start : Option ApexSymbol := (findContainingClass q.files q.fileUri q.cursor).bind (namedSuperclass q.files)

/-- Among the types that the walk by names visits, the method is the first of its bare signature in their files. -/
def First (method : ApexSymbol) : Prop :=
  ∃ i c, Visits ApexSymbol.id (namedSuperclass q.files) 10 q.start i c ∧
    Foremost methodSignature (overridableMembers q.files c) method ∧
    ∀ j < i, ∀ earlier, along (namedSuperclass q.files) q.start j = some earlier →
      ∀ other ∈ overridableMembers q.files earlier, methodSignature other ≠ methodSignature method

variable {q}

/-- The methods on the way up, before one of every bare signature is kept. -/
def collected (q : OverrideRequest) : List ApexSymbol :=
  (visitedWalk ApexSymbol.id (namedSuperclass q.files) 10 [] q.start).flatMap (overridableMembers q.files)

theorem first_iff {method : ApexSymbol} : q.First method ↔ Foremost methodSignature q.collected method :=
  foremost_gathered.symm

theorem outcome_eq : ∃ context, q.outcome = (firstOfKey methodSignature [] q.collected).map fun method =>
    { symbol := makeOverrideSymbol method,relevance := 0.95,context := context } := by
  rw [outcome,getCompletions,collected,start]
  cases (findContainingClass q.files q.fileUri q.cursor).bind (namedSuperclass q.files) with
  | none => exact ⟨"",rfl⟩
  | some superType => exact ⟨_,rfl⟩

theorem length_offered {σ : String × List (Option String)} :
    (q.offered σ).length = ((firstOfKey methodSignature [] q.collected).filter fun method => signatureOf method = σ).length := by
  obtain ⟨context,eq⟩ := q.outcome_eq
  rw [offered,eq,List.filter_map,List.length_map]
  rfl

theorem length_offered_eq_one {σ : String × List (Option String)} : (q.offered σ).length = 1 ↔
    (∃ method, q.First method ∧ signatureOf method = σ) ∧ ∀ a b, q.First a → q.First b →
      signatureOf a = σ → signatureOf b = σ → methodSignature a = methodSignature b := by
  rw [length_offered,length_filter_firstOfKey]
  simp only [first_iff,decide_eq_true_eq]

theorem length_offered_eq_zero {σ : String × List (Option String)} : (q.offered σ).length = 0 ↔
    ∀ method, q.First method → signatureOf method ≠ σ := by
  rw [length_offered,length_filter_firstOfKey_eq_zero]
  simp only [first_iff,decide_eq_false_iff_not,ne_eq]

theorem inherited_iff : (∀ candidate ∈ q.outcome, ∃ method, q.Inherits method ∧ candidate.symbol.id = "override:" ++ method.id) ↔
    ∀ first, q.First first → ∃ method, q.Inherits method ∧ method.id = first.id := by
  obtain ⟨context,eq⟩ := q.outcome_eq
  have kept (method : ApexSymbol) : method ∈ firstOfKey methodSignature [] q.collected ↔ q.First method := by
    rw [mem_firstOfKey,first_iff,and_iff_left List.not_mem_nil]
  rw [eq,List.forall_mem_map]
  simp only [kept]
  refine forall₂_congr fun first _ => exists_congr fun method => and_congr_right fun _ => ?_
  exact (String.append_right_inj "override:").trans eq_comm

end OverrideRequest

end

/-- `virtual class Base { virtual class Inner { virtual void f() {} } }` -/
def nestedSymbols : List ApexSymbol := [
  { id := "Base",name := "Base",kind := .class_,parentId := .null,fileUri := "file:///Base.cls"
    modifiers := { isVirtual := true },location := ⟨⟨1,0,5,1⟩,⟨1,14,1,18⟩⟩ },
  { id := "Base.block",name := "block1",kind := .block,scopeType := some .class_,parentId := .of "Base"
    fileUri := "file:///Base.cls",location := ⟨⟨1,19,5,1⟩,⟨1,19,5,1⟩⟩ },
  { id := "Inner",name := "Inner",kind := .class_,parentId := .of "Base.block",fileUri := "file:///Base.cls"
    modifiers := { isVirtual := true },location := ⟨⟨2,2,4,3⟩,⟨2,16,2,21⟩⟩ },
  { id := "Inner.block",name := "block2",kind := .block,scopeType := some .class_,parentId := .of "Inner"
    fileUri := "file:///Base.cls",location := ⟨⟨2,22,4,3⟩,⟨2,22,4,3⟩⟩ },
  { id := "Inner.f",name := "f",kind := .method,parentId := .of "Inner.block",parameters := some []
    fileUri := "file:///Base.cls",modifiers := { isVirtual := true },location := ⟨⟨3,4,3,23⟩,⟨3,17,3,18⟩⟩ }]

/-- `class Child extends Base { public override }` -/
def childSymbols : List ApexSymbol := [
  { id := "Child",name := "Child",kind := .class_,parentId := .null,superClass := some "Base"
    fileUri := "file:///Child.cls",location := ⟨⟨1,0,3,1⟩,⟨1,6,1,11⟩⟩ },
  { id := "Child.block",name := "block1",kind := .block,scopeType := some .class_,parentId := .of "Child"
    fileUri := "file:///Child.cls",location := ⟨⟨1,25,3,1⟩,⟨1,25,3,1⟩⟩ }]

def nestedFiles : LoadedFiles where
  symbols := childSymbols ++ nestedSymbols
  getSymbolTableForFile fileUri := if fileUri = "file:///Base.cls" then some (tableOf nestedSymbols)
    else if fileUri = "file:///Child.cls" then some (tableOf childSymbols) else none

def childRequest [Runtime] : OverrideRequest where
  files := nestedFiles
  fileUri := "file:///Child.cls"
  cursor := ⟨1,17⟩
  table := tableOf childSymbols
  loaded := rfl
  inside :=
    { block := childSymbols.getD 1 default
      caller := childSymbols.getD 0 default
      around := ⟨.head _,rfl⟩
      innermost := by decide
      owns := ⟨rfl,.head _,rfl⟩ }
  supers :=
    { superclass c := if c.superClass = some "Base" then some (nestedSymbols.getD 0 default) else none
      named c superClass names := by
        refine named_of_written ?_ ?_ ?_ names
        · exact List.mem_append_right childSymbols (.head _)
        · rfl
        · rfl }

end ApexLs.Completion
