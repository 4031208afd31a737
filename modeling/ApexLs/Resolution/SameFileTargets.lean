import ApexLs.Resolution.PreferredTypes
import ApexLs.Resolution.LoadedFiles
import ApexLs.Utils.AsciiBytes

/-! References that are bound within their own file: by the id they came with, by the scopes around them, or as a member of
the type before the dot. -/
namespace ApexLs.Resolution

open ApexLs.Collections ApexLs.Types ApexLs.Utils

structure SameFileReference where
  name : String
  context : ReferenceContext
  location : SymbolLocation
  chainNodes : Option (List ChainNode) := none
  argumentCount : Option Nat := none
  resolvedSymbolId : Option String := none
  deriving Repr

/-- The table of the file, and the symbols that types of its variables were resolved to before. -/
structure SameFile where
  table : FileTable
  resolvedSymbol : ApexSymbol → Option ApexSymbol

def typeNamespace : TypeInfo → Option String
  | .mk _ _ _ _ _ _ _ namespace_ => namespace_

def isVariableSymbol (s : ApexSymbol) : Bool :=
  s.kind = .property || s.kind = .field || s.kind = .variable || s.kind = .parameter || s.kind = .enumValue

/-- A type's text without brackets at its end, and then without arguments at its end. -/
def plainTypeName (name : String) : String :=
  let chars := name.toList
  let element := if ['[',']'] <:+ chars then chars.dropLast.dropLast else chars
  String.ofList (if element.getLast? = some '>' ∧ '<' ∈ element then element.takeWhile (· ≠ '<') else element)

namespace SameFileReference

def position (ref : SameFileReference) : Position :=
  ⟨ref.location.identifierRange.startLine,ref.location.identifierRange.startColumn⟩

def parts (ref : SameFileReference) : List String :=
  match ref.chainNodes with
  | some (first :: second :: rest) => (first :: second :: rest).map ChainNode.name
  | _ => (ref.name.toList.splitOn '.').map String.ofList

def extractQualifierFromChain (ref : SameFileReference) : Option (String × String) :=
  match ref.chainNodes with
  | some (first :: second :: _) => some (first.name,second.name)
  | _ =>
    let parts := (ref.name.toList.splitOn '.').map String.ofList
    if 2 ≤ parts.length then some (".".intercalate parts.dropLast,parts.getLastD "") else none

def headPosition (ref : SameFileReference) : Position :=
  match ref.chainNodes with
  | some (first :: _) => identifierStart first
  | _ => ref.position

def looksAgain (ref : SameFileReference) (resolved : ApexSymbol) : Bool :=
  isVariableSymbol resolved && ref.extractQualifierFromChain.isNone && ref.context ≠ .variableDeclaration &&
    ref.context ≠ .propertyReference

end SameFileReference

section

variable [Runtime]

namespace FileTable

variable (t : FileTable)

def byId (id : String) : Option ApexSymbol := t.getAllSymbols.reverse.find? fun s => s.id = id

def byName (nameKey : String) : List ApexSymbol := t.getAllSymbols.filter fun s => toLowerCase s.name = nameKey

def byFqn (fqnKey : String) : List ApexSymbol :=
  t.getAllSymbols.filter fun s => truthy s.fqn && s.fqn.map toLowerCase = some fqnKey

def byParentId (parentId : String) : List ApexSymbol := t.getAllSymbols.filter fun s => s.parentId = .of parentId

def parentSymbol (s : ApexSymbol) : Option ApexSymbol :=
  match s.parentId with
  | .of parentId => if parentId = "" then none else t.byId parentId
  | _ => none

/-- A symbol and its parents. Without a cycle of parents there are no more of them than symbols, and one. -/
def ancestry (s : ApexSymbol) : List ApexSymbol := chainFrom t.parentSymbol (t.getAllSymbols.length + 1) s

/-- The symbols whose children are searched, in their order: those around the innermost scope, then around the next one. -/
def stops (position : Position) : List ApexSymbol := (t.scopeHierarchy position).flatMap t.ancestry

def findSameFileSymbolInScope (name : String) (position : Position) (preferValues : Bool := false) : Option ApexSymbol :=
  let candidates := t.byName (toLowerCase name)
  let found := (t.stops position).findSome? fun current =>
    let scopedCandidates := candidates.filter (childOf current)
    if preferValues then (scopedCandidates.find? isVariableSymbol).or scopedCandidates.head? else scopedCandidates.head?
  found.or ((candidates.find? fun s => s.parentId = .null || s.parentId = .undefined).or
    (candidates.find? ApexSymbol.inTypeSymbolGroup))

def findSameFileContainingType (position : Position) : Option ApexSymbol :=
  (t.stops position).find? ApexSymbol.inTypeSymbolGroup

def findSameFileType (name : String) : Option ApexSymbol :=
  let nameKey := toLowerCase (plainTypeName name)
  if plainTypeName name = "" then none
  else ((t.byName nameKey).find? ApexSymbol.inTypeSymbolGroup).or ((t.byFqn nameKey).find? ApexSymbol.inTypeSymbolGroup)

/-- The children of a type and of its class blocks that have the name. -/
def memberCandidates (owner : ApexSymbol) (memberName : String) : List ApexSymbol :=
  let containers := owner.id :: ((t.byParentId owner.id).filter isClassBlock).map ApexSymbol.id
  containers.flatMap fun parentId => (t.byParentId parentId).filter fun s => toLowerCase s.name = toLowerCase memberName

def findSameFileMember (owner : ApexSymbol) (memberName : String) (ref : SameFileReference) : Option ApexSymbol :=
  if !owner.inTypeSymbolGroup then none
  else
    let candidates := t.memberCandidates owner memberName
    match ref.context with
    | .methodCall =>
      let methods := candidates.filter ApexSymbol.isMethodOrConstructorSymbol
      let arityMatch := methods.find? fun s => ref.argumentCount.any fun count => s.parameters.any fun p => p.length = count
      arityMatch.or methods.head?
    | .fieldAccess | .propertyReference => candidates.find? fun s => s.kind = .field || s.kind = .property
    | _ => candidates.head?

end FileTable

namespace SameFile

variable (file : SameFile) (ref : SameFileReference)

/-- The symbol of the id that the reference came with, unless a qualifier other than `this` and `super` speaks against it. -/
def trusted : Option ApexSymbol :=
  let canTrustPreResolvedTarget := ref.extractQualifierFromChain.all fun q =>
    toLowerCase q.1 = "this" || toLowerCase q.1 = "super"
  if canTrustPreResolvedTarget then (ref.resolvedSymbolId.filter (· ≠ "")).bind file.table.byId else none

def head (qualifier : String) : Option ApexSymbol :=
  let containingType := file.table.findSameFileContainingType ref.position
  if toLowerCase qualifier = "super" then
    containingType.bind fun c => (c.superClass.filter (· ≠ "")).bind file.table.findSameFileType
  else if toLowerCase qualifier = "this" then containingType
  else
    let resolvedHeadId := ((ref.chainNodes.bind List.head?).bind ChainNode.resolvedSymbolId).filter (· ≠ "")
    (resolvedHeadId.bind file.table.byId).or (file.table.findSameFileSymbolInScope qualifier ref.headPosition true)

def declaredTypeName (type : TypeInfo) : String :=
  let text := if type.originalTypeString = "" then type.name else type.originalTypeString
  let rawDeclaredTypeName := plainTypeName text
  toLowerCase (match (typeNamespace type).filter (· ≠ "") with
    | some declaredNamespace =>
      if '.' ∈ rawDeclaredTypeName.toList then rawDeclaredTypeName else declaredNamespace ++ "." ++ rawDeclaredTypeName
    | none => rawDeclaredTypeName)

/-- The symbol whose members are searched: that of the declared type, if the head is a variable. -/
def memberOwner (head : ApexSymbol) : Option ApexSymbol :=
  if isVariableSymbol head then
    head.type.bind fun type =>
      let declared := declaredTypeName type
      let resolvedType := (file.resolvedSymbol head).filter fun s =>
        '.' ∉ declared.toList || s.fqn.map toLowerCase = some declared
      (resolvedType.bind fun s => file.table.byId s.id).or (file.table.findSameFileType declared)
  else some head

def resolveSameFileTarget : Option (ApexSymbol × Bool) :=
  match file.trusted ref with
  | some resolved =>
    let scopeValidated := if ref.looksAgain resolved then file.table.findSameFileSymbolInScope ref.name ref.position
      else some resolved
    scopeValidated.map fun target =>
      (target,ref.extractQualifierFromChain.all fun q => toLowerCase target.name = toLowerCase q.2)
  | none =>
    match ref.extractQualifierFromChain with
    | none => (file.table.findSameFileSymbolInScope ref.name ref.position).map fun target => (target,true)
    | some (qualifier,member) =>
      (file.head ref qualifier).map fun head =>
        match (file.memberOwner head).bind fun owner => file.table.findSameFileMember owner member ref with
        | some target => (target,true)
        | none => (head,false)

end SameFile

def isMethod (s : ApexSymbol) : Bool := s.kind = .method

def arity (s : ApexSymbol) : Nat := (s.parameters.getD []).length

/-- A reference in a file without cycles of parents, and the types of the file that the texts of types stand for there. -/
structure SameFileQuery where
  file : SameFile
  ref : SameFileReference
  acyclicBlocks : ∀ b, ¬Loops file.table.parentBlock (fun _ => false) b
  acyclic : ∀ s, ¬Loops file.table.parentSymbol (fun _ => false) s
  typeNamed : String → Option ApexSymbol
  named : ∀ text T, typeNamed text = some T → T ∈ file.table.getAllSymbols ∧ T.inTypeSymbolGroup = true ∧
    toLowerCase T.name = toLowerCase (lastSegment (plainTypeName text))

namespace SameFileQuery

variable (q : SameFileQuery)

def table : FileTable := q.file.table

def outcome : Option (ApexSymbol × Bool) := q.file.resolveSameFileTarget q.ref

/-- The names and the members of a variable are used, not declared. -/
def IsValueUse : Prop := q.ref.context = .variableUsage ∨ q.ref.context = .fieldAccess

def EnclosingType (T : ApexSymbol) : Prop :=
  T ∈ q.table.getAllSymbols ∧ T.inTypeSymbolGroup = true ∧
    ∃ block ∈ q.table.containingBlocks q.ref.headPosition, isClassBlock block = true ∧ childOf T block = true ∧
      ∀ c ∈ q.table.containingBlocks q.ref.headPosition, isClassBlock c = true →
        Within block.location.symbolRange c.location.symbolRange

def DeclaresMember (T : ApexSymbol) (name : String) (v : ApexSymbol) : Prop :=
  v ∈ q.table.getAllSymbols ∧ toLowerCase v.name = toLowerCase name ∧
    ∃ block ∈ q.table.getAllSymbols, isClassBlock block = true ∧ childOf T block = true ∧ childOf block v = true

def VisibleValue (name : String) (v : ApexSymbol) : Prop :=
  q.table.InnermostDeclaration q.ref.headPosition name (fun _ => true) isVariableLike v

/-- The text of a variable's type stands for the type. -/
def HasType (v T : ApexSymbol) : Prop := ∃ type, v.type = some type ∧ q.typeNamed type.originalTypeString = some T

/-- What the names before the last dot denote: the type around them, its superclass, the type of a visible value, a type by its
name, and so on with the fields and inner types of these. -/
inductive Denotes : List String → ApexSymbol → Prop
  | this (name : String) (T : ApexSymbol) (is : toLowerCase name = "this") (around : q.EnclosingType T) : Denotes [name] T
  | super_ (name text : String) (C T : ApexSymbol) (is : toLowerCase name = "super") (around : q.EnclosingType C)
      (written : C.superClass = some text) (names : q.typeNamed text = some T) : Denotes [name] T
  | value (name : String) (v T : ApexSymbol) (plain : toLowerCase name ≠ "this" ∧ toLowerCase name ≠ "super")
      (visible : q.VisibleValue name v) (typed : q.HasType v T) : Denotes [name] T
  | type (name : String) (T : ApexSymbol) (plain : toLowerCase name ≠ "this" ∧ toLowerCase name ≠ "super")
      (free : ∀ v, ¬q.VisibleValue name v) (names : q.typeNamed name = some T) : Denotes [name] T
  | field (names : List String) (name : String) (S v T : ApexSymbol) (before : Denotes names S)
      (declares : q.DeclaresMember S name v) (value : isVariableLike v = true) (typed : q.HasType v T) :
      Denotes (names ++ [name]) T
  | inner (names : List String) (name : String) (S T : ApexSymbol) (before : Denotes names S)
      (declares : q.DeclaresMember S name T) (type : T.inTypeSymbolGroup = true) : Denotes (names ++ [name]) T

def OwnCall (m : String) : Prop := q.ref.context = .methodCall ∧
  (q.ref.parts.length ≤ 1 ∧ m = q.ref.name ∨ ∃ this, q.ref.parts = [this,m] ∧ toLowerCase this = "this")

/-- If a method of the name beside this one takes as many parameters as the call has arguments, this one does. -/
def FitsArity (m : String) (v : ApexSymbol) : Prop :=
  ∀ count, q.ref.argumentCount = some count → (∃ w ∈ q.table.getAllSymbols, w.parentId = v.parentId ∧ w.kind = .method ∧
    toLowerCase w.name = toLowerCase m ∧ arity w = count) → arity v = count

structure Right (v : ApexSymbol) : Prop where
  value : q.ref.parts.length ≤ 1 → q.IsValueUse →
    q.table.InnermostDeclaration q.ref.position q.ref.name (fun _ => true) isVariableLike v
  call : ∀ m, q.OwnCall m → q.table.InnermostDeclaration q.ref.position m isClassBlock isMethod v ∧ q.FitsArity m v
  member : ∀ names m, names ≠ [] → q.ref.parts = names ++ [m] → ¬q.OwnCall m → ∃ T, q.Denotes names T ∧ q.DeclaresMember T m v ∧
    (q.ref.context = .methodCall → v.kind = .method ∧ q.FitsArity m v)
  callKind : q.ref.context = .methodCall → isVariableLike v = false
  valueKind : q.IsValueUse → v.kind ≠ .method

/-- The walks up the parents end, and a reference that is answered completely is bound to what it denotes. -/
structure BindsVisible : Prop where
  ends : ∀ position, q.table.WalkEnds position
  settled : ∀ s steps, q.table.getAllSymbols.length + 1 ≤ steps → chainFrom q.table.parentSymbol steps s = q.table.ancestry s
  right : ∀ v, q.outcome = some (v,true) → q.Right v

def Trusts (v : ApexSymbol) : Prop := q.file.trusted q.ref = some v ∧ q.ref.looksAgain v = false ∧
  ∀ qualifier member, q.ref.extractQualifierFromChain = some (qualifier,member) → toLowerCase v.name = toLowerCase member

def LooksUp : Prop := q.ref.parts.length ≤ 1 ∧ ∀ r, q.file.trusted q.ref = some r → q.ref.looksAgain r = true

/-- From the innermost scope out, the first symbol with a child of the name has this one as the first such child. -/
def FirstNamed (v : ApexSymbol) : Prop :=
  ∃ front stop back, q.table.stops q.ref.position = front ++ stop :: back ∧
    ((q.table.byName (toLowerCase q.ref.name)).filter (childOf stop)).head? = some v ∧
    ∀ s ∈ front, ∀ child ∈ q.table.getAllSymbols, toLowerCase child.name = toLowerCase q.ref.name → childOf s child = false

def Stray (v : ApexSymbol) : Prop := v ∈ q.table.getAllSymbols ∧ toLowerCase v.name = toLowerCase q.ref.name ∧
  ((v.parentId = .null ∨ v.parentId = .undefined) ∨ v.inTypeSymbolGroup = true)

def Picks (v : ApexSymbol) : Prop := q.file.trusted q.ref = none ∧ ∃ qualifier member head owner,
  q.ref.extractQualifierFromChain = some (qualifier,member) ∧ q.file.head q.ref qualifier = some head ∧
    q.file.memberOwner head = some owner ∧ q.table.findSameFileMember owner member q.ref = some v

/-- A call without arguments counts a method of the name beside the target, without a list of parameters, as one without
parameters. -/
def CountsUnlisted (v : ApexSymbol) : Prop := q.ref.argumentCount = some 0 →
  (∃ w ∈ q.table.getAllSymbols, w.parentId = v.parentId ∧ w.kind = .method ∧ toLowerCase w.name = toLowerCase v.name ∧
    w.parameters = none) → arity v = 0

/-- A picked member is what the reference means: it is the visible method, if the call is of one's own; else the names before
the last denote the type that declares it. It is no constructor for a call and no method for a variable. -/
structure Meant (v : ApexSymbol) : Prop where
  own : ∀ m, q.OwnCall m → q.table.InnermostDeclaration q.ref.position m isClassBlock isMethod v
  member : ∀ names m, names ≠ [] → q.ref.parts = names ++ [m] → ¬q.OwnCall m → ∃ T, q.Denotes names T ∧ q.DeclaresMember T m v
  call : q.ref.context = .methodCall → v.kind ≠ .constructor ∧ q.CountsUnlisted v
  value : q.ref.context = .variableUsage → v.kind ≠ .method

variable {q}

omit [Runtime] in
theorem extract_eq_none_iff {ref : SameFileReference} : ref.extractQualifierFromChain = none ↔ ref.parts.length ≤ 1 := by
  rw [SameFileReference.extractQualifierFromChain,SameFileReference.parts]
  split
  next => simp
  next => simp [Nat.lt_succ_iff]

omit [Runtime] in
theorem not_qualified_of_looksAgain {ref : SameFileReference} {r : ApexSymbol} (again : ref.looksAgain r = true) :
    ref.extractQualifierFromChain = none := by
  simp only [SameFileReference.looksAgain,Bool.and_eq_true,Option.isNone_iff_eq_none] at again
  exact again.1.1.2

theorem outcome_of_trusted {r : ApexSymbol} (trusted : q.file.trusted q.ref = some r) : q.outcome =
    (if q.ref.looksAgain r then q.table.findSameFileSymbolInScope q.ref.name q.ref.position else some r).map fun target =>
      (target,q.ref.extractQualifierFromChain.all fun qualified => toLowerCase target.name = toLowerCase qualified.2) := by
  rw [outcome,SameFile.resolveSameFileTarget,trusted]
  rfl

theorem outcome_of_unqualified (trusted : q.file.trusted q.ref = none) (plain : q.ref.extractQualifierFromChain = none) :
    q.outcome = (q.table.findSameFileSymbolInScope q.ref.name q.ref.position).map fun target => (target,true) := by
  rw [outcome,SameFile.resolveSameFileTarget,trusted,plain]
  rfl

theorem outcome_of_qualified {qualifier member : String} (trusted : q.file.trusted q.ref = none)
    (qualified : q.ref.extractQualifierFromChain = some (qualifier,member)) {v : ApexSymbol} : q.outcome = some (v,true) ↔
      ∃ head owner, q.file.head q.ref qualifier = some head ∧ q.file.memberOwner head = some owner ∧
        q.table.findSameFileMember owner member q.ref = some v := by
  rw [outcome,SameFile.resolveSameFileTarget,trusted,qualified]
  dsimp only
  rw [Option.map_eq_some_iff]
  refine exists_congr fun head => ?_
  rw [exists_and_left]
  refine and_congr_right fun _ => ?_
  rw [← Option.bind_eq_some_iff]
  change (match (q.file.memberOwner head).bind fun owner => q.table.findSameFileMember owner member q.ref with
    | some target => (target,true)
    | none => (head,false)) = (v,true) ↔ _
  cases (q.file.memberOwner head).bind fun owner => q.table.findSameFileMember owner member q.ref with
  | none => exact iff_of_false (fun same => Bool.false_ne_true (Prod.mk.inj same).2) (Option.some_ne_none v).symm
  | some target => exact ⟨fun same => congrArg some (Prod.mk.inj same).1,fun same => Option.some.inj same ▸ rfl⟩

theorem outcome_complete_iff {v : ApexSymbol} : q.outcome = some (v,true) ↔ q.Trusts v ∨
    (q.LooksUp ∧ q.table.findSameFileSymbolInScope q.ref.name q.ref.position = some v) ∨ q.Picks v := by
  rw [Trusts,LooksUp,Picks,← extract_eq_none_iff]
  cases trusted : q.file.trusted q.ref with
  | some r =>
    rw [outcome_of_trusted trusted]
    cases again : q.ref.looksAgain r with
    | true =>
      have plain := not_qualified_of_looksAgain again
      simp only [if_true,plain,Option.all_none,Option.map_eq_some_iff,Prod.mk.injEq,and_true,exists_eq_right]
      constructor
      · intro found
        exact .inr (.inl ⟨⟨trivial,fun s same => Option.some.inj same ▸ again⟩,found⟩)
      · rintro (⟨same,not_,-⟩ | ⟨-,found⟩ | ⟨absent,-⟩)
        · rw [← Option.some.inj same,again] at not_
          cases not_
        · exact found
        · cases absent
    | false =>
      simp only [Bool.false_eq_true,if_false,Option.map_some,Option.some.injEq,Prod.mk.injEq]
      constructor
      · rintro ⟨rfl,named⟩
        refine .inl ⟨rfl,again,fun qualifier member qualified => ?_⟩
        rw [qualified,Option.all_some,decide_eq_true_eq] at named
        exact named
      · rintro (⟨rfl,-,named⟩ | ⟨⟨-,all⟩,-⟩ | ⟨absent,-⟩)
        · refine ⟨rfl,?_⟩
          rw [Option.all_eq_true]
          exact fun qualifier qualified => decide_eq_true (named qualifier.1 qualifier.2 qualified)
        · rw [all r rfl] at again
          cases again
        · cases absent
  | none =>
    cases qualified : q.ref.extractQualifierFromChain with
    | none =>
      rw [outcome_of_unqualified trusted qualified]
      simp only [Option.map_eq_some_iff,Prod.mk.injEq,and_true,exists_eq_right]
      constructor
      · exact fun found => .inr (.inl ⟨⟨trivial,fun r absent => absurd absent.symm (Option.some_ne_none r)⟩,found⟩)
      · rintro (⟨absent,-⟩ | ⟨-,found⟩ | ⟨-,_,_,_,_,absent,-⟩)
        · cases absent
        · exact found
        · cases absent
    | some parts =>
      obtain ⟨qualifier,member⟩ := parts
      rw [outcome_of_qualified trusted qualified]
      constructor
      · rintro ⟨head,owner,picked⟩
        exact .inr (.inr ⟨rfl,qualifier,member,head,owner,rfl,picked⟩)
      · rintro (⟨absent,-⟩ | ⟨⟨absent,-⟩,-⟩ | ⟨-,_,_,head,owner,same,picked⟩)
        · cases absent
        · cases absent
        · obtain ⟨rfl,rfl⟩ := Prod.mk.inj (Option.some.inj same)
          exact ⟨head,owner,picked⟩

theorem mem_memberCandidates_of_sibling {owner v w : ApexSymbol} {member : String}
    (found : v ∈ q.table.memberCandidates owner member) (listed : w ∈ q.table.getAllSymbols) (beside : w.parentId = v.parentId)
    (named : toLowerCase w.name = toLowerCase v.name) : w ∈ q.table.memberCandidates owner member := by
  obtain ⟨container,holds,inside⟩ := List.mem_flatMap.mp found
  obtain ⟨child,same⟩ := List.mem_filter.mp inside
  obtain ⟨-,parent⟩ := List.mem_filter.mp child
  rw [decide_eq_true_eq] at same parent
  refine List.mem_flatMap.mpr ⟨container,holds,List.mem_filter.mpr ⟨List.mem_filter.mpr ⟨listed,?_⟩,?_⟩⟩
  · exact decide_eq_true (beside.trans parent)
  · exact decide_eq_true (named.trans same)

theorem of_findSameFileMember {owner v : ApexSymbol} {member : String}
    (found : q.table.findSameFileMember owner member q.ref = some v) : v ∈ q.table.memberCandidates owner member ∧
      (q.ref.context = .methodCall → v.isMethodOrConstructorSymbol = true) ∧
      (q.ref.context = .fieldAccess → isVariableLike v = true) := by
  rw [FileTable.findSameFileMember] at found
  split at found
  next => cases found
  next =>
    dsimp only at found
    split at found
    next call =>
      have method : v ∈ (q.table.memberCandidates owner member).filter ApexSymbol.isMethodOrConstructorSymbol := by
        obtain fits | ⟨-,first⟩ := Option.or_eq_some_iff.mp found
        · exact List.mem_of_find?_eq_some fits
        · exact List.mem_of_mem_head? first
      obtain ⟨candidate,kind⟩ := List.mem_filter.mp method
      exact ⟨candidate,fun _ => kind,fun access => absurd (call.symm.trans access) nofun⟩
    next access =>
      refine ⟨List.mem_of_find?_eq_some found,fun call => absurd (access.symm.trans call) nofun,fun _ => ?_⟩
      have kind := List.find?_some found
      rw [Bool.or_eq_true,decide_eq_true_eq,decide_eq_true_eq] at kind
      obtain kind | kind := kind <;> rw [isVariableLike,kind] <;> rfl
    next property =>
      refine ⟨List.mem_of_find?_eq_some found,fun call => ?_,fun access => ?_⟩
      · exact absurd (property.symm.trans call) nofun
      · exact absurd (property.symm.trans access) nofun
    next notCall notAccess _ =>
      exact ⟨List.mem_of_mem_head? found,fun call => absurd call notCall,fun access => absurd access notAccess⟩

theorem fitsArity_iff {owner v : ApexSymbol} {member m : String} (call : q.ref.context = .methodCall)
    (found : q.table.findSameFileMember owner member q.ref = some v) (named : toLowerCase v.name = toLowerCase m) :
    q.FitsArity m v ↔ q.CountsUnlisted v := by
  have candidate := (of_findSameFileMember found).1
  rw [FileTable.findSameFileMember] at found
  split at found
  next => cases found
  next =>
    rw [call] at found
    dsimp only at found
    constructor
    · rintro fits none_ ⟨w,listed,beside,kind,same,unlisted⟩
      exact fits 0 none_ ⟨w,listed,beside,kind,same.trans named,by rw [arity,unlisted]; rfl⟩
    · rintro counts count some_ ⟨w,listed,beside,kind,same,takes⟩
      obtain fits | ⟨without,-⟩ := Option.or_eq_some_iff.mp found
      · have fitting := List.find?_some fits
        rw [some_,Option.any_some,Option.any_eq_true] at fitting
        obtain ⟨p,parameters,length⟩ := fitting
        rw [arity,parameters]
        exact of_decide_eq_true length
      · have method : w.isMethodOrConstructorSymbol = true := by rw [ApexSymbol.isMethodOrConstructorSymbol,kind]; rfl
        have inside := mem_memberCandidates_of_sibling candidate listed beside (same.trans named.symm)
        have misses := List.find?_eq_none.mp without w (List.mem_filter.mpr ⟨inside,method⟩)
        rw [some_,Option.any_some] at misses
        cases parameters : w.parameters with
        | none =>
          rw [arity,parameters] at takes
          rw [← takes] at some_ ⊢
          exact counts some_ ⟨w,listed,beside,kind,same.trans named.symm,parameters⟩
        | some p =>
          rw [arity,parameters] at takes
          rw [parameters] at misses
          exact absurd (decide_eq_true takes) misses

theorem right_iff_of_picks {v : ApexSymbol} (picks : q.Picks v) : q.Right v ↔ q.Meant v := by
  obtain ⟨-,qualifier,member,head,owner,qualified,-,-,found⟩ := picks
  obtain ⟨-,method,variable_⟩ := of_findSameFileMember found
  have several : ¬q.ref.parts.length ≤ 1 := by
    rw [← extract_eq_none_iff,qualified]
    exact Option.some_ne_none _
  have fits {m : String} (call : q.ref.context = .methodCall) (named : toLowerCase v.name = toLowerCase m) :=
    fitsArity_iff call found named
  have split_ : ∃ names m, names ≠ [] ∧ q.ref.parts = names ++ [m] := by
    have some_ : q.ref.parts ≠ [] := fun empty => several (empty ▸ Nat.zero_le _)
    refine ⟨q.ref.parts.dropLast,q.ref.parts.getLast some_,fun empty => several ?_,(List.dropLast_append_getLast some_).symm⟩
    have length := congrArg List.length empty
    rw [List.length_dropLast,List.length_nil] at length
    omega
  constructor
  · intro right
    refine ⟨fun m own => (right.call m own).1,fun names m some_ parts foreign => ?_,fun call => ?_,fun usage => ?_⟩
    · obtain ⟨T,denotes,declares,-⟩ := right.member names m some_ parts foreign
      exact ⟨T,denotes,declares⟩
    · obtain ⟨names,m,some_,parts⟩ := split_
      by_cases own : q.OwnCall m
      · obtain ⟨innermost,fit⟩ := right.call m own
        have kind : v.kind = .method := of_decide_eq_true innermost.kind_
        refine ⟨fun constructor_ => ?_,(fits call innermost.named).mp fit⟩
        rw [kind] at constructor_
        cases constructor_
      · obtain ⟨T,-,declares,meant⟩ := right.member names m some_ parts own
        refine ⟨fun constructor_ => ?_,(fits call declares.2.1).mp (meant call).2⟩
        rw [(meant call).1] at constructor_
        cases constructor_
    · exact right.valueKind (.inl usage)
  · intro meant
    have isMethod_ (call : q.ref.context = .methodCall) : v.kind = .method := by
      have kind := method call
      rw [ApexSymbol.isMethodOrConstructorSymbol,Bool.or_eq_true,decide_eq_true_eq,decide_eq_true_eq] at kind
      exact kind.resolve_right (meant.call call).1
    refine ⟨fun plain => absurd plain several,fun m own => ?_,fun names m some_ parts foreign => ?_,fun call => ?_,
      fun usage => ?_⟩
    · exact ⟨meant.own m own,(fits own.1 (meant.own m own).named).mpr (meant.call own.1).2⟩
    · obtain ⟨T,denotes,declares⟩ := meant.member names m some_ parts foreign
      exact ⟨T,denotes,declares,fun call => ⟨isMethod_ call,(fits call declares.2.1).mpr (meant.call call).2⟩⟩
    · rw [isVariableLike,isMethod_ call]
      rfl
    · obtain usage | access := usage
      · exact meant.value usage
      · intro kind
        have value := variable_ access
        rw [isVariableLike,kind] at value
        cases value

def namedChildren (q : SameFileQuery) (stop : ApexSymbol) : List ApexSymbol :=
  (q.table.byName (toLowerCase q.ref.name)).filter (childOf stop)

theorem mem_byName {s : ApexSymbol} : s ∈ q.table.byName (toLowerCase q.ref.name) ↔
    s ∈ q.table.getAllSymbols ∧ toLowerCase s.name = toLowerCase q.ref.name := by
  rw [FileTable.byName,List.mem_filter,decide_eq_true_eq]

theorem firstNamed_iff {v : ApexSymbol} : q.FirstNamed v ↔
    (q.table.stops q.ref.position).findSome? (fun stop => (q.namedChildren stop).head?) = some v := by
  have childless (s : ApexSymbol) : (q.namedChildren s).head? = none ↔
      ∀ child ∈ q.table.getAllSymbols, toLowerCase child.name = toLowerCase q.ref.name → childOf s child = false := by
    rw [List.head?_eq_none_iff,namedChildren,List.filter_eq_nil_iff]
    simp only [mem_byName,and_imp,Bool.not_eq_true]
  simp only [FirstNamed,List.findSome?_eq_some_iff,childless]
  rfl

theorem lookup_eq : q.table.findSameFileSymbolInScope q.ref.name q.ref.position =
    ((q.table.stops q.ref.position).findSome? fun stop => (q.namedChildren stop).head?).or
      (((q.table.byName (toLowerCase q.ref.name)).find? fun s => s.parentId = .null || s.parentId = .undefined).or
        ((q.table.byName (toLowerCase q.ref.name)).find? ApexSymbol.inTypeSymbolGroup)) :=
  rfl

theorem FirstNamed.lookup {v : ApexSymbol} (first : q.FirstNamed v) :
    q.table.findSameFileSymbolInScope q.ref.name q.ref.position = some v := by
  rw [lookup_eq,firstNamed_iff.mp first,Option.some_or]

theorem firstNamed_or_stray {v : ApexSymbol}
    (found : q.table.findSameFileSymbolInScope q.ref.name q.ref.position = some v) :
    q.FirstNamed v ∨ (∀ w, ¬q.FirstNamed w) ∧ q.Stray v := by
  rw [lookup_eq] at found
  obtain first | ⟨none_,later⟩ := Option.or_eq_some_iff.mp found
  · exact .inl (firstNamed_iff.mpr first)
  · refine .inr ⟨fun w first => ?_,?_⟩
    · rw [firstNamed_iff.mp first] at none_
      cases none_
    · obtain parentless | ⟨-,type⟩ := Option.or_eq_some_iff.mp later
      · obtain ⟨listed,named⟩ := mem_byName.mp (List.mem_of_find?_eq_some parentless)
        have alone := List.find?_some parentless
        rw [Bool.or_eq_true,decide_eq_true_eq,decide_eq_true_eq] at alone
        exact ⟨listed,named,.inl alone⟩
      · obtain ⟨listed,named⟩ := mem_byName.mp (List.mem_of_find?_eq_some type)
        exact ⟨listed,named,.inr (List.find?_some type)⟩

theorem exists_lookup_of_stray {v : ApexSymbol} (stray : q.Stray v) :
    ∃ w, q.table.findSameFileSymbolInScope q.ref.name q.ref.position = some w := by
  obtain ⟨listed,named,kind⟩ := stray
  have member := mem_byName.mpr ⟨listed,named⟩
  rw [← Option.isSome_iff_exists,lookup_eq,Option.isSome_or,Option.isSome_or,Bool.or_eq_true,Bool.or_eq_true,List.find?_isSome,
    List.find?_isSome]
  obtain parentless | type := kind
  · refine .inr (.inl ⟨v,member,?_⟩)
    rw [Bool.or_eq_true,decide_eq_true_eq,decide_eq_true_eq]
    exact parentless
  · exact .inr (.inr ⟨v,member,type⟩)

omit [Runtime] in
theorem not_type_of_kind {s : ApexSymbol} (kind : isVariableLike s = true ∨ isMethod s = true) :
    s.inTypeSymbolGroup = false := by
  rw [isVariableLike,isMethod] at kind
  rw [ApexSymbol.inTypeSymbolGroup]
  cases held : s.kind <;> simp [held] at kind ⊢

theorem not_stray_of_innermost {scope kind : ApexSymbol → Bool} {v : ApexSymbol}
    (innermost : q.table.InnermostDeclaration q.ref.position q.ref.name scope kind v)
    (plain : kind v = true → isVariableLike v = true ∨ isMethod v = true) : ¬q.Stray v := by
  rintro ⟨-,-,parentless | type⟩
  · obtain ⟨b,-,child,-⟩ := innermost.innermost
    have parent : v.parentId = .of b.id := of_decide_eq_true child
    rw [parent] at parentless
    obtain alone | alone := parentless <;> cases alone
  · rw [not_type_of_kind (plain innermost.kind_)] at type
    cases type

theorem right_iff_of_unqualified {v : ApexSymbol} (unqualified : q.ref.parts.length ≤ 1) : q.Right v ↔
    (q.IsValueUse → q.table.InnermostDeclaration q.ref.position q.ref.name (fun _ => true) isVariableLike v) ∧
      (q.ref.context = .methodCall → q.table.InnermostDeclaration q.ref.position q.ref.name isClassBlock isMethod v ∧
        q.FitsArity q.ref.name v) := by
  constructor
  · intro right
    exact ⟨right.value unqualified,fun call => right.call q.ref.name ⟨call,.inl ⟨unqualified,rfl⟩⟩⟩
  · rintro ⟨value,call⟩
    have short (names : List String) (m : String) (some_ : names ≠ []) : q.ref.parts ≠ names ++ [m] := by
      intro split_
      rw [split_,List.length_append,List.length_singleton] at unqualified
      exact some_ (List.length_eq_zero_iff.mp (by omega))
    refine ⟨fun _ => value,?_,fun names m some_ split_ => absurd split_ (short names m some_),fun isCall => ?_,fun isValue => ?_⟩
    · rintro m ⟨isCall,⟨-,rfl⟩ | ⟨this,split_,-⟩⟩
      · exact call isCall
      · exact absurd split_ (short [this] m (List.cons_ne_nil this []))
    · have kind : v.kind = .method := of_decide_eq_true (call isCall).1.kind_
      rw [isVariableLike,kind]
      rfl
    · intro method
      have kind := (value isValue).kind_
      rw [isVariableLike,method] at kind
      cases kind

theorem lookup_right_iff {P : ApexSymbol → Prop} (notStray : ∀ v, P v → ¬q.Stray v) :
    (∀ v, q.table.findSameFileSymbolInScope q.ref.name q.ref.position = some v → P v) ↔
      (∀ v, q.FirstNamed v → P v) ∧ ((∀ v, ¬q.FirstNamed v) → ∀ v, ¬q.Stray v) := by
  constructor
  · intro all
    refine ⟨fun v first => all v first.lookup,fun none_ v stray => ?_⟩
    obtain ⟨w,found⟩ := exists_lookup_of_stray stray
    obtain first | ⟨-,strayToo⟩ := firstNamed_or_stray found
    · exact none_ w first
    · exact notStray w (all w found) strayToo
  · rintro ⟨firsts,strays⟩ v found
    obtain first | ⟨none_,stray⟩ := firstNamed_or_stray found
    · exact firsts v first
    · exact absurd stray (strays none_ v)

omit [Runtime] in
theorem parentSymbol_mem {table : FileTable} {s parent : ApexSymbol} (up : table.parentSymbol s = some parent) :
    parent ∈ table.getAllSymbols := by
  rw [FileTable.parentSymbol] at up
  split at up
  next =>
    split at up
    next => cases up
    next => exact List.mem_reverse.mp (List.mem_of_find?_eq_some up)
  next => cases up

theorem ends (q : SameFileQuery) : (∀ position, q.table.WalkEnds position) ∧
    ∀ s steps, q.table.getAllSymbols.length + 1 ≤ steps →
      chainFrom q.table.parentSymbol steps s = q.table.ancestry s := by
  refine ⟨fun position => FileTable.walkEnds_iff.mpr fun b _ => q.acyclicBlocks b,fun s steps more => ?_⟩
  have ended := (endsWithin_from_iff (fun _ _ => parentSymbol_mem) (Nat.lt_succ_self _)).mpr (q.acyclic s)
  exact chainFrom_stable (fun _ => rfl) ended more

end SameFileQuery

end

/-- `class C { void x() {} Integer x; void go() { x = 1; } }` -/
def methodAndField : List ApexSymbol := [
  { id := "C",name := "C",kind := .class_,parentId := .null,fileUri := "file:///C.cls",location := ⟨⟨1,0,7,1⟩,⟨1,6,1,7⟩⟩ },
  { id := "C.block",name := "block1",kind := .block,scopeType := some .class_,parentId := .of "C",fileUri := "file:///C.cls"
    location := ⟨⟨1,8,7,1⟩,⟨1,8,7,1⟩⟩ },
  { id := "C.x()",name := "x",kind := .method,parentId := .of "C.block",parameters := some [],fileUri := "file:///C.cls"
    location := ⟨⟨2,2,2,13⟩,⟨2,7,2,8⟩⟩ },
  { id := "C.x",name := "x",kind := .field,parentId := .of "C.block",type := some (.simple "Integer"),fileUri := "file:///C.cls"
    location := ⟨⟨3,2,3,12⟩,⟨3,10,3,11⟩⟩ },
  { id := "C.go",name := "go",kind := .method,parentId := .of "C.block",parameters := some [],fileUri := "file:///C.cls"
    location := ⟨⟨4,2,6,3⟩,⟨4,7,4,9⟩⟩ },
  { id := "C.go.block",name := "block2",kind := .block,scopeType := some .method,parentId := .of "C.go"
    fileUri := "file:///C.cls",location := ⟨⟨4,12,6,3⟩,⟨4,12,6,3⟩⟩ }]

/-- The use of `x` in `go`. -/
def useOfField [Runtime] : SameFileQuery where
  file := { table := tableOf methodAndField,resolvedSymbol := fun _ => none }
  ref := { name := "x",context := .variableUsage,location := ⟨⟨5,4,5,5⟩,⟨5,4,5,5⟩⟩ }
  acyclicBlocks := by
    have listed : ∀ b ∈ (tableOf methodAndField).filedBlocks,
        endsWithin (tableOf methodAndField).parentBlock (fun _ => false) 6 b = true := by decide
    intro b
    refine not_loops_of_endsWithin (n := 7) (endsWithin_succ_iff.mpr (.inr fun c up => ?_))
    exact listed c (FileTable.mem_filedBlocks up)
  acyclic := by
    have listed : ∀ s ∈ (tableOf methodAndField).getAllSymbols,
        endsWithin (tableOf methodAndField).parentSymbol (fun _ => false) 7 s = true := by decide
    intro s
    refine not_loops_of_endsWithin (n := 8) (endsWithin_succ_iff.mpr (.inr fun c up => ?_))
    exact listed c (SameFileQuery.parentSymbol_mem up)
  typeNamed _ := none
  named _ _ absent := absurd absent (Option.some_ne_none _).symm

end ApexLs.Resolution
