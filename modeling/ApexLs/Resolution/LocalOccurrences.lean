import ApexLs.Collections.Groups
import ApexLs.Resolution.ScopeLookup
import ApexLs.Symbols.ReferenceCoherence
import ApexLs.Types.TableReferences

/-! The occurrences of a local variable or parameter in its file. The cursor gives a name, the name a declaration, and the
declaration the usages of its name that are bound to it. -/
namespace ApexLs.Resolution

open ApexLs.Utils ApexLs.Types ApexLs.Collections
open ApexLs.Symbols (toString_injective)

def leafOf (name : String) : String := String.ofList ((name.toList.splitOn '.').getLastD [])

def contextsForKind : SymbolKind → List ReferenceContext
  | .method => [.methodCall]
  | .constructor => [.constructorCall]
  | .class_ => [.classReference,.typeDeclaration,.constructorCall,.parameterType,.returnType,.castTypeReference,
      .instanceofTypeReference,.genericParameterType,.inheritance,.interfaceImplementation]
  | .interface => [.classReference,.typeDeclaration,.parameterType,.returnType,.interfaceImplementation,
      .genericParameterType]
  | .enum => [.classReference,.typeDeclaration,.parameterType,.returnType]
  | .field | .property => [.fieldAccess,.variableUsage]
  | .variable | .parameter => [.variableUsage]
  | _ => [.methodCall,.constructorCall,.classReference,.typeDeclaration,.fieldAccess,.variableUsage,.parameterType,.returnType]

/-- `startLine:startColumn:endLine:endColumn` -/
def rangeKey (r : Range) : String :=
  ":".intercalate [toString r.startLine,toString r.startColumn,toString r.endLine,toString r.endColumn]

theorem rangeKey_injective {a b : Range} (same : rangeKey a = rangeKey b) : a = b := by
  have chars (r : Range) : (rangeKey r).toList.splitOn ':' =
      [toString r.startLine,toString r.startColumn,toString r.endLine,toString r.endColumn].map String.toList := by
    rw [rangeKey,String.toList_intercalate]
    refine List.splitOn_intercalate ':' ?_ (by simp)
    intro part member separator
    obtain ⟨numeral,listed,rfl⟩ := List.mem_map.mp member
    have digit : ∃ n : Nat, numeral = toString n := by
      simp only [List.mem_cons,List.not_mem_nil,or_false] at listed
      rcases listed with rfl | rfl | rfl | rfl <;> exact ⟨_,rfl⟩
    obtain ⟨n,rfl⟩ := digit
    exact absurd (numeral_digit n _ separator) (by decide)
  have parts := (chars a).symm.trans ((congrArg (fun k : String => k.toList.splitOn ':') same).trans (chars b))
  simp only [List.map_cons,List.map_nil,List.cons.injEq,String.toList_inj,and_true] at parts
  obtain ⟨startLine,startColumn,endLine,endColumn⟩ := parts
  obtain ⟨a₁,a₂,a₃,a₄⟩ := a
  obtain ⟨b₁,b₂,b₃,b₄⟩ := b
  rw [Range.mk.injEq]
  exact ⟨toString_injective startLine,toString_injective startColumn,toString_injective endLine,toString_injective endColumn⟩

def flattenReferences (references : List TableReference) : List ReferenceNode :=
  references.flatMap fun ref => ref.toReferenceNode :: ref.chainNodes.getD []

/-- A reference to the name of a symbol in one of the contexts of its kind. -/
def refersTo [Runtime] (target : ApexSymbol) (ref : ReferenceNode) : Bool :=
  ref.context ∈ contextsForKind target.kind && toLowerCase ref.name = toLowerCase (leafOf target.name)

def usages [Runtime] (references : List TableReference) (target : ApexSymbol) : List ReferenceNode :=
  if toLowerCase (leafOf target.name) = "" then [] else (flattenReferences references).filter (refersTo target)

def findOccurrencesInFile [Runtime] (references : List TableReference) (target : ApexSymbol) : List ReferenceNode :=
  firsts (fun ref => rangeKey ref.location.identifierRange) (usages references target)

def isLocalKind (s : ApexSymbol) : Bool := s.kind = .variable || s.kind = .parameter

def isPositionInIdentifierRange (position : Position) (r : Range) : Bool :=
  position.line ≥ r.startLine && position.line ≤ r.endLine && position.character ≥ r.startColumn &&
    position.character ≤ r.endColumn

def positionInRange (position : Position) (location : SymbolLocation) : Bool :=
  isPositionInIdentifierRange position location.identifierRange

/-- The references at a position, and after them the calls and field accesses among the nodes of their chains that are there. -/
def getReferencesAtPosition (references : List TableReference) (position : Position) : List ReferenceNode :=
  let matched := references.filter fun ref =>
    positionInRange position ref.location || (ref.chainNodes.getD []).any fun node => positionInRange position node.location
  let syntheticRefs := matched.flatMap fun ref => (ref.chainNodes.getD []).filter fun node =>
    positionInRange position node.location && (node.context = .methodCall || node.context = .fieldAccess)
  matched.map TableReference.toReferenceNode ++ syntheticRefs

section

variable [Runtime] (table : FileTable) (references : List TableReference) (position : Position)

def isMemberAccess (r : ReferenceNode) : Bool := r.context = .fieldAccess || r.context = .propertyReference

def localKindById (id : String) : Bool := (table.symbolAt id).any isLocalKind

omit [Runtime] in
def symbolNameAtPosition : Option String :=
  let refs := getReferencesAtPosition references position
  if refs.any isMemberAccess then none
  else
    let localUsage := refs.find? fun r => r.context = .variableUsage && r.resolvedSymbolId.any (localKindById table)
    let bare := refs.find? fun r => !r.name.toList.contains '.'
    let decl := table.getAllSymbols.find? fun s =>
      isLocalKind s && isPositionInIdentifierRange position s.location.identifierRange
    ((localUsage.or bare).map ReferenceNode.name).or (decl.map ApexSymbol.name)

/-- The first variable of a name in the blocks around a position, those that start last first, else at file level. -/
def resolveVariableAtPosition (name : String) : Option ApexSymbol :=
  let nameMatches (s : ApexSymbol) : Bool := toLowerCase s.name = toLowerCase name && isVariableLike s
  let enclosingScopes := (table.getAllSymbols.filter fun s =>
    s.isBlockSymbol && rangeContains s.location.symbolRange position).mergeSort fun a b =>
      let rangeA := a.location.symbolRange
      let rangeB := b.location.symbolRange
      rangeB.startLine < rangeA.startLine || rangeB.startLine = rangeA.startLine && rangeB.startColumn ≤ rangeA.startColumn
  (enclosingScopes.findSome? fun scope => table.getAllSymbols.find? fun s => childOf scope s && nameMatches s).or
    (table.getAllSymbols.find? fun s => s.parentId = .null && nameMatches s)

def localAtPosition : Option ApexSymbol :=
  ((symbolNameAtPosition table references position).filter (· ≠ "")).bind fun cursorName =>
    (resolveVariableAtPosition table position cursorName).filter isLocalKind

structure LocalOccurrences where
  declaration : ApexSymbol
  identifierRanges : List Range

def boundRanges (declaration : ApexSymbol) : List Range :=
  let bound := (findOccurrencesInFile references declaration).filter fun c => c.resolvedSymbolId = some declaration.id
  firsts rangeKey (declaration.location.identifierRange :: bound.map (·.location.identifierRange))

def findLocalOccurrences : Option LocalOccurrences :=
  (localAtPosition table references position).bind fun declaration =>
    if (findOccurrencesInFile references declaration).any fun c => c.resolvedSymbolId.isNone then none
    else some ⟨declaration,boundRanges references declaration⟩

/-- The ranges are distinct, they are those of the declaration and of what is bound to it, and nothing bound to another
declaration has one of them. -/
structure Exact (found : LocalOccurrences) : Prop where
  distinct : found.identifierRanges.Nodup
  bound : ∀ range, range ∈ found.identifierRanges ↔ range = found.declaration.location.identifierRange ∨
    ∃ r ∈ flattenReferences references, r.resolvedSymbolId = some found.declaration.id ∧ r.location.identifierRange = range
  apart : ∀ r ∈ flattenReferences references, ∀ id, r.resolvedSymbolId = some id → id ≠ found.declaration.id →
    r.location.identifierRange ∉ found.identifierRanges

/-- The usage of a local that stands for a place: the first in the file. -/
def usageAt (declaration : ApexSymbol) (range : Range) : Option ReferenceNode :=
  (usages references declaration).find? fun ref => ref.location.identifierRange = range

/-- The usage that stands for the place is bound to the local. -/
def BoundAt (declaration : ApexSymbol) (range : Range) : Prop :=
  ∃ usage, usageAt references declaration range = some usage ∧ usage.resolvedSymbolId = some declaration.id

/-- No usage that stands for a place is left unresolved. -/
def Resolved (declaration : ApexSymbol) : Prop :=
  ∀ range usage, usageAt references declaration range = some usage → usage.resolvedSymbolId ≠ none

/-- Where a reference is bound to the local there is the declaration or a usage of its name that stands for the place, and
nothing bound to another declaration is at these places. -/
structure Covered (declaration : ApexSymbol) : Prop where
  seen : ∀ r ∈ flattenReferences references, r.resolvedSymbolId = some declaration.id →
    r.location.identifierRange ≠ declaration.location.identifierRange → BoundAt references declaration r.location.identifierRange
  alone : ∀ r ∈ flattenReferences references, ∀ id, r.resolvedSymbolId = some id → id ≠ declaration.id →
    r.location.identifierRange ≠ declaration.location.identifierRange ∧
      ¬ BoundAt references declaration r.location.identifierRange

variable {table references position}

theorem mem_findOccurrencesInFile {declaration : ApexSymbol} {usage : ReferenceNode} :
    usage ∈ findOccurrencesInFile references declaration ↔
      usageAt references declaration usage.location.identifierRange = some usage := by
  have keys (a b : ReferenceNode) : rangeKey a.location.identifierRange = rangeKey b.location.identifierRange ↔
      a.location.identifierRange = b.location.identifierRange := ⟨fun same => rangeKey_injective same,congrArg rangeKey⟩
  rw [findOccurrencesInFile,mem_firsts_iff_find?,usageAt]
  simp only [keys]

theorem usageAt_range {declaration : ApexSymbol} (stands : usageAt references declaration range = some usage) :
    usage.location.identifierRange = range := by
  simpa using List.find?_some stands

theorem usageAt_listed {declaration : ApexSymbol} (stands : usageAt references declaration range = some usage) :
    usage ∈ flattenReferences references := by
  have listed := List.mem_of_find?_eq_some stands
  rw [usages] at listed
  split at listed
  · exact absurd listed List.not_mem_nil
  · exact List.mem_of_mem_filter listed

theorem findLocalOccurrences_iff {found : LocalOccurrences} : findLocalOccurrences table references position = some found ↔
    localAtPosition table references position = some found.declaration ∧ Resolved references found.declaration ∧
      found.identifierRanges = boundRanges references found.declaration := by
  have resolved (declaration : ApexSymbol) : ¬ (findOccurrencesInFile references declaration).any
      (fun c => c.resolvedSymbolId.isNone) = true ↔ Resolved references declaration := by
    simp only [List.any_eq_true,mem_findOccurrencesInFile,not_exists,not_and,Option.isNone_iff_eq_none]
    constructor
    · intro all range usage stands
      exact all usage (usageAt_range stands ▸ stands)
    · exact fun all usage stands => all _ usage stands
  rw [findLocalOccurrences,Option.bind_eq_some_iff]
  constructor
  · rintro ⟨declaration,located,result⟩
    split at result
    · simp at result
    next all =>
      obtain rfl := Option.some.inj result
      exact ⟨located,(resolved declaration).mp all,rfl⟩
  · rintro ⟨located,all,ranges⟩
    refine ⟨found.declaration,located,?_⟩
    rw [if_neg ((resolved found.declaration).mpr all),← ranges]

theorem mem_identifierRanges {found : LocalOccurrences} (result : findLocalOccurrences table references position = some found) :
    range ∈ found.identifierRanges ↔
      range = found.declaration.location.identifierRange ∨ BoundAt references found.declaration range := by
  have unique {items : List Range} : range ∈ firsts rangeKey items ↔ range ∈ items := by
    have keys (r : Range) : rangeKey r = rangeKey range ↔ r = range := ⟨fun same => rangeKey_injective same,congrArg rangeKey⟩
    rw [mem_firsts_iff_find?]
    simp only [keys]
    constructor
    · exact List.mem_of_find?_eq_some
    · intro member
      obtain ⟨r,looked⟩ := Option.isSome_iff_exists.mp
        (List.find?_isSome (p := fun r => decide (r = range)).mpr ⟨range,member,by simp⟩)
      obtain rfl : r = range := by simpa using List.find?_some looked
      exact looked
  rw [(findLocalOccurrences_iff.mp result).2.2,boundRanges,unique,List.mem_cons,List.mem_map]
  refine or_congr_right ⟨?_,?_⟩
  · rintro ⟨usage,member,rfl⟩
    obtain ⟨listed,bound⟩ := List.mem_filter.mp member
    exact ⟨usage,mem_findOccurrencesInFile.mp listed,by simpa using bound⟩
  · rintro ⟨usage,stands,bound⟩
    have here := usageAt_range stands
    refine ⟨usage,List.mem_filter.mpr ⟨mem_findOccurrencesInFile.mpr (here ▸ stands),by simpa using bound⟩,here⟩

theorem exact_iff {found : LocalOccurrences} (result : findLocalOccurrences table references position = some found) :
    Exact references found ↔ Covered references found.declaration := by
  have member {range : Range} : range ∈ found.identifierRanges ↔
      range = found.declaration.location.identifierRange ∨ BoundAt references found.declaration range :=
    mem_identifierRanges result
  constructor
  · intro exact_
    constructor
    · intro r listed bound elsewhere
      have renamed := (exact_.bound _).mpr (.inr ⟨r,listed,bound,rfl⟩)
      exact (member.mp renamed).resolve_left elsewhere
    · intro r listed id bound other
      have kept := exact_.apart r listed id bound other
      rwa [member,not_or] at kept
  · intro covered
    constructor
    · rw [(findLocalOccurrences_iff.mp result).2.2]
      exact (firsts_keys_nodup rangeKey _).of_map
    · intro range
      rw [member]
      constructor
      · rintro (rfl | ⟨usage,stands,bound⟩)
        · exact .inl rfl
        · exact .inr ⟨usage,usageAt_listed stands,bound,usageAt_range stands⟩
      · rintro (rfl | ⟨r,listed,bound,rfl⟩)
        · exact .inl rfl
        · by_cases here : r.location.identifierRange = found.declaration.location.identifierRange
          · exact .inl here
          · exact .inr (covered.seen r listed bound here)
    · intro r listed id bound other
      rw [member,not_or]
      exact covered.alone r listed id bound other

/-- The occurrences of a local are exact where what is bound to it is covered. -/
theorem occurrences_exact_iff (table : FileTable) (references : List TableReference) (position : Position) :
    (∀ found, findLocalOccurrences table references position = some found → Exact references found) ↔
      ∀ declaration, localAtPosition table references position = some declaration → Resolved references declaration →
        Covered references declaration := by
  constructor
  · intro exact_ declaration located resolved
    have result : findLocalOccurrences table references position = some ⟨declaration,boundRanges references declaration⟩ :=
      findLocalOccurrences_iff.mpr ⟨located,resolved,rfl⟩
    exact (exact_iff result).mp (exact_ _ result)
  · intro covered found result
    obtain ⟨located,resolved,_⟩ := findLocalOccurrences_iff.mp result
    exact (exact_iff result).mpr (covered _ located resolved)

end

/-- `void go() {` to its closing brace, in `T.cls` -/
def goBlock : ApexSymbol := {
  id := "file:///T.cls:go:block"
  name := "block"
  kind := .block
  scopeType := some .method
  fileUri := "file:///T.cls"
  location := ⟨⟨2,12,5,3⟩,⟨2,12,5,3⟩⟩ }

/-- `Base Acc = new Base();` -/
def accVariable : ApexSymbol := {
  id := "file:///T.cls:go:variable:Acc"
  name := "Acc"
  kind := .variable
  parentId := .of "file:///T.cls:go:block"
  fileUri := "file:///T.cls"
  location := ⟨⟨3,4,3,26⟩,⟨3,9,3,12⟩⟩ }

def goTable : FileTable where
  heap r := if r = .declared 0 then goBlock else accVariable
  table := {
    symbolMap := ⟨[("file:///T.cls:go:block",.single (.declared 0)),("file:///T.cls:go:variable:Acc",.single (.declared 1))],
      by decide⟩
    symbolArray := [.declared 0,.declared 1] }

/-- The receiver of `Acc.save();` starts with a capital, so it is read as a class; it is resolved to the variable. -/
def accReceiver : ReferenceNode := {
  name := "Acc"
  location := ⟨⟨4,4,4,7⟩,⟨4,4,4,7⟩⟩
  context := .classReference
  resolvedSymbolId := some "file:///T.cls:go:variable:Acc" }

def goReferences : List TableReference := [
  { name := "Acc", location := ⟨⟨3,9,3,12⟩,⟨3,9,3,12⟩⟩, context := .variableDeclaration
    resolvedSymbolId := some "file:///T.cls:go:variable:Acc" },
  { name := "Acc.save", location := ⟨⟨4,4,4,12⟩,⟨4,4,4,12⟩⟩, context := .methodCall
    chainNodes := some [accReceiver,{ name := "save", location := ⟨⟨4,8,4,12⟩,⟨4,8,4,12⟩⟩, context := .methodCall }] }]

/-- Renaming the variable leaves the receiver of the call behind. -/
theorem receiver_left_behind : ¬ ∀ (table : FileTable) (references : List TableReference) (position : Position)
    (found : LocalOccurrences), @findLocalOccurrences asciiRuntime table references position = some found →
      Exact references found := by
  intro always
  let _ := asciiRuntime
  have named : symbolNameAtPosition goTable goReferences ⟨3,10⟩ = some "Acc" := by decide
  have around : (goTable.getAllSymbols.filter fun s => s.isBlockSymbol && rangeContains s.location.symbolRange ⟨3,10⟩) =
    [goBlock] := rfl
  have declared : resolveVariableAtPosition goTable ⟨3,10⟩ "Acc" = some accVariable := by
    rw [resolveVariableAtPosition,around,List.mergeSort_singleton]
    rfl
  have located : localAtPosition goTable goReferences ⟨3,10⟩ = some accVariable := by
    rw [localAtPosition,named,Option.filter_some_pos (by decide),Option.bind_some,declared]
    rfl
  have unused : findOccurrencesInFile goReferences accVariable = [] := by decide +kernel
  have result : findLocalOccurrences goTable goReferences ⟨3,10⟩ = some ⟨accVariable,[⟨3,9,3,12⟩]⟩ := by
    rw [findLocalOccurrences,located,Option.bind_some,boundRanges,unused]
    rfl
  have bound := ((always _ _ _ _ result).bound ⟨4,4,4,7⟩).mpr (.inr ⟨accReceiver,by decide,rfl,rfl⟩)
  exact absurd bound (by decide)

end ApexLs.Resolution
