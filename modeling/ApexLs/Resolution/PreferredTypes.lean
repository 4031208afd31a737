import ApexLs.Resolution.ScopeLookup
import ApexLs.Types.TypeReferences
import ApexLs.Utils.Text

/-! The names that stand for a type, and the type that a lookup prefers for them: one of the file before one of
another file. -/
namespace ApexLs.Resolution

open ApexLs.Utils ApexLs.Types ApexLs.Collections

inductive ReferenceContext where
  | methodCall | classReference | typeDeclaration | fieldAccess | constructorCall | variableUsage | parameterType
  | variableDeclaration | genericParameterType | castTypeReference | instanceofTypeReference | chainStep | namespace_
  | returnType | propertyReference | literal | inheritance | interfaceImplementation | keywordUsage | soqlFromType
  deriving DecidableEq, Repr

structure ChainNode where
  name : String
  location : SymbolLocation
  context : ReferenceContext
  resolvedSymbolId : Option String := none
  indexedAccess : Bool := false
  deriving DecidableEq, Repr

abbrev GenericTypeSubstitutionMap := List (String × String)

/-- What the manager provides. The lookup may load files, so it reads and changes the state. -/
structure SymbolManagerOps (σ : Type) where
  findSymbolByName : String → StateM σ (List ApexSymbol)

def isVariableLike (s : ApexSymbol) : Bool :=
  s.kind = .variable || s.kind = .field || s.kind = .parameter || s.kind = .property

def identifierStart (step : ChainNode) : Position :=
  ⟨step.location.identifierRange.startLine,step.location.identifierRange.startColumn⟩

def given (fileUri : Option String) : Option String := fileUri.filter (· ≠ "")

def isStandardApexUri (uri : String) : Bool := "apexlib://".toList.isPrefixOf uri.toList

section

variable [Runtime]

def createGenericTypeSubstitutionMap (receiverType : Option TypeInfo) : Option GenericTypeSubstitutionMap :=
  receiverType.bind fun t =>
    let element := (t.typeParameters.head?.map TypeInfo.name).filter (· ≠ "")
    if toLowerCase t.name = "map" then
      match (t.keyType.map TypeInfo.name).filter (· ≠ ""),element with
      | some keyType,some valueType => some [("K",keyType),("V",valueType)]
      | _,_ => none
    else if toLowerCase t.name = "list" || toLowerCase t.name = "set" then
      element.map fun elementType => [("T",elementType)]
    else none

/-- `/<.*>/g` replaced by nothing: up to the last closing bracket of the line. -/
def removeGenerics : Nat → List Char → List Char
  | fuel + 1,c :: rest =>
    let line := rest.takeWhile (fun c => !isLineTerminator c)
    if c = '<' ∧ '>' ∈ line then
      removeGenerics fuel (rest.drop (line.length - (line.reverse.takeWhile (· ≠ '>')).length))
    else c :: removeGenerics fuel rest
  | _,chars => chars

def normalizeTypeNameForLookup (typeName : String) : String :=
  let trimmed := (trim typeName).toList
  let plain := removeGenerics trimmed.length trimmed
  String.ofList (if "[]".toList.isSuffixOf plain then plain.take (plain.length - 2) else plain)

def pushCandidate (candidates : List String) (value : String) : List String :=
  let trimmed := trim value
  if trimmed = "" ∨ toLowerCase trimmed ∈ candidates.map toLowerCase then candidates else candidates ++ [trimmed]

/-- `name.split('.')` without empty parts. -/
def nameParts (name : String) : List String := ((name.toList.splitOn '.').filter (· ≠ [])).map String.ofList

def buildTypeLookupCandidates (typeName : String) : List String :=
  let normalized := normalizeTypeNameForLookup typeName
  let parts := nameParts normalized
  let suffixes := (List.range (parts.length - 1)).map fun i => ".".intercalate (parts.drop (i + 1))
  (normalized :: (if parts.length > 1 then suffixes ++ parts.getLast?.toList else [])).foldl pushCandidate []

def sameName (a b : String) : Bool := toLowerCase a = toLowerCase b

/-- Whether a type of the file has the name, or the fully qualified name, or the last part of it inside a type
of the part before. -/
def matchesCandidate (localTypeSymbols : List ApexSymbol) (candidate : String) (symbol : ApexSymbol) : Bool :=
  let parts := (nameParts candidate).reverse
  sameName symbol.name candidate || symbol.fqn.any (fun fqn => fqn ≠ "" && sameName fqn candidate) ||
    match parts,symbol.parentId with
    | last :: outer :: _,.of parentId =>
      sameName symbol.name last && parentId ≠ "" &&
        (localTypeSymbols.reverse.find? (fun s => s.id = parentId)).any (fun parent => sameName parent.name outer)
    | _,_ => false

variable {σ : Type} (ops : SymbolManagerOps σ)

def findTypeByName (normalizedUri : Option String) : List String → StateM σ (Option ApexSymbol)
  | [] => pure none
  | candidate :: rest => do
    let typeCandidates := (← ops.findSymbolByName candidate).filter ApexSymbol.inTypeSymbolGroup
    match (typeCandidates.find? (fun s => normalizedUri = some s.fileUri)).or typeCandidates.head? with
    | some s => pure (some s)
    | none => findTypeByName normalizedUri rest

def resolvePreferredTypeSymbolForLookup (rawTypeName : String) (fileUri : Option String) (symbolTable : Option FileTable) :
    StateM σ (Option ApexSymbol) :=
  let candidates := buildTypeLookupCandidates rawTypeName
  let normalizedUri := (given fileUri).map fun uri => extractFilePathFromUri (createFileUri uri)
  let localTypeSymbols := (symbolTable.elim [] FileTable.getAllSymbols).filter ApexSymbol.inTypeSymbolGroup
  match candidates.findSome? (fun candidate => localTypeSymbols.find? (matchesCandidate localTypeSymbols candidate)) with
  | some localMatch => pure (some localMatch)
  | none => findTypeByName ops normalizedUri candidates

end

end ApexLs.Resolution
