import ApexLs.Utils.Runtime

/-! Symbol identifiers. An identifier is the file's URI, `#`, the dotted name, and for a
method or constructor with parameters `#` and its signature; `$` and a kind follow where
a name alone is ambiguous. -/
namespace ApexLs.Types

open ApexLs.Utils

/-- The leftmost occurrence of `needle`, as what stands before and after it. -/
def breakOn (needle : List Char) : List Char → Option (List Char × List Char)
  | [] => if needle = [] then some ([],[]) else none
  | c :: rest =>
    if needle.isPrefixOf (c :: rest) then some ([],(c :: rest).drop needle.length)
    else (breakOn needle rest).map (fun p => (c :: p.1,p.2))

def includes (s : List Char) (needle : String) : Bool := (breakOn needle.toList s).isSome

def isAsciiLetter (c : Char) : Bool := ('a' ≤ c && c ≤ 'z') || ('A' ≤ c && c ≤ 'Z')

def isSchemeChar (c : Char) : Bool := isAsciiLetter c || c.isDigit || c ∈ ['+','.','-']

/-- `/^[a-zA-Z][a-zA-Z0-9+.-]+:\//` -/
def hasSingleSlashScheme : List Char → Bool
  | [] => false
  | c :: rest => isAsciiLetter c && !(rest.takeWhile isSchemeChar).isEmpty &&
      [':','/'].isPrefixOf (rest.dropWhile isSchemeChar)

def hasUriScheme (uri : String) : Bool := includes uri.toList "://" || hasSingleSlashScheme uri.toList

def createFileUri (fileUri : String) : String :=
  if hasUriScheme fileUri then fileUri else "file://" ++ fileUri

def createApexLibUri (resourcePath : String) : String :=
  "apexlib://resources/StandardApexLibrary/" ++ resourcePath

/-- `/\.cls$/i`: the stem and the extension as written. -/
def splitClsExtension (path : List Char) : Option (List Char × List Char) :=
  let stem := path.take (path.length - 4)
  let extension := path.drop (path.length - 4)
  if extension.map Char.toLower = ".cls".toList then some (stem,extension) else none

def normalizeApexPath (path : String) : String :=
  let normalized := path.toList.map (fun c => if c = '\\' then '/' else c)
  let (stem,extension) := (splitClsExtension normalized).getD (normalized,".cls".toList)
  let stem := if '.' ∈ stem ∧ '/' ∉ stem then stem.map (fun c => if c = '.' then '/' else c) else stem
  String.ofList (stem ++ extension)

def convertToUri [Runtime] (fileUri : String) : String :=
  if hasUriScheme fileUri then fileUri
  else
    let normalizedPath := normalizeApexPath fileUri
    let chars := normalizedPath.toList
    if '/' ∈ chars ∧ ".cls".toList.isSuffixOf chars ∧
        isStdApexNamespace (String.ofList (chars.takeWhile (· ≠ '/'))) then
      createApexLibUri normalizedPath
    else createFileUri fileUri

structure ParameterInfo where
  type : String
  name : Option String := none
  deriving DecidableEq, Repr, Inhabited

def isLineTerminator (c : Char) : Bool := c ∈ ['\n','\r','\u2028','\u2029']

def isWhiteSpace (c : Char) : Bool :=
  isLineTerminator c || c ∈ ['\t','\x0b','\x0c',' ','\u00a0','\ufeff','\u1680','\u202f','\u205f','\u3000'] ||
    ('\u2000' ≤ c && c ≤ '\u200a')

def removeNamespace (typeName : List Char) : List Char :=
  (typeName.reverse.takeWhile (· ≠ '.')).reverse

def genericMatch (typeName : List Char) : Option (List Char × List Char) :=
  let baseType := typeName.takeWhile (· ≠ '<')
  let genericPart := typeName.dropWhile (· ≠ '<')
  if baseType ≠ [] ∧ 3 ≤ genericPart.length ∧ genericPart.getLast? = some '>' ∧
      ((genericPart.drop 1).dropLast.any isLineTerminator) = false then
    some (baseType,genericPart)
  else none

def normalizeTypeName (typeName : String) : String :=
  let trimmed := ((typeName.toList.dropWhile isWhiteSpace).reverse.dropWhile isWhiteSpace).reverse
  let normalized := match genericMatch trimmed with
    | some (baseType,genericPart) => removeNamespace baseType ++ genericPart
    | none => removeNamespace trimmed
  String.ofList (normalized.filter (fun c => !isWhiteSpace c))

def normalizeSignature (parameters : List ParameterInfo) : String :=
  "(" ++ ",".intercalate (parameters.map (fun p => normalizeTypeName p.type)) ++ ")"

def generateSymbolId [Runtime] (name fileUri : String) (scopePath : List String := [])
    (kindPrefix : String := "") (parameters : List ParameterInfo := []) (namespace_ : String := "") : String :=
  let uri := convertToUri fileUri
  let qualifiedName :=
    if namespace_ ≠ "" ∧ scopePath = [] then namespace_ ++ "." ++ name
    else if scopePath ≠ [] then ".".intercalate (scopePath ++ [name])
    else name
  let signature := if parameters = [] then "" else "#" ++ normalizeSignature parameters
  let disambiguator := if kindPrefix = "" then "" else "$" ++ kindPrefix
  uri ++ "#" ++ qualifiedName ++ signature ++ disambiguator

def fileExtensions : List String := [".cls",".trigger",".apex",".soql",".page",".component",".app"]

/-- `/\.(cls|trigger|apex|soql|page|component|app)/`: the text up to the end of the leftmost
match, and the text after it. -/
def breakAfterExtension : List Char → Option (List Char × List Char)
  | [] => none
  | c :: rest =>
    match fileExtensions.find? (fun e => e.toList.isPrefixOf (c :: rest)) with
    | some e => some (e.toList,(c :: rest).drop e.toList.length)
    | none => (breakAfterExtension rest).map (fun p => (c :: p.1,p.2))

/-- `head` and what follows up to the next `#`, where there is one. -/
def cutAtHash (head rest : List Char) : Option (List Char) :=
  (breakOn ['#'] rest).map (fun p => head ++ p.1)

def extractChars (uri : List Char) : List Char :=
  let byExtension := (breakAfterExtension uri).bind (fun p => cutAtHash p.1 p.2)
  let byScheme := (breakOn "://".toList uri).bind (fun p => cutAtHash (p.1 ++ "://".toList) p.2)
  ((byExtension.or byScheme).or (cutAtHash [] uri)).getD uri

def extractFilePathFromUri (uri : String) : String := String.ofList (extractChars uri.toList)

structure ParsedSymbolId where
  uri : String
  scopePath : List String
  name : String
  signature : Option String
  qualifiedName : String
  deriving DecidableEq, Repr

def parseSymbolPart (uri symbolPart : List Char) : ParsedSymbolId :=
  let parts := symbolPart.splitOn '#'
  let qualifiedName := parts.headD []
  let nameParts := qualifiedName.splitOn '.'
  { uri := String.ofList uri
    scopePath := nameParts.dropLast.map String.ofList
    name := String.ofList (nameParts.getLastD [])
    signature := parts[1]?.map (fun part => String.ofList (part.takeWhile (· ≠ '$')))
    qualifiedName := String.ofList qualifiedName }

def parseSymbolId (id : String) : Option ParsedSymbolId :=
  let uri := extractChars id.toList
  if uri = id.toList then none else some (parseSymbolPart uri (id.toList.drop (uri.length + 1)))

example : (parseSymbolId "file:///a/Foo.cls#Foo.bar#(String)").map ParsedSymbolId.name = some "bar" := by decide

end ApexLs.Types
