import ApexLs.Resolution.BlockRanges
import ApexLs.Types.SymbolTableIndexes

/-! Tables built scope by scope. The parent id of a class or method scope is redirected to the symbol of the class or
method; `lookupInScopeChain` follows these ids, so it does not get past such a scope. -/
namespace ApexLs.Types

open ApexLs.Utils

def ScopeType.text : ScopeType → String
  | .file => "file"
  | .class_ => "class"
  | .method => "method"
  | .block => "block"
  | .if_ => "if"
  | .while_ => "while"
  | .for_ => "for"
  | .doWhile => "doWhile"
  | .try_ => "try"
  | .catch_ => "catch"
  | .finally_ => "finally"
  | .switch => "switch"
  | .when_ => "when"
  | .runAs => "runAs"
  | .getter => "getter"
  | .setter => "setter"

def createScopeSymbol [Runtime] (name : String) (scopeType : ScopeType) (location : SymbolLocation) (fileUri : String)
    (parentId : ParentId) (scopePath : List String) : ApexSymbol :=
  let id := generateSymbolId name fileUri scopePath "block"
  { id := id
    name := name
    kind := .block
    location := if scopeType = .file then location else ⟨location.symbolRange,location.symbolRange⟩
    fileUri := fileUri
    parentId := parentId
    key := { keyPrefix := scopeType.text,name := name,path := fileUri :: scopePath ++ [name],unifiedId := some id,
             fileUri := some fileUri,kind := some .block }
    scopeType := some scopeType }

end ApexLs.Types

namespace ApexLs.Resolution

open ApexLs.Utils ApexLs.Types ApexLs.Collections

namespace FileTable

def getSymbolsInScope (t : FileTable) (scopeId : ParentId) : List ApexSymbol := t.getAllSymbols.filter (·.parentId = scopeId)

def findSymbolInScope (t : FileTable) (scopeId : ParentId) (name : String) : Option ApexSymbol :=
  (t.getSymbolsInScope scopeId).find? (·.name = name)

def scopeChain (t : FileTable) (scope : ApexSymbol) : List ApexSymbol := t.blocksAround (t.getAllSymbols.length + 1) scope

def lookupInScopeChain (t : FileTable) (name : String) (startingScope : Option ApexSymbol) : Option ApexSymbol :=
  ((startingScope.elim [] t.scopeChain).findSome? fun scope => t.findSymbolInScope (.of scope.id) name).or
    (t.findSymbolInScope .null name)

def getCurrentScopePath (t : FileTable) (currentScope : Option ApexSymbol) : List String :=
  (currentScope.elim [] t.scopeChain).reverse.flatMap fun current =>
    if current.isBlockSymbol && current.scopeType.isSome then ["block",current.name] else [current.name]

def scopeId (scope : Option ApexSymbol) : ParentId := scope.elim .null (.of ·.id)

def semanticSymbol (t : FileTable) (name : String) (scopeType : ScopeType) (parentScope : Option ApexSymbol) :
    Option ApexSymbol :=
  match scopeType with
  | .method => t.getAllSymbols.reverse.find? fun s => s.name = name && s.kind ≠ .block && s.isMethodOrConstructorSymbol
  | .class_ =>
    ((t.findSymbolInScope (scopeId parentScope) name).filter (·.inTypeSymbolGroup)).or
      (t.getAllSymbols.reverse.find? fun s => s.name = name && s.kind ≠ .block && s.inTypeSymbolGroup)
  | _ => none

end FileTable

structure Entered where
  scope : Ref
  parent : Option Nat
  deriving DecidableEq, Repr

/-- A table being built. Every symbol is a new object; the scopes are numbered as they are entered. -/
structure ScopeBuild where
  heap : Heap
  table : SymbolTable := {}
  next : Nat := 0
  scopes : List Entered := []

inductive ScopeStep where
  | enterScope (name : String) (scopeType : ScopeType) (location : Option SymbolLocation) (fileUri : Option String)
      (parentScope : Option Nat)
  | addSymbol (symbol : ApexSymbol) (currentScope : Option Nat)

namespace ScopeBuild

def fileTable (s : ScopeBuild) : FileTable := ⟨s.heap,s.table⟩

def scopeAt (s : ScopeBuild) (i : Nat) : Option ApexSymbol := (s.scopes[i]?).map fun e => s.heap e.scope

def parentOf (s : ScopeBuild) (i : Nat) : Option Nat := (s.scopes[i]?).bind Entered.parent

section

variable [Runtime]

def add (s : ScopeBuild) (symbol : ApexSymbol) (currentScope : Option ApexSymbol) : ScopeBuild :=
  let added := s.table.addSymbol (s.heap.put (.declared s.next) symbol) (.declared s.next) (currentScope.map (·.id))
  { s with heap := added.1, table := added.2, next := s.next + 1 }

def enterScope (s : ScopeBuild) (name : String) (scopeType : ScopeType) (location : Option SymbolLocation)
    (fileUri : Option String) (parent : Option Nat) : ScopeBuild :=
  match location with
  | none => s
  | some location =>
    let parentScope := parent.bind s.scopeAt
    let effectiveFileUri := orElse fileUri s.table.fileUri
    let currentScopePath := s.fileTable.getCurrentScopePath parentScope
    let parentId := (s.fileTable.semanticSymbol name scopeType parentScope).elim (FileTable.scopeId parentScope) (.of ·.id)
    let scopeSymbol := createScopeSymbol name scopeType location effectiveFileUri parentId currentScopePath
    { s.add scopeSymbol parentScope with scopes := s.scopes ++ [⟨.declared s.next,parent⟩] }

def step (s : ScopeBuild) : ScopeStep → ScopeBuild
  | .enterScope name scopeType location fileUri parentScope => s.enterScope name scopeType location fileUri parentScope
  | .addSymbol symbol currentScope => s.add symbol (currentScope.bind s.scopeAt)

end

def start (heap : Heap) (fileUri : String) : ScopeBuild := { heap := heap, table := { fileUri := fileUri } }

end ScopeBuild

def BlockId (id : String) : Prop := "$block".toList <:+ id.toList

instance : DecidablePred BlockId := fun id => inferInstanceAs (Decidable ("$block".toList <:+ id.toList))

namespace ScopeBuild

/-- A new scope lies in the one it is entered in, starts after it, and stands apart from the others in there. -/
structure Nests (s : ScopeBuild) (range : Range) (parent : Option Nat) : Prop where
  inside : ∀ j ∈ parent, ∃ outer ∈ s.scopeAt j,
    Within range outer.location.symbolRange ∧ Resolution.start outer.location.symbolRange < Resolution.start range
  apart : ∀ e ∈ s.scopes, e.parent = parent → Apart (s.heap e.scope).location.symbolRange range

/-- Scopes nest properly, and what is declared is no block and has no block's id. -/
def Fits [Runtime] (s : ScopeBuild) : ScopeStep → Prop
  | .enterScope _ _ location _ parentScope => ∀ l ∈ location, s.Nests l.symbolRange parentScope
  | .addSymbol symbol _ => symbol.kind ≠ .block ∧ ¬ BlockId (synchronizeKey symbol).id

end ScopeBuild
end ApexLs.Resolution
