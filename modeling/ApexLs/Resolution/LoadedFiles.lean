import ApexLs.Collections.VisitedWalks
import ApexLs.Resolution.BlockRanges
import ApexLs.Resolution.LexicalReferences
import ApexLs.Utils.Runtime

/-! The files that are loaded: the symbols by their names, the tables of the files, and the superclasses of the classes. -/
namespace ApexLs.Resolution

open ApexLs.Collections ApexLs.Types ApexLs.Utils

/-- The symbols that are found by their names, in the order of the name index, and the tables of the files. -/
structure LoadedFiles where
  symbols : List ApexSymbol
  getSymbolTableForFile : String → Option FileTable

def lastSegment (text : String) : String := String.ofList ((text.toList.splitOn '.').getLastD [])

namespace LoadedFiles

variable (files : LoadedFiles)

def findSymbolByName [Runtime] (name : String) : List ApexSymbol :=
  if isApexKeyword name then [] else files.symbols.filter fun s => !s.isBlockSymbol && toLowerCase s.name = toLowerCase name

def findSymbolByFQN [Runtime] (fqn : String) : Option ApexSymbol :=
  files.symbols.find? fun s => !s.isBlockSymbol && s.fqn.map toLowerCase = some (toLowerCase fqn)

/-- A file's symbols: without a table, those that are found by their names. -/
def findSymbolsInFile (fileUri : String) : List ApexSymbol :=
  match files.getSymbolTableForFile fileUri with
  | some symbolTable => symbolTable.getAllSymbols
  | none => []

/-- The type's own block declares the member: no block of an inner type, of a member or of another type in the file does. -/
def Declares (type member : ApexSymbol) : Prop :=
  ∃ symbolTable, files.getSymbolTableForFile type.fileUri = some symbolTable ∧ member ∈ symbolTable.getAllSymbols ∧
    ∃ block ∈ symbolTable.getAllSymbols, isClassBlock block = true ∧ childOf type block = true ∧ childOf block member = true

theorem mem_of_findSymbolByName [Runtime] {name : String} {s : ApexSymbol} (found : s ∈ files.findSymbolByName name) :
    s ∈ files.symbols := by
  rw [findSymbolByName] at found
  split at found
  next => exact absurd found List.not_mem_nil
  next => exact List.mem_of_mem_filter found

end LoadedFiles

structure Superclasses [Runtime] (files : LoadedFiles) where
  superclass : ApexSymbol → Option ApexSymbol
  named : ∀ c superClass, superclass c = some superClass → superClass ∈ files.symbols ∧ superClass.kind = .class_ ∧
    ∃ text, c.superClass = some text ∧ toLowerCase superClass.name = toLowerCase (lastSegment text)

/-- The chain of superclasses, from the superclass of the class up. -/
def Superclasses.above [Runtime] {files : LoadedFiles} (supers : Superclasses files) (c : ApexSymbol) : Nat → Option ApexSymbol :=
  along supers.superclass (supers.superclass c)

theorem named_of_written [Runtime] {files : LoadedFiles} {text : String} {base c superClass : ApexSymbol}
    (loaded : base ∈ files.symbols) (kind : base.kind = .class_) (named : toLowerCase base.name = toLowerCase (lastSegment text))
    (names : (if c.superClass = some text then some base else none) = some superClass) :
    superClass ∈ files.symbols ∧ superClass.kind = .class_ ∧
      ∃ text, c.superClass = some text ∧ toLowerCase superClass.name = toLowerCase (lastSegment text) := by
  split at names
  next written =>
    cases names
    exact ⟨loaded,kind,text,written,named⟩
  next => cases names

/-- The innermost class around a position: its block lies within every other class block around it. -/
structure CallerAt (table : FileTable) (position : Position) where
  block : ApexSymbol
  caller : ApexSymbol
  around : block ∈ table.containingBlocks position ∧ isClassBlock block = true
  innermost : ∀ b ∈ table.containingBlocks position, isClassBlock b = true →
    Within block.location.symbolRange b.location.symbolRange
  owns : childOf caller block = true ∧ caller ∈ table.getAllSymbols ∧ caller.kind = .class_

def tableOf (symbols : List ApexSymbol) : FileTable where
  heap r := match r with | .declared i => symbols.getD i default | .scalar _ => default
  table :=
    { symbolArray := (List.range symbols.length).map .declared
      symbolMap := symbols.zipIdx.foldl (fun filed s => filed.set s.1.id (.single (.declared s.2))) .empty }

end ApexLs.Resolution
