import ApexLs.Collections.GuardedWalk
import ApexLs.Resolution.PreferredTypes
import ApexLs.Resolution.LoadedFiles
import ApexLs.Utils.AsciiBytes

/-! Unqualified calls of inherited methods: the class that the search starts from, and its walk up the names of
superclasses across the loaded files. -/
namespace ApexLs.Resolution.InheritedCalls

open ApexLs.Collections ApexLs.Types ApexLs.Utils

structure CallReference where
  name : String
  context : ReferenceContext
  chained : Bool
  argumentCount : Nat
  location : SymbolLocation
  resolvedSymbolId : Option String := none
  deriving Repr

def CallReference.position (call : CallReference) : Position :=
  ⟨call.location.identifierRange.startLine,call.location.identifierRange.startColumn⟩

section

variable [Runtime] (files : LoadedFiles)

def superclassNamed (superClassName : String) : Option ApexSymbol :=
  ((files.findSymbolByName superClassName).find? fun s => s.kind = .class_).filter fun s => s.fileUri ≠ ""

def classBlock (superClass : ApexSymbol) : Option (List ApexSymbol × ApexSymbol) :=
  (files.getSymbolTableForFile superClass.fileUri).bind fun superTable =>
    (superTable.getAllSymbols.find? fun s => isClassBlock s && childOf superClass s).map fun block =>
      (superTable.getAllSymbols,block)

def methodSpelled (methodName : String) (superSymbols : List ApexSymbol) (superClassBlock : ApexSymbol) : Option ApexSymbol :=
  superSymbols.find? fun s => s.name = methodName && s.kind = .method && childOf superClassBlock s

/-- The search at a superclass ends with a method, goes on to a further name, or is stuck. -/
def atSuperclass (methodName superClassName : String) : Option (ApexSymbol ⊕ String) :=
  (superclassNamed files superClassName).bind fun superClass =>
    (classBlock files superClass).bind fun found =>
      match methodSpelled methodName found.1 found.2 with
      | some method => some (.inl method)
      | none => (superClass.superClass.filter (· ≠ "")).map .inr

/-- The recursion with its set of visited names, which makes fewer steps than there are names. -/
def findMethodInSuperclassChain (methodName superClassName : String) : Option ApexSymbol :=
  guardedWalk id (atSuperclass files methodName) (files.symbols.length + 2) [] superClassName

/-- The superclass that the search starts from: that of the first class block around the call, from the file inwards. -/
def startsFrom (symbolTable : FileTable) (position : Position) : Option String :=
  ((symbolTable.scopeHierarchy position).reverse.find? isClassBlock).bind fun block =>
    (symbolTable.getAllSymbols.find? fun s => childOf s block && s.kind = .class_).bind fun classSymbol =>
      classSymbol.superClass.filter (· ≠ "")

def resolveCall (symbolTable : FileTable) (ref : CallReference) : CallReference :=
  if ref.resolvedSymbolId.any (· ≠ "") || ref.chained || ref.context ≠ .methodCall then ref
  else
    match (startsFrom symbolTable ref.position).bind (findMethodInSuperclassChain files ref.name) with
    | none => ref
    | some resolved => { ref with resolvedSymbolId := some resolved.id }

def resolveInheritedMethodCallsEffect (symbolTable : FileTable) (refs : List CallReference) : List CallReference :=
  refs.map (resolveCall files symbolTable)

/-- An unqualified call that is unresolved, and the superclass of every class. No method of the file satisfies the call. -/
structure InheritedCall where
  files : LoadedFiles
  table : FileTable
  call : CallReference
  unresolved : call.resolvedSymbolId = none
  unchained : call.chained = false
  calls : call.context = .methodCall
  inside : CallerAt table call.position
  supers : Superclasses files
  unsatisfied : ∀ s ∈ table.getAllSymbols, s.kind = .method → toLowerCase s.name = toLowerCase call.name →
    (s.parameters.getD []).length ≠ call.argumentCount

namespace InheritedCall

variable (q : InheritedCall)

def outcome : CallReference := resolveCall q.files q.table q.call

def Declares (c method : ApexSymbol) : Prop :=
  q.files.Declares c method ∧ method.kind = .method ∧ toLowerCase method.name = toLowerCase q.call.name ∧
    (method.parameters.getD []).length = q.call.argumentCount

/-- Such a method of the first class on the chain that declares one. -/
def Nearest (method : ApexSymbol) : Prop :=
  ∃ i c, q.supers.above q.inside.caller i = some c ∧ q.Declares c method ∧
    ∀ j < i, ∀ nearer, q.supers.above q.inside.caller j = some nearer → ∀ other, ¬q.Declares nearer other

/-- The call is bound to the nearest superclass that declares the method, or to none; the walks end. -/
structure BindsNearest : Prop where
  ends : q.table.WalkEnds q.call.position
  settled : ∀ superClassName steps, q.files.symbols.length + 2 ≤ steps →
    guardedWalk id (atSuperclass q.files q.call.name) steps [] superClassName =
      findMethodInSuperclassChain q.files q.call.name superClassName
  bound : (∃ method, q.Nearest method) → ∃ method, q.Nearest method ∧ q.outcome.resolvedSymbolId = some method.id
  unbound : (¬∃ method, q.Nearest method) → q.outcome.resolvedSymbolId = none

/-- Going from the superclass text of the outermost class from name to name, where each stands for the first class so
named, the first class with a method spelled as the call has this one. -/
def Met (found : ApexSymbol) : Prop :=
  ∃ superClassName, startsFrom q.table q.call.position = some superClassName ∧
    ∃ n, AnswersIn (atSuperclass q.files q.call.name) n superClassName found

end InheritedCall

variable {files}

theorem further_mem {methodName superClassName further : String}
    (onward : atSuperclass files methodName superClassName = some (.inr further)) :
    further ∈ files.symbols.filterMap ApexSymbol.superClass := by
  rw [atSuperclass] at onward
  obtain ⟨superClass,named,at_⟩ := Option.bind_eq_some_iff.mp onward
  obtain ⟨found,-,goes⟩ := Option.bind_eq_some_iff.mp at_
  split at goes
  next => cases goes
  next =>
    obtain ⟨text,written,⟨⟩⟩ := Option.map_eq_some_iff.mp goes
    obtain ⟨written,-⟩ := Option.filter_eq_some_iff.mp written
    refine List.mem_filterMap.mpr ⟨superClass,?_,written⟩
    obtain ⟨first,-⟩ := Option.filter_eq_some_iff.mp named
    exact files.mem_of_findSymbolByName (List.mem_of_find?_eq_some first)

omit [Runtime] in
theorem length_further : (files.symbols.filterMap ApexSymbol.superClass).length + 2 ≤ files.symbols.length + 2 :=
  Nat.add_le_add_right (List.length_filterMap_le _ _) 2

theorem findMethodInSuperclassChain_eq_some {methodName superClassName : String} {method : ApexSymbol} :
    findMethodInSuperclassChain files methodName superClassName = some method ↔
      ∃ n, AnswersIn (atSuperclass files methodName) n superClassName method :=
  guardedWalk_eq_some_iff (fun _ _ same => congrArg _ same) (fun _ _ onward => further_mem onward) length_further

namespace InheritedCall

variable {q : InheritedCall} {found method : ApexSymbol}

theorem outcome_eq : q.outcome.resolvedSymbolId =
    ((startsFrom q.table q.call.position).bind (findMethodInSuperclassChain q.files q.call.name)).map ApexSymbol.id := by
  have searched : (q.call.resolvedSymbolId.any (· ≠ "") || q.call.chained || q.call.context ≠ .methodCall) = false := by
    simp [q.unresolved,q.unchained,q.calls]
  rw [outcome,resolveCall,searched]
  cases (startsFrom q.table q.call.position).bind (findMethodInSuperclassChain q.files q.call.name) with
  | none => exact q.unresolved
  | some resolved => rfl

theorem Met.outcome (met : q.Met found) : q.outcome.resolvedSymbolId = some found.id := by
  obtain ⟨superClassName,starts,answers⟩ := met
  rw [outcome_eq,starts,Option.bind_some,findMethodInSuperclassChain_eq_some.mpr answers]
  rfl

theorem exists_met_of_outcome {id : String} (bound : q.outcome.resolvedSymbolId = some id) :
    ∃ found, q.Met found ∧ found.id = id := by
  rw [outcome_eq] at bound
  obtain ⟨found,came,same⟩ := Option.map_eq_some_iff.mp bound
  obtain ⟨superClassName,starts,answers⟩ := Option.bind_eq_some_iff.mp came
  exact ⟨found,⟨superClassName,starts,findMethodInSuperclassChain_eq_some.mp answers⟩,same⟩

end InheritedCall

end

/-- `class Child extends Base { void go() { foo(); } }` as the collector leaves it: the method's block has the method for
its parent. -/
def childSymbols : List ApexSymbol := [
  { id := "Child",name := "Child",kind := .class_,parentId := .null,superClass := some "Base"
    fileUri := "file:///Child.cls",location := ⟨⟨1,0,5,1⟩,⟨1,6,1,11⟩⟩ },
  { id := "Child.block",name := "block1",kind := .block,scopeType := some .class_,parentId := .of "Child"
    fileUri := "file:///Child.cls",location := ⟨⟨1,25,5,1⟩,⟨1,25,5,1⟩⟩ },
  { id := "Child.go",name := "go",kind := .method,parentId := .of "Child.block",parameters := some []
    fileUri := "file:///Child.cls",location := ⟨⟨2,2,4,3⟩,⟨2,7,2,9⟩⟩ },
  { id := "Child.go.block",name := "block2",kind := .block,scopeType := some .method,parentId := .of "Child.go"
    fileUri := "file:///Child.cls",location := ⟨⟨2,12,4,3⟩,⟨2,12,4,3⟩⟩ }]

def baseClass : ApexSymbol where
  id := "Base"
  name := "Base"
  kind := .class_
  parentId := .null
  fileUri := "file:///Base.cls"
  location := ⟨⟨1,0,3,1⟩,⟨1,14,1,18⟩⟩

def baseBlock : ApexSymbol where
  id := "Base.block"
  name := "block1"
  kind := .block
  scopeType := some .class_
  parentId := .of "Base"
  fileUri := "file:///Base.cls"
  location := ⟨⟨1,19,3,1⟩,⟨1,19,3,1⟩⟩

def baseFoo : ApexSymbol where
  id := "Base.foo"
  name := "foo"
  kind := .method
  parentId := .of "Base.block"
  parameters := some []
  fileUri := "file:///Base.cls"
  location := ⟨⟨2,2,2,20⟩,⟨2,9,2,12⟩⟩

def childFiles : LoadedFiles where
  symbols := childSymbols ++ [baseClass,baseBlock,baseFoo]
  getSymbolTableForFile fileUri := if fileUri = "file:///Base.cls" then some (tableOf [baseClass,baseBlock,baseFoo])
    else if fileUri = "file:///Child.cls" then some (tableOf childSymbols) else none

def childCall [Runtime] (apart : toLowerCase "go" ≠ toLowerCase "foo") : InheritedCall where
  files := childFiles
  table := tableOf childSymbols
  call :=
    { name := "foo",context := .methodCall,chained := false,argumentCount := 0
      location := ⟨⟨3,4,3,7⟩,⟨3,4,3,7⟩⟩ }
  unresolved := rfl
  unchained := rfl
  calls := rfl
  inside :=
    { block := childSymbols.getD 1 default
      caller := childSymbols.getD 0 default
      around := ⟨.head _,rfl⟩
      innermost := by decide
      owns := ⟨rfl,.head _,rfl⟩ }
  supers :=
    { superclass c := if c.superClass = some "Base" then some baseClass else none
      named c superClass names := by
        refine named_of_written ?_ ?_ ?_ names
        · exact List.mem_append_right childSymbols (.head _)
        · rfl
        · rfl }
  unsatisfied := by
    have methods : ∀ s ∈ (tableOf childSymbols).getAllSymbols, s.kind = .method → s.name = "go" := by decide
    intro s listed method spelled
    rw [methods s listed method] at spelled
    exact absurd spelled apart

end ApexLs.Resolution.InheritedCalls
