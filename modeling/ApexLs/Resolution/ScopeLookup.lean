import Mathlib.Tactic.Tauto
import ApexLs.Types.SymbolTable

/-! The lookup of an unqualified name: through the blocks around a position, innermost first, then
through the fields and methods of the classes around it. -/
namespace ApexLs.Resolution

open ApexLs.Utils ApexLs.Types ApexLs.Collections

structure Position where
  line : Nat
  character : Nat
  deriving DecidableEq, Repr

structure FileTable where
  heap : Heap
  table : SymbolTable

def isVariableOrParameter (s : ApexSymbol) : Bool := s.kind = .variable || s.kind = .parameter

def isClassOrFileLevel (block : ApexSymbol) : Bool :=
  block.isBlockSymbol && (block.scopeType = some .class_ || block.scopeType = some .file)

def isMethodLevel (block : ApexSymbol) : Bool := block.scopeType = some .method

def rangeContains (r : Range) (position : Position) : Bool :=
  (position.line > r.startLine || position.line = r.startLine && position.character ≥ r.startColumn) &&
    (position.line < r.endLine || position.line = r.endLine && position.character ≤ r.endColumn)

def rangeSize (r : Range) : Int := ((r.endLine : Int) - r.startLine) * 1000 + ((r.endColumn : Int) - r.startColumn)

namespace FileTable

def getAllSymbols (t : FileTable) : List ApexSymbol := t.table.getAllSymbols.map t.heap

def symbolAt (t : FileTable) (id : String) : Option ApexSymbol :=
  (t.table.getSymbolById id).map t.heap

def findContainingBlockSymbol (t : FileTable) (position : Position) : Option ApexSymbol :=
  let containingBlocks :=
    t.getAllSymbols.filter (fun s => s.isBlockSymbol && rangeContains s.location.symbolRange position)
  match containingBlocks with
  | [] => none
  | first :: rest =>
    some (rest.foldl (fun smallest current =>
      if rangeSize current.location.symbolRange < rangeSize smallest.location.symbolRange then current else smallest) first)

/-- A block and the blocks it stands in. Where parents form a cycle the code walks forever; elsewhere
it takes no more steps than there are ids. -/
def blocksAround (t : FileTable) : Nat → ApexSymbol → List ApexSymbol
  | steps + 1,current =>
    current :: match current.parentId with
      | .of parentId =>
        match (if parentId = "" then none else t.symbolAt parentId) with
        | some parent => if parent.kind = .block then t.blocksAround steps parent else []
        | none => []
      | _ => []
  | 0,_ => []

def scopeHierarchy (t : FileTable) (position : Position) : List ApexSymbol :=
  match t.findContainingBlockSymbol position with
  | none => []
  | some block => t.blocksAround (t.table.symbolMap.entries.length + 1) block

end FileTable

def childOf (parent s : ApexSymbol) : Bool := s.parentId = .of parent.id

section

variable [Runtime]

def symbolsInScope (hierarchy allFileSymbols : List ApexSymbol) (name : String) (block : ApexSymbol) : List ApexSymbol :=
  let directChildren := allFileSymbols.filter fun s =>
    toLowerCase s.name = toLowerCase name && childOf block s &&
      (isVariableOrParameter s && !isClassOrFileLevel block || s.kind = .method)
  let nestedBlocks := allFileSymbols.filter fun s =>
    s.kind = .block && childOf block s && hierarchy.any (·.id = s.id)
  let symbolsInNestedBlocks := nestedBlocks.flatMap fun nestedBlock =>
    allFileSymbols.filter fun s =>
      s.name = name && childOf nestedBlock s && (isVariableOrParameter s || s.kind = .method)
  directChildren ++ symbolsInNestedBlocks

/-- A variable counts where its block is one of those around the position. -/
def isValidInScope (hierarchy allFileSymbols : List ApexSymbol) (s : ApexSymbol) : Bool :=
  if isVariableOrParameter s then
    match allFileSymbols.find? (fun block => block.kind = .block && childOf block s) with
    | some symbolBlock => hierarchy.any (·.id = symbolBlock.id)
    | none => false
  else true

/-- The symbol of a block that the first loop returns: variables before methods. -/
def innermostSymbol (hierarchy allFileSymbols : List ApexSymbol) (name : String) (block : ApexSymbol) : Option ApexSymbol :=
  let validSymbols := (symbolsInScope hierarchy allFileSymbols name block).filter (isValidInScope hierarchy allFileSymbols)
  (validSymbols.find? isVariableOrParameter).or validSymbols.head?

end

def fieldOrMethod (allFileSymbols : List ApexSymbol) (name : String) (block : ApexSymbol) : Option ApexSymbol :=
  (allFileSymbols.find? (fun s => s.name = name && childOf block s && s.kind = .field)).or
    (allFileSymbols.find? (fun s => s.name = name && childOf block s && s.kind = .method))

def memberOrParameter (allFileSymbols : List ApexSymbol) (name : String) (block : ApexSymbol) : Option ApexSymbol :=
  if isClassOrFileLevel block then fieldOrMethod allFileSymbols name block
  else if isMethodLevel block then
    allFileSymbols.find? (fun s => s.name = name && childOf block s && s.kind = .parameter)
  else none

def classBlockOf (allFileSymbols : List ApexSymbol) : ParentId → Option ApexSymbol
  | .of id => if id = "" then none
    else allFileSymbols.find? (fun s => s.isBlockSymbol && s.scopeType = some .class_ && s.id = id)
  | _ => none

def methodOf (allFileSymbols : List ApexSymbol) (block : ApexSymbol) : Option ApexSymbol :=
  allFileSymbols.find? (fun s => block.parentId = .of s.id && s.id ≠ "" && s.kind = .method)

/-- The third loop at a block: the class a method's block stands in, directly or through its method. -/
def memberAroundMethod (allFileSymbols : List ApexSymbol) (name : String) (block : ApexSymbol) : Option ApexSymbol :=
  if isMethodLevel block then
    (((classBlockOf allFileSymbols block.parentId).bind (fieldOrMethod allFileSymbols name)).or
      (((methodOf allFileSymbols block).bind (fun method => classBlockOf allFileSymbols method.parentId)).bind
        (fieldOrMethod allFileSymbols name)))
  else none

def resolveUnqualifiedReferenceByScope [Runtime] (t : FileTable) (name : String) (position : Position) : Option ApexSymbol :=
  let scopeHierarchy := t.scopeHierarchy position
  let allFileSymbols := t.getAllSymbols
  ((scopeHierarchy.findSome? (innermostSymbol scopeHierarchy allFileSymbols name)).or
    (scopeHierarchy.findSome? (memberOrParameter allFileSymbols name))).or
    (scopeHierarchy.findSome? (memberAroundMethod allFileSymbols name))

theorem fieldOrMethod_spec {all : List ApexSymbol} (found : fieldOrMethod all name block = some v) :
    v ∈ all ∧ v.name = name ∧ childOf block v = true ∧ (v.kind = .field ∨ v.kind = .method) := by
  unfold fieldOrMethod at found
  rcases Option.or_eq_some_iff.mp found with field | ⟨_,method⟩
  · have meets := List.find?_some field
    simp only [Bool.and_eq_true,decide_eq_true_eq] at meets
    exact ⟨List.mem_of_find?_eq_some field,meets.1.1,meets.1.2,.inl meets.2⟩
  · have meets := List.find?_some method
    simp only [Bool.and_eq_true,decide_eq_true_eq] at meets
    exact ⟨List.mem_of_find?_eq_some method,meets.1.1,meets.1.2,.inr meets.2⟩

theorem memberOrParameter_spec {all : List ApexSymbol} (found : memberOrParameter all name block = some v) :
    v ∈ all ∧ v.name = name ∧ childOf block v = true ∧ (v.kind = .field ∨ v.kind = .method ∨ v.kind = .parameter) := by
  unfold memberOrParameter at found
  split at found
  next =>
    obtain ⟨listed,same,child,kind⟩ := fieldOrMethod_spec found
    exact ⟨listed,same,child,kind.imp_right .inl⟩
  next =>
    split at found
    next =>
      have meets := List.find?_some found
      simp only [Bool.and_eq_true,decide_eq_true_eq] at meets
      exact ⟨List.mem_of_find?_eq_some found,meets.1.1,meets.1.2,.inr (.inr meets.2)⟩
    next => cases found

section

variable [Runtime]

theorem symbolsInScope_spec {hierarchy all : List ApexSymbol} (member : v ∈ symbolsInScope hierarchy all name block) :
    v ∈ all ∧ toLowerCase v.name = toLowerCase name ∧ (isVariableOrParameter v = true ∨ v.kind = .method) ∧
      (childOf block v = true ∨ ∃ b ∈ hierarchy, childOf b v = true) := by
  unfold symbolsInScope at member
  rcases List.mem_append.mp member with direct | nested
  · obtain ⟨listed,meets⟩ := List.mem_filter.mp direct
    simp only [Bool.and_eq_true,Bool.or_eq_true,decide_eq_true_eq] at meets
    obtain ⟨⟨same,child⟩,kind⟩ := meets
    exact ⟨listed,same,kind.imp_left And.left,.inl child⟩
  · obtain ⟨nestedBlock,block_,inner⟩ := List.mem_flatMap.mp nested
    obtain ⟨_,around⟩ := List.mem_filter.mp block_
    obtain ⟨listed,meets⟩ := List.mem_filter.mp inner
    simp only [Bool.and_eq_true,Bool.or_eq_true,decide_eq_true_eq] at meets
    obtain ⟨⟨same,child⟩,kind⟩ := meets
    simp only [Bool.and_eq_true,List.any_eq_true,decide_eq_true_eq] at around
    obtain ⟨_,b,member,id⟩ := around
    refine ⟨listed,by rw [same],kind,.inr ⟨b,member,?_⟩⟩
    simpa only [childOf,id] using child

theorem innermostSymbol_spec {hierarchy all : List ApexSymbol} (found : innermostSymbol hierarchy all name block = some v) :
    v ∈ symbolsInScope hierarchy all name block := by
  unfold innermostSymbol at found
  have valid : v ∈ (symbolsInScope hierarchy all name block).filter (isValidInScope hierarchy all) := by
    rcases Option.or_eq_some_iff.mp found with first | ⟨_,first⟩
    · exact List.mem_of_find?_eq_some first
    · exact List.mem_of_mem_head? first
  exact List.mem_of_mem_filter valid

end
end ApexLs.Resolution
