import Mathlib.Logic.Function.Basic
import ApexLs.Collections.OrderedMap
import ApexLs.Collections.Rows
import ApexLs.Collections.Runs
import ApexLs.Resolution.PreferredTypes
import ApexLs.Types.UriBasedIdGenerator

/-! Cross-file resolution in steps. A call holds its file in a guard set, reads the file's table once and passes the
references to the resolver one by one, while other calls and new tables come in between. -/
namespace ApexLs.Resolution.CrossFile

open ApexLs.Collections ApexLs.Types

inductive Pass where
  | full | supertypes
  deriving DecidableEq, Repr

structure Registration where
  table : Nat
  documentVersion : Int
  deriving DecidableEq, Repr

/-- A call that is under way, or was: the table it read, and the references it has still to pass. -/
structure Fiber where
  file : String
  pass : Pass
  table : Option Nat
  remaining : List Nat
  running : Bool := true
  deriving DecidableEq, Repr

/-- `passed` has the references of tables that the resolver was given since the file's table was registered. -/
structure ApexSymbolManager where
  resolvingCrossFileRefs : OrderedSet String := .empty
  fileToSymbolTable : String → Option Registration := fun _ => none
  passed : String → List (Nat × Nat) := fun _ => []
  fibers : List Fiber := []

inductive Event where
  | addSymbolTable (fileUri : String) (table : Nat) (documentVersion : Int)
  | call (pass : Pass) (fileUri : String)
  | advance (fiber : Nat)
  | finish (fiber : Nat)
  | interrupt (fiber : Nat)
  deriving DecidableEq, Repr

def normalizedUri (fileUri : String) : String := extractFilePathFromUri (createFileUri fileUri)

namespace ApexSymbolManager

variable (references : Nat → List ReferenceContext) (s : ApexSymbolManager)

/-- The references a call has to pass, by their place in the table; `references` gives their contexts. -/
def toPass (pass : Pass) (table : Nat) : List Nat :=
  (List.range (references table).length).filter fun k =>
    pass = .full || (references table)[k]?.any fun context => context = .inheritance || context = .interfaceImplementation

/-- A table of an older version is refused, and one that is registered already stays. -/
def addSymbolTable (file : String) (table : Nat) (documentVersion : Int) : ApexSymbolManager :=
  let registered := { s with
    fileToSymbolTable := Function.update s.fileToSymbolTable file (some ⟨table,documentVersion⟩)
    passed := Function.update s.passed file [] }
  match s.fileToSymbolTable file with
  | none => registered
  | some existing =>
    if existing.table = table then
      { s with fileToSymbolTable := Function.update s.fileToSymbolTable file (some ⟨table,documentVersion⟩) }
    else if documentVersion < existing.documentVersion then s
    else registered

def tableOf (file : String) : Option Nat := (s.fileToSymbolTable file).map Registration.table

def newFiber (pass : Pass) (file : String) : Fiber where
  file := file
  pass := pass
  table := s.tableOf file
  remaining := ((s.tableOf file).map (toPass references pass)).getD []

def call (pass : Pass) (file : String) : ApexSymbolManager :=
  if file ∈ s.resolvingCrossFileRefs.elements then s
  else
    { s with
      resolvingCrossFileRefs := s.resolvingCrossFileRefs.add file
      fibers := s.fibers ++ [s.newFiber references pass file] }

def advance (i : Nat) : ApexSymbolManager :=
  match s.fibers[i]? with
  | some ⟨file,_,some table,k :: rest,true⟩ =>
    { s with
      passed := Function.update s.passed file ((table,k) :: s.passed file)
      fibers := s.fibers.modify i fun fiber => { fiber with remaining := rest } }
  | _ => s

def finish (i : Nat) : ApexSymbolManager :=
  match s.fibers[i]? with
  | some ⟨file,_,_,[],true⟩ =>
    { s with
      resolvingCrossFileRefs := s.resolvingCrossFileRefs.delete file
      fibers := s.fibers.modify i fun fiber => { fiber with running := false } }
  | _ => s

def interrupt (i : Nat) : ApexSymbolManager :=
  { s with fibers := s.fibers.modify i fun fiber => { fiber with running := false } }

def step : Event → ApexSymbolManager
  | .addSymbolTable fileUri table documentVersion => s.addSymbolTable (normalizedUri fileUri) table documentVersion
  | .call pass fileUri => s.call references pass (normalizedUri fileUri)
  | .advance fiber => s.advance fiber
  | .finish fiber => s.finish fiber
  | .interrupt fiber => s.interrupt fiber

def Runs (i : Nat) (fiber : Fiber) : Prop := s.fibers[i]? = some fiber ∧ fiber.running = true

/-- The resolver was given every reference of the file's table since that was registered. -/
def Covered (file : String) : Prop :=
  ∀ table, s.tableOf file = some table → ∀ k, k < (references table).length → (table,k) ∈ s.passed file

def GuardExact : Prop :=
  ∀ file, file ∈ s.resolvingCrossFileRefs ↔ ∃ i fiber, s.Runs i fiber ∧ fiber.file = file

def Ends : Event → String → Prop
  | .call pass fileUri,file => pass = .full ∧ normalizedUri fileUri = file ∧ file ∈ s.resolvingCrossFileRefs
  | .finish i,file => ∃ fiber, s.Runs i fiber ∧ fiber.remaining = [] ∧ fiber.pass = .full ∧ fiber.file = file
  | _,_ => False

/-- After the event the guard is exact, and a full call that it ends has covered its file. -/
def NotClaimedEarly (event : Event) : Prop :=
  (s.step references event).GuardExact ∧ ∀ file, s.Ends event file → (s.step references event).Covered references file

/-- The table registered for the call's file has no references, or is the one that the call read, and was registered
before the call passed its first reference. -/
def StillCurrent (fiber : Fiber) : Prop :=
  ∀ table, s.tableOf fiber.file = some table → references table ≠ [] →
    fiber.table = some table ∧ (table,0) ∈ s.passed fiber.file

/-- No call is cut off, a full call that overlaps another comes when all is passed, and one that ends does so on the
table it read. -/
def Uninterrupted : Event → Prop
  | .call pass fileUri => pass = .full → normalizedUri fileUri ∈ s.resolvingCrossFileRefs →
      s.Covered references (normalizedUri fileUri)
  | .finish i => ∀ fiber, s.Runs i fiber → fiber.remaining = [] → fiber.pass = .full → s.StillCurrent references fiber
  | .interrupt i => ∀ fiber, ¬s.Runs i fiber
  | .addSymbolTable _ _ _ | .advance _ => True

end ApexSymbolManager

end ApexLs.Resolution.CrossFile
