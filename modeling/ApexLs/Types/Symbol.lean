import Mathlib.Logic.Function.Basic

/-! Declarations as the parser hands them to the symbol table. Symbol objects are
shared and mutated in place by the code, so they live in a heap and everything that
stores a symbol stores its reference. -/
namespace ApexLs.Types

inductive SymbolKind where
  | class_ | interface | trigger | method | constructor | property | field | variable
  | parameter | enum | enumValue | block | sobject
  deriving DecidableEq, Repr, Inhabited

inductive SymbolVisibility where
  | public_ | private_ | protected_ | global | default
  deriving DecidableEq, Repr, Inhabited

structure SymbolModifiers where
  visibility : SymbolVisibility := .default
  isStatic : Bool := false
  isFinal : Bool := false
  isAbstract : Bool := false
  isVirtual : Bool := false
  isOverride : Bool := false
  isTransient : Bool := false
  isTestMethod : Bool := false
  isWebService : Bool := false
  isBuiltIn : Bool := false
  deriving DecidableEq, Repr, Inhabited

inductive DetailLevel where
  | publicApi | protected_ | private_ | full
  deriving DecidableEq, Repr, Inhabited

def DetailLevel.order : DetailLevel → Nat
  | .publicApi => 1
  | .protected_ => 2
  | .private_ => 3
  | .full => 4

inductive ScopeType where
  | file | class_ | method | block | if_ | while_ | for_ | doWhile | try_ | catch_ | finally_
  | switch | when_ | runAs | getter | setter
  deriving DecidableEq, Repr, Inhabited

structure Range where
  startLine : Nat
  startColumn : Nat
  endLine : Nat
  endColumn : Nat
  deriving DecidableEq, Repr, Inhabited

structure SymbolLocation where
  symbolRange : Range
  identifierRange : Range
  deriving DecidableEq, Repr, Inhabited

/-- `undefined` is a symbol that no scope has adopted yet, `null` a file-level one. -/
inductive ParentId where
  | undefined
  | null
  | of (id : String)
  deriving DecidableEq, Repr, Inhabited

/-- JavaScript truthiness of an optional string: the empty string counts as absent. -/
def truthy : Option String → Bool
  | some s => s ≠ ""
  | none => false

/-- `s || fallback` on strings. -/
def orElse (s : Option String) (fallback : String) : String :=
  match s with
  | some t => if t = "" then fallback else t
  | none => fallback

structure SymbolKey where
  keyPrefix : String := ""
  name : String := ""
  path : List String := []
  unifiedId : Option String := none
  fileUri : Option String := none
  fqn : Option String := none
  kind : Option SymbolKind := none
  deriving DecidableEq, Repr, Inhabited

/-- The part of a type the code reads: how it was written, its flags and its arguments. -/
inductive TypeInfo where
  | mk (name originalTypeString : String) (isArray isCollection isPrimitive : Bool)
      (typeParameters : List TypeInfo) (keyType : Option TypeInfo) (namespace_ : Option String)
  deriving Repr, Inhabited

def TypeInfo.name : TypeInfo → String
  | .mk name .. => name

def TypeInfo.originalTypeString : TypeInfo → String
  | .mk _ originalTypeString .. => originalTypeString

def TypeInfo.simple (name : String) (isPrimitive : Bool := true) : TypeInfo :=
  .mk name name false false isPrimitive [] none none

structure AnnotationParameter where
  name : Option String := none
  value : String
  deriving DecidableEq, Repr, Inhabited

structure Annotation where
  name : String
  location : SymbolLocation
  parameters : List AnnotationParameter := []
  deriving DecidableEq, Repr, Inhabited

structure ParameterSymbol where
  id : String
  name : String
  type : Option TypeInfo
  location : SymbolLocation
  modifiers : SymbolModifiers := {}
  parentId : ParentId := .undefined
  deriving Repr, Inhabited

/-- One record for every symbol shape: the fields after `modifiers` belong to the kinds
that have them and are `none` on the others. -/
structure ApexSymbol where
  id : String
  name : String
  kind : SymbolKind
  location : SymbolLocation
  fileUri : String
  parentId : ParentId := .undefined
  key : SymbolKey := {}
  fqn : Option String := none
  namespace_ : Option String := none
  annotations : Option (List Annotation) := none
  detailLevel : Option DetailLevel := none
  modifiers : SymbolModifiers := {}
  superClass : Option String := none
  interfaces : Option (List String) := none
  returnType : Option TypeInfo := none
  parameters : Option (List ParameterSymbol) := none
  isConstructor : Option Bool := none
  hasBody : Option Bool := none
  type : Option TypeInfo := none
  initialValue : Option String := none
  initializerType : Option TypeInfo := none
  scopeType : Option ScopeType := none
  deriving Repr, Inhabited

namespace ApexSymbol

def isBlockSymbol (s : ApexSymbol) : Bool := s.kind = .block

def inTypeSymbolGroup (s : ApexSymbol) : Bool :=
  s.kind = .class_ || s.kind = .enum || s.kind = .interface || s.kind = .trigger || s.kind = .sobject

def isMethodOrConstructorSymbol (s : ApexSymbol) : Bool := s.kind = .method || s.kind = .constructor

end ApexSymbol

/-- A parsed declaration has a serial number; the scalar keywords get a symbol the graph
makes for itself, one for each id. -/
inductive Ref where
  | declared (serial : Nat)
  | scalar (id : String)
  deriving DecidableEq, Repr, Inhabited

abbrev Heap := Ref → ApexSymbol

namespace Heap

def put (heap : Heap) (r : Ref) (s : ApexSymbol) : Heap := Function.update heap r s

@[simp] theorem put_self (heap : Heap) (r : Ref) (s : ApexSymbol) : heap.put r s r = s := by
  simp [put]

@[simp] theorem put_of_ne (heap : Heap) (s : ApexSymbol) (apart : r' ≠ r) : heap.put r s r' = heap r' := by
  simp [put,apart]

theorem put_apply (heap : Heap) (r r' : Ref) (s : ApexSymbol) :
    heap.put r s r' = if r' = r then s else heap r' := by
  simp [put,Function.update_apply]

@[simp] theorem put_eq_self (heap : Heap) (r : Ref) : heap.put r (heap r) = heap :=
  Function.update_eq_self r heap

end Heap
end ApexLs.Types
