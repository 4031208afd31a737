import ApexLs.Collections.TreeWalks
import ApexLs.Resolution.ScopeTrees

/-! The listener that lays out the blocks of a file, in a walk of its own before every other listener. -/
namespace ApexLs.Parser

open ApexLs.Utils ApexLs.Types ApexLs.Collections

inductive ContextRule where
  | classDeclaration | interfaceDeclaration | enumDeclaration
  | methodDeclaration | constructorDeclaration | interfaceMethodDeclaration
  | block
  | ifStatement | whileStatement | forStatement | doWhileStatement | tryStatement | catchClause | finallyBlock
  | switchStatement | whenControl | runAsStatement
  | getter | setter
  | triggerUnit | triggerMemberDeclaration
  | other
  deriving DecidableEq, Repr

/-- A context, from its first to its last token, with the name it declares: what `id()` gives, or the first id of the
qualified name of a constructor. -/
structure RuleContext where
  rule : ContextRule
  range : Range
  id : Option String := none
  deriving DecidableEq, Repr

def ContextRule.hasMethodBody : ContextRule → Bool
  | .methodDeclaration | .constructorDeclaration | .interfaceMethodDeclaration => true
  | _ => false

/-- `fileUri:block:scopeType:line:column` -/
def blockId (normalizedUri : String) (scopeType : ScopeType) (range : Range) : String :=
  normalizedUri ++ ":block:" ++ scopeType.text ++ ":" ++ toString range.startLine ++ ":" ++ toString range.startColumn

def createScopeSymbolByType [Runtime] (name : String) (scopeType : ScopeType) (location : SymbolLocation) (fileUri : String)
    (parentId : ParentId) (key : SymbolKey) (modifiers : SymbolModifiers) : ApexSymbol :=
  { id := getUnifiedId key fileUri
    name := name
    kind := .block
    location := ⟨location.symbolRange,location.symbolRange⟩
    fileUri := fileUri
    parentId := parentId
    key := key
    modifiers := modifiers
    scopeType := some scopeType }

structure StructureListener where
  heap : Heap
  symbolTable : SymbolTable
  currentFilePath : String
  scopeStack : List Ref := []
  next : Nat := 0

namespace StructureListener

def start (heap : Heap) (fileUri : String) : StructureListener where
  heap := heap
  symbolTable := SymbolTable.setFileUri {} fileUri
  currentFilePath := fileUri

variable (s : StructureListener)

def symbols : List ApexSymbol := s.symbolTable.getAllSymbols.map s.heap

def normalizedUri : String := extractFilePathFromUri (orElse (some s.symbolTable.fileUri) s.currentFilePath)

def getCurrentScopeSymbol : Option ApexSymbol := (s.scopeStack.head?.map s.heap).filter (·.isBlockSymbol)

section

variable [Runtime]

def blockSymbol (normalizedUri name : String) (scopeType : ScopeType) (range : Range) (parentScope : Option ApexSymbol) :
    ApexSymbol :=
  let scopePath := match parentScope with
    | some parent => [normalizedUri,"block",parent.name,name]
    | none => [normalizedUri,name]
  let key : SymbolKey :=
    { keyPrefix := scopeType.text,name := name,path := scopePath,unifiedId := some (blockId normalizedUri scopeType range)
      fileUri := some normalizedUri,kind := some .block }
  createScopeSymbolByType name scopeType ⟨range,range⟩ normalizedUri (parentScope.elim .null (.of ·.id)) key {}

def createBlockSymbol (name : String) (scopeType : ScopeType) (range : Range) (parentScope : Option ApexSymbol) :
    StructureListener :=
  let symbol := blockSymbol s.normalizedUri name scopeType range parentScope
  let added := s.symbolTable.addSymbol (s.heap.put (.declared s.next) symbol) (.declared s.next) (parentScope.map (·.id))
  { s with heap := added.1,symbolTable := added.2,next := s.next + 1 }

def enterScope (scopeType : ScopeType) (ctx : RuleContext) (semanticName : Option String := none) : StructureListener :=
  let name := semanticName.getD ("block_" ++ toString ctx.range.startLine ++ "_" ++ toString ctx.range.startColumn)
  { s.createBlockSymbol name scopeType ctx.range s.getCurrentScopeSymbol with
    scopeStack := .declared s.next :: s.scopeStack }

/-- The expected type of the scope is compared, and whatever was popped stays popped. -/
def exitScope : StructureListener := { s with scopeStack := s.scopeStack.tail }

def enterBlock (above : List RuleContext) (ctx : RuleContext) : StructureListener :=
  let isMethodBodyBlock := (s.getCurrentScopeSymbol.any fun scope => scope.scopeType = some .method) &&
    above.head?.any fun parentCtx => parentCtx.rule.hasMethodBody
  if isMethodBodyBlock then s else s.enterScope .block ctx

def exitBlock : StructureListener :=
  if s.getCurrentScopeSymbol.any fun scope => scope.scopeType = some .method then s else s.exitScope

/-- The callback for a context under the contexts above it, innermost first. -/
def enterRule (above : List RuleContext) (ctx : RuleContext) : StructureListener :=
  match ctx.rule with
  | .classDeclaration | .interfaceDeclaration | .enumDeclaration => s.enterScope .class_ ctx ctx.id
  | .methodDeclaration | .constructorDeclaration | .interfaceMethodDeclaration => s.enterScope .method ctx ctx.id
  | .block => s.enterBlock above ctx
  | .ifStatement => s.enterScope .if_ ctx
  | .whileStatement => s.enterScope .while_ ctx
  | .forStatement => s.enterScope .for_ ctx
  | .doWhileStatement => s.enterScope .doWhile ctx
  | .tryStatement => s.enterScope .try_ ctx
  | .catchClause => s.enterScope .catch_ ctx
  | .finallyBlock => s.enterScope .finally_ ctx
  | .switchStatement => s.enterScope .switch ctx
  | .whenControl => s.enterScope .when_ ctx
  | .runAsStatement => s.enterScope .runAs ctx
  -- The listener has `enterGetterContext` and `enterSetterContext`, and no rule is called so.
  | .getter | .setter => s
  | .triggerUnit => s.enterScope .class_ ctx ctx.id
  -- The trigger is three contexts up.
  | .triggerMemberDeclaration => s.enterScope .class_ ctx (above[2]?.bind (·.id))
  | .other => s

def exitRule (ctx : RuleContext) : StructureListener :=
  match ctx.rule with
  | .block => s.exitBlock
  | .getter | .setter | .other => s
  | _ => s.exitScope

end

end StructureListener

section

variable [Runtime]

mutual

def walkContexts (above : List RuleContext) : OrderedTree RuleContext → StructureListener → StructureListener
  | .node ctx ts,s => (walkAllContexts (ctx :: above) ts (s.enterRule above ctx)).exitRule ctx

def walkAllContexts (above : List RuleContext) : List (OrderedTree RuleContext) → StructureListener → StructureListener
  | [],s => s
  | t :: ts,s => walkAllContexts above ts (walkContexts above t s)

end

def StructureListener.listen (s : StructureListener) (tree : OrderedTree RuleContext) : StructureListener :=
  walkContexts [] tree s

def StructureListener.renewed (s : StructureListener) : StructureListener := { s with scopeStack := [] }

end

end ApexLs.Parser
