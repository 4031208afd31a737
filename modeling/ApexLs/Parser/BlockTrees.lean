import ApexLs.Cache.HydratedTables
import ApexLs.Parser.StructureListener
import ApexLs.Symbols.ReferenceCoherence

/-! The blocks that a walk of the structure listener leaves in a table, against the contexts of the tree. -/
namespace ApexLs.Parser

open ApexLs.Utils ApexLs.Types ApexLs.Collections
open ApexLs.Symbols (toString_injective)

structure ContextPlace where
  above : List RuleContext
  context : RuleContext
  deriving DecidableEq, Repr

def contextPlaces (tree : OrderedTree RuleContext) : List ContextPlace :=
  (tree.places [] 0).map fun p => ⟨p.1,p.2.2.label⟩

def ContextRule.scopeType : ContextRule → Option ScopeType
  | .classDeclaration | .interfaceDeclaration | .enumDeclaration | .triggerUnit | .triggerMemberDeclaration => some .class_
  | .methodDeclaration | .constructorDeclaration | .interfaceMethodDeclaration => some .method
  | .block => some .block
  | .ifStatement => some .if_
  | .whileStatement => some .while_
  | .forStatement => some .for_
  | .doWhileStatement => some .doWhile
  | .tryStatement => some .try_
  | .catchClause => some .catch_
  | .finallyBlock => some .finally_
  | .switchStatement => some .switch
  | .whenControl => some .when_
  | .runAsStatement => some .runAs
  | .getter => some .getter
  | .setter => some .setter
  | .other => none

def ContextRule.isAccessor (r : ContextRule) : Bool := r = .getter || r = .setter

theorem ContextRule.of_hasMethodBody (r : ContextRule) (declares : r.hasMethodBody = true) :
    r.scopeType = some .method ∧ r ≠ .block ∧ r.isAccessor = false := by
  revert declares
  cases r <;> decide

namespace ContextPlace

def isMethodBody (p : ContextPlace) : Bool :=
  p.context.rule = .block && p.above.head?.any fun parent => parent.rule.hasMethodBody

def scopes (p : ContextPlace) : Bool := p.context.rule.scopeType.isSome && !p.isMethodBody

def opens (p : ContextPlace) : Bool := p.scopes && !p.context.rule.isAccessor

/-- Scope type and start: what tells the ids of the blocks of a file apart. -/
def slot (p : ContextPlace) : ScopeType × Nat × Nat :=
  (p.context.rule.scopeType.getD .file,p.context.range.startLine,p.context.range.startColumn)

def blockId (normalizedUri : String) (p : ContextPlace) : String :=
  Parser.blockId normalizedUri (p.context.rule.scopeType.getD .file) p.context.range

def semanticName (p : ContextPlace) : Option String :=
  match p.context.rule with
  | .classDeclaration | .interfaceDeclaration | .enumDeclaration | .triggerUnit => p.context.id
  | .methodDeclaration | .constructorDeclaration | .interfaceMethodDeclaration => p.context.id
  | .triggerMemberDeclaration => p.above[2]?.bind (·.id)
  | _ => none

def name (p : ContextPlace) : String :=
  p.semanticName.getD ("block_" ++ toString p.context.range.startLine ++ "_" ++ toString p.context.range.startColumn)

end ContextPlace

def enclosing : List RuleContext → Option ContextPlace
  | [] => none
  | c :: above => if ContextPlace.scopes ⟨above,c⟩ then some ⟨above,c⟩ else enclosing above

/-- The innermost context above that the listener makes a block for. -/
def enclosingOpen : List RuleContext → Option ContextPlace
  | [] => none
  | c :: above => if ContextPlace.opens ⟨above,c⟩ then some ⟨above,c⟩ else enclosingOpen above

namespace StructureListener

/-- The context has one block in the table, inside the block of the innermost context above. -/
def Mirrors (s : StructureListener) (p : ContextPlace) : Prop :=
  ∃ b, s.symbols.filter (·.id = p.blockId s.normalizedUri) = [b] ∧ b.isBlockSymbol = true ∧
    b.scopeType = p.context.rule.scopeType ∧ b.location = ⟨p.context.range,p.context.range⟩ ∧
    b.parentId = (enclosing p.above).elim .null fun outer => .of (outer.blockId s.normalizedUri)

end StructureListener

section

variable [Runtime]

/-- After the walk over an empty table every context that is to have a block has one. -/
def MirrorsTree (heap : Heap) (fileUri : String) (tree : OrderedTree RuleContext) : Prop :=
  ∀ p ∈ contextPlaces tree, p.scopes = true → ((StructureListener.start heap fileUri).listen tree).Mirrors p

def AddsNothingAgain (heap : Heap) (fileUri : String) (tree : OrderedTree RuleContext) : Prop :=
  (((StructureListener.start heap fileUri).listen tree).renewed.listen tree).symbolTable.getAllSymbols =
    ((StructureListener.start heap fileUri).listen tree).symbolTable.getAllSymbols

end

theorem blockId_inj {r r' : Range} : blockId uri st r = blockId uri st' r' ↔
    st = st' ∧ r.startLine = r'.startLine ∧ r.startColumn = r'.startColumn := by
  constructor
  · intro same
    have chars (st : ScopeType) (r : Range) : ((blockId uri st r).toList.drop (uri ++ ":block:").toList.length).splitOn ':' =
        [st.text,toString r.startLine,toString r.startColumn].map String.toList := by
      have text : (blockId uri st r).toList = (uri ++ ":block:").toList ++
          [':'].intercalate ([st.text,toString r.startLine,toString r.startColumn].map String.toList) := by
        simp [blockId,String.toList_append,List.intercalate]
      rw [text,List.drop_left]
      refine List.splitOn_intercalate ':' ?_ (by simp)
      intro part member separator
      simp only [List.map_cons,List.map_nil,List.mem_cons,List.not_mem_nil,or_false] at member
      rcases member with rfl | rfl | rfl
      · cases st <;> exact absurd separator (by decide)
      · exact absurd (numeral_digit _ _ separator) (by decide)
      · exact absurd (numeral_digit _ _ separator) (by decide)
    have parts := (chars st r).symm.trans
      ((congrArg (fun k : String => (k.toList.drop (uri ++ ":block:").toList.length).splitOn ':') same).trans (chars st' r'))
    simp only [List.map_cons,List.map_nil,List.cons.injEq,String.toList_inj,and_true] at parts
    obtain ⟨type,line,column⟩ := parts
    refine ⟨?_,toString_injective line,toString_injective column⟩
    revert type
    cases st <;> cases st' <;> decide
  · rintro ⟨rfl,line,column⟩
    rw [blockId,blockId,line,column]

namespace ContextPlace

theorem blockId_eq_iff {p q : ContextPlace} : p.blockId uri = q.blockId uri ↔ p.slot = q.slot := by
  rw [blockId,blockId,blockId_inj,slot,slot,Prod.mk.injEq,Prod.mk.injEq]

end ContextPlace

theorem blockId_ne_empty (uri : String) (st : ScopeType) (r : Range) : blockId uri st r ≠ "" := by
  intro empty
  have chars := congrArg (fun k : String => ':' ∈ k.toList) empty
  simp [blockId] at chars

section

variable [Runtime]

namespace StructureListener

def blockAbove (uri : String) : List RuleContext → Option ApexSymbol
  | [] => none
  | c :: above =>
    if ContextPlace.opens ⟨above,c⟩ then
      some (blockSymbol uri (ContextPlace.name ⟨above,c⟩) (c.rule.scopeType.getD .file) c.range (blockAbove uri above))
    else blockAbove uri above

def blockAt (uri : String) (p : ContextPlace) : ApexSymbol :=
  blockSymbol uri p.name (p.context.rule.scopeType.getD .file) p.context.range (blockAbove uri p.above)

theorem blockSymbol_id (uri name : String) (st : ScopeType) (r : Range) (parent : Option ApexSymbol) :
    (blockSymbol uri name st r parent).id = blockId uri st r := by
  have given_ : truthy (some (blockId uri st r)) = true := by simp [truthy,blockId_ne_empty]
  simp [blockSymbol,createScopeSymbolByType,getUnifiedId,given_]

theorem blockSymbol_hydrated (uri name : String) (st : ScopeType) (r : Range) (parent : Option ApexSymbol) :
    Cache.Hydrated (blockSymbol uri name st r parent) where
  synchronized := ⟨by rw [blockSymbol_id]; rfl,by rw [blockSymbol_id]; exact blockId_ne_empty uri st r⟩
  inFile := rfl
  placed := by cases parent <;> exact nofun
  unlevelled := rfl

theorem blockAt_id (uri : String) (p : ContextPlace) : (blockAt uri p).id = p.blockId uri := blockSymbol_id _ _ _ _ _

theorem blockAbove_cons (opens : ContextPlace.opens ⟨above,c⟩ = true) :
    blockAbove uri (c :: above) = some (blockAt uri ⟨above,c⟩) := if_pos opens

theorem blockAbove_eq (uri : String) (above : List RuleContext) :
    blockAbove uri above = (enclosingOpen above).map (blockAt uri) := by
  induction above with
  | nil => rfl
  | cons c above ih =>
    rw [blockAbove,enclosingOpen]
    split
    case isTrue => rfl
    case isFalse => exact ih

theorem blockAt_parentId (uri : String) (p : ContextPlace) :
    (blockAt uri p).parentId = (enclosingOpen p.above).elim .null fun outer => .of (outer.blockId uri) := by
  have parent : (blockAt uri p).parentId = (blockAbove uri p.above).elim .null (.of ·.id) := rfl
  rw [parent,blockAbove_eq]
  cases enclosingOpen p.above with
  | none => rfl
  | some outer => exact congrArg ParentId.of (blockAt_id uri outer)

/-- The table and the stack hold made objects only, and the table files what it lists. -/
structure Filling (s : StructureListener) : Prop where
  made : ∀ r ∈ s.symbolTable.symbolArray, ∃ k < s.next, r = .declared k
  stacked : ∀ r ∈ s.scopeStack, ∃ k < s.next, r = .declared k
  filed : ∀ id b, s.symbolTable.symbolMap.get? id = some b → ∀ r ∈ b.symbols, r ∈ s.symbolTable.symbolArray

/-- From one state to the other the blocks were made, and nothing else changed. -/
structure Lays (s t : StructureListener) (blocks : List ApexSymbol) : Prop where
  filling : t.Filling
  symbols : t.symbols = s.symbols ++ blocks
  listed : s.symbolTable.symbolArray <+: t.symbolTable.symbolArray
  heap : ∀ k < s.next, t.heap (.declared k) = s.heap (.declared k)
  next : s.next ≤ t.next
  scopeStack : t.scopeStack = s.scopeStack
  normalizedUri : t.normalizedUri = s.normalizedUri

variable {s t u : StructureListener}

omit [Runtime] in
theorem Lays.refl (filling : s.Filling) : Lays s s [] :=
  ⟨filling,(List.append_nil _).symm,List.prefix_rfl,fun _ _ => rfl,Nat.le_refl _,rfl,rfl⟩

omit [Runtime] in
theorem Lays.trans (first : Lays s t blocks) (second : Lays t u more) : Lays s u (blocks ++ more) where
  filling := second.filling
  symbols := by rw [second.symbols,first.symbols,List.append_assoc]
  listed := first.listed.trans second.listed
  heap k below := (second.heap k (below.trans_le first.next)).trans (first.heap k below)
  next := first.next.trans second.next
  scopeStack := second.scopeStack.trans first.scopeStack
  normalizedUri := second.normalizedUri.trans first.normalizedUri

theorem addSymbol_fileUri (t : SymbolTable) (heap : Heap) (r : Ref) (scope : Option String) :
    (t.addSymbol heap r scope).2.fileUri = t.fileUri := by
  simp only [SymbolTable.addSymbol,SymbolTable.insertPrepared]
  generalize SymbolTable.exitOf (prepare heap r scope) r _ = exit
  cases exit with
  | _ => rfl

theorem Filling.createBlockSymbol (filling : s.Filling) (name : String) (st : ScopeType) (r : Range)
    (parent : Option ApexSymbol) : Lays s (s.createBlockSymbol name st r parent)
      [blockSymbol s.normalizedUri name st r parent] ∧
    (s.createBlockSymbol name st r parent).heap (.declared s.next) = blockSymbol s.normalizedUri name st r parent ∧
    (s.createBlockSymbol name st r parent).next = s.next + 1 := by
  have hydrated := blockSymbol_hydrated s.normalizedUri name st r parent
  have uri : (s.createBlockSymbol name st r parent).symbolTable.fileUri = s.symbolTable.fileUri :=
    addSymbol_fileUri _ _ _ _
  obtain ⟨sameHeap,last⟩ := hydrated.addSymbol filling.made filling.filed s.heap (parent.map (·.id))
  have heap : (s.createBlockSymbol name st r parent).heap =
      s.heap.put (.declared s.next) (blockSymbol s.normalizedUri name st r parent) := sameHeap
  refine ⟨⟨⟨last.declared filling.made,?_,last.filed⟩,?_,?_,?_,Nat.le_succ _,rfl,?_⟩,?_,rfl⟩
  · intro r' member
    obtain ⟨k,below,rfl⟩ := filling.stacked r' member
    exact ⟨k,Nat.lt_succ_of_lt below,rfl⟩
  · rw [StructureListener.symbols,heap]
    exact last.symbols filling.made s.heap _
  · have listed : (s.createBlockSymbol name st r parent).symbolTable.symbolArray =
        s.symbolTable.symbolArray ++ [.declared s.next] := last.listed
    rw [listed]
    exact List.prefix_append _ _
  · intro k below
    have apart : Ref.declared k ≠ .declared s.next := by
      rintro same
      cases same
      exact Nat.lt_irrefl _ below
    rw [heap,Heap.put_of_ne _ _ apart]
  · rw [StructureListener.normalizedUri,StructureListener.normalizedUri,uri]
    rfl
  · rw [heap,Heap.put_self]

/-- The top of the stack is the block of the innermost context above. -/
def Fits (above : List RuleContext) (s : StructureListener) : Prop :=
  s.getCurrentScopeSymbol = blockAbove s.normalizedUri above

theorem blockAt_scopeType (opens : p.opens = true) : (blockAt uri p).scopeType = p.context.rule.scopeType := by
  unfold ContextPlace.opens ContextPlace.scopes at opens
  simp only [Bool.and_eq_true] at opens
  obtain ⟨st,some_⟩ := Option.isSome_iff_exists.mp opens.1.1
  have made : (blockAt uri p).scopeType = some (p.context.rule.scopeType.getD .file) := rfl
  rw [made,some_,Option.getD_some]

theorem Fits.method (fits : Fits above s) (below : above.head?.any (·.rule.hasMethodBody) = true) :
    (s.getCurrentScopeSymbol.any fun scope => scope.scopeType = some .method) = true := by
  cases above with
  | nil => cases below
  | cons c above =>
    obtain ⟨method,noBlock,noAccessor⟩ := c.rule.of_hasMethodBody below
    have opens : ContextPlace.opens ⟨above,c⟩ = true := by
      simp [ContextPlace.opens,ContextPlace.scopes,ContextPlace.isMethodBody,method,noBlock,noAccessor]
    rw [fits,blockAbove_cons opens,Option.any_some,blockAt_scopeType opens,method]
    rfl

theorem Fits.enterRule_opens (opens : ContextPlace.opens ⟨above,ctx⟩ = true) :
    s.enterRule above ctx = s.enterScope (ctx.rule.scopeType.getD .file) ctx (ContextPlace.semanticName ⟨above,ctx⟩) := by
  unfold StructureListener.enterRule ContextPlace.semanticName
  cases rule : ctx.rule with
  | block =>
    have own : above.head?.any (·.rule.hasMethodBody) = false := by
      simpa [ContextPlace.opens,ContextPlace.scopes,ContextPlace.isMethodBody,rule,ContextRule.scopeType,
        ContextRule.isAccessor] using opens
    simp only [enterBlock,own,Bool.and_false]
    rfl
  | getter | setter | other =>
    simp [ContextPlace.opens,ContextPlace.scopes,ContextRule.scopeType,ContextRule.isAccessor,rule] at opens
  | _ => rfl

theorem Fits.closed (fits : Fits above s) (closed : ContextPlace.opens ⟨above,ctx⟩ = false) :
    s.enterRule above ctx = s ∧ (∀ t : StructureListener, t.getCurrentScopeSymbol = s.getCurrentScopeSymbol →
      t.exitRule ctx = t) := by
  unfold StructureListener.enterRule StructureListener.exitRule
  cases rule : ctx.rule with
  | block =>
    have body : above.head?.any (·.rule.hasMethodBody) = true := by
      simpa [ContextPlace.opens,ContextPlace.scopes,ContextPlace.isMethodBody,rule,ContextRule.scopeType,
        ContextRule.isAccessor] using closed
    have method := fits.method body
    refine ⟨?_,fun t same => ?_⟩
    · simp [enterBlock,method,body]
    · simp only [exitBlock,same,method,if_pos]
  | getter | setter | other => exact ⟨rfl,fun _ _ => rfl⟩
  | _ =>
    simp [ContextPlace.opens,ContextPlace.scopes,ContextPlace.isMethodBody,ContextRule.scopeType,ContextRule.isAccessor,
      rule] at closed

def blocksOf (uri : String) (places : List (List RuleContext × Nat × OrderedTree RuleContext)) : List ApexSymbol :=
  ((places.map fun p => ContextPlace.mk p.1 p.2.2.label).filter ContextPlace.opens).map (blockAt uri)

theorem blocksOf_append (uri : String) (places more : List (List RuleContext × Nat × OrderedTree RuleContext)) :
    blocksOf uri (places ++ more) = blocksOf uri places ++ blocksOf uri more := by
  rw [blocksOf,List.map_append,List.filter_append,List.map_append]
  rfl

theorem blocksOf_cons (uri : String) (above : List RuleContext) (n : Nat) (tree : OrderedTree RuleContext)
    (places : List (List RuleContext × Nat × OrderedTree RuleContext)) :
    blocksOf uri ((above,n,tree) :: places) =
      (if ContextPlace.opens ⟨above,tree.label⟩ then [blockAt uri ⟨above,tree.label⟩] else []) ++
        blocksOf uri places := by
  rw [blocksOf,List.map_cons,List.filter_cons]
  split <;> rfl

theorem Fits.lays (fits : Fits above s) (filling : s.Filling) (lays : Lays s t blocks) : Fits above t := by
  have same : t.getCurrentScopeSymbol = s.getCurrentScopeSymbol := by
    unfold getCurrentScopeSymbol
    rw [lays.scopeStack]
    cases top : s.scopeStack.head? with
    | none => rfl
    | some r =>
      obtain ⟨k,below,rfl⟩ := filling.stacked r (List.mem_of_mem_head? top)
      rw [Option.map_some,Option.map_some,lays.heap k below]
  rw [Fits,same,lays.normalizedUri]
  exact fits

theorem Fits.enterScope (fits : Fits above s) (filling : s.Filling) (opens : ContextPlace.opens ⟨above,ctx⟩ = true) :
    ∃ made, Lays s made [blockAt s.normalizedUri ⟨above,ctx⟩] ∧
      s.enterRule above ctx = { made with scopeStack := .declared s.next :: s.scopeStack } ∧
      (s.enterRule above ctx).Filling ∧ Fits (ctx :: above) (s.enterRule above ctx) := by
  have block : blockSymbol s.normalizedUri (ContextPlace.name ⟨above,ctx⟩) (ctx.rule.scopeType.getD .file) ctx.range
      s.getCurrentScopeSymbol = blockAt s.normalizedUri ⟨above,ctx⟩ := by
    rw [fits]
    rfl
  obtain ⟨lays,top,next⟩ := filling.createBlockSymbol (ContextPlace.name ⟨above,ctx⟩) (ctx.rule.scopeType.getD .file)
    ctx.range s.getCurrentScopeSymbol
  rw [block] at lays top
  refine ⟨_,lays,Fits.enterRule_opens opens,?_,?_⟩
  · rw [Fits.enterRule_opens opens]
    refine ⟨lays.filling.made,fun r member => ?_,lays.filling.filed⟩
    rcases List.mem_cons.mp member with rfl | before
    · exact ⟨s.next,next ▸ Nat.lt_succ_self _,rfl⟩
    · exact lays.filling.stacked r (lays.scopeStack ▸ before)
  · rw [Fits.enterRule_opens opens,Fits,blockAbove_cons opens]
    have current : (s.enterScope (ctx.rule.scopeType.getD .file) ctx
        (ContextPlace.semanticName ⟨above,ctx⟩)).getCurrentScopeSymbol = some (blockAt s.normalizedUri ⟨above,ctx⟩) := by
      unfold getCurrentScopeSymbol StructureListener.enterScope
      dsimp only [List.head?_cons,Option.map_some]
      erw [top]
      rfl
    rw [current]
    exact congrArg (fun uri => some (blockAt uri ⟨above,ctx⟩)) lays.normalizedUri.symm

theorem Fits.exitScope (opens : ContextPlace.opens ⟨above,ctx⟩ = true) (fits : Fits (ctx :: above) s) :
    s.exitRule ctx = s.exitScope := by
  unfold StructureListener.exitRule
  cases rule : ctx.rule with
  | block =>
    have apart : (s.getCurrentScopeSymbol.any fun scope => scope.scopeType = some .method) = false := by
      rw [fits,blockAbove_cons opens,Option.any_some,blockAt_scopeType opens,rule]
      rfl
    simp [exitBlock,apart]
  | getter | setter | other =>
    simp [ContextPlace.opens,ContextPlace.scopes,ContextRule.scopeType,ContextRule.isAccessor,rule] at opens
  | _ => rfl

theorem walkContexts_lays :
    (∀ (tree : OrderedTree RuleContext) (above : List RuleContext) (n : Nat) (s : StructureListener), s.Filling →
      Fits above s → Lays s (walkContexts above tree s) (blocksOf s.normalizedUri (tree.places above n))) ∧
    ∀ (trees : List (OrderedTree RuleContext)) (above : List RuleContext) (n : Nat) (s : StructureListener), s.Filling →
      Fits above s →
        Lays s (walkAllContexts above trees s) (blocksOf s.normalizedUri (OrderedTree.placesAll above n trees)) := by
  apply OrderedTree.forest_induction
  · intro ctx trees below above n s filling fits
    rw [walkContexts,OrderedTree.places,blocksOf_cons]
    cases opens : ContextPlace.opens ⟨above,ctx⟩ with
    | true =>
      obtain ⟨made,lays,entered,filling',fits'⟩ := fits.enterScope filling opens
      have inside := below (ctx :: above) (n + 1) _ filling' fits'
      have left := Fits.exitScope opens (fits'.lays filling' inside)
      have uri : (s.enterRule above ctx).normalizedUri = s.normalizedUri := by
        rw [entered]
        exact lays.normalizedUri
      have stack : (s.enterRule above ctx).scopeStack = .declared s.next :: s.scopeStack := by rw [entered]
      rw [left]
      simp only [OrderedTree.label,opens,if_true]
      refine ⟨⟨inside.filling.made,fun r member => ?_,inside.filling.filed⟩,?_,?_,fun k old => ?_,?_,?_,?_⟩
      · exact inside.filling.stacked r (List.mem_of_mem_tail member)
      · have before : (s.enterRule above ctx).symbols = s.symbols ++ [blockAt s.normalizedUri ⟨above,ctx⟩] := by
          rw [entered]
          exact lays.symbols
        have after := inside.symbols
        rw [before,uri,List.append_assoc] at after
        exact after
      · have before : s.symbolTable.symbolArray <+: (s.enterRule above ctx).symbolTable.symbolArray := by
          rw [entered]
          exact lays.listed
        exact before.trans inside.listed
      · have later : s.next ≤ (s.enterRule above ctx).next := by
          rw [entered]
          exact lays.next
        have before : (s.enterRule above ctx).heap (.declared k) = s.heap (.declared k) := by
          rw [entered]
          exact lays.heap k old
        exact (inside.heap k (old.trans_le later)).trans before
      · have later : s.next ≤ (s.enterRule above ctx).next := by
          rw [entered]
          exact lays.next
        exact later.trans inside.next
      · rw [StructureListener.exitScope,inside.scopeStack,stack,List.tail_cons]
      · exact inside.normalizedUri.trans uri
    | false =>
      obtain ⟨entered,exits⟩ := fits.closed opens
      have fits' : Fits (ctx :: above) s := by
        rw [Fits,blockAbove,opens]
        exact fits
      have inside := below (ctx :: above) (n + 1) s filling fits'
      have same : (walkAllContexts (ctx :: above) trees s).getCurrentScopeSymbol = s.getCurrentScopeSymbol := by
        rw [fits'.lays filling inside,inside.normalizedUri,fits']
      rw [entered,exits _ same]
      simp only [OrderedTree.label,opens,Bool.false_eq_true,if_false,List.nil_append]
      exact inside
  · intro above n s filling fits
    exact .refl filling
  · intro tree trees first rest above n s filling fits
    have head := first above n s filling fits
    have tail := rest above (n + tree.size) _ head.filling (fits.lays filling head)
    rw [head.normalizedUri] at tail
    rw [walkAllContexts,OrderedTree.placesAll,blocksOf_append]
    exact head.trans tail

omit [Runtime] in
theorem start_filling (heap : Heap) (fileUri : String) : (start heap fileUri).Filling where
  made _ member := absurd member List.not_mem_nil
  stacked _ member := absurd member List.not_mem_nil
  filed _ _ found := nomatch found

theorem listen_lays (filling : s.Filling) (fresh : s.scopeStack = []) (tree : OrderedTree RuleContext) :
    Lays s (s.listen tree) (((contextPlaces tree).filter ContextPlace.opens).map (blockAt s.normalizedUri)) := by
  have fits : Fits [] s := by
    rw [Fits,getCurrentScopeSymbol,fresh]
    rfl
  exact walkContexts_lays.1 tree [] 0 s filling fits

theorem listen_start (heap : Heap) (fileUri : String) (tree : OrderedTree RuleContext) :
    Lays (start heap fileUri) ((start heap fileUri).listen tree)
      (((contextPlaces tree).filter ContextPlace.opens).map (blockAt (start heap fileUri).normalizedUri)) :=
  listen_lays (start_filling heap fileUri) rfl tree

theorem listen_symbols (heap : Heap) (fileUri : String) (tree : OrderedTree RuleContext) :
    ((start heap fileUri).listen tree).symbols =
      ((contextPlaces tree).filter ContextPlace.opens).map (blockAt (start heap fileUri).normalizedUri) :=
  (listen_start heap fileUri tree).symbols

theorem filter_symbols (uri : String) (places : List ContextPlace) (p : ContextPlace) :
    (places.map (blockAt uri)).filter (·.id = p.blockId uri) = (places.filter (·.slot = p.slot)).map (blockAt uri) := by
  rw [List.filter_map]
  congr 1
  refine List.filter_congr fun q _ => ?_
  simp only [Function.comp_apply,blockAt_id,ContextPlace.blockId_eq_iff]

end StructureListener

end

theorem count_slots (places : List ContextPlace) (p : ContextPlace) :
    (places.map ContextPlace.slot).count p.slot = (places.filter (·.slot = p.slot)).length := by
  rw [List.count,List.countP_map,List.countP_eq_length_filter]
  congr 1
  exact List.filter_congr fun q _ => Bool.eq_iff_iff.mpr (by simp)

theorem slot_of_accessor (p : ContextPlace) :
    (p.slot.1 = .getter ∨ p.slot.1 = .setter) ↔ p.context.rule.isAccessor = true := by
  obtain ⟨above,rule,range,id⟩ := p
  dsimp only [ContextPlace.slot]
  cases rule <;> decide

theorem scopes_of_accessor {p : ContextPlace} (accessor : p.context.rule.isAccessor = true) : p.scopes = true := by
  unfold ContextPlace.scopes ContextPlace.isMethodBody
  revert accessor
  cases p.context.rule <;> simp [ContextRule.isAccessor,ContextRule.scopeType]

theorem opens_eq_scopes {p : ContextPlace} (plain : p.context.rule.isAccessor = false) : p.opens = p.scopes := by
  rw [ContextPlace.opens,plain,Bool.not_false,Bool.and_true]

theorem enclosingOpen_eq (plain : ∀ c ∈ above, c.rule.isAccessor = false) : enclosingOpen above = enclosing above := by
  induction above with
  | nil => rfl
  | cons c above ih =>
    obtain ⟨here,rest⟩ := List.forall_mem_cons.mp plain
    have same : ContextPlace.opens ⟨above,c⟩ = ContextPlace.scopes ⟨above,c⟩ := opens_eq_scopes here
    rw [enclosingOpen,enclosing,same,ih rest]

theorem above_places :
    (∀ (tree : OrderedTree RuleContext) (above : List RuleContext) (n : Nat), ∀ p ∈ tree.places above n, ∀ c ∈ p.1,
      c ∈ above ∨ ∃ q ∈ tree.places above n, q.2.2.label = c) ∧
    ∀ (trees : List (OrderedTree RuleContext)) (above : List RuleContext) (n : Nat),
      ∀ p ∈ OrderedTree.placesAll above n trees, ∀ c ∈ p.1,
        c ∈ above ∨ ∃ q ∈ OrderedTree.placesAll above n trees, q.2.2.label = c := by
  apply OrderedTree.forest_induction
  · intro ctx trees below above n p member c up
    rcases List.mem_cons.mp member with rfl | inside
    · exact .inl up
    · rcases below (ctx :: above) (n + 1) p inside c up with higher | ⟨q,listed,same⟩
      · rcases List.mem_cons.mp higher with rfl | higher
        · exact .inr ⟨_,List.mem_cons_self,rfl⟩
        · exact .inl higher
      · exact .inr ⟨q,List.mem_cons_of_mem _ listed,same⟩
  · intro above n p member
    cases member
  · intro tree trees first rest above n p member c up
    rcases List.mem_append.mp member with inside | inside
    · exact (first above n p inside c up).imp_right fun ⟨q,listed,same⟩ => ⟨q,List.mem_append_left _ listed,same⟩
    · exact (rest above _ p inside c up).imp_right fun ⟨q,listed,same⟩ => ⟨q,List.mem_append_right _ listed,same⟩

theorem above_contextPlaces {tree : OrderedTree RuleContext} (member : p ∈ contextPlaces tree) (up : c ∈ p.above) :
    ∃ q ∈ contextPlaces tree, q.context = c := by
  obtain ⟨place,listed,rfl⟩ := List.mem_map.mp member
  rcases above_places.1 tree [] 0 place listed c up with nowhere | ⟨q,inTree,same⟩
  · exact absurd nowhere List.not_mem_nil
  · exact ⟨_,List.mem_map_of_mem inTree,same⟩

section

variable [Runtime] (heap : Heap) (fileUri : String) (tree : OrderedTree RuleContext)

open StructureListener

theorem mirrorsTree_iff : MirrorsTree heap fileUri tree ↔
    (∀ p ∈ contextPlaces tree, p.context.rule.isAccessor = false) ∧
      (((contextPlaces tree).filter ContextPlace.opens).map ContextPlace.slot).Nodup := by
  have uri := (listen_start heap fileUri tree).normalizedUri
  have symbols := listen_symbols heap fileUri tree
  constructor
  · intro mirrors
    have own (p : ContextPlace) (member : p ∈ contextPlaces tree) (scopes : p.scopes = true) :
        ∃ b, (((contextPlaces tree).filter ContextPlace.opens).filter (·.slot = p.slot)).map
          (blockAt (start heap fileUri).normalizedUri) = [b] := by
      obtain ⟨b,only,-⟩ := mirrors p member scopes
      rw [uri,symbols,filter_symbols] at only
      exact ⟨b,only⟩
    refine ⟨fun p member => ?_,List.nodup_iff_count_le_one.mpr fun slot => ?_⟩
    · by_contra accessor
      rw [Bool.not_eq_false] at accessor
      obtain ⟨b,only⟩ := own p member (scopes_of_accessor accessor)
      -- whatever has the slot of an accessor is one, and got no block
      obtain ⟨q,listed,-⟩ := List.mem_map.mp (only ▸ List.mem_singleton_self b)
      obtain ⟨opened,same⟩ := List.mem_filter.mp listed
      have slots : q.slot = p.slot := of_decide_eq_true same
      have alike : q.context.rule.isAccessor = true := by
        rw [← slot_of_accessor,slots,slot_of_accessor]
        exact accessor
      have opens := (List.mem_filter.mp opened).2
      simp [ContextPlace.opens,alike] at opens
    · by_cases listed : slot ∈ ((contextPlaces tree).filter ContextPlace.opens).map ContextPlace.slot
      · obtain ⟨p,member,rfl⟩ := List.mem_map.mp listed
        obtain ⟨inTree,opens⟩ := List.mem_filter.mp member
        obtain ⟨b,only⟩ := own p inTree (Bool.and_eq_true_iff.mp opens).1
        rw [count_slots,← List.length_map (blockAt (start heap fileUri).normalizedUri),only]
        exact le_rfl
      · rw [List.count_eq_zero_of_not_mem listed]
        exact Nat.zero_le 1
  · rintro ⟨plain,apart⟩ p member scopes
    have opens : p.opens = true := (opens_eq_scopes (plain p member)).trans scopes
    have listed : p ∈ (contextPlaces tree).filter ContextPlace.opens := List.mem_filter.mpr ⟨member,opens⟩
    have only : ((contextPlaces tree).filter ContextPlace.opens).filter (·.slot = p.slot) = [p] := by
      have once := List.nodup_iff_count_le_one.mp apart p.slot
      rw [count_slots] at once
      have inside : p ∈ ((contextPlaces tree).filter ContextPlace.opens).filter (·.slot = p.slot) :=
        List.mem_filter.mpr ⟨listed,decide_eq_true rfl⟩
      obtain ⟨q,alone⟩ := List.length_eq_one_iff.mp (le_antisymm once (List.length_pos_of_mem inside))
      rw [alone] at inside ⊢
      rw [List.mem_singleton.mp inside]
    refine ⟨blockAt (start heap fileUri).normalizedUri p,?_,rfl,blockAt_scopeType opens,rfl,?_⟩
    · rw [uri,symbols,filter_symbols,only]
      rfl
    · have above : enclosingOpen p.above = enclosing p.above := by
        refine enclosingOpen_eq fun c up => ?_
        obtain ⟨q,inTree,rfl⟩ := above_contextPlaces member up
        exact plain q inTree
      rw [blockAt_parentId,above,uri]

theorem addsNothingAgain_iff : AddsNothingAgain heap fileUri tree ↔ ∀ p ∈ contextPlaces tree, p.opens = false := by
  have first := listen_start heap fileUri tree
  have filling : ((start heap fileUri).listen tree).renewed.Filling :=
    ⟨first.filling.made,fun r member => absurd member List.not_mem_nil,first.filling.filed⟩
  have second := listen_lays filling rfl tree
  have lengths : (((start heap fileUri).listen tree).renewed.listen tree).symbolTable.symbolArray.length =
      ((start heap fileUri).listen tree).symbolTable.symbolArray.length +
        ((contextPlaces tree).filter ContextPlace.opens).length := by
    have listed := congrArg List.length second.symbols
    rw [List.length_append,List.length_map] at listed
    simp only [StructureListener.symbols,List.length_map] at listed
    exact listed
  have none_ : (∀ p ∈ contextPlaces tree, p.opens = false) ↔
      ((contextPlaces tree).filter ContextPlace.opens).length = 0 := by
    simp [List.length_eq_zero_iff,List.filter_eq_nil_iff]
  rw [none_]
  constructor
  · intro same
    have array := congrArg List.length same
    simp only [SymbolTable.getAllSymbols] at array
    omega
  · intro empty
    rw [empty,Nat.add_zero] at lengths
    exact (second.listed.eq_of_length lengths.symm).symm

/-- The stack is empty after every walk. The blocks mirror the tree if and only if it has no accessor and no two blocks
start as the same type of scope in one place; a second walk adds nothing if and only if there was no block to make. All
of it holds of the trees without a context for a block only. -/
theorem blocks_mirror_tree_iff :
    (((start heap fileUri).listen tree).scopeStack = [] ∧ MirrorsTree heap fileUri tree ∧
      AddsNothingAgain heap fileUri tree ↔ ∀ p ∈ contextPlaces tree, p.scopes = false) ∧
    ((start heap fileUri).listen tree).scopeStack = [] ∧
    (MirrorsTree heap fileUri tree ↔ (∀ p ∈ contextPlaces tree, p.context.rule.isAccessor = false) ∧
      (((contextPlaces tree).filter ContextPlace.opens).map ContextPlace.slot).Nodup) ∧
    (AddsNothingAgain heap fileUri tree ↔ ∀ p ∈ contextPlaces tree, p.opens = false) := by
  have stack : ((start heap fileUri).listen tree).scopeStack = [] := (listen_start heap fileUri tree).scopeStack
  refine ⟨?_,stack,mirrorsTree_iff heap fileUri tree,addsNothingAgain_iff heap fileUri tree⟩
  rw [mirrorsTree_iff,addsNothingAgain_iff]
  constructor
  · rintro ⟨-,⟨plain,-⟩,closed⟩ p member
    rw [← opens_eq_scopes (plain p member)]
    exact closed p member
  · intro none_
    have closed : ∀ p ∈ contextPlaces tree, p.opens = false := by
      intro p member
      rw [ContextPlace.opens,none_ p member,Bool.false_and]
    refine ⟨stack,⟨fun p member => ?_,?_⟩,closed⟩
    · by_contra accessor
      rw [Bool.not_eq_false] at accessor
      exact absurd (none_ p member) (by simp [scopes_of_accessor accessor])
    · rw [List.filter_eq_nil_iff.mpr fun p member => by simp [closed p member]]
      exact List.nodup_nil

end

/-- `class C { Integer n { get { return 1; } } }` -/
def propertyClass : OrderedTree RuleContext :=
  .node ⟨.classDeclaration,⟨1,0,1,44⟩,some "C"⟩
    [.node ⟨.other,⟨1,10,1,42⟩,none⟩
      [.node ⟨.getter,⟨1,22,1,40⟩,none⟩ [.node ⟨.block,⟨1,26,1,40⟩,none⟩ []]]]

/-- The getter has no block, and a second walk makes the blocks of the class and of the getter's body again. -/
theorem getter_without_block :
    ¬ @MirrorsTree asciiRuntime (fun _ => default) "file:///C.cls" propertyClass ∧
      ¬ @AddsNothingAgain asciiRuntime (fun _ => default) "file:///C.cls" propertyClass := by
  let _ := asciiRuntime
  rw [mirrorsTree_iff,addsNothingAgain_iff]
  exact ⟨fun mirrors => absurd mirrors.1 (by decide),by decide⟩

end ApexLs.Parser
