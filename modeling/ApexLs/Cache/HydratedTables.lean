import ApexLs.Cache.StdlibDeserializer
import ApexLs.Types.SymbolTableIndexes

/-! What a hydrated table lists. A new object is on no list yet and has no detail level, so no earlier
symbol is enriched by it or stands in for it: the table lists it last, whatever is filed under its id. -/
namespace ApexLs.Cache

open ApexLs.Utils ApexLs.Types ApexLs.Collections

structure Hydrated (symbol : ApexSymbol) : Prop where
  synchronized : Synchronized symbol
  inFile : symbol.key.fileUri = some symbol.fileUri
  placed : symbol.parentId ≠ .undefined
  unlevelled : symbol.detailLevel = none

namespace Hydration

structure Filling (s : Hydration) : Prop where
  made : ∀ r ∈ s.table.symbolArray, ∃ k < s.next, r = .declared k
  filed : ∀ id b, s.table.symbolMap.get? id = some b → ∀ r ∈ b.symbols, r ∈ s.table.symbolArray

theorem new_filling (fileUri : String) : (Hydration.new fileUri).Filling where
  made := by simp [Hydration.new,SymbolTable.setMetadata]
  filed := by simp [Hydration.new,SymbolTable.setMetadata]

theorem new_getAllSymbols (fileUri : String) : (Hydration.new fileUri).getAllSymbols = [] := rfl

end Hydration

section

variable [Runtime]

theorem Hydrated.prepare_put (hydrated : Hydrated symbol) (heap : Heap) (r : Ref) (scope : Option String) :
    prepare (heap.put r symbol) r scope = heap.put r symbol := by
  have kept : synchronizeKey symbol = symbol := by
    have keyed := hydrated.synchronized.keyed
    have inFile := hydrated.inFile
    have uri : ∀ u : String, orElse (some u) u = u := by
      intro u
      simp only [orElse]
      split <;> simp_all
    simp only [synchronizeKey,if_pos hydrated.synchronized.truthy]
    simp only [keyed,inFile,uri,Option.getD_some]
  have adopted : adoptParent scope symbol = symbol := by
    have placed := hydrated.placed
    cases parent : symbol.parentId <;> cases scope <;> simp_all [adoptParent]
  rw [prepare,Heap.put_self,kept,adopted]
  simp [Heap.put]

omit [Runtime] in
open SymbolTable in
theorem foldl_pushIfAbsent_listed {l rest : List Ref} (listed : ∀ r ∈ rest, r ∈ l) : rest.foldl pushIfAbsent l = l := by
  induction rest with
  | nil => rfl
  | cons r rest ih =>
    have present : r ∈ l := listed r List.mem_cons_self
    rw [List.foldl_cons,pushIfAbsent,if_pos present]
    exact ih (fun r' member => listed r' (List.mem_cons_of_mem _ member))

omit [Runtime] in
open SymbolTable in
theorem foldl_pushIfAbsent_new {l rest : List Ref} (absent : symbol ∉ l) (listed : ∀ r ∈ rest, r ∈ l ∨ r = symbol) :
    (symbol :: rest).foldl pushIfAbsent l = l ++ [symbol] := by
  rw [List.foldl_cons,pushIfAbsent,if_neg absent]
  apply foldl_pushIfAbsent_listed
  simpa using listed

structure ListsLast (t after : SymbolTable) (symbol : Ref) : Prop where
  listed : after.symbolArray = t.symbolArray ++ [symbol]
  filed : ∀ id b, after.symbolMap.get? id = some b → ∀ r ∈ b.symbols, r ∈ after.symbolArray

omit [Runtime] in
theorem ListsLast.rooted {t after : SymbolTable} (last : ListsLast t after symbol) (heap : Heap) (previous : ParentId) :
    ListsLast t (after.updateRootsArray heap symbol previous) symbol := ⟨last.listed,last.filed⟩

omit [Runtime] in
theorem file_listsLast {t : SymbolTable} {bucket : Bucket} (absent : symbol ∉ t.symbolArray)
    (filed : ∀ id b, t.symbolMap.get? id = some b → ∀ r ∈ b.symbols, r ∈ t.symbolArray)
    (known : ∀ r ∈ rest, r ∈ t.symbolArray ∨ r = symbol) (inside : ∀ r ∈ bucket.symbols, r ∈ t.symbolArray ∨ r = symbol) :
    ListsLast t (t.file key bucket (symbol :: rest)) symbol := by
  have listed : (t.file key bucket (symbol :: rest)).symbolArray = t.symbolArray ++ [symbol] :=
    foldl_pushIfAbsent_new absent known
  refine ⟨listed,fun id b got r member => ?_⟩
  rw [listed,List.mem_append,List.mem_singleton]
  rw [SymbolTable.file,OrderedMap.get?_set] at got
  split at got
  next =>
    obtain rfl := Option.some.inj got
    exact inside r member
  next => exact .inl (filed id b got r member)

theorem insertPrepared_unlevelled {t : SymbolTable} (unlevelled : (heap symbol).detailLevel = none)
    (absent : symbol ∉ t.symbolArray)
    (filed : ∀ id b, t.symbolMap.get? id = some b → ∀ r ∈ b.symbols, r ∈ t.symbolArray) :
    (t.insertPrepared heap symbol).1 = heap ∧ ListsLast t (t.insertPrepared heap symbol).2 symbol := by
  have found : t.lookupExisting heap symbol =
      (getUnifiedId (heap symbol).key (heap symbol).fileUri,
        t.symbolMap.get? (getUnifiedId (heap symbol).key (heap symbol).fileUri)) := by
    have alone : t.fallback heap symbol = none := by
      simp [SymbolTable.fallback,SymbolTable.fallsBack,unlevelled]
    unfold SymbolTable.lookupExisting
    cases bucket : t.symbolMap.get? (getUnifiedId (heap symbol).key (heap symbol).fileUri) with
    | none => simp [bucket,alone]
    | some b => simp [bucket]
  unfold SymbolTable.insertPrepared
  simp only [found]
  cases bucket : t.symbolMap.get? (getUnifiedId (heap symbol).key (heap symbol).fileUri) with
  | none => exact ⟨rfl,(file_listsLast absent filed (by simp) (by simp [Bucket.symbols])).rooted _ _⟩
  | some b =>
    have inside := filed _ b bucket
    cases b with
    | single e =>
      have present : e ∈ t.symbolArray := inside e (by simp [Bucket.symbols])
      have apart : e ≠ symbol := fun same => absent (same ▸ present)
      have exit : SymbolTable.exitOf heap symbol (some (.single e)) = .secondDuplicate e := by
        simp [SymbolTable.exitOf,SymbolTable.exitAgainst,apart,unlevelled]
      rw [exit]
      exact ⟨rfl,(file_listsLast absent filed (by simp [present]) (by simp [Bucket.symbols,present])).rooted _ _⟩
    | many duplicates =>
      have known : ∀ r ∈ SymbolTable.pushIfAbsent duplicates symbol, r ∈ t.symbolArray ∨ r = symbol := by
        intro r member
        exact (SymbolTable.mem_pushIfAbsent.mp member).imp_left (inside r)
      have inBucket : ∀ r ∈ (Bucket.many (SymbolTable.pushIfAbsent duplicates symbol)).symbols,
        r ∈ t.symbolArray ∨ r = symbol := known
      exact ⟨rfl,(file_listsLast absent filed known inBucket).rooted _ _⟩

section

variable {t after : SymbolTable} {next : Nat} (made : ∀ r ∈ t.symbolArray, ∃ k < next, r = .declared k)

include made

omit [Runtime] in
theorem next_absent : Ref.declared next ∉ t.symbolArray := by
  intro member
  obtain ⟨k,below,same⟩ := made _ member
  cases same
  exact Nat.lt_irrefl _ below

omit [Runtime] in
theorem ListsLast.declared (last : ListsLast t after (.declared next)) :
    ∀ r ∈ after.symbolArray, ∃ k < next + 1, r = .declared k := by
  intro r member
  rw [last.listed,List.mem_append,List.mem_singleton] at member
  rcases member with before | rfl
  · obtain ⟨k,below,rfl⟩ := made r before
    exact ⟨k,Nat.lt_succ_of_lt below,rfl⟩
  · exact ⟨next,Nat.lt_succ_self _,rfl⟩

omit [Runtime] in
theorem ListsLast.symbols (last : ListsLast t after (.declared next)) (heap : Heap) (symbol : ApexSymbol) :
    after.getAllSymbols.map (heap.put (.declared next) symbol) = t.getAllSymbols.map heap ++ [symbol] := by
  simp only [SymbolTable.getAllSymbols,last.listed,List.map_append,List.map_cons,List.map_nil,Heap.put_self]
  congr 1
  apply List.map_congr_left
  intro r member
  have apart : r ≠ .declared next := fun same => next_absent made (same ▸ member)
  rw [Heap.put_of_ne _ _ apart]

theorem Hydrated.addSymbol (hydrated : Hydrated symbol)
    (filed : ∀ id b, t.symbolMap.get? id = some b → ∀ r ∈ b.symbols, r ∈ t.symbolArray) (heap : Heap)
    (scope : Option String) :
    (t.addSymbol (heap.put (.declared next) symbol) (.declared next) scope).1 = heap.put (.declared next) symbol ∧
      ListsLast t (t.addSymbol (heap.put (.declared next) symbol) (.declared next) scope).2 (.declared next) := by
  have unlevelled : (heap.put (.declared next) symbol (.declared next)).detailLevel = none := by
    rw [Heap.put_self]
    exact hydrated.unlevelled
  rw [SymbolTable.addSymbol,hydrated.prepare_put]
  exact insertPrepared_unlevelled unlevelled (next_absent made) filed

end

namespace Hydration

theorem addSymbol_spec {s : Hydration} (filling : s.Filling) (hydrated : Hydrated symbol) :
    (s.addSymbol symbol).Filling ∧ (s.addSymbol symbol).getAllSymbols = s.getAllSymbols ++ [symbol] := by
  obtain ⟨sameHeap,last⟩ := hydrated.addSymbol filling.made filling.filed s.heap none
  have heap : (s.addSymbol symbol).heap = s.heap.put (.declared s.next) symbol := sameHeap
  refine ⟨⟨last.declared filling.made,last.filed⟩,?_⟩
  rw [getAllSymbols,getAllSymbols,heap]
  exact last.symbols filling.made s.heap symbol

theorem addSymbols_spec {s : Hydration} (filling : s.Filling) {symbols : List ApexSymbol}
    (hydrated : ∀ symbol ∈ symbols, Hydrated symbol) :
    (s.addSymbols symbols).Filling ∧ (s.addSymbols symbols).getAllSymbols = s.getAllSymbols ++ symbols := by
  induction symbols generalizing s with
  | nil => exact ⟨filling,(List.append_nil _).symm⟩
  | cons symbol symbols ih =>
    obtain ⟨first,rest⟩ := List.forall_mem_cons.mp hydrated
    obtain ⟨filling',listed⟩ := addSymbol_spec filling first
    obtain ⟨filling'',all⟩ := ih filling' rest
    exact ⟨filling'',by rw [addSymbols,List.foldl_cons,← addSymbols,all,listed,List.append_assoc,List.singleton_append]⟩

end Hydration
/-! Every object that the deserializer makes is of this kind. -/

theorem createFullSymbol_hydrated {modifiers : SymbolModifiers} {annotations : Option (List Annotation)} {scopePath : List String}
    (placed : parentId ≠ .undefined) :
    Hydrated (createFullSymbol name kind location fileUri modifiers parentId fqn namespace_ annotations scopePath) where
  synchronized := ⟨rfl,generateSymbolId_ne_empty _ _ _ _ _ _⟩
  inFile := rfl
  placed := placed
  unlevelled := rfl

omit [Runtime] in
theorem Hydrated.extend (hydrated : Hydrated symbol) (key : extended.key = symbol.key) (id : extended.id = symbol.id)
    (fileUri : extended.fileUri = symbol.fileUri) (parentId : extended.parentId = symbol.parentId)
    (detailLevel : extended.detailLevel = symbol.detailLevel) : Hydrated extended where
  synchronized := ⟨by rw [key,id,hydrated.synchronized.keyed],by rw [id]; exact hydrated.synchronized.nonempty⟩
  inFile := by rw [key,fileUri,hydrated.inFile]
  placed := by rw [parentId]; exact hydrated.placed
  unlevelled := by rw [detailLevel,hydrated.unlevelled]

omit [Runtime] in
theorem parentOr_of_ne_undefined (text id : String) : parentOr text (.of id) ≠ .undefined := by
  unfold parentOr
  split <;> simp

omit [Runtime] in
theorem parentOr_null_ne_undefined (text : String) : parentOr text .null ≠ .undefined := by
  unfold parentOr
  split <;> simp

omit [Runtime] in
theorem parentOr_ne_undefined (text : String) (placed : fallback ≠ .undefined) : parentOr text fallback ≠ .undefined := by
  unfold parentOr
  split
  · exact placed
  · simp

namespace StandardLibraryDeserializer

theorem createBlockSymbol_hydrated (name : String) (scopeType : Option ScopeType) (location : SymbolLocation) (fileUri : String)
    (placed : parentId ≠ .undefined) :
    Hydrated (createBlockSymbol name scopeType location fileUri parentId) where
  synchronized := ⟨rfl,generateSymbolId_ne_empty _ _ _ _ _ _⟩
  inFile := rfl
  placed := placed
  unlevelled := rfl

omit [Runtime] in
theorem preserveId_hydrated (hydrated : Hydrated symbol) (protoId : String) : Hydrated (preserveId protoId symbol) := by
  unfold preserveId
  split
  next => exact hydrated
  next given => exact ⟨⟨rfl,given⟩,hydrated.inFile,hydrated.placed,hydrated.unlevelled⟩

theorem convertParameter_hydrated (proto : ProtoParameterSymbol) (parentId : String) :
    Hydrated (convertParameterToVariableSymbol proto parentId) :=
  (preserveId_hydrated (createFullSymbol_hydrated (parentOr_of_ne_undefined _ _)) _).extend rfl rfl rfl rfl rfl

theorem convertMethod_hydrated (proto : ProtoMethodSymbol) (parentId namespace_ : String) :
    Hydrated (convertMethodSymbol proto parentId namespace_) :=
  (preserveId_hydrated (createFullSymbol_hydrated (parentOr_of_ne_undefined _ _)) _).extend rfl rfl rfl rfl rfl

theorem convertVariable_hydrated (proto : ProtoVariableSymbol) (parentId namespace_ : String) :
    Hydrated (convertVariableSymbol proto parentId namespace_) :=
  (preserveId_hydrated (createFullSymbol_hydrated (parentOr_of_ne_undefined _ _)) _).extend rfl rfl rfl rfl rfl

theorem convertType_hydrated (proto : ProtoTypeSymbol) (parentId : Option String) (namespace_ : String) :
    Hydrated (convertTypeSymbol proto parentId namespace_) :=
  (preserveId_hydrated (createFullSymbol_hydrated
    (parentOr_ne_undefined _ (parentOr_null_ne_undefined _))) _).extend rfl rfl rfl rfl rfl

theorem convertBlock_hydrated (proto : ProtoBlockSymbol) (namespace_ : String) :
    Hydrated (convertBlockSymbol proto namespace_) := by
  unfold convertBlockSymbol
  have base := preserveId_hydrated (createBlockSymbol_hydrated proto.name proto.scopeType
    (convertLocation proto.location) proto.fileUri
    (parentOr_null_ne_undefined proto.parentId)) proto.id
  dsimp only
  split
  next => exact base
  next => exact base.extend rfl rfl rfl rfl rfl

/-! What the made objects take from their messages. -/

section

variable (protoId : String) (symbol : ApexSymbol)

omit [Runtime]

theorem preserveId_id {protoId : String} (given : protoId ≠ "") : (preserveId protoId symbol).id = protoId := by
  rw [preserveId,if_neg given]

@[simp] theorem preserveId_name : (preserveId protoId symbol).name = symbol.name := by
  unfold preserveId
  split <;> rfl

@[simp] theorem preserveId_kind : (preserveId protoId symbol).kind = symbol.kind := by
  unfold preserveId
  split <;> rfl

@[simp] theorem preserveId_location : (preserveId protoId symbol).location = symbol.location := by
  unfold preserveId
  split <;> rfl

@[simp] theorem preserveId_parentId : (preserveId protoId symbol).parentId = symbol.parentId := by
  unfold preserveId
  split <;> rfl

@[simp] theorem preserveId_modifiers : (preserveId protoId symbol).modifiers = symbol.modifiers := by
  unfold preserveId
  split <;> rfl

end

section

variable (name : String) (kind : SymbolKind) (location : SymbolLocation) (fileUri : String)
  (modifiers : SymbolModifiers) (parentId : ParentId)
  (fqn namespace_ : Option String) (annotations : Option (List Annotation))

@[simp] theorem createFullSymbol_name :
    (createFullSymbol name kind location fileUri modifiers parentId fqn namespace_ annotations).name = name := rfl

@[simp] theorem createFullSymbol_kind :
    (createFullSymbol name kind location fileUri modifiers parentId fqn namespace_ annotations).kind = kind := rfl

@[simp] theorem createFullSymbol_location :
    (createFullSymbol name kind location fileUri modifiers parentId fqn namespace_ annotations).location = location := rfl

@[simp] theorem createFullSymbol_parentId :
    (createFullSymbol name kind location fileUri modifiers parentId fqn namespace_ annotations).parentId = parentId := rfl

@[simp] theorem createFullSymbol_modifiers :
    (createFullSymbol name kind location fileUri modifiers parentId fqn namespace_ annotations).modifiers = modifiers := rfl

end

/-- A block keeps the parent it was serialized with, and its whole range identifies it. -/
structure MadeFromBlock (proto : ProtoBlockSymbol) (symbol : ApexSymbol) : Prop where
  id : proto.id ≠ "" → symbol.id = proto.id
  name : symbol.name = proto.name
  kind : symbol.kind = .block
  location : symbol.location = ⟨(convertLocation proto.location).symbolRange,(convertLocation proto.location).symbolRange⟩
  parentId : symbol.parentId = parentOr proto.parentId .null

theorem convertBlockSymbol_made (proto : ProtoBlockSymbol) (namespace_ : String) :
    MadeFromBlock proto (convertBlockSymbol proto namespace_) := by
  unfold convertBlockSymbol
  dsimp only
  split
  all_goals
    refine ⟨fun given => preserveId_id _ given,?_,?_,?_,?_⟩
    all_goals
      simp [createBlockSymbol]

/-! The symbols made from a message, in the order in which they are made. -/

def blockSymbols (protoType : ProtoTypeSymbol) (namespace_ : String) : List ApexSymbol :=
  protoType.blocks.map (fun p => convertBlockSymbol p namespace_)

def variableSymbols (protoType : ProtoTypeSymbol) (typeId namespace_ : String) : List ApexSymbol :=
  (protoType.fields ++ protoType.properties ++ protoType.enumValues).map (fun p => convertVariableSymbol p typeId namespace_)

mutual

def symbolsOfInnerType (protoType : ProtoTypeSymbol) (parentId namespace_ : String) : List ApexSymbol :=
  match protoType with
  | { innerTypes,.. } =>
    let typeSymbol := convertTypeSymbol protoType (some parentId) namespace_
    typeSymbol :: (blockSymbols protoType namespace_ ++
      protoType.methods.map (fun p => convertMethodSymbol p typeSymbol.id namespace_) ++
      variableSymbols protoType typeSymbol.id namespace_ ++ symbolsOfInnerTypes innerTypes typeSymbol.id namespace_)
  termination_by structural protoType

def symbolsOfInnerTypes (innerTypes : List ProtoTypeSymbol) (parentId namespace_ : String) : List ApexSymbol :=
  match innerTypes with
  | [] => []
  | innerType :: rest => symbolsOfInnerType innerType parentId namespace_ ++ symbolsOfInnerTypes rest parentId namespace_
  termination_by structural innerTypes

end

def symbolsOfType (protoType : ProtoTypeSymbol) (namespace_ : String) : List ApexSymbol :=
  let typeSymbol := convertTypeSymbol protoType none namespace_
  typeSymbol :: (blockSymbols protoType namespace_ ++
    protoType.methods.flatMap (methodWithParameters typeSymbol.id namespace_) ++
    variableSymbols protoType typeSymbol.id namespace_ ++ symbolsOfInnerTypes protoType.innerTypes typeSymbol.id namespace_)

theorem methods_hydrated (protoType : ProtoTypeSymbol) (typeId namespace_ : String) :
    ∀ symbol ∈ protoType.methods.map (fun p => convertMethodSymbol p typeId namespace_), Hydrated symbol := by
  simp [convertMethod_hydrated]

def Appends (s after : Hydration) (symbols : List ApexSymbol) : Prop :=
  s.Filling → after.Filling ∧ after.getAllSymbols = s.getAllSymbols ++ symbols

omit [Runtime] in
theorem Appends.trans {s after last : Hydration} (first : Appends s after symbols) (second : Appends after last more) :
    Appends s last (symbols ++ more) := by
  intro filling
  obtain ⟨filling',listed⟩ := first filling
  obtain ⟨filling'',listed'⟩ := second filling'
  exact ⟨filling'',by rw [listed',listed,List.append_assoc]⟩

theorem appends_addSymbol (s : Hydration) (hydrated : Hydrated symbol) : Appends s (s.addSymbol symbol) [symbol] :=
  fun filling => Hydration.addSymbol_spec filling hydrated

theorem appends_addSymbols (s : Hydration) {symbols : List ApexSymbol} (hydrated : ∀ symbol ∈ symbols, Hydrated symbol) :
    Appends s (s.addSymbols symbols) symbols :=
  fun filling => Hydration.addSymbols_spec filling hydrated

theorem appends_addBlocks (s : Hydration) (protoType : ProtoTypeSymbol) (namespace_ : String) :
    Appends s (addBlocks s protoType namespace_) (blockSymbols protoType namespace_) :=
  appends_addSymbols s (by simp [convertBlock_hydrated])

theorem appends_addVariables (s : Hydration) (protoType : ProtoTypeSymbol) (typeId namespace_ : String) :
    Appends s (addVariables s protoType typeId namespace_) (variableSymbols protoType typeId namespace_) := by
  have each : ∀ protos : List ProtoVariableSymbol, ∀ symbol ∈ protos.map (fun p => convertVariableSymbol p typeId namespace_),
      Hydrated symbol := by
    intro protos
    simp [convertVariable_hydrated]
  rw [variableSymbols,List.map_append,List.map_append]
  exact ((appends_addSymbols _ (each _)).trans (appends_addSymbols _ (each _))).trans (appends_addSymbols _ (each _))

theorem addInnerTypeToSymbolTable_eq (s : Hydration) (protoType : ProtoTypeSymbol) (parentId namespace_ : String) :
    addInnerTypeToSymbolTable s protoType parentId namespace_ =
      (let typeSymbol := convertTypeSymbol protoType (some parentId) namespace_
       let s := addBlocks (s.addSymbol typeSymbol) protoType namespace_
       let s := s.addSymbols (protoType.methods.map (fun p => convertMethodSymbol p typeSymbol.id namespace_))
       addInnerTypes (addVariables s protoType typeSymbol.id namespace_) protoType.innerTypes typeSymbol.id namespace_) := by
  cases protoType
  rfl

theorem symbolsOfInnerType_eq (protoType : ProtoTypeSymbol) (parentId namespace_ : String) :
    symbolsOfInnerType protoType parentId namespace_ =
      (let typeSymbol := convertTypeSymbol protoType (some parentId) namespace_
       typeSymbol :: (blockSymbols protoType namespace_ ++
         protoType.methods.map (fun p => convertMethodSymbol p typeSymbol.id namespace_) ++
         variableSymbols protoType typeSymbol.id namespace_ ++
           symbolsOfInnerTypes protoType.innerTypes typeSymbol.id namespace_)) := by
  cases protoType
  rfl

omit [Runtime] in
theorem message_induction {P : ProtoTypeSymbol → Prop}
    (step : ∀ protoType : ProtoTypeSymbol, (∀ innerType ∈ protoType.innerTypes, P innerType) → P protoType)
    (protoType : ProtoTypeSymbol) :
    P protoType := by
  have cons : ∀ innerType rest, P innerType → (∀ innerType ∈ rest, P innerType) → ∀ other ∈ innerType :: rest, P other :=
    fun _ _ first others => List.forall_mem_cons.mpr ⟨first,others⟩
  exact @ProtoTypeSymbol.rec P (fun innerTypes => ∀ innerType ∈ innerTypes, P innerType)
    (by intros; exact step _ ‹_›) (fun _ member => absurd member List.not_mem_nil) cons protoType

theorem appends_addInnerTypes (innerTypes : List ProtoTypeSymbol) (namespace_ : String)
    (each : ∀ innerType ∈ innerTypes, ∀ s parentId,
      Appends s (addInnerTypeToSymbolTable s innerType parentId namespace_) (symbolsOfInnerType innerType parentId namespace_))
    (s : Hydration) (parentId : String) :
    Appends s (addInnerTypes s innerTypes parentId namespace_) (symbolsOfInnerTypes innerTypes parentId namespace_) := by
  induction innerTypes generalizing s with
  | nil => exact fun filling => ⟨filling,(List.append_nil _).symm⟩
  | cons innerType rest ih =>
    obtain ⟨first,others⟩ := List.forall_mem_cons.mp each
    exact (first s parentId).trans (ih others _)

theorem appends_addInnerType (protoType : ProtoTypeSymbol) (namespace_ : String) : ∀ s parentId,
    Appends s (addInnerTypeToSymbolTable s protoType parentId namespace_) (symbolsOfInnerType protoType parentId namespace_) := by
  induction protoType using message_induction with
  | step protoType ih =>
    intro s parentId
    rw [addInnerTypeToSymbolTable_eq,symbolsOfInnerType_eq]
    have named := (appends_addSymbol s (convertType_hydrated protoType (some parentId) namespace_)).trans
      (appends_addBlocks _ protoType namespace_)
    have members := fun typeId => (named.trans (appends_addSymbols _ (methods_hydrated protoType typeId namespace_))).trans
      (appends_addVariables _ protoType typeId namespace_)
    have whole := fun typeId => (members typeId).trans (appends_addInnerTypes protoType.innerTypes namespace_ ih _ typeId)
    simpa only [List.singleton_append,List.cons_append,List.nil_append,List.append_assoc] using whole _

theorem createSymbolTableForType_getAllSymbols (protoType : ProtoTypeSymbol) (namespace_ : String) :
    (createSymbolTableForType protoType namespace_).getAllSymbols = symbolsOfType protoType namespace_ := by
  have withParameters : ∀ typeId, ∀ symbol ∈ protoType.methods.flatMap (methodWithParameters typeId namespace_),
    Hydrated symbol := by
    intro typeId symbol member
    obtain ⟨proto,_,inside⟩ := List.mem_flatMap.mp member
    rcases List.mem_cons.mp inside with rfl | inside
    · exact convertMethod_hydrated _ _ _
    · obtain ⟨param,_,rfl⟩ := List.mem_map.mp inside
      exact convertParameter_hydrated _ _
  have named := (appends_addSymbol (Hydration.new protoType.fileUri) (convertType_hydrated protoType none namespace_)).trans
    (appends_addBlocks _ protoType namespace_)
  have members := fun typeId => (named.trans (appends_addSymbols _ (withParameters typeId))).trans
    (appends_addVariables _ protoType typeId namespace_)
  have whole := fun typeId => (members typeId).trans
    (appends_addInnerTypes protoType.innerTypes namespace_
      (fun innerType _ => appends_addInnerType innerType namespace_) _ typeId)
  have listed := fun typeId => (whole typeId (Hydration.new_filling _)).2
  rw [createSymbolTableForType,symbolsOfType]
  simpa only [Hydration.new_getAllSymbols,List.nil_append,List.singleton_append,List.cons_append,List.append_assoc] using listed _

end StandardLibraryDeserializer
end
end ApexLs.Cache
