import Mathlib.Data.List.Sort
import ApexLs.Collections.FirstOfKey
import ApexLs.Collections.OrderedMap
import ApexLs.Resolution.LoadedFiles
import ApexLs.Utils.AsciiBytes

/-! The members of a type that are completed after a dot: its own, those of its superclasses and those of the interfaces it
names, one of every key. -/
namespace ApexLs.Completion

open ApexLs.Collections ApexLs.Resolution ApexLs.Types ApexLs.Utils

structure MemberFiles extends LoadedFiles where
  parseComplete : String → Bool

inductive MemberSource where
  | direct | inherited | interface
  deriving DecidableEq, Repr

structure MemberCandidate where
  symbol : ApexSymbol
  relevance : Rat
  source : MemberSource
  isStatic : Bool

def isMemberOf (symbol typeSymbol : ApexSymbol) (allSymbols : List ApexSymbol) : Bool :=
  !symbol.isBlockSymbol && symbol.id ≠ typeSymbol.id && symbol.fileUri = typeSymbol.fileUri &&
    symbol.kind ≠ .variable && symbol.kind ≠ .parameter &&
    (childOf typeSymbol symbol ||
      (allSymbols.find? fun s => childOf s symbol).any fun parent => isClassBlock parent && childOf typeSymbol parent)

def isMemberLike (s : ApexSymbol) : Bool :=
  s.kind ∈ [SymbolKind.method,.constructor,.field,.property,.class_,.interface,.enum,.enumValue]

def classBlockOfType (allSymbols : List ApexSymbol) (typeSymbol : ApexSymbol) : Option ApexSymbol :=
  allSymbols.find? fun s => isClassBlock s && (childOf typeSymbol s || s.fileUri = typeSymbol.fileUri &&
    (allSymbols.find? fun ts => childOf ts s && ts.name = typeSymbol.name && ts.kind = typeSymbol.kind).isSome)

def membersOfBlock (allSymbols : List ApexSymbol) (typeSymbol classBlock : ApexSymbol) : List ApexSymbol :=
  let scopeMembers := allSymbols.filter (childOf classBlock)
  let directMembers := allSymbols.filter fun s => !s.isBlockSymbol && s.fileUri = typeSymbol.fileUri &&
    childOf classBlock s && s.kind ≠ .variable && s.kind ≠ .parameter
  (firstOfKey ApexSymbol.id [] ((scopeMembers ++ directMembers).filter (!·.isBlockSymbol))).filter isMemberLike

def shouldIncludeMember (expectStatic : Bool) (member : ApexSymbol) : Bool :=
  !member.isBlockSymbol && member.kind ≠ .variable && member.kind ≠ .parameter && member.kind ≠ .constructor &&
    if expectStatic then member.modifiers.isStatic || member.kind ∈ [SymbolKind.class_,.interface,.enum,.enumValue]
    else !member.modifiers.isStatic || member.kind = .enumValue

def rank : Nat → Rat
  | 0 => 1
  | i + 1 => 0.8 - i * 0.05

section

variable [Runtime]

def memberKey (member : ApexSymbol) : String :=
  let paramTypes := ",".intercalate ((member.parameters.getD []).map fun p => toLowerCase ((p.type.map TypeInfo.name).getD ""))
  if member.kind = .method then member.kind.text ++ ":" ++ member.name ++ "(" ++ paramTypes ++ ")"
  else member.kind.text ++ ":" ++ member.name

omit [Runtime] in
def uniqueTypes (types : List ApexSymbol) : List ApexSymbol :=
  (types.foldl (fun filed type => filed.set type.id type) OrderedMap.empty).entries.map Prod.snd

variable (files : MemberFiles)

/-- The type as the table of its file has it now, if the file was parsed to its end. -/
def currentTypeSymbol (type : ApexSymbol) : ApexSymbol :=
  if type.fileUri = "" then type
  else
    match files.getSymbolTableForFile type.fileUri with
    | none => type
    | some table =>
      let exactId := (table.getAllSymbols.find? fun s => s.id = type.id).filter ApexSymbol.inTypeSymbolGroup
      let exactIdentity := table.getAllSymbols.find? fun s => s.inTypeSymbolGroup && toLowerCase s.name = toLowerCase type.name &&
        if truthy type.fqn then s.fqn.map toLowerCase = type.fqn.map toLowerCase
        else toLowerCase (s.namespace_.getD "") = toLowerCase (type.namespace_.getD "")
      if files.parseComplete type.fileUri then (exactId.or exactIdentity).getD type else type

def resolveAsType (name : String) : Option ApexSymbol :=
  match (files.findSymbolByFQN name).filter ApexSymbol.inTypeSymbolGroup with
  | some byFqn => some (currentTypeSymbol files byFqn)
  | none =>
    match uniqueTypes ((files.findSymbolByName name).filter ApexSymbol.inTypeSymbolGroup) with
    | [type] => some (currentTypeSymbol files type)
    | _ => none

omit [Runtime] in
def directMembers (typeSymbol : ApexSymbol) : List ApexSymbol :=
  if typeSymbol.fileUri = "" then []
  else
    match files.getSymbolTableForFile typeSymbol.fileUri with
    | none =>
      let fileSymbols := files.findSymbolsInFile typeSymbol.fileUri
      fileSymbols.filter fun s => isMemberOf s typeSymbol fileSymbols
    | some symbolTable =>
      let allSymbols := symbolTable.getAllSymbols
      match classBlockOfType allSymbols typeSymbol with
      | some classBlock => membersOfBlock allSymbols typeSymbol classBlock
      | none => allSymbols.filter fun s => isMemberOf s typeSymbol allSymbols

def superType (c : ApexSymbol) : Option ApexSymbol := (c.superClass.filter (· ≠ "")).bind (resolveAsType files)

def implementedTypes (c : ApexSymbol) : List ApexSymbol := (c.interfaces.getD []).filterMap (resolveAsType files)

structure Stage where
  type : ApexSymbol
  relevance : Rat
  source : MemberSource

/-- The type, then ten superclasses at most, none for the second time, then the interfaces that the type itself names. -/
def stages (typeSymbol : ApexSymbol) : List Stage :=
  { type := typeSymbol,relevance := 1,source := .direct } ::
    (visitedWalk ApexSymbol.id (superType files) 10 [typeSymbol.id] (superType files typeSymbol)).zipIdx.map (fun visited =>
      { type := visited.1,relevance := 0.8 - visited.2 * 0.05,source := .inherited }) ++
    (implementedTypes files typeSymbol).map fun ifaceType => { type := ifaceType,relevance := 0.7,source := .interface }

omit [Runtime] in
def stageMembers (expectStatic : Bool) (stage : Stage) : List MemberCandidate :=
  ((directMembers files stage.type).filter (shouldIncludeMember expectStatic)).map fun member =>
    { symbol := member,relevance := stage.relevance,source := stage.source,isStatic := member.modifiers.isStatic }

def getMembersOfType (typeSymbol : ApexSymbol) (expectStatic : Bool) : List MemberCandidate :=
  let candidates := firstOfKey (memberKey ·.symbol) [] ((stages files typeSymbol).flatMap (stageMembers files expectStatic))
  candidates.insertionSort fun a b => b.relevance ≤ a.relevance

/-- The superclasses, and the interfaces of every type: loaded interfaces that its texts name. -/
structure Hierarchy (files : LoadedFiles) extends Superclasses files where
  interfaces : ApexSymbol → List ApexSymbol
  declared : ∀ c, ∀ interface ∈ interfaces c, interface ∈ files.symbols ∧ interface.kind = .interface ∧
    ∃ text ∈ c.interfaces.getD [],
      toLowerCase interface.name = toLowerCase (lastSegment (String.ofList (text.toList.takeWhile (· ≠ '<'))))

/-- What tells a type's members apart: the kind, the name ignoring case, and a method's types of parameters with their
arguments. -/
def identity (member : ApexSymbol) : SymbolKind × String × List (Option String) :=
  let paramTypes := (member.parameters.getD []).map fun p => p.type.map fun type => toLowerCase type.originalTypeString
  (member.kind,toLowerCase member.name,if member.kind = .method then paramTypes else [])

/-- A type whose members are asked for, in the hierarchy of the loaded types. -/
structure MemberRequest where
  files : MemberFiles
  type : ApexSymbol
  expectStatic : Bool
  loaded : type ∈ files.symbols
  kind : type.kind = .class_ ∨ type.kind = .interface
  hierarchy : Hierarchy files.toLoadedFiles

namespace MemberRequest

variable (q : MemberRequest)

def outcome : List MemberCandidate := getMembersOfType q.files q.type q.expectStatic

def Reaches : Nat → ApexSymbol → Prop
  | 0,c => c = q.type
  | n + 1,c => ∃ below, Reaches n below ∧ (q.hierarchy.superclass below = some c ∨ c ∈ q.hierarchy.interfaces below)

/-- The type itself declares the member, with the static-ness that is asked for. -/
def Declares (c member : ApexSymbol) : Prop :=
  q.files.toLoadedFiles.Declares c member ∧ shouldIncludeMember q.expectStatic member = true

def Nearest (member : ApexSymbol) : Prop :=
  ∃ n c, q.Reaches n c ∧ q.Declares c member ∧
    ∀ k < n, ∀ nearer, q.Reaches k nearer → ∀ other, q.Declares nearer other → identity other ≠ identity member

def Inherited (κ : SymbolKind × String × List (Option String)) : Prop :=
  ∃ n c member, q.Reaches n c ∧ q.Declares c member ∧ identity member = κ

/-- Every member of the hierarchy is listed once, by its nearest declaration, and the type's own never below others. -/
structure ListsOnce : Prop where
  once : ∀ κ, q.Inherited κ → (q.outcome.filter fun candidate => identity candidate.symbol = κ).length = 1
  nearest : ∀ candidate ∈ q.outcome, q.Nearest candidate.symbol
  sorted : q.outcome.Pairwise fun a b => b.relevance ≤ a.relevance
  ranked : ∀ own ∈ q.outcome, ∀ other ∈ q.outcome, q.files.Declares q.type own.symbol → ¬q.files.Declares q.type other.symbol →
    other.relevance ≤ own.relevance

def shown (c : ApexSymbol) : List ApexSymbol := (directMembers q.files c).filter (shouldIncludeMember q.expectStatic)

/-- On the way up by names, the type many steps on shows the first member of its key. -/
def FirstAbove (i : Nat) (member : ApexSymbol) : Prop :=
  ∃ c, Visits ApexSymbol.id (superType q.files) 11 (some q.type) i c ∧ Foremost memberKey (q.shown c) member ∧
    ∀ j < i, ∀ earlier, along (superType q.files) (some q.type) j = some earlier →
      ∀ other ∈ q.shown earlier, memberKey other ≠ memberKey member

/-- An interface that the type names shows a member whose key no type on the way up and no interface before it shows. -/
def FirstAside (member : ApexSymbol) : Prop :=
  ∃ (k : Nat) (c : ApexSymbol), (implementedTypes q.files q.type)[k]? = some c ∧ Foremost memberKey (q.shown c) member ∧
    (∀ j above, Visits ApexSymbol.id (superType q.files) 11 (some q.type) j above →
      ∀ other ∈ q.shown above, memberKey other ≠ memberKey member) ∧
    ∀ j < k, ∀ earlier, (implementedTypes q.files q.type)[j]? = some earlier →
      ∀ other ∈ q.shown earlier, memberKey other ≠ memberKey member

def FirstAt (relevance : Rat) (member : ApexSymbol) : Prop :=
  (∃ i, q.FirstAbove i member ∧ relevance = rank i) ∨ q.FirstAside member ∧ relevance = 0.7

variable {q}

def stageAt (i : Nat) (c : ApexSymbol) : Stage :=
  { type := c,relevance := rank i,source := if i = 0 then .direct else .inherited }

def upStages (q : MemberRequest) : List Stage :=
  { type := q.type,relevance := 1,source := .direct } ::
    (visitedWalk ApexSymbol.id (superType q.files) 10 [q.type.id] (superType q.files q.type)).zipIdx.map fun visited =>
      { type := visited.1,relevance := 0.8 - visited.2 * 0.05,source := .inherited }

theorem getElem?_upStages {i : Nat} {stage : Stage} : q.upStages[i]? = some stage ↔
    ∃ c, Visits ApexSymbol.id (superType q.files) 11 (some q.type) i c ∧ stageAt i c = stage := by
  have walk : visitedWalk ApexSymbol.id (superType q.files) 11 [] (some q.type) =
      q.type :: visitedWalk ApexSymbol.id (superType q.files) 10 [q.type.id] (superType q.files q.type) := by
    rw [visitedWalk,if_neg List.not_mem_nil]
  simp only [← getElem?_visitedWalk_nil,walk]
  cases i with
  | zero => simp [upStages,stageAt,rank]
  | succ i =>
    rw [upStages,List.getElem?_cons_succ,List.getElem?_map,List.getElem?_zipIdx]
    simp [stageAt,rank,Option.map_eq_some_iff]

/-- All candidates in their order, before one of every key is kept. -/
def listing (q : MemberRequest) : List MemberCandidate :=
  q.upStages.flatMap (stageMembers q.files q.expectStatic) ++
    (implementedTypes q.files q.type).flatMap fun ifaceType =>
      stageMembers q.files q.expectStatic { type := ifaceType,relevance := 0.7,source := .interface }

theorem outcome_eq : q.outcome =
    (firstOfKey (memberKey ·.symbol) [] q.listing).insertionSort fun a b => b.relevance ≤ a.relevance := by
  rw [outcome,getMembersOfType,stages,List.flatMap_append,List.flatMap_map]
  rfl

theorem mem_outcome {candidate : MemberCandidate} :
    candidate ∈ q.outcome ↔ Foremost (memberKey ·.symbol) q.listing candidate := by
  rw [outcome_eq,List.mem_insertionSort,mem_firstOfKey,and_iff_left List.not_mem_nil]

theorem sorted_outcome : q.outcome.Pairwise fun a b => b.relevance ≤ a.relevance := by
  have total : Std.Total fun a b : MemberCandidate => b.relevance ≤ a.relevance := ⟨fun a b => le_total _ _⟩
  have trans : IsTrans MemberCandidate fun a b => b.relevance ≤ a.relevance := ⟨fun a b c first second => le_trans second first⟩
  rw [outcome_eq]
  exact List.pairwise_insertionSort _ _

theorem length_listed (κ : SymbolKind × String × List (Option String)) :
    (q.outcome.filter fun candidate => identity candidate.symbol = κ).length =
      ((firstOfKey (memberKey ·.symbol) [] q.listing).filter fun candidate => identity candidate.symbol = κ).length := by
  rw [outcome_eq]
  exact ((List.perm_insertionSort _ _).filter _).length_eq

theorem foremost_stageMembers {stage : Stage} {candidate : MemberCandidate} :
    Foremost (memberKey ·.symbol) (stageMembers q.files q.expectStatic stage) candidate ↔
      ∃ member, Foremost memberKey (q.shown stage.type) member ∧
        { symbol := member,relevance := stage.relevance,source := stage.source,isStatic := member.modifiers.isStatic } =
          candidate :=
  foremost_map

theorem forall_stageMembers {stage : Stage} {key : String} :
    (∀ candidate ∈ stageMembers q.files q.expectStatic stage, memberKey candidate.symbol ≠ key) ↔
      ∀ other ∈ q.shown stage.type, memberKey other ≠ key :=
  List.forall_mem_map

theorem kept_above {relevance : Rat} {member : ApexSymbol} :
    (∃ candidate, Foremost (memberKey ·.symbol) (q.upStages.flatMap (stageMembers q.files q.expectStatic)) candidate ∧
      candidate.symbol = member ∧ candidate.relevance = relevance) ↔ ∃ i, q.FirstAbove i member ∧ relevance = rank i := by
  constructor
  · rintro ⟨candidate,foremost,rfl,rfl⟩
    obtain ⟨i,stage,there,foremost,before⟩ := foremost_flatMap.mp foremost
    obtain ⟨c,visits,rfl⟩ := getElem?_upStages.mp there
    obtain ⟨member,first,rfl⟩ := foremost_stageMembers.mp foremost
    refine ⟨i,⟨c,visits,first,fun j less earlier onward => ?_⟩,rfl⟩
    exact forall_stageMembers.mp (before j less _ (getElem?_upStages.mpr ⟨earlier,visits.earlier less onward,rfl⟩))
  · rintro ⟨i,⟨c,visits,foremost,before⟩,rfl⟩
    refine ⟨_,foremost_flatMap.mpr ⟨i,stageAt i c,getElem?_upStages.mpr ⟨c,visits,rfl⟩,
      foremost_stageMembers.mpr ⟨member,foremost,rfl⟩,fun j less stage there => ?_⟩,rfl,rfl⟩
    obtain ⟨earlier,onward,rfl⟩ := getElem?_upStages.mp there
    exact forall_stageMembers.mpr (before j less earlier onward.2.1)

theorem kept_aside {relevance : Rat} {member : ApexSymbol} :
    (∃ candidate, ((∀ above ∈ q.upStages.flatMap (stageMembers q.files q.expectStatic),
        memberKey above.symbol ≠ memberKey candidate.symbol) ∧
      Foremost (memberKey ·.symbol) ((implementedTypes q.files q.type).flatMap fun ifaceType =>
        stageMembers q.files q.expectStatic { type := ifaceType,relevance := 0.7,source := .interface }) candidate) ∧
      candidate.symbol = member ∧ candidate.relevance = relevance) ↔ q.FirstAside member ∧ relevance = 0.7 := by
  have apart (key : String) : (∀ above ∈ q.upStages.flatMap (stageMembers q.files q.expectStatic), memberKey above.symbol ≠ key) ↔
      ∀ j above, Visits ApexSymbol.id (superType q.files) 11 (some q.type) j above →
        ∀ other ∈ q.shown above, memberKey other ≠ key := by
    rw [List.forall_mem_flatMap]
    constructor
    · intro all j above visits
      exact forall_stageMembers.mp (all (stageAt j above) (List.mem_of_getElem? (getElem?_upStages.mpr ⟨above,visits,rfl⟩)))
    · intro all stage listed
      obtain ⟨j,there⟩ := List.mem_iff_getElem?.mp listed
      obtain ⟨above,visits,rfl⟩ := getElem?_upStages.mp there
      exact forall_stageMembers.mpr (all j above visits)
  simp only [apart,foremost_flatMap,foremost_stageMembers,forall_stageMembers]
  constructor
  · rintro ⟨candidate,⟨above,k,c,there,⟨member,foremost,rfl⟩,before⟩,rfl,rfl⟩
    exact ⟨⟨k,c,there,foremost,above,before⟩,rfl⟩
  · rintro ⟨⟨k,c,there,foremost,above,before⟩,rfl⟩
    exact ⟨_,⟨above,k,c,there,⟨member,foremost,rfl⟩,before⟩,rfl,rfl⟩

theorem kept_iff {relevance : Rat} {member : ApexSymbol} :
    (∃ candidate, Foremost (memberKey ·.symbol) q.listing candidate ∧ candidate.symbol = member ∧
      candidate.relevance = relevance) ↔ q.FirstAt relevance member := by
  rw [FirstAt,← kept_above,← kept_aside]
  simp only [listing,foremost_append,or_and_right,exists_or]

theorem forall_outcome {P : Rat → ApexSymbol → Prop} : (∀ candidate ∈ q.outcome, P candidate.relevance candidate.symbol) ↔
    ∀ relevance member, q.FirstAt relevance member → P relevance member := by
  simp only [mem_outcome,← kept_iff]
  constructor
  · rintro all _ _ ⟨candidate,foremost,rfl,rfl⟩
    exact all candidate foremost
  · intro all candidate foremost
    exact all _ _ ⟨candidate,foremost,rfl,rfl⟩

theorem length_listed_eq_one {κ : SymbolKind × String × List (Option String)} :
    (q.outcome.filter fun candidate => identity candidate.symbol = κ).length = 1 ↔
      (∃ relevance member, q.FirstAt relevance member ∧ identity member = κ) ∧
        ∀ relevance relevance' a b, q.FirstAt relevance a → q.FirstAt relevance' b → identity a = κ → identity b = κ →
          memberKey a = memberKey b := by
  rw [length_listed,length_filter_firstOfKey]
  simp only [decide_eq_true_eq,← kept_iff]
  constructor
  · rintro ⟨⟨candidate,foremost,shown⟩,same⟩
    refine ⟨⟨_,_,⟨candidate,foremost,rfl,rfl⟩,shown⟩,?_⟩
    rintro _ _ _ _ ⟨a,first,rfl,rfl⟩ ⟨b,second,rfl,rfl⟩ shownA shownB
    exact same a b first second shownA shownB
  · rintro ⟨⟨_,_,⟨candidate,foremost,rfl,rfl⟩,shown⟩,same⟩
    refine ⟨⟨candidate,foremost,shown⟩,fun a b first second shownA shownB => ?_⟩
    exact same _ _ _ _ ⟨a,first,rfl,rfl⟩ ⟨b,second,rfl,rfl⟩ shownA shownB

theorem Nearest.inherited {member : ApexSymbol} (nearest : q.Nearest member) : q.Inherited (identity member) := by
  obtain ⟨n,c,reaches,declares,-⟩ := nearest
  exact ⟨n,c,member,reaches,declares,rfl⟩

theorem ranked_iff : (∀ own ∈ q.outcome, ∀ other ∈ q.outcome, q.files.Declares q.type own.symbol →
      ¬q.files.Declares q.type other.symbol → other.relevance ≤ own.relevance) ↔
    ∀ relevance own, q.FirstAt relevance own → ∀ relevance' other, q.FirstAt relevance' other →
      q.files.Declares q.type own → ¬q.files.Declares q.type other → relevance' ≤ relevance := by
  rw [forall_outcome (P := fun relevance own => ∀ other ∈ q.outcome, q.files.Declares q.type own →
    ¬q.files.Declares q.type other.symbol → other.relevance ≤ relevance)]
  refine forall₃_congr fun relevance own _ => ?_
  exact forall_outcome (P := fun relevance' other => q.files.Declares q.type own →
    ¬q.files.Declares q.type other → relevance' ≤ relevance)

end MemberRequest

end
def topLevel (name : String) (kind : SymbolKind) (interfaces : List String) : List ApexSymbol := [
  { id := name,name := name,kind := kind,parentId := .null,interfaces := some interfaces,fileUri := name
    location := ⟨⟨1,0,3,1⟩,⟨1,6,1,7⟩⟩ },
  { id := name ++ ".block",name := "block1",kind := .block,scopeType := some .class_,parentId := .of name
    fileUri := name,location := ⟨⟨1,10,3,1⟩,⟨1,10,3,1⟩⟩ }]

def interfaceA : List ApexSymbol := topLevel "A" .interface [] ++ [
  { id := "A.m",name := "m",kind := .method,parentId := .of "A.block",parameters := some [],fileUri := "A"
    location := ⟨⟨2,2,2,11⟩,⟨2,7,2,8⟩⟩ }]

def interfaceB : List ApexSymbol := topLevel "B" .interface ["A"]

/-- `abstract class C implements B {}` -/
def classC : List ApexSymbol := topLevel "C" .class_ ["B"]

def chainFiles : MemberFiles where
  symbols := interfaceA ++ interfaceB ++ classC
  getSymbolTableForFile fileUri := if fileUri = "A" then some (tableOf interfaceA)
    else if fileUri = "B" then some (tableOf interfaceB) else if fileUri = "C" then some (tableOf classC) else none
  parseComplete _ := false

def chainRequest [Runtime] : MemberRequest where
  files := chainFiles
  type := classC.getD 0 default
  expectStatic := false
  loaded := List.mem_append_right (interfaceA ++ interfaceB) (.head _)
  kind := .inl rfl
  hierarchy :=
    { superclass _ := none
      named _ _ absent := absurd absent (Option.some_ne_none _).symm
      interfaces c := if c.interfaces = some ["B"] then [interfaceB.getD 0 default]
        else if c.interfaces = some ["A"] then [interfaceA.getD 0 default] else []
      declared := by
        intro c interface member
        split at member
        next texts =>
          cases List.mem_singleton.mp member
          refine ⟨List.mem_append_left classC (List.mem_append_right interfaceA (.head _)),rfl,"B",?_,congrArg toLowerCase ?_⟩
          · rw [texts]
            exact .head _
          · decide
        next =>
          split at member
          next texts =>
            cases List.mem_singleton.mp member
            refine ⟨List.mem_append_left classC (List.mem_append_left interfaceB (.head _)),rfl,"A",?_,congrArg toLowerCase ?_⟩
            · rw [texts]
              exact .head _
            · decide
          next => exact absurd member List.not_mem_nil }

end ApexLs.Completion
