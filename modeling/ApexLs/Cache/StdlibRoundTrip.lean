import Mathlib.Tactic.Tauto
import ApexLs.Cache.HydratedTables
import ApexLs.Collections.OwnedListings

/-! The round trip through a message. A type's message carries the blocks of its inner types too, which carry them again, and
an inner type is hydrated below its outer type, not below that type's block. So a file comes back unchanged exactly when its
inner types hang from types and have no blocks below them. -/
namespace ApexLs.Cache

open ApexLs.Utils ApexLs.Types ApexLs.Collections StandardLibrarySerializer

def isMember (s : ApexSymbol) : Bool :=
  s.isMethodOrConstructorSymbol || s.kind = .field || s.kind = .property || s.kind = .enumValue

def isSerialized (s : ApexSymbol) : Bool := isTypeSymbol s || isMember s || s.isBlockSymbol

structure SymbolRecord where
  id : String
  name : String
  kind : SymbolKind
  location : SymbolLocation
  parentId : ParentId
  modifiers : SymbolModifiers
  superClass : String
  interfaces : List String
  deriving DecidableEq, Repr

/-- Blocks are serialized without modifiers, and no message says what is built in. -/
def recordOf (s : ApexSymbol) : SymbolRecord where
  id := s.id
  name := s.name
  kind := s.kind
  location := s.location
  parentId := s.parentId
  modifiers := if s.isBlockSymbol then {} else { s.modifiers with isBuiltIn := false }
  superClass := if isTypeSymbol s then orElse s.superClass "" else ""
  interfaces := if isTypeSymbol s then s.interfaces.getD [] else []

def records (symbols : List ApexSymbol) : List SymbolRecord := (symbols.filter isSerialized).map recordOf

/-- The hydrated table lists the serialized symbols of the file, each once and as it was. -/
def RoundTrips (symbols : List ApexSymbol) (s : Hydration) : Prop := (records s.getAllSymbols).Perm (records symbols)

def ChildOf (symbols : List ApexSymbol) (child parent : ApexSymbol) : Prop :=
  child.parentId = .of parent.id ∨
    ∃ b ∈ symbols, b.isBlockSymbol = true ∧ child.parentId = .of b.id ∧ b.parentId = .of parent.id

def Encloses (symbols : List ApexSymbol) : ApexSymbol → ApexSymbol → Prop :=
  Relation.ReflTransGen (fun p s => p ∈ symbols ∧ s ∈ symbols ∧ s.parentId = .of p.id)

/-- The symbols of a file with one top-level type: members and inner types are children of types, blocks
stand below what is serialized, and parents form no cycle. -/
structure OneTypeFile (symbols : List ApexSymbol) (top : ApexSymbol) : Prop where
  unique : (symbols.map ApexSymbol.id).Nodup
  named : ∀ s ∈ symbols, s.id ≠ ""
  listed : top ∈ symbols
  type : isTypeSymbol top = true
  topLevel : top.parentId = .null
  owned : ∀ s ∈ symbols, (isTypeSymbol s || isMember s) = true → s ≠ top →
    ∃ o ∈ symbols, isTypeSymbol o = true ∧ ChildOf symbols s o
  enclosed : ∀ b ∈ symbols, b.isBlockSymbol = true → ∃ p ∈ symbols, isSerialized p = true ∧ b.parentId = .of p.id
  nested : ∃ depth : String → Nat, ∀ s ∈ symbols, ∀ p, s.parentId = .of p → depth p < depth s.id
  constructors : ∀ s ∈ symbols, s.kind = .method → s.isConstructor ≠ some true
  blockRange : ∀ b ∈ symbols, b.isBlockSymbol = true → b.location.identifierRange = b.location.symbolRange

structure InnerTypesBare (symbols : List ApexSymbol) (top : ApexSymbol) : Prop where
  direct : ∀ i ∈ symbols, isTypeSymbol i = true → i ≠ top → ∃ o ∈ symbols, isTypeSymbol o = true ∧ i.parentId = .of o.id
  blockless : ∀ i ∈ symbols, isTypeSymbol i = true → i ≠ top → ∀ b ∈ symbols, b.isBlockSymbol = true → ¬ Encloses symbols i b

/-! What the serializer finds in a file. -/

section

variable {symbols : List ApexSymbol} {top : ApexSymbol}

theorem eq_of_id (unique : (symbols.map ApexSymbol.id).Nodup) (first : s ∈ symbols) (second : s' ∈ symbols)
    (same : s.id = s'.id) : s = s' :=
  List.inj_on_of_nodup_map unique first second same

theorem findById_of_mem (unique : (symbols.map ApexSymbol.id).Nodup) (member : s ∈ symbols) : findById symbols s.id = some s := by
  obtain ⟨r,found⟩ := Option.isSome_iff_exists.mp (List.find?_isSome (p := fun r => r.id = s.id).mpr ⟨s,member,by simp⟩)
  have same : r.id = s.id := by simpa using List.find?_some found
  rw [findById,found,eq_of_id unique (List.mem_of_find?_eq_some found) member same]

theorem mem_of_findById {id : String} (found : findById symbols id = some s) : s ∈ symbols ∧ s.id = id :=
  ⟨List.mem_of_find?_eq_some found,by simpa using List.find?_some found⟩

theorem parentText_of (given : parentText p ≠ "") : p = .of (parentText p) := by
  cases p <;> simp_all [parentText]

theorem childOf_of_isChildOf {child parent : ApexSymbol} (found : isChildOf symbols child parent = true) :
    ChildOf symbols child parent := by
  unfold isChildOf at found
  dsimp only at found
  split at found
  next => cases found
  next present =>
    have parentEq := parentText_of present
    split at found
    next direct => exact .inl (parentEq.trans (by rw [direct]))
    next =>
      obtain ⟨b,here,block⟩ := (Option.any_eq_true _ _).mp found
      obtain ⟨member,idEq⟩ := mem_of_findById here
      rw [Bool.and_eq_true,decide_eq_true_eq,decide_eq_true_eq] at block
      exact .inr ⟨b,member,by simpa [ApexSymbol.isBlockSymbol] using block.1,by rw [idEq]; exact parentEq,block.2⟩

theorem isChildOf_iff (unique : (symbols.map ApexSymbol.id).Nodup) (named : ∀ s ∈ symbols, s.id ≠ "") {parent : ApexSymbol}
    (given : parent.id ≠ "") (child : ApexSymbol) : isChildOf symbols child parent = true ↔ ChildOf symbols child parent := by
  refine ⟨childOf_of_isChildOf,?_⟩
  rintro (direct | ⟨b,member,block,direct,below⟩)
  · simp [isChildOf,direct,parentText,given]
  · have here : findById symbols b.id = some b := findById_of_mem unique member
    have isBlock : b.kind = .block := by simpa [ApexSymbol.isBlockSymbol] using block
    simp [isChildOf,direct,parentText,named b member,here,isBlock,below]

theorem shallower_fewer {depth : String → Nat} (member : s ∈ symbols) (below : depth p < depth s.id) :
    (symbols.filter (fun r => depth r.id ≤ depth p)).length < (symbols.filter (fun r => depth r.id ≤ depth s.id)).length := by
  have nested : symbols.filter (fun r => depth r.id ≤ depth p) =
      (symbols.filter (fun r => depth r.id ≤ depth s.id)).filter (fun r => depth r.id ≤ depth p) := by
    rw [List.filter_filter]
    apply List.filter_congr
    intro r _
    rw [Bool.eq_iff_iff,Bool.and_eq_true,decide_eq_true_eq,decide_eq_true_eq]
    omega
  rw [nested,List.length_filter_lt_length_iff_exists]
  exact ⟨s,List.mem_filter.mpr ⟨member,by simp⟩,by simpa using below⟩

theorem leadsToType_iff (unique : (symbols.map ApexSymbol.id).Nodup) (named : ∀ s ∈ symbols, s.id ≠ "") {depth : String → Nat}
    (nested : ∀ s ∈ symbols, ∀ p, s.parentId = .of p → depth p < depth s.id) (type : t ∈ symbols) {visited : List String}
    (member : current ∈ symbols) (passed : ∀ v ∈ symbols, v.id ∈ visited → depth current.id < depth v.id)
    (enough : (symbols.filter (fun r => depth r.id ≤ depth current.id)).length ≤ turns) :
    leadsToType symbols t.id turns visited current = true ↔ Encloses symbols t current := by
  induction turns generalizing visited current with
  | zero =>
    have here : current ∈ symbols.filter (fun r => depth r.id ≤ depth current.id) := List.mem_filter.mpr ⟨member,by simp⟩
    exact absurd (List.length_pos_of_mem here) (by omega)
  | succ turns ih =>
    have fresh : current.id ∉ visited := fun seen => Nat.lt_irrefl _ (passed current member seen)
    rw [leadsToType,if_neg fresh]
    by_cases same : current.id = t.id
    · rw [if_pos same,eq_of_id unique member type same]
      exact iff_of_true rfl .refl
    rw [if_neg same]
    -- from here on the type is above the symbol exactly when it is above, or is, its parent
    have further : Encloses symbols t current → ∃ p, Encloses symbols t p ∧ p ∈ symbols ∧ current.parentId = .of p.id := by
      intro encloses
      rcases Relation.ReflTransGen.cases_tail encloses with rfl | ⟨p,above,present,_,parent⟩
      · exact absurd rfl same
      · exact ⟨p,above,present,parent⟩
    split
    next absent =>
      refine iff_of_false Bool.false_ne_true fun encloses => ?_
      obtain ⟨p,_,present,parent⟩ := further encloses
      rw [parent] at absent
      exact named p present absent
    next given =>
      have parentEq := parentText_of given
      have onward : ∀ p ∈ symbols, current.parentId = .of p.id →
          (leadsToType symbols t.id turns (current.id :: visited) p = true ↔ Encloses symbols t p) := by
        intro p present parent
        have deeper := nested current member _ parent
        apply ih present
        · intro v known seen
          rcases List.mem_cons.mp seen with idSame | earlier
          · rwa [idSame]
          · have := passed v known earlier
            omega
        · have := shallower_fewer member deeper
          omega
      constructor
      · intro found
        obtain ⟨p,here,leads⟩ := (Option.any_eq_true _ _).mp found
        obtain ⟨present,idEq⟩ := mem_of_findById here
        have parent : current.parentId = .of p.id := by rw [idEq]; exact parentEq
        exact .tail ((onward p present parent).mp leads) ⟨present,member,parent⟩
      · intro encloses
        obtain ⟨p,above,present,parent⟩ := further encloses
        have textEq : parentText current.parentId = p.id := by rw [parent]; rfl
        rw [textEq,findById_of_mem unique present,Option.any_some]
        exact (onward p present parent).mpr above

/-- What a type's message carries besides the inner types, in the order in which it is hydrated. -/
def carried (symbols : List ApexSymbol) (t : ApexSymbol) : List ApexSymbol :=
  blocksOf symbols t ++ (childrenOf symbols ApexSymbol.isMethodOrConstructorSymbol t ++
    (childrenOf symbols (fun s => s.kind = .field) t ++ (childrenOf symbols (fun s => s.kind = .property) t ++
      childrenOf symbols (fun s => s.kind = .enumValue) t)))

def innerTypes (symbols : List ApexSymbol) (t : ApexSymbol) : List ApexSymbol := childrenOf symbols isTypeSymbol t

theorem not_type_of_carried (carried : (isMember s || s.isBlockSymbol) = true) : isTypeSymbol s = false := by
  cases kind : s.kind <;> simp_all [isMember,isTypeSymbol,ApexSymbol.isBlockSymbol,ApexSymbol.isMethodOrConstructorSymbol]

theorem not_block_of_member (member : isMember s = true) : s.isBlockSymbol = false := by
  cases kind : s.kind <;> simp_all [isMember,ApexSymbol.isBlockSymbol,ApexSymbol.isMethodOrConstructorSymbol]

theorem isMember_iff : isMember s = true ↔
    s.isMethodOrConstructorSymbol = true ∨ s.kind = .field ∨ s.kind = .property ∨ s.kind = .enumValue := by
  simp [isMember,or_assoc]

theorem nodup_append_filter {l rest : List ApexSymbol} {p : ApexSymbol → Bool} (once : (l.filter p).Nodup) (others : rest.Nodup)
    (passed : ∀ s ∈ rest, p s = false) : (l.filter p ++ rest).Nodup := by
  refine List.nodup_append.mpr ⟨once,others,?_⟩
  rintro s picked r member rfl
  have chosen := (List.mem_filter.mp picked).2
  rw [passed s member] at chosen
  cases chosen

namespace OneTypeFile

section

variable (file : OneTypeFile symbols top)
include file

theorem once : symbols.Nodup := List.Nodup.of_map _ file.unique

theorem mem_childrenOf (listed : t ∈ symbols) {picks : ApexSymbol → Bool} :
    s ∈ childrenOf symbols picks t ↔ s ∈ symbols ∧ ChildOf symbols s t ∧ picks s = true := by
  rw [childrenOf,List.mem_filter,Bool.and_eq_true,isChildOf_iff file.unique file.named (file.named t listed)]

theorem mem_innerTypes (listed : t ∈ symbols) :
    s ∈ innerTypes symbols t ↔ s ∈ symbols ∧ ChildOf symbols s t ∧ isTypeSymbol s = true := file.mem_childrenOf listed

theorem mem_blocksOf (listed : t ∈ symbols) :
    s ∈ blocksOf symbols t ↔ s ∈ symbols ∧ s.isBlockSymbol = true ∧ Encloses symbols t s := by
  obtain ⟨depth,nested⟩ := file.nested
  rw [blocksOf,List.mem_filter,Bool.and_eq_true]
  refine and_congr_right fun member => and_congr_right fun _ => ?_
  apply leadsToType_iff file.unique file.named nested listed member
  · simp
  · exact Nat.le_succ_of_le (List.length_filter_le _ _)

theorem mem_carried (listed : t ∈ symbols) :
    s ∈ carried symbols t ↔ s ∈ symbols ∧
      (s.isBlockSymbol = true ∧ Encloses symbols t s ∨ isMember s = true ∧ ChildOf symbols s t) := by
  simp only [carried,List.mem_append,file.mem_blocksOf listed,file.mem_childrenOf listed,isMember_iff,decide_eq_true_eq]
  tauto

theorem type_of_carried (listed : t ∈ symbols) (member : s ∈ carried symbols t) :
    isTypeSymbol s = false := by
  obtain ⟨_,kinds⟩ := (file.mem_carried listed).mp member
  apply not_type_of_carried
  rcases kinds with ⟨block,_⟩ | ⟨own,_⟩
  · simp [block]
  · simp [own]

theorem carried_nodup (t : ApexSymbol) : (carried symbols t).Nodup := by
  have once : ∀ p : ApexSymbol → Bool, (symbols.filter p).Nodup := fun p => file.once.filter p
  have picked : ∀ {picks : ApexSymbol → Bool} {s}, s ∈ childrenOf symbols picks t → picks s = true := by
    intro picks s member
    exact (Bool.and_eq_true_iff.mp (List.mem_filter.mp member).2).2
  have enumValues : ∀ s ∈ childrenOf symbols (fun s => s.kind = .enumValue) t, s.kind = .enumValue := by
    intro s member
    simpa using picked member
  have properties : ∀ s ∈ childrenOf symbols (fun s => s.kind = .property) t ++ childrenOf symbols
    (fun s => s.kind = .enumValue) t,
      s.kind = .property ∨ s.kind = .enumValue := by
    intro s member
    exact (List.mem_append.mp member).imp (fun own => by simpa using picked own) (enumValues s)
  have fields : ∀ s ∈ childrenOf symbols (fun s => s.kind = .field) t ++ (childrenOf symbols (fun s => s.kind = .property) t ++
      childrenOf symbols (fun s => s.kind = .enumValue) t), s.kind = .field ∨ s.kind = .property ∨ s.kind = .enumValue := by
    intro s member
    exact (List.mem_append.mp member).imp (fun own => by simpa using picked own) (properties s)
  refine nodup_append_filter (once _) (nodup_append_filter (once _) (nodup_append_filter (once _)
    (nodup_append_filter (once _) (once _) ?_) ?_) ?_) ?_
  · intro s member
    simp [enumValues s member]
  · intro s member
    rcases properties s member with kind | kind <;> simp [kind]
  · intro s member
    rcases fields s member with kind | kind | kind <;> simp [kind,ApexSymbol.isMethodOrConstructorSymbol]
  · intro s member
    rcases List.mem_append.mp member with own | others
    · have kind : s.isMethodOrConstructorSymbol = true := picked own
      simp only [ApexSymbol.isMethodOrConstructorSymbol,Bool.or_eq_true,decide_eq_true_eq] at kind
      rcases kind with kind | kind <;> simp [kind,ApexSymbol.isBlockSymbol]
    · rcases fields s others with kind | kind | kind <;> simp [kind,ApexSymbol.isBlockSymbol]

theorem eq_of_id (first : s ∈ symbols) (second : s' ∈ symbols) (same : s.id = s'.id) : s = s' :=
  Cache.eq_of_id file.unique first second same

theorem eq_of_parent (first : p ∈ symbols) (second : p' ∈ symbols)
    {s : ApexSymbol} (parent : s.parentId = .of p.id) (parent' : s.parentId = .of p'.id) : p = p' := by
  apply file.eq_of_id first second
  rw [parent] at parent'
  simpa using parent'

theorem owner_unique (listed : o ∈ symbols) (listed' : o' ∈ symbols)
    (type : isTypeSymbol o = true)
    (type' : isTypeSymbol o' = true) (child : ChildOf symbols s o) (child' : ChildOf symbols s o') : o = o' := by
  have noBlock : ∀ {b : ApexSymbol}, isTypeSymbol b = true → b.isBlockSymbol = true → False := by
    intro b isType isBlock
    have noType : isTypeSymbol b = false := not_type_of_carried (by simp [isBlock])
    rw [isType] at noType
    cases noType
  rcases child with direct | ⟨b,member,block,direct,above⟩ <;> rcases child' with direct' | ⟨b',member',block',direct',above'⟩
  · exact file.eq_of_parent listed listed' direct direct'
  · obtain rfl := file.eq_of_parent listed member' direct direct'
    exact (noBlock type block').elim
  · obtain rfl := file.eq_of_parent listed' member direct' direct
    exact (noBlock type' block).elim
  · obtain rfl := file.eq_of_parent member member' direct direct'
    exact file.eq_of_parent listed listed' above above'

theorem top_no_child : ¬ ChildOf symbols top o := by
  have topLevel := file.topLevel
  rintro (direct | ⟨_,_,_,direct,_⟩) <;> simp [topLevel] at direct

end

theorem encloses_child (child : ChildOf symbols s o) (listed : o ∈ symbols) (member : s ∈ symbols) : Encloses symbols o s := by
  rcases child with direct | ⟨b,inside,_,direct,above⟩
  · exact .single ⟨listed,member,direct⟩
  · exact .tail (.single ⟨listed,inside,above⟩) ⟨inside,member,direct⟩

theorem depth_child {depth : String → Nat} (nested : ∀ s ∈ symbols, ∀ p, s.parentId = .of p → depth p < depth s.id)
    (child : ChildOf symbols s o) (member : s ∈ symbols) : depth o.id < depth s.id := by
  rcases child with direct | ⟨b,inside,_,direct,above⟩
  · exact nested s member _ direct
  · have := nested s member _ direct
    have := nested b inside _ above
    omega

section

variable (file : OneTypeFile symbols top)
include file

theorem type_of_held (held : Holds (innerTypes symbols) top o) :
    o ∈ symbols ∧ isTypeSymbol o = true := by
  induction held with
  | refl => exact ⟨file.listed,file.type⟩
  | tail _ inner ih =>
    obtain ⟨member,_,type⟩ := (file.mem_innerTypes ih.1).mp inner
    exact ⟨member,type⟩

theorem held_of_type (member : s ∈ symbols) (type : isTypeSymbol s = true) :
    Holds (innerTypes symbols) top s := by
  obtain ⟨depth,nested⟩ := file.nested
  generalize bound : depth s.id = n
  induction n using Nat.strong_induction_on generalizing s with
  | _ n ih =>
    by_cases outermost : s = top
    · exact outermost ▸ .refl
    · obtain ⟨o,listed,ownerType,child⟩ := file.owned s member (by simp [type]) outermost
      have above := depth_child nested child member
      exact .tail (ih _ (by omega) listed ownerType rfl) ((file.mem_innerTypes listed).mpr ⟨member,child,type⟩)

theorem enclosed_by_top (member : s ∈ symbols) (serialized : isSerialized s = true) :
    Encloses symbols top s := by
  obtain ⟨depth,nested⟩ := file.nested
  generalize bound : depth s.id = n
  induction n using Nat.strong_induction_on generalizing s with
  | _ n ih =>
    by_cases outermost : s = top
    · exact outermost ▸ .refl
    · by_cases owned : (isTypeSymbol s || isMember s) = true
      · obtain ⟨o,listed,type,child⟩ := file.owned s member owned outermost
        have above := depth_child nested child member
        exact (ih _ (by omega) listed (by simp [isSerialized,type]) rfl).trans (encloses_child child listed member)
      · have block : s.isBlockSymbol = true := by
          simp only [isSerialized,Bool.or_eq_true] at serialized owned
          tauto
        obtain ⟨p,listed,outer,parent⟩ := file.enclosed s member block
        have above := nested s member _ parent
        exact .tail (ih _ (by omega) listed outer rfl) ⟨listed,member,parent⟩

theorem mem_listing (within : Within (innerTypes symbols) depth top) :
    s ∈ listing (carried symbols) (innerTypes symbols) depth top ↔ s ∈ symbols ∧ isSerialized s = true := by
  rw [Collections.mem_listing within]
  constructor
  · rintro ⟨o,held,here⟩
    obtain ⟨listed,type⟩ := file.type_of_held held
    rcases here with rfl | own
    · exact ⟨listed,by simp [isSerialized,type]⟩
    · obtain ⟨member,⟨block,_⟩ | ⟨own,_⟩⟩ := (file.mem_carried listed).mp own
      · exact ⟨member,by simp [isSerialized,block]⟩
      · exact ⟨member,by simp [isSerialized,own]⟩
  · rintro ⟨member,serialized⟩
    by_cases type : isTypeSymbol s = true
    · exact ⟨s,file.held_of_type member type,.inl rfl⟩
    · by_cases own : isMember s = true
      · have outermost : s ≠ top := fun same => type (same ▸ file.type)
        obtain ⟨o,listed,ownerType,child⟩ := file.owned s member (by simp [own]) outermost
        exact ⟨o,file.held_of_type listed ownerType,.inr ((file.mem_carried listed).mpr ⟨member,.inr ⟨own,child⟩⟩)⟩
      · have block : s.isBlockSymbol = true := by
          simp only [isSerialized,Bool.or_eq_true] at serialized
          tauto
        exact ⟨top,.refl,.inr ((file.mem_carried file.listed).mpr ⟨member,.inl ⟨block,file.enclosed_by_top member serialized⟩⟩)⟩

end

theorem inner_deeper {depth : String → Nat}
    (nested : ∀ s ∈ symbols, ∀ p, s.parentId = .of p → depth p < depth s.id) :
    ∀ o, ∀ s ∈ innerTypes symbols o, s ∈ symbols ∧ depth o.id < depth s.id := by
  intro o s inner
  obtain ⟨member,found⟩ := List.mem_filter.mp inner
  exact ⟨member,depth_child nested (childOf_of_isChildOf (Bool.and_eq_true_iff.mp found).1) member⟩

section

variable (file : OneTypeFile symbols top)
include file

theorem within (enough : symbols.length ≤ depth) : Within (innerTypes symbols) depth top := by
  obtain ⟨rank,nested⟩ := file.nested
  refine within_of_rank (fun s => rank s.id) symbols (inner_deeper nested) ?_
  have fewer : (symbols.filter (fun s => rank top.id < rank s.id)).length < symbols.length := by
    rw [List.length_filter_lt_length_iff_exists]
    exact ⟨top,file.listed,by simp⟩
  omega

theorem ne_top_of_inner (listed : o ∈ symbols) (inner : s ∈ innerTypes symbols o) : s ≠ top := by
  rintro rfl
  exact file.top_no_child ((file.mem_innerTypes listed).mp inner).2.1

theorem apart (bare : InnerTypesBare symbols top) :
    Apart (carried symbols) (innerTypes symbols) top where
  owner held held' inner inner' := by
    obtain ⟨listed,type⟩ := file.type_of_held held
    obtain ⟨listed',type'⟩ := file.type_of_held held'
    exact file.owner_unique listed listed' type type' ((file.mem_innerTypes listed).mp inner).2.1
      ((file.mem_innerTypes listed').mp inner').2.1
  keeper {a a' s} held held' own own' := by
    obtain ⟨listed,type⟩ := file.type_of_held held
    obtain ⟨listed',type'⟩ := file.type_of_held held'
    obtain ⟨member,here⟩ := (file.mem_carried listed).mp own
    obtain ⟨_,here'⟩ := (file.mem_carried listed').mp own'
    have outermost : ∀ {o}, o ∈ symbols → isTypeSymbol o = true → s.isBlockSymbol = true → Encloses symbols o s → o = top := by
      intro o present isType block above
      by_contra inner
      exact bare.blockless o present isType inner s member block above
    rcases here with ⟨block,above⟩ | ⟨isOwn,child⟩ <;> rcases here' with ⟨block',above'⟩ | ⟨isOwn',child'⟩
    · rw [outermost listed type block above,outermost listed' type' block' above']
    · rw [not_block_of_member isOwn'] at block
      cases block
    · rw [not_block_of_member isOwn] at block'
      cases block'
    · exact file.owner_unique listed listed' type type' child child'
  separate held held' own := by
    have noType := file.type_of_carried (file.type_of_held held).1 own
    rw [(file.type_of_held held').2] at noType
    cases noType
  innerOnce _ := file.once.filter _
  keptOnce _ := file.carried_nodup _

theorem listing_perm (bare : InnerTypesBare symbols top)
    (within : Within (innerTypes symbols) depth top) :
    (listing (carried symbols) (innerTypes symbols) depth top).Perm (symbols.filter isSerialized) := by
  obtain ⟨rank,nested⟩ := file.nested
  have once : (listing (carried symbols) (innerTypes symbols) depth top).Nodup :=
    (file.apart bare).listing_nodup (fun s => rank s.id) (fun o s inner => (inner_deeper nested o s inner).2) .refl
  rw [List.perm_ext_iff_of_nodup once (file.once.filter _)]
  intro s
  rw [file.mem_listing within,List.mem_filter]

theorem blockless_of_nodup (within : Within (innerTypes symbols) (depth + 1) top)
    (once : (listing (carried symbols) (innerTypes symbols) (depth + 1) top).Nodup) (member : i ∈ symbols)
    (type : isTypeSymbol i = true) (inner : i ≠ top) (inside : b ∈ symbols) (block : b.isBlockSymbol = true) :
    ¬ Encloses symbols i b := by
  intro above
  have held := file.held_of_type member type
  rcases Relation.ReflTransGen.cases_head held with same | ⟨o,first,rest⟩
  · exact inner same.symm
  · have byTop := (file.mem_carried file.listed).mpr
      ⟨inside,.inl ⟨block,file.enclosed_by_top inside (by simp [isSerialized,block])⟩⟩
    exact kept_once once within first rest byTop ((file.mem_carried member).mpr ⟨inside,.inl ⟨block,above⟩⟩)

end

end OneTypeFile

/-! What comes back for one symbol. -/

theorem convertModifiers_convertModifiers (modifiers : SymbolModifiers) :
    StandardLibraryDeserializer.convertModifiers (some (convertModifiers modifiers)) = { modifiers with isBuiltIn := false } := by
  obtain ⟨visibility,_,_,_,_,_,_,_,_,_⟩ := modifiers
  cases visibility <;> rfl

theorem parentOr_parentText {id : String} (parent : p = .of id) (given : id ≠ "") (fallback : ParentId) :
    parentOr (parentText p) fallback = p := by
  rw [parent,parentText,parentOr,if_neg given]

theorem records_append (l r : List ApexSymbol) : records (l ++ r) = records l ++ records r := by
  rw [records,records,records,List.filter_append,List.map_append]

/-- The hydrated symbol stands for the serialized one. -/
def ComesBack (s s' : ApexSymbol) : Prop := isSerialized s' = isSerialized s ∧ recordOf s' = recordOf s

theorem comes_back {s s' : ApexSymbol} (id : s'.id = s.id) (name : s'.name = s.name) (kind : s'.kind = s.kind)
    (location : s'.location = s.location) (parentId : s'.parentId = s.parentId)
    (modifiers : s.isBlockSymbol = false → { s'.modifiers with isBuiltIn := false } = { s.modifiers with isBuiltIn := false })
    (types : isTypeSymbol s = true → orElse s'.superClass "" = orElse s.superClass "" ∧
      s'.interfaces.getD [] = s.interfaces.getD []) :
    ComesBack s s' := by
  have sameType : isTypeSymbol s' = isTypeSymbol s := by simp only [isTypeSymbol,kind]
  have sameBlock : s'.isBlockSymbol = s.isBlockSymbol := by simp only [ApexSymbol.isBlockSymbol,kind]
  have sameMember : isMember s' = isMember s := by simp only [isMember,ApexSymbol.isMethodOrConstructorSymbol,kind]
  refine ⟨by rw [isSerialized,isSerialized,sameType,sameBlock,sameMember],?_⟩
  simp only [recordOf,id,name,kind,location,parentId,sameType,sameBlock,SymbolRecord.mk.injEq,true_and]
  refine ⟨?_,?_,?_⟩
  · split
    next => rfl
    next noBlock => exact modifiers (by simpa using noBlock)
  · split
    next type => exact (types type).1
    next => rfl
  · split
    next type => exact (types type).2
    next => rfl

theorem records_map {l : List ApexSymbol} {f : ApexSymbol → ApexSymbol} (serialized : ∀ s ∈ l, isSerialized s = true)
    (same : ∀ s ∈ l, ComesBack s (f s)) : records (l.map f) = l.map recordOf := by
  have all : (l.map f).filter isSerialized = l.map f := by
    rw [List.filter_eq_self]
    intro s member
    obtain ⟨r,inside,rfl⟩ := List.mem_map.mp member
    rw [(same r inside).1,serialized r inside]
  rw [records,all,List.map_map]
  exact List.map_congr_left fun s member => (same s member).2

namespace OneTypeFile

section

variable (file : OneTypeFile symbols top)
include file

theorem parent_given (member : s ∈ symbols)
    (serialized : isSerialized s = true) (inner : s ≠ top) :
    ∃ id, s.parentId = .of id ∧ id ≠ "" := by
  by_cases owned : (isTypeSymbol s || isMember s) = true
  · obtain ⟨o,listed,_,direct | ⟨b,inside,_,direct,_⟩⟩ := file.owned s member owned inner
    · exact ⟨_,direct,file.named o listed⟩
    · exact ⟨_,direct,file.named b inside⟩
  · have block : s.isBlockSymbol = true := by
      simp only [isSerialized,Bool.or_eq_true] at serialized owned
      tauto
    obtain ⟨p,listed,_,parent⟩ := file.enclosed s member block
    exact ⟨_,parent,file.named p listed⟩

theorem ne_top_of_carried (listed : t ∈ symbols) (own : s ∈ carried symbols t) : s ≠ top := by
  rintro rfl
  have noType := file.type_of_carried listed own
  rw [file.type] at noType
  cases noType

theorem serialized_of_carried (listed : t ∈ symbols) (own : s ∈ carried symbols t) :
    isSerialized s = true := by
  obtain ⟨_,⟨block,_⟩ | ⟨member,_⟩⟩ := (file.mem_carried listed).mp own
  · simp [isSerialized,block]
  · simp [isSerialized,member]

theorem carried_parent_given (listed : t ∈ symbols) (own : s ∈ carried symbols t) :
    ∃ id, s.parentId = .of id ∧ id ≠ "" :=
  file.parent_given ((file.mem_carried listed).mp own).1 (file.serialized_of_carried listed own)
    (file.ne_top_of_carried listed own)

end

variable [Runtime]

section

variable (file : OneTypeFile symbols top) (listed : t ∈ symbols) (own : s ∈ carried symbols t)
include file listed own

theorem block_comes_back (block : s.isBlockSymbol = true) (namespace_ : String) :
    ComesBack s (StandardLibraryDeserializer.convertBlockSymbol (convertBlockSymbol s) namespace_) := by
  have member := ((file.mem_carried listed).mp own).1
  obtain ⟨id,parent,given⟩ := file.carried_parent_given listed own
  have range := file.blockRange s member block
  have kind : s.kind = .block := by simpa [ApexSymbol.isBlockSymbol] using block
  have made := StandardLibraryDeserializer.convertBlockSymbol_made (convertBlockSymbol s) namespace_
  apply comes_back (made.id (file.named s member)) made.name (made.kind.trans kind.symm)
  · rw [made.location]
    change (⟨s.location.symbolRange,s.location.symbolRange⟩ : SymbolLocation) =
      ⟨s.location.symbolRange,s.location.identifierRange⟩
    rw [range]
  · rw [made.parentId]
    exact parentOr_parentText parent given _
  · intro noBlock
    rw [block] at noBlock
    cases noBlock
  · intro type
    rw [not_type_of_carried (by simp [block])] at type
    cases type

theorem method_comes_back (method : s.isMethodOrConstructorSymbol = true) (parentId namespace_ : String) :
    ComesBack s (StandardLibraryDeserializer.convertMethodSymbol (convertMethodSymbol s) parentId namespace_) := by
  have member := ((file.mem_carried listed).mp own).1
  obtain ⟨id,parent,given⟩ := file.carried_parent_given listed own
  have kinds : s.kind = .method ∨ s.kind = .constructor := by
    simpa [ApexSymbol.isMethodOrConstructorSymbol] using method
  refine comes_back (StandardLibraryDeserializer.preserveId_id _ (file.named s member)) ?_ ?_ ?_ ?_ ?_ ?_
  · simp [StandardLibraryDeserializer.convertMethodSymbol,convertMethodSymbol]
  · rcases kinds with kind | kind
    · have plain : s.isConstructor.getD false = false := by
        have := file.constructors s member kind
        cases flag : s.isConstructor with
        | none => rfl
        | some b => cases b <;> simp_all
      simp [StandardLibraryDeserializer.convertMethodSymbol,convertMethodSymbol,kind,plain]
    · simp [StandardLibraryDeserializer.convertMethodSymbol,convertMethodSymbol,kind]
  · simp [StandardLibraryDeserializer.convertMethodSymbol,convertMethodSymbol,StandardLibraryDeserializer.convertLocation,
      StandardLibraryDeserializer.convertRange,convertLocation]
  · simp [StandardLibraryDeserializer.convertMethodSymbol,convertMethodSymbol,parentOr_parentText parent given]
  · intro _
    simp [StandardLibraryDeserializer.convertMethodSymbol,convertMethodSymbol,convertModifiers_convertModifiers]
  · intro type
    rw [file.type_of_carried listed own] at type
    cases type

theorem variable_comes_back (kinds : s.kind = .field ∨ s.kind = .property ∨ s.kind = .enumValue) (parentId namespace_ : String) :
    ComesBack s (StandardLibraryDeserializer.convertVariableSymbol (convertVariableSymbol s) parentId namespace_) := by
  have member := ((file.mem_carried listed).mp own).1
  obtain ⟨id,parent,given⟩ := file.carried_parent_given listed own
  refine comes_back (StandardLibraryDeserializer.preserveId_id _ (file.named s member)) ?_ ?_ ?_ ?_ ?_ ?_
  · simp [StandardLibraryDeserializer.convertVariableSymbol,convertVariableSymbol]
  · rcases kinds with kind | kind | kind
    all_goals
      simp [StandardLibraryDeserializer.convertVariableSymbol,convertVariableSymbol,kind,convertVariableKind,
        StandardLibraryDeserializer.convertVariableKind]
  · simp [StandardLibraryDeserializer.convertVariableSymbol,convertVariableSymbol,StandardLibraryDeserializer.convertLocation,
      StandardLibraryDeserializer.convertRange,convertLocation]
  · simp [StandardLibraryDeserializer.convertVariableSymbol,convertVariableSymbol,parentOr_parentText parent given]
  · intro _
    simp [StandardLibraryDeserializer.convertVariableSymbol,convertVariableSymbol,convertModifiers_convertModifiers]
  · intro type
    rw [file.type_of_carried listed own] at type
    cases type

end

end OneTypeFile

/-! What comes back for a message. -/

structure MessageOf (symbols : List ApexSymbol) (t : ApexSymbol) (message : ProtoTypeSymbol) : Prop where
  id : message.id = t.id
  name : message.name = t.name
  kind : message.kind = convertTypeKind t.kind
  location : message.location = some (convertLocation t.location)
  modifiers : message.modifiers = some (convertModifiers t.modifiers)
  superClass : message.superClass = orElse t.superClass ""
  interfaces : message.interfaces = t.interfaces.getD []
  parentId : message.parentId = parentText t.parentId
  blocks : message.blocks = (blocksOf symbols t).map convertBlockSymbol
  methods : message.methods = (childrenOf symbols ApexSymbol.isMethodOrConstructorSymbol t).map convertMethodSymbol
  fields : message.fields = (childrenOf symbols (fun s => s.kind = .field) t).map convertVariableSymbol
  properties : message.properties = (childrenOf symbols (fun s => s.kind = .property) t).map convertVariableSymbol
  enumValues : message.enumValues = (childrenOf symbols (fun s => s.kind = .enumValue) t).map convertVariableSymbol

theorem convertTypeSymbol_spec {namespace_ : String}
    (converted : convertTypeSymbol symbols namespace_ (depth + 1) t = some message) :
    MessageOf symbols t message ∧ (innerTypes symbols t).mapM (convertTypeSymbol symbols namespace_ depth) =
      some message.innerTypes := by
  rw [convertTypeSymbol,Option.map_eq_some_iff] at converted
  obtain ⟨inner,all,rfl⟩ := converted
  exact ⟨⟨rfl,rfl,rfl,rfl,rfl,rfl,rfl,rfl,rfl,rfl,rfl,rfl,rfl⟩,all⟩

theorem converted_of_within (namespace_ : String) (within : Within (innerTypes symbols) depth t) :
    ∃ message, convertTypeSymbol symbols namespace_ depth t = some message := by
  induction depth generalizing t with
  | zero => exact within.elim
  | succ depth ih =>
    have all : ∀ l : List ApexSymbol, (∀ i ∈ l, ∃ message, convertTypeSymbol symbols namespace_ depth i = some message) →
        ∃ messages, l.mapM (convertTypeSymbol symbols namespace_ depth) = some messages := by
      intro l each
      induction l with
      | nil => exact ⟨[],rfl⟩
      | cons i l rest =>
        obtain ⟨first,others⟩ := List.forall_mem_cons.mp each
        obtain ⟨message,converted⟩ := first
        obtain ⟨messages,converteds⟩ := rest others
        exact ⟨message :: messages,by simp [List.mapM_cons,converted,converteds]⟩
    obtain ⟨messages,converteds⟩ := all (innerTypes symbols t) (fun i inner => ih (within i inner))
    unfold innerTypes at converteds
    rw [convertTypeSymbol,converteds]
    exact ⟨_,rfl⟩

/-- The records of a message's symbols: each type gets the parent that is handed down to it. -/
def handedDown (symbols : List ApexSymbol) : Nat → ParentId → ApexSymbol → List SymbolRecord
  | 0,_,_ => []
  | depth + 1,parentId,t => { recordOf t with parentId := parentId } ::
      ((carried symbols t).map recordOf ++ (innerTypes symbols t).flatMap (handedDown symbols depth (.of t.id)))

section

variable [Runtime]

theorem MessageOf.type_comes_back {message : ProtoTypeSymbol} (made : MessageOf symbols t message) (type : isTypeSymbol t = true)
    (named : t.id ≠ "") (parentId : Option String) (namespace_ : String) :
    isSerialized (StandardLibraryDeserializer.convertTypeSymbol message parentId namespace_) = true ∧
      recordOf (StandardLibraryDeserializer.convertTypeSymbol message parentId namespace_) =
        { recordOf t with parentId := parentOr (parentId.getD "") (parentOr message.parentId .null) } := by
  suffices back : ComesBack { t with parentId := parentOr (parentId.getD "") (parentOr message.parentId .null) }
      (StandardLibraryDeserializer.convertTypeSymbol message parentId namespace_) by
    have serialized : isSerialized t = true := by simp [isSerialized,type]
    exact ⟨back.1.trans serialized,back.2⟩
  refine comes_back ?_ ?_ ?_ ?_ ?_ ?_ ?_
  · exact (StandardLibraryDeserializer.preserveId_id _ (made.id ▸ named)).trans made.id
  · simp [StandardLibraryDeserializer.convertTypeSymbol,made.name]
  · simp only [isTypeSymbol,Bool.or_eq_true,decide_eq_true_eq] at type
    rcases type with ((kind | kind) | kind) | kind
    all_goals
      simp [StandardLibraryDeserializer.convertTypeSymbol,made.kind,kind,convertTypeKind,
        StandardLibraryDeserializer.convertTypeKind]
  · simp [StandardLibraryDeserializer.convertTypeSymbol,made.location,convertLocation,StandardLibraryDeserializer.convertLocation,
      StandardLibraryDeserializer.convertRange]
  · simp [StandardLibraryDeserializer.convertTypeSymbol]
  · intro _
    simp [StandardLibraryDeserializer.convertTypeSymbol,made.modifiers,convertModifiers_convertModifiers]
  · intro _
    refine ⟨?_,by simp [StandardLibraryDeserializer.convertTypeSymbol,made.interfaces]⟩
    simp only [StandardLibraryDeserializer.convertTypeSymbol,made.superClass]
    split
    next empty => rw [empty]; rfl
    next given => rw [orElse,if_neg given]

theorem MessageOf.records_carried {message : ProtoTypeSymbol} (made : MessageOf symbols t message)
    (file : OneTypeFile symbols top)
    (listed : t ∈ symbols) (typeId namespace_ : String) :
    records (StandardLibraryDeserializer.blockSymbols message namespace_) ++
      records (message.methods.map (fun p => StandardLibraryDeserializer.convertMethodSymbol p typeId namespace_)) ++
      records (StandardLibraryDeserializer.variableSymbols message typeId namespace_) = (carried symbols t).map recordOf := by
  have blocks : records (StandardLibraryDeserializer.blockSymbols message namespace_) = (blocksOf symbols t).map recordOf := by
    rw [StandardLibraryDeserializer.blockSymbols,made.blocks,List.map_map]
    have own : ∀ s ∈ blocksOf symbols t, s ∈ carried symbols t := fun s member => List.mem_append_left _ member
    exact records_map (fun s member => file.serialized_of_carried listed (own s member))
      (fun s member => file.block_comes_back listed (own s member) ((file.mem_blocksOf listed).mp member).2.1 namespace_)
  have methods : records (message.methods.map (fun p => StandardLibraryDeserializer.convertMethodSymbol p typeId namespace_)) =
      (childrenOf symbols ApexSymbol.isMethodOrConstructorSymbol t).map recordOf := by
    rw [made.methods,List.map_map]
    have own : ∀ s ∈ childrenOf symbols ApexSymbol.isMethodOrConstructorSymbol t, s ∈ carried symbols t :=
      fun s member => List.mem_append_right _ (List.mem_append_left _ member)
    exact records_map (fun s member => file.serialized_of_carried listed (own s member))
      (fun s member => file.method_comes_back listed (own s member)
        ((file.mem_childrenOf listed).mp member).2.2 typeId namespace_)
  have variables_ : records (StandardLibraryDeserializer.variableSymbols message typeId namespace_) =
      (childrenOf symbols (fun s => s.kind = .field) t ++ (childrenOf symbols (fun s => s.kind = .property) t ++
        childrenOf symbols (fun s => s.kind = .enumValue) t)).map recordOf := by
    rw [StandardLibraryDeserializer.variableSymbols,made.fields,made.properties,made.enumValues,
      ← List.map_append,← List.map_append,
      List.map_map,List.append_assoc]
    have own : ∀ s ∈ childrenOf symbols (fun s => s.kind = .field) t ++ (childrenOf symbols (fun s => s.kind = .property) t ++
        childrenOf symbols (fun s => s.kind = .enumValue) t), s ∈ carried symbols t :=
      fun s member => List.mem_append_right _ (List.mem_append_right _ member)
    refine records_map (fun s member => file.serialized_of_carried listed (own s member))
      (fun s member => file.variable_comes_back listed (own s member) ?_ typeId namespace_)
    simp only [List.mem_append,file.mem_childrenOf listed,decide_eq_true_eq] at member
    tauto
  rw [blocks,methods,variables_,← List.map_append,← List.map_append,List.append_assoc]
  rfl

omit [Runtime] in
theorem records_cons_of (serialized : isSerialized s = true) (l : List ApexSymbol) :
    records (s :: l) = recordOf s :: records l := by
  rw [records,List.filter_cons_of_pos serialized]
  rfl

theorem records_symbolsOfInnerTypes {l : List ApexSymbol} {messages : List ProtoTypeSymbol}
    {namespace_ : String} (parentId : String)
    (each : ∀ i ∈ l, ∀ message, convertTypeSymbol symbols namespace_ depth i = some message →
      records (StandardLibraryDeserializer.symbolsOfInnerType message parentId namespace_) =
        handedDown symbols depth (.of parentId) i)
    (converted : l.mapM (convertTypeSymbol symbols namespace_ depth) = some messages) :
    records (StandardLibraryDeserializer.symbolsOfInnerTypes messages parentId namespace_) =
      l.flatMap (handedDown symbols depth (.of parentId)) := by
  induction l generalizing messages with
  | nil =>
    obtain rfl : [] = messages := by simpa using converted
    rfl
  | cons i l ih =>
    obtain ⟨first,others⟩ := List.forall_mem_cons.mp each
    simp only [List.mapM_cons,Option.bind_eq_bind,Option.bind_eq_some_iff,Option.pure_def,Option.some.injEq] at converted
    obtain ⟨message,here,rest,below,rfl⟩ := converted
    rw [StandardLibraryDeserializer.symbolsOfInnerTypes,records_append,first message here,ih others below,List.flatMap_cons]

theorem records_symbolsOfInnerType (file : OneTypeFile symbols top) (namespace_ : String) :
    ∀ depth t message parentId, t ∈ symbols → isTypeSymbol t = true → parentId ≠ "" →
      convertTypeSymbol symbols namespace_ depth t = some message →
        records (StandardLibraryDeserializer.symbolsOfInnerType message parentId namespace_) =
          handedDown symbols depth (.of parentId) t := by
  intro depth
  induction depth with
  | zero => exact fun _ _ _ _ _ _ converted => by cases converted
  | succ depth ih =>
    intro t message parentId listed type given converted
    obtain ⟨made,inner⟩ := convertTypeSymbol_spec converted
    obtain ⟨serialized,record⟩ := made.type_comes_back type (file.named t listed) (some parentId) namespace_
    have typeId := congrArg SymbolRecord.id record
    change (StandardLibraryDeserializer.convertTypeSymbol message (some parentId) namespace_).id = t.id at typeId
    have below := records_symbolsOfInnerTypes t.id (fun i isInner m here => ih i m t.id
      ((file.mem_innerTypes listed).mp isInner).1 ((file.mem_innerTypes listed).mp isInner).2.2 (file.named t listed) here) inner
    rw [StandardLibraryDeserializer.symbolsOfInnerType_eq]
    dsimp only
    rw [typeId,records_cons_of serialized,record,records_append,records_append,records_append,
      made.records_carried file listed,below,
      Option.getD_some,parentOr,if_neg given]
    rfl

theorem records_methodWithParameters (typeId namespace_ : String) (methods : List ProtoMethodSymbol) :
    records (methods.flatMap (StandardLibraryDeserializer.methodWithParameters typeId namespace_)) =
      records (methods.map (fun p => StandardLibraryDeserializer.convertMethodSymbol p typeId namespace_)) := by
  induction methods with
  | nil => rfl
  | cons method methods ih =>
    have none_ : ∀ methodId, records (method.parameters.map
        (fun p => StandardLibraryDeserializer.convertParameterToVariableSymbol p methodId)) = [] := by
      intro methodId
      rw [records,List.filter_eq_nil_iff.mpr]
      · rfl
      · intro s member
        obtain ⟨param,_,rfl⟩ := List.mem_map.mp member
        simp [isSerialized,isTypeSymbol,isMember,ApexSymbol.isBlockSymbol,ApexSymbol.isMethodOrConstructorSymbol,
          StandardLibraryDeserializer.convertParameterToVariableSymbol]
    rw [List.flatMap_cons,records_append,ih,StandardLibraryDeserializer.methodWithParameters,
      ← List.singleton_append,records_append,
      none_,List.append_nil,← records_append]
    rfl

theorem records_symbolsOfType (file : OneTypeFile symbols top) {namespace_ : String} {message : ProtoTypeSymbol}
    (converted : convertTypeSymbol symbols namespace_ depth top = some message) :
    records (StandardLibraryDeserializer.symbolsOfType message namespace_) = handedDown symbols depth .null top := by
  cases depth with
  | zero => cases converted
  | succ depth =>
    obtain ⟨made,inner⟩ := convertTypeSymbol_spec converted
    obtain ⟨serialized,record⟩ := made.type_comes_back file.type (file.named top file.listed) none namespace_
    have typeId := congrArg SymbolRecord.id record
    change (StandardLibraryDeserializer.convertTypeSymbol message none namespace_).id = top.id at typeId
    have below := records_symbolsOfInnerTypes top.id (fun i isInner m here =>
      records_symbolsOfInnerType file namespace_ depth i m top.id ((file.mem_innerTypes file.listed).mp isInner).1
        ((file.mem_innerTypes file.listed).mp isInner).2.2 (file.named top file.listed) here) inner
    rw [StandardLibraryDeserializer.symbolsOfType,typeId,records_cons_of serialized,record,records_append,
      records_append,records_append,records_methodWithParameters,
      made.records_carried file file.listed,below,made.parentId,file.topLevel]
    rfl

end

/-! What is handed down. -/

theorem handedDown_ids (symbols : List ApexSymbol) (depth : Nat) (parentId : ParentId) (t : ApexSymbol) :
    (handedDown symbols depth parentId t).map SymbolRecord.id =
      (listing (carried symbols) (innerTypes symbols) depth t).map ApexSymbol.id := by
  induction depth generalizing parentId t with
  | zero => rfl
  | succ depth ih =>
    simp only [handedDown,listing,List.map_cons,List.map_append,List.map_flatMap,List.map_map,ih]
    rfl

theorem handedDown_of_direct {depth : Nat}
    (direct : ∀ o, Holds (innerTypes symbols) t o → ∀ i ∈ innerTypes symbols o, i.parentId = .of o.id) :
    handedDown symbols depth t.parentId t = (listing (carried symbols) (innerTypes symbols) depth t).map recordOf := by
  induction depth generalizing t with
  | zero => rfl
  | succ depth ih =>
    have below : ∀ i ∈ innerTypes symbols t, handedDown symbols depth (.of t.id) i =
        (listing (carried symbols) (innerTypes symbols) depth i).map recordOf := by
      intro i inner
      rw [← direct t .refl i inner]
      exact ih fun o held => direct o (.head inner held)
    simp only [handedDown,listing,List.map_cons,List.map_append,List.map_flatMap,List.flatMap_congr below]
    rfl

theorem mem_handedDown (within : Within (innerTypes symbols) depth t) (held : Holds (innerTypes symbols) t o)
    (inner : i ∈ innerTypes symbols o) (parentId : ParentId) :
    { recordOf i with parentId := .of o.id } ∈ handedDown symbols depth parentId t := by
  induction depth generalizing t parentId with
  | zero => exact within.elim
  | succ depth ih =>
    rw [handedDown]
    apply List.mem_cons_of_mem
    apply List.mem_append_right
    rcases Relation.ReflTransGen.cases_head held with rfl | ⟨first,child,rest⟩
    · refine List.mem_flatMap.mpr ⟨i,inner,?_⟩
      have below := within i inner
      cases depth with
      | zero => exact below.elim
      | succ depth => exact List.mem_cons_self
    · exact List.mem_flatMap.mpr ⟨first,child,ih (within first child) rest _⟩

theorem handedDown_perm_iff (file : OneTypeFile symbols top) (within : Within (innerTypes symbols) depth top) :
    (handedDown symbols depth .null top).Perm (records symbols) ↔ InnerTypesBare symbols top := by
  constructor
  · intro perm
    have recordIds : (records symbols).map SymbolRecord.id = (symbols.filter isSerialized).map ApexSymbol.id := by
      rw [records,List.map_map]
      rfl
    refine ⟨fun i member type inner => ?_,fun i member type inner b inside block => ?_⟩
    · rcases Relation.ReflTransGen.cases_tail (file.held_of_type member type) with same | ⟨o,held,child⟩
      · exact absurd same inner
      · obtain ⟨listed,ownerType⟩ := file.type_of_held held
        obtain ⟨s,picked,same⟩ := List.mem_map.mp (perm.mem_iff.mp (mem_handedDown within held child .null))
        obtain rfl := file.eq_of_id (List.mem_filter.mp picked).1 member (congrArg SymbolRecord.id same)
        exact ⟨o,listed,ownerType,congrArg SymbolRecord.parentId same⟩
    · have ids : ((handedDown symbols depth .null top).map SymbolRecord.id).Nodup := by
        rw [(perm.map SymbolRecord.id).nodup_iff,recordIds]
        exact file.unique.sublist (List.filter_sublist.map _)
      rw [handedDown_ids] at ids
      cases depth with
      | zero => exact within.elim
      | succ depth => exact file.blockless_of_nodup within (List.Nodup.of_map _ ids) member type inner inside block
  · intro bare
    have direct : ∀ o, Holds (innerTypes symbols) top o → ∀ i ∈ innerTypes symbols o, i.parentId = .of o.id := by
      intro o held i inner
      obtain ⟨listed,type⟩ := file.type_of_held held
      obtain ⟨member,child,innerType⟩ := (file.mem_innerTypes listed).mp inner
      obtain ⟨outer,outerListed,outerType,parent⟩ := bare.direct i member innerType (file.ne_top_of_inner listed inner)
      rw [parent,file.owner_unique listed outerListed type outerType child (.inl parent)]
    rw [← file.topLevel,handedDown_of_direct direct]
    exact (file.listing_perm bare within).map recordOf


theorem extractTypeSymbols_single (file : OneTypeFile symbols top) (namespace_ : String) (depth : Nat) :
    extractTypeSymbols symbols namespace_ depth =
      (convertTypeSymbol symbols namespace_ depth top).map fun message => [message] := by
  have only : symbols.filter (fun s => isTypeSymbol s && s.parentId = .null) = [top] := by
    apply List.perm_singleton.mp
    rw [List.perm_ext_iff_of_nodup (file.once.filter _) (List.nodup_singleton top)]
    intro s
    rw [List.mem_filter,List.mem_singleton,Bool.and_eq_true,decide_eq_true_eq]
    constructor
    · rintro ⟨member,type,topLevel⟩
      by_contra inner
      obtain ⟨id,parent,_⟩ := file.parent_given member (by simp [isSerialized,type]) inner
      rw [parent] at topLevel
      cases topLevel
    · rintro rfl
      exact ⟨file.listed,file.type,file.topLevel⟩
  rw [extractTypeSymbols,only]
  cases converted : convertTypeSymbol symbols namespace_ depth top <;> simp [List.mapM_cons,converted]

theorem roundTrips_iff [Runtime] (file : OneTypeFile symbols top) (namespace_ : String) (enough : symbols.length ≤ depth) :
    ∃ message, extractTypeSymbols symbols namespace_ depth = some [message] ∧
      (RoundTrips symbols (StandardLibraryDeserializer.createSymbolTableForType message namespace_) ↔
        InnerTypesBare symbols top) := by
  have within := file.within enough
  obtain ⟨message,converted⟩ := converted_of_within namespace_ within
  refine ⟨message,?_,?_⟩
  · rw [extractTypeSymbols_single file,converted]
    rfl
  · rw [RoundTrips,StandardLibraryDeserializer.createSymbolTableForType_getAllSymbols,records_symbolsOfType file converted]
    exact handedDown_perm_iff file within

/-- A file's message can always be made, and its table comes back exactly when the file's inner types hang
from types and have no blocks. -/
theorem stdlib_round_trip_iff [Runtime] (heap : Heap) (t : SymbolTable) (file : OneTypeFile (t.getAllSymbols.map heap) top)
    (namespace_ : String) (enough : t.getAllSymbols.length ≤ depth) :
    ∃ message, extractTypeSymbols (t.getAllSymbols.map heap) namespace_ depth = some [message] ∧
      (RoundTrips (t.getAllSymbols.map heap) (StandardLibraryDeserializer.createSymbolTableForType message namespace_) ↔
        InnerTypesBare (t.getAllSymbols.map heap) top) :=
  roundTrips_iff file namespace_ (by rwa [List.length_map])

end

/-! `class Outer { void run() { } class Inner { } }`, with and without the inner class. -/

def outerLocation (line : Nat) : SymbolLocation := ⟨⟨line,0,line,9⟩,⟨line,0,line,9⟩⟩

section

variable [Runtime]

def outerClass : ApexSymbol :=
  createFullSymbol "Outer" .class_ (outerLocation 1) "file:///Outer.cls" { visibility := .public_ } .null

def outerBlock : ApexSymbol :=
  StandardLibraryDeserializer.createBlockSymbol "class_1" (some .class_) (outerLocation 2) "file:///Outer.cls" (.of outerClass.id)

def runMethod : ApexSymbol :=
  createFullSymbol "run" .method (outerLocation 3) "file:///Outer.cls" {} (.of outerBlock.id) none none none ["Outer"]

def innerClass : ApexSymbol :=
  createFullSymbol "Inner" .class_ (outerLocation 4) "file:///Outer.cls" {} (.of outerBlock.id) none none none ["Outer"]

def innerBlock : ApexSymbol :=
  StandardLibraryDeserializer.createBlockSymbol "class_2" (some .class_) (outerLocation 5) "file:///Outer.cls" (.of innerClass.id)

end

section

local instance : Runtime := asciiRuntime

def plainFile : List ApexSymbol := [outerClass,outerBlock,runMethod]

def nestedFile : List ApexSymbol := [outerClass,outerBlock,runMethod,innerClass,innerBlock]

/-- Outer types before their blocks, and these before what hangs from them. -/
def outerDepth (id : String) : Nat :=
  if id = outerClass.id then 0 else if id = outerBlock.id then 1 else if id = innerClass.id then 2 else 3

theorem plainFile_oneType : OneTypeFile plainFile outerClass where
  unique := by decide +kernel
  named := by decide +kernel
  listed := List.mem_cons_self
  type := rfl
  topLevel := rfl
  owned s member owned inner := by
    simp only [plainFile,List.mem_cons,List.not_mem_nil,or_false] at member
    rcases member with rfl | rfl | rfl
    · exact absurd rfl inner
    · cases owned
    · exact ⟨outerClass,by simp [plainFile],rfl,.inr ⟨outerBlock,by simp [plainFile],rfl,rfl,rfl⟩⟩
  enclosed s member block := by
    simp only [plainFile,List.mem_cons,List.not_mem_nil,or_false] at member
    rcases member with rfl | rfl | rfl
    · cases block
    · exact ⟨outerClass,by simp [plainFile],rfl,rfl⟩
    · cases block
  nested := by
    refine ⟨outerDepth,fun s member p parent => ?_⟩
    simp only [plainFile,List.mem_cons,List.not_mem_nil,or_false] at member
    rcases member with rfl | rfl | rfl
    · cases parent
    · cases parent
      decide +kernel
    · cases parent
      decide +kernel
  constructors := by decide +kernel
  blockRange := by decide +kernel

theorem nestedFile_oneType : OneTypeFile nestedFile outerClass where
  unique := by decide +kernel
  named := by decide +kernel
  listed := List.mem_cons_self
  type := rfl
  topLevel := rfl
  owned s member owned inner := by
    simp only [nestedFile,List.mem_cons,List.not_mem_nil,or_false] at member
    rcases member with rfl | rfl | rfl | rfl | rfl
    · exact absurd rfl inner
    · cases owned
    · exact ⟨outerClass,by simp [nestedFile],rfl,.inr ⟨outerBlock,by simp [nestedFile],rfl,rfl,rfl⟩⟩
    · exact ⟨outerClass,by simp [nestedFile],rfl,.inr ⟨outerBlock,by simp [nestedFile],rfl,rfl,rfl⟩⟩
    · cases owned
  enclosed s member block := by
    simp only [nestedFile,List.mem_cons,List.not_mem_nil,or_false] at member
    rcases member with rfl | rfl | rfl | rfl | rfl
    · cases block
    · exact ⟨outerClass,by simp [nestedFile],rfl,rfl⟩
    · cases block
    · cases block
    · exact ⟨innerClass,by simp [nestedFile],rfl,rfl⟩
  nested := by
    refine ⟨outerDepth,fun s member p parent => ?_⟩
    simp only [nestedFile,List.mem_cons,List.not_mem_nil,or_false] at member
    rcases member with rfl | rfl | rfl | rfl | rfl
    · cases parent
    all_goals
      cases parent
      decide +kernel
  constructors := by decide +kernel
  blockRange := by decide +kernel

theorem plainFile_bare : InnerTypesBare plainFile outerClass := by
  have onlyTop : ∀ i ∈ plainFile, isTypeSymbol i = true → i = outerClass := by
    intro i member type
    simp only [plainFile,List.mem_cons,List.not_mem_nil,or_false] at member
    rcases member with rfl | rfl | rfl
    · rfl
    · cases type
    · cases type
  exact ⟨fun i member type inner => absurd (onlyTop i member type) inner,
    fun i member type inner => absurd (onlyTop i member type) inner⟩

def filled (symbols : List ApexSymbol) : Hydration := (Hydration.new "file:///Outer.cls").addSymbols symbols

theorem filled_getAllSymbols (hydrated : ∀ symbol ∈ symbols, Hydrated symbol) : (filled symbols).getAllSymbols = symbols :=
  (Hydration.addSymbols_spec (Hydration.new_filling _) hydrated).2

theorem nestedFile_hydrated : ∀ symbol ∈ nestedFile, Hydrated symbol := by
  simp only [nestedFile,List.forall_mem_cons]
  exact ⟨createFullSymbol_hydrated (by simp),StandardLibraryDeserializer.createBlockSymbol_hydrated _ _ _ _ (by simp),
    createFullSymbol_hydrated (by simp),createFullSymbol_hydrated (by simp),
    StandardLibraryDeserializer.createBlockSymbol_hydrated _ _ _ _ (by simp),by simp⟩

theorem plainFile_round_trips :
    ∃ message, extractTypeSymbols (filled plainFile).getAllSymbols "System" 3 = some [message] ∧
      RoundTrips (filled plainFile).getAllSymbols (StandardLibraryDeserializer.createSymbolTableForType message "System") := by
  have listed : (filled plainFile).getAllSymbols = plainFile := by
    apply filled_getAllSymbols
    intro symbol member
    exact nestedFile_hydrated symbol (List.mem_append_left [innerClass,innerBlock] member)
  have file : OneTypeFile (filled plainFile).getAllSymbols outerClass := listed ▸ plainFile_oneType
  have three : (filled plainFile).table.getAllSymbols.length ≤ 3 := by
    have same := congrArg List.length listed
    rw [Hydration.getAllSymbols,List.length_map] at same
    exact Nat.le_of_eq same
  obtain ⟨message,made,back⟩ := stdlib_round_trip_iff (filled plainFile).heap (filled plainFile).table file "System" three
  exact ⟨message,made,back.mpr (listed ▸ plainFile_bare)⟩

/-- With the inner class in it, the file does not come back. -/
theorem nestedFile_does_not_round_trip :
    ¬ ∀ (heap : Heap) (t : SymbolTable) (top : ApexSymbol) (namespace_ : String) (depth : Nat) (message : ProtoTypeSymbol),
      OneTypeFile (t.getAllSymbols.map heap) top →
        extractTypeSymbols (t.getAllSymbols.map heap) namespace_ depth = some [message] →
        RoundTrips (t.getAllSymbols.map heap) (StandardLibraryDeserializer.createSymbolTableForType message namespace_) := by
  intro always
  have listed : (filled nestedFile).getAllSymbols = nestedFile := filled_getAllSymbols nestedFile_hydrated
  obtain ⟨message,made,back⟩ := roundTrips_iff nestedFile_oneType "System" (Nat.le_refl 5)
  have trip := always (filled nestedFile).heap (filled nestedFile).table outerClass "System" 5 message
  rw [← Hydration.getAllSymbols,listed] at trip
  have bare := back.mp (trip nestedFile_oneType made)
  have member : innerClass ∈ nestedFile := by simp [nestedFile]
  have inner : innerClass ≠ outerClass := fun same => absurd (congrArg ApexSymbol.id same) (by decide +kernel)
  obtain ⟨o,outer,type,parent⟩ := bare.direct innerClass member rfl inner
  simp only [nestedFile,List.mem_cons,List.not_mem_nil,or_false] at outer
  rcases outer with rfl | rfl | rfl | rfl | rfl
  · exact absurd parent (by decide +kernel)
  · cases type
  · cases type
  · exact absurd parent (by decide +kernel)
  · cases type

end
end ApexLs.Cache
