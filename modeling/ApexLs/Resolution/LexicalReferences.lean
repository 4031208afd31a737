import Mathlib.Data.List.Basic
import ApexLs.Collections.Chains
import ApexLs.Resolution.BlockRanges

/-! Unqualified names as a position sees them. The first search goes through the scopes around the
position for variables and methods, the later ones through classes for members. -/
namespace ApexLs.Resolution

open ApexLs.Utils ApexLs.Types ApexLs.Collections

namespace FileTable

def parentBlock (t : FileTable) (b : ApexSymbol) : Option ApexSymbol :=
  match b.parentId with
  | .of parentId => (if parentId = "" then none else t.symbolAt parentId).filter (·.kind = .block)
  | _ => none

def filedBlocks (t : FileTable) : List ApexSymbol := t.table.symbolMap.entries.filterMap fun entry => entry.2.first?.map t.heap

theorem mem_filedBlocks {t : FileTable} (up : t.parentBlock b = some c) : c ∈ t.filedBlocks := by
  unfold parentBlock at up
  split at up
  next parentId _ =>
    obtain ⟨found,-⟩ := Option.filter_eq_some_iff.mp up
    split at found
    next => cases found
    next =>
      obtain ⟨r,first,rfl⟩ := Option.map_eq_some_iff.mp found
      obtain ⟨bucket,got,head⟩ := Option.bind_eq_some_iff.mp first
      exact List.mem_filterMap.mpr ⟨(parentId,bucket),OrderedMap.get?_eq_some_iff.mp got,by rw [head]; rfl⟩
  next => cases up

def WalkEnds (t : FileTable) (position : Position) : Prop :=
  ∀ b, t.findContainingBlockSymbol position = some b → ∃ n, endsWithin t.parentBlock (fun _ => false) n b = true

theorem walkEnds_iff {t : FileTable} : t.WalkEnds position ↔
    ∀ b, t.findContainingBlockSymbol position = some b → ¬ Loops t.parentBlock (fun _ => false) b := by
  refine forall_congr' fun b => forall_congr' fun _ => ?_
  constructor
  · rintro ⟨n,within⟩
    exact not_loops_of_endsWithin within
  · intro straight
    exact ⟨_,(endsWithin_from_iff (fun _ _ => mem_filedBlocks) (Nat.lt_succ_self _)).mpr straight⟩

end FileTable

def isClassBlock (b : ApexSymbol) : Bool := b.isBlockSymbol && b.scopeType = some .class_

def isField (s : ApexSymbol) : Bool := s.kind = .field

section

variable [Runtime]

namespace FileTable

variable (t : FileTable) (position : Position) (name : String)

/-- A scope around the position that declares the name, in any letter case. -/
def DeclaresAs (scope kind : ApexSymbol → Bool) (b : ApexSymbol) : Prop :=
  b ∈ t.containingBlocks position ∧ scope b = true ∧
    ∃ s ∈ t.getAllSymbols, childOf b s = true ∧ kind s = true ∧ toLowerCase s.name = toLowerCase name

structure InnermostDeclaration (scope kind : ApexSymbol → Bool) (v : ApexSymbol) : Prop where
  listed : v ∈ t.getAllSymbols
  kind_ : kind v = true
  named : toLowerCase v.name = toLowerCase name
  innermost : ∃ b, t.DeclaresAs position name scope kind b ∧ childOf b v = true ∧
    ∀ c, t.DeclaresAs position name scope kind c → Within b.location.symbolRange c.location.symbolRange

/-- The resolution is lexical: variables and parameters of the innermost block first, then fields of the innermost class. -/
structure ResolvesLexically : Prop where
  ends : t.WalkEnds position
  variable_ : (∃ b, t.DeclaresAs position name (fun _ => true) isVariableOrParameter b) →
    ∃ v, resolveUnqualifiedReferenceByScope t name position = some v ∧
      t.InnermostDeclaration position name (fun _ => true) isVariableOrParameter v
  field : (¬ ∃ b, t.DeclaresAs position name (fun _ => true) isVariableOrParameter b) →
    (∃ b, t.DeclaresAs position name isClassBlock isField b) →
    ∃ v, resolveUnqualifiedReferenceByScope t name position = some v ∧
      t.InnermostDeclaration position name isClassBlock isField v

/-- What the first search sees at a scope: methods of the name, variables outside class level, and in
scopes nested in it what is spelled as the name. -/
inductive Shown (b : ApexSymbol) : ApexSymbol → Prop
  | method (s : ApexSymbol) (listed : s ∈ t.getAllSymbols) (child : childOf b s = true)
      (named : toLowerCase s.name = toLowerCase name) (kind : s.kind = .method) : Shown b s
  | local_ (s : ApexSymbol) (listed : s ∈ t.getAllSymbols) (child : childOf b s = true)
      (named : toLowerCase s.name = toLowerCase name) (kind : isVariableOrParameter s = true)
      (low : isClassOrFileLevel b = false) (filed : ∃ n ∈ t.getAllSymbols, n.kind = .block ∧ n.id = b.id) : Shown b s
  | nested (n s : ApexSymbol) (block : n ∈ t.getAllSymbols) (blockKind : n.kind = .block) (inside : childOf b n = true)
      (around : ∃ c ∈ t.scopeHierarchy position, c.id = n.id) (listed : s ∈ t.getAllSymbols) (child : childOf n s = true)
      (named : s.name = name) (kind : isVariableOrParameter s = true ∨ s.kind = .method) : Shown b s

/-- The symbols that the first search sees at a scope, in its order. -/
def shown (b : ApexSymbol) : List ApexSymbol :=
  (symbolsInScope (t.scopeHierarchy position) t.getAllSymbols name b).filter
    (isValidInScope (t.scopeHierarchy position) t.getAllSymbols)

variable {t position name}

theorem innermostSymbol_eq (b : ApexSymbol) : innermostSymbol (t.scopeHierarchy position) t.getAllSymbols name b =
    ((t.shown position name b).find? isVariableOrParameter).or (t.shown position name b).head? :=
  rfl

theorem innermostSymbol_eq_none {b : ApexSymbol} :
    innermostSymbol (t.scopeHierarchy position) t.getAllSymbols name b = none ↔ t.shown position name b = [] := by
  rw [innermostSymbol_eq,Option.or_eq_none_iff,List.head?_eq_none_iff]
  exact and_iff_right_of_imp fun none => by rw [none]; rfl

omit [Runtime] in
theorem childOf_id_eq {b n s : ApexSymbol} (child : childOf b s = true) : childOf n s = true ↔ n.id = b.id := by
  simp only [childOf,decide_eq_true_eq] at child ⊢
  rw [child,ParentId.of.injEq,eq_comm]

omit [Runtime] in
theorem isValidInScope_iff {s b : ApexSymbol} (child : childOf b s = true)
    (around : ∃ c ∈ t.scopeHierarchy position, c.id = b.id) :
    isValidInScope (t.scopeHierarchy position) t.getAllSymbols s = true ↔
      (isVariableOrParameter s = true → ∃ n ∈ t.getAllSymbols, n.kind = .block ∧ n.id = b.id) := by
  rw [isValidInScope]
  split
  case isFalse other => exact iff_of_true rfl fun variable_ => absurd variable_ other
  case isTrue variable_ =>
    split
    next n found =>
      have meets := List.find?_some found
      rw [Bool.and_eq_true,decide_eq_true_eq,childOf_id_eq child] at meets
      refine iff_of_true ?_ fun _ => ⟨n,List.mem_of_find?_eq_some found,meets⟩
      obtain ⟨c,member,same⟩ := around
      exact List.any_eq_true.mpr ⟨c,member,decide_eq_true (same.trans meets.2.symm)⟩
    next none_ =>
      refine iff_of_false Bool.false_ne_true fun filed => ?_
      obtain ⟨n,listed,block,same⟩ := filed variable_
      have silent := List.find?_eq_none.mp none_ n listed
      rw [Bool.and_eq_true,decide_eq_true_eq,childOf_id_eq child] at silent
      exact silent ⟨block,same⟩

omit [Runtime] in
theorem not_method_of_variable {s : ApexSymbol} (variable_ : isVariableOrParameter s = true) : s.kind ≠ .method := by
  intro method
  simp [isVariableOrParameter,method] at variable_

theorem mem_shown_iff {b s : ApexSymbol} (member : b ∈ t.scopeHierarchy position) :
    s ∈ t.shown position name b ↔ t.Shown position name b s := by
  rw [shown,List.mem_filter,symbolsInScope,List.mem_append]
  constructor
  · rintro ⟨direct | nested,valid⟩
    · obtain ⟨listed,meets⟩ := List.mem_filter.mp direct
      simp only [Bool.and_eq_true,Bool.or_eq_true,Bool.not_eq_true',decide_eq_true_eq] at meets
      obtain ⟨⟨named,child⟩,⟨variable_,low⟩ | method⟩ := meets
      · exact .local_ s listed child named variable_ low ((isValidInScope_iff child ⟨b,member,rfl⟩).mp valid variable_)
      · exact .method s listed child named method
    · obtain ⟨n,blocks,inner⟩ := List.mem_flatMap.mp nested
      obtain ⟨block,around⟩ := List.mem_filter.mp blocks
      obtain ⟨listed,meets⟩ := List.mem_filter.mp inner
      simp only [Bool.and_eq_true,Bool.or_eq_true,List.any_eq_true,decide_eq_true_eq] at around meets
      exact .nested n s block around.1.1 around.1.2 around.2 listed meets.1.2 meets.1.1 meets.2
  · rintro (⟨_,listed,child,named,method⟩ | ⟨_,listed,child,named,variable_,low,filed⟩ |
      ⟨n,_,block,blockKind,inside,around,listed,child,named,kind⟩)
    · refine ⟨.inl (List.mem_filter.mpr ⟨listed,by simp [named,child,method]⟩),(isValidInScope_iff child ⟨b,member,rfl⟩).mpr ?_⟩
      exact fun variable_ => absurd method (not_method_of_variable variable_)
    · refine ⟨.inl (List.mem_filter.mpr ⟨listed,by simp [named,child,variable_,low]⟩),?_⟩
      exact (isValidInScope_iff child ⟨b,member,rfl⟩).mpr fun _ => filed
    · refine ⟨.inr (List.mem_flatMap.mpr ⟨n,?_,?_⟩),(isValidInScope_iff child around).mpr fun _ => ⟨n,block,blockKind,rfl⟩⟩
      · exact List.mem_filter.mpr ⟨block,by simpa [blockKind,inside] using around⟩
      · exact List.mem_filter.mpr ⟨listed,by simpa [named,child] using kind⟩

end FileTable

def classesAroundMethod (allFileSymbols : List ApexSymbol) (block : ApexSymbol) : List ApexSymbol :=
  if isMethodLevel block then
    (classBlockOf allFileSymbols block.parentId).toList ++
      ((methodOf allFileSymbols block).bind fun method => classBlockOf allFileSymbols method.parentId).toList
  else []

namespace FileTable

variable (t : FileTable) (position : Position) (name : String)

/-- The scopes that the searches for members go through, in their order. -/
def consulted : List ApexSymbol :=
  t.scopeHierarchy position ++ (t.scopeHierarchy position).flatMap (classesAroundMethod t.getAllSymbols)

end FileTable

omit [Runtime] in
theorem memberOrParameter_class {all : List ApexSymbol} {id : ParentId} (found : classBlockOf all id = some c) (name : String) :
    memberOrParameter all name c = fieldOrMethod all name c := by
  unfold classBlockOf at found
  split at found
  next =>
    split at found
    next => cases found
    next =>
      have meets := List.find?_some found
      simp only [Bool.and_eq_true,decide_eq_true_eq] at meets
      rw [memberOrParameter,if_pos (by simp [isClassOrFileLevel,meets])]
  next => cases found

omit [Runtime] in
theorem memberAroundMethod_eq (all : List ApexSymbol) (name : String) (block : ApexSymbol) :
    memberAroundMethod all name block = (classesAroundMethod all block).findSome? (memberOrParameter all name) := by
  unfold memberAroundMethod classesAroundMethod
  split
  next =>
    rw [List.findSome?_append]
    congr 1
    · cases found : classBlockOf all block.parentId with
      | none => rfl
      | some c => simp [memberOrParameter_class found]
    · cases found : (methodOf all block).bind fun method => classBlockOf all method.parentId with
      | none => rfl
      | some c =>
        obtain ⟨method,-,class_⟩ := Option.bind_eq_some_iff.mp found
        simp [memberOrParameter_class class_]
  next => rfl

omit [Runtime] in
theorem findSome?_consulted (t : FileTable) (position : Position) (name : String) :
    ((t.scopeHierarchy position).findSome? (memberOrParameter t.getAllSymbols name)).or
      ((t.scopeHierarchy position).findSome? (memberAroundMethod t.getAllSymbols name)) =
      (t.consulted position).findSome? (memberOrParameter t.getAllSymbols name) := by
  rw [FileTable.consulted,List.findSome?_append]
  congr 1
  induction t.scopeHierarchy position with
  | nil => rfl
  | cons b rest ih =>
    rw [List.flatMap_cons,List.findSome?_append,← memberAroundMethod_eq,List.findSome?_cons,← ih]
    cases memberAroundMethod t.getAllSymbols name b <;> rfl

theorem resolveUnqualifiedReferenceByScope_eq (t : FileTable) (name : String) (position : Position) :
    resolveUnqualifiedReferenceByScope t name position =
      ((t.scopeHierarchy position).findSome? (innermostSymbol (t.scopeHierarchy position) t.getAllSymbols name)).or
        ((t.consulted position).findSome? (memberOrParameter t.getAllSymbols name)) := by
  rw [← findSome?_consulted,resolveUnqualifiedReferenceByScope,Option.or_assoc]

namespace FileTable

variable (t : FileTable) (position : Position) (name : String)

/-- Nothing captures the name: the walk up the parents does not run into a cycle; of a variable, the
innermost scope that shows the name at all shows the innermost declaration first; of a field, no scope
shows the name, and the first scope consulted with a member so spelled has that field. -/
structure Uncaptured : Prop where
  straight : ∀ b, t.findContainingBlockSymbol position = some b → ¬ Loops t.parentBlock (fun _ => false) b
  variable_ : (∃ b, t.DeclaresAs position name (fun _ => true) isVariableOrParameter b) →
    ∃ inner h outer v, t.scopeHierarchy position = inner ++ h :: outer ∧ (∀ b ∈ inner, ∀ s, ¬ t.Shown position name b s) ∧
      (t.shown position name h).find? isVariableOrParameter = some v ∧
      t.InnermostDeclaration position name (fun _ => true) isVariableOrParameter v
  field : (¬ ∃ b, t.DeclaresAs position name (fun _ => true) isVariableOrParameter b) →
    (∃ b, t.DeclaresAs position name isClassBlock isField b) →
    (∀ b ∈ t.scopeHierarchy position, ∀ s, ¬ t.Shown position name b s) ∧
      ∃ before c after v, t.consulted position = before ++ c :: after ∧
        (∀ b ∈ before, memberOrParameter t.getAllSymbols name b = none) ∧
        memberOrParameter t.getAllSymbols name c = some v ∧ t.InnermostDeclaration position name isClassBlock isField v

variable {t position name}

theorem innermostSymbol_none_iff {b : ApexSymbol} (member : b ∈ t.scopeHierarchy position) :
    innermostSymbol (t.scopeHierarchy position) t.getAllSymbols name b = none ↔ ∀ s, ¬ t.Shown position name b s := by
  rw [innermostSymbol_eq_none,List.eq_nil_iff_forall_not_mem]
  exact forall_congr' fun s => not_congr (mem_shown_iff member)

theorem innermostSymbol_variable {b v : ApexSymbol} (variable_ : isVariableOrParameter v = true) :
    innermostSymbol (t.scopeHierarchy position) t.getAllSymbols name b = some v ↔
      (t.shown position name b).find? isVariableOrParameter = some v := by
  rw [innermostSymbol_eq,Option.or_eq_some_iff]
  refine or_iff_left fun ⟨none_,first⟩ => ?_
  exact List.find?_eq_none.mp none_ v (List.mem_of_mem_head? first) variable_

theorem innermostSymbol_not_field {b v : ApexSymbol}
    (found : innermostSymbol (t.scopeHierarchy position) t.getAllSymbols name b = some v) : isField v = false := by
  have kind := (symbolsInScope_spec (innermostSymbol_spec found)).2.2.1
  simp only [isVariableOrParameter,Bool.or_eq_true,decide_eq_true_eq] at kind
  rcases kind with (variable_ | parameter) | method
  · simp [isField,variable_]
  · simp [isField,parameter]
  · simp [isField,method]

omit [Runtime] in
theorem fieldOrMethod_not_variable {all : List ApexSymbol} {c v : ApexSymbol} (found : fieldOrMethod all name c = some v) :
    isVariableOrParameter v = false := by
  rcases (fieldOrMethod_spec found).2.2.2 with field | method
  · simp [isVariableOrParameter,field]
  · simp [isVariableOrParameter,method]

theorem shown_of_member {c v : ApexSymbol} (consulted : c ∈ t.consulted position)
    (found : memberOrParameter t.getAllSymbols name c = some v)
    (declared : t.InnermostDeclaration position name (fun _ => true) isVariableOrParameter v) :
    c ∈ t.scopeHierarchy position ∧ t.Shown position name c v := by
  obtain ⟨listed,same,child,-⟩ := memberOrParameter_spec found
  have notMember : fieldOrMethod t.getAllSymbols name c ≠ some v := fun member => by
    have variable_ := declared.kind_
    rw [fieldOrMethod_not_variable member] at variable_
    cases variable_
  have low : isClassOrFileLevel c = false := by
    cases level : isClassOrFileLevel c with
    | false => rfl
    | true =>
      rw [memberOrParameter,level] at found
      exact absurd found notMember
  rcases List.mem_append.mp consulted with member | around
  · obtain ⟨b,⟨containing,-⟩,child',-⟩ := declared.innermost
    obtain ⟨blockListed,block,-⟩ := mem_containingBlocks.mp containing
    have filed : ∃ n ∈ t.getAllSymbols, n.kind = .block ∧ n.id = c.id :=
      ⟨b,blockListed,of_decide_eq_true block,(childOf_id_eq child).mp child'⟩
    exact ⟨member,.local_ v listed child (congrArg toLowerCase same) declared.kind_ low filed⟩
  · -- the classes around a method are class blocks
    exfalso
    obtain ⟨h,-,class_⟩ := List.mem_flatMap.mp around
    unfold classesAroundMethod at class_
    split at class_
    next =>
      rcases List.mem_append.mp class_ with direct | through
      · exact notMember (memberOrParameter_class (Option.mem_toList.mp direct) name ▸ found)
      · obtain ⟨method,-,ofMethod⟩ := Option.bind_eq_some_iff.mp (Option.mem_toList.mp through)
        exact notMember (memberOrParameter_class ofMethod name ▸ found)
    next => cases class_

theorem resolves_variable_iff (declared : t.InnermostDeclaration position name (fun _ => true) isVariableOrParameter v) :
    resolveUnqualifiedReferenceByScope t name position = some v ↔
      ∃ inner h outer, t.scopeHierarchy position = inner ++ h :: outer ∧ (∀ b ∈ inner, ∀ s, ¬ t.Shown position name b s) ∧
        (t.shown position name h).find? isVariableOrParameter = some v := by
  have split : (t.scopeHierarchy position).findSome? (innermostSymbol (t.scopeHierarchy position) t.getAllSymbols name) = some v ↔
      ∃ inner h outer, t.scopeHierarchy position = inner ++ h :: outer ∧ (∀ b ∈ inner, ∀ s, ¬ t.Shown position name b s) ∧
        (t.shown position name h).find? isVariableOrParameter = some v := by
    rw [List.findSome?_eq_some_iff]
    refine exists_congr fun inner => exists_congr fun h => exists_congr fun outer => and_congr_right fun cut => ?_
    rw [innermostSymbol_variable declared.kind_,and_comm]
    refine and_congr_left fun _ => forall_congr' fun b => forall_congr' fun member => innermostSymbol_none_iff ?_
    exact cut ▸ List.mem_append_left _ member
  rw [resolveUnqualifiedReferenceByScope_eq,← split,Option.or_eq_some_iff]
  refine or_iff_left fun ⟨silent,found⟩ => ?_
  obtain ⟨c,consulted,answer⟩ := List.exists_of_findSome?_eq_some found
  obtain ⟨member,seen⟩ := shown_of_member consulted answer declared
  exact (innermostSymbol_none_iff member).mp (List.findSome?_eq_none_iff.mp silent c member) v seen

theorem resolves_field_iff (declared : t.InnermostDeclaration position name isClassBlock isField v) :
    resolveUnqualifiedReferenceByScope t name position = some v ↔
      (∀ b ∈ t.scopeHierarchy position, ∀ s, ¬ t.Shown position name b s) ∧
      ∃ before c after, t.consulted position = before ++ c :: after ∧
        (∀ b ∈ before, memberOrParameter t.getAllSymbols name b = none) ∧ memberOrParameter t.getAllSymbols name c = some v := by
  rw [resolveUnqualifiedReferenceByScope_eq,Option.or_eq_some_iff,List.findSome?_eq_none_iff]
  have notFirst : (t.scopeHierarchy position).findSome? (innermostSymbol (t.scopeHierarchy position) t.getAllSymbols name) ≠
      some v := by
    intro found
    obtain ⟨b,-,answer⟩ := List.exists_of_findSome?_eq_some found
    have field := declared.kind_
    rw [innermostSymbol_not_field answer] at field
    cases field
  rw [or_iff_right notFirst]
  refine and_congr (forall_congr' fun b => forall_congr' fun member => innermostSymbol_none_iff member) ?_
  rw [List.findSome?_eq_some_iff]
  exact exists_congr fun before => exists_congr fun c => exists_congr fun after => and_congr_right fun _ => and_comm

/-- The resolution of an unqualified name is lexical if and only if nothing captures the name. -/
theorem resolvesLexically_iff (t : FileTable) (position : Position) (name : String) :
    t.ResolvesLexically position name ↔ t.Uncaptured position name := by
  constructor
  · intro lexical
    refine ⟨walkEnds_iff.mp lexical.ends,fun declares => ?_,fun noVariable declares => ?_⟩
    · obtain ⟨v,found,declared⟩ := lexical.variable_ declares
      obtain ⟨inner,h,outer,cut,silent,first⟩ := (resolves_variable_iff declared).mp found
      exact ⟨inner,h,outer,v,cut,silent,first,declared⟩
    · obtain ⟨v,found,declared⟩ := lexical.field noVariable declares
      obtain ⟨silent,before,c,after,cut,none_,member⟩ := (resolves_field_iff declared).mp found
      exact ⟨silent,before,c,after,v,cut,none_,member,declared⟩
  · intro uncaptured
    refine ⟨walkEnds_iff.mpr uncaptured.straight,fun declares => ?_,fun noVariable declares => ?_⟩
    · obtain ⟨inner,h,outer,v,cut,silent,first,declared⟩ := uncaptured.variable_ declares
      exact ⟨v,(resolves_variable_iff declared).mpr ⟨inner,h,outer,cut,silent,first⟩,declared⟩
    · obtain ⟨silent,before,c,after,v,cut,none_,member,declared⟩ := uncaptured.field noVariable declares
      exact ⟨v,(resolves_field_iff declared).mpr ⟨silent,before,c,after,cut,none_,member⟩,declared⟩

end FileTable

end

/-- `class Cart { Integer total; Integer total() { … } }`, the field and the method in the block of the class -/
def cart : FileTable where
  heap
    | .declared 0 =>
      { id := "Cart:block",name := "class_1_0",kind := .block,fileUri := "file:///Cart.cls",scopeType := some .class_
        location := ⟨⟨1,0,9,1⟩,⟨1,0,9,1⟩⟩ }
    | .declared 1 =>
      { id := "Cart:total",name := "total",kind := .field,fileUri := "file:///Cart.cls",parentId := .of "Cart:block"
        location := ⟨⟨2,2,2,16⟩,⟨2,10,2,15⟩⟩ }
    | _ =>
      { id := "Cart:total()",name := "total",kind := .method,fileUri := "file:///Cart.cls",parentId := .of "Cart:block"
        location := ⟨⟨3,2,5,3⟩,⟨3,10,3,15⟩⟩ }
  table := { symbolArray := [.declared 0,.declared 1,.declared 2] }

/-- Where the class has a method of the same name, its field is not found. -/
theorem field_hidden_by_method : cart.Laminar ∧
    (@resolveUnqualifiedReferenceByScope asciiRuntime cart "total" ⟨7,4⟩).map (·.kind) = some .method ∧
    ¬ @FileTable.ResolvesLexically asciiRuntime cart ⟨7,4⟩ "total" := by
  let _ := asciiRuntime
  have answer : (resolveUnqualifiedReferenceByScope cart "total" ⟨7,4⟩).map (·.kind) = some .method := by decide +kernel
  refine ⟨by decide,answer,fun lexical => ?_⟩
  have noVariable : ¬ ∃ b, cart.DeclaresAs ⟨7,4⟩ "total" (fun _ => true) isVariableOrParameter b := by
    rintro ⟨b,-,-,s,listed,-,variable_,-⟩
    have none_ : ∀ s ∈ cart.getAllSymbols, isVariableOrParameter s = false := by decide
    rw [none_ s listed] at variable_
    cases variable_
  have declares : cart.DeclaresAs ⟨7,4⟩ "total" isClassBlock isField (cart.heap (.declared 0)) := by
    refine ⟨FileTable.mem_containingBlocks.mpr ⟨List.mem_cons_self,rfl,rfl⟩,rfl,cart.heap (.declared 1),?_,rfl,rfl,rfl⟩
    exact List.mem_cons_of_mem _ List.mem_cons_self
  obtain ⟨v,found,declared⟩ := lexical.field noVariable ⟨_,declares⟩
  rw [found] at answer
  have method : v.kind = .method := Option.some.inj answer
  have field := declared.kind_
  rw [isField,method] at field
  cases field

end ApexLs.Resolution
