import ApexLs.Collections.FiniteChains
import ApexLs.Collections.WhileLoops
import ApexLs.Types.Symbol
import ApexLs.Utils.AsciiBytes

/-! Fully qualified names: the namespace, the names of the ancestors and the symbol's own name. -/
namespace ApexLs.Utils.FQNUtils

open ApexLs.Collections ApexLs.Types

structure FQNOptions where
  defaultNamespace : Option String := none
  normalizeCase : Bool := false
  excludeBlockSymbols : Bool := false
  deriving DecidableEq, Repr

/-- The id that the loop follows: where there is none, or an empty one, it stops. -/
def followed : ParentId → Option String
  | .of parentId => if parentId = "" then none else some parentId
  | .null | .undefined => none

/-- The loop's variables; `ended` is its `break`. -/
structure Walk where
  currentParentId : Option String
  depth : Nat := 0
  visitedIds : List String
  parts : List String
  ended : Bool := false
  deriving DecidableEq, Repr

def Walk.goesOn (w : Walk) : Bool := !w.ended && w.currentParentId.isSome && w.depth < 20

/-- The parent's name counts: it is not empty, and not the name of a block where these are left out. -/
def isNamed (options : FQNOptions) (parent : ApexSymbol) : Bool :=
  !(options.excludeBlockSymbols && parent.isBlockSymbol) && parent.name ≠ ""

structure Result where
  fqn : String
  symbol : ApexSymbol

section

variable [Runtime] (symbol : ApexSymbol) (options : FQNOptions) (getParent : String → Option ApexSymbol)

def Walk.round (w : Walk) : Walk :=
  match w.currentParentId with
  | none => w
  | some currentParentId =>
    if currentParentId ∈ w.visitedIds ∨ currentParentId = symbol.id then { w with ended := true }
    else
      let visitedIds := currentParentId :: w.visitedIds
      match getParent currentParentId with
      | none => { w with visitedIds := visitedIds, ended := true }
      | some parent =>
        if parent.id = symbol.id then { w with visitedIds := visitedIds, ended := true }
        else if options.excludeBlockSymbols && parent.isBlockSymbol then
          { w with visitedIds := visitedIds, currentParentId := followed parent.parentId, depth := w.depth + 1 }
        else
          { w with
            visitedIds := visitedIds
            parts := if parent.name ≠ "" then parent.name :: w.parts else w.parts
            currentParentId := followed parent.parentId
            depth := w.depth + 1 }

def Walk.first : Walk where
  currentParentId := followed symbol.parentId
  visitedIds := [symbol.id]
  parts := [symbol.name]

/-- The symbol's own namespace; for one without a parent the default, which the symbol then keeps. -/
def withNamespace (fqn : String) : Result :=
  if truthy symbol.namespace_ then ⟨symbol.namespace_.getD "" ++ "." ++ fqn,symbol⟩
  else if truthy options.defaultNamespace && (followed symbol.parentId).isNone then
    ⟨options.defaultNamespace.getD "" ++ "." ++ fqn,{ symbol with namespace_ := options.defaultNamespace }⟩
  else ⟨fqn,symbol⟩

def calculateFQN (getParent : Option (String → Option ApexSymbol)) (rounds : Nat) : Option Result :=
  let walked := match getParent with
    | some getParent => whileLoop Walk.goesOn (Walk.round symbol options getParent) rounds (Walk.first symbol)
    | none => some (Walk.first symbol)
  walked.map fun w =>
    let result := withNamespace symbol options (".".intercalate w.parts)
    if options.normalizeCase then { result with fqn := toLowerCase result.fqn } else result

end

/-! ### What the name is made of -/

def upward (getParent : String → Option ApexSymbol) (parentId : String) : Option (ApexSymbol × Option String) :=
  (getParent parentId).map fun parent => (parent,followed parent.parentId)

def Ancestors (getParent : String → Option ApexSymbol) (symbol : ApexSymbol) (ancestors : List (String × ApexSymbol)) : Prop :=
  Trail (upward getParent) (followed symbol.parentId) ancestors

def Acyclic (symbol : ApexSymbol) (ancestors : List (String × ApexSymbol)) : Prop :=
  ∀ a ∈ ancestors, a.1 ≠ symbol.id ∧ a.2.id ≠ symbol.id

instance (symbol : ApexSymbol) (ancestors : List (String × ApexSymbol)) : Decidable (Acyclic symbol ancestors) :=
  inferInstanceAs (Decidable (∀ a ∈ ancestors, _))

def namespaceOf (symbol : ApexSymbol) (options : FQNOptions) : List String :=
  if truthy symbol.namespace_ then symbol.namespace_.toList
  else if truthy options.defaultNamespace && (followed symbol.parentId).isNone then options.defaultNamespace.toList
  else []

/-- The names joined by dots: of the namespace, of the ancestors, outermost first, and of the symbol. -/
def qualified [Runtime] (symbol : ApexSymbol) (options : FQNOptions) (names : List String) : String :=
  let fqn := ".".intercalate (namespaceOf symbol options ++ names.reverse ++ [symbol.name])
  if options.normalizeCase then toLowerCase fqn else fqn

def nonBlockNames (ancestors : List (String × ApexSymbol)) : List String :=
  (ancestors.filter fun a => !a.2.isBlockSymbol).map (·.2.name)

def asked (getParent : Option (String → Option ApexSymbol)) : String → Option ApexSymbol := getParent.getD fun _ => none

section

variable [Runtime] (symbol : ApexSymbol) (options : FQNOptions) (getParent : Option (String → Option ApexSymbol))

structure NamesAll : Prop where
  returns : ∃ enough, ∀ rounds ≥ enough, ∃ result, calculateFQN symbol options getParent rounds = some result
  complete : options.excludeBlockSymbols = true → ∀ ancestors, Ancestors (asked getParent) symbol ancestors →
    Acyclic symbol ancestors → ∀ rounds result, calculateFQN symbol options getParent rounds = some result →
      result.fqn = qualified symbol options (nonBlockNames ancestors)

/-- The call returns, and names those of the nearest twenty ancestors that are not blocks and have a name. -/
structure NamesNearest : Prop where
  returns : ∃ enough, ∀ rounds ≥ enough, ∃ result, calculateFQN symbol options getParent rounds = some result
  complete : options.excludeBlockSymbols = true → ∀ ancestors, Ancestors (asked getParent) symbol ancestors →
    Acyclic symbol ancestors → ∀ rounds result, calculateFQN symbol options getParent rounds = some result →
      result.fqn = qualified symbol options ((nonBlockNames (ancestors.take 20)).filter (· ≠ ""))

end

/-! ### The loop -/

section

variable {symbol : ApexSymbol} {options : FQNOptions} {getParent : String → Option ApexSymbol} {w t : Walk}

theorem Walk.goesOn_iff : w.goesOn = true ↔ w.ended = false ∧ (∃ k, w.currentParentId = some k) ∧ w.depth < 20 := by
  simp only [Walk.goesOn,Bool.and_eq_true,Bool.not_eq_true',Option.isSome_iff_exists,decide_eq_true_eq,and_assoc]

/-- The rounds that are left: a round ends the walk or counts its parent. -/
def Walk.left (w : Walk) : Nat := if w.ended then 0 else 20 - w.depth

theorem Walk.round_left (w : Walk) (symbol : ApexSymbol) (options : FQNOptions)
    (getParent : String → Option ApexSymbol) (more : w.goesOn = true) :
    (w.round symbol options getParent).left < w.left := by
  obtain ⟨running,⟨k,current⟩,depth⟩ := Walk.goesOn_iff.mp more
  have now : w.left = 20 - w.depth := by rw [Walk.left,running]; rfl
  have ends {w' : Walk} (ended : w'.ended = true) : w'.left < w.left := by
    rw [now,Walk.left,if_pos ended]
    omega
  have counts {w' : Walk} (ended : w'.ended = w.ended) (deeper : w'.depth = w.depth + 1) : w'.left < w.left := by
    rw [now,Walk.left,ended,running,deeper]
    exact Nat.sub_lt_sub_left depth (Nat.lt_succ_self _)
  rw [Walk.round,current]
  dsimp only
  split
  · exact ends rfl
  · cases getParent k with
    | none => exact ends rfl
    | some parent =>
      dsimp only
      split
      · exact ends rfl
      · split
        · exact counts rfl rfl
        · exact counts rfl rfl

theorem Walk.round_found (w : Walk) (options : FQNOptions) {k : String} {parent : ApexSymbol}
    (current : w.currentParentId = some k) (new : k ∉ w.visitedIds) (other : k ≠ symbol.id)
    (present : getParent k = some parent) (apart : parent.id ≠ symbol.id) :
    w.round symbol options getParent = ⟨followed parent.parentId,w.depth + 1,k :: w.visitedIds,
      ([parent].filter (isNamed options)).map (·.name) ++ w.parts,w.ended⟩ := by
  rw [Walk.round,current]
  dsimp only
  rw [if_neg (not_or.mpr ⟨new,other⟩),present]
  dsimp only
  rw [if_neg apart]
  cases block : options.excludeBlockSymbols && parent.isBlockSymbol with
  | true => simp [isNamed,block]
  | false => by_cases named : parent.name = "" <;> simp [isNamed,block,named]

theorem Walk.round_missing (w : Walk) (symbol : ApexSymbol) (options : FQNOptions) {k : String}
    (current : w.currentParentId = some k) (absent : getParent k = none) :
    (w.round symbol options getParent).parts = w.parts ∧
      (w.round symbol options getParent).currentParentId = w.currentParentId := by
  rw [Walk.round,current]
  dsimp only
  split
  · exact ⟨rfl,rfl⟩
  · rw [absent]
    exact ⟨rfl,rfl⟩

theorem Walk.run_parts {trail : List (String × ApexSymbol)} (chain : Trail (upward getParent) w.currentParentId trail)
    (acyclic : Acyclic symbol trail) (new : ∀ a ∈ trail, a.1 ∉ w.visitedIds) (running : w.ended = false) {rounds : Nat}
    (result : whileLoop Walk.goesOn (Walk.round symbol options getParent) rounds w = some t) :
    t.parts = (((trail.take (20 - w.depth)).map Prod.snd).filter (isNamed options)).reverse.map (·.name) ++ w.parts := by
  induction trail generalizing w rounds with
  | nil =>
    rw [List.take_nil]
    have keeps (w' : Walk) (same : w'.parts = w.parts ∧ w'.currentParentId = w.currentParentId) (more : w'.goesOn = true) :
        (w'.round symbol options getParent).parts = w.parts ∧
          (w'.round symbol options getParent).currentParentId = w.currentParentId := by
      obtain ⟨-,⟨k,current⟩,-⟩ := Walk.goesOn_iff.mp more
      rw [← same.2,current] at chain
      cases chain with
      | missing absent =>
        have stays := w'.round_missing symbol options current (Option.map_eq_none_iff.mp absent)
        exact ⟨stays.1.trans same.1,stays.2.trans same.2⟩
    exact (whileLoop_spec keeps ⟨rfl,rfl⟩ result).1.1
  | cons first trail ih =>
    have whole := chain.keys_nodup
    generalize start : w.currentParentId = current at chain
    cases chain with
    | @found k parent onward _ present rest =>
    obtain ⟨parent',answer,same⟩ := Option.map_eq_some_iff.mp present
    obtain ⟨rfl,rfl⟩ := Prod.mk.inj same
    cases more : w.goesOn with
    | false =>
      rw [whileLoop_done more] at result
      have stopped := mt Walk.goesOn_iff.mpr (more ▸ Bool.false_ne_true)
      have depth : 20 - w.depth = 0 := Nat.sub_eq_zero_of_le (Nat.le_of_not_lt fun less => stopped ⟨running,⟨k,start⟩,less⟩)
      rw [depth,← Option.some.inj result]
      rfl
    | true =>
      obtain ⟨-,-,depth⟩ := Walk.goesOn_iff.mp more
      obtain ⟨others,newRest⟩ := List.nodup_cons.mp whole
      have round := w.round_found options start (new _ (.head _)) (acyclic _ (.head _)).1 answer (acyclic _ (.head _)).2
      cases rounds with
      | zero => simp [whileLoop,more] at result
      | succ rounds =>
        rw [whileLoop_more more,round] at result
        refine (ih (w := ⟨_,w.depth + 1,k :: w.visitedIds,_,w.ended⟩) rest (fun a member => acyclic a (.tail _ member))
          (fun a member seen => ?_) running result).trans ?_
        · obtain rfl | seen := List.mem_cons.mp seen
          · exact others (List.mem_map.mpr ⟨a,member,rfl⟩)
          · exact new a (.tail _ member) seen
        · obtain ⟨room,more⟩ : ∃ room, 20 - w.depth = room + 1 := ⟨20 - w.depth - 1,by omega⟩
          have less : 20 - (w.depth + 1) = room := by omega
          dsimp only
          rw [more,less,List.take_succ_cons,List.map_cons]
          cases named : isNamed options parent' with
          | true => simp [named]
          | false => simp [named]

end

/-! ### The name -/

section

variable (symbol : ApexSymbol) (options : FQNOptions)

theorem withNamespace_fqn {names : List String} (some_ : names ≠ []) :
    (withNamespace symbol options (".".intercalate names)).fqn = ".".intercalate (namespaceOf symbol options ++ names) := by
  have dotted (namespace_ : String) : namespace_ ++ "." ++ ".".intercalate names = ".".intercalate ([namespace_] ++ names) :=
    (String.intercalate_cons_of_ne_nil some_).symm
  rw [withNamespace,namespaceOf]
  split
  next own =>
    cases given : symbol.namespace_ with
    | none =>
      rw [given] at own
      cases own
    | some namespace_ => exact dotted namespace_
  next =>
    split
    next default_ =>
      cases given : options.defaultNamespace with
      | none =>
        rw [given] at default_
        cases default_
      | some namespace_ => exact dotted namespace_
    next => rfl

theorem nonBlockNames_filter {options : FQNOptions} (exclude : options.excludeBlockSymbols = true)
    (ancestors : List (String × ApexSymbol)) :
    ((ancestors.map Prod.snd).filter (isNamed options)).map (·.name) = (nonBlockNames ancestors).filter (· ≠ "") := by
  rw [nonBlockNames,List.filter_map,List.map_map,List.filter_map,List.filter_filter]
  refine congrArg (List.map _) (List.filter_congr fun a _ => ?_)
  simp [isNamed,exclude,Bool.and_comm]

variable [Runtime]

theorem calculateFQN_returns (getParent : Option (String → Option ApexSymbol)) {rounds : Nat} (enough : 20 ≤ rounds) :
    ∃ result, calculateFQN symbol options getParent rounds = some result := by
  cases getParent with
  | none => exact ⟨_,rfl⟩
  | some getParent =>
    obtain ⟨t,walked⟩ := whileLoop_of_measure (I := fun _ => True) (fun _ _ _ => trivial) Walk.left
      (fun w _ more => w.round_left symbol options getParent more) (s := Walk.first symbol) trivial enough
    exact ⟨_,congrArg (Option.map _) walked⟩

theorem calculateFQN_fqn {getParent : Option (String → Option ApexSymbol)} {ancestors : List (String × ApexSymbol)}
    (whole : Ancestors (asked getParent) symbol ancestors) (acyclic : Acyclic symbol ancestors) {rounds : Nat} {result : Result}
    (returned : calculateFQN symbol options getParent rounds = some result) :
    result.fqn = qualified symbol options ((((ancestors.take 20).map Prod.snd).filter (isNamed options)).map (·.name)) := by
  obtain ⟨w,walked,rfl⟩ := Option.map_eq_some_iff.mp returned
  have parts : w.parts = (((ancestors.take 20).map Prod.snd).filter (isNamed options)).reverse.map (·.name) ++ [symbol.name] := by
    cases getParent with
    | none =>
      have none_ : ancestors = [] := by
        rw [Ancestors] at whole
        generalize followed symbol.parentId = start at whole
        cases whole with
        | ended | missing => rfl
        | found present => cases present
      rw [← Option.some.inj walked,none_]
      rfl
    | some getParent =>
      refine Walk.run_parts (w := Walk.first symbol) whole acyclic (fun a member seen => ?_) rfl walked
      exact (acyclic a member).1 (List.mem_singleton.mp seen)
  have named := withNamespace_fqn symbol options (show w.parts ≠ [] from parts ▸ List.concat_ne_nil _ _)
  rw [qualified]
  dsimp only
  rw [← List.map_reverse,List.append_assoc,← parts,← named]
  split
  · rfl
  · rfl

/-- A call always returns, and a name has those of the nearest twenty ancestors in it. -/
theorem calculateFQN_names (getParent : Option (String → Option ApexSymbol)) : NamesNearest symbol options getParent := by
  refine ⟨⟨20,fun rounds enough => calculateFQN_returns symbol options getParent enough⟩,?_⟩
  intro exclude ancestors whole acyclic rounds result returned
  rw [calculateFQN_fqn symbol options whole acyclic returned,nonBlockNames_filter exclude]

end

/-- A class, twenty blocks in it, and a method in the innermost one. -/
def nested (depth : Nat) : ApexSymbol where
  id := toString depth
  name := if depth = 0 then "Outer" else if depth = 21 then "run" else "block"
  kind := if depth = 0 then .class_ else if depth = 21 then .method else .block
  location := default
  fileUri := "file:///Outer.cls"
  parentId := if depth = 0 then .null else .of (toString (depth - 1))

def nestedParent (parentId : String) : Option ApexSymbol := ((List.range 21).map nested).find? (·.id = parentId)

/-- Twenty blocks hide the class that they are in. -/
theorem outer_class_missed : ¬ @NamesAll asciiRuntime (nested 21) { excludeBlockSymbols := true } (some nestedParent) := by
  intro names
  have whole : Ancestors nestedParent (nested 21) _ := Trail.of_trail (n := 22) rfl
  have name := @NamesAll.complete asciiRuntime _ _ _ names rfl _ whole (by decide +kernel) 20 _ rfl
  exact absurd name (by decide +kernel)

end ApexLs.Utils.FQNUtils
