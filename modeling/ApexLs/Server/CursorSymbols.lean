import Mathlib.Data.List.Dedup
import Mathlib.Data.List.MinMax
import ApexLs.Resolution.LocalOccurrences
import ApexLs.Utils.AsciiBytes

/-! The symbol under the cursor, from the references at its position. -/
namespace ApexLs.Server.CursorSymbols

open ApexLs.Utils ApexLs.Types
open ApexLs.Resolution (Position leafOf)

structure SymbolReference extends ReferenceNode where
  resolvedTypeId : Option String := none
  deriving DecidableEq, Repr

structure ListedReference extends SymbolReference where
  chainNodes : Option (List SymbolReference) := none
  qualifierLocation : Option SymbolLocation := none
  memberLocation : Option SymbolLocation := none
  deriving DecidableEq, Repr

/-- A reference at a position. One that was made for a node of a chain has the chain and the node. -/
structure CursorReference extends SymbolReference where
  originalChainedRef : Option (List SymbolReference) := none
  chainNode : Option SymbolReference := none
  deriving DecidableEq, Repr

structure SymbolManager where
  getSymbol : String → Option ApexSymbol
  findSymbolByFQN : String → Option ApexSymbol
  findSymbolByName : String → List ApexSymbol
  /-- With the strategy `'precise'`. -/
  getSymbolAtPosition : String → Position → Option ApexSymbol

def getReferencesAtPosition (references : List ListedReference) (position : Position) : List CursorReference :=
  let at_ (location : SymbolLocation) : Bool := ApexLs.Resolution.positionInRange position location
  let matched := references.filter fun ref =>
    at_ ref.location || ref.qualifierLocation.any at_ || ref.memberLocation.any at_ ||
      (ref.chainNodes.getD []).any fun node => at_ node.location
  let syntheticRefs := matched.flatMap fun ref =>
    ((ref.chainNodes.getD []).filter fun node =>
      at_ node.location && (node.context = .methodCall || node.context = .fieldAccess)).map fun node =>
        { toSymbolReference := node, originalChainedRef := ref.chainNodes, chainNode := some node : CursorReference }
  matched.map (fun ref => { toSymbolReference := ref.toSymbolReference }) ++ syntheticRefs

def positionInRange (position : Position) (range : Range) : Bool :=
  if position.line < range.startLine || position.line > range.endLine then false
  else if position.line = range.startLine && position.character < range.startColumn then false
  else !(position.line = range.endLine && position.character > range.endColumn)

def positionInIdentifierRange (position : Position) (reference : CursorReference) : Bool :=
  positionInRange position reference.location.identifierRange

def identifierRangeSize (reference : CursorReference) : Int :=
  let range := reference.location.identifierRange
  ((range.endLine : Int) - range.startLine) * 1000000 + range.endColumn - range.startColumn

def resolvedId (reference : CursorReference) : Option String := reference.resolvedSymbolId.filter (· ≠ "")

def isQualified (name : String) : Bool := name.toList.contains '.'

def qualifierOf (name : String) : String := String.ofList ((name.toList.reverse.dropWhile (· ≠ '.')).drop 1).reverse

structure Selected where
  reference : Option CursorReference
  ambiguous : Bool
  deriving DecidableEq, Repr

section

variable [Runtime]

def referenceIdentity (reference : CursorReference) : String :=
  separator.intercalate [toLowerCase reference.name,toString reference.context.ctorIdx,reference.resolvedSymbolId.getD "",
    reference.resolvedTypeId.getD ""]

def select (narrowest : List CursorReference) : Selected :=
  match (narrowest.filterMap resolvedId).dedup with
  | _ :: _ :: _ => ⟨none,true⟩
  | [id] => ⟨narrowest.find? (·.resolvedSymbolId = some id),false⟩
  | [] => if (narrowest.map referenceIdentity).dedup.length > 1 then ⟨none,true⟩ else ⟨narrowest.head?,false⟩

def exactCursorReference (references : List CursorReference) (position : Position) : Selected :=
  let exact_ := references.filter (positionInIdentifierRange position)
  if exact_.isEmpty then ⟨none,false⟩
  else
    let smallest := (exact_.map identifierRangeSize).min?
    select (exact_.filter fun reference => some (identifierRangeSize reference) = smallest)

def namespaceText (symbol : ApexSymbol) : String := symbol.namespace_.getD ""

def isSelected (selected node : SymbolReference) : Bool :=
  toLowerCase node.name = toLowerCase selected.name && node.location.identifierRange = selected.location.identifierRange

def referenceOwnerIds (reference : CursorReference) : List String :=
  let chain := reference.originalChainedRef.getD []
  let selected := reference.chainNode.getD reference.toSymbolReference
  match chain.findIdx? (isSelected selected) with
  | none | some 0 => []
  | some (index + 1) =>
    match chain[index]? with
    | some receiver =>
      (receiver.resolvedTypeId.filter (· ≠ "")).toList ++ (receiver.resolvedSymbolId.filter (· ≠ "")).toList
    | none => []

def matchesQualifier (qualifiedName : String) (candidate : ApexSymbol) : Bool :=
  candidate.fqn.map toLowerCase = some (toLowerCase qualifiedName) ||
    toLowerCase (namespaceText candidate) = toLowerCase (qualifierOf qualifiedName)

def hasOwner (ownerIds : List String) (candidate : ApexSymbol) : Bool :=
  match candidate.parentId with
  | .of parentId => parentId ≠ "" && ownerIds.contains parentId
  | .null | .undefined => false

variable (manager : SymbolManager)

def resolveByName (reference : CursorReference) : Option ApexSymbol :=
  let exactFqn := if isQualified reference.name then manager.findSymbolByFQN reference.name else none
  exactFqn.or <|
    let candidates := manager.findSymbolByName (leafOf reference.name)
    let candidates :=
      if isQualified reference.name then candidates.filter (matchesQualifier reference.name) else candidates
    let ownerIds := referenceOwnerIds reference
    let candidates := if ownerIds.length > 0 then candidates.filter (hasOwner ownerIds) else candidates
    match candidates with
    | [candidate] => some candidate
    | _ => none

def resolveReferenceSymbol (reference : CursorReference) : Option ApexSymbol :=
  ((resolvedId reference).bind manager.getSymbol).or (resolveByName manager reference)

/-- The references are those that `getReferencesAtPosition` returned. -/
def resolveCursorSymbol (uri : String) (position : Position) (references : List CursorReference) : Option ApexSymbol :=
  let selected := exactCursorReference references position
  if selected.ambiguous then none
  else
    match selected.reference with
    | some reference =>
      (resolveReferenceSymbol manager reference).or <|
        (manager.getSymbolAtPosition uri position).filter fun declaration =>
          declaration.fileUri = uri && positionInRange position declaration.location.identifierRange
    | none => manager.getSymbolAtPosition uri position

end

/-! ### What the cursor may settle on -/

/-- A reference whose range has the position, with no smaller one that does. -/
def Narrowest (references : List CursorReference) (position : Position) (r : CursorReference) : Prop :=
  r ∈ references ∧ positionInIdentifierRange position r = true ∧
    ∀ r' ∈ references, positionInIdentifierRange position r' = true → identifierRangeSize r ≤ identifierRangeSize r'

def Unanimous (among : CursorReference → Prop) (id : String) : Prop :=
  (∃ r, among r ∧ resolvedId r = some id) ∧ ∀ r, among r → ∀ id', resolvedId r = some id' → id' = id

section

variable [Runtime]

def Alike (among : CursorReference → Prop) : Prop :=
  (∀ r, among r → resolvedId r = none) ∧ ∀ r r', among r → among r' → referenceIdentity r = referenceIdentity r'

/-- The symbol fits the qualifier of the name, and the owner that the chain gives. -/
def Fits (reference : CursorReference) (candidate : ApexSymbol) : Prop :=
  (isQualified reference.name = true → matchesQualifier reference.name candidate = true) ∧
    (referenceOwnerIds reference ≠ [] → hasOwner (referenceOwnerIds reference) candidate = true)

/-- The name is the qualified name of the symbol, or there is no such symbol and this is the only one of that name that fits. -/
def Names (manager : SymbolManager) (reference : CursorReference) (symbol : ApexSymbol) : Prop :=
  isQualified reference.name = true ∧ manager.findSymbolByFQN reference.name = some symbol ∨
    (isQualified reference.name = true → manager.findSymbolByFQN reference.name = none) ∧
      ∃ before after, manager.findSymbolByName (leafOf reference.name) = before ++ symbol :: after ∧ Fits reference symbol ∧
        ∀ other ∈ before ++ after, ¬ Fits reference other

def Declares (manager : SymbolManager) (uri : String) (position : Position) (symbol : ApexSymbol) : Prop :=
  manager.getSymbolAtPosition uri position = some symbol ∧ symbol.fileUri = uri ∧
    positionInRange position symbol.location.identifierRange = true

/-- An order of the references makes no difference, and where the selected one is resolved, the answer that it leads to is the
symbol of the only id among the narrowest references. -/
structure OrderIndependent (manager : SymbolManager) (uri : String) (position : Position) (references : List CursorReference) :
    Prop where
  same : ∀ permuted, List.Perm permuted references →
    resolveCursorSymbol manager uri position permuted = resolveCursorSymbol manager uri position references
  resolved : ∀ permuted, List.Perm permuted references → ∀ r, (exactCursorReference permuted position).reference = some r →
    resolvedId r ≠ none → ∀ symbol, resolveReferenceSymbol manager r = some symbol →
      ∃ id, Unanimous (Narrowest references position) id ∧ manager.getSymbol id = some symbol

/-- The only id is known, or the names of its references lead nowhere; without one, the names of references that count as
identical lead to one symbol. -/
structure Settled (manager : SymbolManager) (uri : String) (position : Position) (among : CursorReference → Prop) : Prop where
  known : ∀ id, Unanimous among id → (∃ symbol, manager.getSymbol id = some symbol) ∨
    ∀ r, among r → resolvedId r = some id → ∀ symbol, ¬ Names manager r symbol
  alike : Alike among → ∀ r r', among r → among r' → ∀ symbol, Names manager r symbol →
    Names manager r' symbol ∨ (∀ other, ¬ Names manager r' other) ∧ Declares manager uri position symbol

def Selectable (among : CursorReference → Prop) (r : CursorReference) : Prop :=
  among r ∧ ((∃ id, resolvedId r = some id ∧ Unanimous among id) ∨ Alike among)

variable {manager : SymbolManager} {uri : String} {position : Position} {references permuted narrowest : List CursorReference}
  {r r' : CursorReference} {among : CursorReference → Prop} {id : String} {symbol : ApexSymbol}

omit [Runtime] in
theorem resolvedId_eq_some (resolved : resolvedId r = some id) : r.resolvedSymbolId = some id ∧ id ≠ "" := by
  obtain ⟨known,given⟩ := Option.filter_eq_some_iff.mp resolved
  exact ⟨known,of_decide_eq_true given⟩

omit [Runtime] in
theorem mem_resolvedIds : id ∈ (narrowest.filterMap resolvedId).dedup ↔ ∃ r ∈ narrowest, resolvedId r = some id := by
  rw [List.mem_dedup,List.mem_filterMap]

omit [Runtime] in
theorem Unanimous.same {id' : String} (first : Unanimous among id) (second : Unanimous among id') : id' = id := by
  obtain ⟨r,member,resolved⟩ := second.1
  exact first.2 r member id' resolved

theorem Alike.not_resolved (alike : Alike among) (member : among r) : resolvedId r ≠ some id := by
  rw [alike.1 r member]
  exact (Option.some_ne_none id).symm

omit [Runtime] in
theorem dedup_le_one_iff {l : List String} : l.dedup.length ≤ 1 ↔ ∀ a ∈ l, ∀ b ∈ l, a = b := by
  have distinct := List.nodup_dedup l
  have members {a : String} : a ∈ l.dedup ↔ a ∈ l := List.mem_dedup
  generalize l.dedup = unique at distinct members
  constructor
  · intro short a first b second
    obtain ⟨i,inside,rfl⟩ := List.getElem_of_mem (members.mpr first)
    obtain ⟨j,inside',rfl⟩ := List.getElem_of_mem (members.mpr second)
    have same : i = j := by omega
    subst same
    rfl
  · intro same
    cases unique with
    | nil => exact Nat.zero_le 1
    | cons a rest =>
      cases rest with
      | nil => exact Nat.le_refl 1
      | cons b rest =>
        have equal : a = b := same a (members.mp (.head _)) b (members.mp (.tail _ (.head _)))
        exact absurd (.head _) (equal ▸ (List.nodup_cons.mp distinct).1)

theorem select_spec (narrowest : List CursorReference) :
    (∃ r, select narrowest = ⟨some r,false⟩ ∧ Selectable (· ∈ narrowest) r) ∨
      select narrowest = ⟨none,decide (narrowest ≠ [])⟩ ∧ ∀ r, ¬ Selectable (· ∈ narrowest) r := by
  have distinct := List.nodup_dedup (narrowest.filterMap resolvedId)
  have ids {id : String} : id ∈ (narrowest.filterMap resolvedId).dedup ↔ ∃ r ∈ narrowest, resolvedId r = some id :=
    mem_resolvedIds
  rw [select]
  split
  next first second rest several =>
    -- two ids, so that neither is the only one
    rw [several] at distinct ids
    obtain ⟨r₁,in₁,resolved₁⟩ := ids.mp (.head _)
    obtain ⟨r₂,in₂,resolved₂⟩ := ids.mp (.tail _ (.head _))
    have apart : first ≠ second := fun same => (List.nodup_cons.mp distinct).1 (same ▸ .head _)
    refine .inr ⟨congrArg (Selected.mk none) (decide_eq_true (List.ne_nil_of_mem in₁)).symm,?_⟩
    rintro r ⟨-,⟨id,-,-,only⟩ | alike⟩
    · exact apart ((only r₁ in₁ first resolved₁).trans (only r₂ in₂ second resolved₂).symm)
    · exact alike.not_resolved in₁ resolved₁
  next id single =>
    rw [single] at ids
    obtain ⟨r₀,in₀,resolved₀⟩ := ids.mp (.head _)
    have found : (narrowest.find? (·.resolvedSymbolId = some id)).isSome :=
      List.find?_isSome.mpr ⟨r₀,in₀,decide_eq_true (resolvedId_eq_some resolved₀).1⟩
    obtain ⟨r,first⟩ := Option.isSome_iff_exists.mp found
    have known : r.resolvedSymbolId = some id := of_decide_eq_true (List.find?_some first :)
    have resolved : resolvedId r = some id :=
      Option.filter_eq_some_iff.mpr ⟨known,decide_eq_true (resolvedId_eq_some resolved₀).2⟩
    have member := List.mem_of_find?_eq_some first
    refine .inl ⟨r,by rw [first],member,.inl ⟨id,resolved,⟨r,member,resolved⟩,fun r' inside id' resolved' => ?_⟩⟩
    exact List.mem_singleton.mp (ids.mpr ⟨r',inside,resolved'⟩)
  next none_ =>
    rw [none_] at ids
    have unresolved (r : CursorReference) (member : r ∈ narrowest) : resolvedId r = none :=
      Option.eq_none_iff_forall_ne_some.mpr fun id resolved => List.not_mem_nil (ids.mpr ⟨r,member,resolved⟩)
    have only (r : CursorReference) (member : r ∈ narrowest) (id : String) : ¬ Unanimous (· ∈ narrowest) id :=
      fun ⟨⟨r',member',resolved⟩,_⟩ => Option.some_ne_none id (resolved.symm.trans (unresolved r' member'))
    split
    next several =>
      have apart : ¬ ∀ a ∈ narrowest.map referenceIdentity, ∀ b ∈ narrowest.map referenceIdentity, a = b :=
        fun same => absurd (dedup_le_one_iff.mpr same) (Nat.not_le_of_lt several)
      have some_ : narrowest ≠ [] := by
        rintro rfl
        exact apart fun a member => absurd member List.not_mem_nil
      refine .inr ⟨congrArg (Selected.mk none) (decide_eq_true some_).symm,?_⟩
      rintro r ⟨member,⟨id,-,unanimous⟩ | alike⟩
      · exact only r member id unanimous
      · refine apart fun a first b second => ?_
        obtain ⟨r₁,in₁,rfl⟩ := List.mem_map.mp first
        obtain ⟨r₂,in₂,rfl⟩ := List.mem_map.mp second
        exact alike.2 r₁ r₂ in₁ in₂
    next identical =>
      have same := dedup_le_one_iff.mp (Nat.le_of_not_lt identical)
      cases narrowest with
      | nil => exact .inr ⟨rfl,fun r selectable => absurd selectable.1 List.not_mem_nil⟩
      | cons r rest =>
        refine .inl ⟨r,rfl,.head _,.inr ⟨unresolved,fun r₁ r₂ in₁ in₂ => ?_⟩⟩
        exact same _ (List.mem_map_of_mem in₁) _ (List.mem_map_of_mem in₂)

theorem select_cons {rest : List CursorReference} (selectable : Selectable (· ∈ r :: rest) r) :
    select (r :: rest) = ⟨some r,false⟩ := by
  obtain ⟨-,⟨id,resolved,unanimous⟩ | alike⟩ := selectable
  · have ids {id' : String} : id' ∈ ((r :: rest).filterMap resolvedId).dedup ↔ id' = id := by
      rw [mem_resolvedIds]
      exact ⟨fun ⟨r',member,resolved'⟩ => unanimous.2 r' member id' resolved',fun same => ⟨r,.head _,same ▸ resolved⟩⟩
    have single : ((r :: rest).filterMap resolvedId).dedup = [id] := by
      have distinct := List.nodup_dedup ((r :: rest).filterMap resolvedId)
      generalize ((r :: rest).filterMap resolvedId).dedup = unique at distinct ids
      exact List.perm_singleton.mp ((List.perm_ext_iff_of_nodup distinct (List.nodup_singleton id)).mpr fun id' => by
        rw [ids,List.mem_singleton])
    rw [select,single]
    dsimp only
    rw [List.find?_cons,decide_eq_true (resolvedId_eq_some resolved).1]
  · have none_ : ((r :: rest).filterMap resolvedId).dedup = [] := by
      refine List.eq_nil_iff_forall_not_mem.mpr fun id member => ?_
      obtain ⟨r',inside,resolved⟩ := mem_resolvedIds.mp member
      exact alike.not_resolved inside resolved
    have identical : ¬ ((r :: rest).map referenceIdentity).dedup.length > 1 := by
      refine Nat.not_lt_of_le (dedup_le_one_iff.mpr fun a first b second => ?_)
      obtain ⟨r₁,in₁,rfl⟩ := List.mem_map.mp first
      obtain ⟨r₂,in₂,rfl⟩ := List.mem_map.mp second
      exact alike.2 r₁ r₂ in₁ in₂
    rw [select,none_]
    dsimp only
    rw [if_neg identical]
    rfl

def narrowestOf (references : List CursorReference) (position : Position) : List CursorReference :=
  let exact_ := references.filter (positionInIdentifierRange position)
  exact_.filter fun reference => some (identifierRangeSize reference) = (exact_.map identifierRangeSize).min?

omit [Runtime] in
theorem mem_narrowestOf : r ∈ narrowestOf references position ↔ Narrowest references position r := by
  rw [narrowestOf,List.mem_filter,List.mem_filter,Narrowest,and_assoc,decide_eq_true_eq,
    eq_comm (a := some (identifierRangeSize r)),List.min?_eq_some_iff]
  refine and_congr_right fun member => and_congr_right fun inside => ?_
  constructor
  · intro ⟨_,least⟩ r' member' inside'
    exact least _ (List.mem_map_of_mem (List.mem_filter.mpr ⟨member',inside'⟩))
  · refine fun least => ⟨List.mem_map_of_mem (List.mem_filter.mpr ⟨member,inside⟩),fun size listed => ?_⟩
    obtain ⟨r',found,rfl⟩ := List.mem_map.mp listed
    obtain ⟨member',inside'⟩ := List.mem_filter.mp found
    exact least r' member' inside'

theorem exactCursorReference_eq : exactCursorReference references position = select (narrowestOf references position) := by
  rw [exactCursorReference,narrowestOf]
  dsimp only
  split
  next none_ =>
    rw [List.isEmpty_iff.mp none_]
    rfl
  next => rfl

omit [Runtime] in
theorem narrowest_perm (position : Position) (perm : List.Perm permuted references) :
    (· ∈ narrowestOf permuted position) = Narrowest references position := by
  funext r
  rw [mem_narrowestOf,Narrowest,Narrowest,perm.mem_iff]
  simp only [perm.mem_iff]

theorem exactCursorReference_spec (position : Position) (perm : List.Perm permuted references) :
    (∃ r, exactCursorReference permuted position = ⟨some r,false⟩ ∧ Selectable (Narrowest references position) r) ∨
      (∀ r, ¬ Selectable (Narrowest references position) r) ∧ (exactCursorReference permuted position).reference = none ∧
        exactCursorReference permuted position = exactCursorReference references position := by
  have members := narrowest_perm position perm
  obtain ⟨r,selected,selectable⟩ | ⟨selected,none_⟩ := select_spec (narrowestOf permuted position)
  · exact .inl ⟨r,exactCursorReference_eq.trans selected,members ▸ selectable⟩
  · have members' : (· ∈ narrowestOf references position) = Narrowest references position := narrowest_perm position (.refl _)
    refine .inr ⟨members ▸ none_,by rw [exactCursorReference_eq,selected],?_⟩
    obtain ⟨r,-,selectable⟩ | ⟨selected',-⟩ := select_spec (narrowestOf references position)
    · exact absurd (members.trans members'.symm ▸ selectable) (none_ r)
    · have empty : narrowestOf permuted position ≠ [] ↔ narrowestOf references position ≠ [] := by
        rw [Ne,Ne,List.eq_nil_iff_forall_not_mem,List.eq_nil_iff_forall_not_mem]
        exact not_congr (forall_congr' fun r => not_congr (iff_of_eq (congrFun (members.trans members'.symm) r)))
      rw [exactCursorReference_eq,exactCursorReference_eq,selected,selected',decide_eq_decide.mpr empty]

theorem exists_order (selectable : Selectable (Narrowest references position) r) :
    ∃ permuted, List.Perm permuted references ∧ exactCursorReference permuted position = ⟨some r,false⟩ := by
  obtain ⟨before,after,cut⟩ := List.append_of_mem selectable.1.1
  have perm : List.Perm (r :: (before ++ after)) references := cut ▸ List.perm_middle.symm
  have members := narrowest_perm position perm
  have first : r ∈ narrowestOf (r :: (before ++ after)) position :=
    (iff_of_eq (congrFun members r)).mpr selectable.1
  refine ⟨_,perm,?_⟩
  rw [exactCursorReference_eq]
  have front : ∃ rest, narrowestOf (r :: (before ++ after)) position = r :: rest := by
    rw [narrowestOf,List.mem_filter,List.mem_filter] at first
    rw [narrowestOf]
    rw [List.filter_cons_of_pos first.1.2] at first ⊢
    rw [List.filter_cons,if_pos first.2]
    exact ⟨_,rfl⟩
  obtain ⟨rest,narrowest⟩ := front
  rw [narrowest] at members ⊢
  exact select_cons (members ▸ selectable)

omit [Runtime] in
theorem only_one_iff {α : Type} {p : α → Bool} {l : List α} {a : α} :
    l.filter p = [a] ↔ ∃ before after, l = before ++ a :: after ∧ p a = true ∧ ∀ b ∈ before ++ after, ¬ p b = true := by
  rw [List.filter_eq_cons_iff]
  refine exists_congr fun before => exists_congr fun after => and_congr_right fun _ => ?_
  rw [List.filter_eq_nil_iff,List.forall_mem_append]
  exact ⟨fun ⟨left,holds,right⟩ => ⟨holds,left,right⟩,fun ⟨holds,left,right⟩ => ⟨left,holds,right⟩⟩

theorem candidates_eq (candidates : List ApexSymbol) :
    (let candidates := if isQualified r.name then candidates.filter (matchesQualifier r.name) else candidates
     if (referenceOwnerIds r).length > 0 then candidates.filter (hasOwner (referenceOwnerIds r)) else candidates) =
      candidates.filter fun c => (!isQualified r.name || matchesQualifier r.name c) &&
        (decide (referenceOwnerIds r = []) || hasOwner (referenceOwnerIds r) c) := by
  have owned : (referenceOwnerIds r).length > 0 ↔ ¬ referenceOwnerIds r = [] := List.length_pos_iff
  cases qualified : isQualified r.name with
  | true =>
    by_cases none_ : referenceOwnerIds r = []
    · simp [none_]
    · simp [none_,owned,List.filter_filter,Bool.and_comm]
  | false =>
    by_cases none_ : referenceOwnerIds r = []
    · simp [none_]
    · simp [none_,owned]

theorem fits_iff {c : ApexSymbol} : ((!isQualified r.name || matchesQualifier r.name c) &&
    (decide (referenceOwnerIds r = []) || hasOwner (referenceOwnerIds r) c)) = true ↔ Fits r c := by
  rw [Fits,Bool.and_eq_true,Bool.or_eq_true,Bool.or_eq_true,Bool.not_eq_true',decide_eq_true_eq,← Bool.not_eq_true]
  exact and_congr Decidable.imp_iff_not_or.symm Decidable.or_iff_not_imp_left

theorem resolveByName_eq_some_iff : resolveByName manager r = some symbol ↔ Names manager r symbol := by
  have single (l : List ApexSymbol) : (match l with
      | [candidate] => some candidate
      | _ => none) = some symbol ↔ l = [symbol] := by
    constructor
    · intro one
      split at one
      · exact congrArg (fun c => [c]) (Option.some.inj one)
      · cases one
    · rintro rfl
      rfl
  rw [resolveByName,Names]
  dsimp only
  rw [Option.or_eq_some_iff,single,candidates_eq,only_one_iff]
  simp only [fits_iff]
  cases qualified : isQualified r.name with
  | true => simp
  | false => simp

def declarationAt (manager : SymbolManager) (uri : String) (position : Position) : Option ApexSymbol :=
  (manager.getSymbolAtPosition uri position).filter fun declaration =>
    declaration.fileUri = uri && positionInRange position declaration.location.identifierRange

omit [Runtime] in
theorem declarationAt_eq_some_iff : declarationAt manager uri position = some symbol ↔ Declares manager uri position symbol := by
  rw [declarationAt,Option.filter_eq_some_iff,Declares,Bool.and_eq_true,decide_eq_true_eq]

theorem resolveCursorSymbol_eq (selected : exactCursorReference references position = ⟨some r,false⟩) :
    resolveCursorSymbol manager uri position references =
      (resolveReferenceSymbol manager r).or (declarationAt manager uri position) := by
  rw [resolveCursorSymbol,selected]
  rfl

theorem resolveByName_eq_none_iff : resolveByName manager r = none ↔ ∀ symbol, ¬ Names manager r symbol := by
  rw [Option.eq_none_iff_forall_ne_some]
  exact forall_congr' fun symbol => not_congr resolveByName_eq_some_iff

theorem resolveReferenceSymbol_resolved (resolved : resolvedId r = some id) :
    resolveReferenceSymbol manager r = (manager.getSymbol id).or (resolveByName manager r) := by
  rw [resolveReferenceSymbol,resolved,Option.bind_some]

theorem resolveReferenceSymbol_unresolved (unresolved : resolvedId r = none) :
    resolveReferenceSymbol manager r = resolveByName manager r := by
  rw [resolveReferenceSymbol,unresolved,Option.bind_none,Option.none_or]

theorem Settled.same_answer (settled : Settled manager uri position among) (first : Selectable among r)
    (second : Selectable among r') : (resolveReferenceSymbol manager r).or (declarationAt manager uri position) =
      (resolveReferenceSymbol manager r').or (declarationAt manager uri position) := by
  obtain ⟨member,⟨id,resolved,unanimous⟩ | alike⟩ := first
  · have resolved' : resolvedId r' = some id := by
      obtain ⟨-,⟨id',resolved',unanimous'⟩ | alike⟩ := second
      · exact resolved'.trans (congrArg some (unanimous.same unanimous'))
      · exact absurd resolved (alike.not_resolved member)
    rw [resolveReferenceSymbol_resolved resolved,resolveReferenceSymbol_resolved resolved']
    obtain ⟨symbol,known⟩ | nowhere := settled.known id unanimous
    · simp only [known,Option.some_or]
    · rw [resolveByName_eq_none_iff.mpr (nowhere r member resolved),resolveByName_eq_none_iff.mpr (nowhere r' second.1 resolved')]
  · rw [resolveReferenceSymbol_unresolved (alike.1 r member),resolveReferenceSymbol_unresolved (alike.1 r' second.1)]
    -- where one name leads to a symbol, so does the other name, or the declaration
    have leads {r₁ r₂ : CursorReference} (in₁ : among r₁) (in₂ : among r₂) {symbol : ApexSymbol}
        (named : resolveByName manager r₁ = some symbol) :
        (resolveByName manager r₂).or (declarationAt manager uri position) = some symbol := by
      obtain named' | ⟨nowhere,declared⟩ := settled.alike alike r₁ r₂ in₁ in₂ symbol (resolveByName_eq_some_iff.mp named)
      · rw [resolveByName_eq_some_iff.mpr named',Option.some_or]
      · rw [resolveByName_eq_none_iff.mpr nowhere,Option.none_or,declarationAt_eq_some_iff.mpr declared]
    cases named : resolveByName manager r with
    | some symbol => exact (leads member second.1 named).symm
    | none =>
      cases named' : resolveByName manager r' with
      | none => rfl
      | some symbol =>
        rw [← named]
        exact leads second.1 member named'

theorem Settled.resolved (settled : Settled manager uri position among) (selectable : Selectable among r)
    (resolved : resolvedId r ≠ none) (found : resolveReferenceSymbol manager r = some symbol) :
    ∃ id, Unanimous among id ∧ manager.getSymbol id = some symbol := by
  obtain ⟨member,⟨id,known,unanimous⟩ | alike⟩ := selectable
  · rw [resolveReferenceSymbol_resolved known] at found
    refine ⟨id,unanimous,?_⟩
    obtain ⟨symbol',held⟩ | nowhere := settled.known id unanimous
    · rwa [held,Option.some_or,← held] at found
    · rwa [resolveByName_eq_none_iff.mpr (nowhere r member known),Option.or_none] at found
  · exact absurd (alike.1 r member) resolved

/-- The references at a position lead to one answer in any order, and a resolved one to the symbol of the only id, if and only if
the only id is known, or its references' names lead nowhere, and the names of references that count as identical agree. -/
theorem cursorOrderIndependent_iff (manager : SymbolManager) (uri : String) (position : Position) (table : List ListedReference) :
    OrderIndependent manager uri position (getReferencesAtPosition table position) ↔
      Settled manager uri position (Narrowest (getReferencesAtPosition table position) position) := by
  generalize getReferencesAtPosition table position = references
  constructor
  · intro independent
    constructor
    · intro id unanimous
      by_cases known : ∃ symbol, manager.getSymbol id = some symbol
      · exact .inl known
      · refine .inr fun r member resolved symbol named => ?_
        obtain ⟨permuted,perm,selected⟩ := exists_order ⟨member,.inl ⟨id,resolved,unanimous⟩⟩
        have missing : manager.getSymbol id = none := Option.eq_none_iff_forall_ne_some.mpr fun s held => known ⟨s,held⟩
        have found : resolveReferenceSymbol manager r = some symbol := by
          rw [resolveReferenceSymbol_resolved resolved,missing,Option.none_or,resolveByName_eq_some_iff.mpr named]
        obtain ⟨id',unanimous',held⟩ := independent.resolved permuted perm r (congrArg Selected.reference selected)
          (resolved ▸ Option.some_ne_none id) symbol found
        exact known ⟨symbol,unanimous.same unanimous' ▸ held⟩
    · intro alike r r' member member' symbol named
      obtain ⟨permuted,perm,selected⟩ := exists_order ⟨member,.inr alike⟩
      obtain ⟨permuted',perm',selected'⟩ := exists_order ⟨member',.inr alike⟩
      have answers := (independent.same permuted perm).trans (independent.same permuted' perm').symm
      rw [resolveCursorSymbol_eq selected,resolveCursorSymbol_eq selected',
        resolveReferenceSymbol_unresolved (alike.1 r member),resolveReferenceSymbol_unresolved (alike.1 r' member'),
        resolveByName_eq_some_iff.mpr named,Option.some_or] at answers
      obtain named' | ⟨nowhere,declared⟩ := Option.or_eq_some_iff.mp answers.symm
      · exact .inl (resolveByName_eq_some_iff.mp named')
      · exact .inr ⟨resolveByName_eq_none_iff.mp nowhere,declarationAt_eq_some_iff.mp declared⟩
  · intro settled
    constructor
    · intro permuted perm
      obtain ⟨r,selected,selectable⟩ | ⟨-,-,same⟩ := exactCursorReference_spec position perm
      · obtain ⟨r',selected',selectable'⟩ | ⟨none_,-⟩ :=
          exactCursorReference_spec position (.refl references)
        · rw [resolveCursorSymbol_eq selected,resolveCursorSymbol_eq selected']
          exact settled.same_answer selectable selectable'
        · exact absurd selectable (none_ r)
      · rw [resolveCursorSymbol,same,resolveCursorSymbol]
    · intro permuted perm r selected resolved symbol found
      obtain ⟨r',selected',selectable⟩ | ⟨-,none_,-⟩ := exactCursorReference_spec position perm
      · rw [selected'] at selected
        cases Option.some.inj selected
        exact settled.resolved selectable resolved found
      · exact absurd (selected.symm.trans none_) (Option.some_ne_none r)

end

def columns (start end_ : Nat) : SymbolLocation := ⟨⟨1,start,1,end_⟩,⟨1,start,1,end_⟩⟩

def totals : List ListedReference :=
  [{ name := "total", location := columns 4 9, context := .fieldAccess },
   { name := "acc.total", location := columns 0 9, context := .fieldAccess,
     chainNodes := some [{ name := "acc", location := columns 0 3, context := .variableUsage, resolvedTypeId := some "Account" },
       { name := "total", location := columns 4 9, context := .fieldAccess }] }]

def totalOf (parentId : String) : ApexSymbol where
  id := parentId ++ ".total"
  name := "total"
  kind := .field
  location := columns 20 25
  fileUri := "file:///" ++ parentId ++ ".cls"
  parentId := .of parentId

def twoTotals : SymbolManager where
  getSymbol symbolId := [totalOf "Account",totalOf "Order"].find? (·.id = symbolId)
  findSymbolByFQN _ := none
  findSymbolByName name := [totalOf "Account",totalOf "Order"].filter (·.name = name)
  getSymbolAtPosition _ _ := none

/-- The field is found if the node of the chain comes first, and not if the name on its own does. -/
theorem first_reference_decides : ¬ @OrderIndependent asciiRuntime twoTotals "file:///A.cls" ⟨1,6⟩
    (getReferencesAtPosition totals ⟨1,6⟩) := by
  intro independent
  have same := @OrderIndependent.same asciiRuntime _ _ _ _ independent _ (List.reverse_perm _)
  exact absurd (congrArg Option.isSome same) (by decide +kernel)

end ApexLs.Server.CursorSymbols
