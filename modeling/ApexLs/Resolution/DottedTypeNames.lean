import ApexLs.Resolution.ResolutionRules
import ApexLs.Utils.AsciiBytes

/-! Which of the dotted names that a provider knows are resolved. -/
namespace ApexLs.Resolution

open ApexLs.Types ApexLs.Utils

section

variable [Runtime]

structure TypeNameQuery where
  provider : SymbolProvider
  context : CompilationContext
  referenceType : ReferenceType
  nameParts : List String
  several : 2 ≤ nameParts.length
  few : nameParts.length ≤ 4
  nonEmpty : ∀ part ∈ nameParts, part ≠ ""
  untriggered : ∀ first ∈ nameParts.head?, toLowerCase first ≠ "trigger"

namespace TypeNameQuery

variable (q : TypeNameQuery)

def lowerParts : List String := q.nameParts.map toLowerCase

def resolveAs (nameParts : List String) : NamespaceResolutionResult :=
  resolveTypeName nameParts q.context q.referenceType q.provider

def outcome : NamespaceResolutionResult := q.resolveAs q.nameParts

def Knows (type : ApexSymbol) : Prop :=
  q.provider.find q.context.referencingType (".".intercalate q.lowerParts) = .ok (some type)

/-- A rule found the symbol before the rule that looks the joined name up had its turn. -/
def FoundEarlier : Prop :=
  ∃ rule ∈ (getResolutionOrder q.referenceType).takeWhile fun r => r.name ≠ namespaceAndTopLevelType.name,
    q.outcome.resolutionRule = some rule.name

/-- A type that the provider knows is resolved, alike in every spelling of the parts. -/
def ResolvesKnown : Prop :=
  ∀ type, q.Knows type → (q.outcome.isResolved = true ∧ (q.outcome.symbol = some type ∨ q.FoundEarlier)) ∧
    ∀ nameParts, nameParts.map toLowerCase = q.lowerParts → (∀ part ∈ nameParts, part ≠ "") →
      q.resolveAs nameParts = q.outcome

def asContext (nameParts : List String) : NamespaceResolutionContext :=
  ⟨q.context,q.referenceType,nameParts,q.lowerParts⟩

def first : String := q.lowerParts.headD ""

def second : String := (q.lowerParts.drop 1).headD ""

def InBuiltIn (answer : Option ApexSymbol) : Prop :=
  q.provider.isBuiltInNamespace q.first = .ok true ∧
    q.provider.findInExplicitNamespace q.first q.second q.context.referencingType = .ok answer

/-- The provider has the type under the name put together with a slash, or, having none under that name, in the
built-in namespace, or else in the container of objects. -/
def Offers (type : ApexSymbol) : Prop :=
  q.provider.find q.context.referencingType (createTypeWithNamespace ⟨q.first,""⟩ q.second) = .ok (some type) ∨
  q.provider.find q.context.referencingType (createTypeWithNamespace ⟨q.first,""⟩ q.second) = .ok none ∧
    (q.InBuiltIn (some type) ∨
      (q.provider.isBuiltInNamespace q.first = .ok false ∨ q.InBuiltIn none) ∧
        q.provider.isSObjectContainerNamespace q.first = .ok true ∧ q.provider.findSObjectType q.second = .ok (some type))

end TypeNameQuery

variable {context : NamespaceResolutionContext} {symbols : SymbolProvider}

omit [Runtime] in
theorem applyResolutionRules_skip {rules : List ResolutionRule} (idle : ∀ rule ∈ rules, rule.appliesTo context = false)
    (further : List ResolutionRule) :
    applyResolutionRules context symbols (rules ++ further) = applyResolutionRules context symbols further := by
  induction rules with
  | nil => rfl
  | cons rule rules ih =>
    obtain ⟨first,rest⟩ := List.forall_mem_cons.mp idle
    rw [List.cons_append,applyResolutionRules,first]
    exact ih rest

theorem onePartOrder_idle (referenceType : ReferenceType) (several : 2 ≤ context.adjustedNameParts.length) :
    ∀ rule ∈ (if referenceType = .method then methodOnePartOrder else defaultOnePartOrder),
      rule.appliesTo context = false := by
  have more : context.onePart = false := decide_eq_false (by omega)
  have method : ∀ rule ∈ methodOnePartOrder, rule.appliesTo context = false := by
    simp [methodOnePartOrder,topLevelTypeInSameNamespace,namedScalarOrVoid,builtInSystemSchema,fileBaseSystemNamespace,
      fileBaseSchemaNamespace,builtInMethodNamespace,sObject,workspaceType,more]
  have default : ∀ rule ∈ defaultOnePartOrder, rule.appliesTo context = false := by
    simp [defaultOnePartOrder,topLevelTypeInSameNamespace,namedScalarOrVoid,builtInSystemSchema,fileBaseSystemNamespace,
      fileBaseSchemaNamespace,sObject,workspaceType,more]
  split
  · exact method
  · exact default

theorem getTwoPartRules_eq : getTwoPartRules = [namespaceAndTopLevelType,builtInNamespace,schemaSObject] := rfl

theorem applyResolutionRules_several (several : 2 ≤ context.adjustedNameParts.length) (referenceType : ReferenceType) :
    applyResolutionRules context symbols (getResolutionOrder referenceType) =
      applyResolutionRules context symbols [namespaceAndTopLevelType,builtInNamespace,schemaSObject] := by
  rw [getResolutionOrder,applyResolutionRules_skip (onePartOrder_idle referenceType several),getTwoPartRules_eq]

theorem applyResolutionRules_more (more : 2 < context.adjustedNameParts.length) (referenceType : ReferenceType) :
    applyResolutionRules context symbols (getResolutionOrder referenceType) =
      .ok (createUnresolvedResult "No resolution rule matched" context.adjustedNameParts) := by
  have other : context.twoParts = false := decide_eq_false (by omega)
  have idle : ∀ rule ∈ [namespaceAndTopLevelType,builtInNamespace,schemaSObject], rule.appliesTo context = false := by
    simp [namespaceAndTopLevelType,builtInNamespace,schemaSObject,other]
  rw [applyResolutionRules_several (by omega),← List.append_nil [namespaceAndTopLevelType,builtInNamespace,schemaSObject],
    applyResolutionRules_skip idle]
  rfl

def FindsType (answer : Except String NamespaceResolutionResult) (type : ApexSymbol) : Prop :=
  ∃ result, answer = .ok result ∧ result.isResolved = true ∧ result.symbol = some type

omit [Runtime] in
theorem findsType_cons_iff {rule : ResolutionRule} (applies : rule.appliesTo context = true) {rules : List ResolutionRule}
    {type : ApexSymbol} : FindsType (applyResolutionRules context symbols (rule :: rules)) type ↔
      rule.resolve context symbols = .ok (some type) ∨
        rule.resolve context symbols = .ok none ∧ FindsType (applyResolutionRules context symbols rules) type := by
  rw [applyResolutionRules,applies]
  cases rule.resolve context symbols with
  | error message => simp [FindsType,bind,Except.bind]
  | ok found =>
    cases found with
    | none => simp [bind,Except.bind]
    | some symbol => simp [FindsType,bind,Except.bind,pure,Except.pure]

omit [Runtime] in
theorem not_findsType_nil {type : ApexSymbol} : ¬FindsType (applyResolutionRules context symbols []) type := by
  simp [FindsType,applyResolutionRules,createUnresolvedResult]

omit [Runtime] in
theorem rule_of_applied {rules : List ResolutionRule} {result : NamespaceResolutionResult}
    (applied : applyResolutionRules context symbols rules = .ok result) :
    ∀ name ∈ result.resolutionRule, ∃ rule ∈ rules, rule.name = name := by
  induction rules with
  | nil =>
    cases applied
    simp [createUnresolvedResult]
  | cons rule rules ih =>
    have further (rest : applyResolutionRules context symbols rules = .ok result) :
        ∀ name ∈ result.resolutionRule, ∃ r ∈ rule :: rules, r.name = name := by
      intro name named
      obtain ⟨r,at_,of⟩ := ih rest name named
      exact ⟨r,.tail _ at_,of⟩
    rw [applyResolutionRules] at applied
    split at applied
    · exact further applied
    · cases found : rule.resolve context symbols with
      | error message => simp [found,bind,Except.bind] at applied
      | ok symbol =>
        cases symbol with
        | none => exact further (by simpa [found,bind,Except.bind] using applied)
        | some symbol =>
          simp only [found,bind,Except.bind,pure,Except.pure,Except.ok.injEq] at applied
          intro name named
          rw [← applied] at named
          exact ⟨rule,.head _,Option.some.inj named⟩

theorem validateTriggerNamespace_of {nameParts : List String}
    (untriggered : ∀ first ∈ nameParts.head?, toLowerCase first ≠ "trigger") :
    validateTriggerNamespace nameParts = true := by
  rw [validateTriggerNamespace,Option.all_eq_true]
  intro first kept
  obtain ⟨head,-⟩ := Option.filter_eq_some_iff.mp kept
  exact decide_eq_true (untriggered first head)

namespace TypeNameQuery

variable {q : TypeNameQuery} {nameParts : List String} {result : NamespaceResolutionResult} {type : ApexSymbol}

def applied (q : TypeNameQuery) : Except String NamespaceResolutionResult :=
  applyResolutionRules (q.asContext q.nameParts) q.provider [namespaceAndTopLevelType,builtInNamespace,schemaSObject]

theorem length_lowerParts : q.lowerParts.length = q.nameParts.length := List.length_map ..

theorem applied_eq (nameParts : List String) :
    applyResolutionRules (q.asContext nameParts) q.provider (getResolutionOrder q.referenceType) = q.applied := by
  have several : 2 ≤ (q.asContext nameParts).adjustedNameParts.length := length_lowerParts (q := q) ▸ q.several
  exact applyResolutionRules_several several q.referenceType

theorem lowerParts_untriggered : ∀ part ∈ q.lowerParts.head?, part ≠ "trigger" := by
  intro part head
  rw [lowerParts,List.head?_map,Option.mem_map] at head
  obtain ⟨first,here,rfl⟩ := head
  exact q.untriggered first here

theorem validate_spelling (spelled : nameParts.map toLowerCase = q.lowerParts) (nonEmpty : ∀ part ∈ nameParts, part ≠ "") :
    validateAndNormalizeInput nameParts q.context = .ok q.lowerParts := by
  have kept : adjustEmptyNames nameParts q.context.version = nameParts :=
    List.filter_eq_self.mpr fun part at_ => by simp [nonEmpty part at_]
  have few : ¬nameParts.length > 4 := by
    have same := congrArg List.length spelled
    rw [List.length_map,length_lowerParts] at same
    exact same ▸ Nat.not_lt.mpr q.few
  have untriggered : validateTriggerNamespace nameParts = true := by
    refine validateTriggerNamespace_of fun part head => ?_
    refine lowerParts_untriggered (q := q) _ ?_
    rw [← spelled,List.head?_map,head]
    rfl
  rw [validateAndNormalizeInput]
  simp only [kept,few,untriggered,spelled,if_false,Bool.not_true,Bool.false_eq_true]

theorem resolveAs_of_ok (spelled : nameParts.map toLowerCase = q.lowerParts) (nonEmpty : ∀ part ∈ nameParts, part ≠ "")
    (applied : q.applied = .ok result) : q.resolveAs nameParts = result := by
  rw [resolveAs,resolveTypeName,validate_spelling spelled nonEmpty]
  rw [← applied_eq nameParts,asContext] at applied
  simp only [applied]

theorem resolveAs_of_error {message : String} (spelled : nameParts.map toLowerCase = q.lowerParts)
    (nonEmpty : ∀ part ∈ nameParts, part ≠ "") (applied : q.applied = .error message) :
    q.resolveAs nameParts = createUnresolvedResult ("Resolution error: " ++ message) nameParts := by
  rw [resolveAs,resolveTypeName,validate_spelling spelled nonEmpty]
  rw [← applied_eq nameParts,asContext] at applied
  simp only [applied]

theorem applied_more (more : 2 < q.nameParts.length) :
    q.applied = .ok (createUnresolvedResult "No resolution rule matched" q.lowerParts) := by
  rw [← applied_eq q.nameParts]
  have more : 2 < (q.asContext q.nameParts).adjustedNameParts.length := length_lowerParts (q := q) ▸ more
  exact applyResolutionRules_more more q.referenceType

theorem builtInNamespace_resolve_iff {answer : Option ApexSymbol} :
    builtInNamespace.resolve (q.asContext q.nameParts) q.provider = .ok answer ↔
      q.InBuiltIn answer ∨ answer = none ∧ q.provider.isBuiltInNamespace q.first = .ok false := by
  have unfolded : builtInNamespace.resolve (q.asContext q.nameParts) q.provider =
      (q.provider.isBuiltInNamespace q.first).bind fun builtIn => if !builtIn then .ok none
        else q.provider.findInExplicitNamespace q.first q.second q.context.referencingType := rfl
  rw [unfolded,InBuiltIn]
  cases q.provider.isBuiltInNamespace q.first with
  | error message => simp [Except.bind]
  | ok builtIn => cases builtIn <;> simp [Except.bind,eq_comm]

theorem schemaSObject_resolve_iff : schemaSObject.resolve (q.asContext q.nameParts) q.provider = .ok (some type) ↔
    q.provider.isSObjectContainerNamespace q.first = .ok true ∧
      q.provider.findSObjectType q.second = .ok (some type) := by
  have unfolded : schemaSObject.resolve (q.asContext q.nameParts) q.provider =
      (q.provider.isSObjectContainerNamespace q.first).bind fun container => if !container then .ok none
        else q.provider.findSObjectType q.second := rfl
  rw [unfolded]
  cases q.provider.isSObjectContainerNamespace q.first with
  | error message => simp [Except.bind]
  | ok container => cases container <;> simp [Except.bind]

theorem findsType_applied_iff (two : q.nameParts.length = 2) : FindsType q.applied type ↔ q.Offers type := by
  have applies : decide (q.lowerParts.length = 2) = true := decide_eq_true (length_lowerParts.trans two)
  have byName : namespaceAndTopLevelType.appliesTo (q.asContext q.nameParts) = true := applies
  have inBuiltIn : builtInNamespace.appliesTo (q.asContext q.nameParts) = true := applies
  have object : schemaSObject.appliesTo (q.asContext q.nameParts) = true := applies
  have found : namespaceAndTopLevelType.resolve (q.asContext q.nameParts) q.provider =
      q.provider.find q.context.referencingType (createTypeWithNamespace ⟨q.first,""⟩ q.second) := rfl
  rw [TypeNameQuery.applied,findsType_cons_iff byName,findsType_cons_iff inBuiltIn,findsType_cons_iff object,
    builtInNamespace_resolve_iff,builtInNamespace_resolve_iff,schemaSObject_resolve_iff,found,Offers]
  simp only [not_findsType_nil,and_false,or_false,reduceCtorEq,false_and,true_and]
  rw [or_comm (a := q.InBuiltIn none)]

theorem two_of_findsType (finds : FindsType q.applied type) : q.nameParts.length = 2 := by
  by_contra other
  have more : 2 < q.nameParts.length := Nat.lt_of_le_of_ne q.several (Ne.symm other)
  obtain ⟨result,applied,resolved,-⟩ := finds
  rw [applied_more more] at applied
  cases applied
  cases resolved

theorem outcome_iff : q.outcome.isResolved = true ∧ q.outcome.symbol = some type ↔ FindsType q.applied type := by
  cases applied : q.applied with
  | error message =>
    rw [outcome,resolveAs_of_error rfl q.nonEmpty applied]
    simp [FindsType,createUnresolvedResult]
  | ok result =>
    rw [outcome,resolveAs_of_ok rfl q.nonEmpty applied]
    simp [FindsType]

theorem early_names (referenceType : ReferenceType) :
    ∀ rule ∈ (getResolutionOrder referenceType).takeWhile fun r => r.name ≠ namespaceAndTopLevelType.name,
      rule.name ∉ [namespaceAndTopLevelType,builtInNamespace,schemaSObject].map ResolutionRule.name := by
  have early : ((getResolutionOrder referenceType).takeWhile fun r => r.name ≠ namespaceAndTopLevelType.name) =
      if referenceType = .method then methodOnePartOrder else defaultOnePartOrder := by
    cases referenceType <;> rfl
  rw [early]
  split
  · simp [methodOnePartOrder,topLevelTypeInSameNamespace,namedScalarOrVoid,builtInSystemSchema,fileBaseSystemNamespace,
      fileBaseSchemaNamespace,builtInMethodNamespace,sObject,workspaceType,namespaceAndTopLevelType,builtInNamespace,
      schemaSObject]
  · simp [defaultOnePartOrder,topLevelTypeInSameNamespace,namedScalarOrVoid,builtInSystemSchema,fileBaseSystemNamespace,
      fileBaseSchemaNamespace,sObject,workspaceType,namespaceAndTopLevelType,builtInNamespace,schemaSObject]

theorem not_foundEarlier : ¬q.FoundEarlier := by
  rintro ⟨rule,early,found⟩
  cases applied : q.applied with
  | error message =>
    rw [outcome,resolveAs_of_error rfl q.nonEmpty applied] at found
    cases found
  | ok result =>
    rw [outcome,resolveAs_of_ok rfl q.nonEmpty applied] at found
    obtain ⟨other,at_,same⟩ := rule_of_applied applied rule.name found
    exact early_names q.referenceType rule early (same ▸ List.mem_map_of_mem at_)

/-- A known type is resolved if there are two parts and the provider offers it for them. -/
theorem resolvesKnown_iff (q : TypeNameQuery) :
    q.ResolvesKnown ↔ ∀ type, q.Knows type → q.nameParts.length = 2 ∧ q.Offers type := by
  refine forall_congr' fun type => forall_congr' fun _ => ?_
  constructor
  · rintro ⟨⟨resolved,ofType | early⟩,-⟩
    · have finds := outcome_iff.mp ⟨resolved,ofType⟩
      have two := two_of_findsType finds
      exact ⟨two,(findsType_applied_iff two).mp finds⟩
    · exact absurd early not_foundEarlier
  · rintro ⟨two,offers⟩
    have finds := (findsType_applied_iff two).mpr offers
    obtain ⟨resolved,ofType⟩ := outcome_iff.mpr finds
    obtain ⟨result,applied,-⟩ := finds
    refine ⟨⟨resolved,.inl ofType⟩,fun nameParts spelled nonEmpty => ?_⟩
    rw [outcome,resolveAs_of_ok spelled nonEmpty applied,resolveAs_of_ok rfl q.nonEmpty applied]

end TypeNameQuery

end

/-- `public class Foo {}` in the namespace `my`. -/
def fooClass : ApexSymbol where
  id := "Foo"
  name := "Foo"
  kind := .class_
  location := default
  fileUri := "file:///Foo.cls"
  namespace_ := some "my"

def fooProvider : SymbolProvider where
  find _ fullName := .ok (if fullName = "my.foo" then some fooClass else none)
  findScalarKeywordType _ := .ok none
  findSObjectType _ := .ok none
  findInDefaultNamespaceOrder _ _ := .ok none
  findInImplicitFileNamespaceSlot _ _ _ := .ok none
  findInExplicitNamespace _ _ _ := .ok none
  isBuiltInNamespace _ := .ok false
  isSObjectContainerNamespace _ := .ok false
  findInAnyStandardNamespace := none

def myFoo [Runtime] (untriggered : ∀ first ∈ ["My","Foo"].head?, toLowerCase first ≠ "trigger") : TypeNameQuery where
  provider := fooProvider
  context := ⟨none,60,fooClass⟩
  referenceType := .class_
  nameParts := ["My","Foo"]
  several := Nat.le_refl 2
  few := by decide
  nonEmpty := by decide
  untriggered := untriggered

/-- It is looked up as `my/foo`, and not found. -/
theorem dotted_type_missed : ∃ untriggered : ∀ first ∈ ["My","Foo"].head?, @toLowerCase asciiRuntime first ≠ "trigger",
    ¬@TypeNameQuery.ResolvesKnown asciiRuntime (@myFoo asciiRuntime untriggered) := by
  let Lower (_ : Runtime) := ["My","Foo"].map toLowerCase = ["my","foo"] ∧
    createTypeWithNamespace ⟨"my",""⟩ "foo" = "my/foo"
  obtain ⟨parts,joined⟩ : Lower asciiRuntime := of_byteRuntime Lower (by decide +kernel)
  let _ := asciiRuntime
  have untriggered : ∀ first ∈ ["My","Foo"].head?, toLowerCase first ≠ "trigger" := by
    rintro first ⟨⟩
    rw [(List.cons.inj parts).1]
    decide
  refine ⟨untriggered,fun resolves => ?_⟩
  let q := myFoo untriggered
  have knows : q.Knows fooClass := by
    change Except.ok (if ".".intercalate (["My","Foo"].map toLowerCase) = "my.foo" then _ else _) = _
    rw [parts]
    rfl
  obtain ⟨⟨resolved,ofType | early⟩,-⟩ := resolves fooClass knows
  · have offers : q.Offers fooClass :=
      (TypeNameQuery.findsType_applied_iff rfl).mp (TypeNameQuery.outcome_iff.mp ⟨resolved,ofType⟩)
    have lower : q.lowerParts = ["my","foo"] := parts
    rw [TypeNameQuery.Offers,TypeNameQuery.first,TypeNameQuery.second,lower] at offers
    obtain named | ⟨-,⟨builtIn,-⟩ | ⟨-,container,-⟩⟩ := offers
    · change Except.ok (if createTypeWithNamespace ⟨"my",""⟩ "foo" = "my.foo" then _ else _) = _ at named
      rw [joined] at named
      cases named
    · cases builtIn
    · cases container
  · exact TypeNameQuery.not_foundEarlier early

end ApexLs.Resolution
