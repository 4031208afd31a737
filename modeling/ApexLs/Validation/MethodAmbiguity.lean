import Mathlib.Data.Finset.Card
import ApexLs.Collections.Groups
import ApexLs.Resolution.GenericTypeSubstitution
import ApexLs.Validation.Inheritance
import ApexLs.Validation.TypeAssignability

/-! Calls that are called ambiguous. The check looks at the overloads alone, the matching of the
argument types follows it. -/
namespace ApexLs.Validation.MethodResolutionValidator

open ApexLs.Collections ApexLs.Resolution ApexLs.Types ApexLs.Utils ApexLs.Validation.TypeAssignability

structure CheckedCall where
  methodName : String
  callLocation : SymbolLocation
  isStaticCall : Bool
  /-- `receiverAsVariable?.type` -/
  receiverType : Option TypeInfo
  argTypes : List String
  allSymbols : List ApexSymbol
  visibleMethods : List ApexSymbol

section

variable [Runtime]

def paramTypeName (p : ParameterSymbol) : String :=
  toLowerCase (orElse (p.type.map TypeInfo.name) (orElse (p.type.map TypeInfo.originalTypeString) "Object"))

def getMethodSignatureString (method : ApexSymbol) : String :=
  toLowerCase method.name ++ "(" ++ ",".intercalate ((method.parameters.getD []).map paramTypeName) ++ ")"

def paramCount (method : ApexSymbol) : Nat := (method.parameters.getD []).length

def methodsByParamCount (visibleMethods : List ApexSymbol) : OrderedMap Nat (List ApexSymbol) :=
  groupBy paramCount visibleMethods

def ambiguityErrors (localizeTyped : Localizer) (call : CheckedCall) : List (List ApexSymbol) → List ValidationInfo
  | [] => []
  | methods :: rest =>
    if methods.length > 1 then
      let signatures := (methods.map getMethodSignatureString).dedup
      if signatures.length = 1 then ambiguityErrors localizeTyped call rest
      else [reported localizeTyped "ambiguous.method.signature" [call.methodName] call.callLocation]
    else ambiguityErrors localizeTyped call rest

def checkAmbiguity (localizeTyped : Localizer) (call : CheckedCall) : List ValidationInfo :=
  ambiguityErrors localizeTyped call ((methodsByParamCount call.visibleMethods).entries.map Prod.snd)

def genericTypeArguments (call : CheckedCall) : Option GenericTypeSubstitutionMap :=
  if call.isStaticCall then none else createGenericTypeSubstitutionMap call.receiverType

def comparedParamType (call : CheckedCall) (p : ParameterSymbol) : String :=
  let paramType := (p.type.map fun t => toLowerCase t.name).getD ""
  match genericTypeArguments call,p.type with
  | some substitutions,some t =>
    if paramType = "" || substitutions.isEmpty then paramType
    else orElse (some (toLowerCase (substituteTypeName substitutions t.name))) paramType
  | _,_ => paramType

def typesMatch (primitives : PrimitiveTypes) (call : CheckedCall) : List (String × ParameterSymbol) → Except String Bool
  | [] => .ok true
  | (argType,p) :: rest => do
    let assignable ← isAssignable primitives (toLowerCase argType) (comparedParamType call p) .methodParameter call.allSymbols
    if assignable then typesMatch primitives call rest else .ok false

def supportsArguments (primitives : PrimitiveTypes) (call : CheckedCall) (method : ApexSymbol) : Except String Bool :=
  match method.parameters with
  | none => .ok false
  | some parameters =>
    if parameters.length ≠ call.argTypes.length then .ok false
    else typesMatch primitives call (call.argTypes.zip parameters)

/-- The method has as many parameters as the call, and each accepts its argument's type. -/
def Accepts (primitives : PrimitiveTypes) (call : CheckedCall) (method : ApexSymbol) : Prop :=
  paramCount method = call.argTypes.length ∧
    ∀ pair ∈ call.argTypes.zip (method.parameters.getD []),
      isAssignable primitives (toLowerCase pair.1) (comparedParamType call pair.2) .methodParameter call.allSymbols = .ok true

/-- Two visible methods with distinct signatures accept the call. -/
def TrulyAmbiguous (primitives : PrimitiveTypes) (call : CheckedCall) : Prop :=
  ∃ a ∈ call.visibleMethods, ∃ b ∈ call.visibleMethods, getMethodSignatureString a ≠ getMethodSignatureString b ∧
    Accepts primitives call a ∧ Accepts primitives call b

def ReportsOnlyAmbiguous (primitives : PrimitiveTypes) (call : CheckedCall) : Prop :=
  ∀ localizeTyped, (∃ e ∈ checkAmbiguity localizeTyped call, e.code = some "ambiguous.method.signature") →
    TrulyAmbiguous primitives call

/-- Two visible methods have the same number of parameters, whichever, and distinct signatures. -/
def Overloaded (visibleMethods : List ApexSymbol) : Prop :=
  ∃ a ∈ visibleMethods, ∃ b ∈ visibleMethods, paramCount a = paramCount b ∧
    getMethodSignatureString a ≠ getMethodSignatureString b

theorem typesMatch_iff {primitives : PrimitiveTypes} {call : CheckedCall} {pairs : List (String × ParameterSymbol)} :
    typesMatch primitives call pairs = .ok true ↔ ∀ pair ∈ pairs,
      isAssignable primitives (toLowerCase pair.1) (comparedParamType call pair.2) .methodParameter call.allSymbols =
        .ok true := by
  induction pairs with
  | nil => simp [typesMatch]
  | cons pair rest ih =>
    rw [List.forall_mem_cons,← ih,typesMatch]
    cases isAssignable primitives (toLowerCase pair.1) (comparedParamType call pair.2) .methodParameter call.allSymbols with
    | error message => simp [bind,Except.bind]
    | ok assignable => cases assignable <;> simp [bind,Except.bind]

theorem supportsArguments_iff {primitives : PrimitiveTypes} {call : CheckedCall} {method : ApexSymbol}
    (some_ : call.argTypes ≠ []) : supportsArguments primitives call method = .ok true ↔ Accepts primitives call method := by
  rw [supportsArguments,Accepts,paramCount]
  cases method.parameters with
  | none =>
    have length : 0 ≠ call.argTypes.length := fun zero => some_ (List.length_eq_zero_iff.mp zero.symm)
    simp [length]
  | some parameters =>
    by_cases length : parameters.length = call.argTypes.length
    · simp [length,typesMatch_iff]
    · simp [length]

theorem signatures_length_iff {methods : List ApexSymbol} (some_ : methods ≠ []) :
    (methods.map getMethodSignatureString).dedup.length = 1 ↔
      ¬ ∃ a ∈ methods, ∃ b ∈ methods, getMethodSignatureString a ≠ getMethodSignatureString b := by
  have card := List.card_toFinset (methods.map getMethodSignatureString)
  have nonempty : (methods.map getMethodSignatureString).toFinset.Nonempty :=
    List.toFinset_nonempty_iff _ |>.mpr fun none => some_ (List.map_eq_nil_iff.mp none)
  have least := Finset.card_pos.mpr nonempty
  have atMost := Finset.card_le_one (s := (methods.map getMethodSignatureString).toFinset)
  simp only [List.mem_toFinset,List.forall_mem_map] at atMost
  push Not
  rw [← atMost]
  omega

omit [Runtime] in
theorem one_lt_length_of_ne {l : List ApexSymbol} (left : a ∈ l) (right : b ∈ l) (apart : a ≠ b) : 1 < l.length := by
  cases l with
  | nil => cases left
  | cons x rest =>
    cases rest with
    | nil => exact absurd ((List.mem_singleton.mp left).trans (List.mem_singleton.mp right).symm) apart
    | cons => simp

theorem ambiguityErrors_iff (localizeTyped : Localizer) (call : CheckedCall) (groups : List (List ApexSymbol)) :
    (∃ e ∈ ambiguityErrors localizeTyped call groups, e.code = some "ambiguous.method.signature") ↔
      ∃ methods ∈ groups, ∃ a ∈ methods, ∃ b ∈ methods, getMethodSignatureString a ≠ getMethodSignatureString b := by
  induction groups with
  | nil => simp [ambiguityErrors]
  | cons methods rest ih =>
    rw [List.exists_mem_cons_iff,ambiguityErrors]
    split
    case isTrue several =>
      have some_ : methods ≠ [] := fun none => by rw [none] at several; simp at several
      simp only
      split
      case isTrue one => rw [ih,or_iff_right ((signatures_length_iff some_).mp one)]
      case isFalse distinct =>
        have apart := not_not.mp (mt (signatures_length_iff some_).mpr distinct)
        exact iff_of_true ⟨_,List.mem_singleton_self _,rfl⟩ (.inl apart)
    case isFalse few =>
      have alike : ¬ ∃ a ∈ methods, ∃ b ∈ methods, getMethodSignatureString a ≠ getMethodSignatureString b := by
        rintro ⟨a,left,b,right,apart⟩
        exact few (one_lt_length_of_ne left right fun same => apart (congrArg _ same))
      rw [ih,or_iff_right alike]

theorem checkAmbiguity_iff (localizeTyped : Localizer) (call : CheckedCall) :
    (∃ e ∈ checkAmbiguity localizeTyped call, e.code = some "ambiguous.method.signature") ↔ Overloaded call.visibleMethods := by
  rw [checkAmbiguity,ambiguityErrors_iff]
  constructor
  · rintro ⟨methods,listed,a,left,b,right,apart⟩
    obtain ⟨⟨count,_⟩,entry,rfl⟩ := List.mem_map.mp listed
    obtain ⟨rfl,-⟩ := (mem_groupBy _).mp entry
    obtain ⟨left,leftCount⟩ := List.mem_filter.mp left
    obtain ⟨right,rightCount⟩ := List.mem_filter.mp right
    exact ⟨a,left,b,right,(of_decide_eq_true leftCount).trans (of_decide_eq_true rightCount).symm,apart⟩
  · rintro ⟨a,left,b,right,count,apart⟩
    refine ⟨call.visibleMethods.filter (paramCount · = paramCount b),List.mem_map.mpr ⟨(paramCount b,_),?_,rfl⟩,a,?_,b,?_,apart⟩
    · exact (mem_groupBy _).mpr ⟨rfl,b,right,rfl⟩
    · exact List.mem_filter.mpr ⟨left,decide_eq_true count⟩
    · exact List.mem_filter.mpr ⟨right,decide_eq_true rfl⟩

/-- Only ambiguous calls are called ambiguous if and only if no two visible methods of one number of
parameters, of this call or not, have distinct signatures, or two that accept the call have. -/
theorem reportsOnlyAmbiguous_iff (primitives : PrimitiveTypes) (call : CheckedCall) :
    ReportsOnlyAmbiguous primitives call ↔ ¬ Overloaded call.visibleMethods ∨ TrulyAmbiguous primitives call := by
  rw [← imp_iff_not_or]
  constructor
  · intro only overloaded
    exact only (fun code _ => code) ((checkAmbiguity_iff _ call).mpr overloaded)
  · exact fun clear localizeTyped reports => clear ((checkAmbiguity_iff localizeTyped call).mp reports)

end

def logMethod (type : String) : ApexSymbol :=
  let site : SymbolLocation := ⟨⟨2,2,2,30⟩,⟨2,7,2,10⟩⟩
  { id := "Jobs:log",name := "log",kind := .method,location := site,fileUri := "file:///Jobs.cls"
    parameters := some [{ id := "Jobs:log:value",name := "value",type := some (.simple type),location := site }] }

/-- `log(42)`, with `log(Integer)` and `log(String)` -/
def integerLogged : CheckedCall where
  methodName := "log"
  callLocation := ⟨⟨4,4,4,11⟩,⟨4,4,4,7⟩⟩
  isStaticCall := false
  receiverType := none
  argTypes := ["Integer"]
  allSymbols := []
  visibleMethods := [logMethod "Integer",logMethod "String"]

/-- A call whose argument selects one of two overloads is called ambiguous. -/
theorem selected_overload_called_ambiguous :
    (∃ e ∈ @checkAmbiguity asciiRuntime (fun code _ => code) integerLogged, e.code = some "ambiguous.method.signature") ∧
      ¬ @TrulyAmbiguous asciiRuntime ⟨fun _ => false,fun _ => false⟩ integerLogged ∧
      ¬ @ReportsOnlyAmbiguous asciiRuntime ⟨fun _ => false,fun _ => false⟩ integerLogged := by
  let _ := asciiRuntime
  have apart : getMethodSignatureString (logMethod "Integer") ≠ getMethodSignatureString (logMethod "String") := by
    decide +kernel
  have called := (checkAmbiguity_iff (fun code _ => code) integerLogged).mpr
    ⟨logMethod "Integer",List.mem_cons_self,logMethod "String",List.mem_cons_of_mem _ List.mem_cons_self,rfl,apart⟩
  have refused : ¬ Accepts ⟨fun _ => false,fun _ => false⟩ integerLogged (logMethod "String") := by
    rintro ⟨-,accepted⟩
    have answer : (isAssignable ⟨fun _ => false,fun _ => false⟩ (toLowerCase "Integer") (toLowerCase "String") .methodParameter
        integerLogged.allSymbols).toOption = some false := by
      decide +kernel
    have claimed := congrArg Except.toOption (accepted _ List.mem_cons_self)
    cases claimed.symm.trans answer
  have single : ¬ TrulyAmbiguous ⟨fun _ => false,fun _ => false⟩ integerLogged := by
    rintro ⟨a,left,b,right,differ,accepts,accepts'⟩
    rcases List.mem_cons.mp left with rfl | left
    · rcases List.mem_cons.mp right with rfl | right
      · exact differ rfl
      · exact refused (List.mem_singleton.mp right ▸ accepts')
    · exact refused (List.mem_singleton.mp left ▸ accepts)
  exact ⟨called,single,fun only => single (only _ called)⟩

end ApexLs.Validation.MethodResolutionValidator
