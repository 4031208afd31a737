import Mathlib.Data.List.Basic
import ApexLs.Types.Symbol

/-! The validator registry. The validators of a tier run together: the result of the run is all
of their results, and there is none unless each of them comes back. -/
namespace ApexLs.Validation

open ApexLs.Types

inductive ValidationTier where
  | immediate
  | thorough
  deriving DecidableEq, Repr

structure ValidationInfo where
  message : String
  location : Option SymbolLocation := none
  code : Option String := none
  deriving DecidableEq, Repr

/-- The errors or warnings of a result, in the new format or the legacy one. -/
inductive Reports where
  | infos (reports : List ValidationInfo)
  | texts (reports : List String)
  deriving DecidableEq, Repr

structure ValidationResult where
  isValid : Bool
  errors : Reports
  warnings : Reports
  deriving DecidableEq, Repr

/-- What validators and the registry read of a symbol table; `symbols` is `getAllSymbols()`. -/
structure ValidationTable where
  symbols : List ApexSymbol
  fileUri : String
  detailLevel : Option DetailLevel := none
  hasReferences : Bool := false

structure ValidationOptions where
  tier : ValidationTier
  symbolManager : Bool := false

structure ValidatorPrerequisites where
  requiredDetailLevel : Option DetailLevel
  requiresReferences : Bool
  requiresCrossFileResolution : Bool

/-- A validator. `validate` is `none` where it does not come back: it never ends, or it dies of a
defect, which is not a validation error (a thrown exception, a rejected promise, a full stack). -/
structure Validator where
  id : String
  name : String
  tier : ValidationTier
  priority : Int
  prerequisites : ValidatorPrerequisites
  validate : ValidationTable → ValidationOptions → Option (Except String ValidationResult)

def rangeText (range : Range) : String :=
  toString range.startLine ++ ":" ++ toString range.startColumn ++ "-" ++ toString range.endLine ++ ":" ++
    toString range.endColumn

def createErrorKey (error : ValidationInfo) : String :=
  let code := orElse error.code "UNKNOWN"
  match error.location with
  | some location => code ++ "|" ++ rangeText location.identifierRange ++ "|" ++ error.message
  | none => code ++ "|" ++ error.message

def deduplicate (key : α → String) : List String → List α → List α
  | _,[] => []
  | seen,a :: rest => if key a ∈ seen then deduplicate key seen rest else a :: deduplicate key (key a :: seen) rest

def Reports.deduplicate : Reports → Reports
  | .infos reports => .infos (Validation.deduplicate createErrorKey [] reports)
  | .texts reports => .texts (Validation.deduplicate (fun text => text) [] reports)

def deduplicateValidationResult (result : ValidationResult) : ValidationResult :=
  { result with errors := result.errors.deduplicate,warnings := result.warnings.deduplicate }

def isStandardLibrary (table : ValidationTable) : Bool := "apexlib://".toList.isPrefixOf table.fileUri.toList

def checkValidatorPrerequisites (prerequisites : ValidatorPrerequisites) (table : ValidationTable)
    (options : ValidationOptions) : Bool :=
  let others := (!prerequisites.requiresReferences || table.hasReferences) &&
    (!prerequisites.requiresCrossFileResolution || options.symbolManager)
  match prerequisites.requiredDetailLevel,table.detailLevel with
  | none,_ => others
  | some required,none => required = .publicApi
  | some required,some current => required.order ≤ current.order && others

def getValidatorsByTier (validators : List Validator) (tier : ValidationTier) : List Validator :=
  (validators.filter (·.tier = tier)).mergeSort (fun a b => a.priority ≤ b.priority)

/-- What a validator contributes to a run. Only its validation errors are caught. -/
def runValidator (table : ValidationTable) (options : ValidationOptions) (validator : Validator) :
    Option ValidationResult :=
  if checkValidatorPrerequisites validator.prerequisites table options then
    (validator.validate table options).map fun
      | .ok result => deduplicateValidationResult result
      | .error _ => ⟨true,.infos [],.texts ["Internal validator error: " ++ validator.name]⟩
  else some ⟨true,.infos [],.infos []⟩

def allResults (table : ValidationTable) (options : ValidationOptions) : List Validator → Option (List ValidationResult)
  | [] => some []
  | v :: rest => (runValidator table options v).bind fun result => (allResults table options rest).map (result :: ·)

def runValidatorsForTier (validators : List Validator) (tier : ValidationTier) (table : ValidationTable)
    (options : ValidationOptions) : Option (List ValidationResult) :=
  if isStandardLibrary table then some [] else allResults table options (getValidatorsByTier validators tier)

theorem mem_getValidatorsByTier : v ∈ getValidatorsByTier validators tier ↔ v ∈ validators ∧ v.tier = tier := by
  rw [getValidatorsByTier,List.mem_mergeSort,List.mem_filter,decide_eq_true_eq]

theorem getValidatorsByTier_perm (validators : List Validator) (tier : ValidationTier) :
    (getValidatorsByTier validators tier).Perm (validators.filter (·.tier = tier)) :=
  List.mergeSort_perm _ _

theorem getValidatorsByTier_ordered (validators : List Validator) (tier : ValidationTier) :
    (getValidatorsByTier validators tier).Pairwise (fun a b => a.priority ≤ b.priority) := by
  have sorted : ((validators.filter (·.tier = tier)).mergeSort (fun a b => decide (a.priority ≤ b.priority))).Pairwise
      (fun a b => decide (a.priority ≤ b.priority) = true) := by
    apply List.pairwise_mergeSort
    · intro a b c first second
      simp only [decide_eq_true_eq] at *
      omega
    · intro a b
      simp only [Bool.or_eq_true,decide_eq_true_eq]
      omega
  exact sorted.imp (fun earlier => by simpa using earlier)

theorem runValidator_isSome {validator : Validator}
    (back : checkValidatorPrerequisites validator.prerequisites table options = true →
      (validator.validate table options).isSome) :
    (runValidator table options validator).isSome := by
  rw [runValidator]
  split
  · next met => rw [Option.isSome_map]; exact back met
  · rfl

theorem allResults_forall₂ {validators : List Validator}
    (back : ∀ v ∈ validators, checkValidatorPrerequisites v.prerequisites table options = true →
      (v.validate table options).isSome) :
    ∃ results, allResults table options validators = some results ∧
      List.Forall₂ (fun v result => runValidator table options v = some result) validators results := by
  induction validators with
  | nil => exact ⟨[],rfl,.nil⟩
  | cons v validators ih =>
    obtain ⟨results,all,each⟩ := ih (fun w member => back w (List.mem_cons_of_mem _ member))
    obtain ⟨first,came⟩ := Option.isSome_iff_exists.mp (runValidator_isSome (back v List.mem_cons_self))
    exact ⟨first :: results,by simp [allResults,came,all],.cons came each⟩

theorem mem_of_each {validators : List Validator} {results : List ValidationResult}
    (each : List.Forall₂ (fun v result => runValidator table options v = some result) validators results)
    (member : v ∈ validators) (own : runValidator table options v = some result) : result ∈ results := by
  induction each with
  | nil => cases member
  | cons came _ ih =>
    rcases List.mem_cons.mp member with rfl | later
    · cases came.symm.trans own
      exact List.mem_cons_self
    · exact List.mem_cons_of_mem _ (ih later)

theorem allResults_lost {validators : List Validator} (member : v ∈ validators)
    (runs : checkValidatorPrerequisites v.prerequisites table options = true)
    (lost : v.validate table options = none) : allResults table options validators = none := by
  induction validators with
  | nil => cases member
  | cons w validators ih =>
    rcases List.mem_cons.mp member with rfl | later
    · simp [allResults,runValidator,runs,lost]
    · rw [allResults,ih later]
      cases runValidator table options w <;> rfl

end ApexLs.Validation
