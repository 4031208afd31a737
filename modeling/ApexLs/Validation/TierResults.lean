import Mathlib.Data.List.Forall2
import ApexLs.Validation.VariableShadowing

/-! What the validators of a tier can do to the results of the others: by failing, and by walking without a record of what
they have seen. -/
namespace ApexLs.Validation

open ApexLs.Collections ApexLs.Types ApexLs.Utils

section

variable {validators : List Validator} {tier : ValidationTier} {table : ValidationTable}
  {options : ValidationOptions}

/-- The validator runs on the table and fails, with a validation error or with a defect. -/
def Fails (table : ValidationTable) (options : ValidationOptions) (v : Validator) : Prop :=
  checkValidatorPrerequisites v.prerequisites table options = true ∧
    ∀ result, v.validate table options ≠ some (.ok result)

/-- What a validator is to contribute: its result where it is the only one registered, or an empty
valid result with a warning if it fails. -/
structure Own (table : ValidationTable) (options : ValidationOptions) (v : Validator) (result : ValidationResult) :
    Prop where
  alone : ¬ Fails table options v → runValidatorsForTier [v] v.tier table options = some [result]
  failed : Fails table options v →
    result = ⟨true,.infos [],.texts ["Internal validator error: " ++ v.name]⟩

/-- The run of a tier has one result for each of its validators, by priority, and it is its own. -/
def Isolated (validators : List Validator) (tier : ValidationTier) (table : ValidationTable)
    (options : ValidationOptions) : Prop :=
  ∃ ordered results, ordered.Perm (validators.filter (·.tier = tier)) ∧
    ordered.Pairwise (fun a b => a.priority ≤ b.priority) ∧
    runValidatorsForTier validators tier table options = some results ∧
    List.Forall₂ (Own table options) ordered results

theorem runValidatorsForTier_forall₂ (own : isStandardLibrary table = false)
    (back : ∀ v ∈ validators, v.tier = tier →
      checkValidatorPrerequisites v.prerequisites table options = true → (v.validate table options).isSome) :
    ∃ results, runValidatorsForTier validators tier table options = some results ∧
      List.Forall₂ (fun v result => runValidator table options v = some result)
        (getValidatorsByTier validators tier) results := by
  rw [runValidatorsForTier,own]
  apply allResults_forall₂
  intro v member met
  obtain ⟨registered,ofTier⟩ := mem_getValidatorsByTier.mp member
  exact back v registered ofTier met

theorem runValidatorsForTier_singleton (own : isStandardLibrary table = false)
    (came : runValidator table options v = some result) :
    runValidatorsForTier [v] v.tier table options = some [result] := by
  simp [runValidatorsForTier,own,getValidatorsByTier,allResults,came]

theorem own_of_runValidator (own : isStandardLibrary table = false)
    (came : runValidator table options v = some result) : Own table options v result := by
  refine ⟨fun _ => runValidatorsForTier_singleton own came,?_⟩
  rintro ⟨met,fails⟩
  rw [runValidator,if_pos met,Option.map_eq_some_iff] at came
  obtain ⟨outcome,ended,contributed⟩ := came
  cases outcome with
  | ok answer => exact absurd ended (fails answer)
  | error message => exact contributed.symm

def answeringAndFailing : List Validator :=
  [{ id := "b",name := "B",tier := .immediate,priority := 2,prerequisites := ⟨none,false,false⟩
     validate := fun _ _ => some (.ok ⟨false,.texts ["missing"],.texts []⟩) },
    { id := "a",name := "A",tier := .immediate,priority := 1,prerequisites := ⟨none,false,false⟩
      validate := fun _ _ => some (.error "broken") }]

end

section

variable [Runtime]

def walkers (localizeTyped : Localizer) : List Validator :=
  [AbstractMethodImplementationValidator.validator localizeTyped,MethodOverrideValidator.validator localizeTyped,
    VariableShadowingValidator.validator localizeTyped]

/-- The walks come to an end, and with other validators that come back the run of a tier has the
result of each. -/
structure Survives (localizeTyped : Localizer) (table : ValidationTable) (options : ValidationOptions) : Prop where
  walks : ∀ v ∈ walkers localizeTyped, (v.validate table options).isSome
  delivered : ∀ (validators : List Validator) (tier : ValidationTier),
    (∀ v ∈ validators, v ∈ walkers localizeTyped ∨ (v.validate table options).isSome) →
    isStandardLibrary table = false →
    ∃ results, runValidatorsForTier validators tier table options = some results ∧
      ∀ v ∈ validators, v.tier = tier → checkValidatorPrerequisites v.prerequisites table options = true →
        ∀ result, v.validate table options = some (.ok result) → deduplicateValidationResult result ∈ results

omit [Runtime] in
theorem runValidatorsForTier_spec {validators : List Validator}
    (back : ∀ v ∈ validators, (v.validate table options).isSome) (own : isStandardLibrary table = false) :
    ∃ results, runValidatorsForTier validators tier table options = some results ∧
      ∀ v ∈ validators, v.tier = tier → checkValidatorPrerequisites v.prerequisites table options = true →
        ∀ result, v.validate table options = some (.ok result) → deduplicateValidationResult result ∈ results := by
  obtain ⟨results,ran,each⟩ := runValidatorsForTier_forall₂ own (fun v member _ _ => back v member)
  refine ⟨results,ran,?_⟩
  intro v member ofTier met result answer
  apply mem_of_each each (mem_getValidatorsByTier.mpr ⟨member,ofTier⟩)
  simp [runValidator,met,answer]

omit [Runtime] in
theorem runValidatorsForTier_lost {validators : List Validator} (member : v ∈ validators)
    (runs : checkValidatorPrerequisites v.prerequisites table options = true)
    (lost : v.validate table options = none) (own : isStandardLibrary table = false) :
    runValidatorsForTier validators v.tier table options = none := by
  rw [runValidatorsForTier,own]
  exact allResults_lost (mem_getValidatorsByTier.mpr ⟨member,rfl⟩) runs lost

/-- Validation survives a file if and only if none of the walks made in it runs into a cycle. -/
theorem survives_iff (localizeTyped : Localizer) (table : ValidationTable) (options : ValidationOptions) :
    Survives localizeTyped table options ↔
      AbstractMethodImplementationValidator.Straight table.symbols ∧
        MethodOverrideValidator.Straight table.symbols options.tier ∧
          VariableShadowingValidator.Straight table.symbols := by
  have ends : (∀ v ∈ walkers localizeTyped, (v.validate table options).isSome) ↔
      AbstractMethodImplementationValidator.Straight table.symbols ∧
        MethodOverrideValidator.Straight table.symbols options.tier ∧
          VariableShadowingValidator.Straight table.symbols := by
    rw [← AbstractMethodImplementationValidator.validate_isSome_iff localizeTyped table options,
      ← MethodOverrideValidator.validate_isSome_iff localizeTyped table options,
      ← VariableShadowingValidator.validate_isSome_iff localizeTyped table options]
    simp [walkers]
  rw [← ends]
  constructor
  · exact Survives.walks
  · intro walks
    refine ⟨walks,fun validators tier others own => ?_⟩
    apply runValidatorsForTier_spec _ own
    intro v member
    rcases others v member with walker | back
    · exact walks v walker
    · exact back

end

def selfExtending : ValidationTable where
  symbols := [{ id := "file:///A.cls:class:A",name := "A",kind := .class_,fileUri := "file:///A.cls",parentId := .null
                location := ⟨⟨1,0,1,20⟩,⟨1,6,1,7⟩⟩,superClass := some "A" }]
  fileUri := "file:///A.cls"

theorem selfExtending_unsurvived : ∃ table options, ¬ @Survives asciiRuntime (fun code _ => code) table options := by
  refine ⟨selfExtending,{ tier := .immediate },fun survives => ?_⟩
  have back := @Survives.walks asciiRuntime _ _ _ survives
    (@AbstractMethodImplementationValidator.validator asciiRuntime fun code _ => code) List.mem_cons_self
  revert back
  decide +kernel

end ApexLs.Validation
