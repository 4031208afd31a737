import ApexLs.Collections.OrderedMap
import ApexLs.Types.TableReferences
import ApexLs.Validation.Inheritance

/-! The validator that counts the assignments to final variables. It counts the writes that it sees, and
not the initializer of the declaration. -/
namespace ApexLs.Validation.FinalAssignmentValidator

open ApexLs.Collections ApexLs.Types ApexLs.Utils

section

variable (allSymbols : List ApexSymbol) (allReferences : List TableReference)

def finalSymbols : List ApexSymbol :=
  allSymbols.filter fun s => s.modifiers.isFinal && (s.kind = .variable || s.kind = .parameter || s.kind = .field)

def isDeclarationInitialization (n : ReferenceNode) : Bool :=
  (allReferences.filter fun r => r.context = .variableDeclaration).any fun declaration =>
    declaration.name = n.name && declaration.sameStart n

def referencedSymbol (n : ReferenceNode) : Option ApexSymbol :=
  (n.resolvedSymbolId.filter (· ≠ "")).bind fun id => (finalSymbols allSymbols).find? fun s => s.id = id

def assignedBy (reference : TableReference) : Option ApexSymbol :=
  if !reference.isWrite then none
  else match reference.chainNodes with
  | some chainNodes =>
    let finalNode := reference.target
    if finalNode.context = .fieldAccess && finalNode.isWrite then
      (referencedSymbol allSymbols finalNode).filter fun s =>
        !(chainNodes.length ≥ 2 && s.modifiers.isStatic) && !(chainNodes.length ≥ 2 && finalNode.name ≠ s.name) &&
          !isDeclarationInitialization allReferences finalNode
    else none
  | none =>
    (referencedSymbol allSymbols reference.toReferenceNode).filter fun s =>
      reference.name = s.name && !isDeclarationInitialization allReferences reference.toReferenceNode

def countAssignment (counts : OrderedMap String Nat) (reference : TableReference) : OrderedMap String Nat :=
  match assignedBy allSymbols allReferences reference with
  | some s => counts.set s.id ((counts.get? s.id).getD 0 + 1)
  | none => counts

def assignmentCounts : OrderedMap String Nat := allReferences.foldl (countAssignment allSymbols allReferences) .empty

def violates (finalSymbol : ApexSymbol) : Bool :=
  let assignmentCount := ((assignmentCounts allSymbols allReferences).get? finalSymbol.id).getD 0
  (finalSymbol.kind = .parameter && assignmentCount > 0) ||
    ((finalSymbol.kind = .variable || finalSymbol.kind = .field) && assignmentCount > 1)

def violations : List ApexSymbol := (finalSymbols allSymbols).filter (violates allSymbols allReferences)

def validate (localizeTyped : Localizer) : Except String ValidationResult :=
  resultOf ((violations allSymbols allReferences).map fun s =>
    reported localizeTyped "invalid.final.field.assignment" [s.name] s.location) []

end

/-- A table whose references are resolved: an id stands for one final symbol, and a write has the name of the symbol it
is resolved to, in some spelling. Which declarations have an initializer is a fact of the source. -/
structure ResolvedTable [Runtime] where
  symbols : List ApexSymbol
  references : List TableReference
  initialized : ApexSymbol → Bool
  ids : ((finalSymbols symbols).map ApexSymbol.id).Nodup
  given : ∀ s ∈ finalSymbols symbols, s.id ≠ ""
  spelled : ∀ r ∈ references, r.target.isWrite = true → ∀ s ∈ finalSymbols symbols, r.target.resolvedSymbolId = some s.id →
    toLowerCase r.target.name = toLowerCase s.name

namespace ResolvedTable

variable [Runtime] (t : ResolvedTable)

/-- A write of the symbol, direct or at the end of a chain, that is not the initializer. -/
def writesTo (s : ApexSymbol) (r : TableReference) : Bool :=
  r.target.isWrite && r.target.resolvedSymbolId = some s.id && !isDeclarationInitialization t.references r.target

def writes (s : ApexSymbol) : Nat := t.references.countP (t.writesTo s)

/-- What can be seen of the writes of a symbol: they are spelled like the declaration, and in a chain they are written field
accesses, whose field is not static unless it is the only node. -/
def seen (s : ApexSymbol) (r : TableReference) : Bool :=
  r.isWrite && r.chainNodes.elim (r.name = s.name) fun nodes =>
    r.target.context = .fieldAccess && (nodes.length < 2 || (!s.modifiers.isStatic && r.target.name = s.name))

def seenWrites (s : ApexSymbol) : Nat := t.references.countP fun r => t.writesTo s r && seen s r

/-- A final variable or field may be assigned once, in its declaration or after it, and a final parameter never. -/
structure AssignedOnce : Prop where
  variables_ : ∀ s ∈ finalSymbols t.symbols, s.kind = .variable ∨ s.kind = .field →
    (s ∈ violations t.symbols t.references ↔ 1 < t.writes s + (t.initialized s).toNat)
  parameters : ∀ s ∈ finalSymbols t.symbols, s.kind = .parameter → (s ∈ violations t.symbols t.references ↔ 0 < t.writes s)

/-- Of what is assigned more than once two writes are seen, and of what is written at all one. -/
structure WritesSeen : Prop where
  variables_ : ∀ s ∈ finalSymbols t.symbols, s.kind = .variable ∨ s.kind = .field →
    1 < t.writes s + (t.initialized s).toNat → 1 < t.seenWrites s
  parameters : ∀ s ∈ finalSymbols t.symbols, s.kind = .parameter → 0 < t.writes s → 0 < t.seenWrites s

variable {t}

omit [Runtime] in
theorem get?_assignmentCounts (allSymbols : List ApexSymbol) (allReferences counted : List TableReference) (id : String) :
    ((counted.foldl (countAssignment allSymbols allReferences) .empty).get? id).getD 0 =
      counted.countP fun r => (assignedBy allSymbols allReferences r).any fun s => s.id = id := by
  induction counted using List.reverseRecOn with
  | nil => rfl
  | append_singleton counted r ih =>
    rw [List.foldl_append,List.foldl_cons,List.foldl_nil,List.countP_append,List.countP_singleton,countAssignment,← ih]
    cases assigned : assignedBy allSymbols allReferences r with
    | none => simp
    | some s =>
      dsimp only
      by_cases same : id = s.id
      · subst same
        simp
      · simp [same,Ne.symm same]

theorem referencedSymbol_iff (member : s ∈ finalSymbols t.symbols) (n : ReferenceNode) :
    ((referencedSymbol t.symbols n).any fun r => r.id = s.id) = decide (n.resolvedSymbolId = some s.id) ∧
      ∀ r, referencedSymbol t.symbols n = some r → r.id = s.id → r = s := by
  have nonempty := t.given s member
  have unique : ∀ r ∈ finalSymbols t.symbols, r.id = s.id → r = s :=
    fun r listed same => List.inj_on_of_nodup_map t.ids listed member same
  constructor
  · rw [referencedSymbol]
    cases resolved : n.resolvedSymbolId with
    | none => rfl
    | some id =>
      by_cases same : id = s.id
      · subst same
        have found : (finalSymbols t.symbols).find? (fun r => r.id = s.id) = some s := by
          obtain ⟨r,looked⟩ := Option.isSome_iff_exists.mp
            (List.find?_isSome (p := fun r => decide (r.id = s.id)).mpr ⟨s,member,by simp⟩)
          have idEq : r.id = s.id := by simpa using List.find?_some looked
          exact looked.trans (congrArg some (unique r (List.mem_of_find?_eq_some looked) idEq))
        rw [Option.filter_some_pos (by simpa using nonempty),Option.bind_some,found]
        simp
      · have other : ∀ r, (finalSymbols t.symbols).find? (fun r => r.id = id) = some r → r.id ≠ s.id := by
          intro r looked idEq
          have here : r.id = id := by simpa using List.find?_some looked
          exact same (here.symm.trans idEq)
        have apart : ¬ (some id = some s.id) := fun h => same (Option.some.inj h)
        rw [decide_eq_false apart,Option.any_eq_false]
        intro r looked
        obtain ⟨id',kept,looked⟩ := Option.bind_eq_some_iff.mp looked
        obtain rfl : id = id' := Option.some.inj (Option.filter_eq_some_iff.mp kept).1
        simpa using other r looked
  · intro r looked idEq
    obtain ⟨id,_,looked⟩ := Option.bind_eq_some_iff.mp looked
    exact unique r (List.mem_of_find?_eq_some looked) idEq

theorem assignedBy_any (member : s ∈ finalSymbols t.symbols) (r : TableReference) :
    ((assignedBy t.symbols t.references r).any fun s' => s'.id = s.id) = (t.writesTo s r && seen s r) := by
  obtain ⟨resolved,unique⟩ := referencedSymbol_iff member r.target
  have kept (p : ApexSymbol → Bool) : (((referencedSymbol t.symbols r.target).filter p).any fun s' => s'.id = s.id) =
      (decide (r.target.resolvedSymbolId = some s.id) && p s) := by
    rw [← resolved]
    cases found : referencedSymbol t.symbols r.target with
    | none => rfl
    | some s' =>
      by_cases same : s'.id = s.id
      · rw [unique s' found same,Option.filter_some]
        cases p s <;> simp
      · rw [Option.filter_some]
        cases p s' <;> simp [same]
  rw [assignedBy,writesTo,seen]
  by_cases write : r.isWrite
  · rw [if_neg (by simpa using write),write,Bool.true_and]
    cases chain : r.chainNodes with
    | none =>
      have target : r.target = r.toReferenceNode := by rw [TableReference.target,chain]; rfl
      have writes : r.target.isWrite := by rw [target]; exact write
      rw [writes,Bool.true_and]
      rw [target] at kept ⊢
      dsimp only [Option.elim_none]
      rw [kept]
      grind
    | some nodes =>
      dsimp only [Option.elim_some]
      by_cases field : r.target.context = .fieldAccess ∧ r.target.isWrite = true
      · rw [if_pos (by simpa using field),kept]
        grind
      · rw [if_neg (by simpa using field)]
        grind
  · rw [if_pos (by simpa using write)]
    grind

theorem count_eq (member : s ∈ finalSymbols t.symbols) :
    ((assignmentCounts t.symbols t.references).get? s.id).getD 0 = t.seenWrites s := by
  rw [assignmentCounts,get?_assignmentCounts,seenWrites]
  exact List.countP_congr fun r _ => by rw [assignedBy_any member]

theorem seenWrites_le (s : ApexSymbol) : t.seenWrites s ≤ t.writes s :=
  List.countP_mono_left fun _ _ both => (Bool.and_eq_true _ _ ▸ both).1

theorem mem_violations (member : s ∈ finalSymbols t.symbols) : s ∈ violations t.symbols t.references ↔
    s.kind = .parameter ∧ 0 < t.seenWrites s ∨ (s.kind = .variable ∨ s.kind = .field) ∧ 1 < t.seenWrites s := by
  rw [violations,List.mem_filter,violates,count_eq member]
  simp [member]

/-- Assignments are held to once exactly where enough of them are seen. -/
theorem assignedOnce_iff (t : ResolvedTable) : t.AssignedOnce ↔ t.WritesSeen := by
  have variables_ {s : ApexSymbol} (member : s ∈ finalSymbols t.symbols) (kind : s.kind = .variable ∨ s.kind = .field) :
      s ∈ violations t.symbols t.references ↔ 1 < t.seenWrites s := by
    rw [mem_violations member]
    rcases kind with kind | kind <;> simp [kind]
  have parameters {s : ApexSymbol} (member : s ∈ finalSymbols t.symbols) (kind : s.kind = .parameter) :
      s ∈ violations t.symbols t.references ↔ 0 < t.seenWrites s := by
    rw [mem_violations member]
    simp [kind]
  constructor
  · intro once
    refine ⟨fun s member kind more => ?_,fun s member kind more => ?_⟩
    · exact (variables_ member kind).mp ((once.variables_ s member kind).mpr more)
    · exact (parameters member kind).mp ((once.parameters s member kind).mpr more)
  · intro enough
    refine ⟨fun s member kind => ?_,fun s member kind => ?_⟩
    · rw [variables_ member kind]
      refine ⟨fun more => ?_,enough.variables_ s member kind⟩
      have := t.seenWrites_le s
      omega
    · rw [parameters member kind]
      refine ⟨fun more => ?_,enough.parameters s member kind⟩
      exact more.trans_le (t.seenWrites_le s)

/-- `final Integer x = 5;` -/
def onceAssigned : ApexSymbol := {
  id := "file:///T.cls:variable:x"
  name := "x"
  kind := .variable
  modifiers := { isFinal := true }
  fileUri := "file:///T.cls"
  location := ⟨⟨1,0,1,20⟩,⟨1,14,1,15⟩⟩ }

/-- `final Integer x = 5; x = 10;` -/
def reassigned : List TableReference := [
  { name := "x", location := ⟨⟨1,14,1,15⟩,⟨1,14,1,15⟩⟩, context := .variableDeclaration
    resolvedSymbolId := some "file:///T.cls:variable:x",stepped := TableReference.unchained },
  { name := "x", location := ⟨⟨2,0,2,1⟩,⟨2,0,2,1⟩⟩, context := .variableUsage, access := some .write
    resolvedSymbolId := some "file:///T.cls:variable:x",stepped := TableReference.unchained }]

omit [Runtime] in
/-- The initializer of a final variable is not counted: the write after it is allowed. -/
theorem initialized_and_reassigned : ¬ ∀ t : @ResolvedTable asciiRuntime, @AssignedOnce asciiRuntime t := by
  intro always
  let _ := asciiRuntime
  let table : ResolvedTable := {
    symbols := [onceAssigned]
    references := reassigned
    initialized := fun _ => true
    ids := by decide
    given s member := by
      obtain rfl : s = onceAssigned := List.mem_singleton.mp (List.mem_of_mem_filter member)
      decide
    spelled r listed write s member resolved := by
      obtain rfl : s = onceAssigned := List.mem_singleton.mp (List.mem_of_mem_filter member)
      have named : ∀ r ∈ reassigned, r.target.name = onceAssigned.name := by decide
      rw [named r listed] }
  have member : onceAssigned ∈ finalSymbols table.symbols := List.mem_filter.mpr ⟨List.mem_singleton_self _,rfl⟩
  have twice : 1 < table.writes onceAssigned + (table.initialized onceAssigned).toNat := by decide
  have quiet : violations table.symbols table.references = [] := by decide
  have reported := ((always table).variables_ onceAssigned member (.inl rfl)).mpr twice
  exact List.not_mem_nil (quiet ▸ reported)

end ResolvedTable
end ApexLs.Validation.FinalAssignmentValidator
