import ApexLs.Symbols.Growth
import ApexLs.Symbols.Registrations

/-! Which table a file has after `addSymbolTable`. The registration decides it; what follows puts
symbols into the graph and registers nothing else. -/
namespace ApexLs.Symbols

open ApexLs.Utils ApexLs.Types ApexLs.Collections

namespace DecisionInputs

/-- The incoming table is of an older version than the stored one. -/
def outdated (i : DecisionInputs) : Bool := i.storedVersion.any (fun stored => i.incomingVersion < stored)

/-- The incoming table takes the place of the stored one: it is newer and nothing says it misses
declarations, or nothing is stored. -/
def supersedes (i : DecisionInputs) : Bool :=
  i.storedVersion.all (fun stored => stored < i.incomingVersion && !(i.incompleteSignal && i.existingSymbolCount > 0))

/-- The stored table stays exactly when the incoming one is older, and is merged into it exactly
when that is not older and does not supersede it. -/
theorem decision_new {i : DecisionInputs} (new : i.sameInstance = false) :
    (i.decision = .rejectedStale ↔ i.outdated = true) ∧ (i.decision = .acceptedReplace ↔ i.supersedes = true) ∧
      i.decision ≠ .noopSameInstance := by
  cases stored : i.storedVersion with
  | none => simp [decision,outdated,supersedes,stored]
  | some version =>
    simp only [decision,stored,new,outdated,supersedes,Option.any_some,Option.all_some]
    by_cases older : i.incomingVersion < version
    · simp [older,not_lt.mpr older.le]
    · by_cases same : i.incomingVersion = version
      · simp [same]
      · have newer : version < i.incomingVersion := by omega
        by_cases incomplete : i.incompleteSignal = true ∧ i.existingSymbolCount > 0
        · simp [older,same,incomplete]
        · simp only [not_and,not_lt] at incomplete
          by_cases signal : i.incompleteSignal = true
          · simp [older,same,newer,signal,Nat.le_zero.mp (incomplete signal)]
          · simp [older,same,newer,signal]

end DecisionInputs

namespace SymbolGraph

variable [Runtime]

omit [Runtime] in
theorem liveSymbolIds_eq {heap heap' : Heap} (rigid : Rigid heap heap') {symbols : List Ref}
    (declared : ∀ s ∈ symbols, ∃ n, s = .declared n) :
    liveSymbolIds heap' symbols = symbols.map (fun s => (heap s).id) := by
  have ids : symbols.map (fun s => unifiedIdOf (heap' s)) = symbols.map (fun s => (heap s).id) := by
    apply List.map_congr_left
    intro s member
    obtain ⟨n,rfl⟩ := declared s member
    have sync := rigid.synchronized n
    rw [unifiedIdOf,sync.keyed,orElse,if_neg sync.nonempty,rigid.id]
  rw [liveSymbolIds,ids,List.filter_eq_self]
  intro id member
  obtain ⟨s,listed,rfl⟩ := List.mem_map.mp member
  obtain ⟨n,rfl⟩ := declared s listed
  rw [← rigid.id]
  simpa using (rigid.synchronized n).nonempty

theorem acceptedReplace_canonical {g : SymbolGraph} {t : TableRef} {fileUri : String} {options : RegistrationOptions}
    (replaced : (g.registerSymbolTable t fileUri options).1.decision = .acceptedReplace) :
    (g.registerSymbolTable t fileUri options).1.canonicalTable = t := by
  revert replaced
  unfold registerSymbolTable
  simp only
  split
  next => exact fun _ => rfl
  next existing stored =>
    split
    next same => exact fun _ => same
    next =>
      split
      next =>
        intro replaced
        cases replaced
      next => exact fun _ => rfl

theorem registerSymbolTable_again {g : SymbolGraph} {t : TableRef} (known : g.registered fileUri = some t)
    (options : RegistrationOptions) : (g.registerSymbolTable t fileUri options).2 = g := by
  have found : g.fileToSymbolTable.get (extractFilePathFromUri fileUri) = some t := known
  simp [registerSymbolTable,found]

theorem registerSymbolTable_canonical (g : SymbolGraph) (t : TableRef) (fileUri : String) (options : RegistrationOptions)
    (accepted : (g.registerSymbolTable t fileUri options).1.decision ≠ .rejectedStale) :
    (g.registerSymbolTable t fileUri options).2.registered fileUri =
      some (g.registerSymbolTable t fileUri options).1.canonicalTable := by
  revert accepted
  generalize called : g.registerSymbolTable t fileUri options = outcome
  intro accepted
  unfold registerSymbolTable at called
  extract_lets normalizedUri incomingVersion incoming at called
  split at called
  next =>
    subst called
    exact CaseInsensitiveMap.get_set_self ..
  next existing stored =>
    extract_lets storedVersion storedTable isNewerVersion incomplete useReplace at called
    split at called
    next =>
      subst called
      exact stored
    next =>
      split at called
      next =>
        subst called
        exact absurd rfl accepted
      next =>
        subst called
        exact CaseInsensitiveMap.get_set_self ..

theorem addSymbol_registrations {g : SymbolGraph} {t : TableRef} (known : g.registered (extractFilePathFromUri fileUri) = some t)
    (symbol : Ref) : (g.addSymbol symbol fileUri (some t)).fileToSymbolTable = g.fileToSymbolTable := by
  simp only [addSymbol,registerSymbolTable_again known,Option.some_or]
  rfl

theorem fileSymbol_registrations (g : SymbolGraph) (t : TableRef) (symbol : Ref) :
    (g.fileSymbol t symbol).fileToSymbolTable = g.fileToSymbolTable := by
  unfold fileSymbol
  split
  next => rfl
  next => rfl

theorem qualify_registrations (g : SymbolGraph) (symbol : Ref) : (g.qualify symbol).fileToSymbolTable = g.fileToSymbolTable := by
  unfold qualify
  split
  next => rfl
  next => exact (namesAbove_memoised ..).fileToSymbolTable

theorem insertSymbol_registrations {g : SymbolGraph} {t : TableRef}
    (known : g.registered (extractFilePathFromUri (createFileUri normalizedUri)) = some t) (symbol : Ref) :
    (g.insertSymbol normalizedUri t symbol).fileToSymbolTable = g.fileToSymbolTable := by
  simp only [insertSymbol,manageSymbol]
  generalize entered : qualify _ symbol = qualified
  have same : qualified.fileToSymbolTable = g.fileToSymbolTable := by
    rw [← entered,qualify_registrations]
  obtain ⟨looked,found,after⟩ := getSymbol_spec qualified (unifiedIdOf (qualified.heap symbol))
  rw [found]
  have filed : (looked.fileSymbol t symbol).fileToSymbolTable = g.fileToSymbolTable := by
    rw [fileSymbol_registrations,after.fileToSymbolTable,same]
  rw [addSymbol_registrations ?_ symbol,filed]
  simp only [registered,filed]
  exact known

theorem insertSymbols_fold_registrations {g : SymbolGraph} {t : TableRef}
    (known : g.registered (extractFilePathFromUri (createFileUri normalizedUri)) = some t) (symbols : List Ref) :
    (symbols.foldl (insertSymbol normalizedUri t) g).fileToSymbolTable = g.fileToSymbolTable := by
  induction symbols generalizing g with
  | nil => rfl
  | cons symbol rest ih =>
    have first := insertSymbol_registrations known symbol
    have known' : (g.insertSymbol normalizedUri t symbol).registered (extractFilePathFromUri (createFileUri normalizedUri)) =
        some t := by
      simp only [registered,first]
      exact known
    exact (ih known').trans first

theorem forgetSymbols_registrations (normalizedUri : String) (g : SymbolGraph) (symbolIds : List String) :
    (symbolIds.foldl (forgetSymbol normalizedUri) g).fileToSymbolTable = g.fileToSymbolTable := by
  induction symbolIds generalizing g with
  | nil => rfl
  | cons symbolId rest ih => exact ih (g.forgetSymbol normalizedUri symbolId)

theorem evictStaleFileDeclarations_registrations (g : SymbolGraph) (fileUri : String) (liveSymbolIds : List String) :
    (g.evictStaleFileDeclarations fileUri liveSymbolIds).fileToSymbolTable = g.fileToSymbolTable := by
  simp only [evictStaleFileDeclarations]
  split
  next => rfl
  next => exact forgetSymbols_registrations ..

theorem insertSymbols_registrations {g : SymbolGraph} {t : TableRef}
    (known : g.registered (extractFilePathFromUri (createFileUri normalizedUri)) = some t) (decision : RegistrationDecision) :
    (g.insertSymbols normalizedUri t decision).fileToSymbolTable = g.fileToSymbolTable := by
  have filled : ((((g.clearReferenceStateForFile normalizedUri).table t).getAllSymbols).foldl (insertSymbol normalizedUri t)
      (g.clearReferenceStateForFile normalizedUri)).fileToSymbolTable = g.fileToSymbolTable := by
    rw [insertSymbols_fold_registrations]
    · rfl
    · exact known
  unfold insertSymbols
  extract_lets cleared symbols inserted
  split
  next => exact (evictStaleFileDeclarations_registrations ..).trans filled
  next => exact filled

end SymbolGraph

namespace SymbolManager

variable [Runtime]

def registration (c : TableCall) : Registration where
  symbolTable := c.symbolTable
  fileUri := extractFilePathFromUri (createFileUri c.normalizedUri)
  options := { mergeReferences := false,hasErrors := c.hasErrors.getD false }

def annotated (m : SymbolManager) (c : TableCall) : SymbolGraph :=
  m.graph.setTable c.symbolTable (c.annotate (m.graph.table c.symbolTable))

def inputs (m : SymbolManager) (c : TableCall) : DecisionInputs := (m.annotated c).decisionInputs (registration c)

theorem register_eq (m : SymbolManager) (c : TableCall) :
    m.register c = (m.annotated c).registerSymbolTable c.symbolTable (registration c).fileUri (registration c).options := rfl

theorem addSymbolTable_registrations (m : SymbolManager) (c : TableCall) :
    (m.addSymbolTable c).graph.fileToSymbolTable = (m.register c).2.fileToSymbolTable := by
  simp only [addSymbolTable]
  have known := (m.annotated c).registerSymbolTable_canonical c.symbolTable (registration c).fileUri (registration c).options
  split
  next => rfl
  next proceeds =>
    exact SymbolGraph.insertSymbols_registrations (known fun stale => proceeds (.inl stale)) _

theorem addSymbolTable_registered (m : SymbolManager) (c : TableCall)
    (new : ∀ file, m.graph.registered file ≠ some c.symbolTable) (file : String) :
    (m.addSymbolTable c).graph.registered file =
      if toLowerCase (extractFilePathFromUri file) = toLowerCase (extractFilePathFromUri (registration c).fileUri) ∧
        (m.inputs c).outdated = false then some c.symbolTable
      else m.graph.registered file := by
  have other : (m.inputs c).sameInstance = false := by
    have absent := new (registration c).fileUri
    change (m.graph.registered (registration c).fileUri).any (fun t => t = c.symbolTable) = false
    cases found : m.graph.registered (registration c).fileUri with
    | none => rfl
    | some t =>
      rw [found] at absent
      simpa using absent
  obtain ⟨stale,_,noop⟩ := DecisionInputs.decision_new other
  have decided := (m.annotated c).report_decided (registration c)
  have after : (m.addSymbolTable c).graph.registered file = ((m.annotated c).register (registration c)).registered file := by
    simp only [SymbolGraph.registered,addSymbolTable_registrations]
    rfl
  rw [after]
  rcases (m.annotated c).register_cases (registration c) with ⟨same,_⟩ | ⟨rejected,_,noted⟩ | ⟨heap,table,accepted,_,stored,_⟩
  · exact absurd (decided.symm.trans same) noop
  · have outdated := stale.mp (decided.symm.trans rejected)
    rw [noted,if_neg (by simp [outdated])]
    rfl
  · have current : (m.inputs c).outdated = false := by
      have not_ := fun old => accepted (decided.trans (stale.mpr old))
      simpa using not_
    rw [stored]
    simp only [current,and_true]
    exact CaseInsensitiveMap.get_set ..

omit [Runtime] in
theorem setMetadata_filing (t : SymbolTable) (metadata : SymbolTableMetadata) :
    SymbolGraph.SameFiling t (t.setMetadata metadata) := ⟨rfl,rfl,rfl⟩

omit [Runtime] in
theorem annotate_filing (c : TableCall) (t : SymbolTable) : SymbolGraph.SameFiling t (c.annotate t) :=
  setMetadata_filing t _

omit [Runtime] in
theorem keyed_of_filing {heap : Heap} {t t' : SymbolTable} (same : SymbolGraph.SameFiling t t') (keyed : Keyed heap t) :
    Keyed heap t' := by
  refine ⟨fun s held => keyed.declared s ?_,fun id n found => keyed.single id n (same.symbolMap ▸ found)⟩
  rwa [heldSymbols,same.symbolArray,same.symbolMap] at held

theorem register_grows {heap : Heap} {new : List Ref} {m : SymbolManager} (named : Named heap)
    (tidy : SymbolGraph.Tidy heap m.graph) (c : TableCall) : SymbolGraph.Grows heap new m.graph (m.register c).2 := by
  have annotated : SymbolGraph.Grows heap new m.graph
      (m.graph.setTable c.symbolTable (c.annotate (m.graph.table c.symbolTable))) :=
    .setTable tidy tidy.rigid c.symbolTable (keyed_of_filing (annotate_filing c _) (tidy.keyed c.symbolTable))
  exact annotated.trans (SymbolGraph.registerSymbolTable_grows named annotated.tidy _ _ _)

theorem register_filed {m : SymbolManager} {c : TableCall} (replaced : (m.register c).1.decision = .acceptedReplace) :
    (m.register c).1.canonicalTable = c.symbolTable ∧ (m.register c).2.heap = m.graph.heap ∧
      SymbolGraph.SameFiling (m.graph.table c.symbolTable) ((m.register c).2.table c.symbolTable) := by
  obtain ⟨_,heap,filed⟩ := ((m.annotated c).register_lawful (registration c)).replaced replaced
  have noted : (m.annotated c).table c.symbolTable = c.annotate (m.graph.table c.symbolTable) := by
    simp [annotated,SymbolGraph.table,SymbolGraph.setTable]
  have before : SymbolGraph.SameFiling (m.graph.table c.symbolTable) ((m.annotated c).table c.symbolTable) := by
    rw [noted]
    exact annotate_filing c _
  exact ⟨SymbolGraph.acceptedReplace_canonical replaced,heap,filed.root.trans before.root,
    filed.symbolArray.trans before.symbolArray,filed.symbolMap.trans before.symbolMap⟩

theorem register_replaced {m : SymbolManager} {c : TableCall} (replaced : (m.register c).1.decision = .acceptedReplace) :
    ((m.register c).2.table (m.register c).1.canonicalTable).getAllSymbols =
      (m.graph.table c.symbolTable).getAllSymbols := by
  obtain ⟨canonical,_,filed⟩ := register_filed replaced
  rw [canonical]
  exact filed.symbolArray

theorem insertSymbols_drops (g : SymbolGraph) (normalizedUri : String) (t : TableRef) (decision : RegistrationDecision) :
    ∃ ids, SymbolGraph.Drops ids
        ((g.table t).getAllSymbols.foldl (SymbolGraph.insertSymbol normalizedUri t) (g.clearReferenceStateForFile normalizedUri))
        (g.insertSymbols normalizedUri t decision) ∧
      ∀ id ∈ ids, decision = .acceptedReplace ∧
        id ∈ SymbolGraph.staleIds
          ((g.table t).getAllSymbols.foldl (SymbolGraph.insertSymbol normalizedUri t)
            (g.clearReferenceStateForFile normalizedUri)) normalizedUri
          (SymbolGraph.liveSymbolIds ((g.table t).getAllSymbols.foldl (SymbolGraph.insertSymbol normalizedUri t)
            (g.clearReferenceStateForFile normalizedUri)).heap (g.table t).getAllSymbols) := by
  unfold SymbolGraph.insertSymbols
  extract_lets cleared symbols inserted
  by_cases replaced : decision = .acceptedReplace
  · rw [if_pos replaced]
    exact ⟨_,SymbolGraph.evictStaleFileDeclarations_drops _ _ _,fun id member => ⟨replaced,member⟩⟩
  · rw [if_neg replaced]
    exact ⟨[],.refl _,by simp⟩

end SymbolManager
end ApexLs.Symbols
