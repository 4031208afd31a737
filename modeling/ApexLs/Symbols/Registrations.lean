import ApexLs.Collections.Runs
import ApexLs.Symbols.Homes

/-! Sequences of registrations. Each call compares the version of the incoming table with that
of the stored one; a merge writes into the incoming table before it is published. -/
namespace ApexLs.Symbols

open ApexLs.Utils ApexLs.Types ApexLs.Collections

structure Registration where
  symbolTable : TableRef
  fileUri : String
  options : RegistrationOptions := {}

/-- What decides a registration: the versions, whether the table is the stored one, the numbers
of symbols, and the signals of an incomplete parse. -/
structure DecisionInputs where
  incomingVersion : Int
  storedVersion : Option Int
  sameInstance : Bool
  newSymbolCount : Nat
  existingSymbolCount : Nat
  hasErrors : Bool
  hasHardIncompleteParse : Bool
  parseCompleteness : ParseCompleteness

namespace DecisionInputs

def incompleteSignal (i : DecisionInputs) : Bool :=
  i.hasHardIncompleteParse || i.parseCompleteness = .incomplete ||
    (i.hasErrors && i.existingSymbolCount > 0 && i.newSymbolCount = 0)

def decision (i : DecisionInputs) : RegistrationDecision :=
  match i.storedVersion with
  | none => .acceptedReplace
  | some storedVersion =>
    if i.sameInstance then .noopSameInstance
    else if i.incomingVersion < storedVersion then .rejectedStale
    else if i.incomingVersion = storedVersion then .acceptedMerge
    else if i.incompleteSignal && i.existingSymbolCount > 0 then .acceptedFallbackMerge
    else .acceptedReplace

end DecisionInputs

namespace SymbolGraph

variable [Runtime]

def registered (g : SymbolGraph) (fileUri : String) : Option TableRef :=
  g.fileToSymbolTable.get (extractFilePathFromUri fileUri)

def registeredVersion (g : SymbolGraph) (fileUri : String) : Option Int :=
  (g.registered fileUri).map (fun t => (g.table t).getMetadata.documentVersion)

def report (g : SymbolGraph) (c : Registration) : SymbolTableRegistrationResult :=
  (g.registerSymbolTable c.symbolTable c.fileUri c.options).1

def register (g : SymbolGraph) (c : Registration) : SymbolGraph :=
  (g.registerSymbolTable c.symbolTable c.fileUri c.options).2

def decisionInputs (g : SymbolGraph) (c : Registration) : DecisionInputs where
  incomingVersion := (g.table c.symbolTable).getMetadata.documentVersion
  storedVersion := g.registeredVersion c.fileUri
  sameInstance := (g.registered c.fileUri).any (fun t => t = c.symbolTable)
  newSymbolCount := (g.table c.symbolTable).getAllSymbols.length
  existingSymbolCount := (g.registered c.fileUri).elim 0 (fun t => (g.table t).getAllSymbols.length)
  hasErrors := c.options.hasErrors
  hasHardIncompleteParse := c.options.hasHardIncompleteParse
  parseCompleteness := (g.table c.symbolTable).getMetadata.parseCompleteness

def NoOlder (before after : SymbolGraph) : Prop :=
  ∀ fileUri version, before.registeredVersion fileUri = some version →
    ∃ later, after.registeredVersion fileUri = some later ∧ version ≤ later

/-- What a stale call leaves alone: the registrations, every symbol and edge of the graph, and
each table but the incoming one. -/
structure Untouched (before after : SymbolGraph) (incoming : TableRef) : Prop where
  registrations : after.fileToSymbolTable = before.fileToSymbolTable
  symbols : after.heap = before.heap
  edges : after.refs = before.refs
  tables : ∀ t, t ≠ incoming → after.table t = before.table t

/-- The symbols of two tables are the same, in their order and under their ids. -/
structure SameFiling (t t' : SymbolTable) : Prop where
  root : t'.root = t.root
  symbolArray : t'.symbolArray = t.symbolArray
  symbolMap : t'.symbolMap = t.symbolMap

structure Lawful (g : SymbolGraph) (c : Registration) : Prop where
  noOlder : NoOlder g (g.register c)
  stale : (g.report c).decision = .rejectedStale →
    g.registered c.fileUri ≠ some c.symbolTable ∧ Untouched g (g.register c) c.symbolTable
  replaced : (g.report c).decision = .acceptedReplace →
    (g.register c).registered c.fileUri = some c.symbolTable ∧ (g.register c).heap = g.heap ∧
      SameFiling (g.table c.symbolTable) ((g.register c).table c.symbolTable)
  decided : (g.report c).decision = (g.decisionInputs c).decision

omit [Runtime] in
theorem accepted_eq_replace {useReplace incomplete : Bool} :
    (if useReplace = true then RegistrationDecision.acceptedReplace
      else if incomplete = true then .acceptedFallbackMerge else .acceptedMerge) = .acceptedReplace ↔
      useReplace = true := by
  cases useReplace <;> cases incomplete <;> decide

omit [Runtime] in
theorem accepted_ne_stale {useReplace incomplete : Bool} :
    (if useReplace = true then RegistrationDecision.acceptedReplace
      else if incomplete = true then .acceptedFallbackMerge else .acceptedMerge) ≠ .rejectedStale := by
  cases useReplace <;> cases incomplete <;> decide

section

variable (g : SymbolGraph) (c : Registration)
include g c

theorem register_cases :
    ((g.report c).decision = .noopSameInstance ∧ g.register c = g) ∨
    ((g.report c).decision = .rejectedStale ∧ g.registered c.fileUri ≠ some c.symbolTable ∧
      g.register c = g.setTable c.symbolTable
        ((g.table c.symbolTable).setFileUri (extractFilePathFromUri c.fileUri))) ∨
    ∃ heap table, (g.report c).decision ≠ .rejectedStale ∧
      (∀ stored, g.registeredVersion c.fileUri = some stored →
        stored ≤ (g.table c.symbolTable).getMetadata.documentVersion) ∧
      g.register c = { { g with heap := heap }.setTable c.symbolTable table with
        fileToSymbolTable := g.fileToSymbolTable.set (extractFilePathFromUri c.fileUri) c.symbolTable } ∧
      table.metadata.documentVersion = (g.table c.symbolTable).metadata.documentVersion ∧
      ((g.report c).decision = .acceptedReplace → heap = g.heap ∧ SameFiling (g.table c.symbolTable) table) := by
  have older : ∀ t, (g.table t).getMetadata.documentVersion = (g.table t).metadata.documentVersion := fun _ => rfl
  simp only [report,register,registered,registeredVersion,older]
  generalize called : g.registerSymbolTable c.symbolTable c.fileUri c.options = outcome
  unfold registerSymbolTable at called
  extract_lets normalizedUri incomingVersion incoming at called
  split at called
  next stored =>
    subst called
    rw [stored]
    exact .inr (.inr ⟨g.heap,incoming,by simp,by simp,rfl,rfl,fun _ => ⟨rfl,rfl,rfl,rfl⟩⟩)
  next existing stored =>
    rw [stored]
    extract_lets storedVersion storedTable isNewerVersion incomplete useReplace at called
    split at called
    next =>
      subst called
      exact .inl ⟨rfl,rfl⟩
    next different =>
      split at called
      next =>
        subst called
        exact .inr (.inl ⟨rfl,by simpa using different,rfl⟩)
      next notStale =>
        subst called
        generalize merging : (if useReplace = true then (g.heap,incoming) else mergeSymbols g.heap incoming storedTable) = merged
        have kept : merged.2.metadata.documentVersion = incoming.metadata.documentVersion := by
          subst merging
          split
          next => rfl
          next => rw [(mergeSymbols_metadata _ _ _).2]
        refine .inr (.inr ⟨_,_,accepted_ne_stale,?_,rfl,?_,?_⟩)
        · intro version same
          obtain rfl : storedVersion = version := by simpa using same
          exact Int.not_lt.mp notStale
        · split
          next =>
            obtain ⟨_,_,_,merge⟩ := mergeTypeReferences_eq merged.2 storedTable
            rw [merge]
            exact kept
          next => exact kept
        · intro replaced
          have replace : useReplace = true := accepted_eq_replace.mp replaced
          rw [if_pos replace] at merging
          subst merging
          refine ⟨rfl,?_⟩
          split
          next =>
            obtain ⟨_,_,_,merge⟩ := mergeTypeReferences_eq incoming storedTable
            rw [merge]
            exact ⟨rfl,rfl,rfl⟩
          next => exact ⟨rfl,rfl,rfl⟩

theorem report_decided :
    (g.report c).decision = (g.decisionInputs c).decision := by
  simp only [report]
  generalize called : g.registerSymbolTable c.symbolTable c.fileUri c.options = outcome
  unfold registerSymbolTable at called
  extract_lets normalizedUri incomingVersion incoming at called
  split at called
  next stored =>
    subst called
    have fresh : g.registered c.fileUri = none := stored
    simp [DecisionInputs.decision,decisionInputs,registeredVersion,fresh]
  next existing stored =>
    extract_lets storedVersion storedTable isNewerVersion incomplete useReplace at called
    have inputs : g.decisionInputs c =
        ⟨incomingVersion,some storedVersion,existing = c.symbolTable,incoming.getAllSymbols.length,
          storedTable.getAllSymbols.length,c.options.hasErrors,c.options.hasHardIncompleteParse,
          incoming.metadata.parseCompleteness⟩ := by
      have found : g.registered c.fileUri = some existing := stored
      simp only [decisionInputs,registeredVersion,found]
      rfl
    rw [inputs]
    split at called
    next same =>
      subst called
      simp [DecisionInputs.decision,same]
    next different =>
      split at called
      next stale =>
        subst called
        simp [DecisionInputs.decision,different,stale]
      next notStale =>
        subst called
        by_cases equal : incomingVersion = storedVersion
        · have merge : isNewerVersion = false := by simp [isNewerVersion,equal]
          simp [DecisionInputs.decision,different,equal,useReplace,incomplete,merge]
        · have newer : isNewerVersion = true := by
            simp only [isNewerVersion,decide_eq_true_eq]
            omega
          have signalled : incomplete = (DecisionInputs.incompleteSignal ⟨incomingVersion,some storedVersion,
              existing = c.symbolTable,incoming.getAllSymbols.length,storedTable.getAllSymbols.length,
              c.options.hasErrors,c.options.hasHardIncompleteParse,incoming.metadata.parseCompleteness⟩ &&
                storedTable.getAllSymbols.length > 0) := by
            simp only [incomplete,newer,Bool.true_and]
            rfl
          simp only [DecisionInputs.decision]
          rw [if_neg (show ¬ decide (existing = c.symbolTable) = true by simpa using different),
            if_neg notStale,if_neg equal,← signalled]
          simp only [useReplace,newer]
          cases incomplete with
          | false => rfl
          | true => rfl

theorem register_version (t : TableRef) :
    ((g.register c).table t).metadata.documentVersion = (g.table t).metadata.documentVersion := by
  rcases g.register_cases c with ⟨_,same⟩ | ⟨_,_,noted⟩ | ⟨heap,table,_,_,stored,version,_⟩
  · rw [same]
  · rw [noted]
    by_cases incoming : t = c.symbolTable
    · simp [table,setTable,incoming,SymbolTable.setFileUri]
    · simp [table,setTable,incoming]
  · rw [stored]
    by_cases incoming : t = c.symbolTable
    · subst incoming
      simpa [SymbolGraph.table,setTable] using version
    · simp [SymbolGraph.table,setTable,incoming]

theorem register_noOlder : NoOlder g (g.register c) := by
  intro fileUri version stored
  obtain ⟨t,registered,rfl⟩ := Option.map_eq_some_iff.mp stored
  have kept : ∀ t', (g.register c).registered fileUri = some t' →
      (g.register c).registeredVersion fileUri = some (g.table t').metadata.documentVersion := by
    intro t' found
    rw [registeredVersion,found]
    exact congrArg some (g.register_version c t')
  rcases g.register_cases c with ⟨_,same⟩ | ⟨_,_,noted⟩ | ⟨heap,table,_,newest,accepted,_⟩
  · exact ⟨_,kept t (by rw [same]; exact registered),le_rfl⟩
  · exact ⟨_,kept t (by rw [noted]; exact registered),le_rfl⟩
  · have lookup : (g.register c).registered fileUri =
        if toLowerCase (extractFilePathFromUri fileUri) = toLowerCase (extractFilePathFromUri c.fileUri)
          then some c.symbolTable else g.registered fileUri := by
      rw [accepted]
      exact CaseInsensitiveMap.get_set ..
    split at lookup
    next here =>
      have same : g.registered c.fileUri = some t := by
        rw [← registered]
        exact congrArg g.fileToSymbolTable.lookup here.symm
      exact ⟨_,kept _ lookup,newest _ (by rw [registeredVersion,same]; rfl)⟩
    next => exact ⟨_,kept t (lookup.trans registered),le_rfl⟩

end

theorem NoOlder.refl (g : SymbolGraph) : NoOlder g g := fun _ version stored => ⟨version,stored,le_rfl⟩

theorem NoOlder.trans {g g' g'' : SymbolGraph} (first : NoOlder g g') (second : NoOlder g' g'') : NoOlder g g'' := by
  intro fileUri version stored
  obtain ⟨next,stored',le⟩ := first fileUri version stored
  obtain ⟨last,stored'',le'⟩ := second fileUri next stored'
  exact ⟨last,stored'',le.trans le'⟩

theorem register_lawful (g : SymbolGraph) (c : Registration) : Lawful g c := by
  refine ⟨g.register_noOlder c,fun stale => ?_,fun replaced => ?_,g.report_decided c⟩
  · rcases g.register_cases c with ⟨noop,_⟩ | ⟨_,different,noted⟩ | ⟨heap,table,accepted,_⟩
    · rw [noop] at stale
      cases stale
    · refine ⟨different,?_⟩
      rw [noted]
      exact ⟨rfl,rfl,rfl,fun t other => by simp [table,setTable,other]⟩
    · exact absurd stale accepted
  · rcases g.register_cases c with ⟨noop,_⟩ | ⟨stale,_⟩ | ⟨heap,table,_,_,accepted,_,whole⟩
    · rw [noop] at replaced
      cases replaced
    · rw [stale] at replaced
      cases replaced
    · obtain ⟨kept,same⟩ := whole replaced
      rw [accepted]
      refine ⟨CaseInsensitiveMap.get_set_self ..,kept,?_⟩
      simpa [SymbolGraph.table,setTable] using same

/-- Along every sequence of registrations, whatever the versions of the tables, no file gets an
older table, stale calls are inert, replacing calls publish exactly the symbols they bring, and
each decision follows from the versions, the instance, the counts and the signals. -/
theorem registrations_lawful (g : SymbolGraph) (calls : List Registration) :
    EveryState register (NoOlder g) g calls ∧ EveryStep register Lawful g calls := by
  refine ⟨everyState_of_step (fun g' c before => before.trans (g'.register_noOlder c)) (NoOlder.refl g) calls,?_⟩
  induction calls generalizing g with
  | nil => trivial
  | cons c calls ih => exact ⟨g.register_lawful c,ih (g.register c)⟩

end SymbolGraph
end ApexLs.Symbols
