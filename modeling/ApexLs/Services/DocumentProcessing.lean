import ApexLs.Services.DocumentStateCache
import ApexLs.Services.OpenedDocuments

/-! The processing of opened documents, one at a time and in batches. The batch answers the documents
it finds in the cache first and appends the answers of those it compiles. -/
namespace ApexLs.Services

open ApexLs.Collections ApexLs.Types

structure OpenEvent where
  uri : String
  version : Int
  text : String
  deriving DecidableEq, Repr

/-- What a compilation with a listener leaves: its errors, its parse tree, its symbol table where
there is one, and the table of the listener. -/
structure CompilationResult (ε τ π : Type) where
  errors : List ε
  parseTree : Option π
  result : Option τ
  listened : τ

structure OpenServices (δ ε τ π σ μ : Type) where
  compile : String → String → CompilationResult ε τ π
  getDiagnosticsFromErrors : List ε → List δ
  findSymbolsInFile : μ → String → List σ
  addSymbolTable : μ → τ → String → Int → Bool → μ

structure DocumentProcessingService (δ φ π μ : Type) where
  storage : OrderedMap String OpenEvent := .empty
  cache : DocumentStateCache δ φ π := {}
  symbolManager : μ

namespace DocumentProcessingService

section

variable {δ ε τ π σ μ φ : Type} (services : OpenServices δ ε τ π σ μ) (now : Nat)

def setDocument (w : DocumentProcessingService δ φ π μ) (event : OpenEvent) : DocumentProcessingService δ φ π μ :=
  { w with storage := w.storage.set event.uri event }

def getSymbolResult (w : DocumentProcessingService δ φ π μ) (event : OpenEvent) : Option (List δ) :=
  w.cache.getDiagnostics event.uri event.version

def hasSymbols (w : DocumentProcessingService δ φ π μ) (event : OpenEvent) : Bool :=
  !(services.findSymbolsInFile w.symbolManager event.uri).isEmpty

def compileEvent (event : OpenEvent) : CompilationResult ε τ π := services.compile event.text event.uri

def compiledState (event : OpenEvent) : PartialState δ φ π :=
  let compiled := compileEvent services event
  { diagnostics := some (some (services.getDiagnosticsFromErrors compiled.errors))
    parseTree := some compiled.parseTree
    detailLevel := some (some .publicApi)
    documentVersion := event.version
    symbolsIndexed := some (some false) }

/-- The cache and the symbol manager after a compilation that has brought the table. -/
def record (w : DocumentProcessingService δ φ π μ) (event : OpenEvent) (table : Option τ) :
    DocumentProcessingService δ φ π μ :=
  let compiled := compileEvent services event
  { w with
    cache := w.cache.merge event.uri (compiledState services event) now
    symbolManager :=
      match table with
      | some table =>
        services.addSymbolTable w.symbolManager table event.uri event.version (!compiled.errors.isEmpty)
      | none => w.symbolManager }

def compileSingle (w : DocumentProcessingService δ φ π μ) (event : OpenEvent) :
    List δ × DocumentProcessingService δ φ π μ :=
  let compiled := compileEvent services event
  (services.getDiagnosticsFromErrors compiled.errors,(w.setDocument event).record services now event compiled.result)

def processDocumentOpenSingle (w : DocumentProcessingService δ φ π μ) (event : OpenEvent) :
    List δ × DocumentProcessingService δ φ π μ :=
  match w.getSymbolResult event with
  | some diagnostics =>
    let w := w.setDocument event
    if w.hasSymbols services event then (diagnostics,w) else w.compileSingle services now event
  | none => w.compileSingle services now event

def processDocumentOpenInternal (w : DocumentProcessingService δ φ π μ) (event : OpenEvent) :
    List δ × DocumentProcessingService δ φ π μ :=
  w.processDocumentOpenSingle services now event

/-- The loop that separates the cached documents from the uncached ones, with both lists so far. -/
def separate (w : DocumentProcessingService δ φ π μ) (uncachedEvents : List OpenEvent) (cachedResults : List (List δ)) :
    List OpenEvent → List OpenEvent × List (List δ) × DocumentProcessingService δ φ π μ
  | [] => (uncachedEvents,cachedResults,w)
  | event :: events =>
    match w.getSymbolResult event with
    | some diagnostics =>
      let w := w.setDocument event
      let cachedResults := cachedResults ++ [diagnostics]
      -- a cache hit without symbols is in both lists
      if w.hasSymbols services event then w.separate uncachedEvents cachedResults events
      else w.separate (uncachedEvents ++ [event]) cachedResults events
    | none => w.separate (uncachedEvents ++ [event]) cachedResults events

/-- `processPostCompilationResultsEffect`. The table of the listener stands in for a missing result. -/
def processPostCompilationResults (w : DocumentProcessingService δ φ π μ) :
    List OpenEvent → List (List δ) × DocumentProcessingService δ φ π μ
  | [] => ([],w)
  | event :: events =>
    let compiled := compileEvent services event
    let table := compiled.result.getD compiled.listened
    let (results,after) :=
      ((w.setDocument event).record services now event (some table)).processPostCompilationResults events
    (services.getDiagnosticsFromErrors compiled.errors :: results,after)

def processDocumentOpenBatch (w : DocumentProcessingService δ φ π μ) (events : List OpenEvent) :
    List (List δ) × DocumentProcessingService δ φ π μ :=
  let (uncachedEvents,cachedResults,w) := w.separate services [] [] events
  let (results,w) := w.processPostCompilationResults services now uncachedEvents
  (cachedResults ++ results,w)

def answer (w : DocumentProcessingService δ φ π μ) (event : OpenEvent) : List δ :=
  (w.processDocumentOpenInternal services now event).1

/-- The batch answers like the single path, in order, and a flush of the batcher hands each waiting
opener the answer of its own event. -/
structure AnswersLikeSingles (w : DocumentProcessingService δ φ π μ) (events : List OpenEvent) : Prop where
  results : (w.processDocumentOpenBatch services now events).1 = events.map (w.answer services now)
  handed : ∀ (b : DocumentOpenBatcher (List δ)) (origin : Origin) (items : List OpenItem),
    items.map OpenItem.uri = events.map OpenEvent.uri →
    (b.settle (.flush origin (.batch items)) (.results (w.processDocumentOpenBatch services now events).1)).resolved =
      b.resolved ++ items.zip (events.map (w.answer services now))

def cached (w : DocumentProcessingService δ φ π μ) (event : OpenEvent) : Bool := (w.getSymbolResult event).isSome

/-- The events with the cached ones first, otherwise in their order. -/
def cachedFirst (w : DocumentProcessingService δ φ π μ) (events : List OpenEvent) : List OpenEvent :=
  events.filter w.cached ++ events.filter (fun event => !w.cached event)

/-- Every cached document of the batch has its symbols, and moving the cached ones to the front changes
no answer at any position. -/
structure InOrder (w : DocumentProcessingService δ φ π μ) (events : List OpenEvent) : Prop where
  whole : ∀ event ∈ events, w.cached event = true → w.hasSymbols services event = true
  alike : (w.cachedFirst events).map (w.answer services now) = events.map (w.answer services now)

variable {services now} {w : DocumentProcessingService δ φ π μ} {event : OpenEvent} {events : List OpenEvent}

def compiledDiagnostics (services : OpenServices δ ε τ π σ μ) (event : OpenEvent) : List δ :=
  services.getDiagnosticsFromErrors (compileEvent services event).errors

def compiles (services : OpenServices δ ε τ π σ μ) (w : DocumentProcessingService δ φ π μ) (event : OpenEvent) : Bool :=
  !(w.cached event && w.hasSymbols services event)

theorem answer_compiled (needs : w.compiles services event = true) :
    w.answer services now event = compiledDiagnostics services event := by
  rw [answer,processDocumentOpenInternal,processDocumentOpenSingle]
  cases hit : w.getSymbolResult event with
  | none => rfl
  | some diagnostics =>
    have missing : w.hasSymbols services event = false := by simpa [compiles,cached,hit] using needs
    have same : (w.setDocument event).hasSymbols services event = w.hasSymbols services event := rfl
    simp only [same,missing,Bool.false_eq_true,if_false]
    rfl

theorem answer_cached (hit : w.getSymbolResult event = some diagnostics) (found : w.hasSymbols services event = true) :
    w.answer services now event = diagnostics := by
  have same : (w.setDocument event).hasSymbols services event = w.hasSymbols services event := rfl
  rw [answer,processDocumentOpenInternal,processDocumentOpenSingle]
  simp only [hit,same,found,if_true]

theorem separate_spec (services : OpenServices δ ε τ π σ μ) (first w : DocumentProcessingService δ φ π μ)
    (cache : w.cache = first.cache) (manager : w.symbolManager = first.symbolManager) (uncachedEvents : List OpenEvent)
    (cachedResults : List (List δ)) (events : List OpenEvent) :
    (w.separate services uncachedEvents cachedResults events).1 = uncachedEvents ++ events.filter (first.compiles services) ∧
      (w.separate services uncachedEvents cachedResults events).2.1 =
        cachedResults ++ events.filterMap first.getSymbolResult := by
  induction events generalizing w uncachedEvents cachedResults with
  | nil => simp [separate]
  | cons event events ih =>
    have read : w.getSymbolResult event = first.getSymbolResult event := by rw [getSymbolResult,cache]; rfl
    have symbols : (w.setDocument event).hasSymbols services event = first.hasSymbols services event := by
      rw [hasSymbols,hasSymbols,← manager]
      rfl
    rw [separate,read]
    cases hit : first.getSymbolResult event with
    | none =>
      simp only
      have needs : first.compiles services event = true := by simp [compiles,cached,hit]
      obtain ⟨uncached,results⟩ := ih w cache manager (uncachedEvents ++ [event]) cachedResults
      rw [uncached,results,List.filter_cons_of_pos needs,List.filterMap_cons_none hit,List.append_assoc]
      exact ⟨rfl,rfl⟩
    | some diagnostics =>
      simp only [symbols]
      cases found : first.hasSymbols services event with
      | true =>
        have needs : ¬ first.compiles services event = true := by simp [compiles,cached,hit,found]
        obtain ⟨uncached,results⟩ := ih (w.setDocument event) cache manager uncachedEvents (cachedResults ++ [diagnostics])
        simp only [if_true]
        rw [uncached,results,List.filter_cons_of_neg needs,List.filterMap_cons_some hit,List.append_assoc]
        exact ⟨rfl,rfl⟩
      | false =>
        have needs : first.compiles services event = true := by simp [compiles,cached,hit,found]
        obtain ⟨uncached,results⟩ :=
          ih (w.setDocument event) cache manager (uncachedEvents ++ [event]) (cachedResults ++ [diagnostics])
        simp only [Bool.false_eq_true,if_false]
        rw [uncached,results,List.filter_cons_of_pos needs,List.filterMap_cons_some hit,List.append_assoc,
          List.append_assoc]
        exact ⟨rfl,rfl⟩

theorem processPostCompilationResults_results (services : OpenServices δ ε τ π σ μ) (now : Nat)
    (w : DocumentProcessingService δ φ π μ) (events : List OpenEvent) :
    (w.processPostCompilationResults services now events).1 = events.map (compiledDiagnostics services) := by
  induction events generalizing w with
  | nil => rfl
  | cons event events ih =>
    rw [processPostCompilationResults,List.map_cons,← ih]
    rfl

theorem batch_results (services : OpenServices δ ε τ π σ μ) (now : Nat) (w : DocumentProcessingService δ φ π μ)
    (events : List OpenEvent) :
    (w.processDocumentOpenBatch services now events).1 =
      events.filterMap w.getSymbolResult ++
        (events.filter (w.compiles services)).map (compiledDiagnostics services) := by
  obtain ⟨uncached,results⟩ := separate_spec services w w rfl rfl [] [] events
  rw [processDocumentOpenBatch]
  simp only
  rw [processPostCompilationResults_results,uncached,results,List.nil_append,List.nil_append]

theorem length_results (services : OpenServices δ ε τ π σ μ) (w : DocumentProcessingService δ φ π μ)
    (events : List OpenEvent) :
    (events.filterMap w.getSymbolResult).length + (events.filter (w.compiles services)).length =
      events.length + events.countP (fun event => w.cached event && !w.hasSymbols services event) := by
  induction events with
  | nil => rfl
  | cons event events ih =>
    rw [List.filterMap_cons,List.filter_cons,List.countP_cons]
    cases hit : w.getSymbolResult event <;> cases found : w.hasSymbols services event <;>
      simp [compiles,cached,hit,found] <;> simp [cached] at ih <;> omega

theorem batch_cachedFirst (whole : ∀ event ∈ events, w.cached event = true → w.hasSymbols services event = true) :
    (w.processDocumentOpenBatch services now events).1 = (w.cachedFirst events).map (w.answer services now) := by
  rw [batch_results,cachedFirst,List.map_append]
  congr 1
  · induction events with
    | nil => rfl
    | cons event events ih =>
      have rest := ih (fun other member => whole other (List.mem_cons_of_mem _ member))
      cases hit : w.getSymbolResult event with
      | none =>
        rw [List.filterMap_cons_none hit,List.filter_cons_of_neg (by simp [cached,hit]),rest]
      | some diagnostics =>
        have own : w.cached event = true := by rw [cached,hit]; rfl
        rw [List.filterMap_cons_some hit,List.filter_cons_of_pos own,List.map_cons,rest,
          answer_cached hit (whole event List.mem_cons_self own)]
  · have same : events.filter (w.compiles services) = events.filter (fun event => !w.cached event) := by
      apply List.filter_congr
      intro event member
      cases own : w.cached event with
      | false => simp [compiles,own]
      | true => simp [compiles,own,whole event member own]
    rw [← same]
    apply List.map_congr_left
    intro event member
    exact (answer_compiled (List.mem_filter.mp member).2).symm

theorem settle_resolved (b : DocumentOpenBatcher ρ) (origin : Origin) (items : List OpenItem) (results : List ρ) :
    (b.settle (.flush origin (.batch items)) (.results results)).resolved = b.resolved ++ items.zip results := by
  rw [DocumentOpenBatcher.settle,DocumentOpenBatcher.answers_spec]
  cases items.drop results.length with
  | nil => rfl
  | cons item rest => rfl

/-- A batch answers like single opens if and only if every cached document in it has its symbols and
answering the cached ones first makes no difference. -/
theorem answersLikeSingles_iff (services : OpenServices δ ε τ π σ μ) (now : Nat)
    (w : DocumentProcessingService δ φ π μ) (events : List OpenEvent) :
    w.AnswersLikeSingles services now events ↔ w.InOrder services now events := by
  constructor
  · intro like
    have whole : ∀ event ∈ events, w.cached event = true → w.hasSymbols services event = true := by
      have long := congrArg List.length like.results
      rw [batch_results,List.length_append,List.length_map,List.length_map,length_results services] at long
      have none_ := List.countP_eq_zero.mp (by omega :
        events.countP (fun event => w.cached event && !w.hasSymbols services event) = 0)
      intro event member own
      simpa [own] using none_ event member
    exact ⟨whole,by rw [← batch_cachedFirst whole]; exact like.results⟩
  · intro ordered
    have results := (batch_cachedFirst ordered.whole).trans ordered.alike
    refine ⟨results,fun b origin items _ => ?_⟩
    rw [settle_resolved,results]

end

def oneSymbolEach : OpenServices String String (List String) Unit String (List String) where
  compile text uri := ⟨if text = "class" then ["missing name"] else [],none,some [uri],[]⟩
  getDiagnosticsFromErrors errors := errors
  findSymbolsInFile manager uri := manager.filter (· = uri)
  addSymbolTable manager table _ _ _ := manager ++ table

/-- `Known.cls` is in the cache, and its symbols are in the symbol manager. -/
def oneKnown : DocumentProcessingService String Unit Unit (List String) where
  cache := ({} : DocumentStateCache String Unit Unit).merge "file:///Known.cls"
    { diagnostics := some (some []),documentVersion := 1 } 0
  symbolManager := ["file:///Known.cls"]

/-- The errors of the new document are handed to the opener of the known one. -/
theorem mixed_batch_shifted : ¬ ∀ events, oneKnown.AnswersLikeSingles oneSymbolEach 0 events := by
  intro like
  have results := (like [⟨"file:///New.cls",1,"class"⟩,⟨"file:///Known.cls",1,"class Known {}"⟩]).results
  revert results
  decide +kernel

end DocumentProcessingService

end ApexLs.Services
