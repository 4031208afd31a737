import ApexLs.Server.SymbolReadiness
import ApexLs.Symbols.DeferredDrain
import ApexLs.Symbols.PublishedTables

/-! Which text the symbols of a file were compiled from when a request is told that they are ready.
The document, the latch, the cached state and the registered table each keep a version of their own. -/
namespace ApexLs.Server

open ApexLs.Collections ApexLs.Utils ApexLs.Types ApexLs.Symbols ApexLs.Services

structure Handed where
  uri : String
  version : Nat
  content : String
  symbolTable : SymbolTable
  hasErrors : Bool
  level : DetailLevel
  now : Nat

def Compilation.handed (compiled : Compilation) (now : Nat) : Handed where
  uri := compiled.uri
  version := compiled.version
  content := compiled.content
  symbolTable := compiled.symbolTable
  hasErrors := 0 < compiled.parserDiagnostics
  level := .publicApi
  now := now

def OwnerCommand.handed : OwnerCommand → Option Handed
  | .compileDocument compiled now => some (compiled.handed now)
  | .workspaceBatchCompile compiled now => some (compiled.handed now)
  | .updateSymbolSubset update now =>
    some ⟨update.uri,update.documentVersion,update.content,update.enrichedSymbolTable,false,update.enrichedDetailLevel,now⟩
  | _ => none

def lastEntry (entries : List WorkerDocument) (uri : String) : Option WorkerDocument :=
  entries.reverse.find? (fun entry => entry.uri = uri)

def fileKey [Runtime] (fileUri : String) : String := toLowerCase (extractFilePathFromUri fileUri)

namespace DataOwner

variable [Runtime]

/-- What the registration of a table that comes off the wire next is decided from. -/
def inputs (o : DataOwner) (handed : Handed) : DecisionInputs :=
  (o.reconstruct handed.symbolTable).inputs (o.tableCall handed.uri handed.version handed.hasErrors)

def publishedFor (o : DataOwner) (handed : Handed) : String :=
  (SymbolManager.registration (o.tableCall handed.uri handed.version handed.hasErrors)).fileUri

def askedFor (uri : String) : String := extractFilePathFromUri (createFileUri uri)

def merged (o : DataOwner) (handed : Handed) : DataOwner := o.mergeState handed.uri handed.version handed.level handed.now

end DataOwner

/-- The owner beside the texts that went into each table and the document of the last command, if
that was answered as accepted. -/
structure TextHistory [Runtime] where
  owner : DataOwner
  sources : TableRef → List String := fun _ => []
  committed : Option String := none

namespace TextHistory

variable [Runtime]

/-- The texts in the tables after one was accepted: the new table holds its own text and, where it
is merged with the stored one, the texts of that. -/
def sourcesAfter (h : TextHistory) (handed : Handed) (t : TableRef) : List String :=
  if t = .parsed h.owner.reconstructed then
    handed.content :: (if (h.owner.inputs handed).supersedes then []
      else (h.owner.symbolManager.graph.registered (h.owner.publishedFor handed)).elim [] h.sources)
  else h.sources t

def step (h : TextHistory) (c : OwnerCommand) : TextHistory :=
  match c.handed with
  | some handed =>
    if h.owner.accepts c then
      { owner := h.owner.step c,sources := h.sourcesAfter handed,committed := some handed.uri }
    else { owner := h.owner.step c,sources := h.sources }
  | none => { owner := h.owner.step c,sources := h.sources }

def MadeFrom (h : TextHistory) (t : TableRef) (text : String) : Prop :=
  h.sources t ≠ [] ∧ ∀ source ∈ h.sources t, source = text

def KeptUp (h : TextHistory) (uri : String) (text : String) : Prop :=
  ∀ t, getSymbolTableForFile h.owner.symbolManager uri = some t → h.MadeFrom t text

/-- Whoever is told that the symbols of a stored document are ready gets those of its text, and a
commit that was just answered as accepted left such a table. -/
structure Truthful (h : TextHistory) : Prop where
  ready : ∀ uri doc version, h.owner.storage.get? uri = some doc →
    h.owner.peekReadiness uri version = .ready ∨ h.owner.peekAgain uri version = true →
    ∃ t, getSymbolTableForFile h.owner.symbolManager uri = some t ∧ h.MadeFrom t doc.text
  committed : ∀ uri, h.committed = some uri → ∃ doc t, h.owner.storage.get? uri = some doc ∧
    getSymbolTableForFile h.owner.symbolManager uri = some t ∧ h.MadeFrom t doc.text

/-- What a text must be to that what a commit leaves registered is made from it. -/
structure Fits (h : TextHistory) (handed : Handed) (uri text : String) : Prop where
  brought : (h.owner.inputs handed).outdated = false → handed.content = text
  retained : (h.owner.inputs handed).supersedes = false → h.KeptUp uri text

/-- When an accepted commit is truthful. The documents it must fit are its own and those under other
URIs of the same file whose latch is reached. -/
structure Fitting (h : TextHistory) (handed : Handed) : Prop where
  own : fileKey (DataOwner.askedFor handed.uri) = fileKey (h.owner.publishedFor handed) →
    ∀ doc, h.owner.storage.get? handed.uri = some doc → h.Fits handed handed.uri doc.text
  elsewhere : fileKey (DataOwner.askedFor handed.uri) ≠ fileKey (h.owner.publishedFor handed) →
    ∀ doc, h.owner.storage.get? handed.uri = some doc →
      ∃ t, getSymbolTableForFile h.owner.symbolManager handed.uri = some t ∧ h.MadeFrom t doc.text
  aliases : ∀ uri doc, uri ≠ handed.uri → fileKey (DataOwner.askedFor uri) = fileKey (h.owner.publishedFor handed) →
    h.owner.storage.get? uri = some doc → (h.owner.merged handed).isCurrent uri = true → h.Fits handed uri doc.text

/-- What keeps the answers truthful. A version the cache has reached already is stored only with the
text of the registered table, and so is whatever an ingest stores while the file counts as
current; an accepted commit fits the stored text. -/
def Sound (h : TextHistory) : OwnerCommand → Prop
  | .dispatchDocumentOpen uri _ version content =>
    (version : Int) ≤ h.owner.mergedVersion uri → h.KeptUp uri content
  | .dispatchDocumentChange uri version content => (version : Int) ≤ h.owner.mergedVersion uri → h.KeptUp uri content
  | .dispatchDocumentSave uri version content => (version : Int) ≤ h.owner.mergedVersion uri → h.KeptUp uri content
  | .workspaceBatchIngest entries =>
    ∀ uri doc, lastEntry entries uri = some doc → h.owner.isCurrent uri = true → h.KeptUp uri doc.text
  | c => ∀ handed, c.handed = some handed → h.owner.accepts c = true → h.Fitting handed

def Numbered (h : TextHistory) : Prop :=
  ∀ file t, h.owner.symbolManager.graph.registered file = some t →
    (∃ n, t = .parsed n ∧ n < h.owner.reconstructed) ∧ h.sources t ≠ []

variable {h h' : TextHistory}

theorem truthful_iff : h.Truthful ↔
    (∀ uri doc, h.owner.storage.get? uri = some doc → h.owner.isCurrent uri = true → h.KeptUp uri doc.text) ∧
      ∀ uri, h.committed = some uri → ∃ doc t, h.owner.storage.get? uri = some doc ∧
        getSymbolTableForFile h.owner.symbolManager uri = some t ∧ h.MadeFrom t doc.text := by
  constructor
  · refine fun truthful => ⟨fun uri doc stored current t found => ?_,truthful.committed⟩
    have present : h.owner.hasSymbols uri = true := by
      simp [DataOwner.hasSymbols,found]
    obtain ⟨version,answered⟩ := DataOwner.ready_iff.mpr ⟨present,current⟩
    obtain ⟨t',found',made⟩ := truthful.ready uri doc version stored answered
    obtain rfl := Option.some.inj (found.symm.trans found')
    exact made
  · rintro ⟨kept,committed⟩
    refine ⟨fun uri doc version stored answered => ?_,committed⟩
    obtain ⟨present,current⟩ := DataOwner.ready_iff.mp ⟨version,answered⟩
    obtain ⟨t,found⟩ := Option.isSome_iff_exists.mp present
    exact ⟨t,found,kept uri doc stored current t found⟩

structure SameTables (h h' : TextHistory) : Prop where
  symbolManager : h'.owner.symbolManager = h.owner.symbolManager
  reconstructed : h'.owner.reconstructed = h.owner.reconstructed
  sources : h'.sources = h.sources
  committed : h'.committed = none

theorem SameTables.keptUp (same : SameTables h h') {uri text : String} : h'.KeptUp uri text ↔ h.KeptUp uri text := by
  simp only [KeptUp,MadeFrom,same.symbolManager,same.sources]

theorem SameTables.numbered (same : SameTables h h') (numbered : h.Numbered) : h'.Numbered := by
  simp only [Numbered,same.symbolManager,same.reconstructed,same.sources]
  exact numbered

theorem truthful_of_sameTables (same : SameTables h h') (truthful : h.Truthful) (changed : String → WorkerDocument → Prop)
    (others : ∀ uri doc, h'.owner.storage.get? uri = some doc → h'.owner.isCurrent uri = true → ¬ changed uri doc →
      h.owner.storage.get? uri = some doc ∧ h.owner.isCurrent uri = true)
    (these : ∀ uri doc, changed uri doc → h'.owner.storage.get? uri = some doc) :
    h'.Truthful ↔ ∀ uri doc, changed uri doc → h'.owner.isCurrent uri = true → h.KeptUp uri doc.text := by
  rw [truthful_iff]
  constructor
  · rintro ⟨kept,_⟩ uri doc member current
    exact same.keptUp.mp (kept uri doc (these uri doc member) current)
  · intro kept
    refine ⟨fun uri doc stored current => same.keptUp.mpr ?_,fun uri found => ?_⟩
    · by_cases member : changed uri doc
      · exact kept uri doc member current
      · obtain ⟨before,current'⟩ := others uri doc stored current member
        exact (truthful_iff.mp truthful).1 uri doc before current'
    · rw [same.committed] at found
      cases found

theorem storeAndArm_truthful (truthful : h.Truthful) (doc : WorkerDocument) :
    ({ owner := h.owner.storeAndArm doc,sources := h.sources } : TextHistory).Truthful ↔
      ((doc.version : Int) ≤ h.owner.mergedVersion doc.uri → h.KeptUp doc.uri doc.text) := by
  obtain ⟨storage,same,armed⟩ := DataOwner.storeAndArm_spec h.owner doc
  have current : ∀ uri, (h.owner.storeAndArm doc).isCurrent uri =
      ((if uri = doc.uri then some doc.version else h.owner.armed uri).all fun version : Nat =>
        (version : Int) ≤ h.owner.mergedVersion uri) := by
    intro uri
    simp only [DataOwner.isCurrent,armed,same.mergedVersion]
  have tables : SameTables h { owner := h.owner.storeAndArm doc,sources := h.sources } :=
    ⟨same.symbolManager,same.reconstructed,rfl,rfl⟩
  rw [truthful_of_sameTables tables truthful (fun uri d => uri = doc.uri ∧ d = doc)]
  · constructor
    · intro kept reached
      exact kept doc.uri doc ⟨rfl,rfl⟩ (by simpa [current] using reached)
    · rintro kept uri d ⟨rfl,rfl⟩ now
      exact kept (by simpa [current] using now)
  · intro uri d stored now unchanged
    have apart : uri ≠ doc.uri := by
      rintro rfl
      simp only [storage,OrderedMap.get?_set_self] at stored
      exact unchanged ⟨rfl,(Option.some.inj stored).symm⟩
    simp only [storage,OrderedMap.get?_set_of_ne _ _ apart] at stored
    simp only [current,if_neg apart] at now
    exact ⟨stored,now⟩
  · rintro uri d ⟨rfl,rfl⟩
    simp [storage]

theorem truthful_of_less (same : SameTables h h') (truthful : h.Truthful)
    (less : ∀ uri doc, h'.owner.storage.get? uri = some doc → h'.owner.isCurrent uri = true →
      h.owner.storage.get? uri = some doc ∧ h.owner.isCurrent uri = true) : h'.Truthful :=
  (truthful_of_sameTables same truthful (fun _ _ => False) (fun uri doc stored current _ => less uri doc stored current)
    (fun _ _ => False.elim)).mpr fun _ _ => False.elim

theorem truthful_of_sameRecords (truthful : h.Truthful) {o : DataOwner} (same : DataOwner.SameRecords h.owner o) :
    SameTables h { owner := o,sources := h.sources } ∧ ({ owner := o,sources := h.sources } : TextHistory).Truthful := by
  have tables : SameTables h { owner := o,sources := h.sources } := ⟨same.symbolManager,same.reconstructed,rfl,rfl⟩
  refine ⟨tables,truthful_of_less tables truthful fun uri doc stored current => ?_⟩
  have merged : o.mergedVersion uri = h.owner.mergedVersion uri := by
    simp only [DataOwner.mergedVersion,same.documentStateCache]
  refine ⟨same.storage ▸ stored,?_⟩
  simpa only [DataOwner.isCurrent,same.armed,merged] using current

theorem workspaceBatchIngest_truthful (truthful : h.Truthful) (entries : List WorkerDocument) :
    ({ owner := h.owner.workspaceBatchIngest entries,sources := h.sources } : TextHistory).Truthful ↔
      ∀ uri doc, lastEntry entries uri = some doc → h.owner.isCurrent uri = true → h.KeptUp uri doc.text := by
  obtain ⟨same,latches,storage⟩ := DataOwner.workspaceBatchIngest_spec h.owner entries
  have tables : SameTables h { owner := h.owner.workspaceBatchIngest entries,sources := h.sources } :=
    ⟨same.symbolManager,same.reconstructed,rfl,rfl⟩
  have current : ∀ uri, (h.owner.workspaceBatchIngest entries).isCurrent uri = h.owner.isCurrent uri := by
    intro uri
    simp only [DataOwner.isCurrent,DataOwner.armed,latches,same.mergedVersion]
  rw [truthful_of_sameTables tables truthful (fun uri d => lastEntry entries uri = some d)]
  · simp only [current]
  · intro uri d stored now unchanged
    refine ⟨?_,(current uri).symm.trans now⟩
    cases last : lastEntry entries uri with
    | none =>
      rw [lastEntry] at last
      simpa [storage,last] using stored
    | some d' =>
      rw [lastEntry] at last
      have same' : d' = d := by simpa [storage,last] using stored
      exact absurd (same' ▸ last) unchanged
  · intro uri d last
    rw [lastEntry] at last
    simp [storage,last]

theorem Numbered.new (numbered : h.Numbered) (t : SymbolTable) (file : String) :
    (h.owner.reconstruct t).graph.registered file ≠ some (.parsed h.owner.reconstructed) := by
  intro found
  obtain ⟨⟨n,same,less⟩,_⟩ := numbered file _ found
  cases same
  exact absurd less (lt_irrefl _)

structure Accepted (h h' : TextHistory) (handed : Handed) (doc : WorkerDocument) : Prop where
  stored : h.owner.storage.get? handed.uri = some doc
  storage : h'.owner.storage = h.owner.storage
  reconstructed : h'.owner.reconstructed = h.owner.reconstructed + 1
  armed : ∀ uri, h'.owner.armed uri = h.owner.armed uri
  merged : ∀ uri, h'.owner.mergedVersion uri = (h.owner.merged handed).mergedVersion uri
  symbolManager : h'.owner.symbolManager = (h.owner.reconstruct handed.symbolTable).addSymbolTable
    (h.owner.tableCall handed.uri handed.version handed.hasErrors)
  sources : h'.sources = h.sourcesAfter handed
  committed : h'.committed = some handed.uri

theorem accepted_of_records {o : DataOwner} {handed : Handed} (stored : h.owner.storage.get? handed.uri = some doc)
    (records : DataOwner.Records h.owner o handed.uri handed.version handed.level handed.now handed.symbolTable
      handed.hasErrors) :
    Accepted h { owner := o,sources := h.sourcesAfter handed,committed := some handed.uri } handed doc where
  stored := stored
  storage := records.storage
  reconstructed := records.reconstructed
  armed := records.armed
  merged uri := by
    simp only [DataOwner.mergedVersion,records.documentStateCache,DataOwner.merged]
  symbolManager := records.symbolManager
  sources := rfl
  committed := rfl

theorem handed_cases {c : OwnerCommand} {handed : Handed} (of_ : c.handed = some handed) :
    (h.owner.accepts c = false ∧ DataOwner.SameRecords h.owner (h.owner.step c) ∧
      h.step c = { owner := h.owner.step c,sources := h.sources }) ∨
    (h.owner.accepts c = true ∧ ∃ doc, Accepted h (h.step c) handed doc) := by
  have unfolded : h.step c = if h.owner.accepts c then
      { owner := h.owner.step c,sources := h.sourcesAfter handed,committed := some handed.uri }
      else { owner := h.owner.step c,sources := h.sources } := by
    simp only [step,of_]
  rw [unfolded]
  cases c with
  | compileDocument compiled now =>
    cases of_
    rcases h.owner.commit_cases compiled now with ⟨refused,_,same⟩ | ⟨doc,stored,_,accepted,records⟩
    · have no : h.owner.accepts (.compileDocument compiled now) = false := by
        simp [DataOwner.accepts,DataOwner.compileDocument,refused]
      exact .inl ⟨no,same,by simp [no]⟩
    · have yes : h.owner.accepts (.compileDocument compiled now) = true := by
        simp [DataOwner.accepts,DataOwner.compileDocument,accepted]
      rw [if_pos yes]
      exact .inr ⟨yes,doc,accepted_of_records stored records⟩
  | workspaceBatchCompile compiled now =>
    cases of_
    rcases h.owner.commit_cases compiled now with ⟨refused,_,same⟩ | ⟨doc,stored,_,accepted,records⟩
    · have no : h.owner.accepts (.workspaceBatchCompile compiled now) = false := refused
      exact .inl ⟨no,same,by simp [no]⟩
    · have yes : h.owner.accepts (.workspaceBatchCompile compiled now) = true := accepted
      rw [if_pos yes]
      exact .inr ⟨yes,doc,accepted_of_records stored records⟩
  | updateSymbolSubset update now =>
    cases of_
    rcases h.owner.updateSymbolSubset_cases update now with ⟨refused,_,same⟩ | ⟨doc,stored,_,_,accepted,records⟩
    · have no : h.owner.accepts (.updateSymbolSubset update now) = false := refused
      exact .inl ⟨no,same,by simp [no]⟩
    · have yes : h.owner.accepts (.updateSymbolSubset update now) = true := accepted
      rw [if_pos yes]
      exact .inr ⟨yes,doc,accepted_of_records stored records⟩
  | _ => cases of_

namespace Accepted

variable {handed : Handed} {doc : WorkerDocument}

theorem registered (accepted : Accepted h h' handed doc) (numbered : h.Numbered) (file : String) :
    h'.owner.symbolManager.graph.registered file =
      if fileKey file = fileKey (h.owner.publishedFor handed) ∧ (h.owner.inputs handed).outdated = false then
        some (.parsed h.owner.reconstructed)
      else h.owner.symbolManager.graph.registered file := by
  rw [accepted.symbolManager]
  exact SymbolManager.addSymbolTable_registered _ (h.owner.tableCall handed.uri handed.version handed.hasErrors)
    (numbered.new handed.symbolTable) file

theorem madeFrom (accepted : Accepted h h' handed doc) (numbered : h.Numbered)
    (known : h.owner.symbolManager.graph.registered file = some t) : h'.MadeFrom t text ↔ h.MadeFrom t text := by
  obtain ⟨⟨n,rfl,less⟩,_⟩ := numbered file t known
  have apart : TableRef.parsed n ≠ .parsed h.owner.reconstructed := by
    rintro ⟨⟩
    exact absurd less (lt_irrefl _)
  simp only [MadeFrom,accepted.sources,sourcesAfter,if_neg apart]

theorem numbered (accepted : Accepted h h' handed doc) (numbered : h.Numbered) : h'.Numbered := by
  intro file t found
  rw [accepted.registered numbered] at found
  rw [accepted.reconstructed,accepted.sources]
  split at found
  next =>
    obtain rfl := Option.some.inj found
    exact ⟨⟨_,rfl,Nat.lt_succ_self _⟩,by simp [sourcesAfter]⟩
  next =>
    obtain ⟨⟨n,rfl,less⟩,sources⟩ := numbered file t found
    have apart : TableRef.parsed n ≠ .parsed h.owner.reconstructed := by
      rintro ⟨⟩
      exact absurd less (lt_irrefl _)
    exact ⟨⟨n,rfl,less.trans (Nat.lt_succ_self _)⟩,by simpa [sourcesAfter,apart] using sources⟩

theorem madeFrom_new (accepted : Accepted h h' handed doc) (numbered : h.Numbered) :
    h'.MadeFrom (.parsed h.owner.reconstructed) text ↔ handed.content = text ∧
      ((h.owner.inputs handed).supersedes = false → ∀ t,
        h.owner.symbolManager.graph.registered (h.owner.publishedFor handed) = some t → h.MadeFrom t text) := by
  simp only [MadeFrom,accepted.sources,sourcesAfter,if_true]
  cases superseded : (h.owner.inputs handed).supersedes with
  | true => simp
  | false =>
    cases found : h.owner.symbolManager.graph.registered (h.owner.publishedFor handed) with
    | none => simp
    | some t =>
      have texts := (numbered _ t found).2
      simp [texts]

theorem stored_of_outdated (outdated : (h.owner.inputs handed).outdated = true) :
    ∃ t, h.owner.symbolManager.graph.registered (h.owner.publishedFor handed) = some t := by
  cases found : h.owner.symbolManager.graph.registered (h.owner.publishedFor handed) with
  | some t => exact ⟨t,rfl⟩
  | none =>
    have none_ : (h.owner.inputs handed).storedVersion = none := by
      change ((h.owner.symbolManager.graph.registered (h.owner.publishedFor handed)).map _) = none
      rw [found]
      rfl
    simp [DecisionInputs.outdated,none_] at outdated

theorem retained_of_outdated (outdated : (h.owner.inputs handed).outdated = true) :
    (h.owner.inputs handed).supersedes = false := by
  unfold DecisionInputs.outdated at outdated
  unfold DecisionInputs.supersedes
  cases stored : (h.owner.inputs handed).storedVersion with
  | none => simp [stored] at outdated
  | some version =>
    simp only [stored,Option.any_some,decide_eq_true_eq,Option.all_some,Bool.and_eq_false_iff,
      decide_eq_false_iff_not] at outdated ⊢
    exact .inl (not_lt.mpr outdated.le)

theorem keptUp_same (accepted : Accepted h h' handed doc) (numbered : h.Numbered)
    (same : fileKey (DataOwner.askedFor uri) = fileKey (h.owner.publishedFor handed)) (text : String) :
    (∃ t, getSymbolTableForFile h'.owner.symbolManager uri = some t) ∧
      (h'.KeptUp uri text ↔ h.Fits handed uri text) := by
  have asked : h.owner.symbolManager.graph.registered (DataOwner.askedFor uri) =
      h.owner.symbolManager.graph.registered (h.owner.publishedFor handed) :=
    congrArg h.owner.symbolManager.graph.fileToSymbolTable.lookup same
  have found : getSymbolTableForFile h'.owner.symbolManager uri = _ := accepted.registered numbered (DataOwner.askedFor uri)
  cases outdated : (h.owner.inputs handed).outdated with
  | true =>
    simp only [outdated,Bool.true_eq_false,and_false,if_false,asked] at found
    obtain ⟨t,stored⟩ := stored_of_outdated outdated
    refine ⟨⟨t,found.trans stored⟩,?_⟩
    have kept : h'.KeptUp uri text ↔ h.KeptUp uri text := by
      simp only [KeptUp,found]
      apply forall_congr'
      intro t'
      have before : getSymbolTableForFile h.owner.symbolManager uri =
        h.owner.symbolManager.graph.registered (h.owner.publishedFor handed) := asked
      rw [before]
      exact imp_congr_right fun known => accepted.madeFrom numbered known
    rw [kept]
    constructor
    · exact fun keeps => ⟨fun current => absurd (outdated.symm.trans current) (by simp),fun _ => keeps⟩
    · exact fun fits => fits.retained (retained_of_outdated outdated)
  | false =>
    rw [if_pos ⟨same,outdated⟩] at found
    refine ⟨⟨_,found⟩,?_⟩
    have kept : h'.KeptUp uri text ↔ h'.MadeFrom (.parsed h.owner.reconstructed) text := by
      simp [KeptUp,found]
    rw [kept,accepted.madeFrom_new numbered]
    constructor
    · rintro ⟨brought,retained⟩
      exact ⟨fun _ => brought,fun merges t known => retained merges t (asked.symm.trans known)⟩
    · exact fun fits => ⟨fits.brought outdated,fun merges t known => fits.retained merges t (asked.trans known)⟩

theorem keptUp_other (accepted : Accepted h h' handed doc) (numbered : h.Numbered)
    (apart : fileKey (DataOwner.askedFor uri) ≠ fileKey (h.owner.publishedFor handed)) (text : String) :
    getSymbolTableForFile h'.owner.symbolManager uri = getSymbolTableForFile h.owner.symbolManager uri ∧
      (h'.KeptUp uri text ↔ h.KeptUp uri text) := by
  have found : getSymbolTableForFile h'.owner.symbolManager uri = getSymbolTableForFile h.owner.symbolManager uri := by
    have after := accepted.registered numbered (DataOwner.askedFor uri)
    rw [if_neg (fun both => apart both.1)] at after
    exact after
  refine ⟨found,?_⟩
  simp only [KeptUp,found]
  apply forall_congr'
  intro t
  exact imp_congr_right fun known => accepted.madeFrom numbered known

theorem isCurrent (accepted : Accepted h h' handed doc) (uri : String) :
    h'.owner.isCurrent uri = (h.owner.merged handed).isCurrent uri := by
  have same : (h.owner.merged handed).armed uri = h.owner.armed uri := rfl
  simp only [DataOwner.isCurrent,accepted.armed,accepted.merged,same]

theorem truthful_iff (accepted : Accepted h h' handed doc) (numbered : h.Numbered) (truthful : h.Truthful) :
    h'.Truthful ↔ h.Fitting handed := by
  rw [TextHistory.truthful_iff]
  constructor
  · rintro ⟨kept,committed⟩
    obtain ⟨d,t,stored,found,made⟩ := committed handed.uri accepted.committed
    rw [accepted.storage] at stored
    have whole : h'.KeptUp handed.uri d.text := by
      intro t' found'
      obtain rfl := Option.some.inj (found.symm.trans found')
      exact made
    refine ⟨fun same d' stored' => ?_,fun apart d' stored' => ?_,fun uri d' apart same stored' current => ?_⟩
    · obtain rfl := Option.some.inj (stored.symm.trans stored')
      exact (accepted.keptUp_same numbered same _).2.mp whole
    · obtain rfl := Option.some.inj (stored.symm.trans stored')
      obtain ⟨before,keeps⟩ := accepted.keptUp_other numbered apart d.text
      have known := before.symm.trans found
      exact ⟨t,known,keeps.mp whole t known⟩
    · exact (accepted.keptUp_same numbered same _).2.mp
        (kept uri d' (accepted.storage ▸ stored') ((accepted.isCurrent uri).trans current))
  · intro fitting
    have own : ∀ d, h.owner.storage.get? handed.uri = some d → h'.KeptUp handed.uri d.text ∧
        ∃ t, getSymbolTableForFile h'.owner.symbolManager handed.uri = some t := by
      intro d stored
      by_cases same : fileKey (DataOwner.askedFor handed.uri) = fileKey (h.owner.publishedFor handed)
      · obtain ⟨present,keeps⟩ := accepted.keptUp_same numbered same d.text
        exact ⟨keeps.mpr (fitting.own same d stored),present⟩
      · obtain ⟨before,keeps⟩ := accepted.keptUp_other numbered same d.text
        obtain ⟨t,found,made⟩ := fitting.elsewhere same d stored
        refine ⟨keeps.mpr fun t' found' => ?_,t,before.trans found⟩
        obtain rfl := Option.some.inj (found.symm.trans found')
        exact made
    refine ⟨fun uri d stored current => ?_,fun uri found => ?_⟩
    · rw [accepted.storage] at stored
      by_cases here : uri = handed.uri
      · exact here ▸ (own d (here ▸ stored)).1
      · rw [accepted.isCurrent uri] at current
        by_cases same : fileKey (DataOwner.askedFor uri) = fileKey (h.owner.publishedFor handed)
        · exact (accepted.keptUp_same numbered same _).2.mpr (fitting.aliases uri d here same stored current)
        · apply (accepted.keptUp_other numbered same _).2.mpr
          exact (TextHistory.truthful_iff.mp truthful).1 uri d stored (DataOwner.mergeState_isCurrent here current)
    · obtain rfl : handed.uri = uri := Option.some.inj (accepted.committed.symm.trans found)
      obtain ⟨keeps,t,present⟩ := own doc accepted.stored
      exact ⟨doc,t,accepted.storage ▸ accepted.stored,present,keeps t present⟩

end Accepted

theorem storeAndArm_step (numbered : h.Numbered) (truthful : h.Truthful) (doc : WorkerDocument) :
    (({ owner := h.owner.storeAndArm doc,sources := h.sources } : TextHistory).Truthful ↔
      ((doc.version : Int) ≤ h.owner.mergedVersion doc.uri → h.KeptUp doc.uri doc.text)) ∧
    ({ owner := h.owner.storeAndArm doc,sources := h.sources } : TextHistory).Numbered := by
  obtain ⟨_,same,_⟩ := DataOwner.storeAndArm_spec h.owner doc
  have tables : SameTables h { owner := h.owner.storeAndArm doc,sources := h.sources } :=
    ⟨same.symbolManager,same.reconstructed,rfl,rfl⟩
  exact ⟨storeAndArm_truthful truthful doc,tables.numbered numbered⟩

theorem dispatchDocumentClose_truthful (truthful : h.Truthful) (uri : String) :
    SameTables h { owner := h.owner.dispatchDocumentClose uri,sources := h.sources } ∧
      ({ owner := h.owner.dispatchDocumentClose uri,sources := h.sources } : TextHistory).Truthful := by
  obtain ⟨storage,same,armed⟩ := DataOwner.dispatchDocumentClose_spec h.owner uri
  have tables : SameTables h { owner := h.owner.dispatchDocumentClose uri,sources := h.sources } :=
    ⟨same.symbolManager,same.reconstructed,rfl,rfl⟩
  refine ⟨tables,truthful_of_less tables truthful fun other doc stored current => ?_⟩
  have apart : other ≠ uri := by
    rintro rfl
    simp [storage] at stored
  simp only [storage,OrderedMap.get?_erase_of_ne _ apart] at stored
  refine ⟨stored,?_⟩
  simpa only [DataOwner.isCurrent,armed other apart,same.mergedVersion] using current

theorem closeFinishes_truthful (truthful : h.Truthful) (uri : String) :
    SameTables h { owner := h.owner.closeFinishes uri,sources := h.sources } ∧
      ({ owner := h.owner.closeFinishes uri,sources := h.sources } : TextHistory).Truthful := by
  obtain ⟨storage,manager,reconstructed,current⟩ := DataOwner.closeFinishes_spec h.owner uri
  have tables : SameTables h { owner := h.owner.closeFinishes uri,sources := h.sources } :=
    ⟨manager,reconstructed,rfl,rfl⟩
  exact ⟨tables,truthful_of_less tables truthful fun other doc stored now => ⟨storage ▸ stored,current other now⟩⟩

theorem handed_step {c : OwnerCommand} (numbered : h.Numbered) (truthful : h.Truthful) (of_ : c.handed = some handed) :
    ((h.step c).Truthful ↔ ∀ handed, c.handed = some handed → h.owner.accepts c = true → h.Fitting handed) ∧
      (h.step c).Numbered := by
  rcases handed_cases of_ with ⟨refused,same,left⟩ | ⟨yes,doc,accepted⟩
  · obtain ⟨tables,truthful'⟩ := truthful_of_sameRecords truthful same
    rw [left]
    refine ⟨⟨fun _ _ _ accepted => ?_,fun _ => truthful'⟩,tables.numbered numbered⟩
    rw [refused] at accepted
    cases accepted
  · refine ⟨(accepted.truthful_iff numbered truthful).trans ⟨fun fitting handed' same _ => ?_,fun all => ?_⟩,
      accepted.numbered numbered⟩
    · obtain rfl := Option.some.inj (of_.symm.trans same)
      exact fitting
    · exact all handed of_ yes

theorem unhanded_step {c : OwnerCommand} (numbered : h.Numbered) (none_ : c.handed = none)
    (left : SameTables h { owner := h.owner.step c,sources := h.sources } ∧
      ({ owner := h.owner.step c,sources := h.sources } : TextHistory).Truthful) :
    ((h.step c).Truthful ↔ ∀ handed, c.handed = some handed → h.owner.accepts c = true → h.Fitting handed) ∧
      (h.step c).Numbered := by
  have unfolded : h.step c = { owner := h.owner.step c,sources := h.sources } := by
    simp only [step,none_]
  rw [unfolded]
  refine ⟨⟨fun _ handed found => ?_,fun _ => left.2⟩,left.1.numbered numbered⟩
  rw [none_] at found
  cases found

theorem step_truthful_iff (numbered : h.Numbered) (truthful : h.Truthful) (c : OwnerCommand) :
    ((h.step c).Truthful ↔ h.Sound c) ∧ (h.step c).Numbered := by
  cases c with
  | dispatchDocumentOpen uri languageId version content =>
    exact storeAndArm_step numbered truthful ⟨uri,languageId,version,content⟩
  | dispatchDocumentChange uri version content => exact storeAndArm_step numbered truthful ⟨uri,"apex",version,content⟩
  | dispatchDocumentSave uri version content => exact storeAndArm_step numbered truthful ⟨uri,"apex",version,content⟩
  | dispatchDocumentClose uri => exact unhanded_step numbered rfl (dispatchDocumentClose_truthful truthful uri)
  | closeFinishes uri => exact unhanded_step numbered rfl (closeFinishes_truthful truthful uri)
  | workspaceBatchIngest entries =>
    obtain ⟨same,_,_⟩ := DataOwner.workspaceBatchIngest_spec h.owner entries
    have tables : SameTables h { owner := h.owner.workspaceBatchIngest entries,sources := h.sources } :=
      ⟨same.symbolManager,same.reconstructed,rfl,rfl⟩
    exact ⟨workspaceBatchIngest_truthful truthful entries,tables.numbered numbered⟩
  | compileDocument compiled now => exact handed_step numbered truthful rfl
  | workspaceBatchCompile compiled now => exact handed_step numbered truthful rfl
  | compilationFailed uri version =>
    exact unhanded_step numbered rfl (truthful_of_sameRecords truthful (h.owner.resolveReadiness_sameRecords uri version))
  | updateSymbolSubset update now => exact handed_step numbered truthful rfl

/-- The owner at its start, over the objects that will come off the wire. -/
def start (heap : Heap) : TextHistory where
  owner := { symbolManager := { graph := { heap := heap } } }

/-- Along every run of the data owner, whatever interleaves, readiness is answered for the text that
is stored and accepted commits leave its table, exactly when every step is sound. -/
theorem reads_truthful_iff (heap : Heap) (commands : List OwnerCommand) :
    EveryState step Truthful (start heap) commands ↔ EveryStep step Sound (start heap) commands := by
  apply everyState_iff_everyStep (A := Numbered)
  · exact fun h c numbered truthful _ => (step_truthful_iff numbered truthful c).2
  · exact fun h c numbered truthful => (step_truthful_iff numbered truthful c).1
  · intro file t found
    simp [start,SymbolGraph.registered] at found
  · refine truthful_iff.mpr ⟨fun uri doc stored => ?_,fun uri found => ?_⟩
    · simp [start] at stored
    · cases found

/-- What is known of a document after some commands: whether its symbols are ready, its text and the
texts in its table. -/
def reading (heap : Heap) (commands : List OwnerCommand) (uri : String) : ReadinessPeek × Option String × List String :=
  let h := run step (start heap) commands
  (h.owner.peekReadiness uri (-1),(h.owner.storage.get? uri).map WorkerDocument.text,
    (getSymbolTableForFile h.owner.symbolManager uri).elim [] h.sources)

theorem not_truthful_of_reading {heap : Heap} {commands : List OwnerCommand} {uri text source : String}
    (read : reading heap commands uri = (.ready,some text,[source])) (other : source ≠ text) :
    ¬ EveryState step Truthful (start heap) commands := by
  intro always
  simp only [reading,Prod.mk.injEq] at read
  obtain ⟨ready,stored,sources⟩ := read
  obtain ⟨doc,found,rfl⟩ := Option.map_eq_some_iff.mp stored
  obtain ⟨t,table,made⟩ := always.last.ready uri doc (-1) found (.inl ready)
  rw [table,Option.elim_some] at sources
  apply other
  apply made.2
  rw [sources]
  exact List.mem_singleton_self source

end TextHistory

def fooClasses : Heap
  | .declared 0 => @SymbolGraph.fileClass asciiRuntime "Old" "file:///Foo.cls"
  | _ => @SymbolGraph.fileClass asciiRuntime "New" "file:///Foo.cls"

def fooTable (n : Nat) : SymbolTable := (@SymbolTable.addSymbol asciiRuntime fooClasses {} (.declared n)).2

/-- The document is opened and compiled at version 2, closed, and opened at version 1 with another
text, which is compiled. -/
def reopenedBelow : List OwnerCommand :=
  [.dispatchDocumentOpen "file:///Foo.cls" "apex" 2 "class Old {}",
    .compileDocument { uri := "file:///Foo.cls",version := 2,content := "class Old {}",symbolTable := fooTable 0 } 10,
    .dispatchDocumentClose "file:///Foo.cls",
    .closeFinishes "file:///Foo.cls",
    .dispatchDocumentOpen "file:///Foo.cls" "apex" 1 "class New {}",
    .compileDocument { uri := "file:///Foo.cls",version := 1,content := "class New {}",symbolTable := fooTable 1 } 20]

/-- The table of the second compilation is rejected as stale and yet recorded as merged, so the
symbols of the first are ready for the new text. -/
theorem reopened_below_reads_stale :
    @TextHistory.reading asciiRuntime fooClasses reopenedBelow "file:///Foo.cls" =
        (.ready,some "class New {}",["class Old {}"]) ∧
      ¬ EveryState (@TextHistory.step asciiRuntime) (@TextHistory.Truthful asciiRuntime)
        (@TextHistory.start asciiRuntime fooClasses) reopenedBelow := by
  have read : @TextHistory.reading asciiRuntime fooClasses reopenedBelow "file:///Foo.cls" =
      (.ready,some "class New {}",["class Old {}"]) := by decide +kernel
  exact ⟨read,@TextHistory.not_truthful_of_reading asciiRuntime _ _ _ _ _ read (by decide)⟩

end ApexLs.Server
