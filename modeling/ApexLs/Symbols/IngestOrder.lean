import ApexLs.Symbols.IssuedReferences
import ApexLs.Symbols.Workspaces

/-! The order of ingestion. A reference whose target's file is open becomes an edge at once,
from its own source; a reference that comes too early waits, and the drain takes the first
declaration of the source's name in the source's file instead. -/
namespace ApexLs.Symbols

open ApexLs.Utils ApexLs.Types ApexLs.Collections

inductive IngestEvent where
  | register (f : SourceFile) (s : Ref)
  | issue (f : SourceFile) (r : SourceReference)
  deriving DecidableEq, Repr

namespace IngestEvent

def call : IngestEvent → GraphCall
  | .register f s => .addSymbol s f.fileUri (some (.parsed f.table))
  | .issue _ r => .addReference r.source r.target r.referenceType r.location r.context

def isIssue : IngestEvent → Bool
  | .register _ _ => false
  | .issue _ _ => true

end IngestEvent

structure Effect where
  file : SourceFile
  source : Ref
  reference : SourceReference

/-- What a run has done so far: the symbols it added, the references it issued while the
target's file was open, and those it issued before. -/
structure Ledger where
  done : List Ref := []
  direct : List Effect := []
  late : List Effect := []

namespace Workspace

def registrations (w : Workspace) (f : SourceFile) : List IngestEvent := (w.symbolsOf f).map (.register f)

def issues (f : SourceFile) : List IngestEvent := f.references.map (.issue f)

def OwnSymbolsSeen (w : Workspace) (seen : List IngestEvent) : IngestEvent → Prop
  | .register _ _ => True
  | .issue f _ => ∀ s ∈ w.symbolsOf f, .register f s ∈ seen

/-- An order of adding the symbols of the files and issuing their references. -/
structure Order (w : Workspace) (events : List IngestEvent) : Prop where
  complete : events.Perm (w.files.flatMap (fun f => w.registrations f ++ issues f))
  ownSymbolsFirst : EveryStep (fun seen e => e :: seen) w.OwnSymbolsSeen [] events

def SymbolsFirst (events : List IngestEvent) : Prop :=
  ∃ first second, events = first ++ second ∧ (∀ e ∈ first, e.isIssue = false) ∧ ∀ e ∈ second, e.isIssue = true

/-- The parts of an edge that the comparison of two runs looks at. -/
def ends (e : RefStoreEntry) : String × String × ReferenceType × SymbolLocation :=
  (e.sourceSymbolId,e.targetSymbolId,e.referenceType,e.location)

def event (w : Workspace) (l : Ledger) : IngestEvent → Ledger
  | .register _ s => { l with done := s :: l.done }
  | .issue f r =>
    match w.declaring f r with
    | none => l
    | some source =>
      if w.Opened l.done r.target then { l with direct := ⟨f,source,r⟩ :: l.direct }
      else { l with late := ⟨f,source,r⟩ :: l.late }

structure Effective (w : Workspace) (x : Effect) : Prop where
  file : x.file ∈ w.files
  reference : x.reference ∈ x.file.references
  declaring : w.declaring x.file x.reference = some x.source

def edgeOf (w : Workspace) (x : Effect) : RefStoreEntry := w.edge x.source x.reference

section

variable [Runtime]

def ingest (w : Workspace) (events : List IngestEvent) : SymbolGraph :=
  (SymbolGraph.reached w.heap w.tables (events.map IngestEvent.call)).drainAllDeferredReferencesSync.2

def HasEdge (g : SymbolGraph) (edge : String × String × ReferenceType × SymbolLocation) : Prop :=
  ∃ k e, g.refs.refStore.Holds k e ∧ ends e = edge

/-- Every order ends with the edges of an order that has all symbols first. -/
def OrderIndependent (w : Workspace) : Prop :=
  ∀ events events₀, w.Order events → w.Order events₀ → SymbolsFirst events₀ →
    ∀ edge, HasEdge (w.ingest events) edge ↔ HasEdge (w.ingest events₀) edge

def entryOf (w : Workspace) (x : Effect) : DeferredReference where
  sourceSymbol := x.source
  referenceType := x.reference.referenceType
  location := x.reference.location
  targetFileUri := SymbolGraph.targetHint (w.heap x.reference.target)
  context := x.reference.context

variable {w : Workspace} (wf : w.WellFormed)

omit [Runtime] in
theorem declaring_mem (source : r.source ∈ w.symbolsOf f) (found : w.declaring f r = some s) :
    s ∈ w.symbolsOf f := by
  simp only [declaring] at found
  split at found
  next => simp at found
  next =>
    split at found
    next => exact containingSymbol_mem found
    next => exact Option.some.inj found ▸ source

include wf

theorem Effective.member {x : Effect} (effective : w.Effective x) : x.source ∈ w.symbolsOf x.file :=
  declaring_mem (wf.within x.file effective.file x.reference effective.reference).1 effective.declaring

theorem Effective.once {x : Effect} (effective : w.Effective x) : w.Once x.reference.target := by
  have semantic : (w.heap x.reference.target).isBlockSymbol = false := by
    have kept := effective.declaring
    simp only [Workspace.declaring] at kept
    split at kept
    next => simp at kept
    next semantic => simpa using semantic
  exact ⟨(wf.within x.file effective.file x.reference effective.reference).2,semantic,
    wf.once x.file effective.file x.reference effective.reference semantic⟩

section issuing

variable {done : List Ref} {g : SymbolGraph} (loaded : w.Loaded done g) {f : SourceFile} {r : SourceReference}
  (file : f ∈ w.files) (reference : r ∈ f.references) (own : w.symbolsOf f ⊆ done)

include loaded file reference own

theorem Loaded.addReference_eq : g.addReference r.source r.target r.referenceType r.location r.context =
    match w.declaring f r with
    | none => g
    | some source => g.issueReference source r.target r.referenceType r.location r.context := by
  have member := (wf.within f file r reference).1
  have settled := (wf.settled f file r.source member).alike (loaded.heap r.source)
  have normal : extractFilePathFromUri (g.heap r.source).fileUri = (g.heap r.source).fileUri := by
    rw [settled.file,wf.normal f file]
  have hasFile : (g.heap r.source).fileUri ≠ "" := settled.file ▸ settled.hasFile
  simp only [SymbolGraph.addReference,if_neg hasFile,SymbolGraph.normalizeSource_of_normal normal,
    loaded.declaringSource wf file ⟨r.source,member,own member⟩ member,(loaded.heap r.target).block,declaring]
  split
  next => rfl
  next => rfl

theorem Loaded.issueReference_direct (declared : w.declaring f r = some source) (opened : w.Opened done r.target) :
    ∃ g', g.issueReference source r.target r.referenceType r.location r.context = g' ∧ SymbolGraph.SameSymbols g g' ∧
      g'.deferredReferences = g.deferredReferences ∧ g'.refs = g.refs.addAll [w.edge source r] := by
  have effective : w.Effective ⟨f,source,r⟩ := ⟨file,reference,declared⟩
  have once : w.Once r.target := effective.once wf
  have member : source ∈ w.symbolsOf f := effective.member wf
  obtain ⟨s,standing,member',sameId⟩ := loaded.sourceStands wf file member (own member)
  obtain ⟨g₁,foundSource,first⟩ := SymbolGraph.findInGraph_spec g (g.heap source)
  obtain ⟨g₂,foundTarget,second⟩ := SymbolGraph.findTarget_spec g₁ (g₁.heap r.target)
  have looked := first.trans second
  obtain ⟨f',file',target⟩ := List.mem_flatMap.mp once.declared
  have settled := wf.settled f' file' r.target target
  have stands : g₁.targetStandIn (g₁.heap r.target) = some r.target := by
    rw [first.heap,SymbolGraph.targetStandIn,(loaded.heap r.target).fileUri,settled.file,if_neg settled.hasFile,
      first.toSameSymbols.standIn]
    exact loaded.targetStands wf once opened
  simp only [SymbolGraph.issueReference,foundSource,foundTarget,standing,stands]
  refine ⟨_,rfl,looked.toSameSymbols.trans (SymbolGraph.addEdge_sameSymbols _ _ _ _ _ _),looked.deferredReferences,?_⟩
  have sameFile : (w.heap s).fileUri = (w.heap source).fileUri :=
    (wf.settled f file s member').file.trans (wf.settled f file source member).file.symm
  have asked : edgeBetween g₂.heap s r.target r.referenceType r.location r.context = w.edge source r := by
    have hasId : (w.heap source).id ≠ "" := (wf.settled f file source member).hasId
    simp only [edgeBetween,edge,looked.heap,getSymbolId,(loaded.heap s).fileUri,(loaded.heap s).id,
      (loaded.heap r.target).fileUri,(loaded.heap r.target).id,sameFile,sameId,hasId,settled.hasId,ne_eq,not_false_eq_true,
      if_true]
  rw [← asked,← looked.refs]
  rfl

theorem Loaded.issueReference_late (declared : w.declaring f r = some source) (unopened : ¬ w.Opened done r.target) :
    ∃ g', g.issueReference source r.target r.referenceType r.location r.context = g' ∧ SymbolGraph.SameSymbols g g' ∧
      g'.refs = g.refs ∧ g'.deferredReferences = g.deferredReferences.set (w.heap r.target).name
        (g.deferredUnder (w.heap r.target).name ++ [w.entryOf ⟨f,source,r⟩]) := by
  have effective : w.Effective ⟨f,source,r⟩ := ⟨file,reference,declared⟩
  have once : w.Once r.target := effective.once wf
  have member : source ∈ w.symbolsOf f := effective.member wf
  obtain ⟨s,standing,_,_⟩ := loaded.sourceStands wf file member (own member)
  obtain ⟨g₁,foundSource,first⟩ := SymbolGraph.findInGraph_spec g (g.heap source)
  obtain ⟨g₂,foundTarget,second⟩ := SymbolGraph.findTarget_spec g₁ (g₁.heap r.target)
  have looked := first.trans second
  obtain ⟨f',file',target⟩ := List.mem_flatMap.mp once.declared
  have settled := wf.settled f' file' r.target target
  have missing : g₁.targetStandIn (g₁.heap r.target) = none := by
    rw [first.heap,SymbolGraph.targetStandIn,(loaded.heap r.target).fileUri,settled.file,if_neg settled.hasFile,
      first.toSameSymbols.standIn]
    exact loaded.targetMissing wf once unopened
  have hasFile : (g₂.heap source).fileUri ≠ "" := by
    rw [looked.heap,(loaded.heap source).fileUri,(wf.settled f file source member).file]
    exact (wf.settled f file source member).hasFile
  have sameScalar : SymbolGraph.isStdlibScalarKeyword (g₂.heap r.target) = false := by
    have notScalar := wf.noScalar f file r reference
    simpa only [SymbolGraph.isStdlibScalarKeyword,looked.heap,(loaded.heap r.target).fileUri,(loaded.heap r.target).name]
      using notScalar
  simp only [SymbolGraph.issueReference,foundSource,foundTarget,standing,missing,sameScalar,
    SymbolGraph.addDeferredReference,if_neg hasFile,Bool.false_eq_true,if_false]
  refine ⟨_,rfl,looked.toSameSymbols.trans ⟨rfl,rfl,rfl,rfl,rfl,rfl,rfl,rfl,fun _ => rfl,fun _ _ => id⟩,looked.refs,?_⟩
  have hint : SymbolGraph.targetHint (g.heap r.target) = SymbolGraph.targetHint (w.heap r.target) := by
    simp only [SymbolGraph.targetHint,(loaded.heap r.target).fileUri]
  simp only [hint,looked.heap,(loaded.heap r.target).name,looked.deferredReferences,SymbolGraph.deferredUnder,entryOf]

end issuing
/-- The edge a drain asks for on behalf of a reference that came too early. -/
def Rebound (w : Workspace) (x : Effect) (e : RefStoreEntry) : Prop :=
  isApexKeyword (w.heap x.reference.target).name = false ∧
    ∃ first, w.firstNamed x.file (w.heap x.source).name = some first ∧ e = w.edge first x.reference

structure Progress (w : Workspace) (l : Ledger) (g : SymbolGraph) : Prop where
  loaded : w.Loaded l.done g
  coherent : g.refs.Coherent
  effective : ∀ x, x ∈ l.direct ∨ x ∈ l.late → w.Effective x
  foreign : ∀ x ∈ l.late, x.reference.target ∉ w.symbolsOf x.file
  stored : ∀ k e, g.refs.refStore.Holds k e → ∃ x ∈ l.direct, e = w.edgeOf x
  met : ∀ x ∈ l.direct, ∃ k e, g.refs.refStore.Holds k e ∧ e.SameReference (w.edgeOf x)
  keys : ∀ name ∈ g.deferredReferences.keys, ∃ x ∈ l.late, name = (w.heap x.reference.target).name
  pending : ∀ name entry, entry ∈ g.deferredUnder name ↔
    ∃ x ∈ l.late, toLowerCase name = toLowerCase (w.heap x.reference.target).name ∧ entry = w.entryOf x

def Ready (w : Workspace) (l : Ledger) : IngestEvent → Prop
  | .register f s => f ∈ w.files ∧ s ∈ w.symbolsOf f
  | .issue f r => f ∈ w.files ∧ r ∈ f.references ∧ w.symbolsOf f ⊆ l.done

omit wf in
theorem Progress.empty (w : Workspace) : w.Progress {} { heap := w.heap,tables := w.tables } where
  loaded := Loaded.empty w
  coherent := ReferenceIndexes.Coherent.empty
  effective := by simp
  foreign := by simp
  stored k e holds := absurd holds (CaseInsensitiveMap.not_holds_empty k e)
  met := by simp
  keys := by simp [CaseInsensitiveMap.keys,CaseInsensitiveMap.empty,OrderedMap.empty]
  pending := by simp [SymbolGraph.deferredUnder]

omit wf in
theorem Progress.quiet {l : Ledger} {g g' : SymbolGraph} (progress : w.Progress l g) (done : List Ref)
    (loaded : w.Loaded done g') (refs : g'.refs = g.refs) (deferred : g'.deferredReferences = g.deferredReferences) :
    w.Progress { l with done := done } g' where
  loaded := loaded
  coherent := refs ▸ progress.coherent
  effective := progress.effective
  foreign := progress.foreign
  stored := refs ▸ progress.stored
  met := refs ▸ progress.met
  keys := deferred ▸ progress.keys
  pending := by
    simp only [SymbolGraph.deferredUnder,deferred]
    exact progress.pending

theorem Progress.event {l : Ledger} {g : SymbolGraph} (progress : w.Progress l g) {e : IngestEvent} (ready : w.Ready l e) :
    w.Progress (w.event l e) (g.call e.call) := by
  cases e with
  | register f s =>
    obtain ⟨file,member⟩ := ready
    obtain ⟨g',added,loaded,refs,deferred⟩ := progress.loaded.addSymbol wf file member
    simp only [IngestEvent.call,SymbolGraph.call,added,Workspace.event]
    exact progress.quiet _ loaded refs deferred
  | issue f r =>
    obtain ⟨file,reference,own⟩ := ready
    simp only [IngestEvent.call,SymbolGraph.call,progress.loaded.addReference_eq wf file reference own,Workspace.event]
    cases declared : w.declaring f r with
    | none => exact progress
    | some source =>
      have effective : w.Effective ⟨f,source,r⟩ := ⟨file,reference,declared⟩
      simp only
      split
      next opened =>
        obtain ⟨g',issued,same,deferred,refs⟩ :=
          progress.loaded.issueReference_direct wf file reference own declared opened
        obtain ⟨coherent,new,kept,met⟩ := ReferenceIndexes.addAll_spec progress.coherent [w.edge source r]
        rw [issued]
        rw [← refs] at coherent new kept met
        refine ⟨progress.loaded.same same,coherent,?_,progress.foreign,?_,?_,deferred ▸ progress.keys,?_⟩
        · rintro x (here | late)
          · rcases List.mem_cons.mp here with rfl | before
            · exact effective
            · exact progress.effective x (.inl before)
          · exact progress.effective x (.inr late)
        · intro k e holds
          rcases new k e holds with old | added
          · obtain ⟨x,member,is⟩ := progress.stored k e old
            exact ⟨x,List.mem_cons_of_mem _ member,is⟩
          · exact ⟨⟨f,source,r⟩,List.mem_cons_self,List.mem_singleton.mp added⟩
        · intro x member
          rcases List.mem_cons.mp member with rfl | before
          · exact met _ (List.mem_singleton_self _)
          · obtain ⟨k,e,holds,same⟩ := progress.met x before
            exact ⟨k,e,kept k e holds,same⟩
        · simp only [SymbolGraph.deferredUnder,deferred]
          exact progress.pending
      next unopened =>
        obtain ⟨g',issued,same,refs,deferred⟩ :=
          progress.loaded.issueReference_late wf file reference own declared unopened
        have member := effective.member wf
        rw [issued]
        refine ⟨progress.loaded.same same,refs ▸ progress.coherent,?_,?_,refs ▸ progress.stored,refs ▸ progress.met,?_,?_⟩
        · rintro x (direct | here)
          · exact progress.effective x (.inl direct)
          · rcases List.mem_cons.mp here with rfl | before
            · exact effective
            · exact progress.effective x (.inr before)
        · intro x here
          rcases List.mem_cons.mp here with rfl | before
          · exact fun target => unopened ⟨f,file,target,source,member,own member⟩
          · exact progress.foreign x before
        · intro name listed
          rw [deferred] at listed
          rcases CaseInsensitiveMap.mem_keys_set listed with old | rfl
          · obtain ⟨x,before,is⟩ := progress.keys name old
            exact ⟨x,List.mem_cons_of_mem _ before,is⟩
          · exact ⟨⟨f,source,r⟩,List.mem_cons_self,rfl⟩
        · intro name entry
          have under : entry ∈ g'.deferredUnder name ↔ entry ∈ g.deferredUnder name ∨
              (toLowerCase name = toLowerCase (w.heap r.target).name ∧ entry = w.entryOf ⟨f,source,r⟩) := by
            simp only [SymbolGraph.deferredUnder,deferred,CaseInsensitiveMap.get_set]
            split
            next here => simp [CaseInsensitiveMap.get,here]
            next apart => simp [apart]
          rw [under,progress.pending]
          constructor
          · rintro (⟨x,before,is⟩ | ⟨same,is⟩)
            · exact ⟨x,List.mem_cons_of_mem _ before,is⟩
            · exact ⟨⟨f,source,r⟩,List.mem_cons_self,same,is⟩
          · rintro ⟨x,here,is⟩
            rcases List.mem_cons.mp here with rfl | before
            · exact .inr is
            · exact .inl ⟨x,before,is⟩

theorem Progress.run {events : List IngestEvent} {l : Ledger} {g : SymbolGraph} (progress : w.Progress l g)
    (ready : EveryStep w.event w.Ready l events) :
    w.Progress (run w.event l events) (run SymbolGraph.call g (events.map IngestEvent.call)) := by
  induction events generalizing l g with
  | nil => exact progress
  | cons e events ih => exact ih (progress.event wf ready.1) ready.2

theorem Progress.rebound_iff {l : Ledger} {g : SymbolGraph} (progress : w.Progress l g)
    (complete : ∀ s ∈ w.symbols, s ∈ l.done) {x : Effect} (late : x ∈ l.late) (e : RefStoreEntry) :
    e ∈ SymbolGraph.edgesOf SymbolGraph.syncPick g (w.heap x.reference.target).name [w.entryOf x] ↔ w.Rebound x e := by
  have effective := progress.effective x (.inr late)
  have once := effective.once wf
  have member := effective.member wf
  have loaded := progress.loaded
  have opened : ∃ u ∈ w.symbolsOf x.file, u ∈ l.done := ⟨x.source,member,complete _ (mem_symbols effective.file member)⟩
  cases keyword : isApexKeyword (w.heap x.reference.target).name with
  | true => simp [SymbolGraph.edgesOf,SymbolGraph.symbolsNamed,keyword,Rebound]
  | false =>
    obtain ⟨f',file',target⟩ := List.mem_flatMap.mp once.declared
    have added := complete _ once.declared
    obtain ⟨present,only⟩ := loaded.candidates once ⟨f',file',target,_,target,added⟩ added rfl keyword
    have settled := wf.settled x.file effective.file x.source member
    have hasFile : (g.heap (w.entryOf x).sourceSymbol).fileUri ≠ "" := by
      rw [(loaded.heap _).fileUri]
      exact settled.file ▸ settled.hasFile
    have sourceOf : g.sourceOf (w.entryOf x) = w.firstNamed x.file (w.heap x.source).name := by
      change g.firstNamed (g.heap x.source).fileUri (g.heap x.source).name = _
      rw [(loaded.heap x.source).fileUri,settled.file,(loaded.heap x.source).name]
      exact loaded.firstNamed wf effective.file opened _
    simp only [SymbolGraph.edgesOf,present,if_false,SymbolGraph.edgeOf,sourceOf,List.mem_filterMap,List.mem_singleton,
      exists_eq_left,Rebound,keyword,true_and]
    rw [if_neg hasFile]
    cases found : w.firstNamed x.file (w.heap x.source).name with
    | none => simp
    | some first =>
      obtain ⟨t,candidate,picked⟩ := SymbolGraph.syncPick_decides g.heap _ first (w.entryOf x) present
      obtain rfl := only t candidate
      have firstMember : first ∈ w.symbolsOf x.file := List.mem_of_find?_eq_some found
      have firstId := (wf.settled x.file effective.file first firstMember).hasId
      have targetId := (wf.settled f' file' _ target).hasId
      have asked : edgeBetween g.heap first x.reference.target x.reference.referenceType x.reference.location
          x.reference.context = w.edge first x.reference := by
        simp only [edgeBetween,edge,getSymbolId,(loaded.heap first).fileUri,(loaded.heap first).id,
          (loaded.heap x.reference.target).fileUri,(loaded.heap x.reference.target).id,firstId,targetId,ne_eq,
          not_false_eq_true,if_true]
      simp only [Option.bind_some,picked,Option.map_some,Option.some.injEq,exists_eq_left',eq_comm (b := e)]
      rw [← asked]
      rfl

omit wf in
theorem mem_edgesOf {g : SymbolGraph} {pick : SymbolGraph.Pick} :
    e ∈ SymbolGraph.edgesOf pick g name entries ↔ ∃ entry ∈ entries, e ∈ SymbolGraph.edgesOf pick g name [entry] := by
  unfold SymbolGraph.edgesOf
  split
  next => simp
  next => simp only [List.mem_filterMap,List.mem_singleton,exists_eq_left]

theorem Progress.drain {l : Ledger} {g : SymbolGraph} (progress : w.Progress l g) (complete : ∀ s ∈ w.symbols, s ∈ l.done) :
    ∃ g' asked, g.drainAllDeferredReferencesSync.2 = g' ∧ g'.refs = g.refs.addAll asked ∧
      ∀ e, e ∈ asked ↔ ∃ x ∈ l.late, w.Rebound x e := by
  refine ⟨_,_,rfl,(SymbolGraph.drainAllDeferredReferencesSync_spec g).1.refs,fun e => ?_⟩
  -- one name stands for one target, and is the spelling its entries are kept under
  have sameTarget : ∀ x ∈ l.late, ∀ y ∈ l.late,
      toLowerCase (w.heap x.reference.target).name = toLowerCase (w.heap y.reference.target).name →
      x.reference.target = y.reference.target := by
    intro x lateX y lateY same
    have onceX := (progress.effective x (.inr lateX)).once wf
    exact ((progress.effective y (.inr lateY)).once wf).alone _ onceX.declared onceX.semantic same
  rw [List.mem_flatMap]
  constructor
  · rintro ⟨name,key,asked⟩
    obtain ⟨entry,under,asked⟩ := mem_edgesOf.mp asked
    obtain ⟨x,late,same,rfl⟩ := (progress.pending name entry).mp under
    obtain ⟨y,lateY,spelled⟩ := progress.keys name key
    rw [spelled] at same
    rw [spelled,sameTarget y lateY x late same] at asked
    exact ⟨x,late,(progress.rebound_iff wf complete late e).mp asked⟩
  · rintro ⟨x,late,rebound⟩
    have under := (progress.pending (w.heap x.reference.target).name (w.entryOf x)).mpr ⟨x,late,rfl,rfl⟩
    have listed : (w.heap x.reference.target).name ∈ g.deferredReferences.keys := by
      cases stored : g.deferredReferences.get (w.heap x.reference.target).name with
      | none => simp [SymbolGraph.deferredUnder,stored] at under
      | some entries =>
        obtain ⟨original,holds,same⟩ := CaseInsensitiveMap.get_eq_some_iff.mp stored
        have key := CaseInsensitiveMap.holds_iff_mem_keys.mp ⟨entries,holds⟩
        obtain ⟨y,lateY,spelled⟩ := progress.keys original key
        rw [spelled] at same
        rw [← sameTarget y lateY x late same,← spelled]
        exact key
    exact ⟨_,listed,mem_edgesOf.mpr ⟨_,under,(progress.rebound_iff wf complete late e).mpr rebound⟩⟩

end
end Workspace
end ApexLs.Symbols
