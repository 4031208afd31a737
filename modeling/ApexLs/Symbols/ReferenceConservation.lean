import Mathlib.Logic.Function.Iterate
import ApexLs.Symbols.DeferredDrain
import ApexLs.Symbols.GraphRuns
import ApexLs.Symbols.Growth
import ApexLs.Symbols.Placement

/-! What becomes of an issued reference. As long as nothing is removed it waits under its target's
name or is an edge; a drain that finds both of its ends makes it one and lets go of the entry,
unless the name is one that no lookup by name answers. -/
namespace ApexLs.Symbols

open ApexLs.Utils ApexLs.Types ApexLs.Collections

/-- However often it is normalised, the URI never becomes empty. -/
def Locates (uri : String) : Prop := ∀ n, extractFilePathFromUri^[n] uri ≠ ""

theorem Locates.ne_empty {uri : String} (locates : Locates uri) : uri ≠ "" := locates 0

theorem Locates.extract {uri : String} (locates : Locates uri) : Locates (extractFilePathFromUri uri) := by
  intro n
  rw [← Function.iterate_succ_apply]
  exact locates (n + 1)

theorem Locates.of_normal {uri : String} (normal : extractFilePathFromUri uri = uri) (nonempty : uri ≠ "") :
    Locates uri := by
  intro n
  rw [Function.iterate_fixed normal]
  exact nonempty

structure Anchored (s : ApexSymbol) : Prop where
  file : Locates s.fileUri
  keyFile : ∀ f ∈ s.key.fileUri, f = "" ∨ Locates f

namespace Anchored

theorem congr {s s' : ApexSymbol} (anchored : Anchored s) (file : s'.fileUri = s.fileUri)
    (keyFile : s'.key.fileUri = s.key.fileUri) : Anchored s' :=
  ⟨file ▸ anchored.file,keyFile ▸ anchored.keyFile⟩

theorem assign {existing symbol : ApexSymbol} (anchored : Anchored existing) (other : Anchored symbol) :
    Anchored (assign existing symbol) := ⟨other.file,anchored.keyFile⟩

theorem synchronizeKey [Runtime] {s : ApexSymbol} (anchored : Anchored s) : Anchored (synchronizeKey s) := by
  have key : ∀ f ∈ (Types.synchronizeKey s).key.fileUri, f = "" ∨ Locates f := by
    simp only [Types.synchronizeKey]
    split
    next => exact anchored.keyFile
    next =>
      intro f member
      obtain rfl := Option.some.inj (Option.mem_def.mp member)
      exact .inr anchored.file
  refine ⟨?_,key⟩
  change Locates (orElse (Types.synchronizeKey s).key.fileUri s.fileUri)
  cases named : (Types.synchronizeKey s).key.fileUri with
  | none => exact anchored.file
  | some f =>
    simp only [orElse]
    split
    next => exact anchored.file
    next given => exact (key f named).resolve_left given

theorem put {heap : Heap} (anchored : ∀ r, Anchored (heap r)) {s : ApexSymbol} (new : Anchored s) (r : Ref) :
    ∀ r', Anchored (heap.put r s r') := by
  intro r'
  rw [Heap.put_apply]
  split
  next => exact new
  next => exact anchored r'

section

variable [Runtime]

theorem addSymbol {heap : Heap} (anchored : ∀ r, Anchored (heap r)) (t : SymbolTable) (symbol : Ref) :
    ∀ r, Anchored ((t.addSymbol heap symbol).1 r) := by
  have prepared : ∀ r, Anchored (prepare heap symbol none r) := by
    apply put anchored
    have keyed := (anchored symbol).synchronizeKey
    unfold adoptParent
    split <;> exact keyed.congr rfl rfl
  simp only [SymbolTable.addSymbol,SymbolTable.insertPrepared]
  generalize prepare heap symbol none = heap' at prepared
  cases SymbolTable.exitOf heap' symbol (t.lookupExisting heap' symbol).2 with
  | enrich e => exact put prepared ((prepared e).assign (prepared symbol)) e
  | _ => exact prepared

theorem mergeSymbols {heap : Heap} (anchored : ∀ r, Anchored (heap r)) (t existing : SymbolTable) :
    ∀ r, Anchored ((mergeSymbols heap t existing).1 r) :=
  mergeSymbols_keeps (I := fun state => ∀ r, Anchored (state.1 r)) (fun _ t s _ kept => addSymbol kept t s) anchored

end

end Anchored

structure IssuedReference where
  source : Ref
  targetName : String
  referenceType : ReferenceType
  location : SymbolLocation
  deriving DecidableEq, Repr

def RefStoreEntry.Represents (e : RefStoreEntry) (referenceType : ReferenceType) (location : SymbolLocation) : Prop :=
  e.referenceType = referenceType ∧
    e.location.identifierRange.startLine = location.identifierRange.startLine ∧
    e.location.identifierRange.startColumn = location.identifierRange.startColumn

def GraphCall.removes : GraphCall → Bool
  | clearReferenceStateForFile _ => true
  | evictStaleFileDeclarations _ _ => true
  | removeFile _ => true
  | clear => true
  | _ => false

section

variable [Runtime]

namespace SymbolGraph

def Defers (g : SymbolGraph) (i : IssuedReference) : Prop :=
  ∃ entry ∈ g.deferredUnder i.targetName,
    entry.sourceSymbol = i.source ∧ entry.referenceType = i.referenceType ∧ entry.location = i.location

instance (g : SymbolGraph) (i : IssuedReference) : Decidable (g.Defers i) :=
  inferInstanceAs (Decidable (∃ _ ∈ _, _))

def Stores (g : SymbolGraph) (referenceType : ReferenceType) (location : SymbolLocation) : Prop :=
  ∃ k e, g.refs.refStore.Holds k e ∧ e.Represents referenceType location

def Conserves (g : SymbolGraph) (i : IssuedReference) : Prop := g.Defers i ∨ g.Stores i.referenceType i.location

def OnlyEdge (g : SymbolGraph) (i : IssuedReference) : Prop := ¬ g.Defers i ∧ g.Stores i.referenceType i.location

/-- The file of the source lists a declaration of its name, and the name of the target is indexed
for a declaration. -/
structure BothDeclared (g : SymbolGraph) (i : IssuedReference) : Prop where
  source : ∃ s ∈ g.fileSymbols (extractFilePathFromUri (g.heap i.source).fileUri),
    (g.heap s).name = (g.heap i.source).name ∧ (g.heap s).isBlockSymbol = false
  target : ∃ s ∈ g.symbolsOf ((g.nameIndex.get i.targetName).getD []),(g.heap s).isBlockSymbol = false

instance (g : SymbolGraph) (i : IssuedReference) : Decidable (g.BothDeclared i) :=
  decidable_of_iff (_ ∧ _) ⟨fun ⟨source,target⟩ => ⟨source,target⟩,fun both => ⟨both.source,both.target⟩⟩

def issuedBy (g : SymbolGraph) : GraphCall → Option IssuedReference
  | .addReference source target referenceType location _ =>
    if (g.heap source).isBlockSymbol || (g.heap target).isBlockSymbol then none
    else some ⟨source,(g.heap target).name,referenceType,location⟩
  | .enqueueDeferredReference source targetSymbolName referenceType location _ _ =>
    if (g.heap source).isBlockSymbol then none else some ⟨source,targetSymbolName,referenceType,location⟩
  | _ => none

end SymbolGraph

structure IssueLedger where
  graph : SymbolGraph
  issued : List IssuedReference := []

namespace IssueLedger

def start (heap : Heap) (tables : TableRef → SymbolTable) : IssueLedger where
  graph := { heap := heap,tables := tables }

def call (l : IssueLedger) (c : GraphCall) : IssueLedger where
  graph := l.graph.call c
  issued := l.issued ++ (l.graph.issuedBy c).toList

end IssueLedger

namespace SymbolGraph

structure Sane (g : SymbolGraph) : Prop where
  coherent : g.refs.Coherent
  anchored : ∀ r, Anchored (g.heap r)

/-- On the way from `g` to `g'` no edge is lost, and what waited waits on or has become an edge. -/
structure Carries (g g' : SymbolGraph) : Prop where
  sane : Sane g'
  stored : ∀ referenceType location, g.Stores referenceType location → g'.Stores referenceType location
  waiting : ∀ name, ∀ entry ∈ g.deferredUnder name,
    entry ∈ g'.deferredUnder name ∨ g'.Stores entry.referenceType entry.location

theorem Carries.refl {g : SymbolGraph} (sane : Sane g) : Carries g g :=
  ⟨sane,fun _ _ => id,fun _ _ => .inl⟩

theorem Carries.trans {g g' g'' : SymbolGraph} (first : Carries g g') (second : Carries g' g'') : Carries g g'' where
  sane := second.sane
  stored referenceType location stored := second.stored _ _ (first.stored _ _ stored)
  waiting name entry member := by
    rcases first.waiting name entry member with waits | stored
    · exact second.waiting name entry waits
    · exact .inr (second.stored _ _ stored)

theorem Carries.conserves {g g' : SymbolGraph} (carries : Carries g g') (conserved : g.Conserves i) : g'.Conserves i := by
  rcases conserved with ⟨entry,member,source,referenceType,location⟩ | stored
  · rcases carries.waiting i.targetName entry member with waits | stored
    · exact .inl ⟨entry,waits,source,referenceType,location⟩
    · exact .inr (referenceType ▸ location ▸ stored)
  · exact .inr (carries.stored _ _ stored)

theorem stores_addAll {g g' : SymbolGraph} (coherent : g.refs.Coherent) {asked : List RefStoreEntry}
    (refs : g'.refs = g.refs.addAll asked) :
    (∀ referenceType location, g.Stores referenceType location → g'.Stores referenceType location) ∧
      ∀ e ∈ asked, g'.Stores e.referenceType e.location := by
  obtain ⟨_,_,kept,met⟩ := ReferenceIndexes.addAll_spec coherent asked
  constructor
  · rintro referenceType location ⟨k,e,holds,represents⟩
    exact ⟨k,e,refs ▸ kept k e holds,represents⟩
  · intro e member
    obtain ⟨k,stored,holds,_,_,referenceType,line,column⟩ := met e member
    exact ⟨k,stored,refs ▸ holds,referenceType,line,column⟩

theorem Carries.of_refs {g g' : SymbolGraph} (sane : Sane g) (anchored : ∀ r, Anchored (g'.heap r))
    (asked : List RefStoreEntry) (refs : g'.refs = g.refs.addAll asked)
    (waiting : ∀ name, ∀ entry ∈ g.deferredUnder name, entry ∈ g'.deferredUnder name ∨
      ∃ e ∈ asked, e.referenceType = entry.referenceType ∧ e.location = entry.location) : Carries g g' where
  sane := by
    refine ⟨?_,anchored⟩
    rw [refs]
    exact (ReferenceIndexes.addAll_spec sane.coherent asked).1
  stored := (stores_addAll sane.coherent refs).1
  waiting name entry member := by
    rcases waiting name entry member with waits | ⟨e,asks,referenceType,location⟩
    · exact .inl waits
    · exact .inr (referenceType ▸ location ▸ (stores_addAll sane.coherent refs).2 e asks)

theorem Carries.of_eq {g g' : SymbolGraph} (sane : Sane g) (anchored : ∀ r, Anchored (g'.heap r))
    (refs : g'.refs = g.refs) (deferred : g'.deferredReferences = g.deferredReferences) : Carries g g' := by
  apply Carries.of_refs sane anchored []
  · exact refs
  · intro name entry member
    rw [deferredUnder,deferred]
    exact .inl member

theorem Carries.memoised {g g' : SymbolGraph} (sane : Sane g) (looked : Memoised g g') : Carries g g' :=
  .of_eq sane (fun r => looked.heap ▸ sane.anchored r) looked.refs looked.deferredReferences

section Issuing

section

variable {g : SymbolGraph} (sane : Sane g)
include sane

theorem addEdge_carries (source target : Ref) (referenceType : ReferenceType)
    (location : SymbolLocation) (context : Option ReferenceContext) :
    Carries g (g.addEdge source target referenceType location context) ∧
      (g.addEdge source target referenceType location context).Stores referenceType location := by
  have refs : (g.addEdge source target referenceType location context).refs =
      g.refs.addAll [edgeBetween g.heap source target referenceType location context] := rfl
  exact ⟨.of_refs sane sane.anchored _ refs (fun _ _ => .inl),
    (stores_addAll sane.coherent refs).2 _ (List.mem_singleton_self _)⟩

theorem addDeferredReference_carries (name : String) (deferred : DeferredReference) :
    Carries g (g.addDeferredReference name deferred) ∧
      deferred ∈ (g.addDeferredReference name deferred).deferredUnder name := by
  have anchored := (sane.anchored deferred.sourceSymbol).file.ne_empty
  have grown : ∀ name', (g.addDeferredReference name deferred).deferredUnder name' =
      if toLowerCase name' = toLowerCase name then g.deferredUnder name' ++ [deferred] else g.deferredUnder name' := by
    intro name'
    simp only [addDeferredReference,anchored,if_false,deferredUnder,CaseInsensitiveMap.get_set]
    split
    next same => simp only [CaseInsensitiveMap.get,same,Option.getD_some]
    next => rfl
  constructor
  · have untouched : (g.addDeferredReference name deferred).heap = g.heap := by
      simp only [addDeferredReference,anchored,if_false]
    refine Carries.of_refs sane ?_ [] ?_ ?_
    · rw [untouched]
      exact sane.anchored
    · exact g.addDeferredReference_refs name deferred
    · intro name' entry member
      rw [grown]
      split
      next => exact .inl (List.mem_append_left _ member)
      next => exact .inl member
  · rw [grown,if_pos rfl]
    exact List.mem_append_right _ (List.mem_singleton_self _)

theorem addReferenceToGraph_carries (source target : Ref) (targetSymbolId : String)
    (referenceType : ReferenceType) (location : SymbolLocation) (context : Option ReferenceContext) :
    Carries g (g.addReferenceToGraph source target targetSymbolId referenceType location context) := by
  simp only [addReferenceToGraph]
  split
  next => exact .refl sane
  next =>
    obtain ⟨g',looked,after⟩ := findSymbolInFileByName_spec g (extractFilePathFromUri (g.heap source).fileUri)
      (g.heap source).name
    have carries := Carries.memoised sane after
    rw [looked]
    cases g.firstNamed (extractFilePathFromUri (g.heap source).fileUri) (g.heap source).name with
    | none => exact carries
    | some s => exact carries.trans (.of_refs carries.sane carries.sane.anchored [_] rfl (fun _ _ => .inl))

theorem createVirtualSymbol_carries (target source : Ref)
    (referenceType : ReferenceType) (location : SymbolLocation) (context : Option ReferenceContext) :
    Carries g (g.createVirtualSymbolForStdlibScalarKeyword target source referenceType location context) := by
  simp only [createVirtualSymbolForStdlibScalarKeyword]
  split
  next => exact addReferenceToGraph_carries sane source target _ referenceType location context
  next =>
    have named : Anchored { g.heap target with id := generateSymbolId (g.heap target).name (g.heap target).fileUri } :=
      (sane.anchored target).congr rfl rfl
    have virtual : Carries g (g.addVirtualSymbol target
        (generateSymbolId (g.heap target).name (g.heap target).fileUri)) :=
      .of_eq sane (Anchored.put sane.anchored named _) rfl rfl
    exact virtual.trans (addReferenceToGraph_carries virtual.sane source target _ referenceType location context)

theorem issueReference_carries (source target : Ref) (referenceType : ReferenceType)
    (location : SymbolLocation) (context : Option ReferenceContext) :
    Carries g (g.issueReference source target referenceType location context) ∧
      (g.issueReference source target referenceType location context).Conserves
        ⟨source,(g.heap target).name,referenceType,location⟩ := by
  obtain ⟨g₁,foundSource,first⟩ := findInGraph_spec g (g.heap source)
  obtain ⟨g₂,foundTarget,second⟩ := findTarget_spec g₁ (g₁.heap target)
  have looked := Carries.memoised sane (first.trans second)
  have sameHeap : g₂.heap = g.heap := (first.trans second).heap
  simp only [issueReference,foundSource,foundTarget]
  split
  next s t _ _ =>
    obtain ⟨added,stored⟩ := addEdge_carries looked.sane s t referenceType location context
    exact ⟨looked.trans added,.inr stored⟩
  next =>
    obtain ⟨deferred,waits⟩ := addDeferredReference_carries looked.sane (g₂.heap target).name
      ⟨source,referenceType,location,targetHint (g₂.heap target),context⟩
    have waiting := looked.trans deferred
    have conserved : (g₂.addDeferredReference (g₂.heap target).name
        ⟨source,referenceType,location,targetHint (g₂.heap target),context⟩).Conserves
          ⟨source,(g.heap target).name,referenceType,location⟩ := by
      rw [sameHeap] at waits ⊢
      exact .inl ⟨_,waits,rfl,rfl,rfl⟩
    split
    next =>
      have created := createVirtualSymbol_carries waiting.sane target source referenceType location context
      exact ⟨waiting.trans created,created.conserves conserved⟩
    next => exact ⟨waiting,conserved⟩

theorem normalizeSource_carries (source : Ref) :
    Carries g (g.normalizeSource source) := by
  have normalized : Anchored { g.heap source with fileUri := extractFilePathFromUri (g.heap source).fileUri } :=
    ⟨(sane.anchored source).file.extract,(sane.anchored source).keyFile⟩
  exact .of_eq sane (Anchored.put sane.anchored normalized source) rfl rfl

end

theorem normalizeSource_same (g : SymbolGraph) (source r : Ref) :
    ((g.normalizeSource source).heap r).name = (g.heap r).name ∧
      ((g.normalizeSource source).heap r).isBlockSymbol = (g.heap r).isBlockSymbol := by
  simp only [normalizeSource,Heap.put_apply]
  split
  next same =>
    subst same
    exact ⟨rfl,rfl⟩
  next => exact ⟨rfl,rfl⟩

theorem addReference_carries {g : SymbolGraph} (sane : Sane g) (source target : Ref) (referenceType : ReferenceType)
    (location : SymbolLocation) (context : Option ReferenceContext) :
    Carries g (g.addReference source target referenceType location context) ∧
      ∀ i ∈ g.issuedBy (.addReference source target referenceType location context),
        (g.addReference source target referenceType location context).Conserves i := by
  have anchored := (sane.anchored source).file.ne_empty
  have normalized := normalizeSource_carries sane source
  obtain ⟨sameName,sameTarget⟩ := normalizeSource_same g source target
  obtain ⟨_,sameSource⟩ := normalizeSource_same g source source
  simp only [addReference,anchored,if_false,sameTarget,issuedBy]
  cases target_ : (g.heap target).isBlockSymbol with
  | true => exact ⟨by simpa using normalized,by simp⟩
  | false =>
    simp only [Bool.false_eq_true,if_false,Bool.or_false]
    cases source_ : (g.heap source).isBlockSymbol with
    | true =>
      refine ⟨?_,by simp⟩
      cases (g.normalizeSource source).declaringSource source with
      | none => exact normalized
      | some s =>
        exact normalized.trans (issueReference_carries normalized.sane s target referenceType location context).1
    | false =>
      have own : (g.normalizeSource source).declaringSource source = some source := by
        simp [declaringSource,sameSource,source_]
      obtain ⟨issued,conserved⟩ := issueReference_carries normalized.sane source target referenceType location context
      simp only [own]
      refine ⟨normalized.trans issued,?_⟩
      intro i member
      obtain rfl : _ = i := by simpa using member
      exact sameName ▸ conserved

theorem enqueueDeferredReference_carries {g : SymbolGraph} (sane : Sane g) (source : Ref) (name : String)
    (referenceType : ReferenceType) (location : SymbolLocation) (context : Option ReferenceContext)
    (targetFileUri : Option String) :
    Carries g (g.enqueueDeferredReference source name referenceType location context targetFileUri) ∧
      ∀ i ∈ g.issuedBy (.enqueueDeferredReference source name referenceType location context targetFileUri),
        (g.enqueueDeferredReference source name referenceType location context targetFileUri).Conserves i := by
  have anchored := (sane.anchored source).file.ne_empty
  have normalized := normalizeSource_carries sane source
  obtain ⟨_,sameSource⟩ := normalizeSource_same g source source
  simp only [enqueueDeferredReference,anchored,if_false,issuedBy]
  cases source_ : (g.heap source).isBlockSymbol with
  | true =>
    refine ⟨?_,by simp⟩
    cases (g.normalizeSource source).declaringSource source with
    | none => exact normalized
    | some s => exact normalized.trans (addDeferredReference_carries normalized.sane name _).1
  | false =>
    have own : (g.normalizeSource source).declaringSource source = some source := by
      simp [declaringSource,sameSource,source_]
    obtain ⟨deferred,waits⟩ := addDeferredReference_carries normalized.sane name
      ⟨source,referenceType,location,
        if truthy targetFileUri then targetFileUri.map extractFilePathFromUri else none,context⟩
    simp only [own]
    refine ⟨normalized.trans deferred,?_⟩
    intro i member
    obtain rfl : _ = i := by simpa using member
    exact .inl ⟨_,waits,rfl,rfl,rfl⟩

end Issuing

section Tables

section

variable {g : SymbolGraph} (sane : Sane g)
include sane

theorem registerSymbolTable_carries (t : TableRef) (fileUri : String)
    (options : RegistrationOptions) : Carries g (g.registerSymbolTable t fileUri options).2 := by
  rcases registerSymbolTable_cases g t fileUri options with same | same | ⟨merged,table',from_,_,same⟩
  · rw [same]
    exact .refl sane
  · rw [same]
    exact .of_eq sane sane.anchored rfl rfl
  · rw [same]
    refine .of_eq sane ?_ rfl rfl
    rcases from_ with rfl | ⟨existing,_,rfl⟩
    · exact sane.anchored
    · exact Anchored.mergeSymbols sane.anchored _ _

theorem ensureSymbolTableForFile_carries (fileUri : String) :
    Carries g (g.ensureSymbolTableForFile fileUri) := by
  simp only [ensureSymbolTableForFile]
  split
  next => exact .refl sane
  next => exact .of_eq sane sane.anchored rfl rfl

theorem addToTable_carries (t : TableRef) (symbol : Ref) :
    Carries g (g.addToTable t symbol) := by
  have added := Anchored.addSymbol sane.anchored (g.table t) symbol
  have named : ∀ fqn, Anchored (withFqn (((g.table t).addSymbol g.heap symbol).1 symbol) fqn) := by
    intro fqn
    unfold withFqn
    split
    next => exact added symbol
    next => exact (added symbol).congr rfl rfl
  exact .of_eq sane (Anchored.put added (named _) symbol) rfl rfl

theorem addSymbol_carries (symbol : Ref) (fileUri : String)
    (symbolTable : Option TableRef) : Carries g (g.addSymbol symbol fileUri symbolTable) := by
  have filed : ∀ h, Carries g h → ∀ t symbolId file,
      Carries g { (h.addToTable t symbol).indexSymbol symbol symbolId file with
        heap := ((h.addToTable t symbol).indexSymbol symbol symbolId file).heap.put symbol
          (markStandardClass fileUri (((h.addToTable t symbol).indexSymbol symbol symbolId file).heap symbol)) } := by
    intro h settled t symbolId file
    have stored := addToTable_carries settled.sane t symbol
    have marked : Anchored (markStandardClass fileUri ((h.addToTable t symbol).heap symbol)) := by
      unfold markStandardClass
      split
      next => exact (stored.sane.anchored symbol).congr rfl rfl
      next => exact stored.sane.anchored symbol
    exact (settled.trans stored).trans (.of_eq stored.sane (Anchored.put stored.sane.anchored marked symbol) rfl rfl)
  simp only [addSymbol]
  cases symbolTable with
  | none =>
    have ensured := ensureSymbolTableForFile_carries sane (extractFilePathFromUri fileUri)
    split
    next => exact ensured
    next t _ => exact filed _ ensured t _ _
  | some t => exact filed _ (registerSymbolTable_carries sane t (extractFilePathFromUri fileUri) {}) t _ _

end

end Tables

section Drains

theorem deferredUnder_lower {g : SymbolGraph} {name name' : String} (same : toLowerCase name = toLowerCase name') :
    g.deferredUnder name = g.deferredUnder name' := by
  simp only [deferredUnder,CaseInsensitiveMap.get,same]

theorem edgeOf_served {pick : Pick} (decides : Decides pick) {g : SymbolGraph} (sane : Sane g) {name : String}
    (present : g.symbolsNamed name ≠ []) {entry : DeferredReference} (served : g.waits entry = false) :
    ∃ e, edgeOf pick (g.symbolsNamed name) g entry = some e ∧ e.referenceType = entry.referenceType ∧
      e.location = entry.location := by
  have anchored := (sane.anchored entry.sourceSymbol).file.ne_empty
  have found : ∃ source, g.sourceOf entry = some source := by
    rw [← Option.isSome_iff_exists]
    simpa [waits,anchored] using served
  obtain ⟨source,found⟩ := found
  obtain ⟨target,_,picked⟩ := decides g.heap (g.symbolsNamed name) source entry present
  refine ⟨edgeBetween g.heap source target entry.referenceType entry.location entry.context,?_,rfl,rfl⟩
  simp [edgeOf,anchored,found,picked]

theorem mem_edgesOf {pick : Pick} {g : SymbolGraph} {name : String} (present : g.symbolsNamed name ≠ [])
    {entries : List DeferredReference} (member : entry ∈ entries)
    (asks : edgeOf pick (g.symbolsNamed name) g entry = some e) : e ∈ edgesOf pick g name entries := by
  rw [edgesOf,if_neg present]
  exact List.mem_filterMap.mpr ⟨entry,member,asks⟩

theorem drainAllDeferredReferencesSync_carries {g : SymbolGraph} (sane : Sane g) :
    Carries g g.drainAllDeferredReferencesSync.2 := by
  obtain ⟨drained,left⟩ := drainAllDeferredReferencesSync_spec g
  apply Carries.of_refs sane (fun r => drained.heap ▸ sane.anchored r) _ drained.refs
  intro name entry member
  rw [left]
  cases listed : g.deferredReferences.keys.find? (fun other => toLowerCase name = toLowerCase other) with
  | none => exact .inl member
  | some other =>
    have same : toLowerCase name = toLowerCase other := by simpa using List.find?_some listed
    rw [deferredUnder_lower same] at member
    simp only [Option.elim_some,leftUnder]
    split
    next => exact .inl member
    next present =>
      cases served : g.waits entry with
      | true => exact .inl (List.mem_filter.mpr ⟨member,served⟩)
      | false =>
        obtain ⟨e,asks,edge⟩ := edgeOf_served syncPick_decides sane present served
        refine .inr ⟨e,?_,edge⟩
        exact List.mem_flatMap.mpr ⟨other,List.mem_of_find?_eq_some listed,mem_edgesOf present member asks⟩

theorem processDeferredReferencesBatch_carries {g : SymbolGraph} (sane : Sane g) (name : String) (size : Nat) :
    Carries g (g.processDeferredReferencesBatch name size).2 := by
  obtain ⟨r,h,batched,drained,left⟩ := processDeferredReferencesBatch_spec g name size
  rw [batched]
  apply Carries.of_refs sane (fun r => drained.heap ▸ sane.anchored r) _ drained.refs
  intro name' entry member
  rw [left]
  split
  next here =>
    rw [deferredUnder_lower here.1,← List.take_append_drop size (g.deferredUnder name)] at member
    rw [leaveBatch]
    rcases List.mem_append.mp member with taken | later
    · cases served : g.waits entry with
      | true => exact .inl (List.mem_append_right _ (List.mem_filter.mpr ⟨taken,served⟩))
      | false =>
        obtain ⟨e,asks,edge⟩ := edgeOf_served pickDeferredTargetForEntry_decides sane here.2 served
        exact .inr ⟨e,mem_edgesOf here.2 taken asks,edge⟩
    · exact .inl (List.mem_append_left _ later)
  next => exact .inl member

end Drains

theorem call_carries {g : SymbolGraph} (sane : Sane g) (c : GraphCall) (keeps : c.removes = false) :
    Carries g (g.call c) ∧ ∀ i ∈ g.issuedBy c, (g.call c).Conserves i := by
  cases c with
  | addSymbol symbol fileUri symbolTable => exact ⟨addSymbol_carries sane symbol fileUri symbolTable,by simp [issuedBy]⟩
  | registerSymbolTable t fileUri options => exact ⟨registerSymbolTable_carries sane t fileUri options,by simp [issuedBy]⟩
  | addReference source target referenceType location context =>
    exact addReference_carries sane source target referenceType location context
  | enqueueDeferredReference source name referenceType location context targetFileUri =>
    exact enqueueDeferredReference_carries sane source name referenceType location context targetFileUri
  | drainAllDeferredReferences => exact ⟨drainAllDeferredReferencesSync_carries sane,by simp [issuedBy]⟩
  | processDeferredReferencesBatch name size =>
    exact ⟨processDeferredReferencesBatch_carries sane name size,by simp [issuedBy]⟩
  | getSymbol symbolId =>
    obtain ⟨h,found,after⟩ := getSymbol_spec g symbolId
    simp only [call,found]
    exact ⟨.memoised sane after,by simp [issuedBy]⟩
  | findSymbolByName name =>
    obtain ⟨h,found,after⟩ := findSymbolByName_spec g name
    simp only [call,found]
    exact ⟨.memoised sane after,by simp [issuedBy]⟩
  | _ => simp [GraphCall.removes] at keeps

section Complete

theorem runBatches_carries {g : SymbolGraph} (sane : Sane g) (size rounds : Nat) (name : String) :
    Carries g (runBatches size rounds g name) := by
  induction rounds generalizing g with
  | zero => exact .refl sane
  | succ rounds ih =>
    have first := processDeferredReferencesBatch_carries sane name size
    exact first.trans (ih first.sane)

theorem BothDeclared.symbolsNamed {g : SymbolGraph} (declared : g.BothDeclared i) (tables : NameTables)
    (same : toLowerCase i.targetName = toLowerCase name) :
    g.symbolsNamed name = [] ↔ isApexKeyword i.targetName = true := by
  rw [SymbolGraph.symbolsNamed,← tables.isApexKeyword_lower same]
  cases isApexKeyword i.targetName with
  | true => simp
  | false =>
    obtain ⟨s,member,semantic⟩ := declared.target
    have listed : g.nameIndex.get name = g.nameIndex.get i.targetName := by
      simp only [CaseInsensitiveMap.get,same]
    simp only [Bool.false_eq_true,if_false,iff_false,listed]
    apply List.ne_nil_of_mem (a := s)
    exact List.mem_filter.mpr ⟨member,by rw [semantic]; rfl⟩

theorem BothDeclared.waits {g : SymbolGraph} (declared : g.BothDeclared i) {entry : DeferredReference}
    (source : entry.sourceSymbol = i.source) : g.waits entry = false := by
  obtain ⟨s,member,name,semantic⟩ := declared.source
  have found : (g.sourceOf entry).isSome = true := by
    rw [sourceOf,firstNamed,source,List.find?_isSome]
    exact ⟨s,member,by simp [name,semantic]⟩
  rw [← Option.not_isNone,Bool.not_eq_true'] at found
  rw [SymbolGraph.waits,found,Bool.and_false]

theorem BothDeclared.none_waits {g : SymbolGraph} (declared : g.BothDeclared i) (entries : List DeferredReference) :
    ¬ ∃ entry ∈ entries.filter g.waits,
      entry.sourceSymbol = i.source ∧ entry.referenceType = i.referenceType ∧ entry.location = i.location := by
  rintro ⟨entry,member,source,_⟩
  rw [List.mem_filter,declared.waits source] at member
  exact absurd member.2 (by simp)

theorem onlyEdge_iff {g g' : SymbolGraph} (carries : Carries g g') (conserved : g.Conserves i)
    (left : g'.Defers i ↔ isApexKeyword i.targetName = true ∧ g.Defers i) :
    g'.OnlyEdge i ↔ ¬ (isApexKeyword i.targetName = true ∧ g.Defers i) := by
  rw [OnlyEdge,left]
  refine ⟨And.left,fun free => ⟨free,(carries.conserves conserved).resolve_left ?_⟩⟩
  rwa [left]

theorem drained_defers_iff {g : SymbolGraph} (tables : NameTables) (declared : g.BothDeclared i) :
    g.drainAllDeferredReferencesSync.2.Defers i ↔ isApexKeyword i.targetName = true ∧ g.Defers i := by
  obtain ⟨_,left⟩ := drainAllDeferredReferencesSync_spec g
  simp only [Defers,left]
  cases listed : g.deferredReferences.keys.find? (fun other => toLowerCase i.targetName = toLowerCase other) with
  | none =>
    have nothing : g.deferredUnder i.targetName = [] := by
      cases got : g.deferredReferences.get i.targetName with
      | none => rw [deferredUnder,got]; rfl
      | some entries =>
        obtain ⟨original,holds,same⟩ := CaseInsensitiveMap.get_eq_some_iff.mp got
        have absent := List.find?_eq_none.mp listed original (CaseInsensitiveMap.holds_iff_mem_keys.mp ⟨_,holds⟩)
        exact absurd same.symm (by simpa using absent)
    simp [nothing]
  | some other =>
    have same : toLowerCase i.targetName = toLowerCase other := by simpa using List.find?_some listed
    simp only [Option.elim_some,leftUnder,declared.symbolsNamed tables same,deferredUnder_lower same]
    split
    next keyword => simp [keyword]
    next plain => exact iff_of_false (declared.none_waits _) (fun both => plain both.1)

theorem batched_defers_iff {g : SymbolGraph} (tables : NameTables) (declared : g.BothDeclared i) (positive : 0 < size)
    (enough : (g.deferredUnder i.targetName).length ≤ rounds) :
    (runBatches size rounds g i.targetName).Defers i ↔ isApexKeyword i.targetName = true ∧ g.Defers i := by
  obtain ⟨_,left⟩ := runBatches_spec size rounds g i.targetName
  simp only [Defers,left,ne_eq,declared.symbolsNamed tables rfl,true_and]
  cases isApexKeyword i.targetName with
  | true => simp
  | false =>
    have waiting : (serveBatches g.waits size rounds (g.deferredUnder i.targetName)).2.Perm
        ((g.deferredUnder i.targetName).filter g.waits) := (serveBatches_spec positive _ enough).2
    simp only [Bool.false_eq_true,not_false_eq_true,if_true,false_and,iff_false,waiting.mem_iff]
    exact declared.none_waits _

end Complete

end SymbolGraph

namespace IssueLedger

def Conserved (l : IssueLedger) : Prop := ∀ i ∈ l.issued, l.graph.Conserves i

/-- A complete drain leaves every reference with both ends declared as an edge alone. -/
structure DrainsToEdges (l : IssueLedger) : Prop where
  sync : ∀ i ∈ l.issued, l.graph.BothDeclared i → l.graph.drainAllDeferredReferencesSync.2.OnlyEdge i
  batched : ∀ i ∈ l.issued, l.graph.BothDeclared i → ∀ size rounds, 0 < size →
    (l.graph.deferredUnder i.targetName).length ≤ rounds →
    (SymbolGraph.runBatches size rounds l.graph i.targetName).OnlyEdge i

def NoneUnderKeyword (l : IssueLedger) : Prop :=
  ∀ i ∈ l.issued, l.graph.BothDeclared i → ¬ (isApexKeyword i.targetName = true ∧ l.graph.Defers i)

structure Kept (l : IssueLedger) : Prop where
  sane : l.graph.Sane
  conserved : l.Conserved

theorem call_kept {l : IssueLedger} (kept : l.Kept) (c : GraphCall) (keeps : c.removes = false) : (l.call c).Kept := by
  obtain ⟨carries,issues⟩ := SymbolGraph.call_carries kept.sane c keeps
  refine ⟨carries.sane,fun i member => ?_⟩
  rcases List.mem_append.mp member with old | new
  · exact carries.conserves (kept.conserved i old)
  · exact issues i (Option.mem_toList.mp new)

theorem Kept.drainsToEdges_iff {l : IssueLedger} (kept : l.Kept) (tables : NameTables) :
    l.DrainsToEdges ↔ l.NoneUnderKeyword := by
  have sync := fun i member declared => SymbolGraph.onlyEdge_iff
    (SymbolGraph.drainAllDeferredReferencesSync_carries kept.sane) (kept.conserved i member)
    (SymbolGraph.drained_defers_iff tables declared)
  constructor
  · exact fun drains i member declared => (sync i member declared).mp (drains.sync i member declared)
  · intro none
    refine ⟨fun i member declared => (sync i member declared).mpr (none i member declared),?_⟩
    intro i member declared size rounds positive enough
    apply (SymbolGraph.onlyEdge_iff (SymbolGraph.runBatches_carries kept.sane size rounds i.targetName)
      (kept.conserved i member) (SymbolGraph.batched_defers_iff tables declared positive enough)).mpr
    exact none i member declared

/-- In every state of a run that removes nothing, every issued reference waits or is an edge, and
complete drains leave those with both ends declared as edges alone if and only if none of them
waits under a keyword. -/
theorem references_conserved (names : NameTables) (heap : Heap) (tables : TableRef → SymbolTable)
    (anchored : ∀ r, Anchored (heap r)) (calls : List GraphCall) (keeps : ∀ c ∈ calls, c.removes = false) :
    EveryState call (fun l => l.Conserved ∧ (l.DrainsToEdges ↔ l.NoneUnderKeyword)) (start heap tables) calls := by
  have kept : EveryState call Kept (start heap tables) calls := by
    refine everyState_of_everyStep (P := fun _ (c : GraphCall) => c.removes = false) ?_ ?_ ?_
    · exact fun _ c kept keeps => call_kept kept c keeps
    · exact ⟨⟨ReferenceIndexes.Coherent.empty,anchored⟩,by simp [Conserved,start]⟩
    · exact everyStep_of_inputs keeps _
  intro front initial
  exact ⟨(kept front initial).conserved,(kept front initial).drainsToEdges_iff names⟩

end IssueLedger

end

namespace IssueLedger

theorem fileClass_anchored [Runtime] {name fileUri : String} (normal : extractFilePathFromUri fileUri = fileUri)
    (nonempty : fileUri ≠ "") : Anchored (SymbolGraph.fileClass name fileUri) := by
  have locates := Locates.of_normal normal nonempty
  refine ⟨locates,fun f member => ?_⟩
  obtain rfl : fileUri = f := Option.some.inj member
  exact .inr locates

/-- A caller, a class it refers to, and the keyword `void` as a type of the bundled library. -/
def callerUtilVoid : Heap
  | .declared 0 => @SymbolGraph.fileClass asciiRuntime "Caller" "file:///Caller.cls"
  | .declared 1 => @SymbolGraph.fileClass asciiRuntime "Util" "file:///Util.cls"
  | _ => @SymbolGraph.fileClass asciiRuntime "void" "apexlib://resources/StandardApexLibrary/System/void"

theorem callerUtilVoid_anchored (r : Ref) : Anchored (callerUtilVoid r) := by
  unfold callerUtilVoid
  split
  next => exact @fileClass_anchored asciiRuntime _ _ (by decide +kernel) (by decide)
  next => exact @fileClass_anchored asciiRuntime _ _ (by decide +kernel) (by decide)
  next => exact @fileClass_anchored asciiRuntime _ _ (by decide +kernel) (by decide)

def issuing (target : Ref) : List GraphCall :=
  [.addSymbol (.declared 0) "file:///Caller.cls" none,
    .addReference (.declared 0) target .typeReference ⟨⟨3,2,3,6⟩,⟨3,2,3,6⟩⟩ none]

theorem early_reference_conserved :
    EveryState (@call asciiRuntime)
      (fun l => @Conserved asciiRuntime l ∧ (@DrainsToEdges asciiRuntime l ↔ @NoneUnderKeyword asciiRuntime l))
      (@start asciiRuntime callerUtilVoid (fun _ => {}))
      (issuing (.declared 1) ++ [.addSymbol (.declared 1) "file:///Util.cls" none,.drainAllDeferredReferences]) :=
  @references_conserved asciiRuntime asciiRuntime_names callerUtilVoid (fun _ => {}) callerUtilVoid_anchored _
    (by decide)

/-- The reference to `void` is an edge at once and waits for ever. -/
theorem keyword_reference_waits :
    ¬ ∀ (heap : Heap) (tables : TableRef → SymbolTable) (calls : List GraphCall),
      (∀ r, Anchored (heap r)) → (∀ c ∈ calls, c.removes = false) →
      EveryState (@call asciiRuntime) (fun l => @Conserved asciiRuntime l ∧ @DrainsToEdges asciiRuntime l)
        (@start asciiRuntime heap tables) calls := by
  intro always
  let Waits (_ : Runtime) := ∃ i ∈ (run call (start callerUtilVoid (fun _ => {})) (issuing (.declared 2))).issued,
    (run call (start callerUtilVoid (fun _ => {})) (issuing (.declared 2))).graph.BothDeclared i ∧
      (run call (start callerUtilVoid (fun _ => {})) (issuing (.declared 2))).graph.drainAllDeferredReferencesSync.2.Defers i
  obtain ⟨i,member,declared,waits⟩ : Waits asciiRuntime := of_byteRuntime Waits (by decide +kernel)
  have last := (always callerUtilVoid (fun _ => {}) (issuing (.declared 2)) callerUtilVoid_anchored (by decide)).last
  have only := @DrainsToEdges.sync asciiRuntime _ last.2 i member declared
  exact only.1 waits

end IssueLedger
end ApexLs.Symbols
