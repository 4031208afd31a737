import ApexLs.Symbols.TableFilling

/-! Whether a file that was read again answers from its new table. The id index keeps the first
symbol an id was given, so the new table is served exactly where no older symbol holds one of its ids. -/
namespace ApexLs.Symbols

open ApexLs.Utils ApexLs.Types ApexLs.Collections

structure Reading where
  ids : List String
  objects : List Ref
  deriving DecidableEq, Repr

namespace SymbolGraph

variable [Runtime]

def reading (g : SymbolGraph) (t : TableRef) : Reading where
  ids := (g.table t).getAllSymbols.map (fun s => (g.heap s).id)
  objects := heldSymbols (g.table t)

/-- The graph answers for a file from its reading: each declared id, and whatever a name finds in
the file, is an object of the table. -/
structure Answers (g : SymbolGraph) (file : String) (r : Reading) : Prop where
  byId : ∀ id ∈ r.ids, ∃ s ∈ r.objects, (g.getSymbol id).1 = some s
  byName : ∀ name, ∀ s ∈ (g.findSymbolByName name).1, homeOf (g.heap s) = file → s ∈ r.objects

structure Holds (g : SymbolGraph) (file : String) (r : Reading) : Prop where
  home : ∀ id ∈ r.ids, toLowerCase (extractFilePathFromUri id) = file
  bound : ∀ id ∈ r.ids, ∃ s ∈ r.objects, g.symbolIdIndex.get? id = some s
  listed : ∀ key, toLowerCase key = file → ∀ id ∈ listedIds g.fileIndex key, id ∈ r.ids

theorem Placed.listedIds {g : SymbolGraph} (placed : Placed g) {key id : String} (member : id ∈ listedIds g.fileIndex key) :
    toLowerCase (extractFilePathFromUri id) = toLowerCase key := by
  unfold SymbolGraph.listedIds CaseInsensitiveMap.get at member
  cases found : g.fileIndex.lookup (toLowerCase key) with
  | none => simp [found] at member
  | some ids =>
    rw [found] at member
    exact placed.listed _ ids found id member

theorem Holds.answers {heap : Heap} {g : SymbolGraph} (tidy : Tidy heap g) (placed : Placed g) {r : Reading}
    (holds : Holds g file r) : Answers g file r where
  byId id declared := by
    obtain ⟨s,member,known⟩ := holds.bound id declared
    obtain ⟨g',answered,_⟩ := getSymbol_spec g id
    refine ⟨s,member,?_⟩
    rw [answered]
    exact resolve_known known
  byName name s found home := by
    obtain ⟨g',answered,_⟩ := findSymbolByName_spec g name
    rw [answered] at found
    unfold symbolsNamed at found
    split at found
    next => cases found
    next identifier =>
      obtain ⟨id,named,resolved⟩ := List.mem_filterMap.mp (List.mem_of_mem_filter found)
      obtain ⟨s',known⟩ := tidy.named name id named
      obtain rfl : s' = s := Option.some.inj ((resolve_known known).symm.trans resolved)
      obtain ⟨key,filed⟩ := tidy.filed name (by simpa using identifier) id named
      have here : toLowerCase key = file := by
        rw [← placed.listedIds filed,← home]
        exact (placed.ids id s' known).2.symm
      obtain ⟨s,member,is⟩ := holds.bound id (holds.listed key here id filed)
      obtain rfl := Option.some.inj (known.symm.trans is)
      exact member

theorem Holds.grows {heap : Heap} {new : List Ref} {g g' : SymbolGraph} {r : Reading} (grows : Grows heap new g g')
    (placed : Placed g') (apart : ∀ s ∈ new, toLowerCase (extractFilePathFromUri (heap s).id) ≠ file)
    (holds : Holds g file r) : Holds g' file r where
  home := holds.home
  bound id declared := by
    obtain ⟨s,member,known⟩ := holds.bound id declared
    exact ⟨s,member,grows.known id s known⟩
  listed key here id listed := by
    rcases grows.files key id listed with before | ⟨s,member,rfl⟩
    · exact holds.listed key here id before
    · exact absurd ((placed.listedIds listed).trans here) (apart s member)

theorem Holds.drops {ids : List String} {g g' : SymbolGraph} {r : Reading} (drops : Drops ids g g')
    (apart : ∀ id ∈ ids, toLowerCase (extractFilePathFromUri id) ≠ file)
    (within : ∀ key, SymbolGraph.listedIds g'.fileIndex key ⊆ SymbolGraph.listedIds g.fileIndex key)
    (holds : Holds g file r) : Holds g' file r where
  home := holds.home
  bound id declared := by
    obtain ⟨s,member,known⟩ := holds.bound id declared
    refine ⟨s,member,?_⟩
    rw [drops.known,if_neg (fun gone => apart id gone (holds.home id declared))]
    exact known
  listed key here id listed := holds.listed key here id (within key listed)

theorem overReferences_placed {g : SymbolGraph} (placed : Placed g) {c : GraphCall} (only : c.overReferences = true)
    (proper : g.Proper c) : Placed (g.call c) := by
  cases c with
  | addReference source target referenceType location context =>
    obtain ⟨⟨n,rfl⟩,⟨m,rfl⟩⟩ := proper
    exact (addReference_issued placed ⟨homeOf (g.heap (.declared n)),referenceType,location,context⟩
      (placed.sound n) rfl (placed.declared m)).placed
  | enqueueDeferredReference source name referenceType location context targetFileUri =>
    obtain ⟨n,rfl⟩ := proper
    exact (enqueueDeferredReference_issued placed ⟨homeOf (g.heap (.declared n)),referenceType,location,context⟩
      (placed.sound n) rfl name targetFileUri).placed
  | drainAllDeferredReferences =>
    obtain ⟨drained,_⟩ := drainAllDeferredReferencesSync_spec g
    exact placed.same drained.toSameSymbols (drainAllDeferredReferencesSync_pending g)
  | processDeferredReferencesBatch name size =>
    have pending := processDeferredReferencesBatch_pending g name size
    obtain ⟨r,g',batched,drained,_⟩ := processDeferredReferencesBatch_spec g name size
    simp only [call]
    rw [batched] at pending ⊢
    exact placed.same drained.toSameSymbols pending
  | getSymbol symbolId =>
    obtain ⟨g',found,after⟩ := getSymbol_spec g symbolId
    simp only [call,found]
    exact placed.memoised after
  | findSymbolByName name =>
    obtain ⟨g',found,after⟩ := findSymbolByName_spec g name
    simp only [call,found]
    exact placed.memoised after
  | _ => cases only

theorem insertSymbols_filling {g : SymbolGraph} (placed : Placed g) {file : String} {t : TableRef}
    (known : g.registered file = some t) (normal : extractFilePathFromUri file = file) (proper : createFileUri file = file) :
    Filling t file (heldSymbols (g.table t)) (g.symbolIdIndex.get? ·)
      ((g.table t).getAllSymbols.foldl (insertSymbol file t) (g.clearReferenceStateForFile file)) := by
  have start : Filling t file (heldSymbols (g.table t)) (g.symbolIdIndex.get? ·) (g.clearReferenceStateForFile file) := by
    refine ⟨placed.addRefs _ _,known,List.Subset.refl _,fun s held => ?_,fun id _ s bound => .inl bound⟩
    obtain ⟨sound,home⟩ := placed.tables t s held
    obtain ⟨ofFile,_⟩ := placed.registered _ t known
    refine ⟨sound,home.trans ?_⟩
    rw [ofFile,normal]
  exact start.insertSymbols normal proper (fun s listed => mem_heldSymbols.mpr (.inl listed))

end SymbolGraph

theorem TableCall.normalizedUri_plain {c : TableCall} (plain : '#' ∉ c.fileUri.toList) :
    c.normalizedUri = createFileUri c.fileUri :=
  extractFilePathFromUri_plain (createFileUri_plain plain)

theorem TableCall.normalized {c : TableCall} (plain : '#' ∉ c.fileUri.toList) :
    extractFilePathFromUri c.normalizedUri = c.normalizedUri ∧ createFileUri c.normalizedUri = c.normalizedUri := by
  rw [normalizedUri_plain plain]
  exact ⟨extractFilePathFromUri_plain (createFileUri_plain plain),createFileUri_again c.fileUri⟩

namespace SymbolManager

variable [Runtime]

def OwnTable (m : SymbolManager) (c : TableCall) : Prop :=
  '#' ∉ c.fileUri.toList ∧ m.graph.Made c.symbolTable ∧
    toLowerCase (m.graph.tables c.symbolTable).fileUri = toLowerCase c.normalizedUri

/-- A call that replaces a table brings no id that is bound to an older symbol. -/
def NothingOlder (m : SymbolManager) (c : TableCall) : Prop :=
  (m.register c).1.decision = .acceptedReplace → ∀ id ∈ (m.graph.reading c.symbolTable).ids,
    ∀ s ∈ m.graph.symbolIdIndex.get? id, s ∈ (m.graph.reading c.symbolTable).objects

theorem register_placed {m : SymbolManager} (placed : m.graph.Placed) {c : TableCall} (own : m.OwnTable c) :
    (m.register c).2.Placed := by
  obtain ⟨plain,made,file⟩ := own
  obtain ⟨normal,proper⟩ := TableCall.normalized plain
  have within := placed.tables c.symbolTable
  rw [file] at within
  have held : heldSymbols (c.annotate (m.graph.table c.symbolTable)) = heldSymbols (m.graph.tables c.symbolTable) := by
    obtain ⟨_,inArray,inMap⟩ := annotate_filing c (m.graph.table c.symbolTable)
    rw [heldSymbols,inArray,inMap]
    rfl
  have annotated : (m.annotated c).Placed := by
    refine placed.setTable c.symbolTable (c.annotate (m.graph.table c.symbolTable)) (fun s member => ?_) file.symm
    exact within s (held ▸ member)
  have here : toLowerCase ((m.annotated c).tables c.symbolTable).fileUri =
      toLowerCase (extractFilePathFromUri (registration c).fileUri) := by
    simp [SymbolManager.annotated,SymbolGraph.setTable,TableCall.annotate,SymbolTable.setMetadata,registration,proper,normal]
  obtain ⟨g',registered,_,placed',_⟩ :=
    SymbolGraph.registerSymbolTable_placed annotated here made (registration c).options
  rw [register_eq,registered]
  exact placed'

theorem register_symbolIdIndex (m : SymbolManager) (c : TableCall) : (m.register c).2.symbolIdIndex = m.graph.symbolIdIndex := by
  rw [register_eq]
  rcases SymbolGraph.registerSymbolTable_cases (m.annotated c) c.symbolTable (registration c).fileUri
    (registration c).options with same | noted | ⟨merged,table',_,_,registered⟩
  · rw [same]
    rfl
  · rw [noted]
    rfl
  · rw [registered]
    rfl

theorem register_known {m : SymbolManager} {c : TableCall} (plain : '#' ∉ c.fileUri.toList)
    (accepted : (m.register c).1.decision ≠ .rejectedStale) :
    (m.register c).2.registered c.normalizedUri = some (m.register c).1.canonicalTable := by
  obtain ⟨normal,proper⟩ := TableCall.normalized plain
  have known := (m.annotated c).registerSymbolTable_canonical c.symbolTable (registration c).fileUri (registration c).options
    accepted
  rw [register_eq]
  simpa only [registration,proper,normal] using known

theorem reading_replaced {m : SymbolManager} {c : TableCall} (replaced : (m.register c).1.decision = .acceptedReplace) :
    (m.register c).2.reading (m.register c).1.canonicalTable = m.graph.reading c.symbolTable := by
  obtain ⟨canonical,heap,filed⟩ := register_filed replaced
  rw [canonical]
  simp only [SymbolGraph.reading,heldSymbols,SymbolTable.getAllSymbols,filed.symbolArray,filed.symbolMap,heap]

def handed (m : SymbolManager) (c : TableCall) : List Ref :=
  ((m.register c).2.table (m.register c).1.canonicalTable).getAllSymbols

def filled (m : SymbolManager) (c : TableCall) : SymbolGraph :=
  (m.handed c).foldl (SymbolGraph.insertSymbol c.normalizedUri (m.register c).1.canonicalTable)
    ((m.register c).2.clearReferenceStateForFile c.normalizedUri)

theorem handed_declared {heap : Heap} {m : SymbolManager} (named : Named heap) (tidy : m.graph.Tidy heap) (c : TableCall) :
    ∀ s ∈ m.handed c, ∃ n, s = .declared n := by
  intro s member
  have registered : SymbolGraph.Grows heap [] m.graph _ := register_grows named tidy c
  exact (registered.tidy.keyed _).declared s (mem_heldSymbols.mpr (.inl member))

theorem filled_grows {heap : Heap} {m : SymbolManager} (named : Named heap) (tidy : m.graph.Tidy heap) (c : TableCall) :
    SymbolGraph.Grows heap (m.handed c) m.graph (m.filled c) := by
  have registered : SymbolGraph.Grows heap (m.handed c) m.graph _ := register_grows named tidy c
  have cleared := registered.trans (SymbolGraph.clearReferenceStateForFile_grows registered.tidy c.normalizedUri)
  exact cleared.trans (SymbolGraph.insertSymbols_grows named cleared.tidy c.normalizedUri _ (List.Subset.refl _)
    (handed_declared named tidy c))

/-- What a call does to the graph: a rejected table changes no more than its registration does; otherwise the
symbols are handed over, and a replacing call takes out what the file no longer declares. -/
theorem addSymbolTable_cases (m : SymbolManager) (c : TableCall) :
    ((m.addSymbolTable c).graph = (m.register c).2 ∧ (m.register c).1.decision ≠ .acceptedReplace) ∨
    ((m.addSymbolTable c).graph = m.filled c ∧ (m.register c).1.decision ≠ .acceptedReplace ∧
      (m.register c).1.decision ≠ .rejectedStale) ∨
    ((m.addSymbolTable c).graph = (m.filled c).evictStaleFileDeclarations c.normalizedUri
        (SymbolGraph.liveSymbolIds (m.filled c).heap (m.handed c)) ∧ (m.register c).1.decision = .acceptedReplace) := by
  by_cases skipped : (m.register c).1.decision = .rejectedStale ∨ (m.register c).1.decision = .noopSameInstance ∧
      m.lastProcessedTableStateByFile.get? c.normalizedUri =
        some (getSymbolTableStateSignature ((m.register c).2.table (m.register c).1.canonicalTable))
  · refine .inl ⟨if_pos skipped,?_⟩
    rcases skipped with stale | ⟨noop,_⟩
    · simp [stale]
    · simp [noop]
  · have proceeds : (m.addSymbolTable c).graph = _ := if_neg skipped
    have accepted : (m.register c).1.decision ≠ .rejectedStale := fun stale => skipped (.inl stale)
    by_cases replaced : (m.register c).1.decision = .acceptedReplace
    · exact .inr (.inr ⟨proceeds.trans (if_pos replaced),replaced⟩)
    · exact .inr (.inl ⟨proceeds.trans (if_neg replaced),replaced,accepted⟩)

section

variable {heap : Heap} {m : SymbolManager} {c : TableCall}

theorem handed_home (named : Named heap) (tidy : m.graph.Tidy heap) (placed : m.graph.Placed) (own : m.OwnTable c)
    (accepted : (m.register c).1.decision ≠ .rejectedStale) :
    ∀ s ∈ m.handed c, toLowerCase (extractFilePathFromUri (heap s).id) = toLowerCase c.normalizedUri := by
  intro s member
  obtain ⟨normal,_⟩ := TableCall.normalized own.1
  have placed' := register_placed placed own
  obtain ⟨ofFile,_⟩ := placed'.registered _ _ (register_known own.1 accepted)
  obtain ⟨sound,home⟩ := placed'.tables _ s (mem_heldSymbols.mpr (.inl member))
  have registered : SymbolGraph.Grows heap [] m.graph _ := register_grows named tidy c
  obtain ⟨n,rfl⟩ := handed_declared named tidy c s member
  rw [← registered.tidy.rigid.id,sound.1.ofId,home,ofFile,normal]

theorem filled_placed (placed : m.graph.Placed) (own : m.OwnTable c) (accepted : (m.register c).1.decision ≠ .rejectedStale) :
    (m.filled c).Placed := by
  obtain ⟨normal,proper⟩ := TableCall.normalized own.1
  exact (SymbolGraph.insertSymbols_filling (register_placed placed own) (register_known own.1 accepted) normal proper).placed

section

variable (named : Named heap) (tidy : m.graph.Tidy heap)
include named tidy

theorem addSymbolTable_kept (placed : m.graph.Placed) (own : m.OwnTable c) :
    (m.addSymbolTable c).graph.Tidy heap ∧ (m.addSymbolTable c).graph.Placed := by
  have registered : SymbolGraph.Grows heap [] m.graph _ := register_grows named tidy c
  have grown := filled_grows named tidy c
  rcases addSymbolTable_cases m c with ⟨graph,_⟩ | ⟨graph,_,accepted⟩ | ⟨graph,replaced⟩
  · rw [graph]
    exact ⟨registered.tidy,register_placed placed own⟩
  · rw [graph]
    exact ⟨grown.tidy,filled_placed placed own accepted⟩
  · rw [graph]
    have filled := filled_placed placed own (by simp [replaced])
    exact ⟨(SymbolGraph.evictStaleFileDeclarations_drops _ _ _).tidy grown.tidy,
      (SymbolGraph.evictStaleFileDeclarations_placed filled _ _).1⟩

theorem addSymbolTable_others (placed : m.graph.Placed) (own : m.OwnTable c)
    {file : String} {r : Reading} (other : toLowerCase c.normalizedUri ≠ file) (holds : m.graph.Holds file r) :
    (m.addSymbolTable c).graph.Holds file r := by
  have registered : SymbolGraph.Grows heap [] m.graph _ := register_grows named tidy c
  have grown := filled_grows named tidy c
  rcases addSymbolTable_cases m c with ⟨graph,_⟩ | ⟨graph,_,accepted⟩ | ⟨graph,replaced⟩
  · rw [graph]
    exact holds.grows registered (register_placed placed own) (by simp)
  · rw [graph]
    apply holds.grows grown (filled_placed placed own accepted)
    intro s member
    rwa [handed_home named tidy placed own accepted s member]
  · rw [graph]
    have accepted : (m.register c).1.decision ≠ .rejectedStale := by simp [replaced]
    have filled := filled_placed placed own accepted
    obtain ⟨normal,_⟩ := TableCall.normalized own.1
    have held : (m.filled c).Holds file r := by
      apply holds.grows grown filled
      intro s member
      rwa [handed_home named tidy placed own accepted s member]
    refine held.drops (SymbolGraph.evictStaleFileDeclarations_drops _ _ _) ?_ ?_
    · intro id stale
      obtain ⟨listed,_⟩ := List.mem_filter.mp stale
      rwa [filled.listedIds listed,normal]
    · intro key id listed
      rw [SymbolGraph.evictStaleFileDeclarations_files] at listed
      split at listed
      next => exact List.mem_of_mem_filter listed
      next => exact listed

theorem addSymbolTable_declared (replaced : (m.register c).1.decision = .acceptedReplace) {id : String}
      (declares : id ∈ (m.graph.reading c.symbolTable).ids) :
    (∃ s ∈ m.handed c, (heap s).id = id) ∧
      (m.addSymbolTable c).graph.symbolIdIndex.get? id = (m.filled c).symbolIdIndex.get? id := by
  have grown := filled_grows named tidy c
  have declared := handed_declared named tidy c
  obtain ⟨s,member,rfl⟩ := List.mem_map.mp declares
  rw [← register_replaced replaced] at member
  obtain ⟨n,rfl⟩ := declared s member
  refine ⟨⟨_,member,(tidy.rigid.id n).symm⟩,?_⟩
  rcases addSymbolTable_cases m c with ⟨_,kept⟩ | ⟨_,kept,_⟩ | ⟨graph,_⟩
  · exact absurd replaced kept
  · exact absurd replaced kept
  · rw [graph,(SymbolGraph.evictStaleFileDeclarations_drops _ _ _).known,if_neg]
    intro stale
    obtain ⟨_,undeclared⟩ := List.mem_filter.mp stale
    rw [SymbolGraph.liveSymbolIds_eq grown.tidy.rigid declared] at undeclared
    simp only [decide_eq_true_eq] at undeclared
    exact undeclared (List.mem_map.mpr ⟨_,member,(tidy.rigid.id n).symm⟩)

theorem addSymbolTable_holds (placed : m.graph.Placed) (own : m.OwnTable c)
    (replaced : (m.register c).1.decision = .acceptedReplace) (nothing : m.NothingOlder c) :
    (m.addSymbolTable c).graph.Holds (toLowerCase c.normalizedUri) (m.graph.reading c.symbolTable) := by
  have accepted : (m.register c).1.decision ≠ .rejectedStale := by simp [replaced]
  obtain ⟨normal,proper⟩ := TableCall.normalized own.1
  have homes := handed_home named tidy placed own accepted
  have declared := handed_declared named tidy c
  refine ⟨fun id declares => ?_,fun id declares => ?_,fun key here id listed => ?_⟩
  · obtain ⟨⟨s,member,rfl⟩,_⟩ := addSymbolTable_declared named tidy replaced declares
    exact homes s member
  · obtain ⟨⟨s,member,rfl⟩,same⟩ := addSymbolTable_declared named tidy replaced declares
    have registered : SymbolGraph.Grows heap [] m.graph _ := register_grows named tidy c
    have cleared : SymbolGraph.Grows heap [] _ _ :=
      SymbolGraph.clearReferenceStateForFile_grows registered.tidy c.normalizedUri
    obtain ⟨s',bound⟩ := SymbolGraph.insertSymbols_bound named cleared.tidy c.normalizedUri
      (m.register c).1.canonicalTable declared s member
    have filling := SymbolGraph.insertSymbols_filling (register_placed placed own) (register_known own.1 accepted) normal proper
    refine ⟨s',?_,same.trans bound⟩
    rcases filling.answered _ (homes s member) s' bound with old | new
    · rw [register_symbolIdIndex] at old
      exact nothing replaced _ declares s' old
    · rw [← reading_replaced replaced]
      exact new
  · rcases addSymbolTable_cases m c with ⟨_,kept⟩ | ⟨_,kept,_⟩ | ⟨graph,_⟩
    · exact absurd replaced kept
    · exact absurd replaced kept
    · rw [graph,SymbolGraph.evictStaleFileDeclarations_files,if_pos (by rw [normal,here])] at listed
      obtain ⟨_,live⟩ := List.mem_filter.mp listed
      rw [SymbolGraph.liveSymbolIds_eq (filled_grows named tidy c).tidy.rigid declared] at live
      obtain ⟨s,member,rfl⟩ := List.mem_map.mp (by simpa using live)
      obtain ⟨n,rfl⟩ := declared s member
      refine List.mem_map.mpr ⟨.declared n,?_,tidy.rigid.id n⟩
      rw [← register_replaced replaced]
      exact member

theorem nothingOlder_of_answers (answers : (m.register c).1.decision = .acceptedReplace →
      (m.addSymbolTable c).graph.Answers (toLowerCase c.normalizedUri) (m.graph.reading c.symbolTable)) : m.NothingOlder c := by
  intro replaced id declares s older
  obtain ⟨_,same⟩ := addSymbolTable_declared named tidy replaced declares
  have still : (m.addSymbolTable c).graph.symbolIdIndex.get? id = some s := by
    rw [same]
    exact (filled_grows named tidy c).known id s older
  obtain ⟨s',member,answered⟩ := (answers replaced).byId id declares
  obtain ⟨g',found,_⟩ := SymbolGraph.getSymbol_spec (m.addSymbolTable c).graph id
  rw [found] at answered
  obtain rfl := Option.some.inj ((SymbolGraph.resolve_known still).symm.trans answered)
  exact member

end

end
end SymbolManager

/-- The manager beside the reading each file was last given, by the file's URI in lower case. -/
structure ReadFiles [Runtime] where
  manager : SymbolManager
  current : String → Option Reading := fun _ => none

namespace ReadFiles

variable [Runtime]

/-- The reading of its file after a call: a replacing call gives the file its canonical table, a rejected
one leaves it, and a merge leaves a table that no single text stands for. -/
def after (h : ReadFiles) (c : TableCall) : Option Reading :=
  let (registration,g) := h.manager.register c
  match registration.decision with
  | .acceptedReplace => some (g.reading registration.canonicalTable)
  | .rejectedStale => h.current (toLowerCase c.normalizedUri)
  | .noopSameInstance | .acceptedFallbackMerge | .acceptedMerge => none

def step (h : ReadFiles) : ManagerStep → ReadFiles
  | .addSymbolTable c =>
    { manager := h.manager.addSymbolTable c
      current := Function.update h.current (toLowerCase c.normalizedUri) (h.after c) }
  | other => { h with manager := h.manager.step other }

/-- The graph answers for every file from the table the file was last given. -/
def Serves (h : ReadFiles) : Prop := ∀ file r, h.current file = some r → h.manager.graph.Answers file r

/-- Each file is handed its own tables, and references go from declaration to declaration. -/
def Proper (h : ReadFiles) : ManagerStep → Prop
  | .addSymbolTable c => h.manager.OwnTable c
  | .overReferences call _ => h.manager.graph.Proper call
  | .processed _ _ => True

def NothingOlder (h : ReadFiles) : ManagerStep → Prop
  | .addSymbolTable c => h.manager.NothingOlder c
  | .overReferences _ _ | .processed _ _ => True

/-- The manager over the parser's objects, before any file was read. -/
def start (heap : Heap) (tables : TableRef → SymbolTable) : ReadFiles :=
  { manager := { graph := { heap := heap,tables := tables } } }

structure Kept (heap : Heap) (h : ReadFiles) : Prop where
  tidy : h.manager.graph.Tidy heap
  placed : h.manager.graph.Placed
  held : ∀ file r, h.current file = some r → h.manager.graph.Holds file r

theorem Kept.serves {heap : Heap} {h : ReadFiles} (kept : Kept heap h) : h.Serves :=
  fun file r given => (kept.held file r given).answers kept.tidy kept.placed

theorem after_replaced {h : ReadFiles} {c : TableCall} (replaced : (h.manager.register c).1.decision = .acceptedReplace) :
    h.after c = some (h.manager.graph.reading c.symbolTable) := by
  simp only [after,replaced]
  rw [SymbolManager.reading_replaced replaced]

theorem after_cases {h : ReadFiles} {c : TableCall} (kept : (h.manager.register c).1.decision ≠ .acceptedReplace)
    (given : h.after c = some r) :
    h.current (toLowerCase c.normalizedUri) = some r ∧ (h.manager.addSymbolTable c).graph = (h.manager.register c).2 := by
  unfold after at given
  cases decided : (h.manager.register c).1.decision with
  | rejectedStale =>
    simp only [decided] at given
    rcases SymbolManager.addSymbolTable_cases h.manager c with ⟨graph,_⟩ | ⟨_,_,accepted⟩ | ⟨_,replaced⟩
    · exact ⟨given,graph⟩
    · exact absurd decided accepted
    · exact absurd replaced kept
  | acceptedReplace => exact absurd decided kept
  | noopSameInstance => simp [decided] at given
  | acceptedFallbackMerge => simp [decided] at given
  | acceptedMerge => simp [decided] at given

variable {heap : Heap} {h : ReadFiles}

theorem addSymbolTable_kept (named : Named heap) (kept : Kept heap h) {c : TableCall} (own : h.manager.OwnTable c)
    (nothing : h.manager.NothingOlder c) : Kept heap (h.step (.addSymbolTable c)) := by
  obtain ⟨tidy,placed⟩ := SymbolManager.addSymbolTable_kept named kept.tidy kept.placed own
  refine ⟨tidy,placed,fun file r given => ?_⟩
  by_cases here : file = toLowerCase c.normalizedUri
  · subst here
    simp only [step,Function.update_self] at given
    by_cases replaced : (h.manager.register c).1.decision = .acceptedReplace
    · rw [after_replaced replaced] at given
      obtain rfl := Option.some.inj given
      exact SymbolManager.addSymbolTable_holds named kept.tidy kept.placed own replaced nothing
    · obtain ⟨before,graph⟩ := after_cases replaced given
      have registered : SymbolGraph.Grows heap [] h.manager.graph _ := SymbolManager.register_grows named kept.tidy c
      simp only [step,graph]
      exact (kept.held _ r before).grows registered (SymbolManager.register_placed kept.placed own) (by simp)
  · simp only [step,Function.update_of_ne here] at given
    exact SymbolManager.addSymbolTable_others named kept.tidy kept.placed own (Ne.symm here) (kept.held file r given)

theorem step_kept (names : NameTables) (named : Named heap) (kept : Kept heap h) {step : ManagerStep}
    (proper : h.Proper step) (nothing : h.NothingOlder step) : Kept heap (h.step step) := by
  cases step with
  | addSymbolTable c => exact addSymbolTable_kept named kept proper nothing
  | overReferences call only =>
    have grown : SymbolGraph.Grows heap [] h.manager.graph _ :=
      SymbolGraph.overReferences_grows names named kept.tidy only
    have placed := SymbolGraph.overReferences_placed kept.placed only proper
    exact ⟨grown.tidy,placed,fun file r given => (kept.held file r given).grows grown placed (by simp)⟩
  | processed t fileUri => exact ⟨kept.tidy,kept.placed,kept.held⟩

theorem nothingOlder_of_serves (named : Named heap) (kept : Kept heap h) {step : ManagerStep} (serves : (h.step step).Serves) :
    h.NothingOlder step := by
  cases step with
  | addSymbolTable c =>
    apply SymbolManager.nothingOlder_of_answers named kept.tidy
    intro replaced
    apply serves
    simp only [ReadFiles.step,Function.update_self]
    exact after_replaced replaced
  | overReferences call only => trivial
  | processed t fileUri => trivial

/-- Every file answers from the table it was last given, all along a history, exactly when no replacing call
finds an id of its table bound to an older symbol. -/
theorem serves_along {heap : Heap} {tables : TableRef → SymbolTable} (names : NameTables) (named : Named heap)
    (declared : ∀ n, Homed (heap (.declared n))) (within : ∀ t, Within heap (tables t) (toLowerCase (tables t).fileUri))
    (keyed : ∀ t, Keyed heap (tables t)) {steps : List ManagerStep} (proper : EveryStep step Proper (start heap tables) steps) :
    EveryState step Serves (start heap tables) steps ↔ EveryStep step NothingOlder (start heap tables) steps := by
  have ready : Kept heap (start heap tables) := by
    refine ⟨⟨named.rigid,keyed,?_,?_,?_⟩,⟨declared,?_,?_,within,?_,?_,?_⟩,?_⟩
    · simp [start,SymbolGraph.listedIds]
    · simp [start,SymbolGraph.listedIds]
    · simp [start,SymbolGraph.listedIds]
    · simp [start]
    · simp [start]
    · simp [start]
    · simp [start]
    · simp [start,SymbolGraph.deferredUnder]
    · simp [start]
  apply everyState_iff_everyStep_of (A := Kept heap) (Q := Proper)
  · intro h step kept _ proper nothing
    exact step_kept names named kept proper nothing
  · intro h step kept _ proper
    constructor
    · exact nothingOlder_of_serves named kept
    · intro nothing
      exact (step_kept names named kept proper nothing).serves
  · exact ready
  · exact ready.serves
  · exact proper

instance (h : ReadFiles) (step : ManagerStep) : Decidable (h.Proper step) :=
  match step with
  | .addSymbolTable c => inferInstanceAs (Decidable (_ ∧ h.manager.graph.Made c.symbolTable ∧ _))
  | .overReferences call _ => inferInstanceAs (Decidable (h.manager.graph.Proper call))
  | .processed _ _ => .isTrue trivial

instance (h : ReadFiles) (step : ManagerStep) : Decidable (h.NothingOlder step) :=
  match step with
  | .addSymbolTable _ => inferInstanceAs (Decidable (_ → ∀ _ ∈ _, ∀ _ ∈ _, _))
  | .overReferences _ _ | .processed _ _ => .isTrue trivial

end ReadFiles

namespace ReadFiles

/-- One class, the class further down in a later text, and a class that takes its place. -/
def utilTexts : Heap
  | .declared 0 => @SymbolGraph.fileClass asciiRuntime "Util" "file:///Util.cls"
  | .declared 1 => { @SymbolGraph.fileClass asciiRuntime "Util" "file:///Util.cls" with location := ⟨⟨7,0,15,1⟩,⟨7,13,7,17⟩⟩ }
  | _ => @SymbolGraph.fileClass asciiRuntime "Helper" "file:///Util.cls"

def serialOf : TableRef → Nat
  | .parsed n => n
  | .ensured n => n

def textTables (t : TableRef) : SymbolTable :=
  (@SymbolTable.addSymbol asciiRuntime utilTexts (SymbolTable.setFileUri {} "file:///Util.cls") (.declared (serialOf t))).2

theorem utilTexts_homed (n : Nat) : @Homed asciiRuntime (utilTexts (.declared n)) := by
  let Classes (_ : Runtime) := Homed (SymbolGraph.fileClass "Util" "file:///Util.cls") ∧
    Homed { SymbolGraph.fileClass "Util" "file:///Util.cls" with location := ⟨⟨7,0,15,1⟩,⟨7,13,7,17⟩⟩ } ∧
    Homed (SymbolGraph.fileClass "Helper" "file:///Util.cls")
  obtain ⟨util,moved,helper⟩ : Classes asciiRuntime := of_byteRuntime Classes (by decide +kernel)
  match n with
  | 0 => exact util
  | 1 => exact moved
  | n + 2 => exact helper

theorem utilTexts_named : Named utilTexts := by
  have sync : ∀ n, Synchronized (utilTexts (.declared n)) := by
    intro n
    match n with
    | 0 => exact ⟨by decide,by decide⟩
    | 1 => exact ⟨by decide,by decide⟩
    | n + 2 => exact (⟨by decide,by decide⟩ : Synchronized (@SymbolGraph.fileClass asciiRuntime "Helper" "file:///Util.cls"))
  have apart : (@SymbolGraph.fileClass asciiRuntime "Util" "file:///Util.cls").id ≠
      (@SymbolGraph.fileClass asciiRuntime "Helper" "file:///Util.cls").id := by decide
  have noBlock : ∀ r, (utilTexts r).isBlockSymbol = false := by
    intro r
    match r with
    | .declared 0 => rfl
    | .declared 1 => rfl
    | .declared (n + 2) => rfl
    | .scalar id => rfl
  refine ⟨sync,fun n n' same => ?_,fun n n' _ => by rw [noBlock,noBlock],fun id => noBlock _⟩
  match n,n' with
  | 0,0 | 0,1 | 1,0 | 1,1 => rfl
  | 0,n' + 2 | 1,n' + 2 => exact absurd same apart
  | n + 2,0 | n + 2,1 => exact absurd same.symm apart
  | n + 2,n' + 2 => rfl

theorem textTables_keyed (t : TableRef) : Keyed utilTexts (textTables t) :=
  let _ := asciiRuntime
  Keyed.addSymbol utilTexts_named.rigid ⟨by simp [heldSymbols,SymbolTable.setFileUri,OrderedMap.empty],
    by simp [SymbolTable.setFileUri]⟩ (serialOf t)

theorem textTables_within (t : TableRef) :
    @Within asciiRuntime utilTexts (textTables t) (asciiRuntime.toLowerCase (textTables t).fileUri) := by
  let _ := asciiRuntime
  intro s held
  rw [textTables,addSymbol_fileUri]
  rcases addSymbol_held held with before | rfl
  · simp [heldSymbols,SymbolTable.setFileUri,OrderedMap.empty] at before
  · refine ⟨⟨utilTexts_homed _,by simp⟩,?_⟩
    rcases serialOf t with _ | _ | n
    · decide +kernel
    · decide +kernel
    · exact (by decide +kernel : homeOf (SymbolGraph.fileClass "Helper" "file:///Util.cls") = toLowerCase "file:///Util.cls")

def readText (serial : Nat) (version : Int) : ManagerStep :=
  .addSymbolTable ⟨.parsed serial,"file:///Util.cls",some version,none⟩

/-- The class is renamed; its name finds nothing any more and the new one is served. -/
theorem renamed_class_served :
    EveryState (@step asciiRuntime) (@Serves asciiRuntime)
      (@start asciiRuntime utilTexts textTables) [readText 0 1,readText 2 2] :=
  let Renamed (_ : Runtime) := EveryStep step Proper (start utilTexts textTables) [readText 0 1,readText 2 2] ∧
    EveryStep step NothingOlder (start utilTexts textTables) [readText 0 1,readText 2 2]
  have renamed : Renamed asciiRuntime := of_byteRuntime Renamed (by decide +kernel)
  (@serves_along asciiRuntime utilTexts textTables asciiRuntime_names utilTexts_named utilTexts_homed textTables_within
    textTables_keyed _ renamed.1).mpr renamed.2

/-- The class moves down in its file; its id still answers the object of the first text. -/
theorem moved_class_not_served :
    ¬ ∀ (heap : Heap) (tables : TableRef → SymbolTable) (steps : List ManagerStep), @NameTables asciiRuntime → Named heap →
      (∀ n, @Homed asciiRuntime (heap (.declared n))) →
      (∀ t, @Within asciiRuntime heap (tables t) (asciiRuntime.toLowerCase (tables t).fileUri)) →
      (∀ t, Keyed heap (tables t)) → EveryStep (@step asciiRuntime) (@Proper asciiRuntime)
        (@start asciiRuntime heap tables) steps →
      EveryState (@step asciiRuntime) (@Serves asciiRuntime) (@start asciiRuntime heap tables) steps := by
  intro always
  let moved : List ManagerStep := [readText 0 1,readText 1 2]
  let Moved (_ : Runtime) := EveryStep step Proper (start utilTexts textTables) moved ∧
    (moved.foldl step (start utilTexts textTables)).current "file:///util.cls" =
      some ⟨["file:///Util.cls#Util$class"],[.declared 1,.declared 1]⟩ ∧
    ((moved.foldl step (start utilTexts textTables)).manager.graph.getSymbol "file:///Util.cls#Util$class").1 =
      some (.declared 0)
  obtain ⟨proper,reading,older⟩ : Moved asciiRuntime := of_byteRuntime Moved (by decide +kernel)
  have last := (always utilTexts textTables moved asciiRuntime_names utilTexts_named utilTexts_homed
    textTables_within textTables_keyed proper).last
  obtain ⟨s,member,answered⟩ := @SymbolGraph.Answers.byId asciiRuntime _ _ _ (last _ _ reading)
    "file:///Util.cls#Util$class" List.mem_cons_self
  obtain rfl := Option.some.inj (answered.symm.trans older)
  revert member
  decide

end ReadFiles
end ApexLs.Symbols
