import ApexLs.Symbols.GraphRuns
import ApexLs.Symbols.Placement

/-! A workspace: the files the parser has read, with their tables and references. Its symbols
are added and its references issued one by one; what the lookups of the graph answer on the way
depends only on the symbols added so far. -/
namespace ApexLs.Symbols

open ApexLs.Utils ApexLs.Types ApexLs.Collections

structure SourceReference where
  source : Ref
  target : Ref
  referenceType : ReferenceType
  location : SymbolLocation
  context : Option ReferenceContext := none
  deriving DecidableEq, Repr

structure SourceFile where
  fileUri : String
  table : Nat
  references : List SourceReference := []
  deriving DecidableEq, Repr

structure Workspace where
  heap : Heap
  tables : TableRef → SymbolTable
  files : List SourceFile

/-- The fields of a symbol that `addSymbol` of the graph leaves alone. -/
structure Alike (s s' : ApexSymbol) : Prop where
  id : s'.id = s.id
  name : s'.name = s.name
  kind : s'.kind = s.kind
  fileUri : s'.fileUri = s.fileUri
  parentId : s'.parentId = s.parentId
  namespace_ : s'.namespace_ = s.namespace_
  unifiedId : s'.key.unifiedId = s.key.unifiedId
  keyFile : s'.key.fileUri = s.key.fileUri

theorem Alike.refl (s : ApexSymbol) : Alike s s := ⟨rfl,rfl,rfl,rfl,rfl,rfl,rfl,rfl⟩

theorem Alike.trans {s s' s'' : ApexSymbol} (first : Alike s s') (second : Alike s' s'') : Alike s s'' where
  id := second.id.trans first.id
  name := second.name.trans first.name
  kind := second.kind.trans first.kind
  fileUri := second.fileUri.trans first.fileUri
  parentId := second.parentId.trans first.parentId
  namespace_ := second.namespace_.trans first.namespace_
  unifiedId := second.unifiedId.trans first.unifiedId
  keyFile := second.keyFile.trans first.keyFile

theorem Alike.block {s s' : ApexSymbol} (alike : Alike s s') : s'.isBlockSymbol = s.isBlockSymbol :=
  congrArg (fun kind => decide (kind = SymbolKind.block)) alike.kind

theorem Alike.put {heap heap' : Heap} (alike : ∀ r, Alike (heap r) (heap' r)) {s : ApexSymbol} (here : Alike (heap' r) s) :
    ∀ r', Alike (heap r') (heap'.put r s r') := by
  intro r'
  rw [Heap.put_apply]
  split
  next same => exact same ▸ (alike r).trans here
  next => exact alike r'

/-- A declaration as the parser leaves it: its key gives its id and its file, and a scope has
adopted it. -/
structure Settled [Runtime] (s : ApexSymbol) (fileUri : String) : Prop where
  file : s.fileUri = fileUri
  hasFile : fileUri ≠ ""
  hasId : s.id ≠ ""
  key : s.key.unifiedId = some s.id
  keyFile : s.key.fileUri = some fileUri
  adopted : s.parentId ≠ .undefined
  ofId : toLowerCase (extractFilePathFromUri s.id) = toLowerCase fileUri

instance [Runtime] (s : ApexSymbol) (fileUri : String) : Decidable (Settled s fileUri) :=
  decidable_of_iff (s.fileUri = fileUri ∧ fileUri ≠ "" ∧ s.id ≠ "" ∧ s.key.unifiedId = some s.id ∧
      s.key.fileUri = some fileUri ∧ s.parentId ≠ .undefined ∧
      toLowerCase (extractFilePathFromUri s.id) = toLowerCase fileUri)
    ⟨fun ⟨file,hasFile,hasId,key,keyFile,adopted,ofId⟩ => ⟨file,hasFile,hasId,key,keyFile,adopted,ofId⟩,
      fun settled => ⟨settled.file,settled.hasFile,settled.hasId,settled.key,settled.keyFile,settled.adopted,settled.ofId⟩⟩

theorem Settled.alike [Runtime] {s s' : ApexSymbol} (settled : Settled s fileUri) (alike : Alike s s') :
    Settled s' fileUri where
  file := alike.fileUri.trans settled.file
  hasFile := settled.hasFile
  hasId := alike.id ▸ settled.hasId
  key := by rw [alike.unifiedId,alike.id,settled.key]
  keyFile := alike.keyFile.trans settled.keyFile
  adopted := alike.parentId ▸ settled.adopted
  ofId := alike.id ▸ settled.ofId

theorem Settled.prepare [Runtime] {heap : Heap} (settled : Settled (heap s) fileUri) : prepare heap s none = heap := by
  have synchronized : synchronizeKey (heap s) = heap s := by
    simp only [synchronizeKey,truthy,settled.key,ne_eq,settled.hasId,not_false_eq_true,decide_true,if_true,Option.getD_some,
      settled.keyFile,orElse,settled.hasFile,if_false]
    rw [← settled.file]
  have kept : adoptParent none (heap s) = heap s := by
    cases parent : (heap s).parentId with
    | undefined => exact absurd parent settled.adopted
    | null => simp [adoptParent,parent]
    | of id => simp [adoptParent,parent]
  rw [Types.prepare,synchronized,kept,Heap.put_eq_self]

namespace Workspace

def tableOf (w : Workspace) (f : SourceFile) : SymbolTable := w.tables (.parsed f.table)

def symbolsOf (w : Workspace) (f : SourceFile) : List Ref := (w.tableOf f).getAllSymbols

def symbols (w : Workspace) : List Ref := w.files.flatMap w.symbolsOf

def firstNamed (w : Workspace) (f : SourceFile) (name : String) : Option Ref :=
  (w.symbolsOf f).find? (fun s => (w.heap s).name = name && !(w.heap s).isBlockSymbol)

/-- The declaration a reference of the file is issued for, unless it is dropped: a block as a
source stands for the declaration around it, and a block is no target. -/
def declaring (w : Workspace) (f : SourceFile) (r : SourceReference) : Option Ref :=
  if (w.heap r.target).isBlockSymbol then none
  else if (w.heap r.source).isBlockSymbol then
    containingSymbol w.heap (w.symbolsOf f) ((w.symbolsOf f).length + 1) [] (w.heap r.source).parentId
  else some r.source

/-- The edge a reference asks for when `source` stands for its source. -/
def edge (w : Workspace) (source : Ref) (r : SourceReference) : RefStoreEntry where
  sourceFileUri := (w.heap source).fileUri
  sourceSymbolId := (w.heap source).id
  targetFileUri := (w.heap r.target).fileUri
  targetSymbolId := (w.heap r.target).id
  referenceType := r.referenceType
  location := r.location
  context := r.context.map ReferenceIndexes.storedContext

/-- What the parser promises of the files it has read, and that what the references refer to is
declared once. -/
structure WellFormed [Runtime] (w : Workspace) : Prop where
  distinct : w.files.Nodup
  apart : ∀ f ∈ w.files, ∀ f' ∈ w.files, toLowerCase f.fileUri = toLowerCase f'.fileUri → f = f'
  normal : ∀ f ∈ w.files, extractFilePathFromUri f.fileUri = f.fileUri
  plain : ∀ f ∈ w.files, '\x1f' ∉ (toLowerCase f.fileUri).toList
  settled : ∀ f ∈ w.files, ∀ s ∈ w.symbolsOf f, Settled (w.heap s) f.fileUri
  /-- A bucket holds symbols of its file that go by one name. -/
  filed : ∀ f ∈ w.files, ∀ s ∈ w.symbolsOf f, ∃ b, (w.tableOf f).symbolMap.get? (w.heap s).id = some b ∧
    s ∈ b.symbols ∧ ∀ e ∈ b.symbols, e ∈ w.symbolsOf f ∧ toLowerCase (w.heap e).name = toLowerCase (w.heap s).name ∧
      (w.heap e).isBlockSymbol = (w.heap s).isBlockSymbol
  /-- Ids are told apart by more than their case, and an id fixes the name. -/
  identities : ∀ s ∈ w.symbols, ∀ u ∈ w.symbols, toLowerCase (w.heap s).id = toLowerCase (w.heap u).id →
    (w.heap s).id = (w.heap u).id ∧ (w.heap s).name = (w.heap u).name ∧
      (w.heap s).isBlockSymbol = (w.heap u).isBlockSymbol
  within : ∀ f ∈ w.files, ∀ r ∈ f.references, r.source ∈ w.symbolsOf f ∧ r.target ∈ w.symbols
  once : ∀ f ∈ w.files, ∀ r ∈ f.references, (w.heap r.target).isBlockSymbol = false → ∀ u ∈ w.symbols,
    (w.heap u).isBlockSymbol = false → toLowerCase (w.heap u).name = toLowerCase (w.heap r.target).name → u = r.target
  /-- `void` and `null` of the bundled library are no declarations. -/
  noScalar : ∀ f ∈ w.files, ∀ r ∈ f.references, SymbolGraph.isStdlibScalarKeyword (w.heap r.target) = false

theorem filed_iff [Runtime] {w : Workspace} {f : SourceFile} {s : Ref} :
    (∃ b, (w.tableOf f).symbolMap.get? (w.heap s).id = some b ∧ s ∈ b.symbols ∧ ∀ e ∈ b.symbols, e ∈ w.symbolsOf f ∧
        toLowerCase (w.heap e).name = toLowerCase (w.heap s).name ∧
        (w.heap e).isBlockSymbol = (w.heap s).isBlockSymbol) ↔
      ((w.tableOf f).symbolMap.get? (w.heap s).id).any fun b => s ∈ b.symbols ∧ ∀ e ∈ b.symbols, e ∈ w.symbolsOf f ∧
        toLowerCase (w.heap e).name = toLowerCase (w.heap s).name ∧
        (w.heap e).isBlockSymbol = (w.heap s).isBlockSymbol := by
  simp only [Option.any_eq_true,decide_eq_true_eq]

instance [Runtime] (w : Workspace) : Decidable w.WellFormed :=
  decidable_of_iff (w.files.Nodup ∧
      (∀ f ∈ w.files, ∀ f' ∈ w.files, toLowerCase f.fileUri = toLowerCase f'.fileUri → f = f') ∧
      (∀ f ∈ w.files, extractFilePathFromUri f.fileUri = f.fileUri ∧ '\x1f' ∉ (toLowerCase f.fileUri).toList ∧
        (∀ s ∈ w.symbolsOf f, Settled (w.heap s) f.fileUri ∧
          ((w.tableOf f).symbolMap.get? (w.heap s).id).any fun b => s ∈ b.symbols ∧ ∀ e ∈ b.symbols, e ∈ w.symbolsOf f ∧
            toLowerCase (w.heap e).name = toLowerCase (w.heap s).name ∧
            (w.heap e).isBlockSymbol = (w.heap s).isBlockSymbol) ∧
        ∀ r ∈ f.references, (r.source ∈ w.symbolsOf f ∧ r.target ∈ w.symbols) ∧
          ((w.heap r.target).isBlockSymbol = false → ∀ u ∈ w.symbols, (w.heap u).isBlockSymbol = false →
            toLowerCase (w.heap u).name = toLowerCase (w.heap r.target).name → u = r.target) ∧
          SymbolGraph.isStdlibScalarKeyword (w.heap r.target) = false) ∧
      ∀ s ∈ w.symbols, ∀ u ∈ w.symbols, toLowerCase (w.heap s).id = toLowerCase (w.heap u).id →
        (w.heap s).id = (w.heap u).id ∧ (w.heap s).name = (w.heap u).name ∧
          (w.heap s).isBlockSymbol = (w.heap u).isBlockSymbol) (by
    simp only [← filed_iff]
    constructor
    · rintro ⟨distinct,apart,files,identities⟩
      exact ⟨distinct,apart,fun f file => (files f file).1,fun f file => (files f file).2.1,
        fun f file s member => ((files f file).2.2.1 s member).1,fun f file s member => ((files f file).2.2.1 s member).2,
        identities,fun f file r reference => ((files f file).2.2.2 r reference).1,
        fun f file r reference => ((files f file).2.2.2 r reference).2.1,
        fun f file r reference => ((files f file).2.2.2 r reference).2.2⟩
    · intro wf
      exact ⟨wf.distinct,wf.apart,fun f file => ⟨wf.normal f file,wf.plain f file,
        fun s member => ⟨wf.settled f file s member,wf.filed f file s member⟩,
        fun r reference => ⟨wf.within f file r reference,wf.once f file r reference,wf.noScalar f file r reference⟩⟩,
        wf.identities⟩)

/-- A file of the symbol has been opened: one of its symbols has been added. -/
def Opened (w : Workspace) (done : List Ref) (s : Ref) : Prop :=
  ∃ f ∈ w.files, s ∈ w.symbolsOf f ∧ ∃ u ∈ w.symbolsOf f, u ∈ done

instance (w : Workspace) (done : List Ref) (s : Ref) : Decidable (w.Opened done s) :=
  inferInstanceAs (Decidable (∃ _ ∈ _, _ ∧ ∃ _ ∈ _, _))

theorem mem_symbols {w : Workspace} (file : f ∈ w.files) (member : s ∈ w.symbolsOf f) : s ∈ w.symbols :=
  List.mem_flatMap.mpr ⟨f,file,member⟩

theorem Opened.mono {w : Workspace} (opened : w.Opened done s) (more : done ⊆ done') : w.Opened done' s := by
  obtain ⟨f,file,member,u,other,added⟩ := opened
  exact ⟨f,file,member,u,other,more added⟩

section

variable [Runtime]

def SameName (w : Workspace) (s u : Ref) : Prop :=
  toLowerCase (w.heap s).name = toLowerCase (w.heap u).name ∧ (w.heap s).isBlockSymbol = (w.heap u).isBlockSymbol

/-- The tables of the graph after the symbols `done` of the workspace were added. -/
structure TablesLoaded (w : Workspace) (done : List Ref) (g : SymbolGraph) : Prop where
  heap : ∀ r, Alike (w.heap r) (g.heap r)
  arrays : ∀ f ∈ w.files, (g.tables (.parsed f.table)).symbolArray = w.symbolsOf f
  maps : ∀ f ∈ w.files, ∀ id, (g.tables (.parsed f.table)).symbolMap.get? id = (w.tableOf f).symbolMap.get? id
  registered : ∀ file t, g.fileToSymbolTable.lookup file = some t →
    ∃ f ∈ w.files, file = toLowerCase f.fileUri ∧ t = .parsed f.table ∧ ∃ u ∈ w.symbolsOf f, u ∈ done
  opened : ∀ f ∈ w.files, (∃ u ∈ w.symbolsOf f, u ∈ done) → g.fileToSymbolTable.get f.fileUri = some (.parsed f.table)

structure Loaded (w : Workspace) (done : List Ref) (g : SymbolGraph) : Prop extends TablesLoaded w done g where
  listed : ∀ file ids, g.fileIndex.lookup file = some ids → ∃ t, g.fileToSymbolTable.lookup file = some t
  resolves : ∀ u ∈ w.symbols, ∀ s, g.resolve (w.heap u).id = some s → w.Opened done s ∧ w.SameName s u
  resolvesOpened : ∀ u, w.Opened done u → ∃ s, g.resolve (w.heap u).id = some s
  qualified : ∀ key s, g.symbolQualifiedIndex.lookup key = some s → ∃ f ∈ w.files, s ∈ w.symbolsOf f ∧ s ∈ done ∧
    key = toLowerCase f.fileUri ++ separator ++ toLowerCase (w.heap s).id
  qualifiedDone : ∀ f ∈ w.files, ∀ s ∈ w.symbolsOf f, s ∈ done →
    ∃ s', g.symbolQualifiedIndex.lookup (toLowerCase f.fileUri ++ separator ++ toLowerCase (w.heap s).id) = some s'
  names : ∀ name ids, g.nameIndex.lookup name = some ids → ∀ id ∈ ids,
    ∃ s ∈ w.symbols, (w.heap s).id = id ∧ toLowerCase (w.heap s).name = name ∧ (w.heap s).isBlockSymbol = false
  namesDone : ∀ s ∈ done, (w.heap s).isBlockSymbol = false →
    ∃ ids, g.nameIndex.lookup (toLowerCase (w.heap s).name) = some ids ∧ (w.heap s).id ∈ ids

theorem Loaded.empty (w : Workspace) : w.Loaded [] { heap := w.heap,tables := w.tables } where
  heap r := Alike.refl (w.heap r)
  arrays _ _ := rfl
  maps _ _ _ := rfl
  registered := by simp
  opened := by simp
  listed := by simp
  resolves := by simp [SymbolGraph.resolve]
  resolvesOpened := by simp [Opened]
  qualified := by simp
  qualifiedDone := by simp
  names := by simp
  namesDone := by simp

theorem Loaded.same {w : Workspace} {g g' : SymbolGraph} (loaded : w.Loaded done g) (same : SymbolGraph.SameSymbols g g') :
    w.Loaded done g' where
  heap := same.heap ▸ loaded.heap
  arrays := same.tables ▸ loaded.arrays
  maps := same.tables ▸ loaded.maps
  registered := same.fileToSymbolTable ▸ loaded.registered
  opened := same.fileToSymbolTable ▸ loaded.opened
  listed := by
    rw [same.fileToSymbolTable,same.fileIndex]
    exact loaded.listed
  resolves u member s found := loaded.resolves u member s (same.resolve _ ▸ found)
  resolvesOpened u opened := by
    rw [same.resolve]
    exact loaded.resolvesOpened u opened
  qualified := same.symbolQualifiedIndex ▸ loaded.qualified
  qualifiedDone := same.symbolQualifiedIndex ▸ loaded.qualifiedDone
  names := same.nameIndex ▸ loaded.names
  namesDone := same.nameIndex ▸ loaded.namesDone

structure Once (w : Workspace) (t : Ref) : Prop where
  declared : t ∈ w.symbols
  semantic : (w.heap t).isBlockSymbol = false
  alone : ∀ u ∈ w.symbols, (w.heap u).isBlockSymbol = false →
    toLowerCase (w.heap u).name = toLowerCase (w.heap t).name → u = t

theorem Once.eq {w : Workspace} (once : w.Once t) (declared : s ∈ w.symbols) (same : w.SameName s t) : s = t :=
  once.alone s declared (same.2.trans once.semantic) same.1

theorem WellFormed.file_eq {w : Workspace} (wf : w.WellFormed) (file : f ∈ w.files) (member : s ∈ w.symbolsOf f)
    (file' : f' ∈ w.files) (member' : s ∈ w.symbolsOf f') : f = f' := by
  apply wf.apart f file f' file'
  rw [← (wf.settled f file s member).file,(wf.settled f' file' s member').file]

omit [Runtime] in
theorem containingSymbol_alike {heap heap' : Heap} (alike : ∀ r, Alike (heap r) (heap' r)) (allSymbols : List Ref) :
    containingSymbol heap' allSymbols = containingSymbol heap allSymbols := by
  funext steps visited parentId
  induction steps generalizing visited parentId with
  | zero => cases parentId <;> rfl
  | succ steps ih =>
    cases parentId with
    | undefined => rfl
    | null => rfl
    | of currentId =>
      simp only [containingSymbol,ih,(alike _).id,(alike _).block,(alike _).kind,(alike _).parentId]

section lookups

variable {w : Workspace} (wf : w.WellFormed) {done : List Ref} {g : SymbolGraph} (loaded : w.Loaded done g)

include wf loaded

section

variable (file : f ∈ w.files) (opened : ∃ u ∈ w.symbolsOf f, u ∈ done)
include file opened

theorem Loaded.fileSymbols :
    g.fileSymbols f.fileUri = w.symbolsOf f := by
  simp only [SymbolGraph.fileSymbols,wf.normal f file,loaded.opened f file opened]
  exact loaded.arrays f file

theorem Loaded.firstNamed (name : String) :
    g.firstNamed f.fileUri name = w.firstNamed f name := by
  simp only [SymbolGraph.firstNamed,Workspace.firstNamed,wf.normal f file,loaded.fileSymbols wf file opened,
    (loaded.heap _).name,(loaded.heap _).block]

theorem Loaded.declaringSource (member : source ∈ w.symbolsOf f) :
    g.declaringSource source = if (w.heap source).isBlockSymbol then
      containingSymbol w.heap (w.symbolsOf f) ((w.symbolsOf f).length + 1) [] (w.heap source).parentId
    else some source := by
  have here := (wf.settled f file source member).file
  simp only [SymbolGraph.declaringSource,SymbolGraph.findContainingSymbolForBlock,(loaded.heap source).block,
    (loaded.heap source).fileUri,(loaded.heap source).parentId,here,wf.normal f file,loaded.opened f file opened,
    Option.bind_some,containingSymbol_alike loaded.heap]
  have array : (g.table (.parsed f.table)).getAllSymbols = w.symbolsOf f := loaded.arrays f file
  rw [array]
  split
  next => rfl
  next => rfl

end

section

variable (file : f ∈ w.files) (member : s ∈ w.symbolsOf f)
include file member

theorem Loaded.qualifiedKey :
    toLowerCase (makeQualifiedSymbolKey (g.heap s).fileUri (g.heap s).id) =
      toLowerCase f.fileUri ++ separator ++ toLowerCase (w.heap s).id := by
  rw [makeQualifiedSymbolKey,makeInternalKey,Runtime.lower_separator,(loaded.heap s).fileUri,(loaded.heap s).id,
    (wf.settled f file s member).file,wf.normal f file]

theorem Loaded.qualifiedFound
    (found : g.symbolQualifiedIndex.get (makeQualifiedSymbolKey (g.heap s).fileUri (g.heap s).id) = some s') :
    s' ∈ w.symbolsOf f ∧ s' ∈ done ∧ (w.heap s').id = (w.heap s).id ∧ w.SameName s' s := by
  rw [CaseInsensitiveMap.get,loaded.qualifiedKey wf file member] at found
  obtain ⟨f',file',member',added,key⟩ := loaded.qualified _ s' found
  obtain ⟨sameFile,sameId⟩ := separator_split key (wf.plain f file) (wf.plain f' file')
  obtain rfl := wf.apart f file f' file' sameFile
  obtain ⟨id,name,block⟩ := wf.identities s' (mem_symbols file member') s (mem_symbols file member) sameId.symm
  exact ⟨member',added,id,congrArg toLowerCase name,block⟩

theorem Loaded.sourceStands (added : s ∈ done) :
    ∃ s', g.standIn (g.heap s) = some s' ∧ s' ∈ w.symbolsOf f ∧ (w.heap s').id = (w.heap s).id := by
  obtain ⟨s',found⟩ := loaded.qualifiedDone f file s member added
  rw [← loaded.qualifiedKey wf file member] at found
  obtain ⟨member',_,id,_⟩ := loaded.qualifiedFound wf file member found
  refine ⟨s',?_,member',id⟩
  rw [SymbolGraph.standIn,SymbolGraph.identified,CaseInsensitiveMap.get,found]
  rfl

end

theorem Loaded.identified_once (once : w.Once t) (found : g.identified (g.heap t).id (g.heap t).fileUri = some s) :
    s = t ∧ w.Opened done t := by
  obtain ⟨f,file,member⟩ := List.mem_flatMap.mp once.declared
  rcases Option.or_eq_some_iff.mp found with qualified | ⟨_,byId⟩
  · obtain ⟨member',added,_,same⟩ := loaded.qualifiedFound wf file member qualified
    exact ⟨once.eq (mem_symbols file member') same,f,file,member,s,member',added⟩
  · rw [(loaded.heap t).id] at byId
    obtain ⟨⟨f',file',member',added⟩,same⟩ := loaded.resolves t once.declared s byId
    obtain rfl := once.eq (mem_symbols file' member') same
    exact ⟨rfl,f',file',member',added⟩

theorem Loaded.targetStands (once : w.Once t) (opened : w.Opened done t) : g.standIn (g.heap t) = some t := by
  have identified : ∃ s, g.identified (g.heap t).id (g.heap t).fileUri = some s := by
    obtain ⟨s,byId⟩ := loaded.resolvesOpened t opened
    rw [SymbolGraph.identified,(loaded.heap t).id]
    cases g.symbolQualifiedIndex.get (makeQualifiedSymbolKey (g.heap t).fileUri (w.heap t).id) with
    | some s' => exact ⟨s',rfl⟩
    | none => exact ⟨s,byId⟩
  obtain ⟨s,found⟩ := identified
  obtain ⟨rfl,_⟩ := loaded.identified_once wf once found
  rw [SymbolGraph.standIn,found]
  rfl

theorem Loaded.targetMissing (once : w.Once t) (unopened : ¬ w.Opened done t) : g.standIn (g.heap t) = none := by
  obtain ⟨f,file,member⟩ := List.mem_flatMap.mp once.declared
  have unidentified : g.identified (g.heap t).id (g.heap t).fileUri = none := by
    cases found : g.identified (g.heap t).id (g.heap t).fileUri with
    | none => rfl
    | some s => exact absurd (loaded.identified_once wf once found).2 unopened
  have noTable : g.fileToSymbolTable.get f.fileUri = none := by
    cases found : g.fileToSymbolTable.get f.fileUri with
    | none => rfl
    | some r =>
      obtain ⟨f',file',same,_,added⟩ := loaded.registered _ r found
      obtain rfl := wf.apart f file f' file' same
      exact absurd ⟨f,file,member,added⟩ unopened
  have noIds : g.fileIndex.get f.fileUri = none := by
    cases found : g.fileIndex.get f.fileUri with
    | none => rfl
    | some ids =>
      obtain ⟨r,known⟩ := loaded.listed _ ids found
      rw [CaseInsensitiveMap.get,known] at noTable
      cases noTable
  rw [SymbolGraph.standIn,unidentified,(loaded.heap t).fileUri,(wf.settled f file t member).file]
  simp [SymbolGraph.firstNamed,SymbolGraph.fileSymbols,wf.normal f file,noTable,noIds,SymbolGraph.symbolsOf]

omit wf in
theorem Loaded.candidates (once : w.Once t) (opened : w.Opened done t) (added : t ∈ done)
    (same : toLowerCase name = toLowerCase (w.heap t).name) (nameable : isApexKeyword name = false) :
    g.symbolsNamed name ≠ [] ∧ ∀ s ∈ g.symbolsNamed name, s = t := by
  obtain ⟨ids,listed,here⟩ := loaded.namesDone t added once.semantic
  have idsOf : (g.nameIndex.get name).getD [] = ids := by
    rw [CaseInsensitiveMap.get,same,listed]
    rfl
  have only : ∀ s ∈ g.symbolsNamed name, s = t := by
    intro s member
    simp only [SymbolGraph.symbolsNamed,nameable,idsOf] at member
    obtain ⟨resolved,semantic⟩ := List.mem_filter.mp member
    obtain ⟨id,inIds,found⟩ := List.mem_filterMap.mp resolved
    obtain ⟨u,declared,rfl,sameName,semantic'⟩ := loaded.names _ ids listed id inIds
    obtain rfl := once.alone u declared semantic' sameName
    obtain ⟨⟨f,file,member',_⟩,alike⟩ := loaded.resolves u declared s found
    exact once.eq (mem_symbols file member') alike
  refine ⟨?_,only⟩
  obtain ⟨s,found⟩ := loaded.resolvesOpened t opened
  obtain ⟨⟨f,file,member',_⟩,alike⟩ := loaded.resolves t once.declared s found
  obtain rfl := once.eq (mem_symbols file member') alike
  apply List.ne_nil_of_mem (a := s)
  simp only [SymbolGraph.symbolsNamed,nameable,idsOf]
  refine List.mem_filter.mpr ⟨List.mem_filterMap.mpr ⟨_,here,found⟩,?_⟩
  rw [(loaded.heap s).block,once.semantic]
  rfl

end lookups

theorem addSymbol_filed {heap : Heap} {t : SymbolTable} (settled : Settled (heap s) fileUri)
    (filed : t.symbolMap.get? (heap s).id = some b) (member : s ∈ b.symbols) (listed : b.symbols ⊆ t.symbolArray) :
    (t.addSymbol heap s).1 = heap ∧ (t.addSymbol heap s).2.symbolArray = t.symbolArray ∧
      ∀ id, (t.addSymbol heap s).2.symbolMap.get? id = t.symbolMap.get? id := by
  have pushed : ∀ l : List Ref, ∀ more ⊆ l, more.foldl SymbolTable.pushIfAbsent l = l := by
    intro l more
    induction more with
    | nil => exact fun _ => rfl
    | cons r rest ih =>
      intro within
      obtain ⟨here,others⟩ := List.cons_subset.mp within
      rw [List.foldl_cons,SymbolTable.pushIfAbsent,if_pos here]
      exact ih others
  have symbolKey : getUnifiedId (heap s).key (heap s).fileUri = (heap s).id := by
    simp [getUnifiedId,truthy,settled.key,settled.hasId]
  have found : t.lookupExisting heap s = ((heap s).id,some b) := by
    simp only [SymbolTable.lookupExisting,symbolKey,filed]
  simp only [SymbolTable.addSymbol,SymbolTable.insertPrepared,settled.prepare,symbolKey,found]
  cases b with
  | single e =>
    obtain rfl : s = e := by simpa [Bucket.symbols] using member
    simp [SymbolTable.exitOf,SymbolTable.exitAgainst,SymbolTable.perform]
  | many l =>
    have same : SymbolTable.pushIfAbsent l s = l := by
      rw [SymbolTable.pushIfAbsent,if_pos (show s ∈ l from member)]
    refine ⟨rfl,?_,fun id => ?_⟩
    · simp only [SymbolTable.exitOf,SymbolTable.perform,SymbolTable.updateRootsArray,SymbolTable.file,same]
      exact pushed _ _ (List.cons_subset.mpr ⟨listed member,listed⟩)
    · simp only [SymbolTable.exitOf,SymbolTable.perform,SymbolTable.updateRootsArray,SymbolTable.file,same,
        OrderedMap.get?_set]
      split
      next here => rw [here,filed]
      next => rfl

section registration

variable {w : Workspace} (wf : w.WellFormed) {done : List Ref}

include wf

theorem TablesLoaded.answers {g : SymbolGraph} (loaded : w.TablesLoaded done g) (declared : u ∈ w.symbols) :
    (∀ s, (g.fileToSymbolTable.get (extractFilePathFromUri (w.heap u).id)).bind
        (fun t => findInTable g.heap (g.table t) (w.heap u).id) = some s → w.Opened done s ∧ w.SameName s u) ∧
      (w.Opened done u → ∃ s, (g.fileToSymbolTable.get (extractFilePathFromUri (w.heap u).id)).bind
        (fun t => findInTable g.heap (g.table t) (w.heap u).id) = some s) := by
  obtain ⟨f,file,member⟩ := List.mem_flatMap.mp declared
  have own : g.fileToSymbolTable.get (extractFilePathFromUri (w.heap u).id) = g.fileToSymbolTable.get f.fileUri := by
    rw [CaseInsensitiveMap.get,(wf.settled f file u member).ofId]
    rfl
  obtain ⟨b,filed,inBucket,alike⟩ := wf.filed f file u member
  have first : ∃ e, findInTable g.heap (g.table (.parsed f.table)) (w.heap u).id = some e ∧ e ∈ b.symbols := by
    obtain ⟨e,rest,symbols⟩ := List.exists_cons_of_ne_nil (List.ne_nil_of_mem inBucket)
    refine ⟨e,?_,by simp [symbols]⟩
    have byId : (g.table (.parsed f.table)).getSymbolById (w.heap u).id = some e := by
      rw [SymbolTable.getSymbolById,show (g.table (.parsed f.table)).symbolMap.get? (w.heap u).id = _ from
        loaded.maps f file _,filed]
      simp [Bucket.first?,symbols]
    simp [findInTable,byId]
  obtain ⟨e,answer,inside⟩ := first
  obtain ⟨listed,name,block⟩ := alike e inside
  rw [own]
  constructor
  · intro s found
    obtain ⟨t,registered,found⟩ := Option.bind_eq_some_iff.mp found
    obtain ⟨f',file',same,rfl,added⟩ := loaded.registered _ t registered
    obtain rfl := wf.apart f file f' file' same
    rw [answer] at found
    obtain rfl := Option.some.inj found
    exact ⟨⟨f,file,listed,added⟩,name,block⟩
  · rintro ⟨f',file',member',added⟩
    obtain rfl := wf.file_eq file member file' member'
    exact ⟨e,by rw [loaded.opened f file added]; exact answer⟩

theorem Loaded.register {g : SymbolGraph} (loaded : w.Loaded done g) (file : f ∈ w.files) :
    ∃ tables known,
      (g.registerSymbolTable (.parsed f.table) f.fileUri).2 = { g with tables := tables,fileToSymbolTable := known } ∧
      (∀ r, (tables r).symbolArray = (g.tables r).symbolArray ∧ (tables r).symbolMap = (g.tables r).symbolMap) ∧
      ∀ name, known.lookup name =
        if name = toLowerCase f.fileUri then some (.parsed f.table) else g.fileToSymbolTable.lookup name := by
  have notedTable : ∀ r, ((g.setTable (.parsed f.table)
    ((g.table (.parsed f.table)).setFileUri f.fileUri)).tables r).symbolArray =
      (g.tables r).symbolArray ∧ ((g.setTable (.parsed f.table)
        ((g.table (.parsed f.table)).setFileUri f.fileUri)).tables r).symbolMap = (g.tables r).symbolMap := by
    intro r
    by_cases this : r = .parsed f.table
    · subst this
      simp [SymbolGraph.setTable,SymbolTable.setFileUri,SymbolGraph.table]
    · simp [SymbolGraph.setTable,this]
  simp only [SymbolGraph.registerSymbolTable,wf.normal f file]
  cases known : g.fileToSymbolTable.get f.fileUri with
  | none =>
    refine ⟨_,_,rfl,notedTable,fun name => ?_⟩
    exact CaseInsensitiveMap.lookup_set _ _ _ _
  | some existing =>
    obtain ⟨f',file',same,rfl,_⟩ := loaded.registered _ existing known
    obtain rfl := wf.apart f file f' file' same
    refine ⟨g.tables,g.fileToSymbolTable,by simp,fun _ => ⟨rfl,rfl⟩,fun name => ?_⟩
    split
    next here => rw [here]; exact known
    next => rfl

theorem Loaded.grow {g g' : SymbolGraph} (loaded : w.Loaded done g) (file : f ∈ w.files) (member : s ∈ w.symbolsOf f)
    (heap : ∀ r, Alike (w.heap r) (g'.heap r))
    (arrays : ∀ f ∈ w.files, (g'.tables (.parsed f.table)).symbolArray = w.symbolsOf f)
    (maps : ∀ f ∈ w.files, ∀ id, (g'.tables (.parsed f.table)).symbolMap.get? id = (w.tableOf f).symbolMap.get? id)
    (lookup : ∀ name, g'.fileToSymbolTable.lookup name =
      if name = toLowerCase f.fileUri then some (.parsed f.table) else g.fileToSymbolTable.lookup name)
    (ids : g'.symbolIdIndex =
      if !g.symbolIdIndex.has (w.heap s).id then g.symbolIdIndex.set (w.heap s).id s else g.symbolIdIndex)
    (qualified : g'.symbolQualifiedIndex =
      g.symbolQualifiedIndex.set (makeQualifiedSymbolKey f.fileUri (w.heap s).id) s)
    (files : g'.fileIndex = SymbolGraph.pushId g.fileIndex f.fileUri (w.heap s).id)
    (names : g'.nameIndex = if !(w.heap s).isBlockSymbol then SymbolGraph.pushId g.nameIndex (w.heap s).name (w.heap s).id
      else g.nameIndex) : w.Loaded (s :: done) g' := by
  have more : done ⊆ s :: done := List.subset_cons_self s done
  have tables : w.TablesLoaded (s :: done) g' := by
    refine ⟨heap,arrays,maps,fun name t found => ?_,fun f' file' added => ?_⟩
    · rw [lookup] at found
      split at found
      next here =>
        obtain rfl := Option.some.inj found
        exact ⟨f,file,here,rfl,s,member,List.mem_cons_self⟩
      next =>
        obtain ⟨f',file',same,table,u,other,added⟩ := loaded.registered name t found
        exact ⟨f',file',same,table,u,other,more added⟩
    · rw [CaseInsensitiveMap.get,lookup]
      split
      next same => rw [wf.apart f' file' f file same]
      next apart =>
        obtain ⟨u,other,added⟩ := added
        apply loaded.opened f' file'
        rcases List.mem_cons.mp added with rfl | old
        · exact absurd (congrArg (fun f => toLowerCase f.fileUri) (wf.file_eq file' other file member)) apart
        · exact ⟨u,other,old⟩
  have qualifiedKey : toLowerCase (makeQualifiedSymbolKey f.fileUri (w.heap s).id) =
      toLowerCase f.fileUri ++ separator ++ toLowerCase (w.heap s).id := by
    rw [makeQualifiedSymbolKey,makeInternalKey,Runtime.lower_separator,wf.normal f file]
  refine { toTablesLoaded := tables,listed := ?_,resolves := ?_,resolvesOpened := ?_,qualified := ?_,qualifiedDone := ?_,
           names := ?_,namesDone := ?_ }
  · intro name known found
    rw [lookup]
    split
    next => exact ⟨_,rfl⟩
    next apart =>
      rw [files,SymbolGraph.pushId] at found
      split at found
      next => exact loaded.listed name known found
      next =>
        rw [CaseInsensitiveMap.lookup_set,if_neg apart] at found
        exact loaded.listed name known found
  · intro u declared x found
    rcases Option.or_eq_some_iff.mp found with byId | ⟨_,inTable⟩
    · have cases_ : (x = s ∧ (w.heap u).id = (w.heap s).id) ∨ g.symbolIdIndex.get? (w.heap u).id = some x := by
        rw [ids] at byId
        split at byId
        next =>
          rw [OrderedMap.get?_set] at byId
          split at byId
          next same => exact .inl ⟨(Option.some.inj byId).symm,same⟩
          next => exact .inr byId
        next => exact .inr byId
      rcases cases_ with ⟨rfl,same⟩ | known
      · obtain ⟨_,name,block⟩ := wf.identities x (mem_symbols file member) u declared (congrArg toLowerCase same.symm)
        exact ⟨⟨f,file,member,x,member,List.mem_cons_self⟩,congrArg toLowerCase name,block⟩
      · have resolved : g.resolve (w.heap u).id = some x := by
          rw [SymbolGraph.resolve,known]
          rfl
        obtain ⟨opened,same⟩ := loaded.resolves u declared x resolved
        exact ⟨opened.mono more,same⟩
    · exact (tables.answers wf declared).1 x inTable
  · intro u opened
    obtain ⟨f',file',other,added⟩ := opened
    obtain ⟨x,inTable⟩ := (tables.answers wf (mem_symbols file' other)).2 ⟨f',file',other,added⟩
    rw [SymbolGraph.resolve,inTable]
    cases g'.symbolIdIndex.get? (w.heap u).id with
    | none => exact ⟨x,rfl⟩
    | some y => exact ⟨y,rfl⟩
  · intro key x found
    rw [qualified,CaseInsensitiveMap.lookup_set] at found
    split at found
    next here =>
      obtain rfl := Option.some.inj found
      exact ⟨f,file,member,List.mem_cons_self,here.trans qualifiedKey⟩
    next =>
      obtain ⟨f',file',other,added,same⟩ := loaded.qualified key x found
      exact ⟨f',file',other,more added,same⟩
  · intro f' file' u other added
    rw [qualified,CaseInsensitiveMap.lookup_set]
    split
    next => exact ⟨s,rfl⟩
    next apart =>
      rcases List.mem_cons.mp added with rfl | old
      · obtain rfl := wf.file_eq file' other file member
        exact absurd qualifiedKey.symm apart
      · exact loaded.qualifiedDone f' file' u other old
  · intro name known found id inside
    rw [names] at found
    split at found
    next semantic =>
      rcases SymbolGraph.mem_pushId.mp ⟨known,found,inside⟩ with ⟨before,was,old⟩ | ⟨here,rfl⟩
      · exact loaded.names name before was id old
      · exact ⟨s,mem_symbols file member,rfl,here.symm,by simpa using semantic⟩
    next => exact loaded.names name known found id inside
  · intro u added semantic
    rw [names]
    rcases List.mem_cons.mp added with rfl | old
    · rw [if_pos (by simpa using semantic)]
      exact SymbolGraph.mem_pushId.mpr (.inr ⟨rfl,rfl⟩)
    · have before := loaded.namesDone u old semantic
      split
      next => exact SymbolGraph.mem_pushId.mpr (.inl before)
      next => exact before

theorem Loaded.addSymbol {g : SymbolGraph} (loaded : w.Loaded done g) (file : f ∈ w.files) (member : s ∈ w.symbolsOf f) :
    ∃ g', g.addSymbol s f.fileUri (some (.parsed f.table)) = g' ∧ w.Loaded (s :: done) g' ∧ g'.refs = g.refs ∧
      g'.deferredReferences = g.deferredReferences := by
  obtain ⟨tables,known,registered,kept,lookup⟩ := loaded.register wf file
  have settled := (wf.settled f file s member).alike (loaded.heap s)
  obtain ⟨b,filed,inBucket,alike⟩ := wf.filed f file s member
  have filed' : (tables (.parsed f.table)).symbolMap.get? (g.heap s).id = some b := by
    rw [(kept _).2,loaded.maps f file,(loaded.heap s).id]
    exact filed
  have array : (tables (.parsed f.table)).symbolArray = w.symbolsOf f := by
    rw [(kept _).1]
    exact loaded.arrays f file
  obtain ⟨sameHeap,sameArray,sameMap⟩ := addSymbol_filed settled filed' inBucket
    (fun e inside => by rw [array]; exact (alike e inside).1)
  have symbolId : getSymbolId (g.heap s) f.fileUri = (w.heap s).id := by
    rw [getSymbolId,if_pos settled.hasId,(loaded.heap s).id]
  have named : ∀ fqn, Alike (g.heap s) (SymbolGraph.withFqn (g.heap s) fqn) := by
    intro fqn
    unfold SymbolGraph.withFqn
    split
    next => exact Alike.refl _
    next => exact ⟨rfl,rfl,rfl,rfl,rfl,rfl,rfl,rfl⟩
  have marked : ∀ s', Alike s' (SymbolGraph.markStandardClass f.fileUri s') := by
    intro s'
    unfold SymbolGraph.markStandardClass
    split
    next => exact ⟨rfl,rfl,rfl,rfl,rfl,rfl,rfl,rfl⟩
    next => exact Alike.refl _
  simp only [SymbolGraph.addSymbol,symbolId,wf.normal f file,registered,Option.some_or,SymbolGraph.addToTable,
    SymbolGraph.table,sameHeap]
  generalize calculateFQN g.heap (g.heap s) _ = fqn
  have fqnHeap := Alike.put loaded.heap (named fqn)
  refine ⟨_,rfl,loaded.grow wf file member ?_ ?_ ?_ lookup ?_ rfl rfl ?_,rfl,rfl⟩
  · exact Alike.put fqnHeap (marked _)
  · intro f' file'
    by_cases this : f'.table = f.table
    · have here := loaded.arrays f' file'
      rw [this,← (kept _).1,← sameArray] at here
      simpa [SymbolGraph.indexSymbol,SymbolGraph.setTable,this] using here
    · have here := loaded.arrays f' file'
      rw [← (kept _).1] at here
      simpa [SymbolGraph.indexSymbol,SymbolGraph.setTable,this] using here
  · intro f' file' id
    by_cases this : f'.table = f.table
    · have here := loaded.maps f' file' id
      rw [this,← (kept _).2,← sameMap] at here
      simpa [SymbolGraph.indexSymbol,SymbolGraph.setTable,this] using here
    · have here := loaded.maps f' file' id
      rw [← (kept _).2] at here
      simpa [SymbolGraph.indexSymbol,SymbolGraph.setTable,this] using here
  · simp [SymbolGraph.indexSymbol,SymbolGraph.setTable]
  · have block := (loaded.heap s).block
    have name := (loaded.heap s).name
    simp only [SymbolGraph.indexSymbol,Heap.put_self,(named fqn).block,(named fqn).name,block,name]
    rfl

end registration

end

end Workspace
end ApexLs.Symbols
