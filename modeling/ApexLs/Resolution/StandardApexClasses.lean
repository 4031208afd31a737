import ApexLs.Collections.OrderedMap
import ApexLs.Collections.PartialRuns
import ApexLs.Resolution.PreferredTypes

/-! Standard classes on demand. A call looks its name up in the registry, then at the provider, and loads the table of
the class unless a load of it is in flight. Calls stop at each `await`; calls, the answers of the provider and the
insertions into the graph interleave. -/
namespace ApexLs.Resolution

open ApexLs.Utils ApexLs.Types ApexLs.Collections

structure TypeRegistryEntry where
  fqn : String
  name : String
  symbolId : String
  fileUri : String
  deriving DecidableEq, Repr

structure StdlibProvider where
  findNamespaceForClass : String → List String
  resolveClassFqn : String → Option String
  getStandardNamespaces : List (String × List String)
  isStdApexNamespace : String → Bool
  hasClass : String → Bool
  getSymbolTable : String → Option (List ApexSymbol)

/-- The class file a name leads to. It is `direct` when neither its class nor its namespace is known to the provider's
index. -/
structure ClassTarget where
  className : String
  classPath : String
  direct : Bool
  deriving DecidableEq, Repr

inductive Naming where
  | unnamed (simple : String)
  | ambiguous
  | target (target : ClassTarget)
  deriving DecidableEq, Repr

def libraryUri (classPath : String) : String := "apexlib://resources/StandardApexLibrary/" ++ classPath

def ClassTarget.fileUri (t : ClassTarget) : String := libraryUri t.classPath

/-- `/apexlib:\/\/resources\/StandardApexLibrary\/(.+\.cls)$/` -/
def classPathIn : List Char → Option (List Char)
  | [] => none
  | c :: rest =>
    let library := "apexlib://resources/StandardApexLibrary/".toList
    let path := (c :: rest).drop library.length
    if library.isPrefixOf (c :: rest) && ".cls".toList.isSuffixOf path && 4 < path.length && path.all (!isLineTerminator ·)
    then some path
    else classPathIn rest

def TypeRegistryEntry.classPath (e : TypeRegistryEntry) : Option String :=
  (classPathIn e.fileUri.toList).map String.ofList

/-- `classFile.replace(/\.cls$/, '')` -/
def cleanClassName (classFile : String) : String :=
  if ".cls".toList.isSuffixOf classFile.toList then String.ofList (classFile.toList.take (classFile.toList.length - 4))
  else classFile

/-- The symbols of a table as they are once it is added under its URI. -/
def place (fileUri : String) (symbols : List ApexSymbol) : List ApexSymbol := symbols.map fun c => { c with fileUri }

section

variable [Runtime]

/-- `resolveType` answers a dotted name by the full name, another by the name. -/
def TypeRegistryEntry.answers (e : TypeRegistryEntry) (name : String) : Bool :=
  if '.' ∈ name.toList then sameName e.fqn name else sameName e.name name

namespace StdlibProvider

variable (p : StdlibProvider)

/-- The class file of the namespace structure, as it is spelled there. -/
def locate (namespace_ className : String) : ClassTarget :=
  let structure_ := (p.getStandardNamespaces.find? (·.1 = namespace_)).or
    (p.getStandardNamespaces.find? fun n => sameName n.1 namespace_)
  let known := (structure_.map Prod.fst).getD namespace_
  let file := structure_.bind fun n => (n.2.map cleanClassName).find? (sameName · className)
  let classPath := match file with
    | some clean => known ++ "/" ++ clean ++ ".cls"
    | none => namespace_ ++ "/" ++ className ++ ".cls"
  ⟨className,classPath,!p.hasClass classPath && !p.isStdApexNamespace known⟩

/-- From `name.split('.')` to the class file. -/
def naming (name : String) : Naming :=
  match (name.toList.splitOn '.').map String.ofList with
  | namespace_ :: className :: _ => .target (p.locate namespace_ className)
  | parts =>
    let simple := parts.headD ""
    match p.findNamespaceForClass simple with
    | [] => .unnamed simple
    | [namespace_] => .target (p.locate namespace_ simple)
    | _ => .ambiguous

end StdlibProvider

def findClass (symbols : List ApexSymbol) (name : String) : Option ApexSymbol :=
  symbols.find? fun c => sameName c.name name && c.kind = .class_

/-- `getSymbol` in the table of a file: by id, by key, and last by the name the id ends in. -/
def findById (symbols : List ApexSymbol) (symbolId : String) : Option ApexSymbol :=
  ((symbols.find? (·.id = symbolId)).or (symbols.find? (·.key.unifiedId = some symbolId))).or
    ((parseSymbolId symbolId).bind fun parsed =>
      if parsed.name = "" then none
      else (symbols.find? fun c => c.name = parsed.name && !c.isBlockSymbol).or (symbols.find? (·.name = parsed.name)))

/-- The class of a URI among the symbols of a name, else one of the standard library, else any. -/
def pickClass (fileUri : String) (graphSymbols : List ApexSymbol) : Option ApexSymbol :=
  let standard (c : ApexSymbol) := includes c.fileUri.toList "StandardApexLibrary" || includes c.fileUri.toList "apexlib://"
  let graphClassSymbols := graphSymbols.filter fun c => c.kind = .class_ && (c.fileUri = fileUri || standard c)
  (graphClassSymbols.find? (·.fileUri = fileUri)).or ((graphClassSymbols.find? standard).or graphClassSymbols.head?)

end

/-- A load waits for the provider, adds the symbols of its table one by one, and settles. -/
inductive LoadPhase where
  | requested
  | adding (inserted : Nat)
  | settled
  deriving DecidableEq, Repr

/-- One call of `getSymbolTable` and what follows from it. A `guarded` one is entered in the map of loads in flight. -/
structure ClassLoad where
  fileUri : String
  classPath : String
  guarded : Bool
  phase : LoadPhase := .requested
  deriving DecidableEq, Repr

inductive Awaited where
  | installed (symbols : List ApexSymbol)
  | load (index : Nat)

/-- Where a call is: about to ask the registry, after `findSymbolByFQN`, in the load of a registry entry, after
`resolveClassFqn`, in an unguarded load, in a guarded one, after `findSymbolByName` with the URI still marked and
without, at its end. -/
inductive CallPoint where
  | lookingUp
  | byFqn (entry : TypeRegistryEntry) (known : Option ApexSymbol)
  | hydrating (entry : TypeRegistryEntry) (awaited : Awaited)
  | naming (simple : String)
  | fetching (target : ClassTarget) (index : Nat)
  | loading (target : ClassTarget) (awaited : Awaited)
  | leaving (target : ClassTarget) (answer : Option ApexSymbol)
  | returning (answer : Option ApexSymbol)
  | done (answer : Option ApexSymbol)

/-- A call of `resolveStandardApexClass`, with the answer it had from the registry. -/
structure ClassCall where
  name : String
  entry : Option TypeRegistryEntry := none
  point : CallPoint := .lookingUp

def ClassCall.starts (c : ClassCall) : Bool :=
  match c.point with
  | .lookingUp => true
  | _ => false

structure StandardClassLoads where
  loads : List ClassLoad := []
  inFlightStdlibHydration : OrderedMap String Nat := .empty
  fileToSymbolTable : OrderedMap String (List ApexSymbol) := .empty
  graph : List ApexSymbol := []
  loadingSymbolTables : List String := []
  calls : List ClassCall := []

/-- What a call does when it goes on: to another point, into the load of a registry entry, on to the class file of its
name, into a call with the full name, or out of the guarded load. -/
inductive Turn where
  | goes (point : CallPoint)
  | hydrates (entry : TypeRegistryEntry) (classPath : String)
  | targets (target : ClassTarget)
  | asks (fqn : String)
  | leaves (target : ClassTarget) (answer : Option ApexSymbol)

inductive ClassEvent where
  | call (name : String)
  | lookUp (i : Nat) (entry : Option TypeRegistryEntry)
  | resume (i : Nat)
  | answer (index : Nat)
  | insert (index : Nat)
  | settle (index : Nat)

namespace StandardClassLoads

variable (p : StdlibProvider) (s : StandardClassLoads)

def request (fileUri classPath : String) (guarded : Bool) : StandardClassLoads :=
  { s with
    loads := s.loads ++ [{ fileUri,classPath,guarded }]
    inFlightStdlibHydration :=
      if guarded then s.inFlightStdlibHydration.set fileUri s.loads.length else s.inFlightStdlibHydration }

def loadAndRegisterStdlibSymbolTable (fileUri classPath : String) : StandardClassLoads × Awaited :=
  match s.fileToSymbolTable.get? fileUri,s.inFlightStdlibHydration.get? fileUri with
  | some installed,_ => (s,.installed installed)
  | none,some index => (s,.load index)
  | none,none => (s.request fileUri classPath true,.load s.loads.length)

def setCall (i : Nat) (c : ClassCall) : StandardClassLoads := { s with calls := s.calls.set i c }

def setPhase (index : Nat) (load : ClassLoad) (phase : LoadPhase) : StandardClassLoads :=
  { s with loads := s.loads.set index { load with phase } }

def settled (index : Nat) (load : ClassLoad) : StandardClassLoads :=
  { s.setPhase index load .settled with
    inFlightStdlibHydration :=
      if load.guarded then s.inFlightStdlibHydration.erase load.fileUri else s.inFlightStdlibHydration }

def tableOf (load : ClassLoad) : Option (List ApexSymbol) := (p.getSymbolTable load.classPath).map (place load.fileUri)

def result : Awaited → Option (Option (List ApexSymbol))
  | .installed symbols => some (some symbols)
  | .load index => (s.loads[index]?.filter (·.phase = .settled)).map (tableOf p)

def answer (index : Nat) : Option StandardClassLoads :=
  (s.loads[index]?.filter (·.phase = .requested)).map fun load =>
    match tableOf p load with
    | none => s.settled index load
    | some symbols =>
      { s.setPhase index load (.adding 0) with fileToSymbolTable := s.fileToSymbolTable.set load.fileUri symbols }

def insert (index : Nat) : Option StandardClassLoads :=
  s.loads[index]?.bind fun load =>
    match load.phase with
    | .adding inserted => (((tableOf p load).getD [])[inserted]?).map fun c =>
        { s.setPhase index load (.adding (inserted + 1)) with graph := s.graph ++ [c] }
    | _ => none

def settle (index : Nat) : Option StandardClassLoads :=
  (s.loads[index]?.filter fun load => load.phase = .adding ((tableOf p load).getD []).length).map (s.settled index)

variable [Runtime]

/-- `getSymbol`: by the id index, else in the table of the file the id names. -/
def getSymbol (symbolId : String) : Option ApexSymbol :=
  (s.graph.find? (·.id = symbolId)).or
    ((s.fileToSymbolTable.get? (extractFilePathFromUri symbolId)).bind (findById · symbolId))

def findSymbolByFQN (fqn : String) : Option ApexSymbol :=
  (s.graph.find? fun c => c.fqn.any (sameName · fqn)).bind fun c => s.getSymbol c.id

def findSymbolByName (name : String) : List ApexSymbol :=
  if isApexKeyword name then [] else s.graph.filter fun c => sameName c.name name && !c.isBlockSymbol

def pastRegistry (name : String) : Turn :=
  match p.naming name with
  | .unnamed simple => .goes (.naming simple)
  | .ambiguous => .goes (.done none)
  | .target t => .targets t

def lookedUp (name : String) : Option TypeRegistryEntry → Turn
  | none => pastRegistry p name
  | some e =>
    match s.getSymbol e.symbolId with
    | some known => .goes (.done (some known))
    | none => .goes (.byFqn e (s.findSymbolByFQN e.fqn))

/-- What a call that waits at an `await` does next, once it may go on. -/
def resumed (c : ClassCall) : Option Turn :=
  match c.point with
  | .lookingUp => none
  | .byFqn e known =>
    match known.filter fun k => isStandardApexUri k.fileUri,e.classPath with
    | some k,_ => some (.goes (.done (some k)))
    | none,some classPath => some (.hydrates e classPath)
    | none,none => some (pastRegistry p c.name)
  | .hydrating e awaited =>
    (s.result p awaited).map fun symbols =>
      match symbols.bind (findClass · e.name) with
      | some found => .goes (.done (some found))
      | none => pastRegistry p c.name
  | .naming simple =>
    match given (p.resolveClassFqn simple) with
    | some fqn => some (.asks fqn)
    | none => some (.goes (.done none))
  | .fetching t index =>
    (s.result p (.load index)).map fun symbols => .goes (.done (symbols.bind (findClass · t.className)))
  | .loading t awaited =>
    (s.result p awaited).map fun symbols =>
      match symbols with
      | none => .leaves t none
      | some symbols =>
        match (findClass symbols t.className).or (symbols.find? (·.kind = .class_)) with
        -- A class without a name takes the one asked for.
        | some found =>
          .leaves t (some { found with fileUri := t.fileUri,name := if found.name = "" then t.className else found.name })
        | none => .goes (.leaving t (pickClass t.fileUri (s.findSymbolByName t.className)))
  | .leaving t answer => some (.leaves t answer)
  | .returning answer => some (.goes (.done answer))
  | .done _ => none

def take (i : Nat) (c : ClassCall) : Turn → StandardClassLoads
  | .goes point => s.setCall i { c with point }
  | .hydrates e classPath =>
    let (s,awaited) := s.loadAndRegisterStdlibSymbolTable e.fileUri classPath
    s.setCall i { c with point := .hydrating e awaited }
  | .targets t =>
    if t.direct then
      (s.request t.fileUri t.classPath false).setCall i { c with point := .fetching t s.loads.length }
    else if t.fileUri ∈ s.loadingSymbolTables then
      s.setCall i { c with point := .returning (pickClass t.fileUri (s.findSymbolByName t.className)) }
    else
      let s := { s with loadingSymbolTables := t.fileUri :: s.loadingSymbolTables }
      let (s,awaited) := s.loadAndRegisterStdlibSymbolTable t.fileUri t.classPath
      s.setCall i { c with point := .loading t awaited }
  | .asks fqn => s.setCall i { name := fqn }
  | .leaves t answer =>
    { s with loadingSymbolTables := s.loadingSymbolTables.erase t.fileUri }.setCall i { c with point := .done answer }

def turn (registry : List TypeRegistryEntry) : ClassEvent → Option (Nat × ClassCall × Turn)
  | .lookUp i entry =>
    (s.calls[i]?.filter fun c => c.starts && entry.all fun e => e ∈ registry && e.answers c.name).map fun c =>
      (i,{ c with entry },s.lookedUp p c.name entry)
  | .resume i => s.calls[i]?.bind fun c => (s.resumed p c).map fun turn => (i,c,turn)
  | _ => none

def step (registry : List TypeRegistryEntry) : ClassEvent → Option StandardClassLoads
  | .call name => some { s with calls := s.calls ++ [{ name }] }
  | .answer index => s.answer p index
  | .insert index => s.insert p index
  | .settle index => s.settle p index
  | event => (s.turn p registry event).map fun (i,c,turn) => s.take i c turn

end StandardClassLoads

end ApexLs.Resolution
