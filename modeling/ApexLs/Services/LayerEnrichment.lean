import ApexLs.Collections.Runs
import ApexLs.Services.DocumentStateCache

/-! The enrichment of files with further symbol layers. Several calls run at once, each stopping
at its awaits, while documents are edited and their edits processed. -/
namespace ApexLs.Services.LayerEnrichment

open ApexLs.Collections ApexLs.Types

/-- The layers that lead from one level to another; `full` adds none of its own. -/
def getLayersToApply (currentLevel targetLevel : DetailLevel) : List DetailLevel :=
  if targetLevel.order ≤ currentLevel.order then []
  else
    (if currentLevel.order < 2 ∧ 2 ≤ targetLevel.order then [.protected_] else []) ++
      (if currentLevel.order < 3 ∧ 3 ≤ targetLevel.order then [.private_] else [])

/-- The layers that `compileLayered` walks: those requested with all below them. -/
def ensureDependencies (requestedLayers : List DetailLevel) : List DetailLevel :=
  [.publicApi,.protected_,.private_,.full].filter fun level =>
    requestedLayers.any fun layer => level.order < layer.order || level = layer

structure FileToEnrich where
  uri : String
  currentLevel : DetailLevel
  version : Int
  deriving DecidableEq, Repr

/-- Where a call stands. A document is named by its version as it was when it was asked for. -/
inductive Stage where
  | checking (uri : String) (document : Option Int) (rest : List String) (filesToEnrich : List FileToEnrich)
  | fetching (file : FileToEnrich) (document : Option Int) (i : Nat) (rest : List FileToEnrich)
  | reading (file : FileToEnrich) (document : Int) (layersToApply : List DetailLevel) (i : Nat) (rest : List FileToEnrich)
  | adding (file : FileToEnrich) (compiled : Bool) (i : Nat) (rest : List FileToEnrich)
  | yielding (i : Nat) (rest : List FileToEnrich)
  | ended
  | failed
  deriving DecidableEq, Repr

/-- A call of `enrichFiles`, with the files it is through with and met no compile error in. -/
structure Call where
  targetLevel : DetailLevel
  stage : Stage
  finished : List (String × Int) := []
  deriving DecidableEq, Repr

/-- What the services hold, and what has been collected: a layer of a text of a document. A cached
parse tree stands for the text it is the tree of. -/
structure World (τ : Type) where
  storage : OrderedMap String Int := .empty
  cache : DocumentStateCache Unit Unit τ := {}
  collected : List (String × τ × DetailLevel) := []
  calls : List Call := []

/-- How an await ends, and after the existing table was read, what `compileLayered` does: it
returns what it compiled, or its own handler returns the existing table, if any. -/
inductive Answer where
  | fulfilled
  | rejected
  | compiled
  | broken (kept : Bool)
  | threw
  deriving DecidableEq, Repr

inductive Event where
  | enrichFiles (fileUris : List String) (targetLevel : DetailLevel)
  | resume (call : Nat) (answer : Answer) (now : Nat)
  | edited (uri : String) (version : Int)
  | processed (uri : String) (version : Int) (now : Nat)
  deriving DecidableEq, Repr

def levelOf {τ : Type} (documentVersion : Int) (detailLevel : DetailLevel) : PartialState Unit Unit τ where
  documentVersion := documentVersion
  detailLevel := some (some detailLevel)

def processedState {τ : Type} (documentVersion : Int) (parseTree : τ) : PartialState Unit Unit τ :=
  { diagnostics := some (some [])
    parseTree := some (some parseTree)
    detailLevel := some (some .publicApi)
    documentVersion := documentVersion
    symbolsIndexed := some (some false) }

namespace World

variable {τ : Type}

def fetch (w : World τ) (call : Call) (i : Nat) : List FileToEnrich → Call
  | [] => { call with stage := .ended }
  | file :: rest => { call with stage := .fetching file (w.storage.get? file.uri) i rest }

def check (w : World τ) (call : Call) (filesToEnrich : List FileToEnrich) : List String → Call
  | [] => if filesToEnrich = [] then { call with stage := .ended } else w.fetch call 0 filesToEnrich
  | uri :: rest => { call with stage := .checking uri (w.storage.get? uri) rest filesToEnrich }

def turn (w : World τ) (call : Call) (i : Nat) (rest : List FileToEnrich) : Call :=
  if (i + 1) % 10 = 0 then { call with stage := .yielding (i + 1) rest } else w.fetch call (i + 1) rest

/-- The walks of `compileLayered` over a tree, one for each layer. -/
def walk (w : World τ) (uri : String) (tree : τ) (layers : List DetailLevel) : World τ :=
  { w with collected := layers.map (fun layer => (uri,tree,layer)) ++ w.collected }

/-- A call from one await to the next. `text` is the text of each version of a document. -/
def resume (text : String → Int → τ) (w : World τ) (call : Call) (answer : Answer) (now : Nat) : World τ × Call :=
  match call.stage,answer with
  | .checking uri document rest filesToEnrich,.fulfilled =>
    match document with
    | none => (w,w.check call filesToEnrich rest)
    | some version =>
      if w.cache.hasDetailLevel uri version call.targetLevel then
        (w,w.check { call with finished := (uri,version) :: call.finished } filesToEnrich rest)
      else
        let file : FileToEnrich := ⟨uri,(w.cache.getDetailLevel uri version).getD .publicApi,version⟩
        (w,w.check call (filesToEnrich ++ [file]) rest)
  -- an error of the check is logged and the file left out
  | .checking _ _ rest filesToEnrich,.rejected => (w,w.check call filesToEnrich rest)
  | .fetching file document i rest,.fulfilled =>
    match document with
    | none => (w,w.fetch call (i + 1) rest)
    | some document =>
      let layersToApply := getLayersToApply file.currentLevel call.targetLevel
      if layersToApply = [] then
        (w,w.fetch { call with finished := (file.uri,file.version) :: call.finished } (i + 1) rest)
      else (w,{ call with stage := .reading file document layersToApply i rest })
  | .reading file document layersToApply i rest,.compiled =>
    let tree := (w.cache.getParseTree file.uri file.version).getD (text file.uri document)
    (w.walk file.uri tree (ensureDependencies layersToApply),{ call with stage := .adding file true i rest })
  | .reading file _ _ i rest,.broken kept =>
    if kept then (w,{ call with stage := .adding file false i rest }) else (w,w.turn call i rest)
  | .reading file _ _ i rest,.threw =>
    ({ w with cache := w.cache.markEnrichmentFailed file.uri },w.fetch call (i + 1) rest)
  | .adding file compiled i rest,.fulfilled =>
    let finished := if compiled then (file.uri,file.version) :: call.finished else call.finished
    ({ w with cache := w.cache.merge file.uri (levelOf file.version call.targetLevel) now },
      w.turn { call with finished := finished } i rest)
  | .adding file _ i rest,.threw =>
    ({ w with cache := w.cache.markEnrichmentFailed file.uri },w.fetch call (i + 1) rest)
  | .yielding i rest,.fulfilled => (w,w.fetch call i rest)
  -- a promise that rejects inside the loop ends the generator, and with it the call
  | .fetching ..,.rejected => (w,{ call with stage := .failed })
  | .reading ..,.rejected => (w,{ call with stage := .failed })
  | .adding ..,.rejected => (w,{ call with stage := .failed })
  | _,_ => (w,call)

def step (text : String → Int → τ) (w : World τ) : Event → World τ
  | .enrichFiles fileUris targetLevel =>
    let call : Call := { targetLevel := targetLevel,stage := .ended }
    { w with calls := w.calls ++ [if fileUris = [] then call else w.check call [] fileUris] }
  | .resume i answer now =>
    match w.calls[i]? with
    | none => w
    | some call =>
      let (w,call) := w.resume text call answer now
      { w with calls := w.calls.set i call }
  | .edited uri version => { w with storage := w.storage.set uri version }
  | .processed uri version now =>
    { w.walk uri (text uri version) [.publicApi] with
      cache := w.cache.merge uri (processedState version (text uri version)) now }

/-- Every layer up to a level has been collected from the text of a version. -/
def Collected (text : String → Int → τ) (w : World τ) (uri : String) (version : Int) (level : DetailLevel) : Prop :=
  ∀ layer : DetailLevel, layer ≠ .full → layer.order ≤ level.order → (uri,text uri version,layer) ∈ w.collected

/-- What is asked of a step: a call that ends with it has reached its target in every file it is
through with, no level is recorded above what was collected, and none falls. -/
structure Truthful (text : String → Int → τ) (w : World τ) (e : Event) : Prop where
  reached : ∀ (i : Nat) (call : Call), (w.step text e).calls[i]? = some call → call.stage = .ended →
    (∀ before, w.calls[i]? = some before → before.stage ≠ .ended) → ∀ uri version, (uri,version) ∈ call.finished →
      (w.step text e).Collected text uri version call.targetLevel ∧
        (w.step text e).cache.hasDetailLevel uri version call.targetLevel = true
  honest : ∀ uri version level, (w.step text e).cache.getDetailLevel uri version = some level →
    (w.step text e).Collected text uri version level
  rises : ∀ uri version before after, w.cache.getDetailLevel uri version = some before →
    (w.step text e).cache.getDetailLevel uri version = some after → before.order ≤ after.order

def InProgress (call : Call) : Prop := call.stage ≠ .ended ∧ call.stage ≠ .failed

/-- Writing a version of a document drops another one from the cache: it takes its place, or
the document is the oldest one in a full cache. -/
def Drops (c : DocumentStateCache Unit Unit τ) (uri : String) (version : Int) (other : String) (otherVersion : Int) : Prop :=
  (other = uri ∧ otherVersion ≠ version) ∨
    (c.cache.get? uri = none ∧ c.maxSize ≤ c.cache.size ∧ DocumentStateCache.oldestKey c.cache.entries = some other)

/-- A level may be written: it does not lie below the one on record, and drops no file that a
call in progress is through with. -/
structure Writable (w : World τ) (uri : String) (version : Int) (level : DetailLevel) : Prop where
  rises : ∀ recorded, w.cache.getDetailLevel uri version = some recorded → recorded.order ≤ level.order
  stays : ∀ call ∈ w.calls, InProgress call → ∀ other otherVersion, (other,otherVersion) ∈ call.finished →
    ¬ Drops w.cache uri version other otherVersion

/-- The condition on a call that is resumed. A file below the target must need a layer, the text
that is compiled be that of the version checked, a compilation that breaks off return no table. -/
def SoundCall (text : String → Int → τ) (w : World τ) (call : Call) (answer : Answer) : Prop :=
  match call.stage,answer with
  | .checking uri (some version) _ _,.fulfilled =>
    (w.cache.getDetailLevel uri version = none → call.targetLevel ≠ .publicApi) ∧
      (w.cache.getDetailLevel uri version = some .private_ → call.targetLevel ≠ .full)
  | .reading file document _ _ _,.compiled =>
    (w.cache.getParseTree file.uri file.version).getD (text file.uri document) = text file.uri file.version
  | .reading ..,.broken kept => kept = false
  | .adding file _ _ _,.fulfilled => w.Writable file.uri file.version call.targetLevel
  | _,_ => True

def Sound (text : String → Int → τ) (w : World τ) : Event → Prop
  | .resume i answer _ => ∀ call, w.calls[i]? = some call → w.SoundCall text call answer
  | .processed uri version _ => w.Writable uri version .publicApi
  | _ => True

/-- A world to start from: no call is made and the levels on record were collected. -/
structure Rested (text : String → Int → τ) (w : World τ) : Prop where
  calls : w.calls = []
  honest : ∀ uri version level, w.cache.getDetailLevel uri version = some level → w.Collected text uri version level

end World
end ApexLs.Services.LayerEnrichment
