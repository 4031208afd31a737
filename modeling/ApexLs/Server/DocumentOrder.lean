import Mathlib.Data.List.Nodup
import ApexLs.Queue.TaskStarts
import ApexLs.Server.SymbolReadiness

/-! Document notifications on their way from the editor to the data owner. They are queued by
priority, started by the controller, sent when their fiber begins, and handled in the order sent.
The handlers store what comes, whatever was stored before. -/
namespace ApexLs.Server

open ApexLs.Collections ApexLs.Utils ApexLs.Types ApexLs.Symbols ApexLs.Services ApexLs.Queue

inductive DocumentEventKind where
  | documentOpen (languageId : String)
  | documentChange
  | documentSave
  | documentClose
  deriving DecidableEq, Repr

def DocumentEventKind.priority : DocumentEventKind → Priority
  | .documentOpen _ => .high
  | .documentChange => .normal
  | .documentSave => .normal
  | .documentClose => .immediate

structure LiveDocument where
  version : Nat
  text : String
  deriving DecidableEq, Repr

/-- The params of a notification with what its document holds by then. Notifications of one URI may
carry the same document object, which later edits change in place. -/
structure DocumentEvent where
  kind : DocumentEventKind
  uri : String
  object : Nat
  version : Nat
  text : String
  deriving DecidableEq, Repr

structure CompileMessage where
  uri : String
  version : Nat
  content : String
  deriving DecidableEq, Repr

/-- What `dispatch` sends for a task: a message to be acknowledged, and the one sent after that. -/
structure Dispatch where
  id : String
  store : OwnerCommand
  compile : Option CompileMessage

namespace DocumentEvent

def live (e : DocumentEvent) : LiveDocument := ⟨e.version,e.text⟩

def buildDataOwnerMessage (e : DocumentEvent) (document : LiveDocument) : OwnerCommand :=
  match e.kind with
  | .documentOpen languageId => .dispatchDocumentOpen e.uri languageId document.version document.text
  | .documentChange => .dispatchDocumentChange e.uri document.version document.text
  | .documentSave => .dispatchDocumentSave e.uri document.version document.text
  | .documentClose => .dispatchDocumentClose e.uri

def buildCompileMessage (e : DocumentEvent) (document : LiveDocument) : Option CompileMessage :=
  match e.kind with
  | .documentClose => none
  | _ => some ⟨e.uri,document.version,document.text⟩

/-- Both messages read the document when the fiber of the task begins. -/
def dispatch (e : DocumentEvent) (id : String) (document : LiveDocument) : Dispatch :=
  ⟨id,e.buildDataOwnerMessage document,e.buildCompileMessage document⟩

def outcome (e : DocumentEvent) (document : LiveDocument) : Option WorkerDocument :=
  match e.kind with
  | .documentOpen languageId =>
    some { uri := e.uri,languageId := languageId,version := document.version,text := document.text }
  | .documentChange => some { uri := e.uri,version := document.version,text := document.text }
  | .documentSave => some { uri := e.uri,version := document.version,text := document.text }
  | .documentClose => none

end DocumentEvent

/-- The coordinator's scheduler and the data owner. `submitted` has the tasks in the order of their
submission, `none` for a request that is no document event; `started` the forked tasks whose fiber
has not begun; `sent` the messages on their way. -/
structure DocumentTraffic [Runtime] where
  scheduler : Scheduler
  submitted : OrderedMap String (Option DocumentEvent) := .empty
  documents : String → Nat → LiveDocument
  started : List String := []
  sent : List Dispatch := []
  compiling : List CompileMessage := []
  handled : List String := []
  owner : DataOwner

/-- What happens at the coordinator, on the way and at the owner, in any order. -/
inductive TrafficEvent where
  | submitDocument (id : String) (event : DocumentEvent)
  | submitRequest (id : String) (p : Priority)
  | withdraw (p : Priority) (i : Nat)
  | shutdown
  | controller (budget : Nat)
  | finished (i : Nat) (outcome : Scheduler.Outcome)
  | errorHandled (i : Nat)
  | begins (id : String)
  | delivered
  | compiled (i : Nat) (symbolTable : SymbolTable) (parserDiagnostics now : Nat)
  | compilationFailed (i : Nat)
  | closeFinishes (uri : String)

namespace DocumentTraffic

variable [Runtime]

def scheduling (t : DocumentTraffic) (cfg : Config) (event : Scheduler.Event) : DocumentTraffic :=
  { t with scheduler := t.scheduler.step cfg event }

/-- `submitNotification` and `submitRequest`. An id stands for the task, so a new task has a new one. -/
def submit (t : DocumentTraffic) (cfg : Config) (id : String) (p : Priority) (event : Option DocumentEvent) :
    DocumentTraffic :=
  if t.submitted.has id then t
  else { t.scheduling cfg (.offer p ⟨id⟩) with submitted := t.submitted.set id event }

def edit (t : DocumentTraffic) (e : DocumentEvent) : DocumentTraffic :=
  { t with documents := fun uri object => if uri = e.uri ∧ object = e.object then e.live else t.documents uri object }

def submitDocument (t : DocumentTraffic) (cfg : Config) (id : String) (e : DocumentEvent) : DocumentTraffic :=
  if t.submitted.has id then t else (t.edit e).submit cfg id e.kind.priority (some e)

def controller (t : DocumentTraffic) (cfg : Config) (budget : Nat) : DocumentTraffic :=
  let scheduler := t.scheduler.controllerLoop cfg budget
  let forked := scheduler.forked.drop t.scheduler.forked.length
  { t with
    scheduler := scheduler
    started := t.started ++ forked.map (·.item.id) }

def event (t : DocumentTraffic) (id : String) : Option DocumentEvent := (t.submitted.get? id).join

/-- The fiber of a forked task runs its effect, which calls `dispatch` at once. -/
def begins (t : DocumentTraffic) (id : String) : DocumentTraffic :=
  if id ∈ t.started then
    let t' := { t with started := t.started.erase id }
    match t.event id with
    | some e => { t' with sent := t.sent ++ [e.dispatch id (t.documents e.uri e.object)] }
    | none => t'
  else t

/-- The owner handles the oldest message, and its answer lets the compile message go. -/
def delivered (t : DocumentTraffic) : DocumentTraffic :=
  match t.sent with
  | [] => t
  | d :: rest =>
    { t with
      sent := rest
      owner := t.owner.step d.store
      compiling := t.compiling ++ d.compile.toList
      handled := t.handled ++ [d.id] }

/-- A compilation of the pool has ended, with a table to commit or without. -/
def compiled (t : DocumentTraffic) (i : Nat) (ends : CompileMessage → OwnerCommand) : DocumentTraffic :=
  match t.compiling[i]? with
  | some m => { t with compiling := t.compiling.eraseIdx i,owner := t.owner.step (ends m) }
  | none => t

def step (cfg : Config) (t : DocumentTraffic) : TrafficEvent → DocumentTraffic
  | .submitDocument id e => t.submitDocument cfg id e
  | .submitRequest id p => t.submit cfg id p none
  | .withdraw p i => t.scheduling cfg (.withdraw p i)
  | .shutdown => t.scheduling cfg .shutdown
  | .controller budget => t.controller cfg budget
  | .finished i outcome => t.scheduling cfg (.finished i outcome)
  | .errorHandled i => t.scheduling cfg (.handled i)
  | .begins id => t.begins id
  | .delivered => t.delivered
  | .compiled i symbolTable parserDiagnostics now =>
    t.compiled i fun m => .compileDocument ⟨m.uri,m.version,m.content,symbolTable,parserDiagnostics⟩ now
  | .compilationFailed i => t.compiled i fun m => .compilationFailed m.uri m.version
  | .closeFinishes uri => { t with owner := t.owner.step (.closeFinishes uri) }

def place (t : DocumentTraffic) (id : String) : Nat := t.submitted.keys.idxOf id

def Before (t : DocumentTraffic) (x y : String) : Prop :=
  ∀ e f, t.event x = some e → t.event y = some f → e.uri = f.uri → t.place x < t.place y

def Last (t : DocumentTraffic) (x : String) (e : DocumentEvent) : Prop :=
  t.event x = some e ∧ ∀ y f, t.event y = some f → f.uri = e.uri → t.place y ≤ t.place x

def Processed (t : DocumentTraffic) : Prop := ∀ id e, t.event id = some e → id ∈ t.handled

/-- The handlers of the events of a document ran in the order of submission, and once all events
have been processed each document is as the last of its events leaves it. -/
structure InOrder (t : DocumentTraffic) : Prop where
  handlers : t.handled.Pairwise t.Before
  stored : t.Processed → ∀ x e, t.Last x e → t.owner.storage.get? e.uri = e.outcome e.live

def line (t : DocumentTraffic) : List String := t.handled ++ t.sent.map Dispatch.id

def pending (t : DocumentTraffic) : List String := t.started ++ t.scheduler.waiting.map QueuedItem.id

/-- A task begins only when no earlier event of its document still waits in a queue, or for its own
fiber to begin. -/
def Orderly (t : DocumentTraffic) : TrafficEvent → Prop
  | .begins id => id ∈ t.started → ∀ other ∈ t.pending, other ≠ id → t.Before id other
  | _ => True

structure Tracked (t : DocumentTraffic) : Prop where
  known : ∀ id ∈ t.line ++ t.pending, t.submitted.has id = true
  distinct : (t.line ++ t.pending).Nodup

/-- The tasks sent were sent in order, ahead of all that have not begun. -/
structure Lined (t : DocumentTraffic) : Prop extends t.Tracked where
  ordered : t.line.Pairwise t.Before
  ahead : ∀ x ∈ t.line, ∀ y ∈ t.pending, t.Before x y

/-- What is read and stored for the last event of a document is its own. -/
structure Served (t : DocumentTraffic) : Prop where
  documents : ∀ x e, t.Last x e → t.documents e.uri e.object = e.live
  messages : ∀ d ∈ t.sent, ∃ e document, t.event d.id = some e ∧ d = e.dispatch d.id document ∧
    (t.Last d.id e → document = e.live)
  stored : ∀ x ∈ t.handled, ∀ e, t.Last x e → t.owner.storage.get? e.uri = e.outcome e.live

variable {t t' : DocumentTraffic} {id : String}

theorem step_buildDataOwnerMessage (o : DataOwner) (e : DocumentEvent) (document : LiveDocument) (uri : String) :
    (o.step (e.buildDataOwnerMessage document)).storage.get? uri =
      if uri = e.uri then e.outcome document else o.storage.get? uri := by
  cases kind : e.kind with
  | documentOpen languageId =>
    obtain ⟨storage,_⟩ := o.storeAndArm_spec ⟨e.uri,languageId,document.version,document.text⟩
    simp only [DocumentEvent.buildDataOwnerMessage,DocumentEvent.outcome,kind,DataOwner.step]
    rw [DataOwner.dispatchDocumentOpen,storage,OrderedMap.get?_set]
  | documentChange =>
    obtain ⟨storage,_⟩ := o.storeAndArm_spec { uri := e.uri,version := document.version,text := document.text }
    simp only [DocumentEvent.buildDataOwnerMessage,DocumentEvent.outcome,kind,DataOwner.step]
    rw [DataOwner.dispatchDocumentChange,storage,OrderedMap.get?_set]
  | documentSave =>
    obtain ⟨storage,_⟩ := o.storeAndArm_spec { uri := e.uri,version := document.version,text := document.text }
    simp only [DocumentEvent.buildDataOwnerMessage,DocumentEvent.outcome,kind,DataOwner.step]
    rw [DataOwner.dispatchDocumentSave,storage,OrderedMap.get?_set]
  | documentClose =>
    obtain ⟨storage,_⟩ := o.dispatchDocumentClose_spec e.uri
    simp only [DocumentEvent.buildDataOwnerMessage,DocumentEvent.outcome,kind,DataOwner.step]
    rw [storage,OrderedMap.get?_erase]

theorem compileDocument_storage (o : DataOwner) (compiled : Compilation) (now : Nat) :
    (o.step (.compileDocument compiled now)).storage = o.storage := by
  change (o.commit compiled now).2.storage = o.storage
  rcases o.commit_cases compiled now with ⟨_,_,same⟩ | ⟨_,_,_,_,records⟩
  · exact same.storage
  · exact records.storage

theorem event_of_submitted (same : t'.submitted = t.submitted) : t'.event = t.event := by
  funext id
  rw [event,event,same]

theorem Before.congr (same : t'.submitted = t.submitted) : t'.Before x y ↔ t.Before x y := by
  rw [Before,Before,event_of_submitted same,place,place,place,place,same]

theorem Last.congr (same : t'.submitted = t.submitted) : t'.Last x e ↔ t.Last x e := by
  simp only [Last,event_of_submitted same,place,same]

theorem known_of_event (found : t.event x = some e) : t.submitted.has x = true := by
  rw [event,Option.join_eq_some_iff] at found
  exact OrderedMap.has_iff.mpr ⟨_,found⟩

structure Adds (t t' : DocumentTraffic) (id : String) (event : Option DocumentEvent) : Prop where
  fresh : t.submitted.has id = false
  submitted : t'.submitted = t.submitted.set id event

namespace Adds

variable {new : Option DocumentEvent}

section

variable (adds : Adds t t' id new)
include adds

theorem apart (known : t.submitted.has x = true) : x ≠ id := by
  rintro rfl
  rw [adds.fresh] at known
  cases known

theorem event_new : t'.event id = new := by
  rw [event,adds.submitted,OrderedMap.get?_set_self]
  rfl

theorem event_old (apart : x ≠ id) : t'.event x = t.event x := by
  rw [event,event,adds.submitted,OrderedMap.get?_set_of_ne _ _ apart]

theorem keys : t'.submitted.keys = t.submitted.keys ++ [id] := by
  have absent : id ∉ t.submitted.keys := by
    rw [← OrderedMap.get?_eq_none_iff,← Option.isNone_iff_eq_none,← Option.not_isSome]
    have fresh : (t.submitted.get? id).isSome = false := adds.fresh
    simp [fresh]
  rw [adds.submitted,OrderedMap.keys_set,if_neg absent]

theorem place_old (known : t.submitted.has x = true) : t'.place x = t.place x := by
  rw [place,adds.keys]
  exact List.idxOf_append_of_mem (OrderedMap.mem_keys_iff.mpr (OrderedMap.has_iff.mp known))

theorem place_lt (known : t.submitted.has x = true) : t'.place x < t'.place id := by
  have absent : id ∉ t.submitted.keys := by
    intro member
    obtain ⟨v,found⟩ := OrderedMap.mem_keys_iff.mp member
    exact adds.apart (OrderedMap.has_iff.mpr ⟨v,found⟩) rfl
  rw [adds.place_old known,place,place,adds.keys,List.idxOf_append_of_notMem absent]
  have inside := List.idxOf_lt_length_of_mem (OrderedMap.mem_keys_iff.mpr (OrderedMap.has_iff.mp known))
  omega

theorem before_old (knownX : t.submitted.has x = true) (knownY : t.submitted.has y = true) :
    t'.Before x y ↔ t.Before x y := by
  rw [Before,Before,adds.event_old (adds.apart knownX),adds.event_old (adds.apart knownY),adds.place_old knownX,
    adds.place_old knownY]

theorem before_new (known : t.submitted.has x = true) : t'.Before x id :=
  fun _ _ _ _ _ => adds.place_lt known

theorem last_old (last : t'.Last x e) (apart : x ≠ id) :
    t.Last x e ∧ ∀ f, new = some f → f.uri ≠ e.uri := by
  obtain ⟨found,greatest⟩ := last
  rw [adds.event_old apart] at found
  have known := known_of_event found
  refine ⟨⟨found,fun y f other same => ?_⟩,fun f is same => ?_⟩
  · have knownY := known_of_event other
    rw [← adds.place_old known,← adds.place_old knownY]
    apply greatest y f
    · rw [adds.event_old (adds.apart knownY),other]
    · exact same
  · have below := greatest id f (adds.event_new.trans is) same
    have above := adds.place_lt known
    omega

end

end Adds

structure Quiet (t t' : DocumentTraffic) : Prop where
  submitted : t'.submitted = t.submitted
  line : t'.line = t.line
  pending : t'.pending.Subperm t.pending

theorem Quiet.refl (t : DocumentTraffic) : Quiet t t := ⟨rfl,rfl,.refl _⟩

theorem scheduling_quiet {cfg : Config} {event : Scheduler.Event}
    (waiting : (t.scheduler.step cfg event).waiting.Sublist t.scheduler.waiting) : Quiet t (t.scheduling cfg event) :=
  ⟨rfl,rfl,((List.Sublist.refl t.started).append (waiting.map _)).subperm⟩

theorem controller_quiet (t : DocumentTraffic) (cfg : Config) (budget : Nat) : Quiet t (t.controller cfg budget) := by
  obtain ⟨forked,waiting⟩ := t.scheduler.controllerLoop_started cfg budget
  refine ⟨rfl,rfl,?_⟩
  have items : (((t.scheduler.controllerLoop cfg budget).forked.drop t.scheduler.forked.length).map Task.item) =
      t.scheduler.startsNext cfg budget := by
    rw [List.map_drop,forked]
    exact List.drop_left' (List.length_map ..)
  have started : (t.controller cfg budget).started =
      t.started ++ (t.scheduler.startsNext cfg budget).map QueuedItem.id := by
    rw [← items,List.map_map]
    rfl
  apply List.Perm.subperm
  rw [pending,started,List.append_assoc,← List.map_append]
  exact (waiting.map _).append_left _

theorem delivered_quiet (t : DocumentTraffic) : Quiet t t.delivered := by
  cases sent : t.sent with
  | nil =>
    rw [delivered,sent]
    exact .refl t
  | cons d rest =>
    rw [delivered,sent]
    exact ⟨rfl,by simp [line,sent],.refl _⟩

theorem compiled_quiet (t : DocumentTraffic) (i : Nat) (ends : CompileMessage → OwnerCommand) :
    Quiet t (t.compiled i ends) := by
  rw [compiled]
  split
  next => exact ⟨rfl,rfl,.refl _⟩
  next => exact .refl t

structure Queues (t t' : DocumentTraffic) (id : String) (event : Option DocumentEvent) : Prop where
  adds : Adds t t' id event
  line : t'.line = t.line
  pending : t'.pending.Perm (id :: t.pending)

structure Sends (t t' : DocumentTraffic) (id : String) : Prop where
  submitted : t'.submitted = t.submitted
  line : t'.line = t.line ++ [id]
  pending : (id :: t'.pending).Perm t.pending

theorem submit_queues (fresh : ¬ t.submitted.has id = true) (cfg : Config) (p : Priority)
    (new : Option DocumentEvent) : Queues t (t.submit cfg id p new) id new := by
  rw [submit,if_neg fresh]
  refine ⟨⟨by simpa using fresh,rfl⟩,rfl,?_⟩
  have waiting := (Scheduler.waiting_offer cfg t.scheduler p ⟨id⟩).map QueuedItem.id
  exact (waiting.append_left t.started).trans List.perm_middle

theorem submitDocument_queues (fresh : ¬ t.submitted.has id = true) (cfg : Config) (e : DocumentEvent) :
    Queues t (t.submitDocument cfg id e) id (some e) := by
  rw [submitDocument,if_neg fresh]
  obtain ⟨⟨absent,submitted⟩,line,pending⟩ := submit_queues (t := t.edit e) fresh cfg e.kind.priority (some e)
  exact ⟨⟨absent,submitted⟩,line,pending⟩

theorem begins_cases (t : DocumentTraffic) (id : String) :
    (Quiet t (t.begins id) ∧ (id ∈ t.started → t.event id = none)) ∨
      (id ∈ t.started ∧ Sends t (t.begins id) id) := by
  rw [begins]
  split
  next member =>
    have pending : (id :: (t.started.erase id ++ t.scheduler.waiting.map QueuedItem.id)).Perm t.pending :=
      (List.perm_cons_erase member).symm.append_right _
    cases found : t.event id with
    | none => exact .inl ⟨⟨rfl,rfl,(List.sublist_cons_self _ _).subperm.trans pending.subperm⟩,fun _ => rfl⟩
    | some e => exact .inr ⟨member,rfl,by simp [line,DocumentEvent.dispatch],pending⟩
  next absent => exact .inl ⟨.refl t,fun member => absurd member absent⟩

theorem step_cases (cfg : Config) (t : DocumentTraffic) (event : TrafficEvent) :
    Quiet t (t.step cfg event) ∨ (∃ id new, Queues t (t.step cfg event) id new) ∨
      ∃ id, event = .begins id ∧ id ∈ t.started ∧ Sends t (t.step cfg event) id := by
  cases event with
  | submitDocument id e =>
    by_cases fresh : t.submitted.has id = true
    · refine .inl ?_
      rw [step,submitDocument,if_pos fresh]
      exact .refl t
    · exact .inr (.inl ⟨id,some e,submitDocument_queues fresh cfg e⟩)
  | submitRequest id p =>
    by_cases fresh : t.submitted.has id = true
    · refine .inl ?_
      rw [step,submit,if_pos fresh]
      exact .refl t
    · exact .inr (.inl ⟨id,none,submit_queues fresh cfg p none⟩)
  | withdraw p i => exact .inl (scheduling_quiet (Scheduler.waiting_withdraw cfg t.scheduler p i))
  | shutdown => exact .inl (scheduling_quiet (Scheduler.waiting_of_queues rfl))
  | controller budget => exact .inl (t.controller_quiet cfg budget)
  | finished i outcome => exact .inl (scheduling_quiet (Scheduler.waiting_of_queues (t.scheduler.finished_queues i outcome)))
  | errorHandled i => exact .inl (scheduling_quiet (Scheduler.waiting_of_queues (t.scheduler.handled_queues i)))
  | begins id =>
    rcases t.begins_cases id with ⟨quiet,_⟩ | ⟨member,sends⟩
    · exact .inl quiet
    · exact .inr (.inr ⟨id,rfl,member,sends⟩)
  | delivered => exact .inl t.delivered_quiet
  | compiled i symbolTable parserDiagnostics now => exact .inl (t.compiled_quiet i _)
  | compilationFailed i => exact .inl (t.compiled_quiet i _)
  | closeFinishes uri => exact .inl ⟨rfl,rfl,.refl _⟩

section

variable (tracked : t.Tracked)
include tracked

theorem Tracked.quiet (quiet : Quiet t t') : t'.Tracked := by
  have below : (t'.line ++ t'.pending).Subperm (t.line ++ t.pending) := by
    rw [quiet.line]
    exact (List.subperm_append_left _).mpr quiet.pending
  constructor
  · intro id member
    rw [quiet.submitted]
    exact tracked.known id (below.subset member)
  · obtain ⟨l,perm,sublist⟩ := below
    exact perm.nodup_iff.mp (tracked.distinct.sublist sublist)

theorem Tracked.queues (queued : Queues t t' id new) : t'.Tracked := by
  obtain ⟨adds,line,pending⟩ := queued
  have all : (t'.line ++ t'.pending).Perm (id :: (t.line ++ t.pending)) := by
    rw [line]
    exact (pending.append_left t.line).trans List.perm_middle
  constructor
  · intro x member
    rw [adds.submitted]
    rcases List.mem_cons.mp (all.subset member) with rfl | old
    · exact OrderedMap.has_iff.mpr ⟨_,OrderedMap.get?_set_self ..⟩
    · have known := tracked.known x old
      rw [OrderedMap.has,OrderedMap.get?_set_of_ne _ _ (adds.apart known)]
      exact known
  · rw [all.nodup_iff]
    exact List.nodup_cons.mpr ⟨fun member => adds.apart (tracked.known id member) rfl,tracked.distinct⟩

theorem Tracked.sends (sends : Sends t t' id) : t'.Tracked := by
  have all : (t'.line ++ t'.pending).Perm (t.line ++ t.pending) := by
    rw [sends.line,List.append_assoc]
    exact sends.pending.append_left t.line
  constructor
  · intro x member
    rw [sends.submitted]
    exact tracked.known x (all.subset member)
  · exact all.nodup_iff.mpr tracked.distinct

theorem Tracked.step (cfg : Config) (event : TrafficEvent) : (t.step cfg event).Tracked := by
  rcases step_cases cfg t event with quiet | ⟨id,new,queued⟩ | ⟨id,_,_,sends⟩
  · exact tracked.quiet quiet
  · exact tracked.queues queued
  · exact tracked.sends sends

theorem Tracked.sent (member : x ∈ t.line) : t.submitted.has x = true :=
  tracked.known x (List.mem_append_left _ member)

theorem Tracked.left (member : x ∈ t.line) (waits : y ∈ t.pending) : y ≠ x := by
  rintro rfl
  exact (List.nodup_append.mp tracked.distinct).2.2 y member y waits rfl

end

theorem Sends.member (sends : Sends t t' id) : id ∈ t'.line := by
  rw [sends.line]
  exact List.mem_append_right _ (List.mem_singleton_self id)

theorem Lined.quiet (lined : t.Lined) (quiet : Quiet t t') : t'.Lined := by
  refine ⟨lined.toTracked.quiet quiet,?_,fun x sent y later => ?_⟩
  · rw [quiet.line]
    exact lined.ordered.imp (Before.congr quiet.submitted).mpr
  · rw [quiet.line] at sent
    exact (Before.congr quiet.submitted).mpr (lined.ahead x sent y (quiet.pending.subset later))

theorem Lined.queues (lined : t.Lined) (queued : Queues t t' id new) : t'.Lined := by
  have adds := queued.adds
  refine ⟨lined.toTracked.queues queued,?_,fun x sent y later => ?_⟩
  · rw [queued.line]
    exact lined.ordered.imp_of_mem fun left right before =>
      (adds.before_old (lined.sent left) (lined.sent right)).mpr before
  · rw [queued.line] at sent
    rcases List.mem_cons.mp (queued.pending.subset later) with rfl | old
    · exact adds.before_new (lined.sent sent)
    · have known := lined.known y (List.mem_append_right _ old)
      exact (adds.before_old (lined.sent sent) known).mpr (lined.ahead x sent y old)

theorem Lined.sends (lined : t.Lined) (sends : Sends t t' id)
    (clear : ∀ other ∈ t.pending, other ≠ id → t.Before id other) : t'.Lined := by
  have tracked := lined.toTracked.sends sends
  have member : id ∈ t.pending := sends.pending.subset List.mem_cons_self
  refine ⟨tracked,?_,fun x sent y later => ?_⟩
  · rw [sends.line]
    refine List.pairwise_append.mpr ⟨?_,List.pairwise_singleton _ _,fun x sent y new => ?_⟩
    · exact lined.ordered.imp (Before.congr sends.submitted).mpr
    · obtain rfl := List.mem_singleton.mp new
      exact (Before.congr sends.submitted).mpr (lined.ahead x sent y member)
  · have stayed : y ∈ t.pending := sends.pending.subset (List.mem_cons_of_mem _ later)
    apply (Before.congr sends.submitted).mpr
    have apart := tracked.left sends.member later
    rw [sends.line] at sent
    rcases List.mem_append.mp sent with old | new
    · exact lined.ahead x old y stayed
    · obtain rfl := List.mem_singleton.mp new
      exact clear y stayed apart

theorem Lined.step {cfg : Config} {event : TrafficEvent} (lined : t.Lined) (orderly : t.Orderly event) :
    (t.step cfg event).Lined := by
  rcases step_cases cfg t event with quiet | ⟨id,new,queued⟩ | ⟨id,rfl,member,sends⟩
  · exact lined.quiet quiet
  · exact lined.queues queued
  · exact lined.sends sends (orderly member)

theorem Served.quiet (served : t.Served) (submitted : t'.submitted = t.submitted) (documents : t'.documents = t.documents)
    (sent : t'.sent = t.sent) (handled : t'.handled = t.handled) (storage : t'.owner.storage = t.owner.storage) :
    t'.Served := by
  constructor
  · intro x e last
    rw [documents]
    exact served.documents x e ((Last.congr submitted).mp last)
  · intro d member
    rw [sent] at member
    obtain ⟨e,document,found,made,own⟩ := served.messages d member
    exact ⟨e,document,by rw [event_of_submitted submitted,found],made,fun last => own ((Last.congr submitted).mp last)⟩
  · intro x member e last
    rw [handled] at member
    rw [storage]
    exact served.stored x member e ((Last.congr submitted).mp last)

theorem Served.queues {new : Option DocumentEvent} (served : t.Served) (lined : t.Lined) (queued : Queues t t' id new)
    (sent : t'.sent = t.sent) (handled : t'.handled = t.handled) (owner : t'.owner = t.owner)
    (others : ∀ uri object, (∀ f, new = some f → f.uri ≠ uri) → t'.documents uri object = t.documents uri object)
    (own : ∀ f, new = some f → t'.documents f.uri f.object = f.live) : t'.Served := by
  have adds := queued.adds
  have knownLine : ∀ x ∈ t.line, t.submitted.has x = true := fun x member =>
    lined.known x (List.mem_append_left _ member)
  constructor
  · intro x e last
    by_cases here : x = id
    · subst here
      have found := last.1
      rw [adds.event_new] at found
      exact own e found
    · obtain ⟨before,apart⟩ := adds.last_old last here
      rw [others e.uri e.object apart]
      exact served.documents x e before
  · intro d member
    rw [sent] at member
    obtain ⟨e,document,found,made,keeps⟩ := served.messages d member
    have apart : d.id ≠ id := adds.apart (known_of_event found)
    refine ⟨e,document,?_,made,fun last => keeps (adds.last_old last apart).1⟩
    rw [adds.event_old apart,found]
  · intro x member e last
    rw [handled] at member
    have apart : x ≠ id := adds.apart (knownLine x (List.mem_append_left _ member))
    rw [owner]
    exact served.stored x member e (adds.last_old last apart).1

theorem Served.begins (served : t.Served) (id : String) : (t.begins id).Served := by
  rw [DocumentTraffic.begins]
  split
  next =>
    cases found : t.event id with
    | none => exact served.quiet rfl rfl rfl rfl rfl
    | some e =>
      refine ⟨served.documents,?_,served.stored⟩
      intro d member
      rcases List.mem_append.mp member with old | new
      · exact served.messages d old
      · obtain rfl := List.mem_singleton.mp new
        exact ⟨e,t.documents e.uri e.object,found,rfl,served.documents id e⟩
  next => exact served

theorem Served.delivered (served : t.Served) (lined : t.Lined) : t.delivered.Served := by
  rw [DocumentTraffic.delivered]
  cases sent : t.sent with
  | nil => exact served
  | cons d rest =>
    obtain ⟨e,document,found,made,keeps⟩ := served.messages d (by rw [sent]; exact List.mem_cons_self)
    have store : d.store = e.buildDataOwnerMessage document := by rw [made]; rfl
    refine ⟨served.documents,fun other member => ?_,fun x member f last => ?_⟩
    · apply served.messages other
      rw [sent]
      exact List.mem_cons_of_mem d member
    · have last : t.Last x f := (Last.congr rfl).mp last
      dsimp only
      rw [store,step_buildDataOwnerMessage]
      rcases List.mem_append.mp member with old | new
      · have apart : f.uri ≠ e.uri := by
          intro same
          have ordered := lined.ordered
          rw [line,sent,List.map_cons] at ordered
          have before := (List.pairwise_append.mp ordered).2.2 x old d.id List.mem_cons_self
          have below := before f e last.1 found same
          have above := last.2 d.id e found same.symm
          omega
        rw [if_neg apart]
        exact served.stored x old f last
      · obtain rfl := List.mem_singleton.mp new
        obtain rfl := Option.some.inj (found.symm.trans last.1)
        rw [if_pos rfl,keeps last]

theorem Served.compiled (served : t.Served) (i : Nat) {ends : CompileMessage → OwnerCommand}
    (stores : ∀ o m, (DataOwner.step o (ends m)).storage = o.storage) : (t.compiled i ends).Served := by
  rw [DocumentTraffic.compiled]
  split
  next => exact served.quiet rfl rfl rfl rfl (stores _ _)
  next => exact served

theorem Served.step {event : TrafficEvent} (served : t.Served) (lined : t.Lined) (cfg : Config) :
    (t.step cfg event).Served := by
  cases event with
  | submitDocument id e =>
    by_cases fresh : t.submitted.has id = true
    · rw [DocumentTraffic.step,submitDocument,if_pos fresh]
      exact served
    · have queued := submitDocument_queues fresh cfg e
      have unseen : ¬ (t.edit e).submitted.has id = true := fresh
      apply served.queues lined queued
      · rw [submitDocument,if_neg fresh,submit,if_neg unseen]
        rfl
      · rw [submitDocument,if_neg fresh,submit,if_neg unseen]
        rfl
      · rw [submitDocument,if_neg fresh,submit,if_neg unseen]
        rfl
      · intro uri object apart
        rw [submitDocument,if_neg fresh,submit,if_neg unseen]
        exact if_neg fun same => apart e rfl same.1.symm
      · rintro f ⟨⟩
        rw [submitDocument,if_neg fresh,submit,if_neg unseen]
        exact if_pos ⟨rfl,rfl⟩
  | submitRequest id p =>
    by_cases fresh : t.submitted.has id = true
    · rw [DocumentTraffic.step,submit,if_pos fresh]
      exact served
    · have queued := submit_queues fresh cfg p none
      apply served.queues lined queued
      · rw [submit,if_neg fresh]
        rfl
      · rw [submit,if_neg fresh]
        rfl
      · rw [submit,if_neg fresh]
        rfl
      · intro uri object _
        rw [submit,if_neg fresh]
        rfl
      · rintro f ⟨⟩
  | withdraw p i => exact served.quiet rfl rfl rfl rfl rfl
  | shutdown => exact served.quiet rfl rfl rfl rfl rfl
  | controller budget => exact served.quiet rfl rfl rfl rfl rfl
  | finished i outcome => exact served.quiet rfl rfl rfl rfl rfl
  | errorHandled i => exact served.quiet rfl rfl rfl rfl rfl
  | begins id => exact served.begins id
  | delivered => exact served.delivered lined
  | compiled i symbolTable parserDiagnostics now =>
    exact served.compiled i fun o _ => compileDocument_storage o _ now
  | compilationFailed i =>
    exact served.compiled i fun o m => (DataOwner.resolveReadiness_sameRecords o m.uri m.version).storage
  | closeFinishes uri => exact served.quiet rfl rfl rfl rfl (DataOwner.closeFinishes_spec t.owner uri).1

structure Overtaken (t : DocumentTraffic) (x y : String) : Prop where
  known : t.submitted.has x = true ∧ t.submitted.has y = true
  wrong : ¬ t.Before x y
  sent : t.line.idxOf x < t.line.idxOf y

omit [Runtime] in
theorem idxOf_lt_append {l : List String} (earlier : l.idxOf x < l.idxOf y) (more : List String) :
    (l ++ more).idxOf x < (l ++ more).idxOf y := by
  have inside : x ∈ l := by
    have bound := List.idxOf_le_length (a := y) (l := l)
    exact List.idxOf_lt_length_iff.mp (by omega)
  rw [List.idxOf_append_of_mem inside]
  by_cases member : y ∈ l
  · rw [List.idxOf_append_of_mem member]
    exact earlier
  · have bound := List.idxOf_lt_length_of_mem inside
    rw [List.idxOf_append_of_notMem member]
    omega

theorem Overtaken.step (overtaken : t.Overtaken x y) (cfg : Config) (event : TrafficEvent) :
    (t.step cfg event).Overtaken x y := by
  obtain ⟨⟨knownX,knownY⟩,wrong,sent⟩ := overtaken
  rcases step_cases cfg t event with quiet | ⟨id,new,queued⟩ | ⟨id,_,_,sends⟩
  · refine ⟨?_,fun before => wrong ((Before.congr quiet.submitted).mp before),?_⟩
    · rw [quiet.submitted]
      exact ⟨knownX,knownY⟩
    · rw [quiet.line]
      exact sent
  · have adds := queued.adds
    refine ⟨⟨?_,?_⟩,fun before => wrong ((adds.before_old knownX knownY).mp before),?_⟩
    · rw [adds.submitted,OrderedMap.has,OrderedMap.get?_set_of_ne _ _ (adds.apart knownX)]
      exact knownX
    · rw [adds.submitted,OrderedMap.has,OrderedMap.get?_set_of_ne _ _ (adds.apart knownY)]
      exact knownY
    · rw [queued.line]
      exact sent
  · refine ⟨?_,fun before => wrong ((Before.congr sends.submitted).mp before),?_⟩
    · rw [sends.submitted]
      exact ⟨knownX,knownY⟩
    · rw [sends.line]
      exact idxOf_lt_append sent [id]

theorem Overtaken.not_inOrder (overtaken : t.Overtaken x y) (processed : t.Processed) : ¬ t.InOrder := by
  intro inOrder
  apply overtaken.wrong
  intro e f foundX foundY same
  have handledX := processed x e foundX
  have handledY := processed y f foundY
  have sent := overtaken.sent
  rw [line,List.idxOf_append_of_mem handledX,List.idxOf_append_of_mem handledY] at sent
  have before := List.pairwise_iff_getElem.mp inOrder.handlers _ _ (List.idxOf_lt_length_of_mem handledX)
    (List.idxOf_lt_length_of_mem handledY) sent
  rw [List.getElem_idxOf,List.getElem_idxOf] at before
  exact before e f foundX foundY same

theorem Tracked.overtaken {other : String} (tracked : t.Tracked) (sends : Sends t t' id) (pending : other ∈ t.pending)
    (apart : other ≠ id) (wrong : ¬ t.Before id other) : t'.Overtaken id other := by
  have stays : other ∈ t'.pending := by
    rcases List.mem_cons.mp (sends.pending.symm.subset pending) with same | later
    · exact absurd same apart
    · exact later
  have after := tracked.sends sends
  have absent : other ∉ t'.line := fun member => after.left member stays rfl
  refine ⟨⟨after.sent sends.member,after.known other (List.mem_append_right _ stays)⟩,?_,?_⟩
  · exact fun before => wrong ((Before.congr sends.submitted).mp before)
  · rw [List.idxOf_eq_length absent]
    exact List.idxOf_lt_length_of_mem sends.member

theorem Tracked.orderly_of_inOrder {cfg : Config} (tracked : t.Tracked)
    (processed : (run (DocumentTraffic.step cfg) t events).Processed)
    (inOrder : (run (DocumentTraffic.step cfg) t events).InOrder) : EveryStep (DocumentTraffic.step cfg) Orderly t events := by
  induction events generalizing t with
  | nil => trivial
  | cons event events ih =>
    refine ⟨?_,ih (tracked.step cfg event) processed inOrder⟩
    cases event with
    | begins id =>
      intro member other pending apart
      by_contra wrong
      rcases t.begins_cases id with ⟨_,request⟩ | ⟨_,sends⟩
      · exact wrong fun e f found => by rw [request member] at found; cases found
      · have overtaken := tracked.overtaken sends pending apart wrong
        have last := run_invariant (I := fun t : DocumentTraffic => t.Overtaken id other)
          (fun _ event kept => kept.step cfg event) overtaken events
        exact last.not_inOrder processed inOrder
    | _ => trivial

def start (cfg : Config) (documents : String → Nat → LiveDocument) (owner : DataOwner) : DocumentTraffic where
  scheduler := .initialized cfg
  documents := documents
  owner := owner

theorem start_lined (cfg : Config) (documents : String → Nat → LiveDocument) (owner : DataOwner) :
    (start cfg documents owner).Lined := by
  have nothing : (start cfg documents owner).pending = [] := rfl
  have unsent : (start cfg documents owner).line = [] := rfl
  refine ⟨⟨?_,?_⟩,?_,?_⟩ <;> simp [nothing,unsent]

theorem start_served (cfg : Config) (documents : String → Nat → LiveDocument) (owner : DataOwner) :
    (start cfg documents owner).Served := by
  have absent : ∀ x e, ¬ (start cfg documents owner).Last x e := fun x e last => by cases last.1
  exact ⟨fun x e last => absurd last (absent x e),fun d member => absurd member List.not_mem_nil,
    fun x member => absurd member List.not_mem_nil⟩

theorem Lined.inOrder (lined : t.Lined) (served : t.Served) : t.InOrder :=
  ⟨(List.pairwise_append.mp lined.ordered).1,fun processed x e last => served.stored x (processed x e last.1) e last⟩

/-- Document events take effect in the order of their submission all along a run in which no task
begins while an earlier event of its document is pending. A run that comes to process all events
has no other way to keep the order. -/
theorem in_order_along (cfg : Config) (documents : String → Nat → LiveDocument) (owner : DataOwner)
    (events : List TrafficEvent) :
    (EveryStep (step cfg) Orderly (start cfg documents owner) events →
        EveryState (step cfg) InOrder (start cfg documents owner) events) ∧
      ((run (step cfg) (start cfg documents owner) events).Processed →
        (EveryState (step cfg) InOrder (start cfg documents owner) events ↔
          EveryStep (step cfg) Orderly (start cfg documents owner) events)) := by
  have lined := start_lined cfg documents owner
  have served := start_served cfg documents owner
  have enough : EveryStep (step cfg) Orderly (start cfg documents owner) events →
      EveryState (step cfg) InOrder (start cfg documents owner) events := by
    intro orderly
    have always : EveryState (step cfg) (fun t => t.Lined ∧ t.Served) (start cfg documents owner) events := by
      refine everyState_of_everyStep (fun t event kept orderly => ?_) ⟨lined,served⟩ orderly
      exact ⟨kept.1.step orderly,kept.2.step kept.1 cfg⟩
    exact fun front initial => (always front initial).1.inOrder (always front initial).2
  refine ⟨enough,fun processed => ⟨fun always => ?_,enough⟩⟩
  exact lined.toTracked.orderly_of_inOrder processed always.last

theorem not_inOrder_of_handled {x y : String} {e f : DocumentEvent} (handled : t.handled = [x,y]) (foundX : t.event x = some e)
    (foundY : t.event y = some f) (same : e.uri = f.uri) (later : t.place y ≤ t.place x) : ¬ t.InOrder := by
  intro inOrder
  have ordered := inOrder.handlers
  rw [handled] at ordered
  have before := List.rel_of_pairwise_cons ordered List.mem_cons_self e f foundX foundY same
  omega

def afterwards (cfg : Config) (heap : Heap) (events : List TrafficEvent) : DocumentTraffic :=
  run (step cfg) (start cfg (fun _ _ => ⟨0,""⟩) { symbolManager := { graph := { heap := heap } } }) events

def storedText (t : DocumentTraffic) (uri : String) : Option String :=
  (t.owner.storage.get? uri).map WorkerDocument.text

end DocumentTraffic

/-- The document is opened and closed before the controller looks again, and the close goes first. -/
def openedAndClosed : List TrafficEvent :=
  [.submitDocument "open" ⟨.documentOpen "apex","file:///Foo.cls",0,1,"class Foo {}"⟩,
    .submitDocument "close" ⟨.documentClose,"file:///Foo.cls",0,1,"class Foo {}"⟩,
    .controller 6,.controller 6,.begins "close",.delivered,.controller 6,.begins "open",.delivered]

def smallConfig : Config := { ceilTenth := fun n => (n + 9) / 10 }

def afterOpenedAndClosed : @DocumentTraffic asciiRuntime :=
  @DocumentTraffic.afterwards asciiRuntime smallConfig
    (fun _ => @SymbolGraph.fileClass asciiRuntime "Foo" "file:///Foo.cls") openedAndClosed

/-- Both were processed, and the document that was closed last is stored. -/
theorem closed_document_stored :
    @DocumentTraffic.handled asciiRuntime afterOpenedAndClosed = ["close","open"] ∧
      @DocumentTraffic.storedText asciiRuntime afterOpenedAndClosed "file:///Foo.cls" = some "class Foo {}" ∧
      ¬ @DocumentTraffic.InOrder asciiRuntime afterOpenedAndClosed := by
  have handled : @DocumentTraffic.handled asciiRuntime afterOpenedAndClosed = ["close","open"] := by decide +kernel
  refine ⟨handled,by decide +kernel,?_⟩
  apply @DocumentTraffic.not_inOrder_of_handled asciiRuntime _ _ _
    ⟨.documentClose,"file:///Foo.cls",0,1,"class Foo {}"⟩
    ⟨.documentOpen "apex","file:///Foo.cls",0,1,"class Foo {}"⟩ handled
  · decide +kernel
  · decide +kernel
  · rfl
  · decide +kernel

end ApexLs.Server
