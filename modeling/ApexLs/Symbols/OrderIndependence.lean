import Mathlib.Data.List.Flatten
import ApexLs.Symbols.IngestOrder

/-! When the order of ingestion does not matter. The edges of a workspace are the same for every
order exactly when no reference across files changes its source by waiting, none waits for a
keyword, and references that count as one edge agree on its location. -/
namespace ApexLs.Symbols

open ApexLs.Utils ApexLs.Types ApexLs.Collections

namespace Workspace

def effects (w : Workspace) : List Effect :=
  w.files.flatMap (fun f => f.references.filterMap (fun r => (w.declaring f r).map (fun source => ⟨f,source,r⟩)))

theorem mem_effects {w : Workspace} : x ∈ w.effects ↔ w.Effective x := by
  simp only [effects,List.mem_flatMap,List.mem_filterMap,Option.map_eq_some_iff]
  constructor
  · rintro ⟨f,file,r,reference,source,declared,rfl⟩
    exact ⟨file,reference,declared⟩
  · rintro ⟨file,reference,declared⟩
    exact ⟨x.file,file,x.reference,reference,x.source,declared,rfl⟩

def FirstOfItsName (w : Workspace) (x : Effect) : Prop :=
  ∃ first, w.firstNamed x.file (w.heap x.source).name = some first ∧ (w.heap first).id = (w.heap x.source).id

instance (w : Workspace) (x : Effect) : Decidable (w.FirstOfItsName x) :=
  decidable_of_iff ((w.firstNamed x.file (w.heap x.source).name).any (fun first => (w.heap first).id = (w.heap x.source).id))
    (by simp [FirstOfItsName,Option.any_eq_true])

structure OrderSafe [Runtime] (w : Workspace) : Prop where
  waiting : ∀ x ∈ w.effects, x.reference.target ∉ w.symbolsOf x.file →
    isApexKeyword (w.heap x.reference.target).name = false ∧ w.FirstOfItsName x
  located : ∀ x ∈ w.effects, ∀ y ∈ w.effects, (w.edgeOf x).SameReference (w.edgeOf y) →
    x.reference.location = y.reference.location

instance [Runtime] (w : Workspace) : Decidable w.OrderSafe :=
  decidable_of_iff ((∀ x ∈ w.effects, x.reference.target ∉ w.symbolsOf x.file →
      isApexKeyword (w.heap x.reference.target).name = false ∧ w.FirstOfItsName x) ∧
    ∀ x ∈ w.effects, ∀ y ∈ w.effects, (w.edgeOf x).SameReference (w.edgeOf y) →
      x.reference.location = y.reference.location)
    ⟨fun ⟨waiting,located⟩ => ⟨waiting,located⟩,fun safe => ⟨safe.waiting,safe.located⟩⟩

def InWorkspace (w : Workspace) : IngestEvent → Prop
  | .register f s => f ∈ w.files ∧ s ∈ w.symbolsOf f
  | .issue f r => f ∈ w.files ∧ r ∈ f.references

theorem mem_allEvents {w : Workspace} :
    e ∈ w.files.flatMap (fun f => w.registrations f ++ issues f) ↔ w.InWorkspace e := by
  simp only [List.mem_flatMap,List.mem_append,registrations,issues,List.mem_map]
  cases e with
  | register f s =>
    constructor
    · rintro ⟨f',file,⟨s',member,same⟩ | ⟨r,_,wrong⟩⟩
      · obtain ⟨rfl,rfl⟩ := IngestEvent.register.inj same
        exact ⟨file,member⟩
      · cases wrong
    · rintro ⟨file,member⟩
      exact ⟨f,file,.inl ⟨s,member,rfl⟩⟩
  | issue f r =>
    constructor
    · rintro ⟨f',file,⟨s,_,wrong⟩ | ⟨r',reference,same⟩⟩
      · cases wrong
      · obtain ⟨rfl,rfl⟩ := IngestEvent.issue.inj same
        exact ⟨file,reference⟩
    · rintro ⟨file,reference⟩
      exact ⟨f,file,.inr ⟨r,reference,rfl⟩⟩

theorem Order.mem_iff {w : Workspace} (order : w.Order events) : e ∈ events ↔ w.InWorkspace e :=
  order.complete.mem_iff.trans mem_allEvents

theorem run_done {w : Workspace} (events : List IngestEvent) {l : Ledger} :
    s ∈ (run w.event l events).done ↔ s ∈ l.done ∨ ∃ f, .register f s ∈ events := by
  induction events generalizing l with
  | nil => simp
  | cons e events ih =>
    rw [run_cons,ih]
    cases e with
    | register f s' =>
      simp only [event,List.mem_cons,IngestEvent.register.injEq]
      constructor
      · rintro ((rfl | old) | ⟨f',later⟩)
        · exact .inr ⟨f,.inl ⟨rfl,rfl⟩⟩
        · exact .inl old
        · exact .inr ⟨f',.inr later⟩
      · rintro (old | ⟨f',⟨rfl,rfl⟩ | later⟩)
        · exact .inl (.inr old)
        · exact .inl (.inl rfl)
        · exact .inr ⟨f',later⟩
    | issue f r =>
      have same : (w.event l (.issue f r)).done = l.done := by
        simp only [event]
        split
        next => rfl
        next => split <;> rfl
      simp [same]

theorem run_effects {w : Workspace} {events : List IngestEvent} {l : Ledger} {x : Effect} :
    (x ∈ (run w.event l events).direct ∨ x ∈ (run w.event l events).late) ↔
      (x ∈ l.direct ∨ x ∈ l.late) ∨ (.issue x.file x.reference ∈ events ∧ w.declaring x.file x.reference = some x.source) := by
  induction events generalizing l with
  | nil => simp
  | cons e events ih =>
    rw [run_cons,ih]
    have one : (x ∈ (w.event l e).direct ∨ x ∈ (w.event l e).late) ↔ (x ∈ l.direct ∨ x ∈ l.late) ∨
        (e = .issue x.file x.reference ∧ w.declaring x.file x.reference = some x.source) := by
      cases e with
      | register f s => simp [event]
      | issue f r =>
        have this : ∀ source, w.declaring f r = some source → (x = ⟨f,source,r⟩ ↔
            IngestEvent.issue f r = .issue x.file x.reference ∧ w.declaring x.file x.reference = some x.source) := by
          intro source declared
          constructor
          · rintro rfl
            exact ⟨rfl,declared⟩
          · obtain ⟨f',source',r'⟩ := x
            rintro ⟨same,declared'⟩
            obtain ⟨rfl,rfl⟩ := IngestEvent.issue.inj same
            obtain rfl := Option.some.inj (declared.symm.trans declared')
            rfl
        cases declared : w.declaring f r with
        | none =>
          simp only [event,declared]
          refine ⟨.inl,?_⟩
          rintro (old | ⟨same,declared'⟩)
          · exact old
          · obtain ⟨rfl,rfl⟩ := IngestEvent.issue.inj same
            simp [declared] at declared'
        | some source =>
          simp only [event,declared,← this source declared]
          split
          next => rw [List.mem_cons,or_assoc,or_comm]
          next => rw [List.mem_cons,or_left_comm,or_comm]
    rw [one,List.mem_cons,or_and_right,or_assoc]
    simp only [eq_comm (a := e)]

theorem run_direct {w : Workspace} {events : List IngestEvent} {l : Ledger} {x : Effect}
    (direct : x ∈ (run w.event l events).direct) :
    x ∈ l.direct ∨ (.issue x.file x.reference ∈ events ∧ w.Opened (run w.event l events).done x.reference.target) := by
  induction events generalizing l with
  | nil => exact .inl direct
  | cons e events ih =>
    rw [run_cons] at direct ⊢
    rcases ih direct with early | ⟨listed,opened⟩
    · have more : l.done ⊆ (run w.event (w.event l e) events).done := by
        intro s added
        exact (run_done (e :: events)).mpr (.inl added)
      cases e with
      | register f s => exact .inl early
      | issue f r =>
        simp only [event] at early
        split at early
        next => exact .inl early
        next =>
          split at early
          next opened =>
            rcases List.mem_cons.mp early with rfl | old
            · exact .inr ⟨List.mem_cons_self,opened.mono more⟩
            · exact .inl old
          next => exact .inl early
    · exact .inr ⟨List.mem_cons_of_mem _ listed,opened⟩

theorem ready_of_seen {w : Workspace} {events seen : List IngestEvent} {l : Ledger}
    (own : EveryStep (fun seen e => e :: seen) w.OwnSymbolsSeen seen events) (inside : ∀ e ∈ events, w.InWorkspace e)
    (added : ∀ f s, .register f s ∈ seen → s ∈ l.done) : EveryStep w.event w.Ready l events := by
  induction events generalizing seen l with
  | nil => trivial
  | cons e events ih =>
    obtain ⟨here,later⟩ := own
    have within := inside e List.mem_cons_self
    have ready : w.Ready l e := by
      cases e with
      | register f s => exact within
      | issue f r => exact ⟨within.1,within.2,fun s member => added f s (here s member)⟩
    refine ⟨ready,ih later (fun e member => inside e (List.mem_cons_of_mem _ member)) (fun f s member => ?_)⟩
    have one := run_done (w := w) [e] (l := l) (s := s)
    rw [run_cons,run_nil] at one
    rcases List.mem_cons.mp member with rfl | before
    · exact one.mpr (.inr ⟨f,List.mem_singleton_self _⟩)
    · exact one.mpr (.inl (added f s before))

def ledger (w : Workspace) (events : List IngestEvent) : Ledger := run w.event {} events

theorem Order.ready {w : Workspace} (order : w.Order events) : EveryStep w.event w.Ready {} events :=
  ready_of_seen order.ownSymbolsFirst (fun _ member => order.mem_iff.mp member) (by simp)

theorem Order.effects_iff {w : Workspace} (order : w.Order events) {x : Effect} :
    (x ∈ (w.ledger events).direct ∨ x ∈ (w.ledger events).late) ↔ w.Effective x := by
  rw [ledger,run_effects,order.mem_iff]
  constructor
  · rintro (none_ | ⟨⟨file,reference⟩,declared⟩)
    · simp at none_
    · exact ⟨file,reference,declared⟩
  · exact fun effective => .inr ⟨⟨effective.file,effective.reference⟩,effective.declaring⟩

section

variable [Runtime]

structure Ingested (w : Workspace) (l : Ledger) (g : SymbolGraph) : Prop where
  coherent : g.refs.Coherent
  foreign : ∀ x ∈ l.late, x.reference.target ∉ w.symbolsOf x.file
  stored : ∀ k e, g.refs.refStore.Holds k e → (∃ x ∈ l.direct, e = w.edgeOf x) ∨ ∃ x ∈ l.late, w.Rebound x e
  met : ∀ x ∈ l.direct, ∃ k e, g.refs.refStore.Holds k e ∧ e.SameReference (w.edgeOf x)
  rebound : ∀ x ∈ l.late, ∀ e, w.Rebound x e → ∃ k e', g.refs.refStore.Holds k e' ∧ e'.SameReference e

variable {w : Workspace} (wf : w.WellFormed)

include wf

theorem Order.ingested (order : w.Order events) : w.Ingested (w.ledger events) (w.ingest events) := by
  have progress := (Progress.empty w).run wf order.ready
  have complete : ∀ s ∈ w.symbols, s ∈ (w.ledger events).done := by
    intro s declared
    obtain ⟨f,file,member⟩ := List.mem_flatMap.mp declared
    exact (run_done _).mpr (.inr ⟨f,order.mem_iff.mpr ⟨file,member⟩⟩)
  obtain ⟨g',asked,drained,refs,asks⟩ := progress.drain wf complete
  obtain ⟨coherent,new,kept,met⟩ := ReferenceIndexes.addAll_spec progress.coherent asked
  have final : w.ingest events = g' := drained
  rw [final]
  rw [← refs] at coherent new kept met
  refine ⟨coherent,progress.foreign,fun k e holds => ?_,fun x member => ?_,fun x late e rebound => ?_⟩
  · rcases new k e holds with old | added
    · exact .inl (progress.stored k e old)
    · exact .inr ((asks e).mp added)
  · obtain ⟨k,e,holds,same⟩ := progress.met x member
    exact ⟨k,e,kept k e holds,same⟩
  · exact met e ((asks e).mpr ⟨x,late,rebound⟩)

omit wf in
theorem OrderSafe.rebound {x : Effect} (safe : w.OrderSafe) (effective : w.Effective x)
    (foreign : x.reference.target ∉ w.symbolsOf x.file) :
    (∃ e, w.Rebound x e) ∧ ∀ e, w.Rebound x e → ends e = ends (w.edgeOf x) := by
  obtain ⟨nameable,first,found,id⟩ := safe.waiting x (mem_effects.mpr effective) foreign
  refine ⟨⟨_,nameable,first,found,rfl⟩,fun e rebound => ?_⟩
  obtain ⟨_,first',found',rfl⟩ := rebound
  obtain rfl := Option.some.inj (found.symm.trans found')
  simp only [ends,edgeOf,edge,id]

omit wf [Runtime] in
theorem sameReference_of_ends {e e' : RefStoreEntry} (same : ends e = ends e') : e.SameReference e' := by
  simp only [ends,Prod.mk.injEq] at same
  obtain ⟨source,target,type,location⟩ := same
  exact ⟨source,target,type,by rw [location],by rw [location]⟩

omit wf [Runtime] in
theorem ends_of_sameReference {e e' : RefStoreEntry} (same : e.SameReference e') (location : e.location = e'.location) :
    ends e = ends e' := by
  obtain ⟨source,target,type,_,_⟩ := same
  simp only [ends,source,target,type,location]

theorem OrderSafe.hasEdge_iff (safe : w.OrderSafe) (order : w.Order events)
    (edge : String × String × ReferenceType × SymbolLocation) :
    HasEdge (w.ingest events) edge ↔ ∃ x ∈ w.effects, ends (w.edgeOf x) = edge := by
  have ingested := order.ingested wf
  have effective : ∀ x, x ∈ (w.ledger events).direct ∨ x ∈ (w.ledger events).late ↔ w.Effective x :=
    fun x => order.effects_iff
  have stored : ∀ k e, (w.ingest events).refs.refStore.Holds k e → ∃ x ∈ w.effects, ends (w.edgeOf x) = ends e := by
    intro k e holds
    rcases ingested.stored k e holds with ⟨x,direct,rfl⟩ | ⟨x,late,rebound⟩
    · exact ⟨x,mem_effects.mpr ((effective x).mp (.inl direct)),rfl⟩
    · have here := (effective x).mp (.inr late)
      exact ⟨x,mem_effects.mpr here,((safe.rebound here (ingested.foreign x late)).2 e rebound).symm⟩
  constructor
  · rintro ⟨k,e,holds,rfl⟩
    exact stored k e holds
  · rintro ⟨x,member,rfl⟩
    have here := mem_effects.mp member
    have met : ∃ k e, (w.ingest events).refs.refStore.Holds k e ∧ e.SameReference (w.edgeOf x) := by
      rcases (effective x).mpr here with direct | late
      · exact ingested.met x direct
      · obtain ⟨⟨e,rebound⟩,same⟩ := safe.rebound here (ingested.foreign x late)
        obtain ⟨k,e',holds,met⟩ := ingested.rebound x late e rebound
        exact ⟨k,e',holds,met.trans (sameReference_of_ends (same e rebound))⟩
    obtain ⟨k,e,holds,same⟩ := met
    obtain ⟨y,memberY,sameEnds⟩ := stored k e holds
    have located := safe.located y memberY x member ((sameReference_of_ends sameEnds).trans same)
    exact ⟨k,e,holds,ends_of_sameReference same ((congrArg (fun p => p.2.2.2) sameEnds).symm.trans located)⟩

omit wf [Runtime] in
theorem own_of_registers {events seen : List IngestEvent} (registers : ∀ e ∈ events, e.isIssue = false) :
    EveryStep (fun seen e => e :: seen) w.OwnSymbolsSeen seen events := by
  induction events generalizing seen with
  | nil => trivial
  | cons e events ih =>
    refine ⟨?_,ih (fun e member => registers e (List.mem_cons_of_mem _ member))⟩
    cases e with
    | register f s => trivial
    | issue f r => exact absurd (registers _ List.mem_cons_self) (by simp [IngestEvent.isIssue])

omit wf [Runtime] in
theorem own_of_seen {events seen : List IngestEvent}
    (own : ∀ f r, .issue f r ∈ events → ∀ s ∈ w.symbolsOf f, .register f s ∈ seen) :
    EveryStep (fun seen e => e :: seen) w.OwnSymbolsSeen seen events := by
  induction events generalizing seen with
  | nil => trivial
  | cons e events ih =>
    refine ⟨?_,ih (fun f r member s declared => List.mem_cons_of_mem _ (own f r (List.mem_cons_of_mem _ member) s declared))⟩
    cases e with
    | register f s => trivial
    | issue f r => exact own f r List.mem_cons_self

omit wf [Runtime] in
theorem mem_run_seen {events seen : List IngestEvent} {e : IngestEvent} :
    e ∈ run (fun seen e => e :: seen) seen events ↔ e ∈ events ∨ e ∈ seen := by
  induction events generalizing seen with
  | nil => simp
  | cons e' events ih =>
    rw [run_cons,ih,List.mem_cons,List.mem_cons]
    tauto

omit wf [Runtime] in
theorem order_of_perm (first second : List IngestEvent)
    (complete : (first ++ second).Perm (w.files.flatMap (fun f => w.registrations f ++ issues f)))
    (registers : ∀ e ∈ first, e.isIssue = false) (issued : ∀ e ∈ second, e.isIssue = true) :
    w.Order (first ++ second) ∧ SymbolsFirst (first ++ second) := by
  refine ⟨⟨complete,everyStep_append.mpr ⟨own_of_registers registers,own_of_seen ?_⟩⟩,first,second,rfl,registers,issued⟩
  intro f r member s declared
  rw [mem_run_seen]
  have file : f ∈ w.files :=
    (mem_allEvents.mp (complete.mem_iff.mp (List.mem_append_right first member))).1
  have listed : .register f s ∈ first ++ second := complete.mem_iff.mpr (mem_allEvents.mpr ⟨file,declared⟩)
  rcases List.mem_append.mp listed with early | late
  · exact .inl early
  · exact absurd (issued _ late) (by simp [IngestEvent.isIssue])

omit wf [Runtime] in
theorem registers_of_files (files : List SourceFile) :
    ∀ e ∈ files.flatMap w.registrations, e.isIssue = false := by
  intro e member
  obtain ⟨f,_,listed⟩ := List.mem_flatMap.mp member
  obtain ⟨s,_,rfl⟩ := List.mem_map.mp listed
  rfl

omit wf [Runtime] in
theorem issues_of_files (files : List SourceFile) : ∀ e ∈ files.flatMap issues, e.isIssue = true := by
  intro e member
  obtain ⟨f,_,listed⟩ := List.mem_flatMap.mp member
  obtain ⟨r,_,rfl⟩ := List.mem_map.mp listed
  rfl

omit wf in
theorem ingest_kept (events : List IngestEvent) {g : SymbolGraph} (coherent : g.refs.Coherent)
    (holds : g.refs.refStore.Holds k e) :
    (run SymbolGraph.call g (events.map IngestEvent.call)).drainAllDeferredReferencesSync.2.refs.refStore.Holds k e := by
  induction events generalizing g with
  | nil =>
    simp only [List.map_nil,run_nil,(SymbolGraph.drainAllDeferredReferencesSync_spec g).1.refs]
    exact (ReferenceIndexes.addAll_spec coherent _).2.2.1 k e holds
  | cons event events ih =>
    apply ih (SymbolGraph.call_coherent g event.call coherent)
    cases event with
    | register f s => simpa [IngestEvent.call,SymbolGraph.call] using holds
    | issue f r =>
      obtain ⟨asked,refs⟩ := SymbolGraph.addReference_refs g r.source r.target r.referenceType r.location r.context
      simp only [IngestEvent.call,SymbolGraph.call,refs]
      exact (ReferenceIndexes.addAll_spec coherent asked).2.2.1 k e holds

theorem first_issue_kept {first rest : List IngestEvent} {x : Effect} (effective : w.Effective x)
    (order : w.Order (first ++ .issue x.file x.reference :: rest)) (registers : ∀ e ∈ first, e.isIssue = false)
    (complete : ∀ s ∈ w.symbols, ∃ f, .register f s ∈ first) :
    HasEdge (w.ingest (first ++ .issue x.file x.reference :: rest)) (ends (w.edgeOf x)) := by
  obtain ⟨ready,next⟩ := everyStep_append.mp order.ready
  have before := (Progress.empty w).run wf ready
  have after := before.event wf next.1
  have nothing : (run w.event {} first).direct = [] := by
    rw [List.eq_nil_iff_forall_not_mem]
    intro y member
    rcases run_effects.mp (.inl member) with none_ | ⟨listed,_⟩
    · simp at none_
    · exact absurd (registers _ listed) (by simp [IngestEvent.isIssue])
  have opened : w.Opened (run w.event {} first).done x.reference.target := by
    have declared := (effective.once wf).declared
    obtain ⟨f,file,member⟩ := List.mem_flatMap.mp declared
    exact ⟨f,file,member,x.reference.target,member,(run_done _).mpr (.inr (complete _ declared))⟩
  have only : (w.event (run w.event {} first) (.issue x.file x.reference)).direct = [x] := by
    simp only [event,effective.declaring,opened,if_true,nothing]
  obtain ⟨k,e,holds,_⟩ := after.met x (by simp [only])
  obtain ⟨y,member,rfl⟩ := after.stored k e holds
  rw [only,List.mem_singleton] at member
  subst member
  refine ⟨k,_,?_,rfl⟩
  have kept := ingest_kept rest after.coherent holds
  simpa [ingest,SymbolGraph.reached,run_append] using kept

theorem Order.target (order : w.Order events) (once : w.Once t) (holds : (w.ingest events).refs.refStore.Holds k e)
    (id : e.targetSymbolId = (w.heap t).id) :
    e.targetFileUri = (w.heap t).fileUri := by
  have asked : ∃ x source, w.Effective x ∧ e = w.edge source x.reference := by
    rcases (order.ingested wf).stored k e holds with ⟨x,direct,is⟩ | ⟨x,late,_,first,_,is⟩
    · exact ⟨x,_,order.effects_iff.mp (.inl direct),is⟩
    · exact ⟨x,_,order.effects_iff.mp (.inr late),is⟩
  obtain ⟨x,source,effective,rfl⟩ := asked
  have onceX := effective.once wf
  have same := wf.identities x.reference.target onceX.declared t once.declared (congrArg toLowerCase id)
  have target := once.eq onceX.declared ⟨congrArg toLowerCase same.2.1,same.2.2⟩
  simp only [edge,target]

theorem exists_first_issue {x : Effect} (effective : w.Effective x) : ∃ events, w.Order events ∧ SymbolsFirst events ∧
    HasEdge (w.ingest events) (ends (w.edgeOf x)) := by
  have listed : IngestEvent.issue x.file x.reference ∈ w.files.flatMap issues :=
    List.mem_flatMap.mpr ⟨x.file,effective.file,List.mem_map_of_mem effective.reference⟩
  have moved := List.perm_cons_erase listed
  obtain ⟨order,first⟩ := order_of_perm (w := w) (w.files.flatMap w.registrations)
    (.issue x.file x.reference :: (w.files.flatMap issues).erase (.issue x.file x.reference))
    ((moved.symm.append_left _).trans (List.flatMap_append_perm w.files _ _)) (registers_of_files _)
    (fun e member => issues_of_files w.files e (moved.mem_iff.mpr member))
  have complete : ∀ s ∈ w.symbols, ∃ f, .register f s ∈ w.files.flatMap w.registrations := by
    intro s declared
    obtain ⟨f,file,member⟩ := List.mem_flatMap.mp declared
    exact ⟨f,List.mem_flatMap.mpr ⟨f,file,List.mem_map_of_mem member⟩⟩
  exact ⟨_,order,first,first_issue_kept wf effective order (registers_of_files _) complete⟩

theorem OrderIndependent.located (independent : w.OrderIndependent) {x y : Effect} (effectiveX : w.Effective x)
    (effectiveY : w.Effective y) (same : (w.edgeOf x).SameReference (w.edgeOf y)) :
    x.reference.location = y.reference.location := by
  obtain ⟨eventsX,orderX,firstX,edgeX⟩ := exists_first_issue wf effectiveX
  obtain ⟨eventsY,orderY,firstY,edgeY⟩ := exists_first_issue wf effectiveY
  -- both edges stand in one graph, under one key
  obtain ⟨k,e,holds,endsX⟩ := (independent _ _ orderY orderX firstX _).mpr edgeX
  obtain ⟨k',e',holds',endsY⟩ := edgeY
  have oneEdge : e.SameReference e' :=
    ((sameReference_of_ends endsX).trans same).trans (sameReference_of_ends endsY).symm
  have onceX := effectiveX.once wf
  have fileX := orderY.target wf onceX holds (congrArg (fun p => p.2.1) endsX)
  have fileY := orderY.target wf onceX holds' (oneEdge.2.1.symm.trans (congrArg (fun p => p.2.1) endsX))
  have sameKey : ReferenceIndexes.reverseKey e = ReferenceIndexes.reverseKey e' := by
    simp only [ReferenceIndexes.reverseKey,RefStoreEntry.targetIndexKey,fileX,fileY,oneEdge.2.1]
  obtain rfl := (orderY.ingested wf).coherent.distinct k e k' e' holds holds' oneEdge sameKey
  obtain ⟨_,rfl⟩ := holds.unique holds' rfl
  exact congrArg (fun p => p.2.2.2) (endsX.symm.trans endsY)

def fileFirst (w : Workspace) (f : SourceFile) : List IngestEvent :=
  (w.registrations f ++ issues f) ++
    ((w.files.erase f).flatMap w.registrations ++ (w.files.erase f).flatMap issues)

omit wf [Runtime] in
theorem fileFirst_order (file : f ∈ w.files) : w.Order (w.fileFirst f) where
  complete := by
    have moved := (List.perm_cons_erase file).flatMap_right (fun f => w.registrations f ++ issues f)
    refine List.Perm.trans ?_ moved.symm
    exact (List.flatMap_append_perm (w.files.erase f) _ _).append_left _
  ownSymbolsFirst := by
    have own : ∀ f r files, IngestEvent.issue f r ∈ List.flatMap issues files → ∀ s ∈ w.symbolsOf f,
        IngestEvent.register f s ∈ List.flatMap w.registrations files := by
      intro f r files listed s declared
      obtain ⟨f',member,here⟩ := List.mem_flatMap.mp listed
      obtain ⟨r',_,same⟩ := List.mem_map.mp here
      obtain ⟨rfl,_⟩ := IngestEvent.issue.inj same
      exact List.mem_flatMap.mpr ⟨f',member,List.mem_map_of_mem declared⟩
    simp only [fileFirst,everyStep_append]
    refine ⟨⟨own_of_registers ?_,own_of_seen ?_⟩,own_of_registers (registers_of_files _),own_of_seen ?_⟩
    · intro e member
      obtain ⟨s,_,rfl⟩ := List.mem_map.mp member
      rfl
    · intro f' r member s declared
      obtain ⟨r',_,same⟩ := List.mem_map.mp member
      obtain ⟨rfl,_⟩ := IngestEvent.issue.inj same
      exact mem_run_seen.mpr (.inl (List.mem_map_of_mem declared))
    · intro f' r member s declared
      exact mem_run_seen.mpr (.inl (own f' r _ member s declared))

theorem fileFirst_direct (file : f ∈ w.files) {x : Effect} (direct : x ∈ (w.ledger (w.fileFirst f)).direct)
    (own : x.file = f) : x.reference.target ∈ w.symbolsOf f := by
  rw [ledger,fileFirst,run_append] at direct
  rcases run_direct direct with early | ⟨listed,_⟩
  · rcases run_direct early with none_ | ⟨_,f',file',target,u,other,added⟩
    · simp at none_
    · rcases (run_done _).mp added with none_ | ⟨f'',listed⟩
      · simp at none_
      · have here : u ∈ w.symbolsOf f := by
          rcases List.mem_append.mp listed with register | issue
          · obtain ⟨u',member,same⟩ := List.mem_map.mp register
            exact (IngestEvent.register.inj same).2 ▸ member
          · obtain ⟨r,_,wrong⟩ := List.mem_map.mp issue
            cases wrong
        exact wf.file_eq file' other file here ▸ target
  · exfalso
    rcases List.mem_append.mp listed with register | issue
    · exact absurd (registers_of_files _ _ register) (by simp [IngestEvent.isIssue])
    · obtain ⟨f',member,here⟩ := List.mem_flatMap.mp issue
      obtain ⟨r,_,same⟩ := List.mem_map.mp here
      obtain ⟨rfl,_⟩ := IngestEvent.issue.inj same
      rw [own] at member
      exact (wf.distinct.mem_erase_iff.mp member).1 rfl

theorem WellFormed.file_of_id (file : f ∈ w.files) (member : s ∈ w.symbolsOf f) (file' : f' ∈ w.files)
    (member' : s' ∈ w.symbolsOf f') (same : (w.heap s).id = (w.heap s').id) : f = f' := by
  apply wf.apart f file f' file'
  rw [← (wf.settled f file s member).ofId,← (wf.settled f' file' s' member').ofId,same]

theorem OrderIndependent.waiting (independent : w.OrderIndependent) {x : Effect} (effective : w.Effective x)
    (foreign : x.reference.target ∉ w.symbolsOf x.file) :
    isApexKeyword (w.heap x.reference.target).name = false ∧ w.FirstOfItsName x := by
  obtain ⟨events,order,first,edge⟩ := exists_first_issue wf effective
  have orderB := fileFirst_order (w := w) effective.file
  obtain ⟨k,e,holds,sameEnds⟩ := (independent _ _ orderB order first _).mpr edge
  have member := effective.member wf
  have once := effective.once wf
  have sameTarget : ∀ z, w.Effective z → (w.heap z.reference.target).id = (w.heap x.reference.target).id →
      z.reference.target = x.reference.target := by
    intro z effectiveZ id
    have declared := (effectiveZ.once wf).declared
    have same := wf.identities _ declared _ once.declared (congrArg toLowerCase id)
    exact once.eq declared ⟨congrArg toLowerCase same.2.1,same.2.2⟩
  rcases (orderB.ingested wf).stored k e holds with ⟨z,direct,rfl⟩ | ⟨z,late,nameable,first,found,rfl⟩
  · exfalso
    have effectiveZ := orderB.effects_iff.mp (.inl direct)
    have file := wf.file_of_id effectiveZ.file (effectiveZ.member wf) effective.file member (congrArg Prod.fst sameEnds)
    have target := fileFirst_direct wf effective.file direct file
    rw [sameTarget z effectiveZ (congrArg (fun p => p.2.1) sameEnds)] at target
    exact foreign target
  · have effectiveZ := orderB.effects_iff.mp (.inr late)
    have id : (w.heap first).id = (w.heap x.source).id := congrArg Prod.fst sameEnds
    have firstMember : first ∈ w.symbolsOf z.file := List.mem_of_find?_eq_some found
    have file := wf.file_of_id effectiveZ.file firstMember effective.file member id
    have named : (w.heap first).name = (w.heap z.source).name := by
      have hit := List.find?_some found
      simp only [Bool.and_eq_true,decide_eq_true_eq] at hit
      exact hit.1
    have sameName := (wf.identities first (mem_symbols effectiveZ.file firstMember) x.source
      (mem_symbols effective.file member) (congrArg toLowerCase id)).2.1
    rw [← named,sameName,file] at found
    exact ⟨sameTarget z effectiveZ (congrArg (fun p => p.2.1) sameEnds) ▸ nameable,first,found,id⟩

theorem OrderIndependent.safe (independent : w.OrderIndependent) : w.OrderSafe where
  waiting _ member foreign := independent.waiting wf (mem_effects.mp member) foreign
  located _ memberX _ memberY same := independent.located wf (mem_effects.mp memberX) (mem_effects.mp memberY) same

omit wf in
/-- The edges of a workspace do not depend on the order of ingestion exactly when every
reference across files can wait without losing its source or its target, and no two references
that count as one edge differ in their location. -/
theorem orderIndependent_iff (w : Workspace) (wf : w.WellFormed) : w.OrderIndependent ↔ w.OrderSafe := by
  constructor
  · exact fun independent => independent.safe wf
  · intro safe events events₀ order order₀ _ edge
    rw [safe.hasEdge_iff wf order,safe.hasEdge_iff wf order₀]

end

/-- A class with its constructor, and a class that one of the two refers to. -/
def callerHeap : Heap
  | .declared 0 => @SymbolGraph.fileClass asciiRuntime "Caller" "file:///Caller.cls"
  | .declared 1 =>
    @createFullSymbolWithNamespace asciiRuntime "Caller" .constructor (lineOf 2) "file:///Caller.cls"
      { visibility := .public_ } (.of "file:///Caller.cls#Caller$class") [] none ["Caller"]
  | _ => @SymbolGraph.fileClass asciiRuntime "Util" "file:///Util.cls"
where
  lineOf (line : Nat) : SymbolLocation := ⟨⟨line,2,line,20⟩,⟨line,9,line,15⟩⟩

def tableWith (symbols : List Ref) : SymbolTable :=
  symbols.foldl (fun t s => (@SymbolTable.addSymbol asciiRuntime callerHeap t s none).2) {}

def callerTables : TableRef → SymbolTable
  | .parsed 0 => tableWith [.declared 0,.declared 1]
  | .parsed 1 => tableWith [.declared 2]
  | _ => {}

def callerWorkspace (source : Ref) : Workspace where
  heap := callerHeap
  tables := callerTables
  files :=
    [⟨"file:///Caller.cls",0,[⟨source,.declared 2,.typeReference,callerHeap.lineOf 3,none⟩]⟩,⟨"file:///Util.cls",1,[]⟩]

theorem class_reference_independent : @OrderIndependent asciiRuntime (callerWorkspace (.declared 0)) :=
  (@orderIndependent_iff asciiRuntime (callerWorkspace (.declared 0)) (by decide +kernel)).mpr (by decide +kernel)

/-- A constructor's reference moves to its class when it has to wait. -/
theorem constructor_reference_dependent :
    ¬ ∀ w, @WellFormed asciiRuntime w → @OrderIndependent asciiRuntime w := by
  intro always
  have wf : @WellFormed asciiRuntime (callerWorkspace (.declared 1)) := by decide +kernel
  have safe := @OrderIndependent.safe asciiRuntime _ wf (always _ wf)
  revert safe
  decide +kernel

end Workspace
end ApexLs.Symbols
