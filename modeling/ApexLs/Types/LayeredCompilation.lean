import ApexLs.Types.SymbolTableIndexes

/-! Layered compilation runs several listener passes over one file. Each pass adds what it can
see, with the detail level it captures, and the table decides which additions are one
declaration. A run loses no declaration while every addition meets only itself. -/
namespace ApexLs.Types

open ApexLs.Utils ApexLs.Collections

structure Declaration where
  kind : SymbolKind
  name : String
  signature : Option String
  deriving DecidableEq, Repr

def declaration (s : ApexSymbol) : Declaration where
  kind := s.kind
  name := s.name
  signature := if s.isMethodOrConstructorSymbol
    then s.parameters.map (fun ps => normalizeSignature (convertToParameterInfo ps)) else none

@[simp] theorem declaration_adoptParent (scope : Option String) (s : ApexSymbol) :
    declaration (adoptParent scope s) = declaration s := by
  unfold adoptParent
  split <;> rfl

@[simp] theorem declaration_synchronizeKey [Runtime] (s : ApexSymbol) :
    declaration (synchronizeKey s) = declaration s := rfl

theorem declaration_prepare [Runtime] (heap : Heap) (symbol : Ref) (scope : Option String) (r : Ref) :
    declaration (prepare heap symbol scope r) = declaration (heap r) := by
  rw [prepare,Heap.put_apply]
  split
  next same => rw [same,declaration_adoptParent,declaration_synchronizeKey]
  next => rfl

theorem declaration_assign {e s : ApexSymbol} (same : declaration e = declaration s) :
    declaration (assign e s) = declaration s := by
  have signatures := congrArg Declaration.signature same
  have kinds : e.kind = s.kind := congrArg Declaration.kind same
  have callables : e.isMethodOrConstructorSymbol = s.isMethodOrConstructorSymbol := by
    simp only [ApexSymbol.isMethodOrConstructorSymbol,kinds]
  have assigned : (assign e s).isMethodOrConstructorSymbol = s.isMethodOrConstructorSymbol := rfl
  simp only [declaration,callables] at signatures
  simp only [declaration,assigned,Declaration.mk.injEq]
  refine ⟨rfl,rfl,?_⟩
  cases callable : s.isMethodOrConstructorSymbol with
  | false => rfl
  | true =>
    simp only [callable,if_true] at signatures ⊢
    cases parameters : s.parameters with
    | some ps => simp [assign,parameters]
    | none => simpa [assign,parameters] using signatures

namespace SymbolTable

section

variable [Runtime]

/-- Two added symbols stand for different declarations of one scope: their declarations are
the ones they were added with. -/
def DifferentDeclarations (initial : Heap) (heap : Heap) (a b : Ref) : Prop :=
  declaration (initial a) ≠ declaration (initial b) ∧ (heap a).parentId = (heap b).parentId

/-- Asked for the symbol's own id, the table answers with its declaration. -/
def Survives (initial : Heap) (s : Heap × SymbolTable) (r : Ref) : Prop :=
  ∃ e, s.2.getSymbolById (s.1 r).id = some e ∧ declaration (s.1 e) = declaration (initial r)

/-- The call overwrites `e` with its symbol, or skips its symbol because of `e`. -/
def Displaces (s : Heap × SymbolTable) (c : Call) (e : Ref) : Prop :=
  let heap := prepare s.1 c.symbol c.currentScope
  (s.2.lookupExisting heap c.symbol).2 = some (.single e) ∧
    exitAgainst heap c.symbol e ∈ [.enrich e,.keepHigherLevel,.keepTopLevelClass,.keepSamePlace]

structure NothingLost (heap : Heap) (calls : List Call) : Prop where
  present : ∀ a ∈ calls, ∀ b ∈ calls,
    DifferentDeclarations heap (run call (heap,{}) calls).1 a.symbol b.symbol →
      Survives heap (run call (heap,{}) calls) a.symbol ∧ Survives heap (run call (heap,{}) calls) b.symbol
  apart : EveryStep call (fun s c => ∀ e, Displaces s c e →
    ¬ DifferentDeclarations heap (run call (heap,{}) calls).1 e c.symbol) (heap,{}) calls

/-- The call finds nothing, by id or by the fallback, or finds under its symbol's own id only
symbols of the same declaration. -/
def MeetsOnlyItself (s : Heap × SymbolTable) (c : Call) : Prop :=
  let heap := prepare s.1 c.symbol c.currentScope
  match s.2.symbolMap.get? (heap c.symbol).id with
  | none => s.2.fallback heap c.symbol = none
  | some b => ∀ e ∈ b.symbols, declaration (heap e) = declaration (heap c.symbol)

instance (s : Heap × SymbolTable) (c : Call) : Decidable (MeetsOnlyItself s c) :=
  match h : s.2.symbolMap.get? (prepare s.1 c.symbol c.currentScope c.symbol).id with
  | none => decidable_of_iff (s.2.fallback (prepare s.1 c.symbol c.currentScope) c.symbol = none)
      (by simp [MeetsOnlyItself,h])
  | some b => decidable_of_iff (∀ e ∈ b.symbols, declaration (prepare s.1 c.symbol c.currentScope e) =
      declaration (prepare s.1 c.symbol c.currentScope c.symbol)) (by simp [MeetsOnlyItself,h])

end

/-- A symbol on file: its bucket is not empty and holds its declaration only. -/
structure OnFile (initial : Heap) (s : Heap × SymbolTable) (r : Ref) : Prop where
  synchronized : Synchronized (s.1 r)
  bucket : ∃ b e, s.2.symbolMap.get? (s.1 r).id = some b ∧ b.first? = some e ∧
    ∀ e' ∈ b.symbols, declaration (s.1 e') = declaration (initial r)

theorem OnFile.survives {initial : Heap} {s : Heap × SymbolTable} (filed : OnFile initial s r) :
    Survives initial s r := by
  obtain ⟨b,e,got,first,only⟩ := filed.bucket
  refine ⟨e,by simp [getSymbolById,got,first],only e ?_⟩
  exact List.mem_of_head? first

/-- What a run that meets only itself keeps: no declaration changes, and `added` is on file. -/
structure Layered (initial : Heap) (added : List Ref) (s : Heap × SymbolTable) : Prop where
  declared : ∀ r, declaration (s.1 r) = declaration (initial r)
  listed : ∀ r ∈ s.2.symbolArray, r ∈ added
  onFile : ∀ r ∈ added, OnFile initial s r
  agree : IndexesAgree s.1 s.2

theorem Layered.empty (heap : Heap) : Layered heap [] (heap,{}) where
  declared _ := rfl
  listed := by simp
  onFile := by simp
  agree := indexesAgree_empty heap

theorem Layered.prepared [Runtime] {initial : Heap} {t : SymbolTable} (layered : Layered initial added (heap,t))
    (symbol : Ref) (scope : Option String) : Layered initial added (prepare heap symbol scope,t) where
  declared r := by rw [declaration_prepare]; exact layered.declared r
  listed := layered.listed
  onFile r member := by
    obtain ⟨sync,b,e,got,first,only⟩ := layered.onFile r member
    refine ⟨prepare_keeps_synchronized _ _ sync,b,e,?_,first,?_⟩
    · rw [prepare_keeps_id _ _ sync]
      exact got
    · intro e' inside
      rw [declaration_prepare]
      exact only e' inside
  agree := layered.agree.transfer rfl rfl
    (fun r member => prepare_keeps_id _ _ (layered.onFile r (layered.listed r member)).synchronized)

/-- What the insertion of a symbol that meets only itself does to the id map. -/
structure Joins (heap : Heap) (t : SymbolTable) (symbol : Ref) (s : Heap × SymbolTable) : Prop where
  ids : ∀ r, (s.1 r).id = (heap r).id
  synchronized : ∀ r, Synchronized (heap r) → Synchronized (s.1 r)
  declared : ∀ r, declaration (s.1 r) = declaration (heap r)
  bucket : ∃ b e, s.2.symbolMap.get? (heap symbol).id = some b ∧ b.first? = some e ∧
    ∀ e' ∈ b.symbols, declaration (heap e') = declaration (heap symbol)
  elsewhere : ∀ k, k ≠ (heap symbol).id → s.2.symbolMap.get? k = t.symbolMap.get? k

theorem Joins.of_same_heap {heap : Heap} {t t' : SymbolTable} {symbol : Ref}
    (bucket : ∃ b e, t'.symbolMap.get? (heap symbol).id = some b ∧ b.first? = some e ∧
      ∀ e' ∈ b.symbols, declaration (heap e') = declaration (heap symbol))
    (elsewhere : ∀ k, k ≠ (heap symbol).id → t'.symbolMap.get? k = t.symbolMap.get? k) :
    Joins heap t symbol (heap,t') :=
  ⟨fun _ => rfl,fun _ sync => sync,fun _ => rfl,bucket,elsewhere⟩

theorem Joins.file {heap : Heap} {t : SymbolTable} {symbol : Ref} (b : Bucket) (first : b.first? = some e)
    (only : ∀ e' ∈ b.symbols, declaration (heap e') = declaration (heap symbol)) (symbols previous) :
    Joins heap t symbol (heap,(t.file (heap symbol).id b symbols).updateRootsArray heap symbol previous) :=
  .of_same_heap ⟨b,e,by simp [SymbolTable.file],first,only⟩ (fun k apart => by simp [SymbolTable.file,apart])

theorem Joins.onFile {initial : Heap} {t : SymbolTable} {symbol : Ref} {s : Heap × SymbolTable}
    (joins : Joins heap t symbol s) (sync : Synchronized (heap symbol))
    (declared : ∀ r, declaration (heap r) = declaration (initial r)) : OnFile initial s symbol := by
  obtain ⟨b,e,got,first,only⟩ := joins.bucket
  refine ⟨joins.synchronized symbol sync,b,e,by rw [joins.ids]; exact got,first,?_⟩
  intro e' inside
  rw [joins.declared,only e' inside,declared]

theorem Joins.keeps_onFile {initial : Heap} {t : SymbolTable} {symbol : Ref} {s : Heap × SymbolTable}
    (joins : Joins heap t symbol s) (declared : ∀ r, declaration (heap r) = declaration (initial r))
    (own : ∀ b, t.symbolMap.get? (heap symbol).id = some b →
      ∀ e ∈ b.symbols, declaration (heap e) = declaration (heap symbol))
    (filed : OnFile initial (heap,t) r) : OnFile initial s r := by
  obtain ⟨sync,b,e,got,first,only⟩ := filed
  by_cases here : (heap r).id = (heap symbol).id
  · have sameDeclaration : declaration (initial symbol) = declaration (initial r) := by
      rw [← declared symbol,← own b (here ▸ got) e (List.mem_of_head? first),only e (List.mem_of_head? first)]
    obtain ⟨b',e',got',first',only'⟩ := joins.bucket
    refine ⟨joins.synchronized r sync,b',e',by rw [joins.ids,here]; exact got',first',?_⟩
    intro x inside
    rw [joins.declared,only' x inside,declared,sameDeclaration]
  · refine ⟨joins.synchronized r sync,b,e,?_,first,?_⟩
    · rw [joins.ids,joins.elsewhere _ here]
      exact got
    · intro x inside
      rw [joins.declared]
      exact only x inside

section

variable [Runtime]

theorem insertPrepared_joins {t : SymbolTable} (sync : Synchronized (heap symbol))
    (alone : t.symbolMap.get? (heap symbol).id = none → t.fallback heap symbol = none)
    (own : ∀ b, t.symbolMap.get? (heap symbol).id = some b →
      ∀ e ∈ b.symbols, declaration (heap e) = declaration (heap symbol)) :
    Joins heap t symbol (t.insertPrepared heap symbol) := by
  unfold insertPrepared
  simp only [lookupExisting,sync.getUnifiedId]
  cases bucket : t.symbolMap.get? (heap symbol).id with
  | none =>
    simp only [alone bucket]
    exact .file (.single symbol) rfl (by simp [Bucket.symbols]) _ _
  | some b =>
    have only := own b bucket
    cases b with
    | many duplicates =>
      have onlyExtended : ∀ e ∈ pushIfAbsent duplicates symbol, declaration (heap e) = declaration (heap symbol) := by
        intro e member
        rcases mem_pushIfAbsent.mp member with old | rfl
        · exact only e old
        · rfl
      obtain ⟨e,first⟩ : ∃ e, (Bucket.many (pushIfAbsent duplicates symbol)).first? = some e := by
        have inside : symbol ∈ pushIfAbsent duplicates symbol := mem_pushIfAbsent.mpr (.inr rfl)
        exact ⟨_,List.head?_eq_some_head (List.ne_nil_of_mem inside)⟩
      exact .file (.many _) first onlyExtended _ _
    | single e =>
      have same : declaration (heap e) = declaration (heap symbol) := only e (by simp [Bucket.symbols])
      simp only [exitOf]
      rcases exitAgainst_cases heap symbol e with kept | enrich | ⟨second,_⟩
      · rw [perform_kept _ _ _ _ _ _ kept]
        exact .of_same_heap ⟨_,e,bucket,rfl,only⟩ (fun _ _ => rfl)
      · rw [enrich]
        refine ⟨put_assign_id heap e symbol,fun r => put_assign_synchronized e symbol,?_,
          ⟨.single e,e,by simp [perform,refile],rfl,only⟩,fun k apart => by simp [perform,refile,apart]⟩
        intro r
        simp only [perform,Heap.put_apply]
        split
        next here => rw [here,declaration_assign same,same]
        next => rfl
      · rw [second]
        exact .file (.many [e,symbol]) rfl (by simp [Bucket.symbols,same]) _ _

theorem meetsOnlyItself_cases {s : Heap × SymbolTable} {c : Call} (meets : MeetsOnlyItself s c) :
    (s.2.symbolMap.get? (prepare s.1 c.symbol c.currentScope c.symbol).id = none →
      s.2.fallback (prepare s.1 c.symbol c.currentScope) c.symbol = none) ∧
    (∀ b, s.2.symbolMap.get? (prepare s.1 c.symbol c.currentScope c.symbol).id = some b → ∀ e ∈ b.symbols,
      declaration (prepare s.1 c.symbol c.currentScope e) =
        declaration (prepare s.1 c.symbol c.currentScope c.symbol)) := by
  unfold MeetsOnlyItself at meets
  simp only at meets
  split at meets
  next unfiled => exact ⟨fun _ => meets,by simp [unfiled]⟩
  next b bucket => exact ⟨by simp [bucket],by simpa [bucket] using meets⟩

section

variable {initial : Heap} {s : Heap × SymbolTable}

theorem Layered.call {c : Call} (layered : Layered initial added s)
    (meets : MeetsOnlyItself s c) : Layered initial (c.symbol :: added) (call s c) := by
  obtain ⟨alone,own⟩ := meetsOnlyItself_cases meets
  have ready := layered.prepared c.symbol c.currentScope
  have sync := prepare_synchronized s.1 c.symbol c.currentScope
  have joins : Joins (prepare s.1 c.symbol c.currentScope) s.2 c.symbol (SymbolTable.call s c) :=
    insertPrepared_joins sync alone own
  have fits : ¬ MisfilingCall s c := by
    rintro ⟨unfiled,e,met,_⟩
    rw [alone unfiled] at met
    exact absurd met (by simp)
  refine ⟨fun r => (joins.declared r).trans (ready.declared r),?_,?_,?_⟩
  · intro r member
    rcases insertPrepared_listed ready.agree member with old | rfl
    · exact List.mem_cons_of_mem _ (layered.listed r old)
    · exact List.mem_cons_self
  · intro r member
    rcases List.mem_cons.mp member with rfl | old
    · exact joins.onFile sync ready.declared
    · exact joins.keeps_onFile ready.declared own (ready.onFile r old)
  · exact (call_agree_iff c (fun r member => (layered.onFile r (layered.listed r member)).synchronized)
      layered.agree).mpr fits

theorem Layered.run (layered : Layered initial added s)
    (every : EveryStep SymbolTable.call MeetsOnlyItself s calls) :
    Layered initial (calls.reverse.map Call.symbol ++ added) (run SymbolTable.call s calls) := by
  induction calls generalizing s added with
  | nil => exact layered
  | cons c calls ih => simpa using ih (layered.call every.1) every.2

theorem Layered.displaces {c : Call} (layered : Layered initial added s)
    (meets : MeetsOnlyItself s c) (displaced : Displaces s c e) :
    declaration (initial e) = declaration (initial c.symbol) := by
  obtain ⟨alone,own⟩ := meetsOnlyItself_cases meets
  have ready := layered.prepared c.symbol c.currentScope
  have sync := prepare_synchronized s.1 c.symbol c.currentScope
  have met := displaced.1
  simp only [lookupExisting,sync.getUnifiedId] at met
  cases bucket : s.2.symbolMap.get? (prepare s.1 c.symbol c.currentScope c.symbol).id with
  | none => simp [bucket,alone bucket] at met
  | some b =>
    simp only [bucket,Option.some.injEq] at met
    have same := own b bucket e (by simp [met,Bucket.symbols])
    rwa [ready.declared,ready.declared] at same

end

theorem Layered.displaces_along {initial final : Heap} {s : Heap × SymbolTable} (layered : Layered initial added s)
    (every : EveryStep SymbolTable.call MeetsOnlyItself s calls) :
    EveryStep SymbolTable.call (fun s c => ∀ e, Displaces s c e →
      ¬ DifferentDeclarations initial final e c.symbol) s calls := by
  induction calls generalizing s added with
  | nil => trivial
  | cons c calls ih =>
    refine ⟨fun e displaced differ => differ.1 (layered.displaces every.1 displaced),?_⟩
    exact ih (layered.call every.1) every.2

/-- Where every call meets only itself, layered compilation loses no declaration, whatever the
order of the passes. -/
theorem nothing_lost_along (heap : Heap) (calls : List Call)
    (every : EveryStep call MeetsOnlyItself (heap,{}) calls) :
    ∀ front, front <+: calls → NothingLost heap front := by
  rintro front ⟨back,rfl⟩
  have along := (everyStep_append.mp every).1
  have layered := (Layered.empty heap).run along
  refine ⟨fun a memberA b memberB _ => ?_,(Layered.empty heap).displaces_along along⟩
  have survives : ∀ c ∈ front, Survives heap (run call (heap,{}) front) c.symbol :=
    fun c member => (layered.onFile c.symbol (by simpa using ⟨c,member,rfl⟩)).survives
  exact ⟨survives a memberA,survives b memberB⟩

end

/-- The public pass sees `foo(String)`, a later one the same method in full and `bar(Integer)`. -/
def passes : Heap
  | .declared 0 => @methodOfC asciiRuntime "foo" "String" .publicApi .public_ 2
  | .declared 1 => @methodOfC asciiRuntime "foo" "String" .full .public_ 2
  | _ => @methodOfC asciiRuntime "bar" "Integer" .full .private_ 3

theorem nothing_lost_in_passes :
    @NothingLost asciiRuntime passes [⟨.declared 0,none⟩,⟨.declared 1,none⟩,⟨.declared 2,none⟩] :=
  @nothing_lost_along asciiRuntime passes _ (by decide) _ (List.prefix_refl _)

def overloadsOfTwoVisibilities : Heap
  | .declared 0 => @methodOfC asciiRuntime "foo" "String" .publicApi .public_ 2
  | _ => @methodOfC asciiRuntime "foo" "Integer" .private_ .private_ 3

/-- A public and a private overload: the private pass takes its method for the public one,
overwrites it, and leaves the id of `foo(Integer)` without an answer. -/
theorem overload_of_other_visibility_lost :
    ¬ ∀ heap calls, (∀ c ∈ calls, (heap c.symbol).detailLevel.isSome) → @NothingLost asciiRuntime heap calls := by
  intro always
  let _ := asciiRuntime
  have kept := always overloadsOfTwoVisibilities [⟨.declared 0,none⟩,⟨.declared 1,none⟩] (by decide)
  have survives := (kept.present ⟨.declared 0,none⟩ (by decide) ⟨.declared 1,none⟩ (by decide)
    ⟨by decide,by decide⟩).2
  obtain ⟨e,answer,_⟩ := survives
  have unanswered : (run (@call asciiRuntime) (overloadsOfTwoVisibilities,{})
      [⟨.declared 0,none⟩,⟨.declared 1,none⟩]).2.getSymbolById "file:///C.cls#C.foo#(Integer)" = none := by decide
  have sameId : ((run (@call asciiRuntime) (overloadsOfTwoVisibilities,{})
      [⟨.declared 0,none⟩,⟨.declared 1,none⟩]).1 (.declared 1)).id = "file:///C.cls#C.foo#(Integer)" := by decide
  rw [sameId,unanswered] at answer
  exact absurd answer (by simp)

end SymbolTable
end ApexLs.Types
