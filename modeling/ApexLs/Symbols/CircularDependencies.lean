import ApexLs.Collections.CycleSearch
import ApexLs.Symbols.GraphRuns
import ApexLs.Utils.AsciiBytes

/-! Circular dependencies: a depth-first search over the edges of the graph, from every known id or from one symbol. -/
namespace ApexLs.Symbols

open ApexLs.Utils ApexLs.Types ApexLs.Collections
open CycleSearch (Track IsCycle Link)

namespace SymbolGraph

variable [Runtime]

/-- The targets of the edges that start at a symbol, among those filed under a file. -/
def edgeTargets (refs : ReferenceIndexes) (fileUri symbolId : String) : List String :=
  ((refs.forwardIndex.get fileUri).elim [] OrderedSet.elements).filterMap fun refKey =>
    ((refs.refStore.get refKey).filter (·.sourceSymbolId = symbolId)).map (·.targetSymbolId)

def neighbours (g : SymbolGraph) (symbolId : String) : List String × SymbolGraph :=
  match g.getSymbol symbolId with
  | (none,g) => ([],g)
  | (some symbolInGraph,g) => (edgeTargets g.refs (g.heap symbolInGraph).fileUri symbolId,g)

/-- `detectCyclesDFS`. A first argument of 0 is a recursion that has run out of stack frames. -/
def detectCyclesDFS (frames : Nat) (symbolId : String) (state : SymbolGraph × Track String) :
    Option (SymbolGraph × Track String) :=
  CycleSearch.search neighbours frames symbolId state

def detectCircularDependencies (g : SymbolGraph) (frames : Nat) : Option (List (List String) × SymbolGraph) :=
  let symbolIds := g.symbolIdIndex.keys
  (symbolIds.foldlM (fun state symbolId =>
    if symbolId ∉ state.2.visited then detectCyclesDFS frames symbolId state else some state) (g,{})).map
      fun state => (state.2.cycles,state.1)

def detectCircularDependenciesForSymbol (g : SymbolGraph) (symbol : ApexSymbol) (frames : Nat) :
    Option (List (List String) × SymbolGraph) :=
  let symbolId := getSymbolId symbol symbol.fileUri
  if g.symbolIdIndex.has symbolId then
    (detectCyclesDFS frames symbolId (g,{})).map fun state => (state.2.cycles.filter (symbolId ∈ ·),state.1)
  else some ([],g)

def DependsOn (g : SymbolGraph) (a b : String) : Prop :=
  ∃ refKey e, g.refs.refStore.get refKey = some e ∧ e.sourceSymbolId = a ∧ e.targetSymbolId = b

/-- Every edge starts at a declared symbol: its id is known, for a symbol of the file that the edge starts in. -/
def OverDeclared (g : SymbolGraph) : Prop :=
  ∀ refKey e, g.refs.refStore.get refKey = some e →
    ∃ s, g.symbolIdIndex.get? e.sourceSymbolId = some s ∧ toLowerCase (g.heap s).fileUri = toLowerCase e.sourceFileUri

theorem dependsOn_iff {g : SymbolGraph} {a b : String} : g.DependsOn a b ↔
    ∃ p ∈ g.refs.refStore.entries.entries, p.2.2.sourceSymbolId = a ∧ p.2.2.targetSymbolId = b := by
  constructor
  · rintro ⟨refKey,e,stored,ends⟩
    obtain ⟨p,member,rfl⟩ := CaseInsensitiveMap.exists_get_iff.mp ⟨refKey,stored⟩
    exact ⟨p,member,ends⟩
  · rintro ⟨p,member,ends⟩
    obtain ⟨refKey,stored⟩ := CaseInsensitiveMap.exists_get_iff.mpr ⟨p,member,rfl⟩
    exact ⟨refKey,p.2.2,stored,ends⟩

instance (g : SymbolGraph) (a b : String) : Decidable (g.DependsOn a b) := decidable_of_iff' _ dependsOn_iff

theorem overDeclared_iff {g : SymbolGraph} : g.OverDeclared ↔ ∀ p ∈ g.refs.refStore.entries.entries,
    (g.symbolIdIndex.get? p.2.2.sourceSymbolId).any (fun s =>
      toLowerCase (g.heap s).fileUri = toLowerCase p.2.2.sourceFileUri) = true := by
  simp only [Option.any_eq_true,decide_eq_true_eq]
  constructor
  · intro declared p member
    obtain ⟨refKey,stored⟩ := CaseInsensitiveMap.exists_get_iff.mpr ⟨p,member,rfl⟩
    exact declared refKey p.2.2 stored
  · intro declared refKey e stored
    obtain ⟨p,member,rfl⟩ := CaseInsensitiveMap.exists_get_iff.mp ⟨refKey,stored⟩
    exact declared p member

instance (g : SymbolGraph) : Decidable g.OverDeclared := decidable_of_iff' _ overDeclared_iff

/-- Distinct ids, each with an edge to the next and the last with one to the first. -/
structure IsDependencyCycle (g : SymbolGraph) (cycle : List String) : Prop where
  linked : cycle.IsChain g.DependsOn
  once : cycle.Nodup
  closes : ∃ first last, cycle.head? = some first ∧ cycle.getLast? = some last ∧ g.DependsOn last first

def neighboursOf (g : SymbolGraph) (symbolId : String) : List String :=
  (g.resolve symbolId).elim [] fun s => edgeTargets g.refs (g.heap s).fileUri symbolId

theorem neighbours_spec {g g' : SymbolGraph} (symbolId : String) (after : Memoised g g') :
    (g'.neighbours symbolId).1 = g.neighboursOf symbolId ∧ Memoised g (g'.neighbours symbolId).2 := by
  obtain ⟨g'',found,later⟩ := getSymbol_spec g' symbolId
  rw [neighbours,found,after.resolve]
  have both := after.trans later
  cases answer : g.resolve symbolId with
  | none => exact ⟨by rw [neighboursOf,answer]; rfl,both⟩
  | some s =>
    refine ⟨?_,both⟩
    rw [neighboursOf,answer,← both.refs,← both.heap]
    rfl

theorem mem_edgeTargets {refs : ReferenceIndexes} {fileUri a b : String} : b ∈ edgeTargets refs fileUri a ↔
    ∃ refKey ∈ (refs.forwardIndex.get fileUri).elim [] OrderedSet.elements, ∃ e, refs.refStore.get refKey = some e ∧
      e.sourceSymbolId = a ∧ e.targetSymbolId = b := by
  simp only [edgeTargets,List.mem_filterMap,Option.map_eq_some_iff,Option.filter_eq_some_iff,decide_eq_true_eq,and_assoc]

theorem dependsOn_of_neighbour {g : SymbolGraph} {a b : String} (link : b ∈ g.neighboursOf a) : g.DependsOn a b := by
  unfold neighboursOf at link
  cases answer : g.resolve a with
  | none => simp [answer] at link
  | some s =>
    rw [answer,Option.elim_some,mem_edgeTargets] at link
    obtain ⟨refKey,_,e,stored,source,target⟩ := link
    exact ⟨refKey,e,stored,source,target⟩

theorem neighbour_iff_dependsOn {g : SymbolGraph} (coherent : g.refs.Coherent) (declared : g.OverDeclared) {a b : String} :
    b ∈ g.neighboursOf a ↔ g.DependsOn a b := by
  refine ⟨dependsOn_of_neighbour,?_⟩
  rintro ⟨refKey,e,stored,rfl,rfl⟩
  obtain ⟨s,known,file⟩ := declared refKey e stored
  obtain ⟨original,holds,_⟩ := CaseInsensitiveMap.get_eq_some_iff.mp stored
  rw [neighboursOf,resolve_known known,Option.elim_some,mem_edgeTargets]
  exact ⟨original,(ReferenceIndexes.mem_elements_of_mirror coherent.forward).mpr ⟨e,holds,file.symm⟩,e,holds.get,rfl,rfl⟩

def targets (g : SymbolGraph) : List String := g.refs.refStore.entries.entries.map fun p => p.2.2.targetSymbolId

theorem neighbour_mem_targets {g : SymbolGraph} (a b : String) (link : b ∈ g.neighboursOf a) : b ∈ g.targets := by
  obtain ⟨p,member,_,target⟩ := dependsOn_iff.mp (dependsOn_of_neighbour link)
  exact List.mem_map.mpr ⟨p,member,target⟩

theorem length_targets (g : SymbolGraph) : g.targets.length = g.refs.refStore.size := List.length_map _

theorem isDependencyCycle {g : SymbolGraph} {cycle : List String} (is : IsCycle g.neighboursOf cycle) :
    g.IsDependencyCycle cycle := by
  obtain ⟨first,last,head,end_,closes⟩ := is.closes
  exact ⟨is.linked.imp fun _ _ => dependsOn_of_neighbour,is.once,first,last,head,end_,dependsOn_of_neighbour closes⟩

theorem detectCircularDependencies_spec {g : SymbolGraph} (coherent : g.refs.Coherent) {frames : Nat}
    (enough : g.refs.refStore.size + 2 ≤ frames) :
    ∃ cycles g', g.detectCircularDependencies frames = some (cycles,g') ∧ (∀ c ∈ cycles, g.IsDependencyCycle c) ∧
      (g.OverDeclared → (cycles ≠ [] ↔ ∃ a, Relation.TransGen g.DependsOn a a)) := by
  have looks (g' : SymbolGraph) (a : String) (after : Memoised g g') := neighbours_spec a after
  have ends : (CycleSearch.searchAll neighbours frames g.symbolIdIndex.keys (g,{})).isSome = true :=
    CycleSearch.searchAll_ends looks neighbour_mem_targets (length_targets g ▸ enough) _ (Memoised.refl g)
  obtain ⟨after,found⟩ := Option.isSome_iff_exists.mp ends
  obtain ⟨genuine,meets⟩ := CycleSearch.searchAll_cycles looks found (Memoised.refl g)
  refine ⟨after.2.cycles,after.1,?_,fun c member => isDependencyCycle (genuine c member),fun declared => ?_⟩
  · exact congrArg (Option.map fun state => (state.2.cycles,state.1)) found
  · have same : Link g.neighboursOf = g.DependsOn := by
      funext a b
      exact propext (neighbour_iff_dependsOn coherent declared)
    rw [← same]
    refine meets fun a b link => ?_
    obtain ⟨refKey,e,stored,rfl,_⟩ := dependsOn_of_neighbour link
    obtain ⟨s,known,_⟩ := declared refKey e stored
    exact OrderedMap.mem_keys_iff.mpr ⟨s,known⟩

theorem detectCircularDependenciesForSymbol_spec {g : SymbolGraph} (coherent : g.refs.Coherent) {frames : Nat}
    (enough : g.refs.refStore.size + 2 ≤ frames) (symbol : ApexSymbol) :
    ∃ cycles g', g.detectCircularDependenciesForSymbol symbol frames = some (cycles,g') ∧
      (∀ c ∈ cycles, g.IsDependencyCycle c) ∧
      (g.OverDeclared → (cycles ≠ [] ↔
        Relation.TransGen g.DependsOn (getSymbolId symbol symbol.fileUri) (getSymbolId symbol symbol.fileUri))) := by
  generalize is : getSymbolId symbol symbol.fileUri = symbolId
  unfold detectCircularDependenciesForSymbol
  dsimp only
  rw [is]
  by_cases known : g.symbolIdIndex.has symbolId = true
  · rw [if_pos known]
    have looks (g' : SymbolGraph) (a : String) (after : Memoised g g') := neighbours_spec a after
    have ends : (CycleSearch.search neighbours frames symbolId (g,{})).isSome = true :=
      CycleSearch.search_ends looks neighbour_mem_targets (length_targets g ▸ enough) symbolId (Memoised.refl g)
    obtain ⟨after,found⟩ := Option.isSome_iff_exists.mp ends
    obtain ⟨genuine,meets⟩ := CycleSearch.search_cycles looks found (Memoised.refl g)
    refine ⟨_,after.1,congrArg (Option.map _) found,fun c member => ?_,fun declared => ?_⟩
    · exact isDependencyCycle (genuine c (List.mem_of_mem_filter member))
    · have same : Link g.neighboursOf = g.DependsOn := by
        funext a b
        exact propext (neighbour_iff_dependsOn coherent declared)
      rw [← same,← meets,Ne,List.filter_eq_nil_iff]
      push Not
      simp only [decide_eq_true_eq]
  · rw [if_neg known]
    refine ⟨[],g,rfl,by simp,fun declared => ⟨fun nonempty => absurd rfl nonempty,fun path => ?_⟩⟩
    obtain ⟨b,⟨refKey,e,stored,source,_⟩,_⟩ := Relation.TransGen.head'_iff.mp path
    obtain ⟨s,found,_⟩ := declared refKey e stored
    exact absurd (OrderedMap.has_iff.mpr ⟨s,source ▸ found⟩) known

/-- In every reachable graph both searches end and answer with cycles of edges. Over declared symbols the one answers
with a cycle just where there is one, the other just where the symbol lies on one. -/
theorem cycle_detection_exact (heap : Heap) (tables : TableRef → SymbolTable) (calls : List GraphCall) (frames : Nat) :
    let g := reached heap tables calls
    g.refs.refStore.size + 2 ≤ frames →
      (∃ cycles g', g.detectCircularDependencies frames = some (cycles,g') ∧ (∀ c ∈ cycles, g.IsDependencyCycle c) ∧
        (g.OverDeclared → (cycles ≠ [] ↔ ∃ a, Relation.TransGen g.DependsOn a a))) ∧
      ∀ symbol : ApexSymbol, ∃ cycles g', g.detectCircularDependenciesForSymbol symbol frames = some (cycles,g') ∧
        (∀ c ∈ cycles, g.IsDependencyCycle c) ∧
        (g.OverDeclared → (cycles ≠ [] ↔
          Relation.TransGen g.DependsOn (getSymbolId symbol symbol.fileUri) (getSymbolId symbol symbol.fileUri))) := by
  intro g enough
  have coherent := reached_coherent heap tables calls
  exact ⟨detectCircularDependencies_spec coherent enough,detectCircularDependenciesForSymbol_spec coherent enough⟩

def selfReference : List GraphCall :=
  [.addSymbol (.declared 0) "file:///Node.cls" none,
    .addReference (.declared 0) (.declared 0) .typeReference ⟨⟨2,2,2,6⟩,⟨2,2,2,6⟩⟩ none]

def nodeClass : Heap := fun _ => @fileClass asciiRuntime "Node" "file:///Node.cls"

omit [Runtime] in
/-- The search meets the loop. -/
theorem self_reference_detected :
    let _ := asciiRuntime
    ∃ cycles g', (reached nodeClass (fun _ => {}) selfReference).detectCircularDependencies 3 = some (cycles,g') ∧
      cycles ≠ [] := by
  intro _
  let Meets (_ : Runtime) := let g := reached nodeClass (fun _ => {}) selfReference
    g.refs.refStore.size + 2 ≤ 3 ∧ g.OverDeclared ∧
      g.DependsOn (nodeClass (.declared 0)).id (nodeClass (.declared 0)).id
  obtain ⟨enough,declared,loop⟩ : Meets asciiRuntime := of_byteRuntime Meets (by decide +kernel)
  obtain ⟨⟨cycles,g',found,_,meets⟩,_⟩ := cycle_detection_exact nodeClass (fun _ => {}) selfReference 3 enough
  exact ⟨cycles,g',found,(meets declared).mpr ⟨_,.single loop⟩⟩

end SymbolGraph
end ApexLs.Symbols
