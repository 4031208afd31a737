import Mathlib.Algebra.Order.BigOperators.Group.List
import Mathlib.Algebra.Order.Monoid.Canonical.Defs
import Mathlib.Algebra.Order.Group.Nat
import ApexLs.Symbols.DrainSpecs
import ApexLs.Utils.AsciiBytes

/-! The synchronous drain and the batched one. Both ask for one edge for each entry whose
source is in the graph and leave the other entries; they differ in the target they choose,
because only the batched drain reads the file a reference was issued for. -/
namespace ApexLs.Symbols

open ApexLs.Utils ApexLs.Types ApexLs.Collections

namespace SymbolGraph

section

variable [Runtime]

def runBatches (size : Nat) : Nat → SymbolGraph → String → SymbolGraph
  | 0,g,_ => g
  | rounds + 1,g,name => runBatches size rounds (g.processDeferredReferencesBatch name size).2 name

def drainBatched (size rounds : Nat) (g : SymbolGraph) : SymbolGraph :=
  g.deferredReferences.keys.foldl (runBatches size rounds) g

theorem passes_spec {σ : Type} (graph : σ → SymbolGraph) (pass : σ → String → σ)
    {asked : String → List RefStoreEntry} {left : String → List DeferredReference} {g : SymbolGraph}
    (one : ∀ s name, SameSymbols g (graph s) → (graph s).deferredUnder name = g.deferredUnder name →
      Drained (graph s) (graph (pass s name)) (asked name) ∧
        ∀ name', (graph (pass s name)).deferredUnder name' =
          if toLowerCase name' = toLowerCase name then left name else (graph s).deferredUnder name')
    (names : List String) (distinct : (names.map toLowerCase).Nodup) :
    ∀ s, SameSymbols g (graph s) → (∀ name ∈ names, (graph s).deferredUnder name = g.deferredUnder name) →
      Drained (graph s) (graph (names.foldl pass s)) (names.flatMap asked) ∧
        ∀ name', (graph (names.foldl pass s)).deferredUnder name' =
          (names.find? (fun name => toLowerCase name' = toLowerCase name)).elim
            ((graph s).deferredUnder name') left := by
  induction names with
  | nil => exact fun s _ _ => ⟨⟨SameSymbols.refl _,rfl⟩,fun _ => rfl⟩
  | cons name rest ih =>
    intro s same fresh
    simp only [List.map_cons,List.nodup_cons,List.mem_map,not_exists,not_and] at distinct
    obtain ⟨first,here⟩ := one s name same (fresh name List.mem_cons_self)
    have later : ∀ other ∈ rest, (graph (pass s name)).deferredUnder other = g.deferredUnder other := by
      intro other member
      rw [here,if_neg (distinct.1 other member),fresh other (List.mem_cons_of_mem _ member)]
    obtain ⟨others,there⟩ := ih distinct.2 (pass s name) (same.trans first.toSameSymbols) later
    refine ⟨first.trans others,fun name' => ?_⟩
    rw [List.foldl_cons,there,List.find?_cons]
    by_cases hit : toLowerCase name' = toLowerCase name
    · have missed : rest.find? (fun other => toLowerCase name' = toLowerCase other) = none := by
        rw [List.find?_eq_none]
        intro other member
        have apart := distinct.1 other member
        simpa [hit] using fun h => apart (Eq.symm h)
      simp [hit,here]
      simp [← hit,missed]
    · simp [hit,here]

theorem drainAllDeferredReferencesSync_spec (g : SymbolGraph) :
    Drained g g.drainAllDeferredReferencesSync.2
        (g.deferredReferences.keys.flatMap (fun name => edgesOf syncPick g name (g.deferredUnder name))) ∧
      ∀ name', g.drainAllDeferredReferencesSync.2.deferredUnder name' =
        (g.deferredReferences.keys.find? (fun name => toLowerCase name' = toLowerCase name)).elim
          (g.deferredUnder name') g.leftUnder := by
  refine passes_spec Prod.snd drainName (g := g) ?_ _
    g.deferredReferences.keys_toLowerCase_nodup (0,g) (SameSymbols.refl g) (fun _ _ => rfl)
  rintro ⟨resolved,h⟩ name same pending
  obtain ⟨n,h',drained,asked,left⟩ := drainName_spec resolved h name
  change h.deferredUnder name = g.deferredUnder name at pending
  change SameSymbols g h at same
  rw [drained]
  rw [pending,same.edgesOf] at asked
  refine ⟨asked,fun name' => ?_⟩
  rw [left]
  simp only [leftUnder,same.symbolsNamed,pending,same.waits]

theorem edgesOf_served (pick : Pick) (g : SymbolGraph) (name : String) (entries : List DeferredReference) :
    edgesOf pick g name (entries.filter (fun entry => !g.waits entry)) = edgesOf pick g name entries := by
  have silent : ∀ candidates entry, g.waits entry = true → edgeOf pick candidates g entry = none := by
    intro candidates entry waiting
    simp only [waits,Bool.and_eq_true,Option.isNone_iff_eq_none] at waiting
    simp [edgeOf,waiting.2]
  unfold edgesOf
  split
  next => rfl
  next =>
    rw [List.filterMap_filter]
    apply List.filterMap_congr
    intro entry _
    cases waiting : g.waits entry with
    | false => simp
    | true => simp [silent _ entry waiting]

theorem edgesOf_append (pick : Pick) (g : SymbolGraph) (name : String) (first second : List DeferredReference) :
    edgesOf pick g name (first ++ second) = edgesOf pick g name first ++ edgesOf pick g name second := by
  unfold edgesOf
  split
  next => rfl
  next => exact List.filterMap_append

theorem runBatches_spec (size rounds : Nat) (g : SymbolGraph) (name : String) :
    Drained g (runBatches size rounds g name) (edgesOf pickDeferredTargetForEntry g name
        (serveBatches g.waits size rounds (g.deferredUnder name)).1) ∧
      ∀ name', (runBatches size rounds g name).deferredUnder name' =
        if toLowerCase name' = toLowerCase name ∧ g.symbolsNamed name ≠ [] then
          (serveBatches g.waits size rounds (g.deferredUnder name)).2
        else g.deferredUnder name' := by
  induction rounds generalizing g with
  | zero =>
    refine ⟨⟨SameSymbols.refl g,by simp [serveBatches,edgesOf,runBatches]⟩,fun name' => ?_⟩
    split
    next both =>
      simp only [runBatches,serveBatches,deferredUnder,CaseInsensitiveMap.get,both.1]
    next => rfl
  | succ rounds ih =>
    obtain ⟨r,h,batched,first,left⟩ := processDeferredReferencesBatch_spec g name size
    obtain ⟨others,after⟩ := ih h
    simp only [runBatches,batched]
    have same := first.toSameSymbols
    by_cases nobody : g.symbolsNamed name = []
    · have noEdges : ∀ entries, edgesOf pickDeferredTargetForEntry g name entries = [] := by
        intro entries
        simp [edgesOf,nobody]
      have both := first.trans others
      rw [same.edgesOf,noEdges,noEdges] at both
      rw [noEdges]
      refine ⟨both,fun name' => ?_⟩
      rw [after,same.symbolsNamed]
      simp [nobody,left]
    · have here : h.deferredUnder name = leaveBatch g.waits size (g.deferredUnder name) := by
        simp [left,nobody]
      have both := first.trans others
      rw [same.edgesOf,same.waits,here,← edgesOf_served,← edgesOf_append] at both
      refine ⟨both,fun name' => ?_⟩
      rw [after,same.symbolsNamed,same.waits,here,left]
      simp only [nobody,ne_eq,not_false_eq_true,and_true,serveBatches]
      split
      next => rfl
      next => rfl

theorem drainBatched_spec (size rounds : Nat) (g : SymbolGraph) :
    Drained g (drainBatched size rounds g)
        (g.deferredReferences.keys.flatMap (fun name => edgesOf pickDeferredTargetForEntry g name
          (serveBatches g.waits size rounds (g.deferredUnder name)).1)) ∧
      ∀ name', (drainBatched size rounds g).deferredUnder name' =
        (g.deferredReferences.keys.find? (fun name => toLowerCase name' = toLowerCase name)).elim
          (g.deferredUnder name') (fun name => if g.symbolsNamed name = [] then g.deferredUnder name
            else (serveBatches g.waits size rounds (g.deferredUnder name)).2) := by
  refine passes_spec id (runBatches size rounds) (g := g) ?_ _
    g.deferredReferences.keys_toLowerCase_nodup g (SameSymbols.refl g) (fun _ _ => rfl)
  intro h name same pending
  obtain ⟨asked,left⟩ := runBatches_spec size rounds h name
  change h.deferredUnder name = g.deferredUnder name at pending
  change SameSymbols g h at same
  rw [pending,same.edgesOf,same.waits] at asked
  refine ⟨asked,fun name' => ?_⟩
  change (runBatches size rounds h name).deferredUnder name' = _
  rw [left,pending,same.symbolsNamed,same.waits]
  by_cases hit : toLowerCase name' = toLowerCase name
  · by_cases nobody : g.symbolsNamed name = []
    · simp only [hit,nobody,ne_eq,not_true,and_false,if_false,if_true]
      rw [← pending]
      simp only [deferredUnder,CaseInsensitiveMap.get,hit]
    · simp [hit,nobody]
  · simp [hit]

/-- On both paths an entry is bound to the first declaration of its name in the file it was
issued for. -/
def BoundToItsFile (g : SymbolGraph) (name : String) (entry : DeferredReference) : Prop :=
  ∀ source target, (g.heap entry.sourceSymbol).fileUri ≠ "" → g.sourceOf entry = some source →
    exactTarget g.heap (g.symbolsNamed name) entry.targetFileUri = some target →
    ∀ pick ∈ [syncPick,pickDeferredTargetForEntry], edgeOf pick (g.symbolsNamed name) g entry =
      some (edgeBetween g.heap source target entry.referenceType entry.location entry.context)

/-- The batched drain, given enough rounds, and the synchronous one add the same edges, leave
the same entries and bind an entry to the file it was issued for. -/
structure DrainsAgree (g : SymbolGraph) (size : Nat) : Prop where
  edges : ∃ enough, ∀ rounds, enough ≤ rounds → ∀ e,
    (∃ k, (drainBatched size rounds g).refs.refStore.Holds k e) ↔
      ∃ k, g.drainAllDeferredReferencesSync.2.refs.refStore.Holds k e
  unresolved : ∃ enough, ∀ rounds, enough ≤ rounds → ∀ name,
    ((drainBatched size rounds g).deferredUnder name).Perm (g.drainAllDeferredReferencesSync.2.deferredUnder name)
  bound : ∀ name ∈ g.deferredReferences.keys, ∀ entry ∈ g.deferredUnder name, g.BoundToItsFile name entry

def SameDeclaration (heap : Heap) (a b : Ref) : Prop :=
  (heap a).fileUri = (heap b).fileUri ∧
    getSymbolId (heap a) (heap a).fileUri = getSymbolId (heap b) (heap b).fileUri

instance (heap : Heap) (a b : Ref) : Decidable (SameDeclaration heap a b) := by
  unfold SameDeclaration
  infer_instance

/-- What the synchronous drain chooses for the entry is in any case the declaration in the file
the entry was issued for. -/
def HintAgrees (g : SymbolGraph) (name : String) (entry : DeferredReference) : Prop :=
  ∀ source exact_ chosen, (g.heap entry.sourceSymbol).fileUri ≠ "" → g.sourceOf entry = some source →
    exactTarget g.heap (g.symbolsNamed name) entry.targetFileUri = some exact_ →
    pickDeferredTarget g.heap (g.symbolsNamed name) source (entry.context.bind ReferenceContext.namespace_) =
      some chosen →
    SameDeclaration g.heap chosen exact_

omit [Runtime] in
theorem exactTarget_mem {heap : Heap} {candidates : List Ref} (found : exactTarget heap candidates hint = some t) :
    t ∈ candidates := by
  unfold exactTarget at found
  split at found
  next => exact List.mem_of_find?_eq_some found
  next => simp at found

theorem edgeBetween_congr {heap : Heap} (same : SameDeclaration heap t t') (source : Ref) (referenceType : ReferenceType)
    (location : SymbolLocation) (context : Option ReferenceContext) :
    edgeBetween heap source t referenceType location context =
      edgeBetween heap source t' referenceType location context := by
  simp only [edgeBetween,RefStoreEntry.mk.injEq,true_and,and_true]
  exact same

theorem SameDeclaration.of_edge {heap : Heap} (same : edgeBetween heap source t referenceType location context =
    edgeBetween heap source t' referenceType location context) : SameDeclaration heap t t' :=
  ⟨congrArg RefStoreEntry.targetFileUri same,congrArg RefStoreEntry.targetSymbolId same⟩

theorem edgeOf_eq {g : SymbolGraph} (agrees : g.HintAgrees name entry) :
    edgeOf syncPick (g.symbolsNamed name) g entry = edgeOf pickDeferredTargetForEntry (g.symbolsNamed name) g entry := by
  unfold edgeOf
  split
  next => rfl
  next file =>
    cases found : g.sourceOf entry with
    | none => rfl
    | some source =>
      simp only [Option.bind_some,syncPick,pickDeferredTargetForEntry]
      cases exact_ : exactTarget g.heap (g.symbolsNamed name) entry.targetFileUri with
      | none => rfl
      | some target =>
        have present : g.symbolsNamed name ≠ [] := List.ne_nil_of_mem (exactTarget_mem exact_)
        obtain ⟨chosen,_,picked⟩ := pickDeferredTarget_decides g.heap source
          (entry.context.bind ReferenceContext.namespace_) present
        have same := agrees source target chosen file found exact_ picked
        simp only [picked,Option.map_some,Option.some_or,Option.some.injEq]
        exact edgeBetween_congr same _ _ _ _

theorem boundToItsFile_iff {g : SymbolGraph} : g.BoundToItsFile name entry ↔ g.HintAgrees name entry := by
  constructor
  · intro bound source target chosen file found exact_ picked
    have sync := bound source target file found exact_ syncPick List.mem_cons_self
    simp only [edgeOf,file,if_false,found,Option.bind_some,syncPick,picked,Option.map_some,Option.some.injEq] at sync
    exact SameDeclaration.of_edge sync
  · intro agrees source target file found exact_
    have batched : edgeOf pickDeferredTargetForEntry (g.symbolsNamed name) g entry =
        some (edgeBetween g.heap source target entry.referenceType entry.location entry.context) := by
      simp [edgeOf,file,found,pickDeferredTargetForEntry,exact_]
    intro pick member
    simp only [List.mem_cons,List.not_mem_nil,or_false] at member
    rcases member with rfl | rfl
    · exact (edgeOf_eq agrees).trans batched
    · exact batched

def enoughRounds (g : SymbolGraph) : Nat :=
  (g.deferredReferences.keys.map (fun name => (g.deferredUnder name).length)).sum

theorem length_le_enoughRounds {g : SymbolGraph} (member : name ∈ g.deferredReferences.keys) :
    (g.deferredUnder name).length ≤ g.enoughRounds :=
  List.le_sum_of_mem (List.mem_map.mpr ⟨name,member,rfl⟩)

theorem unresolved_perm (g : SymbolGraph) (positive : 0 < size) (enough : g.enoughRounds ≤ rounds) (name : String) :
    ((drainBatched size rounds g).deferredUnder name).Perm
      (g.drainAllDeferredReferencesSync.2.deferredUnder name) := by
  rw [(drainBatched_spec size rounds g).2,(drainAllDeferredReferencesSync_spec g).2]
  cases found : g.deferredReferences.keys.find? (fun other => toLowerCase name = toLowerCase other) with
  | none => exact List.Perm.refl _
  | some other =>
    have member := List.mem_of_find?_eq_some found
    simp only [Option.elim_some,leftUnder]
    split
    next => exact List.Perm.refl _
    next =>
      exact (serveBatches_spec positive _ (Nat.le_trans (length_le_enoughRounds member) enough)).2

theorem refs_eq {g : SymbolGraph} (positive : 0 < size) (enough : g.enoughRounds ≤ rounds)
    (agrees : ∀ name ∈ g.deferredReferences.keys, ∀ entry ∈ g.deferredUnder name, g.HintAgrees name entry) :
    (drainBatched size rounds g).refs = g.drainAllDeferredReferencesSync.2.refs := by
  rw [(drainBatched_spec size rounds g).1.refs,(drainAllDeferredReferencesSync_spec g).1.refs]
  congr 1
  apply List.flatMap_congr
  intro name member
  rw [(serveBatches_spec positive _ (Nat.le_trans (length_le_enoughRounds member) enough)).1,edgesOf_served]
  unfold edgesOf
  split
  next => rfl
  next => exact List.filterMap_congr (fun entry inside => (edgeOf_eq (agrees name member entry inside)).symm)

theorem DrainsAgree.hintAgrees {g : SymbolGraph} (agree : g.DrainsAgree size) :
    ∀ name ∈ g.deferredReferences.keys, ∀ entry ∈ g.deferredUnder name, g.HintAgrees name entry :=
  fun name member entry inside => boundToItsFile_iff.mp (agree.bound name member entry inside)

/-- The two drains agree exactly when every entry whose file declares its name would have been
bound there without the hint. -/
theorem drainsAgree_iff (g : SymbolGraph) (size : Nat) (positive : 0 < size) :
    g.DrainsAgree size ↔
      ∀ name ∈ g.deferredReferences.keys, ∀ entry ∈ g.deferredUnder name, g.HintAgrees name entry := by
  constructor
  · exact DrainsAgree.hintAgrees
  · intro agrees
    refine ⟨⟨g.enoughRounds,fun rounds enough e => ?_⟩,⟨g.enoughRounds,fun rounds enough name => ?_⟩,?_⟩
    · rw [refs_eq positive enough agrees]
    · exact unresolved_perm g positive enough name
    · exact fun name member entry inside => boundToItsFile_iff.mpr (agrees name member entry inside)

instance (g : SymbolGraph) (name : String) (entry : DeferredReference) : Decidable (g.HintAgrees name entry) :=
  decidable_of_iff (((g.heap entry.sourceSymbol).fileUri ≠ "") →
      (g.sourceOf entry).all fun source =>
        (exactTarget g.heap (g.symbolsNamed name) entry.targetFileUri).all fun exact_ =>
          (pickDeferredTarget g.heap (g.symbolsNamed name) source
            (entry.context.bind ReferenceContext.namespace_)).all fun chosen =>
              SameDeclaration g.heap chosen exact_)
    (by simp only [Option.all_eq_true,decide_eq_true_eq,HintAgrees]; tauto)

end

def fileClass [Runtime] (name fileUri : String) : ApexSymbol :=
  createFullSymbol name .class_ ⟨⟨1,0,9,1⟩,⟨1,13,1,17⟩⟩ fileUri { visibility := .public_ } .null

def twoUtils : Heap
  | .declared 0 => @fileClass asciiRuntime "Caller" "file:///Caller.cls"
  | .declared 1 => @fileClass asciiRuntime "Util" "file:///a/Util.cls"
  | _ => @fileClass asciiRuntime "Util" "file:///b/Util.cls"

/-- The caller's reference to the second class is issued before that class is read. -/
def hintedDeferral (first : List (Ref × String)) : @SymbolGraph asciiRuntime :=
  let _ := asciiRuntime
  let g : SymbolGraph := { heap := twoUtils }
  let g := g.addSymbol (.declared 0) "file:///Caller.cls"
  let g := g.addReference (.declared 0) (.declared 2) .typeReference ⟨⟨3,2,3,6⟩,⟨3,2,3,6⟩⟩
  let later : List (Ref × String) := first ++ [(.declared 2,"file:///b/Util.cls")]
  later.foldl (fun g p => g.addSymbol p.1 p.2) g

def hintedDeferralUnder [Runtime] (first : List (Ref × String)) : SymbolGraph :=
  let g : SymbolGraph := { heap := twoUtils }
  let g := g.addSymbol (.declared 0) "file:///Caller.cls"
  let g := g.addReference (.declared 0) (.declared 2) .typeReference ⟨⟨3,2,3,6⟩,⟨3,2,3,6⟩⟩
  let later : List (Ref × String) := first ++ [(.declared 2,"file:///b/Util.cls")]
  later.foldl (fun g p => g.addSymbol p.1 p.2) g

def HintsAgree [Runtime] (g : SymbolGraph) : Prop :=
  ∀ name ∈ g.deferredReferences.keys, ∀ entry ∈ g.deferredUnder name, g.HintAgrees name entry

instance [Runtime] (g : SymbolGraph) : Decidable g.HintsAgree :=
  inferInstanceAs (Decidable (∀ _ ∈ _, ∀ _ ∈ _, _))

theorem drainsAgree_one_util : @DrainsAgree asciiRuntime (hintedDeferral []) 50 :=
  (@drainsAgree_iff asciiRuntime (hintedDeferral []) 50 (by decide)).mpr
    (of_byteRuntime (fun _ => (hintedDeferralUnder []).HintsAgree) (by decide +kernel))

/-- With a class of the same name read first the synchronous drain binds the reference there. -/
theorem drains_disagree_two_utils :
    ¬ @DrainsAgree asciiRuntime (hintedDeferral [(.declared 1,"file:///a/Util.cls")]) 50 := by
  intro agree
  have disagrees : ¬ @HintsAgree asciiRuntime (hintedDeferral [(.declared 1,"file:///a/Util.cls")]) :=
    of_byteRuntime (fun _ => ¬ (hintedDeferralUnder [(.declared 1,"file:///a/Util.cls")]).HintsAgree)
      (by decide +kernel)
  exact disagrees (@DrainsAgree.hintAgrees asciiRuntime _ _ agree)

end SymbolGraph
end ApexLs.Symbols
