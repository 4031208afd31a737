import ApexLs.Resolution.CrossFileResolution

/-! What the guard set and the one reading of the table are worth, over runs. -/
namespace ApexLs.Resolution.CrossFile

open ApexLs.Collections ApexLs.Types

namespace ApexSymbolManager

variable {references : Nat → List ReferenceContext} {s : ApexSymbolManager}

/-- What holds along a run as long as no call is cut off: a full call has its references left from some place on; for a
file under way, the resolver was given references of the call's table alone, if the file has another; and from the first
reference on all those that the call has not left. -/
structure Orderly (references : Nat → List ReferenceContext) (s : ApexSymbolManager) : Prop where
  guard : s.GuardExact
  single : ∀ i j first second, s.Runs i first → s.Runs j second → first.file = second.file → i = j
  ordered : ∀ i fiber table, s.Runs i fiber → fiber.pass = .full → fiber.table = some table →
    ∃ k, fiber.remaining = (List.range (references table).length).drop k
  own : ∀ i fiber, s.Runs i fiber → s.tableOf fiber.file ≠ fiber.table →
    ∀ passed ∈ s.passed fiber.file, fiber.table = some passed.1
  first : ∀ i fiber table, s.Runs i fiber → fiber.pass = .full → fiber.table = some table → (table,0) ∈ s.passed fiber.file →
    ∀ k, k < (references table).length → k ∉ fiber.remaining → (table,k) ∈ s.passed fiber.file

theorem toPass_full (table : Nat) : toPass references .full table = List.range (references table).length := by
  simp [toPass]

theorem start_orderly : Orderly references {} where
  guard file := by simp [Runs,OrderedSet.not_mem_empty]
  single _ _ _ _ runs := nomatch runs.1
  ordered _ _ _ runs := nomatch runs.1
  own _ _ runs := nomatch runs.1
  first _ _ _ runs := nomatch runs.1

theorem addSymbolTable_cases (s : ApexSymbolManager) (file : String) (table : Nat) (documentVersion : Int) :
    (s.addSymbolTable file table documentVersion).resolvingCrossFileRefs = s.resolvingCrossFileRefs ∧
      (s.addSymbolTable file table documentVersion).fibers = s.fibers ∧
      (((s.addSymbolTable file table documentVersion).passed = s.passed ∧
          ∀ other, (s.addSymbolTable file table documentVersion).tableOf other = s.tableOf other) ∨
        (s.addSymbolTable file table documentVersion).passed = Function.update s.passed file [] ∧
          ∀ other, other ≠ file → (s.addSymbolTable file table documentVersion).tableOf other = s.tableOf other) := by
  rw [addSymbolTable]
  have elsewhere (other : String) (apart : other ≠ file) :
      (Function.update s.fileToSymbolTable file (some ⟨table,documentVersion⟩) other).map Registration.table =
        s.tableOf other := by
    rw [Function.update_of_ne apart,tableOf]
  split
  next => exact ⟨rfl,rfl,.inr ⟨rfl,elsewhere⟩⟩
  next existing registered =>
    split
    next same =>
      refine ⟨rfl,rfl,.inl ⟨rfl,fun other => ?_⟩⟩
      by_cases here : other = file
      · subst here
        rw [tableOf,tableOf,registered,← same]
        exact (congrArg (Option.map Registration.table) (Function.update_self other _ s.fileToSymbolTable)).trans rfl
      · exact elsewhere other here
    next =>
      split
      · exact ⟨rfl,rfl,.inl ⟨rfl,fun _ => rfl⟩⟩
      · exact ⟨rfl,rfl,.inr ⟨rfl,elsewhere⟩⟩

theorem runs_of_fibers {t : ApexSymbolManager} (same : t.fibers = s.fibers) {i : Nat} {fiber : Fiber} :
    t.Runs i fiber ↔ s.Runs i fiber := by
  rw [Runs,Runs,same]

theorem Orderly.addSymbolTable (orderly : Orderly references s) (file : String) (table : Nat) (documentVersion : Int) :
    Orderly references (s.addSymbolTable file table documentVersion) := by
  obtain ⟨guard,fibers,changes⟩ := s.addSymbolTable_cases file table documentVersion
  have runs {i : Nat} {fiber : Fiber} : (s.addSymbolTable file table documentVersion).Runs i fiber ↔ s.Runs i fiber :=
    runs_of_fibers fibers
  refine ⟨?_,?_,?_,?_,?_⟩
  · intro other
    rw [guard,orderly.guard other]
    exact exists_congr fun i => exists_congr fun fiber => and_congr_left fun _ => runs.symm
  · intro i j one two first second same
    exact orderly.single i j one two (runs.mp first) (runs.mp second) same
  · intro i fiber read_ under full reads
    exact orderly.ordered i fiber read_ (runs.mp under) full reads
  · intro i fiber under other
    obtain ⟨passed,tables⟩ | ⟨passed,tables⟩ := changes
    · rw [tables] at other
      rw [passed]
      exact orderly.own i fiber (runs.mp under) other
    · by_cases here : fiber.file = file
      · rw [passed,here,Function.update_self]
        exact nofun
      · rw [tables _ here] at other
        rw [passed,Function.update_of_ne here]
        exact orderly.own i fiber (runs.mp under) other
  · intro i fiber read_ under full reads
    obtain ⟨passed,-⟩ | ⟨passed,-⟩ := changes
    · rw [passed]
      exact orderly.first i fiber read_ (runs.mp under) full reads
    · by_cases here : fiber.file = file
      · rw [passed,here,Function.update_self]
        exact nofun
      · rw [passed,Function.update_of_ne here]
        exact orderly.first i fiber read_ (runs.mp under) full reads

theorem runs_concat {t : ApexSymbolManager} {fiber other : Fiber} (more : t.fibers = s.fibers ++ [other])
    (running : other.running = true) {i : Nat} :
    t.Runs i fiber ↔ s.Runs i fiber ∨ i = s.fibers.length ∧ fiber = other := by
  rw [Runs,Runs,more,concat_row]
  constructor
  · rintro ⟨before | ⟨last,rfl⟩,under⟩
    · exact .inl ⟨before,under⟩
    · exact .inr ⟨last,rfl⟩
  · rintro (⟨before,under⟩ | ⟨last,rfl⟩)
    · exact ⟨.inl before,under⟩
    · exact ⟨.inr ⟨last,rfl⟩,running⟩

theorem runs_modify {t : ApexSymbolManager} {i : Nat} {own : Fiber} (runs : s.Runs i own) {f : Fiber → Fiber}
    (changed : t.fibers = s.fibers.modify i f) {j : Nat} {fiber : Fiber} :
    t.Runs j fiber ↔ j ≠ i ∧ s.Runs j fiber ∨ j = i ∧ fiber = f own ∧ (f own).running = true := by
  rw [Runs,Runs,changed]
  constructor
  · rintro ⟨at_,under⟩
    obtain ⟨before,here,rfl⟩ := modify_row_inv at_
    by_cases same : i = j
    · subst same
      cases runs.1.symm.trans here
      rw [if_pos rfl] at under ⊢
      exact .inr ⟨rfl,rfl,under⟩
    · rw [if_neg same] at under ⊢
      exact .inl ⟨Ne.symm same,here,under⟩
  · rintro (⟨apart,at_,under⟩ | ⟨rfl,rfl,under⟩)
    · rw [List.getElem?_modify_ne _ _ (Ne.symm apart)]
      exact ⟨at_,under⟩
    · exact ⟨modify_row runs.1,under⟩

theorem Orderly.call (orderly : Orderly references s) (pass : Pass) (file : String) :
    Orderly references (s.call references pass file) := by
  rw [ApexSymbolManager.call]
  split
  next => exact orderly
  next free =>
    have absent (i : Nat) (fiber : Fiber) (runs : s.Runs i fiber) : fiber.file ≠ file := fun same =>
      free ((orderly.guard file).mpr ⟨i,fiber,runs,same⟩)
    have runs {i : Nat} {fiber : Fiber} :
        Runs { s with resolvingCrossFileRefs := s.resolvingCrossFileRefs.add file
                      fibers := s.fibers ++ [s.newFiber references pass file] } i fiber ↔
          s.Runs i fiber ∨ i = s.fibers.length ∧ fiber = s.newFiber references pass file := runs_concat rfl rfl
    refine ⟨fun other => ?_,?_,?_,?_,?_⟩
    · rw [OrderedSet.mem_add,orderly.guard other]
      constructor
      · rintro (⟨i,fiber,under,same⟩ | rfl)
        · exact ⟨i,fiber,runs.mpr (.inl under),same⟩
        · exact ⟨_,_,runs.mpr (.inr ⟨rfl,rfl⟩),rfl⟩
      · rintro ⟨i,fiber,under,same⟩
        obtain before | ⟨-,rfl⟩ := runs.mp under
        · exact .inl ⟨i,fiber,before,same⟩
        · exact .inr same.symm
    · intro i j one two first second same
      obtain first | ⟨rfl,rfl⟩ := runs.mp first
      · obtain second | ⟨rfl,rfl⟩ := runs.mp second
        · exact orderly.single i j one two first second same
        · exact absurd same (absent i one first)
      · obtain second | ⟨rfl,rfl⟩ := runs.mp second
        · exact absurd same.symm (absent j two second)
        · rfl
    · intro i fiber read_ under full reads
      obtain before | ⟨-,rfl⟩ := runs.mp under
      · exact orderly.ordered i fiber read_ before full reads
      · subst full
        refine ⟨0,?_⟩
        change ((s.tableOf file).map (toPass references .full)).getD [] = _
        rw [show s.tableOf file = some read_ from reads,Option.map_some,Option.getD_some,toPass_full,List.drop_zero]
    · intro i fiber under other
      obtain before | ⟨-,rfl⟩ := runs.mp under
      · exact orderly.own i fiber before other
      · exact absurd rfl other
    · intro i fiber read_ under full reads started k inside left
      obtain before | ⟨-,rfl⟩ := runs.mp under
      · exact orderly.first i fiber read_ before full reads started k inside left
      · subst full
        change k ∉ ((s.tableOf file).map (toPass references .full)).getD [] at left
        rw [show s.tableOf file = some read_ from reads,Option.map_some,Option.getD_some,toPass_full] at left
        exact absurd (List.mem_range.mpr inside) left

theorem advance_cases (s : ApexSymbolManager) (i : Nat) :
    s.advance i = s ∨ ∃ fiber table k rest, s.Runs i fiber ∧ fiber.table = some table ∧ fiber.remaining = k :: rest ∧
      s.advance i = { s with
        passed := Function.update s.passed fiber.file ((table,k) :: s.passed fiber.file)
        fibers := s.fibers.modify i fun fiber => { fiber with remaining := rest } } := by
  rw [advance]
  split
  next file pass table k rest at_ => exact .inr ⟨_,table,k,rest,⟨at_,rfl⟩,rfl,rfl,rfl⟩
  next => exact .inl rfl

theorem finish_cases (s : ApexSymbolManager) (i : Nat) :
    (s.finish i = s ∧ ∀ fiber, s.Runs i fiber → fiber.remaining ≠ []) ∨
      ∃ fiber, s.Runs i fiber ∧ fiber.remaining = [] ∧ s.finish i = { s with
        resolvingCrossFileRefs := s.resolvingCrossFileRefs.delete fiber.file
        fibers := s.fibers.modify i fun fiber => { fiber with running := false } } := by
  rw [finish]
  split
  next file pass table at_ => exact .inr ⟨_,⟨at_,rfl⟩,rfl,rfl⟩
  next other =>
    refine .inl ⟨rfl,?_⟩
    rintro ⟨file,pass,table,remaining,running⟩ ⟨at_,rfl⟩ rfl
    exact other file pass table at_

theorem whole_of_zero {n m : Nat} {rest : List Nat} (left : (List.range n).drop m = 0 :: rest) : m = 0 := by
  have head : (List.range n)[m]? = some 0 := by
    rw [← Nat.add_zero m,← List.getElem?_drop,left]
    rfl
  obtain ⟨inside,value⟩ := List.getElem?_eq_some_iff.mp head
  rw [List.getElem_range] at value
  exact value

theorem Orderly.advance (orderly : Orderly references s) (i : Nat) : Orderly references (s.advance i) := by
  obtain same | ⟨own,table,k,rest,under,reads,left,same⟩ := s.advance_cases i
  · rw [same]
    exact orderly
  rw [same]
  have runs {j : Nat} {fiber : Fiber} :
      Runs { s with passed := Function.update s.passed own.file ((table,k) :: s.passed own.file)
                    fibers := s.fibers.modify i fun fiber => { fiber with remaining := rest } } j fiber ↔
        j ≠ i ∧ s.Runs j fiber ∨ j = i ∧ fiber = { own with remaining := rest } ∧ own.running = true :=
    runs_modify under (f := fun fiber => { fiber with remaining := rest }) rfl
  have other {j : Nat} {fiber : Fiber} (apart : j ≠ i) (here : s.Runs j fiber) : fiber.file ≠ own.file := fun together =>
    apart (orderly.single j i fiber own here under together)
  refine ⟨fun file => ?_,?_,?_,?_,?_⟩
  · rw [orderly.guard file]
    constructor
    · rintro ⟨j,fiber,here,rfl⟩
      by_cases apart : j = i
      · subst apart
        cases under.1.symm.trans here.1
        exact ⟨j,_,runs.mpr (.inr ⟨rfl,rfl,under.2⟩),rfl⟩
      · exact ⟨j,fiber,runs.mpr (.inl ⟨apart,here⟩),rfl⟩
    · rintro ⟨j,fiber,here,rfl⟩
      obtain ⟨-,before⟩ | ⟨-,rfl,-⟩ := runs.mp here
      · exact ⟨j,fiber,before,rfl⟩
      · exact ⟨i,own,under,rfl⟩
  · intro j l one two first second together
    obtain ⟨apart,before⟩ | ⟨rfl,rfl,-⟩ := runs.mp first
    · obtain ⟨-,before'⟩ | ⟨rfl,rfl,-⟩ := runs.mp second
      · exact orderly.single j l one two before before' together
      · exact absurd together (other apart before)
    · obtain ⟨apart,before⟩ | ⟨rfl,-,-⟩ := runs.mp second
      · exact absurd together.symm (other apart before)
      · rfl
  · intro j fiber read_ here full reads'
    obtain ⟨-,before⟩ | ⟨rfl,rfl,-⟩ := runs.mp here
    · exact orderly.ordered j fiber read_ before full reads'
    · obtain ⟨m,from_⟩ := orderly.ordered j own read_ under full reads'
      refine ⟨m + 1,?_⟩
      rw [left] at from_
      rw [← List.tail_drop,← from_]
      rfl
  · intro j fiber here changed
    obtain ⟨apart,before⟩ | ⟨rfl,rfl,-⟩ := runs.mp here
    · dsimp only
      rw [Function.update_of_ne (other apart before)]
      exact orderly.own j fiber before changed
    · dsimp only
      rw [Function.update_self]
      intro passed member
      obtain rfl | earlier := List.mem_cons.mp member
      · exact reads
      · exact orderly.own j own under changed passed earlier
  · intro j fiber read_ here full reads'
    obtain ⟨apart,before⟩ | ⟨rfl,rfl,-⟩ := runs.mp here
    · dsimp only
      rw [Function.update_of_ne (other apart before)]
      exact orderly.first j fiber read_ before full reads'
    · obtain rfl : read_ = table := Option.some.inj (reads'.symm.trans reads)
      dsimp only
      rw [Function.update_self]
      intro started l inside gone
      by_cases last : l = k
      · exact last ▸ .head _
      have gone : l ∉ own.remaining := by
        rw [left]
        exact fun member => (List.mem_cons.mp member).elim last gone
      obtain now | earlier := List.mem_cons.mp started
      · obtain rfl : 0 = k := congrArg Prod.snd now
        obtain ⟨m,from_⟩ := orderly.ordered j own read_ under full reads'
        rw [whole_of_zero (from_.symm.trans left),List.drop_zero] at from_
        rw [from_] at gone
        exact absurd (List.mem_range.mpr inside) gone
      · exact .tail _ (orderly.first j own read_ under full reads' earlier l inside gone)

theorem Orderly.finish (orderly : Orderly references s) (i : Nat) : Orderly references (s.finish i) := by
  obtain ⟨same,-⟩ | ⟨own,under,-,same⟩ := s.finish_cases i
  · rw [same]
    exact orderly
  rw [same]
  have runs {j : Nat} {fiber : Fiber} :
      Runs { s with resolvingCrossFileRefs := s.resolvingCrossFileRefs.delete own.file
                    fibers := s.fibers.modify i fun fiber => { fiber with running := false } } j fiber ↔
        j ≠ i ∧ s.Runs j fiber := by
    rw [runs_modify under (f := fun fiber => { fiber with running := false }) rfl]
    simp
  refine ⟨fun file => ?_,?_,?_,?_,?_⟩
  · rw [OrderedSet.mem_delete,orderly.guard file]
    constructor
    · rintro ⟨⟨j,fiber,here,rfl⟩,apart⟩
      refine ⟨j,fiber,runs.mpr ⟨?_,here⟩,rfl⟩
      rintro rfl
      cases under.1.symm.trans here.1
      exact apart rfl
    · rintro ⟨j,fiber,here,rfl⟩
      obtain ⟨apart,before⟩ := runs.mp here
      exact ⟨⟨j,fiber,before,rfl⟩,fun together => apart (orderly.single j i fiber own before under together)⟩
  · intro j l one two first second
    exact orderly.single j l one two (runs.mp first).2 (runs.mp second).2
  · intro j fiber read_ here
    exact orderly.ordered j fiber read_ (runs.mp here).2
  · intro j fiber here
    exact orderly.own j fiber (runs.mp here).2
  · intro j fiber read_ here
    exact orderly.first j fiber read_ (runs.mp here).2

theorem Orderly.covered_iff (orderly : Orderly references s) {i : Nat} {fiber : Fiber} (runs : s.Runs i fiber)
    (full : fiber.pass = .full) (done : fiber.remaining = []) :
    s.Covered references fiber.file ↔ s.StillCurrent references fiber := by
  constructor
  · intro covered table registered some_
    have first := covered table registered 0 (List.length_pos_iff.mpr some_)
    refine ⟨?_,first⟩
    by_contra other
    refine other (orderly.own i fiber runs ?_ (table,0) first)
    rw [registered]
    exact Ne.symm other
  · intro current table registered k inside
    have some_ : references table ≠ [] := List.length_pos_iff.mp (Nat.zero_lt_of_lt inside)
    obtain ⟨reads,first⟩ := current table registered some_
    refine orderly.first i fiber table runs full reads first k inside ?_
    rw [done]
    exact List.not_mem_nil

theorem interrupt_idle {i : Nat} (idle : ∀ fiber, ¬s.Runs i fiber) : s.interrupt i = s := by
  have same : (s.fibers.modify i fun fiber => { fiber with running := false }) = s.fibers := by
    refine List.ext_getElem? fun j => ?_
    rw [List.getElem?_modify]
    split
    next here =>
      subst here
      cases at_ : s.fibers[i]? with
      | none => rfl
      | some fiber =>
        have still : fiber.running = false := Bool.eq_false_of_not_eq_true fun running => idle fiber ⟨at_,running⟩
        exact congrArg some (congrArg (Fiber.mk fiber.file fiber.pass fiber.table fiber.remaining) still.symm)
    next => simp
  rw [interrupt,same]

theorem Orderly.interrupt_guard (orderly : Orderly references s) {i : Nat} :
    (s.interrupt i).GuardExact ↔ ∀ fiber, ¬s.Runs i fiber := by
  constructor
  · intro exact_ own under
    have held : own.file ∈ s.resolvingCrossFileRefs := (orderly.guard own.file).mpr ⟨i,own,under,rfl⟩
    obtain ⟨j,fiber,here,together⟩ := (exact_ own.file).mp held
    obtain ⟨apart,before⟩ | ⟨-,-,running⟩ :=
      (runs_modify under (f := fun fiber => { fiber with running := false }) rfl).mp here
    · exact apart (orderly.single j i fiber own before under together)
    · cases running
  · intro idle
    rw [interrupt_idle idle]
    exact orderly.guard

theorem Orderly.step (orderly : Orderly references s) {event : Event} (uninterrupted : s.Uninterrupted references event) :
    Orderly references (s.step references event) := by
  cases event with
  | addSymbolTable fileUri table documentVersion => exact orderly.addSymbolTable _ table documentVersion
  | call pass fileUri => exact orderly.call pass _
  | advance i => exact orderly.advance i
  | finish i => exact orderly.finish i
  | interrupt i =>
    change Orderly references (s.interrupt i)
    rw [interrupt_idle uninterrupted]
    exact orderly

theorem call_held {file : String} (held : file ∈ s.resolvingCrossFileRefs) (pass : Pass) :
    s.call references pass file = s := if_pos held

theorem Orderly.honest_iff (orderly : Orderly references s) (event : Event) :
    s.NotClaimedEarly references event ↔ s.Uninterrupted references event := by
  cases event with
  | addSymbolTable fileUri table documentVersion =>
    exact iff_of_true ⟨(orderly.addSymbolTable _ table documentVersion).guard,nofun⟩ trivial
  | advance i => exact iff_of_true ⟨(orderly.advance i).guard,nofun⟩ trivial
  | interrupt i =>
    constructor
    · exact fun honest => orderly.interrupt_guard.mp honest.1
    · exact fun idle => ⟨orderly.interrupt_guard.mpr idle,nofun⟩
  | call pass fileUri =>
    have guard := (orderly.call pass (normalizedUri fileUri)).guard
    constructor
    · intro honest full held
      have covered := honest.2 _ ⟨full,rfl,held⟩
      rw [ApexSymbolManager.step,call_held held] at covered
      exact covered
    · intro covered
      refine ⟨guard,?_⟩
      rintro file ⟨full,rfl,held⟩
      rw [ApexSymbolManager.step,call_held held]
      exact covered full held
  | finish i =>
    have guard := (orderly.finish i).guard
    have kept (file : String) : (s.finish i).Covered references file ↔ s.Covered references file := by
      obtain ⟨same,-⟩ | ⟨own,-,-,same⟩ := s.finish_cases i
      · rw [same]
      · rw [same]
        exact Iff.rfl
    constructor
    · intro honest fiber runs done full
      exact (orderly.covered_iff runs full done).mp ((kept _).mp (honest.2 _ ⟨fiber,runs,done,full,rfl⟩))
    · intro current
      refine ⟨guard,?_⟩
      rintro file ⟨fiber,runs,done,full,rfl⟩
      exact (kept _).mpr ((orderly.covered_iff runs full done).mpr (current fiber runs done full))

/-- Along a run no file is claimed early and the guard is exact if and only if no call is cut off, full calls overlap
others only where all is passed, and each ends on the table it read. -/
theorem notClaimedEarly_iff (references : Nat → List ReferenceContext) (events : List Event) :
    EveryStep (step references) (NotClaimedEarly references) {} events ↔
      EveryStep (step references) (Uninterrupted references) {} events := by
  have free : EveryStep (step references) (fun _ _ => True) {} events :=
    (everyStep_of_inputs (P := fun _ => True) (fun _ _ => trivial) _)
  exact everyStep_iff_everyStep (A := Orderly references) (R := fun _ _ => True)
    (fun _ _ orderly _ uninterrupted => orderly.step uninterrupted)
    (fun _ event orderly _ => orderly.honest_iff event) start_orderly free

def oneReference (_ : Nat) : List ReferenceContext := [.typeDeclaration]

/-- A full call that overlaps one for supertypes returns, and the reference is not passed at all. -/
theorem overlapping_call_early : ¬EveryStep (step oneReference) (NotClaimedEarly oneReference) {}
    [.addSymbolTable "file:///A.cls" 0 1,.call .supertypes "file:///A.cls",.call .full "file:///A.cls"] := by
  rintro ⟨-,-,⟨-,covered⟩,-⟩
  simp only [step] at covered
  generalize uri : normalizedUri "file:///A.cls" = file at covered
  let before := ((({} : ApexSymbolManager).addSymbolTable file 0 1).call oneReference .supertypes file)
  change ∀ other, before.Ends (.call .full "file:///A.cls") other →
    Covered oneReference (before.call oneReference .full file) other at covered
  have held : file ∈ before.resolvingCrossFileRefs := OrderedSet.mem_add.mpr (.inr rfl)
  have early := covered file ⟨rfl,uri,held⟩
  rw [call_held held] at early
  have registered : before.fileToSymbolTable file = some ⟨0,1⟩ := Function.update_self file _ _
  have given := early 0 (congrArg (Option.map Registration.table) registered) 0 (by decide)
  have none_ : before.passed file = [] := Function.update_self file _ _
  rw [none_] at given
  cases given

end ApexSymbolManager

end ApexLs.Resolution.CrossFile
