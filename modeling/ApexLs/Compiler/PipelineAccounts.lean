import Mathlib.Data.List.Nodup
import ApexLs.Compiler.WorkspaceCompilationPipeline

/-! What a run of the workspace compile pipeline comes to. Each step lowers a rank, some step is
enabled until the end, and at the end every entry was either committed or reported. -/
namespace ApexLs.Compiler

open ApexLs.Collections

variable {Entry : Type u₁} {Compiled : Type u₂} {Result : Type u₃} {Cause : Type u₄} {CommitError : Type u₅}

namespace WorkspaceCompilationPipeline

section

variable {o : WorkspaceCompilationPipelineOptions Entry Compiled Result Cause CommitError}
  {s t : WorkspaceCompilationPipeline Entry Compiled Result Cause CommitError}

/-- What is left to do, at most: five steps for an entry, and two at the end. -/
def rank (o : WorkspaceCompilationPipelineOptions Entry Compiled Result Cause CommitError)
    (s : WorkspaceCompilationPipeline Entry Compiled Result Cause CommitError) : Nat :=
  5 * (o.entries.length - s.next) + 4 * s.compiling.length + 3 * s.offering.length + 2 * s.queue.length +
    match s.consumer with
    | .taking => 2
    | .committing _ _ _ => 3
    | .joining => 2
    | .failing _ => if s.interrupted then 1 else 2
    | .ended => 0

theorem rank_proceed {count : Nat} :
    rank o (proceed o s count) =
      5 * (o.entries.length - s.next) + 4 * s.compiling.length + 3 * s.offering.length + 2 * s.queue.length + 2 := by
  by_cases more : count < o.entries.length
  · rw [proceed,if_pos more,rank]
  · rw [proceed,if_neg more,rank]

theorem step_rank (event : Event) (went : s.step o event = some t) : rank o t < rank o s := by
  cases event with
  | produce =>
    rw [WorkspaceCompilationPipeline.step,WorkspaceCompilationPipeline.produce] at went
    split at went
    · obtain ⟨entry,source,rfl⟩ := Option.map_eq_some_iff.mp went
      have inside := (List.getElem?_eq_some_iff.mp source).1
      simp only [rank,List.length_append,List.length_singleton]
      omega
    · cases went
  | compiled k =>
    rw [WorkspaceCompilationPipeline.step,WorkspaceCompilationPipeline.compiled] at went
    split at went
    · obtain ⟨⟨entry,index⟩,own,rfl⟩ := Option.map_eq_some_iff.mp went
      have shorter := length_eraseIdx_of_row own
      simp only [rank,List.length_append,List.length_singleton]
      omega
    · cases went
  | offered k =>
    rw [WorkspaceCompilationPipeline.step,WorkspaceCompilationPipeline.offered] at went
    split at went
    · obtain ⟨item,own,rfl⟩ := Option.map_eq_some_iff.mp went
      have shorter := length_eraseIdx_of_row own
      simp only [rank,List.length_append,List.length_singleton]
      omega
    · cases went
  | take =>
    rw [WorkspaceCompilationPipeline.step,WorkspaceCompilationPipeline.take] at went
    split at went
    · next item rest now queue =>
      have before : rank o s = 5 * (o.entries.length - s.next) + 4 * s.compiling.length + 3 * s.offering.length +
          2 * (rest.length + 1) + 2 := by rw [rank,now,queue,List.length_cons]
      split at went
      · obtain rfl := Option.some.inj went
        rw [rank_proceed]
        simp only
        omega
      · obtain rfl := Option.some.inj went
        rw [before,rank]
        simp only
        omega
    · cases went
  | commit =>
    rw [WorkspaceCompilationPipeline.step,WorkspaceCompilationPipeline.commit] at went
    split at went
    · next value entry index now =>
      have before : rank o s = 5 * (o.entries.length - s.next) + 4 * s.compiling.length + 3 * s.offering.length +
          2 * s.queue.length + 3 := by rw [rank,now]
      split at went
      · obtain rfl := Option.some.inj went
        rw [rank_proceed]
        simp only
        omega
      · obtain rfl := Option.some.inj went
        rw [before,rank]
        simp only
        split <;> omega
    · cases went
  | join =>
    rw [WorkspaceCompilationPipeline.step,WorkspaceCompilationPipeline.join] at went
    split at went
    · next now =>
      split at went
      · obtain rfl := Option.some.inj went
        simp only [rank,now]
        omega
      · cases went
    · cases went
  | interrupt =>
    rw [WorkspaceCompilationPipeline.step,WorkspaceCompilationPipeline.interrupt] at went
    split at went
    · next error now =>
      split at went
      · next fresh =>
        obtain rfl := Option.some.inj went
        simp [rank,now,fresh]
      · cases went
    · cases went
  | stopCompiling k =>
    rw [WorkspaceCompilationPipeline.step,WorkspaceCompilationPipeline.stopCompiling] at went
    split at went
    · obtain ⟨⟨entry,index⟩,own,rfl⟩ := Option.map_eq_some_iff.mp went
      have shorter := length_eraseIdx_of_row own
      simp only [rank]
      omega
    · cases went
  | stopOffering k =>
    rw [WorkspaceCompilationPipeline.step,WorkspaceCompilationPipeline.stopOffering] at went
    split at went
    · obtain ⟨item,own,rfl⟩ := Option.map_eq_some_iff.mp went
      have shorter := length_eraseIdx_of_row own
      simp only [rank]
      omega
    · cases went
  | close =>
    rw [WorkspaceCompilationPipeline.step,WorkspaceCompilationPipeline.close] at went
    split at went
    · next error now =>
      split at went
      · obtain rfl := Option.some.inj went
        simp only [rank,now]
        split <;> omega
      · cases went
    · cases went

section

variable (kept : Kept o s)
include kept

theorem Kept.within : Within o s := by
  have single : (committing s.consumer).length ≤ 1 := by
    unfold committing
    split <;> simp
  constructor
  · have busy := kept.busy
    omega
  · exact ⟨committing s.consumer,kept.calls,single⟩
  · rw [List.nodup_iff_count_le_one]
    intro index
    have placed := kept.placed index
    rw [kept.calls,List.count_append]
    rw [places] at placed
    split at placed <;> omega
  · intro front index error back cut
    have standing := kept.standing
    have broken : ∃ error, Broken s error ∧ committing s.consumer = [] := by
      have unclean : ¬ Clean s := by
        intro clean
        obtain ⟨value,same⟩ := clean.succeeded (index,.error error) (by rw [cut]; simp)
        cases same
      rw [Standing] at standing
      cases now : s.consumer with
      | failing error =>
        rw [now] at standing
        exact ⟨error,standing,rfl⟩
      | ended =>
        rw [now] at standing
        obtain ⟨_,_,standing⟩ := standing
        cases outcome : s.outcome with
        | none => rw [outcome] at standing; exact standing.elim
        | some ended =>
          rw [outcome] at standing
          cases ended with
          | ok result => exact absurd standing.1 unclean
          | error error => exact ⟨error,standing.1,rfl⟩
      | _ =>
        rw [now] at standing
        exact absurd standing.1 unclean
    obtain ⟨last,⟨others,at_,whole,good⟩,idle⟩ := broken
    refine ⟨?_,by rw [kept.calls,idle,List.append_nil]⟩
    rcases List.eq_nil_or_concat back with rfl | ⟨back,end_,rfl⟩
    · rfl
    · have cut : others ++ [(at_,.error last)] = (front ++ (index,.error error) :: back) ++ [end_] := by
        rw [← whole,cut]
        simp
      obtain ⟨rfl,_⟩ := List.append_inj' cut rfl
      obtain ⟨value,same⟩ := good (index,.error error) (by simp)
      cases same

theorem Kept.ended_of_stuck (stuck : Stuck (WorkspaceCompilationPipeline.step o) s) : s.consumer = .ended := by
  have room : 0 < atLeastOne o.bufferCapacity := by rw [atLeastOne]; omega
  have free : 0 < atLeastOne o.parallelism := by rw [atLeastOne]; omega
  have standing := kept.standing
  have sized := kept.sized
  rw [Standing] at standing
  rw [size] at sized
  cases now : s.consumer with
  | taking =>
    rw [now] at standing
    obtain ⟨⟨_,counted,whole,unstopped⟩,inside⟩ := standing
    simp only [now,committing,unstopped,List.length_nil] at sized
    exfalso
    cases queue : s.queue with
    | cons item rest =>
      have taken := stuck .take
      cases result : item.result <;>
        simp [WorkspaceCompilationPipeline.step,WorkspaceCompilationPipeline.take,now,queue,result] at taken
    | nil =>
      cases offering : s.offering with
      | cons item rest =>
        have offered_ := stuck (.offered 0)
        simp [WorkspaceCompilationPipeline.step,WorkspaceCompilationPipeline.offered,whole,queue,offering,room] at offered_
      | nil =>
        cases compiling : s.compiling with
        | cons compilation rest =>
          have compiled_ := stuck (.compiled 0)
          simp [WorkspaceCompilationPipeline.step,WorkspaceCompilationPipeline.compiled,whole,compiling] at compiled_
        | nil =>
          simp only [queue,offering,compiling,List.length_nil] at sized
          have produced := stuck .produce
          have more : s.next < o.entries.length := by omega
          simp [WorkspaceCompilationPipeline.step,WorkspaceCompilationPipeline.produce,whole,offering,compiling,free,
            List.getElem?_eq_getElem more] at produced
  | committing value entry index =>
    have committed_ := stuck .commit
    cases ended : o.commit value entry index <;>
      simp [WorkspaceCompilationPipeline.step,WorkspaceCompilationPipeline.commit,now,ended] at committed_
  | joining =>
    rw [now] at standing
    obtain ⟨all,_,offering,compiling,_⟩ := kept.through standing.1 standing.2
    have joined := stuck .join
    simp [WorkspaceCompilationPipeline.step,WorkspaceCompilationPipeline.join,now,all,offering,compiling] at joined
  | failing error =>
    exfalso
    cases whole : s.interrupted with
    | false =>
      have interrupted := stuck .interrupt
      simp [WorkspaceCompilationPipeline.step,WorkspaceCompilationPipeline.interrupt,now,whole] at interrupted
    | true =>
      cases offering : s.offering with
      | cons item rest =>
        have stopped_ := stuck (.stopOffering 0)
        simp [WorkspaceCompilationPipeline.step,WorkspaceCompilationPipeline.stopOffering,whole,offering] at stopped_
      | nil =>
        cases compiling : s.compiling with
        | cons compilation rest =>
          have stopped_ := stuck (.stopCompiling 0)
          simp [WorkspaceCompilationPipeline.step,WorkspaceCompilationPipeline.stopCompiling,whole,compiling] at stopped_
        | nil =>
          have closed := stuck .close
          simp [WorkspaceCompilationPipeline.step,WorkspaceCompilationPipeline.close,now,whole,offering,compiling] at closed
  | ended => rfl

theorem Kept.commits_or_failures (clean : Clean s) (all : s.processed = o.entries.length)
    (inside : index < o.entries.length) : index ∈ s.commits.map Prod.fst ∨ index ∈ s.failures.map (·.index) := by
  obtain ⟨started,queue,offering,compiling,idle⟩ := kept.through clean all
  have placed := kept.placed index
  rw [places,queue,offering,compiling,idle,clean.whole.2,started,if_pos inside] at placed
  by_contra neither
  rw [not_or] at neither
  have first := List.count_eq_zero_of_not_mem neither.1
  have second := List.count_eq_zero_of_not_mem neither.2
  simp [first,second] at placed

theorem Kept.mem_commits (clean : Clean s) (all : s.processed = o.entries.length)
    (call : Nat × Except CommitError Result) :
    call ∈ s.commits ↔ call ∈ o.entries.zipIdx.filterMap (commitOf o) := by
  rw [List.mem_filterMap]
  constructor
  · intro made
    obtain ⟨entry,value,source,compiled_,ended⟩ := kept.made call made
    refine ⟨(entry,call.1),List.mem_zipIdx_iff_getElem?.mpr source,?_⟩
    rw [commitOf,compiled_]
    exact congrArg some (Prod.ext rfl ended)
  · rintro ⟨⟨entry,index⟩,member,own⟩
    have source := List.mem_zipIdx_iff_getElem?.mp member
    rw [commitOf] at own
    split at own
    · next value compiled_ =>
      obtain rfl := Option.some.inj own
      rcases kept.commits_or_failures clean all (List.getElem?_eq_some_iff.mp source).1 with made | reported
      · obtain ⟨call,made,same⟩ := List.mem_map.mp made
        obtain ⟨entry',value',source',compiled',ended⟩ := kept.made call made
        rw [same] at source' compiled' ended
        obtain rfl := Option.some.inj (source'.symm.trans source)
        obtain rfl := Except.ok.inj (compiled'.symm.trans compiled_)
        rwa [← (Prod.ext same ended.symm : call = (index,o.commit value' entry' index))]
      · obtain ⟨failure,reported,same⟩ := List.mem_map.mp reported
        obtain ⟨source',failed⟩ := kept.reported failure reported
        simp only at same
        rw [same] at source' failed
        rw [← Option.some.inj (source.symm.trans source')] at failed
        cases compiled_.symm.trans failed
    · cases own

theorem Kept.mem_failures (clean : Clean s) (all : s.processed = o.entries.length)
    (failure : WorkspaceCompilationFailure Entry Cause) :
    failure ∈ s.failures ↔ failure ∈ o.entries.zipIdx.filterMap (failureOf o) := by
  rw [List.mem_filterMap]
  constructor
  · intro member
    obtain ⟨source,failed⟩ := kept.reported failure member
    refine ⟨(failure.entry,failure.index),List.mem_zipIdx_iff_getElem?.mpr source,?_⟩
    rw [failureOf,failed]
  · rintro ⟨⟨entry,index⟩,member,own⟩
    have source := List.mem_zipIdx_iff_getElem?.mp member
    rw [failureOf] at own
    split at own
    · cases own
    · next cause failed =>
      obtain rfl := Option.some.inj own
      rcases kept.commits_or_failures clean all (List.getElem?_eq_some_iff.mp source).1 with made | reported
      · obtain ⟨call,made,same⟩ := List.mem_map.mp made
        obtain ⟨entry',value',source',compiled',_⟩ := kept.made call made
        rw [same] at source' compiled'
        obtain rfl := Option.some.inj (source'.symm.trans source)
        cases compiled'.symm.trans failed
      · obtain ⟨other,reported,same⟩ := List.mem_map.mp reported
        obtain ⟨source',failed'⟩ := kept.reported other reported
        obtain ⟨entry',index',cause'⟩ := other
        obtain rfl : index' = index := same
        obtain rfl := Option.some.inj (source.symm.trans source')
        obtain rfl := Except.error.inj (failed.symm.trans failed')
        exact reported

theorem Kept.commits_nodup : (s.commits.map Prod.fst).Nodup := by
  rw [List.nodup_iff_count_le_one]
  intro index
  have placed := kept.placed index
  rw [places] at placed
  split at placed <;> omega

theorem Kept.failures_nodup : (s.failures.map (·.index)).Nodup := by
  rw [List.nodup_iff_count_le_one]
  intro index
  have placed := kept.placed index
  rw [places] at placed
  split at placed <;> omega

end

theorem zipIdx_nodup (entries : List Entry) : (entries.zipIdx.map Prod.snd).Nodup := by
  rw [List.zipIdx_map_snd]
  exact List.nodup_range'

theorem commitOf_key (compilation : Entry × Nat) (call : Nat × Except CommitError Result)
    (made : commitOf o compilation = some call) : call.1 = compilation.2 := by
  rw [commitOf] at made
  split at made
  · rw [← Option.some.inj made]
  · cases made

theorem failureOf_key (compilation : Entry × Nat) (failure : WorkspaceCompilationFailure Entry Cause)
    (made : failureOf o compilation = some failure) : failure.index = compilation.2 := by
  rw [failureOf] at made
  split at made
  · cases made
  · rw [← Option.some.inj made]

section

variable (kept : Kept o s) (clean : Clean s) (all : s.processed = o.entries.length)
include kept clean all

theorem Kept.commits_perm :
    s.commits.Perm (o.entries.zipIdx.filterMap (commitOf o)) := by
  apply (List.perm_ext_iff_of_nodup _ _).mpr (kept.mem_commits clean all)
  · exact .of_map _ kept.commits_nodup
  · exact .of_map Prod.fst ((zipIdx_nodup o.entries).sublist (filterMap_keys commitOf_key))

theorem Kept.failures_perm :
    s.failures.Perm (o.entries.zipIdx.filterMap (failureOf o)) := by
  apply (List.perm_ext_iff_of_nodup _ _).mpr (kept.mem_failures clean all)
  · exact .of_map _ kept.failures_nodup
  · exact .of_map (·.index) ((zipIdx_nodup o.entries).sublist (filterMap_keys failureOf_key))

theorem Kept.committed_eq :
    s.committed = o.entries.zipIdx.map fun compilation => (commitOf o compilation).bind fun call => call.2.toOption := by
  apply List.ext_getElem?
  intro index
  rw [List.getElem?_map,List.getElem?_zipIdx]
  by_cases inside : index < o.entries.length
  · have bound : index < s.committed.length := kept.stored.1.symm ▸ inside
    have held := List.getElem?_eq_getElem bound
    have source := List.getElem?_eq_getElem inside
    rw [held,source]
    have own : ∀ call, call ∈ s.commits → call.1 = index → commitOf o (o.entries[index],index) = some call := by
      rintro call made rfl
      obtain ⟨entry,value,source',compiled_,ended⟩ := kept.made call made
      rw [Option.some.inj (source.symm.trans source'),commitOf,compiled_]
      exact congrArg some (Prod.ext rfl ended)
    simp only [Option.map_some,Nat.zero_add,Option.some.injEq]
    cases stored : s.committed[index] with
    | some result =>
      have made := (kept.stored.2 index result).mp (by rw [held,stored])
      rw [own _ made rfl]
      rfl
    | none =>
      cases due : commitOf o (o.entries[index],index) with
      | none => rfl
      | some call =>
        have key := commitOf_key (o := o) _ _ due
        have made : call ∈ s.commits := by
          rw [kept.mem_commits clean all,List.mem_filterMap]
          exact ⟨_,List.mem_zipIdx_iff_getElem?.mpr source,due⟩
        obtain ⟨result,good⟩ := clean.succeeded call made
        have stored' := (kept.stored.2 index result).mpr (by rwa [← (Prod.ext key good : call = (index,.ok result))])
        rw [held,stored] at stored'
        cases Option.some.inj stored'
  · rw [List.getElem?_eq_none (by rw [kept.stored.1]; omega),List.getElem?_eq_none (by omega)]
    rfl

end

theorem Kept.accounts (kept : Kept o s) (ended : s.consumer = .ended) : Accounts o s := by
  have standing := kept.standing
  rw [Standing,ended] at standing
  obtain ⟨compiling,offering,standing⟩ := standing
  rw [Accounts]
  cases outcome : s.outcome with
  | none => rw [outcome] at standing; exact standing
  | some ending =>
    rw [outcome] at standing
    cases ending with
    | ok result =>
      obtain ⟨clean,all,rfl⟩ := standing
      refine ⟨clean.succeeded,kept.commits_perm clean all,kept.failures_perm clean all,?_⟩
      rw [List.filterMap_eq_flatMap_toList,kept.committed_eq clean all,List.flatMap_map]
    | error error =>
      obtain ⟨⟨front,index,last,_⟩,_⟩ := standing
      exact ⟨⟨index,by rw [last,List.getLast?_concat]⟩,compiling,offering⟩

theorem Kept.succeeds (kept : Kept o s) (accounts : Accounts o s)
    (succeed : ∀ value entry index, ∃ result, o.commit value entry index = .ok result) :
    ∃ result, s.outcome = some (.ok result) := by
  rw [Accounts] at accounts
  cases outcome : s.outcome with
  | none => rw [outcome] at accounts; exact accounts.elim
  | some ending =>
    cases ending with
    | ok result => exact ⟨result,rfl⟩
    | error error =>
      rw [outcome] at accounts
      obtain ⟨⟨index,last⟩,_⟩ := accounts
      obtain ⟨entry,value,_,_,ended⟩ := kept.made _ (List.mem_of_getLast? last)
      obtain ⟨result,good⟩ := succeed value entry index
      cases good.symm.trans ended

/-- Every run of the pipeline is bounded and stays within its limits, and where it can go no further
it accounts for every entry; where no commit fails it succeeds. -/
theorem pipeline_accounts (o : WorkspaceCompilationPipelineOptions Entry Compiled Result Cause CommitError)
    (ran : Runs (step o) (runWorkspaceCompilationPipeline o) inputs t) :
    inputs.length ≤ 5 * o.entries.length + 2 ∧ Within o t ∧
      (Stuck (step o) t → Accounts o t ∧
        ((∀ value entry index, ∃ result, o.commit value entry index = .ok result) →
          ∃ result, t.outcome = some (.ok result))) := by
  have kept : Kept o t := ran.invariant (fun s event t kept went => kept.step event went) (start_kept o)
  refine ⟨?_,kept.within,fun stuck => ?_⟩
  · have bound := ran.bounded (I := fun _ => True) (fun _ _ _ _ _ => trivial)
      (fun s event t _ went => step_rank event went) trivial
    have start : rank o (runWorkspaceCompilationPipeline o) = 5 * o.entries.length + 2 := by
      rw [runWorkspaceCompilationPipeline,rank_proceed]
      rfl
    omega
  · have accounts := kept.accounts (kept.ended_of_stuck stuck)
    exact ⟨accounts,kept.succeeds accounts⟩

end

/-- Three entries, of which the second does not compile; the third is compiled first. -/
def threeFiles : WorkspaceCompilationPipelineOptions String Nat Nat String Unit where
  entries := ["A","B","C"]
  parallelism := 2
  bufferCapacity := -1
  compile _ index := if index = 1 then .error "syntax" else .ok index
  commit value _ _ := .ok (value + 10)

def threeFilesRun : List Event :=
  [.produce,.produce,.compiled 1,.offered 0,.take,.produce,.compiled 1,.offered 0,.take,.commit,.compiled 0,.offered 0,
    .take,.commit,.join]

theorem threeFiles_accounts : ∃ t, Runs (step threeFiles) (runWorkspaceCompilationPipeline threeFiles) threeFilesRun t ∧
    t.outcome = some (.ok ⟨[10,12],[⟨"B",1,"syntax"⟩]⟩) ∧
    threeFilesRun.length ≤ 5 * threeFiles.entries.length + 2 := by
  have ran : ∃ t, Runs (step threeFiles) (runWorkspaceCompilationPipeline threeFiles) threeFilesRun t ∧
      t.outcome = some (.ok ⟨[10,12],[⟨"B",1,"syntax"⟩]⟩) := ⟨_,rfl,rfl⟩
  obtain ⟨t,ran,outcome⟩ := ran
  exact ⟨t,ran,outcome,(pipeline_accounts threeFiles ran).1⟩

end WorkspaceCompilationPipeline

end ApexLs.Compiler
