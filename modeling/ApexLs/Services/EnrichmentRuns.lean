import Mathlib.Data.List.Basic
import ApexLs.Services.LayerEnrichment

/-! What runs of enrichments and edits keep: the levels on record were collected, and a call in
progress has reached its target in the files it is through with. -/
namespace ApexLs.Services.LayerEnrichment

open ApexLs.Collections ApexLs.Types

section

variable {τ : Type} {c : DocumentStateCache Unit Unit τ} {newData : PartialState Unit Unit τ} {level : DetailLevel}

theorem getDetailLevel_eq_some {uri : String} {version : Int} :
    c.getDetailLevel uri version = some level ↔
      ∃ e, c.cache.get? uri = some e ∧ e.documentVersion = version ∧ e.detailLevel = some level := by
  simp only [DocumentStateCache.getDetailLevel,DocumentStateCache.get,Option.bind_eq_some_iff,
    Option.filter_eq_some_iff,decide_eq_true_eq,and_assoc]

theorem merge_self (named : newData.detailLevel = some (some level)) (uri : String) (now : Nat) :
    ∃ e, (c.merge uri newData now).cache.get? uri = some e ∧ e.documentVersion = newData.documentVersion ∧
      e.detailLevel = some level := by
  unfold DocumentStateCache.merge
  split
  next existing _ =>
    refine ⟨_,OrderedMap.get?_set_self ..,rfl,?_⟩
    simp [DocumentStateCache.mergeInto,spread,named]
  next =>
    refine ⟨DocumentStateCache.newEntry newData now,by simp only [DocumentStateCache.set,OrderedMap.get?_set_self],rfl,?_⟩
    simp [DocumentStateCache.newEntry,spread,named]

theorem merge_other {uri other : String} {now : Nat} {e : DocumentState Unit Unit τ} (apart : other ≠ uri)
    (found : (c.merge uri newData now).cache.get? other = some e) : c.cache.get? other = some e := by
  unfold DocumentStateCache.merge at found
  split at found
  next => simpa [OrderedMap.get?_set,apart] using found
  next =>
    rcases CacheHistory.get?_set found with ⟨same,-⟩ | before
    · exact absurd same apart
    · exact before

theorem merge_keeps {uri other : String} {version : Int} {now : Nat} {e : DocumentState Unit Unit τ} (apart : other ≠ uri)
    (kept : ¬ World.Drops c uri newData.documentVersion other version) (there : c.cache.get? other = some e) :
    (c.merge uri newData now).cache.get? other = some e := by
  unfold DocumentStateCache.merge
  split
  next => simpa [OrderedMap.get?_set,apart] using there
  next absent =>
    simp only [DocumentStateCache.set,OrderedMap.get?_set,apart,if_false]
    split
    next full =>
      unfold DocumentStateCache.evictOldest
      split
      next => exact there
      next key oldest =>
        split
        next => exact there
        next =>
          have other_ : other ≠ key := by
            rintro rfl
            exact kept (.inr ⟨absent,full.1,oldest⟩)
          simpa [other_] using there
    next => exact there

theorem getDetailLevel_merge_iff (named : newData.detailLevel = some (some level)) {uri other : String} {version : Int}
    {now : Nat} {found : DetailLevel}
    (recorded : (c.merge uri newData now).getDetailLevel other version = some found) :
    (other = uri ∧ version = newData.documentVersion ∧ found = level) ∨
      (other ≠ uri ∧ c.getDetailLevel other version = some found) := by
  obtain ⟨e,there,version_,level_⟩ := getDetailLevel_eq_some.mp recorded
  by_cases same : other = uri
  · subst same
    obtain ⟨e',there',version',level'⟩ := merge_self named other now
    obtain rfl := Option.some.inj (there.symm.trans there')
    exact .inl ⟨rfl,version_.symm.trans version',Option.some.inj (level_.symm.trans level')⟩
  · exact .inr ⟨same,getDetailLevel_eq_some.mpr ⟨e,merge_other same there,version_,level_⟩⟩

theorem hasDetailLevel_iff {uri : String} {version : Int} :
    c.hasDetailLevel uri version level = true ↔
      ∃ reached, c.getDetailLevel uri version = some reached ∧ level.order ≤ reached.order := by
  simp only [DocumentStateCache.hasDetailLevel,Option.any_eq_true,decide_eq_true_eq]

theorem hasDetailLevel_merge (named : newData.detailLevel = some (some level)) {uri other : String} {version : Int}
    {now : Nat} {target : DetailLevel} (kept : ¬ World.Drops c uri newData.documentVersion other version)
    (rises : ∀ recorded, c.getDetailLevel uri newData.documentVersion = some recorded → recorded.order ≤ level.order)
    (there : c.hasDetailLevel other version target = true) :
    (c.merge uri newData now).hasDetailLevel other version target = true := by
  obtain ⟨reached,recorded,enough⟩ := hasDetailLevel_iff.mp there
  by_cases same : other = uri
  · subst same
    have version_ : version = newData.documentVersion := by
      by_contra apart
      exact kept (.inl ⟨rfl,apart⟩)
    subst version_
    obtain ⟨e,found,version_,level_⟩ := merge_self (c := c) named other now
    refine hasDetailLevel_iff.mpr ⟨level,getDetailLevel_eq_some.mpr ⟨e,found,version_,level_⟩,?_⟩
    exact Nat.le_trans enough (rises reached recorded)
  · obtain ⟨e,found,version_,level_⟩ := getDetailLevel_eq_some.mp recorded
    refine hasDetailLevel_iff.mpr ⟨reached,getDetailLevel_eq_some.mpr ⟨e,?_,version_,level_⟩,enough⟩
    exact merge_keeps same kept found

theorem getDetailLevel_markEnrichmentFailed (uri other : String) (version : Int) :
    (c.markEnrichmentFailed uri).getDetailLevel other version = c.getDetailLevel other version := by
  unfold DocumentStateCache.markEnrichmentFailed
  split
  next existing there =>
    simp only [DocumentStateCache.getDetailLevel,DocumentStateCache.get,OrderedMap.get?_set]
    split
    next same =>
      subst same
      rw [there]
      simp only [Option.filter_some]
      split
      · rfl
      · rfl
    next => rfl
  next => rfl

end

/-- Where the target lies above the level, the layers that are walked are those up to the target;
only from `private` to `full` there is none. -/
theorem ensureDependencies_getLayersToApply {current target layer : DetailLevel}
    (some_ : getLayersToApply current target ≠ []) (below : layer ≠ .full) (upTo : layer.order ≤ target.order) :
    layer ∈ ensureDependencies (getLayersToApply current target) := by
  revert some_ below upTo
  cases current <;> cases target <;> cases layer <;> decide

theorem getLayersToApply_ne_nil {c : Option DetailLevel} {target : DetailLevel}
    (missing : c.all (fun recorded => recorded.order < target.order) = true) (unknown : c = none → target ≠ .publicApi)
    (rest : c = some .private_ → target ≠ .full) : getLayersToApply (c.getD .publicApi) target ≠ [] := by
  revert missing unknown rest
  cases c with
  | none => cases target <;> decide
  | some recorded => cases recorded <;> cases target <;> decide

namespace World

variable {τ : Type} {text : String → Int → τ}

def files : Stage → List FileToEnrich
  | .checking _ _ _ filesToEnrich => filesToEnrich
  | .fetching file _ _ rest => file :: rest
  | .reading file _ _ _ rest => file :: rest
  | .adding _ _ _ rest => rest
  | .yielding _ rest => rest
  | .ended => []
  | .failed => []

def Through (text : String → Int → τ) (w : World τ) (call : Call) : Prop :=
  ∀ uri version, (uri,version) ∈ call.finished →
    w.Collected text uri version call.targetLevel ∧ w.cache.hasDetailLevel uri version call.targetLevel = true

structure Good (text : String → Int → τ) (w : World τ) (call : Call) : Prop where
  through : w.Through text call
  files : ∀ file ∈ files call.stage, getLayersToApply file.currentLevel call.targetLevel ≠ []
  reading : ∀ file document layersToApply i rest, call.stage = .reading file document layersToApply i rest →
    layersToApply = getLayersToApply file.currentLevel call.targetLevel
  adding : ∀ file compiled i rest, call.stage = .adding file compiled i rest →
    compiled = true ∧ w.Collected text file.uri file.version call.targetLevel

/-- One world after another: what was collected stays so, the levels on record were collected and do
not fall, and the files that calls in progress are through with are not dropped. -/
structure Advances (text : String → Int → τ) (w after : World τ) : Prop where
  collected : ∀ layer ∈ w.collected, layer ∈ after.collected
  kept : ∀ call ∈ w.calls, InProgress call → w.Through text call → after.Through text call
  honest : ∀ uri version level, after.cache.getDetailLevel uri version = some level →
    after.Collected text uri version level
  rises : ∀ uri version old new, w.cache.getDetailLevel uri version = some old →
    after.cache.getDetailLevel uri version = some new → old.order ≤ new.order

def Honest (text : String → Int → τ) (w : World τ) : Prop :=
  ∀ uri version level, w.cache.getDetailLevel uri version = some level → w.Collected text uri version level

theorem Collected.mono {w after : World τ} {uri : String} {version : Int} {level : DetailLevel}
    (more : ∀ layer ∈ w.collected, layer ∈ after.collected) (done : w.Collected text uri version level) :
    after.Collected text uri version level :=
  fun layer below upTo => more _ (done layer below upTo)

theorem Collected.lower {w : World τ} {uri : String} {version : Int} {low high : DetailLevel}
    (le : low.order ≤ high.order) (done : w.Collected text uri version high) : w.Collected text uri version low :=
  fun layer below upTo => done layer below (Nat.le_trans upTo le)

theorem Advances.of_levels {w after : World τ} (honest : w.Honest text)
    (more : ∀ layer ∈ w.collected, layer ∈ after.collected)
    (levels : ∀ uri version, after.cache.getDetailLevel uri version = w.cache.getDetailLevel uri version) :
    Advances text w after where
  collected := more
  kept call _ _ through uri version member := by
    obtain ⟨done,reached⟩ := through uri version member
    refine ⟨done.mono more,?_⟩
    rw [DocumentStateCache.hasDetailLevel,levels]
    exact reached
  honest uri version level recorded := by
    rw [levels] at recorded
    exact (honest uri version level recorded).mono more
  rises uri version old new before recorded := by
    rw [levels,before] at recorded
    obtain rfl := Option.some.inj recorded
    exact Nat.le_refl _

theorem Advances.of_merge {w after : World τ} {newData : PartialState Unit Unit τ} {level : DetailLevel} {uri : String}
    {now : Nat} (honest : w.Honest text) (named : newData.detailLevel = some (some level))
    (writable : w.Writable uri newData.documentVersion level)
    (more : ∀ layer ∈ w.collected, layer ∈ after.collected)
    (done : after.Collected text uri newData.documentVersion level)
    (cache : after.cache = w.cache.merge uri newData now) : Advances text w after where
  collected := more
  kept call member inProgress through other version finished := by
    obtain ⟨done,reached⟩ := through other version finished
    refine ⟨done.mono more,?_⟩
    rw [cache]
    exact hasDetailLevel_merge named (writable.stays call member inProgress other version finished) writable.rises reached
  honest other version found recorded := by
    rw [cache] at recorded
    rcases getDetailLevel_merge_iff named recorded with ⟨rfl,rfl,rfl⟩ | ⟨-,before⟩
    · exact done
    · exact (honest other version found before).mono more
  rises other version old new before recorded := by
    rw [cache] at recorded
    rcases getDetailLevel_merge_iff named recorded with ⟨rfl,rfl,rfl⟩ | ⟨-,same⟩
    · exact writable.rises old before
    · obtain rfl := Option.some.inj (before.symm.trans same)
      exact Nat.le_refl _

theorem fetch_good {w after : World τ} {call : Call} {files : List FileToEnrich} (through : after.Through text call)
    (needed : ∀ file ∈ files, getLayersToApply file.currentLevel call.targetLevel ≠ []) (i : Nat) :
    after.Good text (w.fetch call i files) := by
  cases files with
  | nil => exact ⟨through,by simp [fetch,World.files],by simp [fetch],by simp [fetch]⟩
  | cons file rest => exact ⟨through,needed,by simp [fetch],by simp [fetch]⟩

theorem check_good {w after : World τ} {call : Call} {files : List FileToEnrich} (through : after.Through text call)
    (needed : ∀ file ∈ files, getLayersToApply file.currentLevel call.targetLevel ≠ []) (fileUris : List String) :
    after.Good text (w.check call files fileUris) := by
  cases fileUris with
  | nil =>
    simp only [check]
    split
    next => exact ⟨through,by simp [World.files],by simp,by simp⟩
    next => exact fetch_good through needed 0
  | cons uri rest => exact ⟨through,needed,by simp [check],by simp [check]⟩

theorem turn_good {w after : World τ} {call : Call} {rest : List FileToEnrich} (through : after.Through text call)
    (needed : ∀ file ∈ rest, getLayersToApply file.currentLevel call.targetLevel ≠ []) (i : Nat) :
    after.Good text (w.turn call i rest) := by
  unfold turn
  split
  next => exact ⟨through,needed,by simp,by simp⟩
  next => exact fetch_good through needed (i + 1)

theorem Through.cons {w : World τ} {call : Call} {uri : String} {version : Int} (through : w.Through text call)
    (done : w.Collected text uri version call.targetLevel)
    (reached : w.cache.hasDetailLevel uri version call.targetLevel = true) :
    w.Through text { call with finished := (uri,version) :: call.finished } := by
  intro other otherVersion member
  rcases List.mem_cons.mp member with same | before
  · obtain ⟨rfl,rfl⟩ := Prod.mk.inj same
    exact ⟨done,reached⟩
  · exact through other otherVersion before

theorem Advances.refl {w : World τ} (honest : w.Honest text) : Advances text w w :=
  .of_levels honest (fun _ member => member) fun _ _ => rfl

theorem not_reached {c : DocumentStateCache Unit Unit τ} {uri : String} {version : Int} {target : DetailLevel}
    (missing : ¬ c.hasDetailLevel uri version target = true) :
    (c.getDetailLevel uri version).all (fun recorded => recorded.order < target.order) = true := by
  rw [DocumentStateCache.hasDetailLevel] at missing
  cases recorded : c.getDetailLevel uri version with
  | none => rfl
  | some level => simpa [recorded] using missing

theorem failed_good {w : World τ} {call : Call} (through : w.Through text call) :
    w.Good text { call with stage := .failed } :=
  ⟨through,by simp [World.files],by simp,by simp⟩

theorem mark_advances {w : World τ} (honest : w.Honest text) (uri : String) :
    Advances text w { w with cache := w.cache.markEnrichmentFailed uri } :=
  .of_levels honest (fun _ member => member) fun other version => getDetailLevel_markEnrichmentFailed uri other version

theorem walk_advances {w : World τ} (honest : w.Honest text) (uri : String) (tree : τ) (layers : List DetailLevel) :
    Advances text w (w.walk uri tree layers) :=
  .of_levels honest (fun _ member => List.mem_append_right _ member) fun _ _ => rfl

/-- From one await to the next a call advances the world and keeps what holds of it. -/
def Resumes (text : String → Int → τ) (w : World τ) (call : Call) (answer : Answer) (now : Nat) : Prop :=
  Advances text w (w.resume text call answer now).1 ∧
    (w.resume text call answer now).1.Good text (w.resume text call answer now).2

section

variable {w : World τ} {call : Call} {answer : Answer} {now : Nat} {target : DetailLevel} {finished : List (String × Int)}

theorem resumes_idle (honest : w.Honest text) (good : w.Good text call)
    (idle : w.resume text call answer now = (w,call)) : w.Resumes text call answer now := by
  rw [Resumes,idle]
  exact ⟨.refl honest,good⟩

theorem resumes_failed (honest : w.Honest text) (good : w.Good text call)
    (fails : w.resume text call answer now = (w,{ call with stage := .failed })) : w.Resumes text call answer now := by
  rw [Resumes,fails]
  exact ⟨.refl honest,failed_good good.through⟩

theorem checking_resumes {uri : String} {document : Option Int} {rest : List String} {filesToEnrich : List FileToEnrich}
    (honest : w.Honest text) (good : w.Good text ⟨target,.checking uri document rest filesToEnrich,finished⟩)
    (sound : w.SoundCall text ⟨target,.checking uri document rest filesToEnrich,finished⟩ answer) :
    w.Resumes text ⟨target,.checking uri document rest filesToEnrich,finished⟩ answer now := by
  have still := Advances.refl honest
  cases answer with
  | fulfilled =>
    cases document with
    | none => exact ⟨still,check_good good.through good.files rest⟩
    | some version =>
      simp only [Resumes,resume]
      split
      next reached =>
        obtain ⟨level,recorded,enough⟩ := hasDetailLevel_iff.mp reached
        have done := (honest uri version level recorded).lower enough
        exact ⟨still,check_good (good.through.cons done reached) good.files rest⟩
      next missing =>
        refine ⟨still,check_good good.through ?_ rest⟩
        intro file listed
        rcases List.mem_append.mp listed with before | last
        · exact good.files file before
        · obtain rfl := List.mem_singleton.mp last
          exact getLayersToApply_ne_nil (not_reached missing) sound.1 sound.2
  | rejected => exact ⟨still,check_good good.through good.files rest⟩
  | compiled => exact resumes_idle honest good rfl
  | broken kept => exact resumes_idle honest good rfl
  | threw => exact resumes_idle honest good rfl

theorem fetching_resumes {file : FileToEnrich} {document : Option Int} {i : Nat} {rest : List FileToEnrich}
    (honest : w.Honest text) (good : w.Good text ⟨target,.fetching file document i rest,finished⟩) :
    w.Resumes text ⟨target,.fetching file document i rest,finished⟩ answer now := by
  have later : ∀ file ∈ rest, getLayersToApply file.currentLevel target ≠ [] :=
    fun file member => good.files file (.tail _ member)
  cases answer with
  | fulfilled =>
    cases document with
    | none => exact ⟨.refl honest,fetch_good good.through later (i + 1)⟩
    | some document =>
      simp only [Resumes,resume]
      rw [if_neg (good.files file (.head _))]
      refine ⟨.refl honest,good.through,good.files,?_,by simp⟩
      rintro _ _ _ _ _ ⟨⟩
      rfl
  | rejected => exact resumes_failed honest good rfl
  | compiled => exact resumes_idle honest good rfl
  | broken kept => exact resumes_idle honest good rfl
  | threw => exact resumes_idle honest good rfl

theorem reading_resumes {file : FileToEnrich} {document : Int} {layersToApply : List DetailLevel} {i : Nat}
    {rest : List FileToEnrich} (honest : w.Honest text)
    (member : ⟨target,.reading file document layersToApply i rest,finished⟩ ∈ w.calls)
    (good : w.Good text ⟨target,.reading file document layersToApply i rest,finished⟩)
    (sound : w.SoundCall text ⟨target,.reading file document layersToApply i rest,finished⟩ answer) :
    w.Resumes text ⟨target,.reading file document layersToApply i rest,finished⟩ answer now := by
  have inProgress : InProgress ⟨target,.reading file document layersToApply i rest,finished⟩ := ⟨by simp,by simp⟩
  have later : ∀ file ∈ rest, getLayersToApply file.currentLevel target ≠ [] :=
    fun file member => good.files file (.tail _ member)
  have layers := good.reading file document layersToApply i rest rfl
  cases answer with
  | compiled =>
    have own : (w.cache.getParseTree file.uri file.version).getD (text file.uri document) = text file.uri file.version := sound
    simp only [Resumes,resume,own]
    have advances := walk_advances honest file.uri (text file.uri file.version) (ensureDependencies layersToApply)
    have through := advances.kept _ member inProgress good.through
    refine ⟨advances,through,later,by simp,?_⟩
    rintro _ _ _ _ ⟨⟩
    refine ⟨rfl,fun layer below upTo => List.mem_append_left _ ?_⟩
    rw [layers]
    exact List.mem_map.mpr ⟨layer,ensureDependencies_getLayersToApply (good.files file (.head _)) below upTo,rfl⟩
  | broken kept =>
    obtain rfl : kept = false := sound
    exact ⟨.refl honest,turn_good good.through later i⟩
  | threw =>
    have advances := mark_advances honest file.uri
    exact ⟨advances,fetch_good (advances.kept _ member inProgress good.through) later (i + 1)⟩
  | rejected => exact resumes_failed honest good rfl
  | fulfilled => exact resumes_idle honest good rfl

theorem adding_resumes {file : FileToEnrich} {compiled : Bool} {i : Nat} {rest : List FileToEnrich}
    (honest : w.Honest text) (member : ⟨target,.adding file compiled i rest,finished⟩ ∈ w.calls)
    (good : w.Good text ⟨target,.adding file compiled i rest,finished⟩)
    (sound : w.SoundCall text ⟨target,.adding file compiled i rest,finished⟩ answer) :
    w.Resumes text ⟨target,.adding file compiled i rest,finished⟩ answer now := by
  have inProgress : InProgress ⟨target,.adding file compiled i rest,finished⟩ := ⟨by simp,by simp⟩
  obtain ⟨rfl,done⟩ := good.adding file compiled i rest rfl
  cases answer with
  | fulfilled =>
    simp only [Resumes,resume]
    let newData : PartialState Unit Unit τ := levelOf file.version target
    have writable : w.Writable file.uri newData.documentVersion target := sound
    have advances : Advances text w { w with cache := w.cache.merge file.uri newData now } :=
      Advances.of_merge honest rfl writable (fun _ held => held) done rfl
    obtain ⟨e,found,version_,level_⟩ := @merge_self τ w.cache newData target rfl file.uri now
    have reached : (w.cache.merge file.uri newData now).hasDetailLevel file.uri file.version target = true :=
      hasDetailLevel_iff.mpr ⟨target,getDetailLevel_eq_some.mpr ⟨e,found,version_,level_⟩,Nat.le_refl _⟩
    have through := advances.kept _ member inProgress good.through
    exact ⟨advances,turn_good (through.cons done reached) good.files i⟩
  | threw =>
    have advances := mark_advances honest file.uri
    exact ⟨advances,fetch_good (advances.kept _ member inProgress good.through) good.files (i + 1)⟩
  | rejected => exact resumes_failed honest good rfl
  | compiled => exact resumes_idle honest good rfl
  | broken kept => exact resumes_idle honest good rfl

theorem yielding_resumes {i : Nat} {rest : List FileToEnrich} (honest : w.Honest text)
    (good : w.Good text ⟨target,.yielding i rest,finished⟩) :
    w.Resumes text ⟨target,.yielding i rest,finished⟩ answer now := by
  cases answer with
  | fulfilled => exact ⟨.refl honest,fetch_good good.through good.files i⟩
  | rejected => exact resumes_idle honest good rfl
  | compiled => exact resumes_idle honest good rfl
  | broken kept => exact resumes_idle honest good rfl
  | threw => exact resumes_idle honest good rfl

theorem resume_spec (honest : w.Honest text) (member : call ∈ w.calls) (inProgress : InProgress call)
    (good : w.Good text call) (sound : w.SoundCall text call answer) : w.Resumes text call answer now := by
  obtain ⟨target,stage,finished⟩ := call
  cases stage with
  | checking => exact checking_resumes honest good sound
  | fetching => exact fetching_resumes honest good
  | reading => exact reading_resumes honest member good sound
  | adding => exact adding_resumes honest member good sound
  | yielding => exact yielding_resumes honest good
  | ended => exact absurd rfl inProgress.1
  | failed => exact absurd rfl inProgress.2

end

structure Kept (text : String → Int → τ) (w : World τ) : Prop where
  honest : w.Honest text
  good : ∀ call ∈ w.calls, InProgress call → w.Good text call

theorem Good.advances {w after : World τ} {call : Call} (advances : Advances text w after) (member : call ∈ w.calls)
    (inProgress : InProgress call) (good : w.Good text call) : after.Good text call where
  through := advances.kept call member inProgress good.through
  files := good.files
  reading := good.reading
  adding file compiled i rest at_ := by
    obtain ⟨whole,done⟩ := good.adding file compiled i rest at_
    exact ⟨whole,done.mono advances.collected⟩

theorem step_of_advances {w : World τ} {e : Event} (kept : w.Kept text) (advances : Advances text w (w.step text e))
    (calls : ∀ (i : Nat) (call : Call), (w.step text e).calls[i]? = some call →
      w.calls[i]? = some call ∨ (w.step text e).Good text call) :
    (w.step text e).Kept text ∧ w.Truthful text e := by
  refine ⟨⟨advances.honest,fun call member inProgress => ?_⟩,?_,advances.honest,advances.rises⟩
  · obtain ⟨i,at_⟩ := List.mem_iff_getElem?.mp member
    rcases calls i call at_ with before | good
    · have listed := List.mem_of_getElem? before
      exact (kept.good call listed inProgress).advances advances listed inProgress
    · exact good
  · intro i call at_ ended started
    rcases calls i call at_ with before | good
    · exact absurd ended (started call before)
    · exact good.through

theorem resume_calls (w : World τ) (call : Call) (answer : Answer) (now : Nat) :
    (w.resume text call answer now).1.calls = w.calls := by
  unfold resume
  split
  any_goals rfl
  all_goals
    split
    any_goals rfl
  all_goals
    dsimp only
    split
    all_goals rfl

theorem resume_stopped {w : World τ} {call : Call} (stopped : ¬ InProgress call) (answer : Answer) (now : Nat) :
    w.resume text call answer now = (w,call) := by
  obtain ⟨target,stage,finished⟩ := call
  cases stage with
  | ended => cases answer <;> rfl
  | failed => cases answer <;> rfl
  | checking => exact absurd ⟨by simp,by simp⟩ stopped
  | fetching => exact absurd ⟨by simp,by simp⟩ stopped
  | reading => exact absurd ⟨by simp,by simp⟩ stopped
  | adding => exact absurd ⟨by simp,by simp⟩ stopped
  | yielding => exact absurd ⟨by simp,by simp⟩ stopped

section

variable {w : World τ}

theorem enrichFiles_spec (kept : w.Kept text) (fileUris : List String) (target : DetailLevel) :
    (w.step text (.enrichFiles fileUris target)).Kept text ∧ w.Truthful text (.enrichFiles fileUris target) := by
  let call : Call := { targetLevel := target,stage := .ended }
  have begun : (w.step text (.enrichFiles fileUris target)).Good text
      (if fileUris = [] then call else w.check call [] fileUris) := by
    have nothing : (w.step text (.enrichFiles fileUris target)).Through text call := by
      intro uri version member
      cases member
    split
    next => exact ⟨nothing,by simp [call,World.files],by simp [call],by simp [call]⟩
    next => exact check_good nothing (by simp) fileUris
  refine step_of_advances kept (.of_levels kept.honest (fun _ held => held) fun _ _ => rfl) fun i found at_ => ?_
  change (w.calls ++ [if fileUris = [] then call else w.check call [] fileUris])[i]? = some found at at_
  rw [List.getElem?_append] at at_
  split at at_
  next => exact .inl at_
  next =>
    obtain rfl := List.mem_singleton.mp (List.mem_of_getElem? at_)
    exact .inr begun

theorem set_call {calls : List Call} {i : Nat} {after : Call} {j : Nat} {found : Call}
    (at_ : (calls.set i after)[j]? = some found) : calls[j]? = some found ∨ i = j ∧ found = after := by
  rw [List.getElem?_set] at at_
  split at at_
  next same =>
    split at at_
    · exact .inr ⟨same,(Option.some.inj at_).symm⟩
    · cases at_
  next => exact .inl at_

theorem resumed_spec (kept : w.Kept text) {i : Nat} {answer : Answer} {now : Nat}
    (sound : w.Sound text (.resume i answer now)) :
    (w.step text (.resume i answer now)).Kept text ∧ w.Truthful text (.resume i answer now) := by
  cases at_ : w.calls[i]? with
  | none =>
    have same : w.step text (.resume i answer now) = w := by simp only [step,at_]
    apply step_of_advances kept
    · rw [same]
      exact .refl kept.honest
    · intro j call found
      rw [same] at found
      exact .inl found
  | some call =>
    have listed := List.mem_of_getElem? at_
    have next_ : w.step text (.resume i answer now) = { (w.resume text call answer now).1 with
        calls := w.calls.set i (w.resume text call answer now).2 } := by
      simp only [step,at_,resume_calls]
    by_cases inProgress : InProgress call
    · obtain ⟨advances,good⟩ :=
        @resume_spec _ text w call answer now kept.honest listed inProgress (kept.good call listed inProgress) (sound call at_)
      apply step_of_advances kept
      · rw [next_]
        exact ⟨advances.collected,advances.kept,advances.honest,advances.rises⟩
      · rw [next_]
        intro j found there
        rcases set_call there with before | ⟨-,rfl⟩
        · exact .inl before
        · exact .inr ⟨good.through,good.files,good.reading,good.adding⟩
    · rw [resume_stopped inProgress] at next_
      apply step_of_advances kept
      · rw [next_]
        exact .of_levels kept.honest (fun _ held => held) fun _ _ => rfl
      · rw [next_]
        intro j found there
        rcases set_call there with before | ⟨rfl,rfl⟩
        · exact .inl before
        · exact .inl at_

theorem processed_spec (kept : w.Kept text) {uri : String} {version : Int} {now : Nat}
    (writable : w.Writable uri version .publicApi) :
    (w.step text (.processed uri version now)).Kept text ∧ w.Truthful text (.processed uri version now) := by
  let newData := processedState version (text uri version)
  have collected : (w.step text (.processed uri version now)).Collected text uri newData.documentVersion .publicApi := by
    intro layer _ upTo
    have base : layer = .publicApi := by
      revert upTo
      cases layer <;> decide
    subst base
    exact .head _
  have advances : Advances text w (w.step text (.processed uri version now)) :=
    @Advances.of_merge _ text w _ newData .publicApi uri now kept.honest rfl writable (fun _ held => .tail _ held) collected rfl
  exact step_of_advances kept advances fun _ _ at_ => .inl at_

theorem step_spec {e : Event} (kept : w.Kept text) (sound : w.Sound text e) :
    (w.step text e).Kept text ∧ w.Truthful text e := by
  cases e with
  | enrichFiles fileUris target => exact enrichFiles_spec kept fileUris target
  | resume i answer now => exact resumed_spec kept sound
  | processed uri version now => exact processed_spec kept sound
  | edited uri version =>
    exact step_of_advances kept (.of_levels kept.honest (fun _ held => held) fun _ _ => rfl) fun _ _ at_ => .inl at_

end

/-- Along every run of sound steps each call that ends has reached its target in every file it met no
compile error in, no level is recorded above what was collected of its version, and none falls. -/
theorem enrichment_truthful (text : String → Int → τ) (w : World τ) (rested : w.Rested text) (events : List Event)
    (sound : EveryStep (step text) (Sound text) w events) : EveryStep (step text) (Truthful text) w events := by
  have kept : w.Kept text := by
    refine ⟨rested.honest,fun call member => ?_⟩
    rw [rested.calls] at member
    cases member
  clear rested
  induction events generalizing w with
  | nil => trivial
  | cons e events ih =>
    obtain ⟨keeps,truthful⟩ := step_spec kept sound.1
    exact ⟨truthful,ih _ sound.2 keeps⟩

def oneDocument : World Int := { storage := OrderedMap.empty.set "file:///Foo.cls" 1 }

def byVersion (_ : String) (version : Int) : Int := version

/-- A call for one file, from its check to the write of its level. -/
def enrichment (target : DetailLevel) : List Event :=
  [.enrichFiles ["file:///Foo.cls"] target,.resume 0 .fulfilled 0,.resume 0 .fulfilled 0,.resume 0 .compiled 0,
    .resume 0 .fulfilled 1]

theorem oneDocument_rested : oneDocument.Rested byVersion :=
  ⟨rfl,fun uri version level recorded => by cases recorded⟩

theorem enrichment_sound : EveryStep (step byVersion) (Sound byVersion) oneDocument (enrichment .full) := by
  refine ⟨trivial,?_,?_,?_,?_,trivial⟩
  · intro call at_
    obtain rfl := Option.some.inj at_
    exact ⟨fun _ => by decide,fun recorded => by cases recorded⟩
  · intro call at_
    obtain rfl := Option.some.inj at_
    exact trivial
  · intro call at_
    obtain rfl := Option.some.inj at_
    rfl
  · intro call at_
    obtain rfl := Option.some.inj at_
    refine ⟨fun recorded found => (by cases found),fun call listed _ uri version member => ?_⟩
    obtain rfl := List.mem_singleton.mp listed
    cases member

theorem enrichment_of_one_document :
    EveryStep (step byVersion) (Truthful byVersion) oneDocument (enrichment .full) :=
  enrichment_truthful byVersion oneDocument oneDocument_rested (enrichment .full) enrichment_sound

/-- The document is edited after its version was asked for, and its new text is compiled. -/
def editedMeanwhile : List Event :=
  [.enrichFiles ["file:///Foo.cls"] .full,.edited "file:///Foo.cls" 2,.resume 0 .fulfilled 0,.resume 0 .fulfilled 0,
    .resume 0 .compiled 0,.resume 0 .fulfilled 1]

/-- A call for the base level ends with nothing recorded, and what is collected from a newer text is
recorded for the version that was checked. -/
theorem enrichment_misses :
    ¬ EveryStep (step byVersion) (Truthful byVersion) oneDocument ((enrichment .publicApi).take 3) ∧
      ¬ EveryStep (step byVersion) (Truthful byVersion) oneDocument editedMeanwhile := by
  constructor
  · rintro ⟨-,-,last,-⟩
    have reached := last.reached 0 _ rfl rfl ?_ "file:///Foo.cls" 1 (.head _)
    · exact absurd reached.2 (by decide)
    · intro before at_
      obtain rfl := Option.some.inj at_
      decide
  · rintro ⟨-,-,-,-,-,last,-⟩
    have collected := last.honest "file:///Foo.cls" 1 .full (by decide +kernel) .publicApi (by decide) (by decide)
    exact absurd collected (by decide +kernel)

end World
end ApexLs.Services.LayerEnrichment
