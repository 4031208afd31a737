import Mathlib.Data.List.MinMax
import ApexLs.Server.SymbolReadiness

/-! The detail level recorded for a version of a document while compilations and enrichments of it
are committed. A write-back is compared with what is recorded; a commit of a compilation is not. -/
namespace ApexLs.Server

open ApexLs.Collections ApexLs.Utils ApexLs.Types ApexLs.Symbols ApexLs.Services

/-- The document, the version and the level a commit or a write-back is for. -/
def OwnerCommand.level : OwnerCommand → Option (String × Nat × DetailLevel)
  | .compileDocument compiled _ => some (compiled.uri,compiled.version,.publicApi)
  | .workspaceBatchCompile compiled _ => some (compiled.uri,compiled.version,.publicApi)
  | .updateSymbolSubset update _ => some (update.uri,update.documentVersion,update.enrichedDetailLevel)
  | _ => none

def OwnerCommand.compiled : OwnerCommand → Option Compilation
  | .compileDocument compiled _ => some compiled
  | .workspaceBatchCompile compiled _ => some compiled
  | _ => none

theorem getLayerOrderIndex_injective {a b : DetailLevel} (same : getLayerOrderIndex a = getLayerOrderIndex b) : a = b := by
  cases a <;> cases b <;> simp [getLayerOrderIndex] at same ⊢

theorem publicApi_least (level : DetailLevel) : getLayerOrderIndex .publicApi ≤ getLayerOrderIndex level := by
  cases level <;> decide

theorem getDetailLevel_merge (c : DocumentStateCache Unit Unit Unit) (uri : String) (version : Int)
    (level : DetailLevel) (now : Nat) :
    (c.merge uri { documentVersion := version,detailLevel := some (some level),timestamp := some now } now).getDetailLevel
      uri version = some level := by
  unfold DocumentStateCache.merge
  split
  next =>
    simp [DocumentStateCache.getDetailLevel,DocumentStateCache.get,DocumentStateCache.mergeInto,spread,
      Option.filter_some]
  next =>
    simp [DocumentStateCache.set,DocumentStateCache.getDetailLevel,DocumentStateCache.get,DocumentStateCache.newEntry,
      spread,Option.filter_some]

namespace DataOwner

variable [Runtime]

def recordedLevel (o : DataOwner) (uri : String) (version : Nat) : Option DetailLevel :=
  o.documentStateCache.getDetailLevel uri version

variable {uri : String} {version : Nat} {level : DetailLevel} {now : Nat}

theorem Records.recordedLevel {o o' : DataOwner} (records : Records o o' uri version level now t hasErrors) :
    o'.recordedLevel uri version = some level := by
  simp only [DataOwner.recordedLevel,records.documentStateCache]
  exact getDetailLevel_merge ..

theorem alreadyCurrentOrRicher_iff {o : DataOwner} {update : SymbolUpdate}
    (recorded : o.recordedLevel update.uri update.documentVersion = some level) :
    o.alreadyCurrentOrRicher update = true ↔ getLayerOrderIndex update.enrichedDetailLevel ≤ getLayerOrderIndex level := by
  obtain ⟨e,found,held⟩ := Option.bind_eq_some_iff.mp recorded
  obtain ⟨stored,same⟩ := CacheHistory.get_eq_some found
  simp [alreadyCurrentOrRicher,mergedVersion,DocumentStateCache.getCurrentState,stored,same,held]

/-- A commit or a write-back for a document leaves its records alone, or is for the version stored
and records its level; a write-back does the latter only above the level recorded. -/
theorem step_cases {o : DataOwner} {c : OwnerCommand} (level_ : c.level = some (uri,version,level))
    (stored : o.storage.get? uri = some doc) :
    (o.accepts c = false ∧ SameRecords o (o.step c) ∧
      ∀ compiled, c.compiled = some compiled → compiled.version ≠ doc.version) ∨
    (o.accepts c = true ∧ version = doc.version ∧ (o.step c).storage = o.storage ∧
      (o.step c).recordedLevel uri version = some level ∧
      (c.compiled = none → ∀ before, o.recordedLevel uri version = some before →
        getLayerOrderIndex before < getLayerOrderIndex level) ∧
      ∀ compiled, c.compiled = some compiled → compiled.version = version ∧ level = .publicApi) := by
  cases c with
  | compileDocument compiled now =>
    cases level_
    rcases o.commit_cases compiled now with ⟨refused,other,same⟩ | ⟨doc',found,version_,accepted,records⟩
    · refine .inl ⟨by simp [accepts,compileDocument,refused],same,?_⟩
      rintro _ ⟨⟩
      exact (other doc stored).symm
    · obtain rfl := Option.some.inj (stored.symm.trans found)
      refine .inr ⟨by simp [accepts,compileDocument,accepted],version_.symm,records.storage,records.recordedLevel,by
        simp [OwnerCommand.compiled],?_⟩
      rintro _ ⟨⟩
      exact ⟨rfl,rfl⟩
  | workspaceBatchCompile compiled now =>
    cases level_
    rcases o.commit_cases compiled now with ⟨refused,other,same⟩ | ⟨doc',found,version_,accepted,records⟩
    · refine .inl ⟨refused,same,?_⟩
      rintro _ ⟨⟩
      exact (other doc stored).symm
    · obtain rfl := Option.some.inj (stored.symm.trans found)
      refine .inr ⟨accepted,version_.symm,records.storage,records.recordedLevel,by simp [OwnerCommand.compiled],?_⟩
      rintro _ ⟨⟩
      exact ⟨rfl,rfl⟩
  | updateSymbolSubset update now =>
    cases level_
    rcases o.updateSymbolSubset_cases update now with ⟨refused,_,same⟩ | ⟨doc',found,version_,poorer,accepted,records⟩
    · exact .inl ⟨refused,same,by simp [OwnerCommand.compiled]⟩
    · obtain rfl := Option.some.inj (stored.symm.trans found)
      refine .inr ⟨accepted,version_.symm,records.storage,records.recordedLevel,fun _ before recorded => ?_,by
        simp [OwnerCommand.compiled]⟩
      rw [← not_le]
      intro richer
      rw [(alreadyCurrentOrRicher_iff recorded).mpr richer] at poorer
      cases poorer
  | _ => cases level_

end DataOwner

/-- The owner beside the levels that were accepted for the version the document is stored under. -/
structure LevelHistory [Runtime] where
  owner : DataOwner
  accepted : List DetailLevel := []

namespace LevelHistory

variable [Runtime]

def step (uri : String) (version : Nat) (h : LevelHistory) (c : OwnerCommand) : LevelHistory where
  owner := h.owner.step c
  accepted := match c.level with
    | some (uri',version',level) =>
      if uri' = uri ∧ version' = version ∧ h.owner.accepts c then level :: h.accepted else h.accepted
    | none => h.accepted

def Recorded (uri : String) (version : Nat) (h : LevelHistory) : Prop :=
  h.owner.recordedLevel uri version = h.accepted.argmax getLayerOrderIndex

/-- What a commit or a write-back does to the level recorded for the version, and that it does
nothing to what is recorded when it is for another version. -/
structure Honest (uri : String) (version : Nat) (h : LevelHistory) (c : OwnerCommand) : Prop where
  highest : Recorded uri version (h.step uri version c)
  rises : ∀ level, h.owner.recordedLevel uri version = some level →
    ∃ later, (h.step uri version c).owner.recordedLevel uri version = some later ∧
      getLayerOrderIndex level ≤ getLayerOrderIndex later
  inert : ∀ version' level, c.level = some (uri,version',level) → version' ≠ version →
    (h.step uri version c).owner.symbolManager = h.owner.symbolManager ∧
      (h.step uri version c).owner.documentStateCache = h.owner.documentStateCache

/-- A compilation of the stored version is committed only while nothing richer than the base level
is recorded for it. -/
def KeepsRicher (uri : String) (version : Nat) (h : LevelHistory) (c : OwnerCommand) : Prop :=
  ∀ compiled, c.compiled = some compiled → compiled.version = version →
    ∀ level, h.owner.recordedLevel uri version = some level → level = .publicApi

/-- The stored version stays, and what is recorded for it is the highest level accepted. -/
structure Kept (uri : String) (version : Nat) (h : LevelHistory) : Prop where
  stored : ∃ doc, h.owner.storage.get? uri = some doc ∧ doc.version = version
  recorded : Recorded uri version h

variable {uri : String} {version : Nat} {level : DetailLevel} {h : LevelHistory}

theorem step_refused {c : OwnerCommand} (for_ : c.level = some (uri',version',level)) (refused : h.owner.accepts c = false) :
    (h.step uri version c).accepted = h.accepted := by
  simp [step,for_,refused]

theorem step_accepted {c : OwnerCommand} (for_ : c.level = some (uri,version,level)) (accepted : h.owner.accepts c = true) :
    (h.step uri version c).accepted = level :: h.accepted := by
  simp [step,for_,accepted]

omit [Runtime] in
theorem argmax_cons_self {levels : List DetailLevel} :
    (level :: levels).argmax getLayerOrderIndex = some level ↔
      ∀ before, levels.argmax getLayerOrderIndex = some before → getLayerOrderIndex before ≤ getLayerOrderIndex level := by
  rw [List.argmax_cons]
  cases levels.argmax getLayerOrderIndex with
  | none => simp
  | some before =>
    by_cases above : getLayerOrderIndex level < getLayerOrderIndex before
    · have apart : before ≠ level := by
        rintro rfl
        exact absurd above (lt_irrefl _)
      simp [above,apart]
    · simp [above,not_lt.mp above]

theorem honest_of_refused {c : OwnerCommand} (kept : Kept uri version h) (for_ : c.level = some (uri,version',level))
    (refused : h.owner.accepts c = false) (same : DataOwner.SameRecords h.owner (h.owner.step c)) :
    Honest uri version h c ∧ Kept uri version (h.step uri version c) := by
  have recorded : (h.step uri version c).owner.recordedLevel uri version = h.owner.recordedLevel uri version := by
    simp only [DataOwner.recordedLevel,step,same.documentStateCache]
  have highest : Recorded uri version (h.step uri version c) := by
    rw [Recorded,recorded,step_refused for_ refused]
    exact kept.recorded
  obtain ⟨doc,stored,version_⟩ := kept.stored
  refine ⟨⟨highest,fun level before => ⟨level,recorded.trans before,le_rfl⟩,fun _ _ _ _ => ?_⟩,⟨doc,?_,version_⟩,highest⟩
  · exact ⟨same.symbolManager,same.documentStateCache⟩
  · simp only [step,same.storage]
    exact stored

/-- A step is honest exactly when it does not commit a compilation over a richer level, and an
honest one keeps the version and the level. -/
theorem honest_iff {c : OwnerCommand} (kept : Kept uri version h) (for_ : ∃ version' level, c.level = some (uri,version',level)) :
    (Honest uri version h c ↔ KeepsRicher uri version h c) ∧
      (KeepsRicher uri version h c → Kept uri version (h.step uri version c)) := by
  obtain ⟨version',level,for_⟩ := for_
  obtain ⟨doc,stored,rfl⟩ := kept.stored
  rcases DataOwner.step_cases for_ stored with ⟨refused,same,other⟩ | ⟨accepted,rfl,storage,recorded,above,base⟩
  · obtain ⟨honest,kept'⟩ := honest_of_refused kept for_ refused same
    exact ⟨⟨fun _ compiled of_ version_ => absurd version_ (other compiled of_),fun _ => honest⟩,fun _ => kept'⟩
  · have highest : Recorded uri doc.version (h.step uri doc.version c) ↔ KeepsRicher uri doc.version h c := by
      have after : (h.step uri doc.version c).owner.recordedLevel uri doc.version = some level := recorded
      rw [Recorded,after,step_accepted for_ accepted,eq_comm,argmax_cons_self,← kept.recorded]
      cases of_ : c.compiled with
      | none => exact ⟨fun _ compiled found => by simp [of_] at found,fun _ before held => (above of_ before held).le⟩
      | some compiled =>
        obtain ⟨version_,rfl⟩ := base compiled of_
        constructor
        · intro below compiled' _ _ before held
          exact getLayerOrderIndex_injective ((below before held).antisymm (publicApi_least before))
        · intro keeps before held
          rw [keeps compiled of_ version_ before held]
    refine ⟨⟨fun honest => highest.mp honest.highest,fun keeps => ?_⟩,fun keeps => ?_⟩
    · refine ⟨highest.mpr keeps,fun before held => ⟨level,recorded,?_⟩,fun version' level' for' other => ?_⟩
      · cases of_ : c.compiled with
        | none => exact (above of_ before held).le
        | some compiled => exact (keeps compiled of_ (base compiled of_).1 before held) ▸ publicApi_least level
      · simp [for_] at for'
        exact absurd for'.1.symm other
    · exact ⟨⟨doc,storage ▸ stored,rfl⟩,highest.mpr keeps⟩

/-- Along every run of commits and write-backs for a document that stays under one version, the
level recorded for it is the highest accepted so far, never falls, and is left alone for other
versions, exactly when no compilation is committed over a richer level. -/
theorem levels_recorded_iff (o : DataOwner) {uri : String} {doc : WorkerDocument} (stored : o.storage.get? uri = some doc)
    (unrecorded : o.recordedLevel uri doc.version = none) (commands : List OwnerCommand)
    (own : ∀ c ∈ commands, ∃ version level, c.level = some (uri,version,level)) :
    EveryStep (step uri doc.version) (Honest uri doc.version) { owner := o } commands ↔
      EveryStep (step uri doc.version) (KeepsRicher uri doc.version) { owner := o } commands := by
  apply everyStep_iff_everyStep (A := Kept uri doc.version) (R := fun _ c => ∃ version level, c.level = some (uri,version,level))
  · exact fun h c kept for_ keeps => (honest_iff kept for_).2 keeps
  · exact fun h c kept for_ => (honest_iff kept for_).1
  · exact ⟨⟨doc,stored,rfl⟩,unrecorded⟩
  · exact everyStep_of_inputs own _

def openedFoo : LevelHistory where
  owner := DataOwner.dispatchDocumentOpen { symbolManager := { graph := { heap := fun _ => default } } }
    "file:///Foo.cls" "apex" 1 "class Foo {}"

def fooLevel (commands : List OwnerCommand) : Option DetailLevel :=
  (run (step "file:///Foo.cls" 1) openedFoo commands).owner.recordedLevel "file:///Foo.cls" 1

end LevelHistory

def enrichFoo : OwnerCommand :=
  .updateSymbolSubset
    { uri := "file:///Foo.cls",documentVersion := 1,content := "class Foo {}",
      enrichedSymbolTable := {},enrichedDetailLevel := .full } 10

def compileFoo : OwnerCommand :=
  .compileDocument { uri := "file:///Foo.cls",version := 1,content := "class Foo {}",symbolTable := {} } 20

open LevelHistory in
/-- The compilation commits first and the write-back raises the level. -/
theorem compilation_first_recorded :
    EveryStep (@step asciiRuntime "file:///Foo.cls" 1) (@Honest asciiRuntime "file:///Foo.cls" 1)
      (@openedFoo asciiRuntime) [compileFoo,enrichFoo] := by
  refine (@levels_recorded_iff asciiRuntime (@owner asciiRuntime (@openedFoo asciiRuntime)) "file:///Foo.cls"
    { uri := "file:///Foo.cls",version := 1,text := "class Foo {}" } rfl rfl [compileFoo,enrichFoo] ?_).mpr ?_
  · intro c member
    rcases List.mem_pair.mp member with rfl | rfl
    · exact ⟨1,.publicApi,rfl⟩
    · exact ⟨1,.full,rfl⟩
  · have nothing : @fooLevel asciiRuntime [] = none := rfl
    have first : @KeepsRicher asciiRuntime "file:///Foo.cls" 1 (@openedFoo asciiRuntime) compileFoo :=
      fun _ _ _ level recorded => absurd (nothing.symm.trans recorded) (by simp)
    have second (h : @LevelHistory asciiRuntime) : @KeepsRicher asciiRuntime "file:///Foo.cls" 1 h enrichFoo := by
      rintro _ ⟨⟩
    exact ⟨first,second _,trivial⟩

open LevelHistory in
/-- The late commit lowers the level recorded for version 1 from the whole class to its public part. -/
theorem late_compilation_lowers :
    (@fooLevel asciiRuntime [enrichFoo] = some .full ∧
      @fooLevel asciiRuntime [enrichFoo,compileFoo] = some .publicApi) ∧
      ¬ EveryStep (@step asciiRuntime "file:///Foo.cls" 1) (@Honest asciiRuntime "file:///Foo.cls" 1)
        (@openedFoo asciiRuntime) [enrichFoo,compileFoo] := by
  have rich : @fooLevel asciiRuntime [enrichFoo] = some .full := rfl
  have poor : @fooLevel asciiRuntime [enrichFoo,compileFoo] = some .publicApi := rfl
  refine ⟨⟨rich,poor⟩,fun honest => ?_⟩
  obtain ⟨later,recorded,above⟩ := @Honest.rises asciiRuntime _ _ _ _ honest.2.1 .full rich
  obtain rfl : DetailLevel.publicApi = later := Option.some.inj (poor.symm.trans recorded)
  exact absurd above (by decide)

end ApexLs.Server
