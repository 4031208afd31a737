import Mathlib.Data.List.Induction
import ApexLs.Collections.Rows
import ApexLs.Collections.Runs
import ApexLs.Services.SObjectEnrichmentService
import ApexLs.Utils.AsciiBytes

/-! Runs of the sObject enrichment. The versions of an object only rise, a placeholder is made where there is no table, and a
request reserves its versions behind the placeholders it waits for. -/
namespace ApexLs.Services.SObjects

open ApexLs.Collections ApexLs.Symbols ApexLs.Utils
open MissingArtifacts (MissingArtifactIdentifierType MissingArtifactPayload BlockingResult)

namespace Objects

variable {o o' : Objects} {name other : String} {version : Nat}

def Outrun (o : Objects) (name : String) (version : Nat) : Prop :=
  ∃ table, (name,table) ∈ o.registered ∧ table.artifact.isSome = true ∧ version < table.documentVersion

/-- No table is of a version that was not given out, and none was followed by an older one, nor an artifact by a
placeholder. -/
structure Sound (o : Objects) : Prop where
  bounded : ∀ name table, o.tables.get? name = some table → table.documentVersion ≤ o.latest name
  listed : ∀ name table, o.tables.get? name = some table → (name,table) ∈ o.registered
  kept : ∀ name table, (name,table) ∈ o.registered → ∃ current, o.tables.get? name = some current ∧
    table.documentVersion ≤ current.documentVersion ∧ (table.artifact.isSome = true → current.artifact.isSome = true)

def There (o : Objects) (name : String) : Prop := ∃ table, o.tables.get? name = some table

def NoPlaceholder (o : Objects) (name : String) : Prop :=
  ∀ table, o.tables.get? name = some table → table.artifact.isSome = true

structure Grows (o o' : Objects) : Prop where
  latest : ∀ name, o.latest name ≤ o'.latest name
  there : ∀ name, o.There name → o'.There name
  registered : ∀ r ∈ o.registered, r ∈ o'.registered

/-- The version is the latest one, or an artifact of a later one was registered. -/
def Current (o : Objects) (name : String) (version : Nat) : Prop :=
  version ≤ o.latest name ∧ (o.latest name = version ∨ o.Outrun name version)

theorem rejected_iff (o : Objects) (name : String) (table : ObjectTable) {i : DecisionInputs} (new : i.sameInstance = false)
    (incoming : i.incomingVersion = table.documentVersion)
    (stored : i.storedVersion = (o.tables.get? name).map fun t => (t.documentVersion : Int)) :
    i.decision = .rejectedStale ↔ o.outdated name table = true := by
  rw [(DecisionInputs.decision_new new).1,DecisionInputs.outdated,incoming,stored,outdated,Option.any_map]
  simp only [Int.ofNat_lt]

theorem Grows.refl (o : Objects) : Grows o o := ⟨fun _ => Nat.le_refl _,fun _ there => there,fun _ member => member⟩

theorem Grows.trans {first last : Objects} (grows : Grows first o) (grows' : Grows o last) : Grows first last :=
  ⟨fun name => (grows.latest name).trans (grows'.latest name),fun name there => grows'.there name (grows.there name there),
    fun r member => grows'.registered r (grows.registered r member)⟩

theorem Grows.outrun (grows : Grows o o') : o.Outrun name version → o'.Outrun name version :=
  fun ⟨table,member,artifact,later⟩ => ⟨table,grows.registered _ member,artifact,later⟩

theorem latest_setLatest (o : Objects) (name other : String) (version : Nat) :
    (o.setLatest name version).latest other = if other = name then version else o.latest other := by
  rw [latest,setLatest,OrderedMap.get?_set]
  split <;> rfl

theorem latest_setLatest_same (o : Objects) (name other : String) :
    (o.setLatest name (o.latest name)).latest other = o.latest other := by
  rw [latest_setLatest]
  split
  · next same => rw [same]
  · rfl

theorem Grows.setLatest (later : o.latest name ≤ version) : o.Grows (o.setLatest name version) where
  latest other := by
    rw [latest_setLatest]
    split
    · next same =>
      subst same
      exact later
    · exact Nat.le_refl _
  there _ there := there
  registered _ member := member

theorem latest_addSymbolTable (o : Objects) (name other : String) (table : ObjectTable) :
    (o.addSymbolTable name table).latest other = o.latest other := by
  rw [addSymbolTable]
  split <;> rfl

theorem Sound.registers (sound : o.Sound) {table : ObjectTable} (recent : o.latest name ≤ table.documentVersion) :
    o.addSymbolTable name table =
      { o with tables := o.tables.set name table,registered := o.registered ++ [(name,table)] } := by
  refine if_neg fun old => ?_
  rw [outdated] at old
  cases stored : o.tables.get? name with
  | none =>
    rw [stored] at old
    cases old
  | some current =>
    rw [stored] at old
    have below := sound.bounded name current stored
    have older : table.documentVersion < current.documentVersion := of_decide_eq_true old
    omega

/-- What a table of a version from the latest on makes of the objects. -/
def add (o : Objects) (name : String) (table : ObjectTable) : Objects :=
  (o.setLatest name table.documentVersion).addSymbolTable name table

variable {table : ObjectTable}

theorem latest_add (o : Objects) (name other : String) (table : ObjectTable) :
    (o.add name table).latest other = if other = name then table.documentVersion else o.latest other := by
  rw [add,latest_addSymbolTable,latest_setLatest]

theorem Sound.setLatest (sound : o.Sound) (later : o.latest name ≤ version) : (o.setLatest name version).Sound where
  bounded other table stored := by
    have below := sound.bounded other table stored
    rw [latest_setLatest]
    split
    · next same =>
      subst same
      omega
    · exact below
  listed := sound.listed
  kept := sound.kept

section

variable (sound : o.Sound) (later : o.latest name ≤ table.documentVersion)
include sound later

theorem Sound.add_eq :
    o.add name table = { o.setLatest name table.documentVersion with
      tables := o.tables.set name table,registered := o.registered ++ [(name,table)] } := by
  refine (sound.setLatest later).registers ?_
  rw [latest_setLatest,if_pos rfl]

theorem Sound.get?_add :
    (o.add name table).tables.get? other = if other = name then some table else o.tables.get? other := by
  rw [sound.add_eq later]
  exact OrderedMap.get?_set ..

theorem Sound.mem_add {r : String × ObjectTable} :
    r ∈ (o.add name table).registered ↔ r ∈ o.registered ∨ r = (name,table) := by
  rw [sound.add_eq later,List.mem_append,List.mem_singleton]

theorem Sound.add (follows : table.artifact.isSome = true ∨ o.tables.get? name = none) : (o.add name table).Sound where
  bounded other stored found := by
    rw [sound.get?_add later] at found
    rw [latest_add]
    split at found
    · rw [if_pos ‹_›]
      obtain rfl := Option.some.inj found
      exact Nat.le_refl _
    · rw [if_neg ‹_›]
      exact sound.bounded other stored found
  listed other stored found := by
    rw [sound.get?_add later] at found
    refine (sound.mem_add later).mpr ?_
    split at found
    · next same =>
      obtain rfl := Option.some.inj found
      exact .inr (congrArg (·,table) same)
    · exact .inl (sound.listed other stored found)
  kept other old member := by
    rw [sound.get?_add later]
    rcases (sound.mem_add later).mp member with member | same
    · obtain ⟨current,stored,below,described⟩ := sound.kept other old member
      split
      · next same =>
        subst same
        refine ⟨table,rfl,?_,fun _ => ?_⟩
        · have := sound.bounded other current stored
          omega
        · rcases follows with artifact | absent
          · exact artifact
          · rw [absent] at stored
            cases stored
      · exact ⟨current,stored,below,described⟩
    · obtain ⟨rfl,rfl⟩ := Prod.mk.inj same
      rw [if_pos rfl]
      exact ⟨old,rfl,Nat.le_refl _,fun described => described⟩

theorem Sound.grows : o.Grows (o.add name table) where
  latest other := by
    rw [latest_add]
    split
    · next same =>
      subst same
      exact later
    · exact Nat.le_refl _
  there := by
    rintro other ⟨stored,found⟩
    rw [There,sound.get?_add later]
    split
    · exact ⟨table,rfl⟩
    · exact ⟨stored,found⟩
  registered r member := (sound.mem_add later).mpr (.inl member)

end

theorem NoPlaceholder.add (artifacts : o.NoPlaceholder other) (sound : o.Sound) (later : o.latest name ≤ table.documentVersion)
    (artifact : table.artifact.isSome = true ∨ other ≠ name) : (o.add name table).NoPlaceholder other := by
  intro stored found
  rw [sound.get?_add later] at found
  split at found
  · next same =>
    obtain rfl := Option.some.inj found
    exact artifact.resolve_right (· same)
  · exact artifacts stored found

theorem Current.same (current : o.Current name version) (same : o'.latest name = o.latest name) (grows : o.Grows o') :
    o'.Current name version := by
  rw [Current,same]
  exact ⟨current.1,current.2.imp_right grows.outrun⟩

theorem Current.add (current : o.Current other version) (sound : o.Sound) (later : o.latest name ≤ table.documentVersion)
    (artifact : table.artifact.isSome = true ∨ other ≠ name) : (o.add name table).Current other version := by
  have grows := sound.grows later
  refine ⟨current.1.trans (grows.latest other),?_⟩
  rw [latest_add]
  by_cases same : other = name
  · subst same
    rw [if_pos rfl]
    by_cases equal : table.documentVersion = version
    · exact .inl equal
    · refine .inr ⟨table,(sound.mem_add later).mpr (.inr rfl),artifact.resolve_right (· rfl),?_⟩
      have := current.1
      omega
  · rw [if_neg same]
    exact current.2.imp_right grows.outrun

section

variable [Runtime]

/-- The artifact was registered under the version reserved for its name, or one of a later version was. -/
def Taken (o : Objects) (versions : OrderedMap String Nat) (artifact : MissingArtifactPayload) : Prop :=
  ∀ version, versions.get? (normalizedName artifact.name) = some version →
    (normalizedName artifact.name,⟨version,some artifact⟩) ∈ o.registered ∨ o.Outrun (normalizedName artifact.name) version

theorem Taken.grows {versions : OrderedMap String Nat} {artifact : MissingArtifactPayload} (taken : o.Taken versions artifact)
    (grows : Grows o o') : o'.Taken versions artifact :=
  fun version reserved => (taken version reserved).imp (grows.registered _) grows.outrun

def Passed (o : Objects) (versions : OrderedMap String Nat) (artifacts : List MissingArtifactPayload) : Prop :=
  ∀ artifact ∈ artifacts, ∀ version, versions.get? (normalizedName artifact.name) = some version →
    version < o.latest (normalizedName artifact.name)

variable {versions : OrderedMap String Nat} {artifacts front rest : List MissingArtifactPayload}
  {artifact : MissingArtifactPayload}

theorem Passed.append (passed : o.Passed versions front) (rest : List MissingArtifactPayload) :
    applyArtifacts versions (front ++ rest) o = applyArtifacts versions rest o := by
  induction front with
  | nil => rfl
  | cons artifact front ih =>
    obtain ⟨older,passed⟩ := List.forall_mem_cons.mp passed
    rw [List.cons_append,applyArtifacts]
    cases reserved : versions.get? (normalizedName artifact.name) with
    | none => exact ih passed
    | some version => exact (if_pos (older version reserved)).trans (ih passed)

theorem passed_or_cut (o : Objects) (versions : OrderedMap String Nat) (artifacts : List MissingArtifactPayload) :
    o.Passed versions artifacts ∨ ∃ front artifact rest version, artifacts = front ++ artifact :: rest ∧
      o.Passed versions front ∧ versions.get? (normalizedName artifact.name) = some version ∧
      o.latest (normalizedName artifact.name) ≤ version := by
  induction artifacts with
  | nil => exact .inl fun artifact member => absurd member List.not_mem_nil
  | cons artifact artifacts ih =>
    by_cases older : ∀ version, versions.get? (normalizedName artifact.name) = some version →
        version < o.latest (normalizedName artifact.name)
    · rcases ih with passed | ⟨front,next,rest,version,rfl,passed,reserved,recent⟩
      · exact .inl (List.forall_mem_cons.mpr ⟨older,passed⟩)
      · exact .inr ⟨artifact :: front,next,rest,version,rfl,List.forall_mem_cons.mpr ⟨older,passed⟩,reserved,recent⟩
    · obtain ⟨version,found⟩ := not_forall.mp older
      obtain ⟨reserved,recent⟩ := Classical.not_imp.mp found
      refine .inr ⟨[],artifact,artifacts,version,rfl,?_,reserved,Nat.le_of_not_lt recent⟩
      exact fun artifact member => absurd member List.not_mem_nil

theorem applyArtifacts_cases (o : Objects) (versions : OrderedMap String Nat) (artifacts : List MissingArtifactPayload) :
    (o.Passed versions artifacts ∧ applyArtifacts versions artifacts o = (o,none)) ∨
    ∃ front artifact rest version, artifacts = front ++ artifact :: rest ∧ o.Passed versions front ∧
      versions.get? (normalizedName artifact.name) = some version ∧ o.latest (normalizedName artifact.name) ≤ version ∧
      applyArtifacts versions artifacts o = (o.add (normalizedName artifact.name) ⟨version,some artifact⟩,some rest) := by
  rcases o.passed_or_cut versions artifacts with passed | ⟨front,artifact,rest,version,rfl,passed,reserved,recent⟩
  · have over_ := passed.append []
    rw [List.append_nil] at over_
    exact .inl ⟨passed,over_⟩
  · refine .inr ⟨front,artifact,rest,version,rfl,passed,reserved,recent,?_⟩
    rw [passed.append,applyArtifacts,reserved]
    exact if_neg (Nat.not_lt.mpr recent)

theorem Passed.taken (passed : o.Passed versions artifacts) (member : artifact ∈ artifacts)
    (current : ∀ version, versions.get? (normalizedName artifact.name) = some version →
      o.Current (normalizedName artifact.name) version) : o.Taken versions artifact := by
  intro version reserved
  rcases (current version reserved).2 with latest | outrun
  · have := passed artifact member version reserved
    omega
  · exact .inr outrun

/-- What a part of the loop leaves: the artifacts it is done with were taken, and the rest comes next. -/
structure Applied (versions : OrderedMap String Nat) (artifacts : List MissingArtifactPayload) (o o' : Objects)
    (rest : Option (List MissingArtifactPayload)) : Prop where
  sound : o'.Sound
  grows : o.Grows o'
  current : ∀ name version, o.Current name version → o'.Current name version
  keeps : ∀ name, o.NoPlaceholder name → o'.NoPlaceholder name
  taken : (∀ name version, versions.get? name = some version → o.Current name version) →
    ∃ handled, artifacts = handled ++ rest.getD [] ∧ ∀ artifact ∈ handled, o'.Taken versions artifact

theorem Sound.applied (sound : o.Sound) (versions : OrderedMap String Nat) (artifacts : List MissingArtifactPayload) :
    Applied versions artifacts o (applyArtifacts versions artifacts o).1 (applyArtifacts versions artifacts o).2 := by
  rcases o.applyArtifacts_cases versions artifacts with
    ⟨passed,result⟩ | ⟨front,artifact,rest,version,rfl,passed,reserved,recent,result⟩
  · rw [result]
    refine ⟨sound,.refl o,fun _ _ current => current,fun _ artifacts => artifacts,fun current => ?_⟩
    exact ⟨artifacts,(List.append_nil _).symm,fun artifact member => passed.taken member fun version => current _ version⟩
  · rw [result]
    have grows : o.Grows (o.add (normalizedName artifact.name) ⟨version,some artifact⟩) := sound.grows recent
    refine ⟨sound.add recent (.inl rfl),grows,fun name v current => current.add sound recent (.inl rfl),
      fun name artifacts => artifacts.add sound recent (.inl rfl),fun current => ?_⟩
    refine ⟨front ++ [artifact],by simp,fun a member => ?_⟩
    rcases List.mem_append.mp member with earlier | last
    · exact (passed.taken earlier fun v => current _ v).grows grows
    · obtain rfl := List.mem_singleton.mp last
      intro v found
      obtain rfl := Option.some.inj (reserved.symm.trans found)
      exact .inl ((sound.mem_add recent).mpr (.inr rfl))

/-- What a reservation leaves: a version for each object, each the latest one. -/
structure Reserved (identifiers : List IdentifierSpec) (o : Objects) (versions : OrderedMap String Nat) (o' : Objects) :
    Prop where
  tables : o'.tables = o.tables
  registered : o'.registered = o.registered
  rises : ∀ name, o.latest name ≤ o'.latest name
  others : ∀ name, (∀ identifier ∈ identifiers, isSObject identifier = true → normalizedName identifier.name ≠ name) →
    o'.latest name = o.latest name
  version : ∀ name version, versions.get? name = some version → o'.latest name = version ∧
    ∃ identifier ∈ identifiers, isSObject identifier = true ∧ normalizedName identifier.name = name
  complete : ∀ identifier ∈ identifiers, isSObject identifier = true →
    ∃ version, versions.get? (normalizedName identifier.name) = some version

theorem Reserved.pass {identifiers : List IdentifierSpec} {identifier : IdentifierSpec}
    (reserved : Reserved identifiers o versions o') (other : ¬isSObject identifier = true) :
    Reserved (identifiers ++ [identifier]) o versions o' := by
  refine ⟨reserved.tables,reserved.registered,reserved.rises,fun name others => reserved.others name fun i member =>
    others i (List.mem_append_left _ member),fun name version found => ?_,fun i member object => ?_⟩
  · obtain ⟨latest,i,member,named⟩ := reserved.version name version found
    exact ⟨latest,i,List.mem_append_left _ member,named⟩
  · rcases List.mem_append.mp member with earlier | last
    · exact reserved.complete i earlier object
    · exact absurd (List.mem_singleton.mp last ▸ object) other

theorem Reserved.next {identifiers : List IdentifierSpec} {identifier : IdentifierSpec}
    (reserved : Reserved identifiers o versions o') (object : isSObject identifier = true) :
    Reserved (identifiers ++ [identifier]) o
      (versions.set (normalizedName identifier.name) (o'.latest (normalizedName identifier.name) + 1))
      (o'.setLatest (normalizedName identifier.name) (o'.latest (normalizedName identifier.name) + 1)) where
  tables := reserved.tables
  registered := reserved.registered
  rises name := by
    have rises := reserved.rises name
    rw [latest_setLatest]
    split
    · next same =>
      subst same
      omega
    · exact rises
  others name others := by
    rw [latest_setLatest,if_neg (Ne.symm (others identifier (List.mem_concat_self) object))]
    exact reserved.others name fun i member => others i (List.mem_append_left _ member)
  version name version found := by
    rw [OrderedMap.get?_set] at found
    rw [latest_setLatest]
    split at found
    · next same =>
      rw [if_pos same]
      exact ⟨Option.some.inj found,identifier,List.mem_concat_self,object,same.symm⟩
    · next apart =>
      rw [if_neg apart]
      obtain ⟨latest,i,member,named⟩ := reserved.version name version found
      exact ⟨latest,i,List.mem_append_left _ member,named⟩
  complete i member chosen := by
    rw [OrderedMap.get?_set]
    split
    · exact ⟨_,rfl⟩
    · next apart =>
      rcases List.mem_append.mp member with earlier | last
      · exact reserved.complete i earlier chosen
      · exact absurd (congrArg _ (congrArg _ (List.mem_singleton.mp last))) apart

theorem reserved (identifiers : List IdentifierSpec) (o : Objects) :
    Reserved identifiers o (reserveArtifactVersions identifiers o).1 (reserveArtifactVersions identifiers o).2 := by
  unfold reserveArtifactVersions
  induction identifiers using List.reverseRecOn with
  | nil =>
    refine ⟨rfl,rfl,fun _ => Nat.le_refl _,fun _ _ => rfl,fun name version found => ?_,fun identifier member => ?_⟩
    · cases found
    · exact absurd member List.not_mem_nil
  | append_singleton identifiers identifier ih =>
    rw [List.filter_append,List.foldl_append]
    generalize (identifiers.filter isSObject).foldl _ _ = before at ih ⊢
    obtain ⟨versions,o'⟩ := before
    by_cases object : isSObject identifier = true
    · rw [List.filter_cons_of_pos object,List.filter_nil,List.foldl_cons,List.foldl_nil]
      exact ih.next object
    · rw [List.filter_cons_of_neg object,List.filter_nil,List.foldl_nil]
      exact ih.pass object

section

variable {identifiers : List IdentifierSpec} (reserved : Reserved identifiers o versions o')
include reserved

theorem Reserved.sound (sound : o.Sound) :
    o'.Sound where
  bounded name table stored := by
    rw [reserved.tables] at stored
    exact (sound.bounded name table stored).trans (reserved.rises name)
  listed := by
    rw [reserved.tables,reserved.registered]
    exact sound.listed
  kept := by
    rw [reserved.tables,reserved.registered]
    exact sound.kept

theorem Reserved.keeps (artifacts : o.NoPlaceholder name) : o'.NoPlaceholder name := by
  rw [NoPlaceholder,reserved.tables]
  exact artifacts

theorem Reserved.grows : o.Grows o' where
  latest := reserved.rises
  there name there := by
    rw [There,reserved.tables]
    exact there
  registered r member := by
    rw [reserved.registered]
    exact member

end

end

end Objects

def RequestStage.pending : RequestStage → Bool
  | .preparing _ | .asking | .applying _ _ _ => true
  | .settled _ | .done _ => false

def RequestStage.asks : RequestStage → Bool
  | .asking | .applying _ _ _ => true
  | .preparing _ | .settled _ | .done _ => false

def RequestStage.outcome : RequestStage → Option BlockingResult
  | .settled outcome | .done outcome => outcome
  | .preparing _ | .asking | .applying _ _ _ => none

namespace Coordination

variable {s s' : Coordination} {i : Nat} {o : Objects}

structure Placed (s : Coordination) : Prop where
  sound : s.objects.Sound
  entries : ∀ name i, s.placeholderInFlight.get? name = some i →
    ∃ p : Placeholder, s.placeholders[i]? = some p ∧ p.name = name
  inFlight : ∀ (i : Nat) (p : Placeholder), s.placeholders[i]? = some p → (∀ succeeded, p.stage ≠ .settled succeeded) →
    s.placeholderInFlight.get? p.name = some i
  late : ∀ (i : Nat) (p : Placeholder), s.placeholders[i]? = some p → p.stage = .looking none →
    s.objects.NoPlaceholder p.name
  seen : ∀ (i : Nat) (p : Placeholder), s.placeholders[i]? = some p → ∀ table, p.stage = .looking (some table) →
    table.documentVersion ≤ s.objects.latest p.name ∧ s.objects.There p.name
  there : ∀ (i : Nat) (p : Placeholder), s.placeholders[i]? = some p → p.stage = .adding ∨ p.stage = .settled true →
    s.objects.There p.name

def Named (s s' : Coordination) : Prop := ∀ (i : Nat) (p : Placeholder), s.placeholders[i]? = some p →
  ∃ p' : Placeholder, s'.placeholders[i]? = some p' ∧ p'.name = p.name

theorem Named.of_eq (same : s'.placeholders = s.placeholders) : Named s s' :=
  fun _ p here => ⟨p,same ▸ here,rfl⟩

theorem Named.setPlaceholder (s : Coordination) (o : Objects) (i : Nat) (stage : PlaceholderStage) :
    Named s ({ s with objects := o }.setPlaceholder i stage) := by
  intro j p here
  refine ⟨if i = j then { p with stage } else p,?_,?_⟩
  · change (s.placeholders.modify i _)[j]? = _
    rw [List.getElem?_modify,here]
    rfl
  · split <;> rfl

theorem Placed.objects (placed : s.Placed) (sound : s'.objects.Sound) (grows : s.objects.Grows s'.objects)
    (late : ∀ name, s.objects.NoPlaceholder name → s'.objects.NoPlaceholder name)
    (placeholders : s'.placeholders = s.placeholders) (inFlight : s'.placeholderInFlight = s.placeholderInFlight) :
    s'.Placed := by
  refine ⟨sound,?_,?_,?_,?_,?_⟩
  all_goals rw [placeholders]
  · rw [inFlight]
    exact placed.entries
  · rw [inFlight]
    exact placed.inFlight
  · intro i p row stage
    exact late p.name (placed.late i p row stage)
  · intro i p row table stage
    obtain ⟨below,there⟩ := placed.seen i p row table stage
    exact ⟨below.trans (grows.latest p.name),grows.there p.name there⟩
  · intro i p row stage
    exact grows.there p.name (placed.there i p row stage)

theorem Placed.same (placed : s.Placed) (objects : s'.objects = s.objects) (placeholders : s'.placeholders = s.placeholders)
    (inFlight : s'.placeholderInFlight = s.placeholderInFlight) : s'.Placed := by
  refine placed.objects ?_ ?_ ?_ placeholders inFlight
  all_goals rw [objects]
  · exact placed.sound
  · exact .refl _
  · exact fun _ artifacts => artifacts

theorem Placed.moved {p : Placeholder} {stage : PlaceholderStage} (placed : s.Placed) (own : s.placeholders[i]? = some p)
    (unsettled : ∀ succeeded, p.stage ≠ .settled succeeded) (sound : o.Sound) (grows : s.objects.Grows o)
    (late : ∀ name, name ≠ p.name → s.objects.NoPlaceholder name → o.NoPlaceholder name)
    (moved : stage = .adding ∨ stage = .settled true) (there : o.There p.name) :
    ({ s with objects := o }.setPlaceholder i stage).Placed := by
  have inFlight := placed.inFlight i p own unsettled
  -- a row is the moved one, or as it was
  have rows {j : Nat} {q : Placeholder} (row : (s.placeholders.modify i fun p => { p with stage })[j]? = some q) :
      (j = i ∧ q = { p with stage }) ∨ s.placeholders[j]? = some q ∧
        ((∀ succeeded, q.stage ≠ .settled succeeded) → q.name ≠ p.name) := by
    obtain ⟨before,here,rfl⟩ := modify_row_inv row
    by_cases same : i = j
    · subst same
      obtain rfl := Option.some.inj (own.symm.trans here)
      rw [if_pos rfl]
      exact .inl ⟨rfl,rfl⟩
    · rw [if_neg same]
      refine .inr ⟨here,fun going name => same ?_⟩
      have entry := placed.inFlight j before here going
      rw [name] at entry
      exact Option.some.inj (inFlight.symm.trans entry)
  refine ⟨sound,?_,?_,?_,?_,?_⟩
  · intro name j entry
    obtain ⟨q,row,rfl⟩ := placed.entries name j entry
    exact Named.setPlaceholder s o i stage j q row
  · intro j q row going
    rcases rows row with ⟨rfl,rfl⟩ | ⟨row,-⟩
    · exact inFlight
    · exact placed.inFlight j q row going
  · intro j q row looking
    rcases rows row with ⟨rfl,rfl⟩ | ⟨row,apart⟩
    · rcases moved with rfl | rfl <;> cases looking
    · refine late q.name (apart ?_) (placed.late j q row looking)
      intro succeeded settled
      rw [looking] at settled
      cases settled
  · intro j q row table looking
    rcases rows row with ⟨rfl,rfl⟩ | ⟨row,-⟩
    · rcases moved with rfl | rfl <;> cases looking
    · obtain ⟨below,there⟩ := placed.seen j q row table looking
      exact ⟨below.trans (grows.latest q.name),grows.there q.name there⟩
  · intro j q row settled
    rcases rows row with ⟨rfl,rfl⟩ | ⟨row,-⟩
    · exact there
    · exact grows.there q.name (placed.there j q row settled)

/-- What making placeholders leaves: nothing but they changed, and each name has one. -/
structure Ensured (names : List String) (s : Coordination) (p : Coordination × List Nat) : Prop where
  placed : p.1.Placed
  named : Named s p.1
  frame : p.1 = { s with placeholders := p.1.placeholders,placeholderInFlight := p.1.placeholderInFlight }
  waits : ∀ name ∈ names, ∃ i ∈ p.2, ∃ q : Placeholder, p.1.placeholders[i]? = some q ∧ q.name = name

theorem Ensured.append {names names' : List String} {p p' : Coordination × List Nat} (first : Ensured names s p)
    (second : Ensured names' p.1 p') : Ensured (names ++ names') s (p'.1,p.2 ++ p'.2) where
  placed := second.placed
  named i q row := by
    obtain ⟨q',row',kept⟩ := first.named i q row
    obtain ⟨q'',row'',kept'⟩ := second.named i q' row'
    exact ⟨q'',row'',kept'.trans kept⟩
  frame := by
    have frame := second.frame
    rw [first.frame] at frame
    exact frame
  waits name member := by
    rcases List.mem_append.mp member with earlier | later
    · obtain ⟨i,waited,q,row,rfl⟩ := first.waits name earlier
      obtain ⟨q',row',kept⟩ := second.named i q row
      exact ⟨i,List.mem_append_left _ waited,q',row',kept⟩
    · obtain ⟨i,waited,q⟩ := second.waits name later
      exact ⟨i,List.mem_append_right _ waited,q⟩

theorem Placed.push {name : String} {stage : PlaceholderStage} (placed : s.Placed)
    (absent : s.placeholderInFlight.get? name = none)
    (begins : stage = .settled false ∨ stage = .looking (s.objects.tables.get? name)) :
    Placed { s with
      placeholders := s.placeholders ++ [⟨name,stage⟩]
      placeholderInFlight := s.placeholderInFlight.set name s.placeholders.length } := by
  refine ⟨placed.sound,?_,?_,?_,?_,?_⟩
  · intro other i entry
    change (s.placeholderInFlight.set name s.placeholders.length).get? other = some i at entry
    rw [OrderedMap.get?_set] at entry
    split at entry
    · next same =>
      obtain rfl := Option.some.inj entry
      exact ⟨⟨name,stage⟩,concat_row.mpr (.inr ⟨rfl,rfl⟩),same.symm⟩
    · obtain ⟨p,row,rfl⟩ := placed.entries other i entry
      exact ⟨p,concat_row.mpr (.inl row),rfl⟩
  · intro i p row going
    change (s.placeholderInFlight.set name s.placeholders.length).get? p.name = some i
    rcases concat_row.mp row with row | ⟨rfl,rfl⟩
    · have entry := placed.inFlight i p row going
      have apart : p.name ≠ name := by
        rintro rfl
        rw [absent] at entry
        cases entry
      rw [OrderedMap.get?_set_of_ne _ _ apart]
      exact entry
    · exact OrderedMap.get?_set_self ..
  · intro i p row looking
    rcases concat_row.mp row with row | ⟨rfl,rfl⟩
    · exact placed.late i p row looking
    · rcases begins with rfl | rfl
      · cases looking
      · intro table stored
        rw [PlaceholderStage.looking.inj looking] at stored
        cases stored
  · intro i p row table looking
    rcases concat_row.mp row with row | ⟨rfl,rfl⟩
    · exact placed.seen i p row table looking
    · rcases begins with rfl | rfl
      · cases looking
      · have stored := PlaceholderStage.looking.inj looking
        exact ⟨placed.sound.bounded name table stored,table,stored⟩
  · intro i p row settled
    rcases concat_row.mp row with row | ⟨rfl,rfl⟩
    · exact placed.there i p row settled
    · rcases begins with rfl | rfl <;> simp at settled

theorem Placed.leaves (placed : s.Placed) (i : Nat) : (s.placeholderLeaves i).Placed := by
  rw [placeholderLeaves]
  split
  · next name succeeded own =>
    split
    · next entry =>
      refine ⟨placed.sound,fun other j found => ?_,fun j p row going => ?_,placed.late,placed.seen,placed.there⟩
      · rw [OrderedMap.get?_erase] at found
        split at found
        · cases found
        · exact placed.entries other j found
      · have found := placed.inFlight j p row going
        have apart : p.name ≠ name := by
          intro same
          rw [same,entry] at found
          obtain rfl := Option.some.inj found
          obtain rfl := Option.some.inj (own.symm.trans row)
          exact going succeeded rfl
        rw [OrderedMap.get?_erase_of_ne _ apart]
        exact found
    · exact placed
  · exact placed

theorem lookedUp_missing {name : String} (own : s.placeholders[i]? = some ⟨name,.looking none⟩) :
    (s.lookedUp i).objects =
      (s.objects.setLatest name (s.objects.latest name)).add name ⟨s.objects.latest name + 1,none⟩ := by
  rw [Coordination.lookedUp,own]
  have version : max (s.objects.latest name) 0 = s.objects.latest name := Nat.max_zero _
  change Objects.add (s.objects.setLatest name (max (s.objects.latest name) 0)) name
    ⟨max (s.objects.latest name) 0 + 1,none⟩ = _
  rw [version]

theorem settled_of_allSettled {placeholders : List Nat} (settled : s.allSettled placeholders = some true) {p : Placeholder}
    (waited : i ∈ placeholders) (row : s.placeholders[i]? = some p) : p.stage = .settled true := by
  rw [allSettled] at settled
  split at settled
  · cases settled
  · split at settled
    · next every =>
      have stage := every _ (List.mem_map_of_mem waited)
      rw [row] at stage
      exact Option.some.inj stage
    · cases settled

section

variable [Runtime]

theorem Placed.ensurePlaceholder (placed : s.Placed) (name : String) :
    Ensured [normalizedName name] s ((s.ensurePlaceholder name).1,[(s.ensurePlaceholder name).2]) := by
  rw [Coordination.ensurePlaceholder]
  cases found : s.placeholderInFlight.get? (normalizedName name) with
  | some i =>
    refine ⟨placed,.of_eq rfl,rfl,fun name' member => ?_⟩
    obtain rfl := List.mem_singleton.mp member
    exact ⟨i,List.mem_singleton_self i,placed.entries _ i found⟩
  | none =>
    refine ⟨placed.push found (by split <;> simp),fun i p row => ⟨p,concat_row.mpr (.inl row),rfl⟩,rfl,fun name' member => ?_⟩
    obtain rfl := List.mem_singleton.mp member
    exact ⟨_,List.mem_singleton_self _,_,concat_row.mpr (.inr ⟨rfl,rfl⟩),rfl⟩

theorem Placed.ensurePlaceholders (placed : s.Placed) (identifiers : List IdentifierSpec) :
    Ensured ((identifiers.filter isSObject).map fun identifier => normalizedName identifier.name) s
      (s.ensurePlaceholders identifiers) := by
  unfold Coordination.ensurePlaceholders
  induction identifiers.filter isSObject using List.reverseRecOn with
  | nil => exact ⟨placed,.of_eq rfl,rfl,fun _ member => absurd member List.not_mem_nil⟩
  | append_singleton sObjects identifier ih =>
    rw [List.foldl_append,List.map_append]
    exact ih.append (ih.placed.ensurePlaceholder identifier.name)

/-- The enrichment never regresses: a key is in flight once, a described object stays described and by no earlier artifact,
each artifact that was asked for is registered unless a later one was, and only what was not found is negatively cached. -/
structure NeverRegresses (s : Coordination) : Prop where
  single : ∀ (i j : Nat) (r r' : Request), s.requests[i]? = some r → s.requests[j]? = some r' →
    r.stage.pending = true → r'.stage.pending = true →
    ∀ identifier ∈ r.identifiers, ∀ identifier' ∈ r'.identifiers, identifierKey identifier = identifierKey identifier' → i = j
  described : ∀ name table, (name,table) ∈ s.objects.registered → table.artifact.isSome = true →
    ∃ current, s.objects.tables.get? name = some current ∧ current.artifact.isSome = true ∧
      table.documentVersion ≤ current.documentVersion
  registered : ∀ r ∈ s.requests, ∀ artifacts opened, r.stage.outcome = some (.resolved (some artifacts) opened) →
    ∀ artifact ∈ artifacts, ∀ identifier ∈ r.identifiers, isSObject identifier = true →
      normalizedName identifier.name = normalizedName artifact.name →
        ∃ version, r.versions.get? (normalizedName artifact.name) = some version ∧
          ((normalizedName artifact.name,⟨version,some artifact⟩) ∈ s.objects.registered ∨
            s.objects.Outrun (normalizedName artifact.name) version)
  negative : ∀ key ∈ s.notFoundUntilByIdentifier.keys, ∃ r ∈ s.requests, r.stage.outcome = some .notFound ∧
    ∃ identifier ∈ r.identifiers, identifierKey identifier = key

/-- A placeholder whose lookup found no table goes on while there still is none. -/
def Undisturbed (s : Coordination) : Event → Prop
  | .lookedUp i => ∀ name, s.placeholders[i]? = some ⟨name,.looking none⟩ → s.objects.tables.get? name = none
  | _ => True

structure Fits (s : Coordination) (r : Request) : Prop where
  waits : ∀ placeholders, r.stage = .preparing placeholders → ∀ identifier ∈ r.identifiers, isSObject identifier = true →
    ∃ i ∈ placeholders, ∃ p : Placeholder, s.placeholders[i]? = some p ∧ p.name = normalizedName identifier.name
  reserved : r.stage.asks = true → ∀ name version, r.versions.get? name = some version →
    (∃ identifier ∈ r.identifiers, isSObject identifier = true ∧ normalizedName identifier.name = name) ∧
      s.objects.There name ∧ s.objects.Current name version
  complete : r.stage.asks = true ∨ (∃ artifacts opened, r.stage.outcome = some (.resolved (some artifacts) opened)) →
    ∀ identifier ∈ r.identifiers, isSObject identifier = true →
      ∃ version, r.versions.get? (normalizedName identifier.name) = some version
  applying : ∀ outcome artifacts rest, r.stage = .applying outcome artifacts rest →
    (∃ opened, outcome = .resolved (some artifacts) opened) ∧
      ∃ handled, artifacts = handled ++ rest.getD [] ∧ ∀ artifact ∈ handled, s.objects.Taken r.versions artifact
  taken : ∀ artifacts opened, r.stage.outcome = some (.resolved (some artifacts) opened) →
    ∀ artifact ∈ artifacts, s.objects.Taken r.versions artifact

structure Asked (s : Coordination) : Prop where
  live : ∀ (i : Nat) (r : Request), s.requests[i]? = some r → (∀ outcome, r.stage ≠ .done outcome) →
    ∀ identifier ∈ r.identifiers, s.inFlightByIdentifier.get? (identifierKey identifier) = some i
  fits : ∀ r ∈ s.requests, s.Fits r
  negative : ∀ key ∈ s.notFoundUntilByIdentifier.keys, ∃ r ∈ s.requests, r.stage = .done (some .notFound) ∧
    ∃ identifier ∈ r.identifiers, identifierKey identifier = key

structure Coherent (s : Coordination) : Prop extends Placed s,Asked s

theorem Coherent.neverRegresses (coherent : Coherent s) : NeverRegresses s where
  single i j r r' here there pending pending' identifier member identifier' member' same := by
    have unfinished {r : Request} (pending : r.stage.pending = true) : ∀ outcome, r.stage ≠ .done outcome := by
      intro outcome over_
      rw [over_] at pending
      cases pending
    have first := coherent.live i r here (unfinished pending) identifier member
    have second := coherent.live j r' there (unfinished pending') identifier' member'
    rw [same] at first
    exact Option.some.inj (first.symm.trans second)
  described name table member artifact := by
    obtain ⟨current,stored,below,described⟩ := coherent.sound.kept name table member
    exact ⟨current,stored,described artifact,below⟩
  registered r member artifacts opened outcome artifact listed identifier chosen object same := by
    have fits := coherent.fits r member
    obtain ⟨version,reserved⟩ := fits.complete (.inr ⟨artifacts,opened,outcome⟩) identifier chosen object
    rw [same] at reserved
    exact ⟨version,reserved,fits.taken artifacts opened outcome artifact listed version reserved⟩
  negative key cached := by
    obtain ⟨r,member,over_,identifier⟩ := coherent.negative key cached
    exact ⟨r,member,by rw [over_]; rfl,identifier⟩

theorem Fits.mono {r : Request} (fits : s.Fits r) (named : Named s s') (grows : s.objects.Grows s'.objects)
    (current : r.stage.asks = true → ∀ name version, r.versions.get? name = some version → s.objects.There name →
      s.objects.Current name version → s'.objects.Current name version) : s'.Fits r where
  waits placeholders preparing identifier member object := by
    obtain ⟨i,waited,p,here,name⟩ := fits.waits placeholders preparing identifier member object
    obtain ⟨p',here',kept⟩ := named i p here
    exact ⟨i,waited,p',here',kept.trans name⟩
  reserved asks name version found := by
    obtain ⟨owner,there,latest⟩ := fits.reserved asks name version found
    exact ⟨owner,grows.there name there,current asks name version found there latest⟩
  complete := fits.complete
  applying outcome artifacts rest stage := by
    obtain ⟨resolved,handled,parts,taken⟩ := fits.applying outcome artifacts rest stage
    exact ⟨resolved,handled,parts,fun artifact member => (taken artifact member).grows grows⟩
  taken artifacts opened outcome artifact member := (fits.taken artifacts opened outcome artifact member).grows grows

theorem Fits.same {r : Request} (fits : s.Fits r) (objects : s'.objects = s.objects)
    (placeholders : s'.placeholders = s.placeholders) : s'.Fits r := by
  refine fits.mono (.of_eq placeholders) ?_ ?_
  all_goals rw [objects]
  · exact .refl _
  · exact fun _ _ _ _ _ current => current

theorem Asked.mono (asked : s.Asked) (named : Named s s') (grows : s.objects.Grows s'.objects)
    (current : ∀ name version, s.objects.There name → s.objects.Current name version → s'.objects.Current name version)
    (requests : s'.requests = s.requests) (inFlight : s'.inFlightByIdentifier = s.inFlightByIdentifier)
    (cached : s'.notFoundUntilByIdentifier = s.notFoundUntilByIdentifier) : s'.Asked where
  live := by
    rw [requests,inFlight]
    exact asked.live
  fits r member := by
    rw [requests] at member
    exact (asked.fits r member).mono named grows fun _ name version _ => current name version
  negative := by
    rw [requests,cached]
    exact asked.negative

theorem Asked.setRequest {r : Request} {f : Request → Request} (asked : s.Asked) (own : s.requests[i]? = some r)
    (unfinished : ∀ outcome, r.stage ≠ .done outcome) (same : (f r).identifiers = r.identifiers) (fits : s'.Fits (f r))
    (others : ∀ (j : Nat) (r' : Request), s.requests[j]? = some r' → i ≠ j → s'.Fits r')
    (requests : s'.requests = s.requests.modify i f) (inFlight : s'.inFlightByIdentifier = s.inFlightByIdentifier)
    (cached : s'.notFoundUntilByIdentifier = s.notFoundUntilByIdentifier) : s'.Asked where
  live j r' row going := by
    rw [requests] at row
    rw [inFlight]
    obtain ⟨before,there,rfl⟩ := modify_row_inv row
    by_cases moved : i = j
    · subst moved
      obtain rfl := Option.some.inj (own.symm.trans there)
      rw [if_pos rfl,same]
      exact asked.live i r own unfinished
    · rw [if_neg moved] at going ⊢
      exact asked.live j before there going
  fits r' member := by
    rw [requests] at member
    obtain ⟨j,row⟩ := List.mem_iff_getElem?.mp member
    obtain ⟨before,there,rfl⟩ := modify_row_inv row
    by_cases moved : i = j
    · subst moved
      obtain rfl := Option.some.inj (own.symm.trans there)
      rw [if_pos rfl]
      exact fits
    · rw [if_neg moved]
      exact others j before there moved
  negative key member := by
    rw [cached] at member
    rw [requests]
    obtain ⟨over_,listed,stage,owner⟩ := asked.negative key member
    obtain ⟨j,row⟩ := List.mem_iff_getElem?.mp listed
    refine ⟨over_,List.mem_iff_getElem?.mpr ⟨j,?_⟩,stage,owner⟩
    have moved : i ≠ j := by
      rintro rfl
      obtain rfl := Option.some.inj (own.symm.trans row)
      exact unfinished _ stage
    rw [List.getElem?_modify_ne _ _ moved]
    exact row

theorem Coherent.mono (coherent : s.Coherent) (placed : s'.Placed) (named : Named s s') (grows : s.objects.Grows s'.objects)
    (current : ∀ name version, s.objects.There name → s.objects.Current name version → s'.objects.Current name version)
    (requests : s'.requests = s.requests) (inFlight : s'.inFlightByIdentifier = s.inFlightByIdentifier)
    (cached : s'.notFoundUntilByIdentifier = s.notFoundUntilByIdentifier) : s'.Coherent :=
  ⟨placed,coherent.toAsked.mono named grows current requests inFlight cached⟩

theorem Coherent.calls (coherent : s.Coherent) (applications : List Application) (backgrounds : List Background) :
    Coherent { s with applications,backgrounds } :=
  coherent.mono (coherent.toPlaced.same rfl rfl rfl) (.of_eq rfl) (.refl _) (fun _ _ _ current => current) rfl rfl rfl

theorem Coherent.setRequest {r : Request} {f : Request → Request} (coherent : s.Coherent) (own : s.requests[i]? = some r)
    (unfinished : ∀ outcome, r.stage ≠ .done outcome) (same : (f r).identifiers = r.identifiers) (fits : s.Fits (f r)) :
    (s.setRequest i f).Coherent := by
  refine ⟨coherent.toPlaced.same rfl rfl rfl,coherent.toAsked.setRequest own unfinished same (fits.same rfl rfl)
    (fun j r' row _ => ?_) rfl rfl rfl⟩
  exact (coherent.fits r' (List.mem_of_getElem? row)).same rfl rfl

theorem Coherent.lookedUp (coherent : s.Coherent) (undisturbed : s.Undisturbed (.lookedUp i)) : (s.lookedUp i).Coherent := by
  rw [Coordination.lookedUp]
  split
  · next name existing own =>
    have version : max (s.objects.latest name) (existing.elim 0 ObjectTable.documentVersion) = s.objects.latest name := by
      cases existing with
      | none => exact Nat.max_zero _
      | some table => exact Nat.max_eq_left (coherent.seen i _ own table rfl).1
    dsimp only
    rw [version]
    have named := Named.setPlaceholder s
    have same := s.objects.latest_setLatest_same name
    have sound := coherent.sound.setLatest (Nat.le_refl (s.objects.latest name))
    have grows := Objects.Grows.setLatest (Nat.le_refl (s.objects.latest name))
    cases existing with
    | some table =>
      obtain ⟨-,there⟩ := coherent.seen i _ own table rfl
      exact coherent.mono (coherent.toPlaced.moved own nofun sound grows (fun _ _ artifacts => artifacts) (.inr rfl) there)
        (named _ i _) grows (fun other _ _ current => current.same (same other) grows) rfl rfl rfl
    | none =>
      have absent := undisturbed name own
      have later : (s.objects.setLatest name (s.objects.latest name)).latest name ≤
          (⟨s.objects.latest name + 1,none⟩ : ObjectTable).documentVersion := by
        rw [same]
        exact Nat.le_succ _
      have grows' := grows.trans (sound.grows later)
      refine coherent.mono (coherent.toPlaced.moved own nofun (sound.add later (.inr absent)) grows'
        (fun other apart artifacts => ?_) (.inl rfl) ?_) (named _ i _) grows' (fun other v there current => ?_) rfl rfl rfl
      · exact Objects.NoPlaceholder.add artifacts sound later (.inr apart)
      · exact ⟨_,(sound.get?_add later).trans (if_pos rfl)⟩
      · refine (current.same (same other) grows).add sound later (.inr ?_)
        rintro rfl
        obtain ⟨table,stored⟩ := there
        rw [absent] at stored
        cases stored
  · exact coherent

theorem Coherent.placeholderAdded (coherent : s.Coherent) (i : Nat) : (s.placeholderAdded i).Coherent := by
  rw [Coordination.placeholderAdded]
  split
  · next name own =>
    exact coherent.mono (coherent.toPlaced.moved own nofun coherent.sound (.refl _) (fun _ _ artifacts => artifacts) (.inr rfl)
      (coherent.there i _ own (.inl rfl))) (Named.setPlaceholder s s.objects i _) (.refl _) (fun _ _ _ current => current)
      rfl rfl rfl
  · exact coherent

theorem Coherent.placeholderLeaves (coherent : s.Coherent) (i : Nat) : (s.placeholderLeaves i).Coherent := by
  have placed := coherent.toPlaced.leaves i
  have same : s.placeholderLeaves i = { s with placeholderInFlight := (s.placeholderLeaves i).placeholderInFlight } := by
    rw [Coordination.placeholderLeaves]
    split
    · split <;> rfl
    · rfl
  rw [same] at placed ⊢
  exact coherent.mono placed (.of_eq rfl) (.refl _) (fun _ _ _ current => current) rfl rfl rfl

theorem Asked.apart {j : Nat} {r r' : Request} (asked : s.Asked) (own : s.requests[i]? = some r)
    (other : s.requests[j]? = some r') (unfinished : ∀ outcome, r.stage ≠ .done outcome)
    (unfinished' : ∀ outcome, r'.stage ≠ .done outcome) (apart : i ≠ j) {identifier identifier' : IdentifierSpec}
    (member : identifier ∈ r.identifiers) (member' : identifier' ∈ r'.identifiers) (object : isSObject identifier = true)
    (object' : isSObject identifier' = true) : normalizedName identifier.name ≠ normalizedName identifier'.name := by
  intro same
  have key : identifierKey identifier = identifierKey identifier' := by
    have type := of_decide_eq_true object
    have type' := of_decide_eq_true object'
    rw [identifierKey,identifierKey,type,type',same]
  have entry := asked.live i r own unfinished identifier member
  rw [key,asked.live j r' other unfinished' identifier' member'] at entry
  exact apart (Option.some.inj entry).symm

theorem Coherent.prepared (coherent : s.Coherent) (i : Nat) : (s.prepared i).Coherent := by
  rw [Coordination.prepared]
  split
  · next identifiers versions placeholders own =>
    have fits := coherent.fits _ (List.mem_of_getElem? own)
    split
    · exact coherent
    · refine coherent.setRequest own nofun rfl ⟨nofun,nofun,?_,nofun,nofun⟩
      rintro (asks | ⟨_,_,outcome⟩) <;> contradiction
    · next settled =>
      have reserved := Objects.reserved identifiers s.objects
      generalize s.objects.reserveArtifactVersions identifiers = given at reserved ⊢
      obtain ⟨versions',o⟩ := given
      have sound := reserved.sound coherent.sound
      have grows := reserved.grows
      refine ⟨coherent.toPlaced.objects sound grows (fun _ => reserved.keeps) rfl rfl,
        coherent.toAsked.setRequest own nofun rfl ?_ (fun j r' row moved => ?_) rfl rfl rfl⟩
      · refine ⟨nofun,fun _ name version found => ?_,fun _ => reserved.complete,nofun,nofun⟩
        obtain ⟨latest,identifier,member,object,named⟩ := reserved.version name version found
        obtain ⟨k,waited,p,row,known⟩ := fits.waits placeholders rfl identifier member object
        have there := coherent.there k p row (.inr (settled_of_allSettled settled waited row))
        rw [known,named] at there
        exact ⟨⟨identifier,member,object,named⟩,grows.there name there,latest.ge,.inl latest⟩
      · have fits' := coherent.fits r' (List.mem_of_getElem? row)
        refine fits'.mono (.of_eq rfl) grows fun asks name version found there current => ?_
        obtain ⟨⟨identifier',member',object',rfl⟩,-⟩ := fits'.reserved asks name version found
        refine current.same (reserved.others _ fun identifier member object => ?_) grows
        refine coherent.toAsked.apart own row nofun (fun outcome over_ => ?_) moved member member' object object'
        rw [over_] at asks
        cases asks
  · exact coherent

theorem Coherent.applyNext {r : Request} {artifacts handled rest : List MissingArtifactPayload} (coherent : s.Coherent)
    (own : s.requests[i]? = some r) (asks : r.stage.asks = true) (opened : Option (List String))
    (parts : artifacts = handled ++ rest) (taken : ∀ artifact ∈ handled, s.objects.Taken r.versions artifact) :
    (s.applyNext i r.versions (.resolved (some artifacts) opened) artifacts rest).Coherent := by
  have fits := coherent.fits r (List.mem_of_getElem? own)
  have applied := coherent.sound.applied r.versions rest
  rw [Coordination.applyNext]
  generalize Objects.applyArtifacts r.versions rest s.objects = made at applied ⊢
  obtain ⟨o,left⟩ := made
  refine ⟨coherent.toPlaced.objects applied.sound applied.grows applied.keeps rfl rfl,
    coherent.toAsked.setRequest own (fun outcome over_ => ?_) rfl ?_ (fun j r' row moved => ?_) rfl rfl rfl⟩
  · rw [over_] at asks
    cases asks
  · refine ⟨nofun,fun _ name version found => ?_,fun _ => fits.complete (.inl asks),?_,nofun⟩
    · obtain ⟨owner,there,current⟩ := fits.reserved asks name version found
      exact ⟨owner,applied.grows.there name there,applied.current name version current⟩
    · rintro _ _ _ ⟨⟩
      obtain ⟨handled',parts',taken'⟩ := applied.taken fun name version found => (fits.reserved asks name version found).2.2
      refine ⟨⟨opened,rfl⟩,handled ++ handled',?_,fun artifact member => ?_⟩
      · rw [parts,parts',List.append_assoc]
      · rcases List.mem_append.mp member with earlier | now
        · exact (taken artifact earlier).grows applied.grows
        · exact taken' artifact now
  · exact (coherent.fits r' (List.mem_of_getElem? row)).mono (.of_eq rfl) applied.grows
      fun _ name version _ _ current => applied.current name version current

section

variable (coherent : s.Coherent)
include coherent

theorem Coherent.answered (i : Nat) (outcome : Option BlockingResult) :
    (s.answered i outcome).Coherent := by
  rw [Coordination.answered]
  split
  · next identifiers versions own =>
    have fits := coherent.fits _ (List.mem_of_getElem? own)
    split
    · next artifacts opened =>
      exact coherent.applyNext own rfl opened rfl fun artifact member => absurd member List.not_mem_nil
    · next outcome other =>
      refine coherent.setRequest own nofun rfl
        ⟨nofun,nofun,?_,nofun,fun artifacts opened found => absurd found (other artifacts opened)⟩
      rintro (asks | ⟨artifacts,opened,found⟩)
      · cases asks
      · exact absurd found (other artifacts opened)
  · exact coherent

theorem Coherent.artifactAdded (i : Nat) : (s.artifactAdded i).Coherent := by
  rw [Coordination.artifactAdded]
  split
  · next identifiers versions outcome artifacts rest own =>
    obtain ⟨⟨opened,rfl⟩,handled,parts,taken⟩ := (coherent.fits _ (List.mem_of_getElem? own)).applying _ _ _ rfl
    exact coherent.applyNext own rfl opened parts taken
  · next identifiers versions outcome artifacts own =>
    have fits := coherent.fits _ (List.mem_of_getElem? own)
    obtain ⟨⟨opened,rfl⟩,handled,parts,taken⟩ := fits.applying _ _ _ rfl
    refine coherent.setRequest own nofun rfl ⟨nofun,nofun,fun _ => fits.complete (.inl rfl),nofun,?_⟩
    rintro _ _ ⟨⟩ artifact member
    rw [parts,Option.getD_none,List.append_nil] at member
    exact taken artifact member
  · exact coherent

theorem Coherent.applied (versions : OrderedMap String Nat) (artifacts : List MissingArtifactPayload) :
    Coherent { s with objects := (Objects.applyArtifacts versions artifacts s.objects).1 } := by
  have applied := coherent.sound.applied versions artifacts
  exact coherent.mono (coherent.toPlaced.objects applied.sound applied.grows applied.keeps rfl rfl) (.of_eq rfl)
    applied.grows (fun name version _ => applied.current name version) rfl rfl rfl

theorem Coherent.applicationGoesOn (i : Nat) : (s.applicationGoesOn i).Coherent := by
  rw [Coordination.applicationGoesOn]
  split
  · exact (coherent.applied _ _).calls _ _
  · exact coherent

theorem Coherent.purged {cached : OrderedMap String Nat}
    (fewer : ∀ key ∈ cached.keys, key ∈ s.notFoundUntilByIdentifier.keys) :
    Coherent { s with notFoundUntilByIdentifier := cached } :=
  ⟨coherent.toPlaced.same rfl rfl rfl,coherent.live,fun r member => (coherent.fits r member).same rfl rfl,
    fun key member => coherent.negative key (fewer key member)⟩

theorem Coherent.begins {fresh : List IdentifierSpec} {p : Coordination × List Nat}
    (ensured : Ensured ((fresh.filter isSObject).map fun identifier => normalizedName identifier.name) s p)
    (free : ∀ identifier ∈ fresh, s.inFlightByIdentifier.get? (identifierKey identifier) = none) :
    Coherent { p.1 with
      requests := p.1.requests ++ [{ identifiers := fresh,stage := .preparing p.2 }]
      inFlightByIdentifier := fresh.foldl (fun inFlight identifier =>
        inFlight.set (identifierKey identifier) p.1.requests.length) p.1.inFlightByIdentifier } := by
  obtain ⟨placed,named,frame,waits⟩ := ensured
  obtain ⟨s',placeholders⟩ := p
  have keys (m : OrderedMap String Nat) : fresh.foldl (fun inFlight identifier =>
      inFlight.set (identifierKey identifier) s.requests.length) m =
      (fresh.map identifierKey).foldl (fun inFlight key => inFlight.set key s.requests.length) m := by rw [List.foldl_map]
  have objects : s'.objects = s.objects := congrArg (·.objects) frame
  have requests : s'.requests = s.requests := congrArg (·.requests) frame
  have inFlight : s'.inFlightByIdentifier = s.inFlightByIdentifier := congrArg (·.inFlightByIdentifier) frame
  have cached : s'.notFoundUntilByIdentifier = s.notFoundUntilByIdentifier := congrArg (·.notFoundUntilByIdentifier) frame
  have grows : s.objects.Grows s'.objects := by
    rw [objects]
    exact .refl _
  refine ⟨placed.same rfl rfl rfl,fun j r row going identifier member => ?_,fun r member => ?_,fun key member => ?_⟩
  · dsimp only at row ⊢
    rw [requests] at row
    rw [requests,inFlight,keys,OrderedMap.get?_foldl_set]
    rcases concat_row.mp row with row | ⟨rfl,rfl⟩
    · have entry := coherent.live j r row going identifier member
      rw [if_neg ?_]
      · exact entry
      · intro again
        obtain ⟨identifier',asked,same⟩ := List.mem_map.mp again
        rw [← same,free identifier' asked] at entry
        cases entry
    · rw [if_pos (List.mem_map_of_mem member)]
  · dsimp only at member
    rw [requests] at member
    rcases List.mem_append.mp member with earlier | new
    · refine (coherent.fits r earlier).mono named grows fun _ name version _ _ current => ?_
      dsimp only
      rw [objects]
      exact current
    · obtain rfl := List.mem_singleton.mp new
      refine ⟨?_,nofun,by rintro (asks | ⟨_,_,outcome⟩) <;> contradiction,nofun,nofun⟩
      rintro _ ⟨⟩ identifier asked object
      exact waits _ (List.mem_map.mpr ⟨identifier,List.mem_filter.mpr ⟨asked,object⟩,rfl⟩)
  · dsimp only at member ⊢
    rw [cached] at member
    obtain ⟨r,earlier,over_⟩ := coherent.negative key member
    rw [requests]
    exact ⟨r,List.mem_append_left _ earlier,over_⟩

theorem Coherent.resolveBlocking (identifiers : List IdentifierSpec) (now : Nat) :
    (s.resolveBlocking identifiers now).Coherent := by
  have purged : Coherent { s with notFoundUntilByIdentifier := s.notFoundUntilByIdentifier.filterMap fun _ expiresAt =>
      if expiresAt ≤ now then none else some expiresAt } := by
    refine coherent.purged fun key member => ?_
    obtain ⟨expiresAt,found⟩ := OrderedMap.mem_keys_iff.mp member
    rw [OrderedMap.get?_filterMap] at found
    obtain ⟨before,stored,-⟩ := Option.bind_eq_some_iff.mp found
    exact OrderedMap.mem_keys_iff.mpr ⟨before,stored⟩
  rw [Coordination.resolveBlocking]
  dsimp only
  generalize filtered : (normalizeParams identifiers).filter _ = fresh
  split
  · exact purged
  · refine purged.begins (purged.toPlaced.ensurePlaceholders fresh) fun identifier member => ?_
    rw [← filtered] at member
    have kept := (List.mem_filter.mp member).2
    rw [Bool.and_eq_true] at kept
    exact Option.isNone_iff_eq_none.mp kept.2

end

omit [Runtime] in
theorem entry_kept {m : OrderedMap String Nat} {keys : List String} {key : String} {i j : Nat} (entry : m.get? key = some j)
    (apart : i ≠ j) : (keys.foldl (fun m key => if m.get? key = some i then m.erase key else m) m).get? key = some j := by
  induction keys generalizing m with
  | nil => exact entry
  | cons first keys ih =>
    rw [List.foldl_cons]
    refine ih ?_
    split
    · next own =>
      rw [OrderedMap.get?_erase_of_ne]
      · exact entry
      · rintro rfl
        exact apart (Option.some.inj (own.symm.trans entry))
    · exact entry

theorem Coherent.requestLeaves (coherent : s.Coherent) (i now : Nat) : (s.requestLeaves i now).Coherent := by
  rw [Coordination.requestLeaves]
  split
  · next identifiers versions outcome own =>
    have fits := coherent.fits _ (List.mem_of_getElem? own)
    refine ⟨coherent.toPlaced.same rfl rfl rfl,fun j r row going identifier member => ?_,fun r member => ?_,
      fun key member => ?_⟩
    · obtain ⟨before,here,rfl⟩ := modify_row_inv row
      by_cases moved : i = j
      · rw [if_pos moved] at going
        exact absurd rfl (going outcome)
      · rw [if_neg moved] at going member
        exact entry_kept (coherent.live j before here going identifier member) moved
    · obtain ⟨j,row⟩ := List.mem_iff_getElem?.mp member
      obtain ⟨before,here,rfl⟩ := modify_row_inv row
      by_cases moved : i = j
      · subst moved
        obtain rfl := Option.some.inj (own.symm.trans here)
        rw [if_pos rfl]
        refine ⟨nofun,nofun,?_,nofun,fits.taken⟩
        rintro (asks | found)
        · cases asks
        · exact fits.complete (.inr found)
      · rw [if_neg moved]
        exact (coherent.fits before (List.mem_of_getElem? here)).same rfl rfl
    · have kept (key : String) (member : key ∈ s.notFoundUntilByIdentifier.keys) :
          ∃ r ∈ s.requests.modify i fun r => { r with stage := .done outcome }, r.stage = .done (some .notFound) ∧
            ∃ identifier ∈ r.identifiers, identifierKey identifier = key := by
        obtain ⟨r,listed,stage,owner⟩ := coherent.negative key member
        obtain ⟨j,row⟩ := List.mem_iff_getElem?.mp listed
        refine ⟨r,List.mem_of_getElem? (i := j) ?_,stage,owner⟩
        have moved : i ≠ j := by
          rintro rfl
          obtain rfl := Option.some.inj (own.symm.trans row)
          cases stage
        rw [List.getElem?_modify_ne _ _ moved]
        exact row
      dsimp only at member
      split at member
      · obtain ⟨until_,found⟩ := OrderedMap.mem_keys_iff.mp member
        replace found := (OrderedMap.get?_foldl_set ..).symm.trans found
        split at found
        · next asked =>
          obtain ⟨identifier,listed,rfl⟩ := List.mem_map.mp asked
          exact ⟨_,List.mem_of_getElem? (modify_row own),rfl,identifier,listed,rfl⟩
        · exact kept key (OrderedMap.mem_keys_iff.mpr ⟨until_,found⟩)
      · obtain ⟨until_,found⟩ := OrderedMap.mem_keys_iff.mp member
        replace found := (OrderedMap.get?_foldl_erase ..).symm.trans found
        split at found
        · cases found
        · exact kept key (OrderedMap.mem_keys_iff.mpr ⟨until_,found⟩)
      · exact kept key member
  · exact coherent

theorem Coherent.prepareBackground (coherent : s.Coherent) (sObjects : List IdentifierSpec) :
    (s.prepareBackground sObjects).1.Coherent := by
  rw [Coordination.prepareBackground]
  split
  · exact coherent
  · obtain ⟨placed,named,frame,-⟩ := coherent.toPlaced.ensurePlaceholders sObjects
    have objects : (s.ensurePlaceholders sObjects).1.objects = s.objects := by rw [frame]
    refine coherent.mono placed named ?_ (fun name version _ current => ?_) (by rw [frame]) (by rw [frame]) (by rw [frame])
    · dsimp only
      rw [objects]
      exact .refl _
    · dsimp only
      rw [objects]
      exact current

theorem Coherent.resolveInBackground (coherent : s.Coherent) (identifiers : List IdentifierSpec) :
    (s.resolveInBackground identifiers).Coherent := by
  rw [Coordination.resolveInBackground]
  dsimp only
  split
  · exact coherent.calls _ _
  · exact (coherent.prepareBackground _).calls _ _

theorem Coherent.forwarded (coherent : s.Coherent) (i : Nat) (succeeded : Bool) : (s.forwarded i succeeded).Coherent := by
  rw [Coordination.forwarded]
  split
  · cases succeeded with
    | true => exact (coherent.prepareBackground _).calls _ _
    | false => exact coherent.calls _ _
  · exact coherent

theorem Coherent.backgroundPrepared (coherent : s.Coherent) (i now : Nat) : (s.backgroundPrepared i now).Coherent := by
  rw [Coordination.backgroundPrepared]
  split
  · split
    · exact coherent
    · dsimp only
      split
      · exact (coherent.calls _ _).resolveBlocking _ now
      · exact coherent.calls _ _
  · exact coherent

theorem Coherent.start : Coherent {} := by
  exact ⟨⟨⟨nofun,nofun,nofun⟩,nofun,nofun,nofun,nofun,nofun⟩,⟨nofun,nofun,nofun⟩⟩

theorem Coherent.step {event : Event} (coherent : s.Coherent) (undisturbed : s.Undisturbed event) : (s.step event).Coherent := by
  cases event with
  | resolveBlocking identifiers now => exact coherent.resolveBlocking identifiers now
  | resolveInBackground identifiers => exact coherent.resolveInBackground identifiers
  | applyArtifacts artifacts versions => exact (coherent.applied versions artifacts).calls _ _
  | lookedUp placeholder => exact coherent.lookedUp undisturbed
  | placeholderAdded placeholder => exact coherent.placeholderAdded placeholder
  | placeholderLeaves placeholder => exact coherent.placeholderLeaves placeholder
  | prepared request => exact coherent.prepared request
  | answered request outcome => exact coherent.answered request outcome
  | artifactAdded request => exact coherent.artifactAdded request
  | requestLeaves request now => exact coherent.requestLeaves request now
  | applicationGoesOn application => exact coherent.applicationGoesOn application
  | forwarded background succeeded => exact coherent.forwarded background succeeded
  | backgroundPrepared background now => exact coherent.backgroundPrepared background now

theorem Coherent.undisturbed {event : Event} (coherent : s.Coherent) (after : (s.step event).NeverRegresses) :
    s.Undisturbed event := by
  cases event with
  | lookedUp i =>
    intro name own
    refine Option.eq_none_iff_forall_ne_some.mpr fun table stored => ?_
    have sound := coherent.sound.setLatest (Nat.le_refl (s.objects.latest name))
    have later : (s.objects.setLatest name (s.objects.latest name)).latest name ≤
        (⟨s.objects.latest name + 1,none⟩ : ObjectTable).documentVersion := by
      rw [Objects.latest_setLatest_same]
      exact Nat.le_succ _
    have artifact := coherent.late i _ own rfl table stored
    have member := (sound.mem_add later).mpr (.inl (coherent.sound.listed name table stored))
    rw [← lookedUp_missing own] at member
    obtain ⟨current,found,described,-⟩ := after.described name table member artifact
    change (s.lookedUp i).objects.tables.get? name = some current at found
    rw [lookedUp_missing own,sound.get?_add later,if_pos rfl] at found
    obtain rfl := Option.some.inj found
    cases described
  | _ => trivial

/-- Along a run the enrichment never regresses if and only if every placeholder is undisturbed. -/
theorem neverRegresses_iff (events : List Event) :
    EveryState Coordination.step NeverRegresses {} events ↔ EveryStep Coordination.step Undisturbed {} events := by
  apply everyState_iff_everyStep (A := Coherent)
  · exact fun s event coherent _ undisturbed => coherent.step undisturbed
  · exact fun s event coherent _ => ⟨coherent.undisturbed,fun undisturbed => (coherent.step undisturbed).neverRegresses⟩
  · exact .start
  · exact Coherent.start.neverRegresses

end

end Coordination

/-- A description arrives while a placeholder waits for the lookup of its object. -/
theorem placeholder_over_artifact :
    ¬EveryState (@Coordination.step asciiRuntime) (@Coordination.NeverRegresses asciiRuntime) {}
      [.resolveInBackground [{ name := "Account",identifierType := some .sobject }],
        .applyArtifacts [⟨"Account","Account"⟩] (OrderedMap.empty.set "account" 1),.lookedUp 0] := by
  intro always
  let _ := asciiRuntime
  have never : Coordination.NeverRegresses _ := always.last
  obtain ⟨current,stored,described,-⟩ := never.described "account" ⟨1,some ⟨"Account","Account"⟩⟩ (by decide +kernel) rfl
  have placeholder : current = ⟨2,none⟩ := Option.some.inj (stored.symm.trans (by decide +kernel))
  rw [placeholder] at described
  cases described

end ApexLs.Services.SObjects
