import ApexLs.Services.GlobalTypeRegistry
import ApexLs.Utils.AsciiBytes

/-! When the indexes and the counters of the type registry agree with its entries. -/
namespace ApexLs.Services.GlobalTypeRegistry

open ApexLs.Collections ApexLs.Types ApexLs.Utils

section

variable [Runtime]

def Files (r : GlobalTypeRegistry) (fileUri fqn : String) : Prop := Lists r.fileIndex.get? fileUri fqn

def Named (name : String) (entry : TypeRegistryEntry) : Prop :=
  if '.' ∈ name.toList then toLowerCase entry.fqn = toLowerCase name else toLowerCase entry.name = toLowerCase name

structure Coherent (r : GlobalTypeRegistry) : Prop where
  names : ∀ name fqn, fqn ∈ r.namesOf name ↔
    ∃ e, r.fqnIndex.lookup fqn = some e ∧ toLowerCase e.name = toLowerCase name
  files : ∀ fileUri fqn, r.Files fileUri fqn ↔ ∃ e, r.fqnIndex.lookup fqn = some e ∧ e.fileUri = fileUri
  total : r.stats.totalTypes = r.stats.stdlibTypes + r.stats.userTypes
  counted : r.stats.totalTypes = r.fqnIndex.size
  unregisters : ∀ fileUri, (r.unregisterByFileUri fileUri).1.Perm (r.current.filter (·.fileUri = fileUri)) ∧
    ∀ fqn, (r.unregisterByFileUri fileUri).2.fqnIndex.lookup fqn =
      (r.fqnIndex.lookup fqn).filter (·.fileUri ≠ fileUri)
  resolves : ∀ name options, (r.resolveType name options).1 = none ↔ ¬ ∃ e ∈ r.current, Named name e

def Fresh (r : GlobalTypeRegistry) (entry : TypeRegistryEntry) : Prop := r.fqnIndex.get entry.fqn = none

def RegistersFresh (r : GlobalTypeRegistry) : RegistryEvent → Prop
  | .registerType entry => r.Fresh entry
  | .registerTypes entries => EveryStep registerType Fresh r entries
  | _ => True

structure Indexed (r : GlobalTypeRegistry) : Prop where
  keyed : ∀ fqn e, r.fqnIndex.lookup fqn = some e → toLowerCase e.fqn = fqn
  names : ∀ name fqn, fqn ∈ r.namesOf name ↔
    ∃ e, r.fqnIndex.lookup fqn = some e ∧ toLowerCase e.name = toLowerCase name
  files : Mirrors (fun fqn e => r.fqnIndex.lookup fqn = some e) TypeRegistryEntry.fileUri r.fileIndex.get?
  total : r.stats.totalTypes = r.stats.stdlibTypes + r.stats.userTypes
  counted : r.stats.totalTypes = r.fqnIndex.size

variable {r : GlobalTypeRegistry}

theorem mem_current : e ∈ r.current ↔ ∃ fqn, r.fqnIndex.lookup fqn = some e := by
  constructor
  · intro member
    obtain ⟨p,inside,rfl⟩ := List.mem_map.mp member
    exact ⟨p.1,by rw [CaseInsensitiveMap.lookup,OrderedMap.get?_eq_some_iff.mpr inside,Option.map_some]⟩
  · rintro ⟨fqn,found⟩
    obtain ⟨p,got,rfl⟩ := Option.map_eq_some_iff.mp found
    exact List.mem_map.mpr ⟨(fqn,p),OrderedMap.get?_eq_some_iff.mp got,rfl⟩

theorem lower_of_lookup (found : r.fqnIndex.lookup fqn = some e) : toLowerCase fqn = fqn := by
  obtain ⟨p,got,-⟩ := Option.map_eq_some_iff.mp found
  have spelled := r.fqnIndex.spelled fqn p.1 p.2 got
  rw [← spelled,lower_lower]

theorem get_of_lookup (found : r.fqnIndex.lookup fqn = some e) : r.fqnIndex.get fqn = some e := by
  rw [CaseInsensitiveMap.get,lower_of_lookup found,found]

theorem Indexed.names_get (indexed : Indexed r) (member : fqn ∈ r.namesOf name) :
    ∃ e, r.fqnIndex.get fqn = some e ∧ toLowerCase e.name = toLowerCase name := by
  obtain ⟨e,found,named⟩ := (indexed.names name fqn).mp member
  exact ⟨e,get_of_lookup found,named⟩

theorem Indexed.preferred (indexed : Indexed r) (some_ : r.namesOf name ≠ []) (order : List String) :
    (r.preferred name (r.namesOf name) order).isSome := by
  unfold GlobalTypeRegistry.preferred
  split
  next qualifiedName found =>
    have member : qualifiedName ∈ r.namesOf name := by simpa using List.find?_some found
    obtain ⟨e,got,-⟩ := indexed.names_get member
    rw [got]
    rfl
  next =>
    obtain ⟨first,rest,listed⟩ := List.exists_cons_of_ne_nil some_
    obtain ⟨e,got,-⟩ := indexed.names_get (listed ▸ List.mem_cons_self : first ∈ r.namesOf name)
    rw [listed,List.head?_cons,Option.bind_some,got]
    rfl

theorem Indexed.resolved_isSome (indexed : Indexed r) (plain : '.' ∉ name.toList) (options : TypeResolutionOptions) :
    (r.resolved name options).isSome ↔ r.namesOf name ≠ [] := by
  rw [GlobalTypeRegistry.resolved,if_neg plain]
  dsimp only
  split
  next none_ => simp [none_]
  next fqn one =>
    obtain ⟨e,got,-⟩ := indexed.names_get (one ▸ List.mem_cons_self : fqn ∈ r.namesOf name)
    simp [got,one]
  next none_ _ => exact iff_of_true (indexed.preferred none_ _) none_

theorem Indexed.resolves (indexed : Indexed r) (name : String) (options : TypeResolutionOptions) :
    (r.resolveType name options).1 = none ↔ ¬ ∃ e ∈ r.current, Named name e := by
  have answer : (r.resolveType name options).1 = r.resolved name options := rfl
  rw [answer,← not_iff_not,not_not,← ne_eq,← Option.isSome_iff_ne_none]
  by_cases dotted : '.' ∈ name.toList
  · rw [GlobalTypeRegistry.resolved,if_pos dotted]
    simp only [Named,if_pos dotted,CaseInsensitiveMap.get,lower_lower]
    constructor
    · intro got
      obtain ⟨e,found⟩ := Option.isSome_iff_exists.mp got
      exact ⟨e,mem_current.mpr ⟨_,found⟩,indexed.keyed _ e found⟩
    · rintro ⟨e,member,same⟩
      obtain ⟨fqn,found⟩ := mem_current.mp member
      rw [← same,indexed.keyed fqn e found,found]
      rfl
  · rw [indexed.resolved_isSome dotted options]
    simp only [Named,if_neg dotted]
    constructor
    · intro some_
      obtain ⟨first,rest,listed⟩ := List.exists_cons_of_ne_nil some_
      obtain ⟨e,found,named⟩ := (indexed.names name first).mp (listed ▸ List.mem_cons_self)
      exact ⟨e,mem_current.mpr ⟨first,found⟩,named⟩
    · rintro ⟨e,member,named⟩
      obtain ⟨fqn,found⟩ := mem_current.mp member
      exact List.ne_nil_of_mem ((indexed.names name fqn).mpr ⟨e,found,named⟩)

theorem lookup_registerType (r : GlobalTypeRegistry) (entry : TypeRegistryEntry) (fqn : String) :
    (r.registerType entry).fqnIndex.lookup fqn =
      if fqn = toLowerCase entry.fqn then some entry else r.fqnIndex.lookup fqn := by
  rw [registerType,CaseInsensitiveMap.lookup_set,lower_lower]

theorem namesOf_congr (same : toLowerCase name = toLowerCase name') : r.namesOf name = r.namesOf name' := by
  rw [namesOf,namesOf,CaseInsensitiveMap.get,CaseInsensitiveMap.get,same]

theorem mem_namesOf_registerType {entry : TypeRegistryEntry} : fqn ∈ (r.registerType entry).namesOf name ↔
    fqn ∈ r.namesOf name ∨ toLowerCase name = toLowerCase entry.name ∧ fqn = toLowerCase entry.fqn := by
  rw [namesOf,registerType]
  dsimp only
  split
  next listed =>
    refine (or_iff_left_of_imp ?_).symm
    rintro ⟨same,rfl⟩
    have moved : r.namesOf name = r.namesOf entry.name := namesOf_congr same
    rw [← moved] at listed
    exact listed
  next =>
    rw [CaseInsensitiveMap.get_set]
    split
    next same => simp [namesOf_congr same,same]
    next apart => simp [apart,namesOf]

theorem Indexed.registerType (indexed : Indexed r) (fresh : r.Fresh entry) : Indexed (r.registerType entry) where
  keyed fqn e found := by
    rw [lookup_registerType] at found
    split at found
    next same =>
      obtain rfl := Option.some.inj found
      exact same.symm
    next => exact indexed.keyed fqn e found
  names name fqn := by
    rw [mem_namesOf_registerType,lookup_registerType,indexed.names]
    have absent : r.fqnIndex.lookup (toLowerCase entry.fqn) = none := fresh
    by_cases same : fqn = toLowerCase entry.fqn
    · subst same
      simp [absent,eq_comm]
    · simp [same]
  files := by
    refine indexed.files.insert (fun fqn e => ?_) fun fileUri => OrderedMap.get?_set _ _ _ _
    rw [lookup_registerType]
    have absent : r.fqnIndex.lookup (toLowerCase entry.fqn) = none := fresh
    by_cases same : fqn = toLowerCase entry.fqn
    · subst same
      simp [absent,eq_comm]
    · simp [same]
  total := by
    have total := indexed.total
    simp only [GlobalTypeRegistry.registerType,RegistryCounters.count]
    split <;> omega
  counted := by
    have absent : r.fqnIndex.get (toLowerCase entry.fqn) = none := by
      rw [CaseInsensitiveMap.get,lower_lower]
      exact fresh
    have counted := indexed.counted
    simp only [GlobalTypeRegistry.registerType,RegistryCounters.count,CaseInsensitiveMap.size_set_fresh absent]
    omega

theorem unregisterType_absent (absent : r.fqnIndex.lookup (toLowerCase fqn) = none) : r.unregisterType fqn = r := by
  rw [unregisterType]
  simp only [CaseInsensitiveMap.get,lower_lower,absent]

section

variable {entry : TypeRegistryEntry} (found : r.fqnIndex.lookup (toLowerCase fqn) = some entry)

include found

theorem lookup_unregisterType (k : String) : (r.unregisterType fqn).fqnIndex.lookup k =
    if k = toLowerCase fqn then none else r.fqnIndex.lookup k := by
  rw [unregisterType]
  simp only [CaseInsensitiveMap.get,lower_lower,found,CaseInsensitiveMap.lookup_delete]

theorem mem_namesOf_unregisterType : k ∈ (r.unregisterType fqn).namesOf name ↔
    k ∈ r.namesOf name ∧ ¬ (toLowerCase name = toLowerCase entry.name ∧ k = toLowerCase fqn) := by
  rw [namesOf,unregisterType]
  simp only [CaseInsensitiveMap.get,lower_lower,found]
  by_cases same : toLowerCase name = toLowerCase entry.name
  · have filtered : (((if ((r.namesOf entry.name).filter (· ≠ toLowerCase fqn)).length > 0 then
        r.nameIndex.set entry.name ((r.namesOf entry.name).filter (· ≠ toLowerCase fqn))
        else r.nameIndex.delete entry.name).lookup (toLowerCase name)).getD []) =
          (r.namesOf name).filter (· ≠ toLowerCase fqn) := by
      rw [namesOf_congr same]
      split
      next => rw [CaseInsensitiveMap.lookup_set,if_pos same,Option.getD_some]
      next none_ =>
        rw [CaseInsensitiveMap.lookup_delete,if_pos same,Option.getD_none]
        exact (List.length_eq_zero_iff.mp (Nat.eq_zero_of_not_pos none_)).symm
    rw [filtered]
    simp [same]
  · have kept : (if ((r.namesOf entry.name).filter (· ≠ toLowerCase fqn)).length > 0 then
        r.nameIndex.set entry.name ((r.namesOf entry.name).filter (· ≠ toLowerCase fqn))
        else r.nameIndex.delete entry.name).lookup (toLowerCase name) = r.nameIndex.lookup (toLowerCase name) := by
      split
      next => rw [CaseInsensitiveMap.lookup_set,if_neg same]
      next => rw [CaseInsensitiveMap.lookup_delete,if_neg same]
    rw [kept]
    simp [same,namesOf,CaseInsensitiveMap.get]

end

theorem Indexed.unregisterType (indexed : Indexed r) (fqn : String) : Indexed (r.unregisterType fqn) := by
  cases found : r.fqnIndex.lookup (toLowerCase fqn) with
  | none =>
    rw [unregisterType_absent found]
    exact indexed
  | some entry =>
    have stored (k : String) (e : TypeRegistryEntry) : (r.unregisterType fqn).fqnIndex.lookup k = some e ↔
        r.fqnIndex.lookup k = some e ∧ k ≠ toLowerCase fqn := by
      rw [lookup_unregisterType found]
      split
      next same => simp [same]
      next apart => simp [apart]
    have got : r.fqnIndex.get (toLowerCase fqn) = some entry := get_of_lookup found
    refine ⟨fun k e there => indexed.keyed k e ((stored k e).mp there).1,fun name k => ?_,?_,?_,?_⟩
    · rw [mem_namesOf_unregisterType found,indexed.names]
      simp only [stored]
      constructor
      · rintro ⟨⟨e,there,named⟩,other⟩
        refine ⟨e,⟨there,?_⟩,named⟩
        rintro rfl
        obtain rfl := Option.some.inj (found.symm.trans there)
        exact other ⟨named.symm,rfl⟩
      · rintro ⟨e,⟨there,apart⟩,named⟩
        exact ⟨⟨e,there,named⟩,fun both => apart both.2⟩
    · refine indexed.files.remove stored (fun e there => ?_) found fun fileUri => ?_
      · exact Option.some.inj (there.symm.trans found)
      · simp only [GlobalTypeRegistry.unregisterType,got]
        split
        next emptied => rw [OrderedMap.get?_erase,emptied]
        next fqns left => rw [OrderedMap.get?_set,left]
    · have total := indexed.total
      simp only [GlobalTypeRegistry.unregisterType,got,RegistryCounters.count]
      split <;> omega
    · have counted := indexed.counted
      have there : r.fqnIndex.entries.get? (toLowerCase fqn) ≠ none := by
        intro none_
        simp [CaseInsensitiveMap.lookup,none_] at found
      obtain ⟨p,there⟩ := Option.ne_none_iff_exists'.mp there
      have size := OrderedMap.size_erase there
      simp only [GlobalTypeRegistry.unregisterType,got,RegistryCounters.count,CaseInsensitiveMap.size,
        CaseInsensitiveMap.delete,lower_lower]
      simp only [CaseInsensitiveMap.size] at counted
      omega

theorem Indexed.takeOut_all (indexed : Indexed r) {fqns : List String} (once : fqns.Nodup)
    (listed : ∀ fqn ∈ fqns, (r.fqnIndex.lookup fqn).isSome) (taken : List TypeRegistryEntry) :
    (fqns.foldl takeOut (taken,r)).2.Indexed ∧
      (fqns.foldl takeOut (taken,r)).1 = taken ++ fqns.filterMap r.fqnIndex.lookup ∧
      ∀ k, (fqns.foldl takeOut (taken,r)).2.fqnIndex.lookup k =
        if k ∈ fqns then none else r.fqnIndex.lookup k := by
  induction fqns generalizing r taken with
  | nil => simp [indexed]
  | cons fqn fqns ih =>
    obtain ⟨new,once⟩ := List.nodup_cons.mp once
    obtain ⟨e,found⟩ := Option.isSome_iff_exists.mp (listed fqn List.mem_cons_self)
    have lower := lower_of_lookup found
    have lookup (k : String) : (r.unregisterType fqn).fqnIndex.lookup k =
        if k = fqn then none else r.fqnIndex.lookup k := by
      rw [lookup_unregisterType (lower.symm ▸ found),lower]
    have others : ∀ k ∈ fqns, (r.unregisterType fqn).fqnIndex.lookup k = r.fqnIndex.lookup k := by
      intro k member
      have apart : k ≠ fqn := fun same => new (same ▸ member)
      rw [lookup,if_neg apart]
    obtain ⟨kept,removed,left⟩ := ih (indexed.unregisterType fqn) once
      (fun k member => others k member ▸ listed k (List.mem_cons_of_mem _ member)) (taken ++ [e])
    have first : takeOut (taken,r) fqn = (taken ++ [e],r.unregisterType fqn) := by
      simp only [takeOut,get_of_lookup found]
    rw [List.foldl_cons,first]
    refine ⟨kept,?_,fun k => ?_⟩
    · rw [removed,List.filterMap_cons_some found,List.filterMap_congr others,List.append_assoc]
      rfl
    · rw [left,lookup]
      by_cases inside : k ∈ fqns
      · simp [inside]
      · by_cases same : k = fqn
        · simp [same]
        · simp [same,inside]

theorem Indexed.current_nodup (indexed : Indexed r) : r.current.Nodup := by
  have keys : r.current.map (fun e => toLowerCase e.fqn) = r.fqnIndex.entries.keys := by
    rw [current,List.map_map,OrderedMap.keys]
    apply List.map_congr_left
    intro p member
    refine indexed.keyed p.1 p.2.2 ?_
    rw [CaseInsensitiveMap.lookup,OrderedMap.get?_eq_some_iff.mpr member,Option.map_some]
  exact List.Nodup.of_map _ (keys ▸ r.fqnIndex.entries.keys_nodup)

theorem Indexed.unregisterByFileUri (indexed : Indexed r) (fileUri : String) :
    (r.unregisterByFileUri fileUri).2.Indexed ∧
    (r.unregisterByFileUri fileUri).1.Perm (r.current.filter (·.fileUri = fileUri)) ∧
    ∀ fqn, (r.unregisterByFileUri fileUri).2.fqnIndex.lookup fqn =
      (r.fqnIndex.lookup fqn).filter (·.fileUri ≠ fileUri) := by
  have filed := indexed.files.lists fileUri
  unfold GlobalTypeRegistry.unregisterByFileUri
  split
  next none_ =>
    have apart : ∀ fqn e, r.fqnIndex.lookup fqn = some e → e.fileUri ≠ fileUri := by
      intro fqn e found same
      obtain ⟨fqns,got,-⟩ := (filed fqn).mpr ⟨e,found,same⟩
      rw [none_] at got
      cases got
    refine ⟨indexed,?_,fun fqn => ?_⟩
    · rw [List.filter_eq_nil_iff.mpr]
      intro e member
      obtain ⟨fqn,found⟩ := mem_current.mp member
      simpa using apart fqn e found
    · cases found : r.fqnIndex.lookup fqn with
      | none => rfl
      | some e => simp [Option.filter_some,apart fqn e found]
  next fqns got =>
    have listed (fqn : String) : fqn ∈ fqns.elements ↔
        ∃ e, r.fqnIndex.lookup fqn = some e ∧ e.fileUri = fileUri := by
      rw [← filed]
      constructor
      · exact fun member => ⟨fqns,got,member⟩
      · rintro ⟨fqns',got',member⟩
        obtain rfl := Option.some.inj (got.symm.trans got')
        exact member
    have known : ∀ fqn ∈ fqns.elements, (r.fqnIndex.lookup fqn).isSome := by
      intro fqn member
      obtain ⟨e,found,-⟩ := (listed fqn).mp member
      rw [found]
      rfl
    obtain ⟨kept,removed,left⟩ := indexed.takeOut_all fqns.unique known []
    refine ⟨kept,?_,fun fqn => ?_⟩
    · rw [removed,List.nil_append]
      have once : (fqns.elements.filterMap r.fqnIndex.lookup).Nodup := by
        refine fqns.unique.filterMap fun fqn fqn' e found found' => ?_
        rw [← indexed.keyed fqn e found,indexed.keyed fqn' e found']
      refine (List.perm_ext_iff_of_nodup once (indexed.current_nodup.filter _)).mpr fun e => ?_
      rw [List.mem_filterMap,List.mem_filter,mem_current]
      constructor
      · rintro ⟨fqn,member,found⟩
        obtain ⟨e',found',same⟩ := (listed fqn).mp member
        obtain rfl := Option.some.inj (found.symm.trans found')
        exact ⟨⟨fqn,found⟩,decide_eq_true same⟩
      · rintro ⟨⟨fqn,found⟩,same⟩
        exact ⟨fqn,(listed fqn).mpr ⟨e,found,of_decide_eq_true same⟩,found⟩
    · rw [left]
      split
      next member =>
        obtain ⟨e,found,same⟩ := (listed fqn).mp member
        simp [found,Option.filter_some,same]
      next other =>
        cases found : r.fqnIndex.lookup fqn with
        | none => rfl
        | some e =>
          have apart : e.fileUri ≠ fileUri := fun same => other ((listed fqn).mpr ⟨e,found,same⟩)
          simp [Option.filter_some,apart]

theorem Indexed.coherent (indexed : Indexed r) : Coherent r where
  names := indexed.names
  files := indexed.files.lists
  total := indexed.total
  counted := indexed.counted
  unregisters fileUri := (indexed.unregisterByFileUri fileUri).2
  resolves := indexed.resolves

def excess (r : GlobalTypeRegistry) : Int := r.stats.totalTypes - r.fqnIndex.size

instance (r : GlobalTypeRegistry) (entry : TypeRegistryEntry) : Decidable (r.Fresh entry) :=
  inferInstanceAs (Decidable (_ = none))

theorem registerType_excess (r : GlobalTypeRegistry) (entry : TypeRegistryEntry) :
    (r.registerType entry).excess = r.excess + if r.Fresh entry then 0 else 1 := by
  have sizes : (r.registerType entry).fqnIndex.size =
      if r.Fresh entry then r.fqnIndex.size + 1 else r.fqnIndex.size := by
    have known : r.fqnIndex.entries.has (toLowerCase entry.fqn) = true ↔ ¬ r.Fresh entry := by
      rw [OrderedMap.has,Option.isSome_iff_ne_none,Fresh,CaseInsensitiveMap.get,CaseInsensitiveMap.lookup,ne_eq,
        Option.map_eq_none_iff]
    rw [registerType,CaseInsensitiveMap.size,CaseInsensitiveMap.set,OrderedMap.size_set,lower_lower]
    by_cases fresh : r.Fresh entry
    · rw [if_pos fresh,if_neg fun has => known.mp has fresh]
      rfl
    · rw [if_neg fresh,if_pos (known.mpr fresh)]
      rfl
  have counted : (r.registerType entry).stats.totalTypes = r.stats.totalTypes + 1 := rfl
  rw [excess,excess,sizes,counted]
  split <;> omega

theorem registerTypes_excess (r : GlobalTypeRegistry) (entries : List TypeRegistryEntry) :
    r.excess ≤ (r.registerTypes entries).excess ∧
      ((r.registerTypes entries).excess = r.excess ↔ EveryStep registerType Fresh r entries) := by
  induction entries generalizing r with
  | nil => exact ⟨le_rfl,iff_of_true rfl trivial⟩
  | cons entry entries ih =>
    obtain ⟨more,exact_⟩ := ih (r.registerType entry)
    have first := registerType_excess r entry
    have rest : r.registerTypes (entry :: entries) = (r.registerType entry).registerTypes entries := rfl
    rw [rest,EveryStep,← exact_]
    by_cases fresh : r.Fresh entry
    · rw [if_pos fresh] at first
      exact ⟨by omega,by simp [fresh,first]⟩
    · rw [if_neg fresh] at first
      refine ⟨by omega,iff_of_false (by omega) fun both => fresh both.1⟩

theorem Indexed.registerTypes (indexed : Indexed r) {entries : List TypeRegistryEntry}
    (fresh : EveryStep GlobalTypeRegistry.registerType Fresh r entries) : Indexed (r.registerTypes entries) := by
  induction entries generalizing r with
  | nil => exact indexed
  | cons entry entries ih => exact ih (indexed.registerType fresh.1) fresh.2

theorem start_indexed : Indexed start where
  keyed fqn e found := by simp [start] at found
  names name fqn := by simp [start,namesOf]
  files := .empty _ (by simp [start]) fun fileUri => rfl
  total := rfl
  counted := rfl

theorem Indexed.step (indexed : Indexed r) (fresh : r.RegistersFresh event) : Indexed (r.step event) := by
  cases event with
  | registerType entry => exact indexed.registerType fresh
  | registerTypes entries => exact indexed.registerTypes fresh
  | unregisterType fqn => exact indexed.unregisterType fqn
  | unregisterByFileUri fileUri => exact (indexed.unregisterByFileUri fileUri).1
  | resolveType name options => exact ⟨indexed.keyed,indexed.names,indexed.files,indexed.total,indexed.counted⟩
  | clear => exact start_indexed

theorem Indexed.step_coherent_iff (indexed : Indexed r) (event : RegistryEvent) :
    Coherent (r.step event) ↔ r.RegistersFresh event := by
  constructor
  · intro coherent
    have before : r.excess = 0 := sub_eq_zero.mpr indexed.counted
    have after : (r.step event).excess = 0 := sub_eq_zero.mpr coherent.counted
    cases event with
    | registerType entry =>
      have grown := registerType_excess r entry
      by_contra again
      change ¬ r.Fresh entry at again
      have grew : (r.step (.registerType entry)).excess = r.excess + 1 := by
        rw [if_neg again] at grown
        exact grown
      omega
    | registerTypes entries => exact (registerTypes_excess r entries).2.mp (after.trans before.symm)
    | unregisterType _ | unregisterByFileUri _ | resolveType _ _ | clear => trivial
  · exact fun fresh => (indexed.step fresh).coherent

/-- The registry is coherent all along a run if and only if the run registers no full name that has an entry. -/
theorem registry_coherent_iff (events : List RegistryEvent) :
    EveryState step Coherent start events ↔ EveryStep step RegistersFresh start events := by
  apply everyState_iff_everyStep (A := Indexed)
  · exact fun r event indexed _ fresh => indexed.step fresh
  · exact fun r event indexed _ => indexed.step_coherent_iff event
  · exact start_indexed
  · exact start_indexed.coherent

end

/-- `public class Account {}` as a user type. -/
def accountType : TypeRegistryEntry where
  fqn := "account"
  name := "Account"
  namespace_ := ""
  kind := .class_
  symbolId := "Account"
  fileUri := "file:///Account.cls"
  isStdlib := false

/-- A file parsed again is counted again. -/
theorem type_counted_twice :
    ¬ EveryState (@step asciiRuntime) (@Coherent asciiRuntime) (@start asciiRuntime)
      [.registerType accountType,.registerType accountType] := by
  intro always
  let Counts (_ : Runtime) :=
    let r := run step start [.registerType accountType,.registerType accountType]
    r.stats.totalTypes = 2 ∧ r.fqnIndex.size = 1
  obtain ⟨two,one⟩ : Counts asciiRuntime := of_byteRuntime Counts (by decide +kernel)
  have counted := @Coherent.counted asciiRuntime _ always.last
  rw [two,one] at counted
  exact absurd counted (by decide)

end ApexLs.Services.GlobalTypeRegistry
