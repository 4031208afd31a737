import ApexLs.Collections.OrderedMap
import ApexLs.Utils.AsciiBytes

/-! The case-insensitive map as the two hash maps that the class keeps in step. -/
namespace ApexLs.Utils

open ApexLs.Collections

/-- The entries of the base class, and the spellings under the lower-cased keys. They are not there yet while the constructor
of the base class runs. -/
structure CaseInsensitiveHashMap (H : Type → Type) (ν : Type) where
  base : H ν
  originalKeys : Option (H String)

/-- The entries that it yields. Arrays and maps restart for every loop, iterators do not. -/
structure Iterable (ν : Type) where
  entries : List (String × ν)
  restarts : Bool
  deriving Repr

inductive MapCall (ν : Type) where
  | set (key : String) (value : ν)
  | get (key : String)
  | has (key : String)
  | delete (key : String)
  | clear
  deriving Repr

/-- A map over lower-cased keys, which keeps the spelling of the first write. -/
abbrev ReferenceMap (ν : Type) := String → Option (String × ν)

namespace ReferenceMap

variable [Runtime] {ν : Type}

def set (r : ReferenceMap ν) (key : String) (value : ν) : ReferenceMap ν :=
  Function.update r (toLowerCase key) (some (((r (toLowerCase key)).map Prod.fst).getD key,value))

def delete (r : ReferenceMap ν) (key : String) : ReferenceMap ν := Function.update r (toLowerCase key) none

def build (entries : List (String × ν)) : ReferenceMap ν := entries.foldl (fun r entry => r.set entry.1 entry.2) fun _ => none

def step (r : ReferenceMap ν) : MapCall ν → ReferenceMap ν
  | .set key value => r.set key value
  | .get _ | .has _ => r
  | .delete key => r.delete key
  | .clear => fun _ => none

end ReferenceMap

namespace CaseInsensitiveHashMap

variable {H : Type → Type} [HashMaps H] [Runtime] {ν : Type}

def getNoObjKey (key : String) : String := toLowerCase key

def touch (originalKeys : H String) (key : String) : H String :=
  if HashMaps.has originalKeys (toLowerCase key) then originalKeys else HashMaps.set originalKeys (toLowerCase key) key

def set (m : CaseInsensitiveHashMap H ν) (key : String) (value : ν) : CaseInsensitiveHashMap H ν where
  base := HashMaps.set m.base (getNoObjKey (toLowerCase key)) value
  originalKeys := some (touch (m.originalKeys.getD HashMaps.new) key)

def get (m : CaseInsensitiveHashMap H ν) (key : String) : Option ν := HashMaps.get m.base (getNoObjKey (toLowerCase key))

def has (m : CaseInsensitiveHashMap H ν) (key : String) : Bool := HashMaps.has m.base (getNoObjKey (toLowerCase key))

def delete (m : CaseInsensitiveHashMap H ν) (key : String) : CaseInsensitiveHashMap H ν × Bool :=
  let (base,deleted) := HashMaps.delete m.base (getNoObjKey (toLowerCase key))
  (⟨base,if deleted then m.originalKeys.map fun o => (HashMaps.delete o (toLowerCase key)).1 else m.originalKeys⟩,deleted)

def keys (m : CaseInsensitiveHashMap H ν) : List String := (m.originalKeys.map HashMaps.values).getD []

def entries (m : CaseInsensitiveHashMap H ν) : List (String × ν) :=
  ((m.originalKeys.map HashMaps.entries).getD []).filterMap fun entry =>
    (HashMaps.get m.base (getNoObjKey entry.1)).map fun value => (entry.2,value)

def clear (m : CaseInsensitiveHashMap H ν) : CaseInsensitiveHashMap H ν where
  originalKeys := m.originalKeys.map HashMaps.clear
  base := HashMaps.clear m.base

/-- The base class goes through the entries before the spellings are initialised, which then go through them again. -/
def construct (entryOrRawElements : Iterable ν) : CaseInsensitiveHashMap H ν where
  base := (entryOrRawElements.entries.foldl (fun m entry => m.set entry.1 entry.2)
    (⟨HashMaps.new,none⟩ : CaseInsensitiveHashMap H ν)).base
  originalKeys := some ((if entryOrRawElements.restarts then entryOrRawElements.entries else []).foldl
    (fun o entry => touch o entry.1) HashMaps.new)

def step (m : CaseInsensitiveHashMap H ν) : MapCall ν → CaseInsensitiveHashMap H ν
  | .set key value => m.set key value
  | .get _ | .has _ => m
  | .delete key => (m.delete key).1
  | .clear => m.clear

structure Refines (m : CaseInsensitiveHashMap H ν) (r : ReferenceMap ν) : Prop where
  get : ∀ key, m.get key = (r (toLowerCase key)).map Prod.snd
  has : ∀ key, m.has key = (r (toLowerCase key)).isSome
  delete : ∀ key, (m.delete key).2 = (r (toLowerCase key)).isSome
  keys : ∀ original, original ∈ m.keys ↔ ∃ v, r (toLowerCase original) = some (original,v)
  entries : ∀ original v, (original,v) ∈ m.entries ↔ r (toLowerCase original) = some (original,v)
  keys_once : (m.keys.map toLowerCase).Nodup
  entries_once : (m.entries.map fun entry => toLowerCase entry.1).Nodup

def Projects {α : Type} (f : String × ν → α) (m : H α) (r : ReferenceMap ν) : Prop := ∀ k, HashMaps.get m k = (r k).map f

/-- Both maps are in step with the reference map, which has lower-cased keys only. -/
structure InStep (m : CaseInsensitiveHashMap H ν) (r : ReferenceMap ν) : Prop where
  base : Projects Prod.snd m.base r
  originalKeys : ∃ o, m.originalKeys = some o ∧ Projects Prod.fst o r
  lower : ∀ k original v, r k = some (original,v) → toLowerCase original = k

variable {m : CaseInsensitiveHashMap H ν} {r : ReferenceMap ν} {α : Type} {f : String × ν → α} {store : H α}

omit [Runtime] in
theorem Projects.new : Projects f (HashMaps.new : H α) fun _ => none := fun k => HashMaps.get_new k

omit [Runtime] in
theorem Projects.clear : Projects f (HashMaps.clear store) fun _ => none := fun k => HashMaps.get_clear store k

theorem Projects.delete (projects : Projects f store r) (key : String) :
    Projects f (HashMaps.delete store (toLowerCase key)).1 (r.delete key) := by
  intro k
  rw [HashMaps.get_delete,ReferenceMap.delete,Function.update_apply]
  split
  · rfl
  · exact projects k

theorem Projects.set {base : H ν} (projects : Projects Prod.snd base r) (key : String) (value : ν) :
    Projects Prod.snd (HashMaps.set base (getNoObjKey (toLowerCase key)) value) (r.set key value) := by
  intro k
  rw [getNoObjKey,lower_lower,HashMaps.get_set,ReferenceMap.set,Function.update_apply]
  split
  · rfl
  · exact projects k

theorem Projects.touch {originalKeys : H String} (projects : Projects Prod.fst originalKeys r) (key : String) (value : ν) :
    Projects Prod.fst (touch originalKeys key) (r.set key value) := by
  intro k
  have known := projects (toLowerCase key)
  rw [CaseInsensitiveHashMap.touch,HashMaps.has,known,ReferenceMap.set,Function.update_apply]
  cases held : r (toLowerCase key) with
  | none =>
    rw [Option.map_none,Option.isSome_none,if_neg Bool.false_ne_true,HashMaps.get_set]
    split
    · rfl
    · exact projects k
  | some entry =>
    rw [Option.map_some,Option.isSome_some,if_pos rfl,projects k]
    split
    next same => rw [same,held]; rfl
    next => rfl

theorem lower_set (lower : ∀ k original v, r k = some (original,v) → toLowerCase original = k) (key : String) (value : ν)
    (k original : String) (v : ν) (held : r.set key value k = some (original,v)) : toLowerCase original = k := by
  rw [ReferenceMap.set,Function.update_apply] at held
  split at held
  next same =>
    obtain ⟨rfl,-⟩ := Prod.mk.inj (Option.some.inj held)
    cases known : r (toLowerCase key) with
    | none => exact same.symm
    | some entry => exact (lower _ entry.1 entry.2 known).trans same.symm
  next => exact lower k original v held

theorem InStep.step (inStep : InStep m r) (call : MapCall ν) : InStep (m.step call) (r.step call) := by
  obtain ⟨base,⟨o,present,spelled⟩,lower⟩ := inStep
  cases call with
  | set key value =>
    refine ⟨base.set key value,⟨_,rfl,?_⟩,lower_set lower key value⟩
    rw [present]
    exact spelled.touch key value
  | get | has => exact ⟨base,⟨o,present,spelled⟩,lower⟩
  | delete key =>
    have base' := base.delete key
    have lower' (k original : String) (v : ν) (held : r.delete key k = some (original,v)) : toLowerCase original = k := by
      rw [ReferenceMap.delete,Function.update_apply] at held
      split at held
      · cases held
      · exact lower k original v held
    rw [CaseInsensitiveHashMap.step,CaseInsensitiveHashMap.delete,getNoObjKey,lower_lower]
    refine ⟨base',?_,lower'⟩
    dsimp only
    split
    next => exact ⟨_,congrArg (Option.map _) present,spelled.delete key⟩
    next absent =>
      -- nothing was there to be deleted, so the spellings stay as they are
      refine ⟨o,present,fun k => ?_⟩
      rw [HashMaps.deleted,base,Option.isSome_map,Bool.not_eq_true,Option.isSome_eq_false_iff,Option.isNone_iff_eq_none] at absent
      rw [spelled k,ReferenceMap.step,ReferenceMap.delete,Function.update_apply]
      split
      next same => rw [same,absent]
      next => rfl
  | clear =>
    refine ⟨Projects.clear,⟨_,congrArg (Option.map _) present,Projects.clear⟩,fun _ _ _ held => ?_⟩
    exact absurd held (Option.some_ne_none _).symm

theorem InStep.run (inStep : InStep m r) (calls : List (MapCall ν)) :
    InStep (calls.foldl CaseInsensitiveHashMap.step m) (calls.foldl ReferenceMap.step r) := by
  induction calls generalizing m r with
  | nil => exact inStep
  | cons call calls ih => exact ih (inStep.step call)

theorem Projects.foldl_set (projects : Projects Prod.snd m.base r) (entries : List (String × ν)) :
    Projects Prod.snd (entries.foldl (fun m entry => m.set entry.1 entry.2) m).base
      (entries.foldl (fun r entry => r.set entry.1 entry.2) r) := by
  induction entries generalizing m r with
  | nil => exact projects
  | cons entry entries ih => exact ih (m := m.set entry.1 entry.2) (projects.set entry.1 entry.2)

theorem Projects.foldl_touch {o : H String} (projects : Projects Prod.fst o r) (entries : List (String × ν)) :
    Projects Prod.fst (entries.foldl (fun o entry => CaseInsensitiveHashMap.touch o entry.1) o)
      (entries.foldl (fun r entry => r.set entry.1 entry.2) r) := by
  induction entries generalizing o r with
  | nil => exact projects
  | cons entry entries ih => exact ih (projects.touch entry.1 entry.2)

theorem lower_foldl (lower : ∀ k original v, r k = some (original,v) → toLowerCase original = k)
    (entries : List (String × ν)) (k original : String) (v : ν)
    (held : entries.foldl (fun r entry => r.set entry.1 entry.2) r k = some (original,v)) : toLowerCase original = k := by
  induction entries generalizing r with
  | nil => exact lower k original v held
  | cons entry entries ih => exact ih (lower_set lower entry.1 entry.2) held

theorem construct_inStep {entryOrRawElements : Iterable ν}
    (again : entryOrRawElements.restarts = true ∨ entryOrRawElements.entries = []) :
    InStep (construct entryOrRawElements : CaseInsensitiveHashMap H ν) (.build entryOrRawElements.entries) := by
  refine ⟨Projects.foldl_set (m := ⟨HashMaps.new,none⟩) Projects.new _,⟨_,rfl,?_⟩,?_⟩
  · have passes : (if entryOrRawElements.restarts then entryOrRawElements.entries else []) = entryOrRawElements.entries := by
      split
      · rfl
      next once => exact (again.resolve_left once).symm
    rw [passes]
    exact Projects.foldl_touch Projects.new _
  · exact lower_foldl (fun _ _ _ held => absurd held (Option.some_ne_none _).symm) _

omit [Runtime] in
theorem map_filterMap_sublist {α β κ : Type} {g : α → Option β} {f : α → κ} {h : β → κ} {l : List α}
    (same : ∀ a ∈ l, ∀ b, g a = some b → h b = f a) : List.Sublist ((l.filterMap g).map h) (l.map f) := by
  induction l with
  | nil => exact List.Sublist.slnil
  | cons a l ih =>
    have rest := ih fun a' member => same a' (.tail _ member)
    cases kept : g a with
    | none =>
      rw [List.filterMap_cons_none kept]
      exact rest.cons _
    | some b =>
      rw [List.filterMap_cons_some kept,List.map_cons,List.map_cons,same a (.head _) b kept]
      exact rest.cons_cons _

theorem InStep.refines (inStep : InStep m r) : Refines m r := by
  obtain ⟨base,⟨o,present,spelled⟩,lower⟩ := inStep
  have got (key : String) : m.get key = (r (toLowerCase key)).map Prod.snd := by
    rw [CaseInsensitiveHashMap.get,getNoObjKey,lower_lower,base]
  have held (k original : String) : (k,original) ∈ HashMaps.entries o ↔ ∃ v, r k = some (original,v) := by
    rw [HashMaps.mem_entries,spelled,Option.map_eq_some_iff]
    exact ⟨fun ⟨⟨_,v⟩,known,same⟩ => ⟨v,known.trans (congrArg (fun s => some (s,v)) same)⟩,fun ⟨v,known⟩ => ⟨_,known,rfl⟩⟩
  have spelling (e : String × String) (member : e ∈ HashMaps.entries o) : toLowerCase e.2 = e.1 := by
    obtain ⟨v,known⟩ := (held e.1 e.2).mp member
    exact lower _ _ v known
  have keys : m.keys = HashMaps.values o := by rw [CaseInsensitiveHashMap.keys,present]; rfl
  have entries : m.entries = (HashMaps.entries o).filterMap fun e =>
      (HashMaps.get m.base (getNoObjKey e.1)).map fun value => (e.2,value) := by
    rw [CaseInsensitiveHashMap.entries,present]
    rfl
  refine ⟨got,fun key => ?_,fun key => ?_,fun original => ?_,fun original v => ?_,?_,?_⟩
  · rw [CaseInsensitiveHashMap.has,HashMaps.has,getNoObjKey,lower_lower,base,Option.isSome_map]
  · rw [CaseInsensitiveHashMap.delete,HashMaps.deleted,getNoObjKey,lower_lower,base,Option.isSome_map]
  · rw [keys,HashMaps.values,List.mem_map]
    constructor
    · rintro ⟨⟨k,_⟩,member,rfl⟩
      exact spelling _ member ▸ (held k _).mp member
    · exact fun known => ⟨_,(held _ original).mpr known,rfl⟩
  · rw [entries,List.mem_filterMap]
    constructor
    · rintro ⟨⟨k,spelled'⟩,member,found⟩
      obtain ⟨value,known,same⟩ := Option.map_eq_some_iff.mp found
      obtain ⟨rfl,rfl⟩ := Prod.mk.inj same
      have lowered : toLowerCase spelled' = k := spelling _ member
      obtain ⟨v,whole⟩ := (held k _).mp member
      rw [getNoObjKey,← lowered,lower_lower,base,lowered,whole] at known
      rw [lowered,whole]
      exact congrArg (fun v => some (spelled',v)) (Option.some.inj known)
    · intro known
      refine ⟨(toLowerCase original,original),(held _ _).mpr ⟨v,known⟩,?_⟩
      rw [getNoObjKey,lower_lower,base,known]
      rfl
  · have lowered : (HashMaps.entries o).map (toLowerCase ∘ Prod.snd) = (HashMaps.entries o).map Prod.fst :=
      List.map_congr_left spelling
    rw [keys,HashMaps.values,List.map_map,lowered]
    exact HashMaps.keys_nodup o
  · rw [entries]
    refine (map_filterMap_sublist (f := Prod.fst) fun e member entry found => ?_).nodup (HashMaps.keys_nodup o)
    obtain ⟨value,-,rfl⟩ := Option.map_eq_some_iff.mp found
    exact spelling e member

theorem build_ne_none {entries : List (String × ν)} (some_ : entries ≠ []) :
    ∃ k original v, ReferenceMap.build entries k = some (original,v) := by
  have keeps (key : String) (entries : List (String × ν)) (r : ReferenceMap ν) (known : r key ≠ none) :
      entries.foldl (fun r entry => r.set entry.1 entry.2) r key ≠ none := by
    induction entries generalizing r with
    | nil => exact known
    | cons entry entries ih =>
      refine ih (r.set entry.1 entry.2) ?_
      by_cases same : key = toLowerCase entry.1
      · rw [same,ReferenceMap.set,Function.update_self]
        exact Option.some_ne_none _
      · rw [ReferenceMap.set,Function.update_of_ne same]
        exact known
  cases entries with
  | nil => exact absurd rfl some_
  | cons entry entries =>
    have first : ReferenceMap.set (fun _ => none) entry.1 entry.2 (toLowerCase entry.1) ≠ none := by
      rw [ReferenceMap.set,Function.update_self]
      exact Option.some_ne_none _
    obtain ⟨held,known⟩ := Option.ne_none_iff_exists'.mp (keeps _ entries _ first)
    exact ⟨_,held.1,held.2,known⟩

def RefinesThroughout (H : Type → Type) [HashMaps H] (entryOrRawElements : Iterable ν) : Prop :=
  ∀ calls : List (MapCall ν), Refines (calls.foldl step (construct entryOrRawElements : CaseInsensitiveHashMap H ν))
    (calls.foldl ReferenceMap.step (.build entryOrRawElements.entries))

/-- The map refines the reference map if and only if it was not constructed from an iterator that has entries. -/
theorem refinesThroughout_iff (H : Type → Type) [HashMaps H] (entryOrRawElements : Iterable ν) :
    RefinesThroughout H entryOrRawElements ↔ entryOrRawElements.restarts = true ∨ entryOrRawElements.entries = [] := by
  constructor
  · intro refines
    by_contra once
    obtain ⟨single,some_⟩ := not_or.mp once
    obtain ⟨k,original,v,known⟩ := build_ne_none some_
    have lowered : toLowerCase original = k :=
      lower_foldl (fun _ _ _ held => absurd held (Option.some_ne_none _).symm) _ k original v known
    have listed := ((refines []).keys original).mpr ⟨v,lowered ▸ known⟩
    -- no spelling was kept
    rw [List.foldl_nil,CaseInsensitiveHashMap.keys,construct,if_neg single,Option.map_some,Option.getD_some,List.foldl_nil,
      HashMaps.values,List.mem_map] at listed
    obtain ⟨⟨k,original⟩,member,-⟩ := listed
    rw [HashMaps.mem_entries,HashMaps.get_new] at member
    cases member
  · exact fun again calls => ((construct_inStep again).run calls).refines

end CaseInsensitiveHashMap

open CaseInsensitiveHashMap in
/-- A copy made from the entries of another map, which are an iterator, lists no keys. -/
theorem copied_keys_missed : ¬ @RefinesThroughout asciiRuntime Nat (OrderedMap String) _ ⟨[("Account",1)],false⟩ := by
  intro refines
  have listed := (@Refines.keys _ _ asciiRuntime _ _ _ (refines []) "Account").mpr ⟨1,by decide +kernel⟩
  exact absurd listed (by decide +kernel)

end ApexLs.Utils
