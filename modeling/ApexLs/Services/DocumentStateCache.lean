import ApexLs.Collections.OrderedMap
import ApexLs.Collections.Runs
import ApexLs.Types.Symbol

/-! The document state cache. It keeps one entry for each document under the version it was
written for, and several services write parts of it. -/
namespace ApexLs.Services

open ApexLs.Collections ApexLs.Types

/-- What the services keep for a document. Diagnostics, folding ranges and parse trees are
opaque to the cache. -/
structure DocumentState (δ φ π : Type) where
  diagnostics : Option (List δ) := none
  foldingRanges : Option (List φ) := none
  parseTree : Option π := none
  contentHash : Option String := none
  detailLevel : Option DetailLevel := none
  documentVersion : Int
  timestamp : Nat
  symbolsIndexed : Option Bool := some false
  enrichmentFailed : Option Bool := none
  deriving Repr

/-- A property of a partial object: absent, or present with a value or with `undefined`. -/
abbrev Given (α : Type) := Option (Option α)

def spread (new : Given α) (old : Option α) : Option α := new.getD old

/-- `Partial<DocumentState>` with a document version. -/
structure PartialState (δ φ π : Type) where
  diagnostics : Given (List δ) := none
  foldingRanges : Given (List φ) := none
  parseTree : Given π := none
  contentHash : Given String := none
  detailLevel : Given DetailLevel := none
  documentVersion : Int
  timestamp : Option Nat := none
  symbolsIndexed : Given Bool := none
  enrichmentFailed : Given Bool := none
  deriving Repr

structure DocumentStateCache (δ φ π : Type) where
  cache : OrderedMap String (DocumentState δ φ π) := .empty
  maxSize : Nat := 100

namespace DocumentStateCache

variable {δ φ π : Type}

def get (c : DocumentStateCache δ φ π) (uri : String) (version : Int) : Option (DocumentState δ φ π) :=
  (c.cache.get? uri).filter (fun cached => cached.documentVersion = version)

def getDiagnostics (c : DocumentStateCache δ φ π) (uri : String) (version : Int) : Option (List δ) :=
  (c.get uri version).bind DocumentState.diagnostics

def getFoldingRangeResult (c : DocumentStateCache δ φ π) (uri : String) (version : Int) : Option (List φ) :=
  (c.get uri version).bind DocumentState.foldingRanges

def getParseTree (c : DocumentStateCache δ φ π) (uri : String) (version : Int) (contentHash : Option String := none) :
    Option π :=
  (c.get uri version).bind fun cached =>
    if truthy contentHash ∧ truthy cached.contentHash ∧ cached.contentHash ≠ contentHash then none
    else cached.parseTree

def getDetailLevel (c : DocumentStateCache δ φ π) (uri : String) (version : Int) : Option DetailLevel :=
  (c.get uri version).bind DocumentState.detailLevel

def hasDetailLevel (c : DocumentStateCache δ φ π) (uri : String) (version : Int) (level : DetailLevel) : Bool :=
  (c.getDetailLevel uri version).any (fun cachedLevel => level.order ≤ cachedLevel.order)

/-- `evictOldest`'s search: the first key with the least timestamp. -/
def oldestKey (entries : List (String × DocumentState δ φ π)) : Option String :=
  (entries.foldl (fun (oldest : Option String × Nat) entry =>
    if entry.2.timestamp < oldest.2 then (some entry.1,entry.2.timestamp) else oldest) (none,9007199254740991)).1

def evictOldest (c : DocumentStateCache δ φ π) : DocumentStateCache δ φ π :=
  match oldestKey c.cache.entries with
  | none => c
  | some key => if key = "" then c else { c with cache := c.cache.erase key }

def set (c : DocumentStateCache δ φ π) (uri : String) (result : DocumentState δ φ π) : DocumentStateCache δ φ π :=
  let room := if c.cache.size ≥ c.maxSize ∧ !c.cache.has uri then c.evictOldest else c
  { room with cache := room.cache.set uri result }

def mergeInto (existing : DocumentState δ φ π) (newData : PartialState δ φ π) (now : Nat) : DocumentState δ φ π :=
  { diagnostics := spread newData.diagnostics existing.diagnostics
    foldingRanges := spread newData.foldingRanges existing.foldingRanges
    parseTree := spread newData.parseTree existing.parseTree
    contentHash := spread newData.contentHash existing.contentHash
    detailLevel := spread newData.detailLevel existing.detailLevel
    documentVersion := newData.documentVersion
    timestamp := now
    symbolsIndexed := (newData.symbolsIndexed.getD none).or existing.symbolsIndexed
    enrichmentFailed :=
      if newData.documentVersion ≠ existing.documentVersion then some false
      else (newData.enrichmentFailed.getD none).or existing.enrichmentFailed }

def newEntry (newData : PartialState δ φ π) (now : Nat) : DocumentState δ φ π :=
  { diagnostics := spread newData.diagnostics none
    foldingRanges := spread newData.foldingRanges none
    parseTree := spread newData.parseTree none
    contentHash := spread newData.contentHash none
    detailLevel := spread newData.detailLevel none
    documentVersion := newData.documentVersion
    timestamp := newData.timestamp.getD now
    symbolsIndexed := spread newData.symbolsIndexed (some false)
    enrichmentFailed := spread newData.enrichmentFailed none }

def merge (c : DocumentStateCache δ φ π) (uri : String) (newData : PartialState δ φ π) (now : Nat) :
    DocumentStateCache δ φ π :=
  match c.cache.get? uri with
  | some existing => { c with cache := c.cache.set uri (mergeInto existing newData now) }
  | none => c.set uri (newEntry newData now)

def markEnrichmentFailed (c : DocumentStateCache δ φ π) (uri : String) : DocumentStateCache δ φ π :=
  match c.cache.get? uri with
  | some existing => { c with cache := c.cache.set uri { existing with enrichmentFailed := some true } }
  | none => c

def hasEnrichmentFailed (c : DocumentStateCache δ φ π) (uri : String) : Bool :=
  (c.cache.get? uri).any (fun cached => cached.enrichmentFailed = some true)

def invalidate (c : DocumentStateCache δ φ π) (uri : String) : DocumentStateCache δ φ π :=
  { c with cache := c.cache.erase uri }

def clear (c : DocumentStateCache δ φ π) : DocumentStateCache δ φ π := { c with cache := .empty }

/-- The entry of a document under whatever version it was written for. -/
def getCurrentState (c : DocumentStateCache δ φ π) (uri : String) : Option (DocumentState δ φ π) := c.cache.get? uri

end DocumentStateCache

/-- A write to the cache. `now` is the clock `merge` reads. -/
inductive CacheWrite (δ φ π : Type) where
  | set (uri : String) (result : DocumentState δ φ π)
  | merge (uri : String) (newData : PartialState δ φ π) (now : Nat)
  | markEnrichmentFailed (uri : String)
  | invalidate (uri : String)
  | clear

structure Supply (δ φ π : Type) where
  uri : String
  documentVersion : Int
  diagnostics : Option (List δ)
  foldingRanges : Option (List φ)
  parseTree : Option π
  detailLevel : Option DetailLevel

structure CacheHistory (δ φ π : Type) where
  state : DocumentStateCache δ φ π
  supplies : List (Supply δ φ π) := []

namespace CacheWrite

variable {δ φ π : Type}

def apply (c : DocumentStateCache δ φ π) : CacheWrite δ φ π → DocumentStateCache δ φ π
  | .set uri result => c.set uri result
  | .merge uri newData now => c.merge uri newData now
  | .markEnrichmentFailed uri => c.markEnrichmentFailed uri
  | .invalidate uri => c.invalidate uri
  | .clear => c.clear

def supply : CacheWrite δ φ π → Option (Supply δ φ π)
  | .set uri result =>
    some ⟨uri,result.documentVersion,result.diagnostics,result.foldingRanges,result.parseTree,result.detailLevel⟩
  | .merge uri newData _ =>
    some ⟨uri,newData.documentVersion,newData.diagnostics.getD none,newData.foldingRanges.getD none,
      newData.parseTree.getD none,newData.detailLevel.getD none⟩
  | _ => none

end CacheWrite

namespace CacheHistory

variable {δ φ π : Type}

def write (h : CacheHistory δ φ π) (w : CacheWrite δ φ π) : CacheHistory δ φ π where
  state := w.apply h.state
  supplies := w.supply.toList ++ h.supplies

def Supplied (h : CacheHistory δ φ π) (uri : String) (version : Int) (P : Supply δ φ π → Prop) : Prop :=
  ∃ s ∈ h.supplies, s.uri = uri ∧ s.documentVersion = version ∧ P s

/-- Every answer of the cache was handed over for the version it is asked for. -/
structure Unmixed (h : CacheHistory δ φ π) : Prop where
  diagnostics : ∀ uri version d, h.state.getDiagnostics uri version = some d →
    h.Supplied uri version (fun s => s.diagnostics = some d)
  foldingRanges : ∀ uri version f, h.state.getFoldingRangeResult uri version = some f →
    h.Supplied uri version (fun s => s.foldingRanges = some f)
  parseTree : ∀ uri version hash t, h.state.getParseTree uri version hash = some t →
    h.Supplied uri version (fun s => s.parseTree = some t)
  detailLevel : ∀ uri version level, h.state.getDetailLevel uri version = some level →
    h.Supplied uri version (fun s => s.detailLevel = some level)
  hasDetailLevel : ∀ uri version level, h.state.hasDetailLevel uri version level = true →
    h.Supplied uri version (fun s => ∃ reached, s.detailLevel = some reached ∧ level.order ≤ reached.order)

structure Covers (newData : PartialState δ φ π) (existing : DocumentState δ φ π) : Prop where
  diagnostics : existing.diagnostics.isSome → newData.diagnostics.isSome
  foldingRanges : existing.foldingRanges.isSome → newData.foldingRanges.isSome
  parseTree : existing.parseTree.isSome → newData.parseTree.isSome
  detailLevel : existing.detailLevel.isSome → newData.detailLevel.isSome

/-- A merge over an entry of another version names every result the entry holds. -/
def Refreshes (h : CacheHistory δ φ π) : CacheWrite δ φ π → Prop
  | .merge uri newData _ => ∀ existing, h.state.cache.get? uri = some existing →
      newData.documentVersion ≠ existing.documentVersion → Covers newData existing
  | _ => True

structure Own (h : CacheHistory δ φ π) (uri : String) (e : DocumentState δ φ π) : Prop where
  diagnostics : ∀ d, e.diagnostics = some d → h.Supplied uri e.documentVersion (fun s => s.diagnostics = some d)
  foldingRanges : ∀ f, e.foldingRanges = some f →
    h.Supplied uri e.documentVersion (fun s => s.foldingRanges = some f)
  parseTree : ∀ t, e.parseTree = some t → h.Supplied uri e.documentVersion (fun s => s.parseTree = some t)
  detailLevel : ∀ level, e.detailLevel = some level →
    h.Supplied uri e.documentVersion (fun s => s.detailLevel = some level)

def Owned (h : CacheHistory δ φ π) : Prop := ∀ uri e, h.state.cache.get? uri = some e → h.Own uri e

theorem Supplied.mono {h h' : CacheHistory δ φ π} {P : Supply δ φ π → Prop} (more : h.supplies ⊆ h'.supplies)
    (supplied : h.Supplied uri version P) : h'.Supplied uri version P := by
  obtain ⟨s,member,same⟩ := supplied
  exact ⟨s,more member,same⟩

theorem Own.mono {h h' : CacheHistory δ φ π} {e : DocumentState δ φ π} (more : h.supplies ⊆ h'.supplies)
    (own : h.Own uri e) : h'.Own uri e where
  diagnostics d found := (own.diagnostics d found).mono more
  foldingRanges f found := (own.foldingRanges f found).mono more
  parseTree t found := (own.parseTree t found).mono more
  detailLevel level found := (own.detailLevel level found).mono more

theorem get_eq_some {c : DocumentStateCache δ φ π} {e : DocumentState δ φ π} (found : c.get uri version = some e) :
    c.cache.get? uri = some e ∧ e.documentVersion = version := by
  simpa [DocumentStateCache.get,Option.filter_eq_some_iff] using found

theorem Owned.unmixed {h : CacheHistory δ φ π} (owned : h.Owned) : h.Unmixed := by
  have level : ∀ uri version level, h.state.getDetailLevel uri version = some level →
      h.Supplied uri version (fun s => s.detailLevel = some level) := by
    intro uri version level answered
    obtain ⟨e,found,held⟩ := Option.bind_eq_some_iff.mp answered
    obtain ⟨stored,rfl⟩ := get_eq_some found
    exact (owned uri e stored).detailLevel level held
  refine ⟨?_,?_,?_,level,?_⟩
  · intro uri version d answered
    obtain ⟨e,found,held⟩ := Option.bind_eq_some_iff.mp answered
    obtain ⟨stored,rfl⟩ := get_eq_some found
    exact (owned uri e stored).diagnostics d held
  · intro uri version f answered
    obtain ⟨e,found,held⟩ := Option.bind_eq_some_iff.mp answered
    obtain ⟨stored,rfl⟩ := get_eq_some found
    exact (owned uri e stored).foldingRanges f held
  · intro uri version hash t answered
    obtain ⟨e,found,held⟩ := Option.bind_eq_some_iff.mp answered
    obtain ⟨stored,rfl⟩ := get_eq_some found
    split at held
    next => simp at held
    next => exact (owned uri e stored).parseTree t held
  · intro uri version asked answered
    obtain ⟨reached,found,enough⟩ := (Option.any_eq_true ..).mp answered
    obtain ⟨s,member,sameUri,sameVersion,supplied⟩ := level uri version reached found
    exact ⟨s,member,sameUri,sameVersion,reached,supplied,of_decide_eq_true enough⟩

theorem get?_evictOldest {c : DocumentStateCache δ φ π} {e : DocumentState δ φ π}
    (found : c.evictOldest.cache.get? uri = some e) : c.cache.get? uri = some e := by
  unfold DocumentStateCache.evictOldest at found
  split at found
  next => exact found
  next =>
    split at found
    next => exact found
    next =>
      rw [OrderedMap.get?_erase] at found
      split at found
      next => simp at found
      next => exact found

theorem get?_set {c : DocumentStateCache δ φ π} {result e : DocumentState δ φ π}
    (found : (c.set uri result).cache.get? other = some e) :
    (other = uri ∧ e = result) ∨ c.cache.get? other = some e := by
  simp only [DocumentStateCache.set,OrderedMap.get?_set] at found
  split at found
  next same => exact .inl ⟨same,(Option.some.inj found).symm⟩
  next =>
    split at found
    next => exact .inr (get?_evictOldest found)
    next => exact .inr found

/-- A result that is spread over an old one was handed over for the version of the new data, by
the write itself or, where the version is the same, by an earlier one. -/
theorem spread_supplied {h : CacheHistory δ φ π} {P : α → Supply δ φ π → Prop} {new : Given α} {old : Option α}
    (here : ∀ a, new.getD none = some a → h.Supplied uri version (P a))
    (before : ∀ a, old = some a → h.Supplied uri oldVersion (P a))
    (covers : version ≠ oldVersion → old.isSome → new.isSome) (a : α) (held : spread new old = some a) :
    h.Supplied uri version (P a) := by
  cases new with
  | some value => exact here a held
  | none =>
    have kept : old = some a := held
    by_cases same : version = oldVersion
    · exact same ▸ before a kept
    · simpa using covers same (by simp [kept])

theorem newEntry_own {h : CacheHistory δ φ π} {newData : PartialState δ φ π} {now : Nat}
    (here : ∀ P, P ⟨uri,newData.documentVersion,newData.diagnostics.getD none,newData.foldingRanges.getD none,
      newData.parseTree.getD none,newData.detailLevel.getD none⟩ → h.Supplied uri newData.documentVersion P) :
    h.Own uri (DocumentStateCache.newEntry newData now) where
  diagnostics := spread_supplied (fun _ held => here _ held) (by simp) (fun other => absurd rfl other)
  foldingRanges := spread_supplied (fun _ held => here _ held) (by simp) (fun other => absurd rfl other)
  parseTree := spread_supplied (fun _ held => here _ held) (by simp) (fun other => absurd rfl other)
  detailLevel := spread_supplied (fun _ held => here _ held) (by simp) (fun other => absurd rfl other)

theorem mergeInto_own {h : CacheHistory δ φ π} {newData : PartialState δ φ π} {existing : DocumentState δ φ π} {now : Nat}
    (here : ∀ P, P ⟨uri,newData.documentVersion,newData.diagnostics.getD none,newData.foldingRanges.getD none,
      newData.parseTree.getD none,newData.detailLevel.getD none⟩ → h.Supplied uri newData.documentVersion P)
    (before : h.Own uri existing)
    (fresh : newData.documentVersion ≠ existing.documentVersion → Covers newData existing) :
    h.Own uri (DocumentStateCache.mergeInto existing newData now) where
  diagnostics := spread_supplied (fun _ held => here _ held) before.diagnostics (fun other => (fresh other).diagnostics)
  foldingRanges :=
    spread_supplied (fun _ held => here _ held) before.foldingRanges (fun other => (fresh other).foldingRanges)
  parseTree := spread_supplied (fun _ held => here _ held) before.parseTree (fun other => (fresh other).parseTree)
  detailLevel := spread_supplied (fun _ held => here _ held) before.detailLevel (fun other => (fresh other).detailLevel)

theorem write_owned {h : CacheHistory δ φ π} (owned : h.Owned) {w : CacheWrite δ φ π} (refreshes : h.Refreshes w) :
    (h.write w).Owned := by
  have more : h.supplies ⊆ (h.write w).supplies := List.subset_append_right _ _
  have old : ∀ uri e, h.state.cache.get? uri = some e → (h.write w).Own uri e :=
    fun uri e stored => (owned uri e stored).mono more
  intro other e found
  cases w with
  | set uri result =>
    rcases get?_set found with ⟨rfl,rfl⟩ | stored
    · have here : ∀ P, P ⟨other,e.documentVersion,e.diagnostics,e.foldingRanges,e.parseTree,e.detailLevel⟩ →
          (h.write (.set other e)).Supplied other e.documentVersion P :=
        fun P holds => ⟨_,List.mem_cons_self,rfl,rfl,holds⟩
      exact ⟨fun _ held => here _ held,fun _ held => here _ held,fun _ held => here _ held,fun _ held => here _ held⟩
    · exact old other e stored
  | merge uri newData now =>
    have here : ∀ P, P ⟨uri,newData.documentVersion,newData.diagnostics.getD none,newData.foldingRanges.getD none,
        newData.parseTree.getD none,newData.detailLevel.getD none⟩ →
        (h.write (.merge uri newData now)).Supplied uri newData.documentVersion P :=
      fun P holds => ⟨_,List.mem_cons_self,rfl,rfl,holds⟩
    change (h.state.merge uri newData now).cache.get? other = some e at found
    unfold DocumentStateCache.merge at found
    cases stored : h.state.cache.get? uri with
    | none =>
      simp only [stored] at found
      rcases get?_set found with ⟨rfl,rfl⟩ | before
      · exact newEntry_own here
      · exact old other e before
    | some existing =>
      simp only [stored,OrderedMap.get?_set] at found
      split at found
      next same =>
        subst same
        obtain rfl := Option.some.inj found
        exact mergeInto_own here (old other existing stored) (refreshes existing stored)
      next => exact old other e found
  | markEnrichmentFailed uri =>
    change (h.state.markEnrichmentFailed uri).cache.get? other = some e at found
    unfold DocumentStateCache.markEnrichmentFailed at found
    cases stored : h.state.cache.get? uri with
    | none => exact old other e (by simpa [stored] using found)
    | some existing =>
      simp only [stored,OrderedMap.get?_set] at found
      split at found
      next same =>
        subst same
        obtain rfl := Option.some.inj found
        have before := old other existing stored
        exact ⟨before.diagnostics,before.foldingRanges,before.parseTree,before.detailLevel⟩
      next => exact old other e found
  | invalidate uri =>
    simp only [write,CacheWrite.apply,DocumentStateCache.invalidate,OrderedMap.get?_erase] at found
    split at found
    next => simp at found
    next => exact old other e found
  | clear => simp [write,CacheWrite.apply,DocumentStateCache.clear] at found

def start (δ φ π : Type) (maxSize : Nat) : CacheHistory δ φ π := { state := { maxSize := maxSize } }

/-- In a run whose merges over another version name every result the entry holds, no version is
answered with what was computed for another. -/
theorem versions_unmixed (maxSize : Nat) (writes : List (CacheWrite δ φ π))
    (every : EveryStep write Refreshes (start δ φ π maxSize) writes) :
    EveryState write Unmixed (start δ φ π maxSize) writes := by
  have empty : (start δ φ π maxSize).Owned := by
    intro uri e found
    simp [start] at found
  have owned : EveryState write Owned (start δ φ π maxSize) writes :=
    everyState_of_everyStep (fun _ _ owned refreshes => write_owned owned refreshes) empty every
  exact fun front initial => (owned front initial).unmixed

/-- Version 2 of a document is compiled with diagnostics and a detail level over version 1. -/
def recompiled : List (CacheWrite String String String) :=
  [.set "file:///Foo.cls" { diagnostics := some ["unknown type"],documentVersion := 1,timestamp := 10 },
    .merge "file:///Foo.cls" { diagnostics := some (some []),detailLevel := some (some .full),documentVersion := 2 } 20]

theorem recompiled_unmixed : EveryState write Unmixed (start String String String 100) recompiled := by
  refine versions_unmixed 100 recompiled ⟨trivial,fun existing stored changed => ?_,trivial⟩
  have held : existing = { diagnostics := some ["unknown type"],documentVersion := 1,timestamp := 10 } := by
    have known : (write (start String String String 100) (.set "file:///Foo.cls"
        { diagnostics := some ["unknown type"],documentVersion := 1,timestamp := 10 })).state.cache.get?
          "file:///Foo.cls" = some { diagnostics := some ["unknown type"],documentVersion := 1,timestamp := 10 } := rfl
    exact Option.some.inj (stored.symm.trans known)
  subst held
  exact ⟨by simp,by simp,by simp,by simp⟩

def enrichedEarly : List (CacheWrite String String String) :=
  [.set "file:///Foo.cls" { diagnostics := some ["unknown type"],documentVersion := 1,timestamp := 10 },
    .merge "file:///Foo.cls" { detailLevel := some (some .full),documentVersion := 2 } 20]

/-- The diagnostics of version 1 are answered for version 2. -/
theorem early_enrichment_mixes :
    (run write (start String String String 100) enrichedEarly).state.getDiagnostics "file:///Foo.cls" 2 =
        some ["unknown type"] ∧
      ¬ EveryState write Unmixed (start String String String 100) enrichedEarly := by
  have served : (run write (start String String String 100) enrichedEarly).state.getDiagnostics "file:///Foo.cls" 2 =
      some ["unknown type"] := rfl
  refine ⟨served,fun always => ?_⟩
  obtain ⟨s,member,_,version,supplied⟩ := (always.last).diagnostics _ _ _ served
  have handed : s ∈ [(⟨"file:///Foo.cls",2,none,none,none,some .full⟩ : Supply String String String),
      ⟨"file:///Foo.cls",1,some ["unknown type"],none,none,none⟩] := member
  rcases List.mem_cons.mp handed with rfl | first
  · simp at supplied
  · obtain rfl := List.mem_singleton.mp first
    simp at version

end CacheHistory
end ApexLs.Services
