import Mathlib.Data.Set.Finite.Lemmas
import ApexLs.Symbols.Registrations

/-! What a merge keeps. The symbols of the stored table go through `addSymbol` of the new one in
turn; a symbol that is taken for a namesake under another id leaves its own id empty. -/
namespace ApexLs.Symbols

open ApexLs.Utils ApexLs.Types ApexLs.Collections

def filesOwnId : SymbolTable.Exit → Bool
  | .first => true
  | .secondDuplicate _ => true
  | _ => false

/-- The two objects declare the same: a kind, a name and, on methods and constructors, the
parameters. -/
structure SameHeading (a b : ApexSymbol) : Prop where
  kind : a.kind = b.kind
  name : a.name = b.name
  parameters : b.isMethodOrConstructorSymbol = true → a.parameters = b.parameters

/-- A symbol as a table lists it: the key holds its id, and what takes parameters has a list of
them. -/
structure Parsed (s : ApexSymbol) : Prop where
  synchronized : Synchronized s
  parameters : s.isMethodOrConstructorSymbol = true → s.parameters.isSome

instance (s : ApexSymbol) : Decidable (Parsed s) :=
  decidable_of_iff ((s.key.unifiedId = some s.id ∧ s.id ≠ "") ∧
      (s.isMethodOrConstructorSymbol = true → s.parameters.isSome))
    ⟨fun h => ⟨⟨h.1.1,h.1.2⟩,h.2⟩,fun h => ⟨⟨h.synchronized.keyed,h.synchronized.nonempty⟩,h.parameters⟩⟩

/-- Whatever is listed is filed under its id, nothing else is filed, and what has an id to itself
is of that id. -/
structure Filed (heap : Heap) (t : SymbolTable) : Prop where
  own : ∀ r ∈ t.symbolArray, r ∈ t.getAllSymbolsById (heap r).id
  listed : ∀ id, ∀ r ∈ t.getAllSymbolsById id, r ∈ t.symbolArray
  single : ∀ id e, t.symbolMap.get? id = some (.single e) → (heap e).id = id

instance (heap : Heap) (t : SymbolTable) : Decidable (Filed heap t) :=
  decidable_of_iff ((∀ r ∈ t.symbolArray, r ∈ t.getAllSymbolsById (heap r).id) ∧
      (∀ p ∈ t.symbolMap.entries, ∀ r ∈ p.2.symbols, r ∈ t.symbolArray) ∧
      ∀ p ∈ t.symbolMap.entries, ∀ e ∈ p.2.symbols, p.2 = .single e → (heap e).id = p.1) (by
    constructor
    · rintro ⟨own,listed,single⟩
      refine ⟨own,fun id r held => ?_,fun id e got => ?_⟩
      · obtain ⟨b,got,inside⟩ := SymbolTable.mem_getAllSymbolsById.mp held
        exact listed (id,b) (OrderedMap.get?_eq_some_iff.mp got) r inside
      · exact single (id,.single e) (OrderedMap.get?_eq_some_iff.mp got) e (by simp [Bucket.symbols]) rfl
    · intro filed
      refine ⟨filed.own,fun p entry r inside => ?_,fun p entry e _ alone => ?_⟩
      · exact filed.listed p.1 r (SymbolTable.mem_getAllSymbolsById.mpr ⟨p.2,OrderedMap.get?_eq_some_iff.mpr entry,inside⟩)
      · exact filed.single p.1 e (by rw [← alone]; exact OrderedMap.get?_eq_some_iff.mpr entry))

def levelsUnder (heap : Heap) (declared : List Ref) (id : String) : Set Nat :=
  { level | ∃ d ∈ declared, (heap d).id = id ∧ detailLevelOrder (heap d) = level }

/-- A merge of the tables that list `declared` kept everything: each id is taken by a symbol that
declares what was declared under it, at the highest level it had, and there is no other id. -/
structure EverythingKept (heap : Heap) (declared : List Ref) (published : Heap × SymbolTable) : Prop where
  kept : ∀ o ∈ declared, ∃ s ∈ published.2.getAllSymbolsById (heap o).id,
    s ∈ published.2.getAllSymbols ∧ (published.1 s).id = (heap o).id ∧
    (∃ d ∈ declared, (heap d).id = (heap o).id ∧ SameHeading (published.1 s) (heap d)) ∧
    IsGreatest (levelsUnder heap declared (heap o).id) (detailLevelOrder (published.1 s))
  nothingElse : ∀ s ∈ published.2.getAllSymbols, ∃ o ∈ declared, (heap o).id = (published.1 s).id

section

variable [Runtime]

/-- The merge adds the symbol again: the new table lacks its key, or holds it at a lower level. -/
def Adds (newSymbolKeys : List String) (state : Heap × SymbolTable) (symbol : Ref) : Prop :=
  let (heap,t) := state
  keyToString (heap symbol).key ∉ newSymbolKeys ∨
    (t.getAllSymbols.find? (fun s => keyToString (heap s).key = keyToString (heap symbol).key)).any
      (fun existingInNew => detailLevelOrder (heap existingInNew) < detailLevelOrder (heap symbol)) = true

instance (newSymbolKeys : List String) (state : Heap × SymbolTable) (symbol : Ref) :
    Decidable (Adds newSymbolKeys state symbol) := inferInstanceAs (Decidable (_ ∨ _))

/-- Nothing is filed under the id of the symbol, and the name-and-parent fallback finds a namesake
under another id which is enriched with it, kept in its stead, or listed beside it under that id. -/
def Absorbed (state : Heap × SymbolTable) (symbol : Ref) : Prop :=
  let heap := prepare state.1 symbol none
  state.2.symbolMap.get? (heap symbol).id = none ∧
    filesOwnId (SymbolTable.exitOf heap symbol (state.2.lookupExisting heap symbol).2) = false

instance (state : Heap × SymbolTable) (symbol : Ref) : Decidable (Absorbed state symbol) :=
  inferInstanceAs (Decidable (_ ∧ _))

def KeepsItsId (newSymbolKeys : List String) (state : Heap × SymbolTable) (symbol : Ref) : Prop :=
  Adds newSymbolKeys state symbol → ¬ Absorbed state symbol

instance (newSymbolKeys : List String) (state : Heap × SymbolTable) (symbol : Ref) :
    Decidable (KeepsItsId newSymbolKeys state symbol) := inferInstanceAs (Decidable (_ → _))

def NoneAbsorbed (heap : Heap) (t existing : SymbolTable) : Prop :=
  let newSymbolKeys := t.getAllSymbols.map (fun s => keyToString (heap s).key)
  EveryStep (mergeSymbol newSymbolKeys) (KeepsItsId newSymbolKeys) (heap,t) existing.getAllSymbols

instance (heap : Heap) (t existing : SymbolTable) : Decidable (NoneAbsorbed heap t existing) :=
  EveryStep.decidable _ _ _ _

theorem mergeSymbol_eq (newSymbolKeys : List String) (state : Heap × SymbolTable) (symbol : Ref) :
    mergeSymbol newSymbolKeys state symbol =
      if Adds newSymbolKeys state symbol then state.2.addSymbol state.1 symbol else state := by
  obtain ⟨heap,t⟩ := state
  simp only [mergeSymbol,Adds]
  by_cases missing : keyToString (heap symbol).key ∉ newSymbolKeys
  · simp [missing]
  · simp only [missing,if_false,false_or]
    split
    next unmet => simp [unmet]
    next existingInNew met => simp [met]

theorem mergeSymbols_eq (heap : Heap) (t existing : SymbolTable) :
    mergeSymbols heap t existing =
      run (mergeSymbol (t.getAllSymbols.map (fun s => keyToString (heap s).key))) (heap,t) existing.getAllSymbols := rfl

end

theorem SameHeading.refl (s : ApexSymbol) : SameHeading s s := ⟨rfl,rfl,fun _ => rfl⟩

theorem SameHeading.trans {a b c : ApexSymbol} (first : SameHeading a b) (second : SameHeading b c) : SameHeading a c where
  kind := first.kind.trans second.kind
  name := first.name.trans second.name
  parameters callable := by
    have callable' : b.isMethodOrConstructorSymbol = true := by
      rw [ApexSymbol.isMethodOrConstructorSymbol,second.kind]
      exact callable
    exact (first.parameters callable').trans (second.parameters callable)

theorem sameHeading_assign (e : ApexSymbol) {s : ApexSymbol} (parsed : Parsed s) : SameHeading (assign e s) s where
  kind := rfl
  name := rfl
  parameters callable := by
    obtain ⟨ps,given⟩ := Option.isSome_iff_exists.mp (parsed.parameters callable)
    simp [assign,given]

theorem Parsed.assign {e s : ApexSymbol} (old : Parsed e) (parsed : Parsed s) : Parsed (assign e s) where
  synchronized := ⟨old.synchronized.keyed,old.synchronized.nonempty⟩
  parameters callable := by
    have given : s.parameters.isSome := parsed.parameters callable
    simp [Types.assign,given]

/-- What the turns of a merge keep. `declared` are the symbols of both tables, `newSymbols` those
of the new one, `through` the stored symbols that had their turn. -/
structure Merging (heap : Heap) (declared newSymbols through : List Ref) (heap' : Heap) (t : SymbolTable) : Prop where
  parsed : ∀ r ∈ declared, Parsed (heap' r)
  ids : ∀ r ∈ declared, (heap' r).id = (heap r).id
  heading : ∀ r ∈ declared, ∃ d ∈ declared, (heap d).id = (heap r).id ∧ SameHeading (heap' r) (heap d)
  raised : ∀ r ∈ declared, detailLevelOrder (heap r) ≤ detailLevelOrder (heap' r)
  bounded : ∀ r ∈ declared, ∃ d ∈ declared, (heap d).id = (heap r).id ∧
    detailLevelOrder (heap' r) ≤ detailLevelOrder (heap d)
  listed : ∀ r ∈ t.symbolArray, r ∈ declared
  filed : Filed heap' t
  new : ∀ r ∈ newSymbols, r ∈ declared ∧ r ∈ t.getAllSymbolsById (heap r).id
  through : ∀ r ∈ through, r ∈ declared ∧ ∃ e ∈ t.getAllSymbolsById (heap r).id,
    (heap' e).id = (heap r).id ∧ detailLevelOrder (heap r) ≤ detailLevelOrder (heap' e)

namespace Merging

variable {declared newSymbols through : List Ref}

theorem start {heap : Heap} {t : SymbolTable} (parsed : ∀ r ∈ declared, Parsed (heap r)) (filed : Filed heap t)
    (whole : ∀ r ∈ t.symbolArray, r ∈ declared) : Merging heap declared t.symbolArray [] heap t where
  parsed := parsed
  ids _ _ := rfl
  heading r member := ⟨r,member,rfl,.refl _⟩
  raised _ _ := le_rfl
  bounded r member := ⟨r,member,rfl,le_rfl⟩
  listed := whole
  filed := filed
  new r member := ⟨whole r member,filed.own r member⟩
  through _ member := absurd member List.not_mem_nil

theorem pass {t : SymbolTable} (merging : Merging heap declared newSymbols through heap' t)
    (member : symbol ∈ declared) (held : e ∈ t.getAllSymbolsById (heap symbol).id) (ofId : (heap' e).id = (heap symbol).id)
    (level : detailLevelOrder (heap' symbol) ≤ detailLevelOrder (heap' e)) :
    Merging heap declared newSymbols (symbol :: through) heap' t :=
  { merging with
    through := by
      intro r had
      rcases List.mem_cons.mp had with rfl | before
      · exact ⟨member,e,held,ofId,(merging.raised r member).trans level⟩
      · exact merging.through r before }

theorem rewrite {heap' : Heap} {t t' : SymbolTable} (merging : Merging heap declared newSymbols through heap' t)
    (listed : ∀ r ∈ t'.symbolArray, r ∈ declared) (filed : Filed heap' t')
    (grown : ∀ id, ∀ r ∈ t.getAllSymbolsById id, r ∈ t'.getAllSymbolsById id) :
    Merging heap declared newSymbols through heap' t' :=
  { merging with
    listed := listed
    filed := filed
    new := fun r member => ⟨(merging.new r member).1,grown _ r (merging.new r member).2⟩
    through := by
      intro r had
      obtain ⟨member,e,held,rest⟩ := merging.through r had
      exact ⟨member,e,grown _ e held,rest⟩ }

theorem file {heap' : Heap} {t : SymbolTable} (merging : Merging heap declared newSymbols through heap' t)
    (member : symbol ∈ declared) (bucket : Bucket) (pushed : List Ref) (own : symbol ∈ bucket.symbols)
    (kept : ∀ r ∈ t.getAllSymbolsById (heap' symbol).id, r ∈ bucket.symbols)
    (known : ∀ r ∈ bucket.symbols, r ∈ t.symbolArray ∨ r = symbol) (alone : ∀ e, bucket = .single e → e = symbol)
    (listing : symbol ∈ pushed) (within : ∀ r ∈ pushed, r ∈ bucket.symbols) :
    Merging heap declared newSymbols (symbol :: through) heap' (t.file (heap' symbol).id bucket pushed) := by
  have lookup : ∀ id, (t.file (heap' symbol).id bucket pushed).getAllSymbolsById id =
      if id = (heap' symbol).id then bucket.symbols else t.getAllSymbolsById id := by
    intro id
    by_cases here : id = (heap' symbol).id <;>
      simp [SymbolTable.file,SymbolTable.getAllSymbolsById,here]
  have array : ∀ r, r ∈ (t.file (heap' symbol).id bucket pushed).symbolArray ↔ r ∈ t.symbolArray ∨ r ∈ pushed :=
    fun r => SymbolTable.mem_foldl_pushIfAbsent
  have listed : ∀ r ∈ (t.file (heap' symbol).id bucket pushed).symbolArray, r ∈ t.symbolArray ∨ r = symbol := by
    intro r there
    rcases (array r).mp there with old | new
    · exact .inl old
    · exact known r (within r new)
  have grown : ∀ id, ∀ r ∈ t.getAllSymbolsById id, r ∈ (t.file (heap' symbol).id bucket pushed).getAllSymbolsById id := by
    intro id r held
    rw [lookup]
    split
    next here => exact kept r (here ▸ held)
    next => exact held
  have filed : Filed heap' (t.file (heap' symbol).id bucket pushed) := by
    refine ⟨?_,?_,?_⟩
    · intro r there
      rcases listed r there with old | rfl
      · exact grown _ r (merging.filed.own r old)
      · rw [lookup,if_pos rfl]
        exact own
    · intro id r held
      rw [lookup] at held
      apply (array r).mpr
      split at held
      next here =>
        rcases known r held with old | rfl
        · exact .inl old
        · exact .inr listing
      next => exact .inl (merging.filed.listed id r held)
    · intro id e single
      by_cases here : id = (heap' symbol).id
      · have same : bucket = .single e := by simpa [SymbolTable.file,here] using single
        rw [alone e same,here]
      · exact merging.filed.single id e (by simpa [SymbolTable.file,here] using single)
  have rewritten := merging.rewrite (fun r there => (listed r there).elim (merging.listed r) (· ▸ member)) filed grown
  refine rewritten.pass member (e := symbol) ?_ (merging.ids symbol member) le_rfl
  rw [← merging.ids symbol member,lookup,if_pos rfl]
  exact own

theorem roots {t : SymbolTable} (merging : Merging heap declared newSymbols through heap' t) (symbol previous) :
    Merging heap declared newSymbols through heap' (t.updateRootsArray heap' symbol previous) :=
  merging.rewrite merging.listed ⟨merging.filed.own,merging.filed.listed,merging.filed.single⟩ (fun _ _ held => held)

section

variable {heap' : Heap} {t : SymbolTable} (merging : Merging heap declared newSymbols through heap' t)
include merging

theorem fileBeside (member : symbol ∈ declared) (known : e ∈ t.symbolArray)
    (kept : ∀ r ∈ t.getAllSymbolsById (heap' symbol).id, r = e) :
    Merging heap declared newSymbols (symbol :: through) heap'
      (t.file (heap' symbol).id (.many [e,symbol]) [symbol,e]) := by
  refine merging.file member _ _ ?_ ?_ ?_ ?_ ?_ ?_
  · simp [Bucket.symbols]
  · intro r there
    simp [Bucket.symbols,kept r there]
  · intro r there
    have pair : r = e ∨ r = symbol := by simpa [Bucket.symbols] using there
    rcases pair with rfl | rfl
    · exact .inl known
    · exact .inr rfl
  · simp
  · simp
  · simp [Bucket.symbols]

theorem fileAmong (member : symbol ∈ declared) (bucket : t.symbolMap.get? (heap' symbol).id = some (.many duplicates)) :
    Merging heap declared newSymbols (symbol :: through) heap'
      (t.file (heap' symbol).id (.many (SymbolTable.pushIfAbsent duplicates symbol))
        (symbol :: SymbolTable.pushIfAbsent duplicates symbol)) := by
  have held : t.getAllSymbolsById (heap' symbol).id = duplicates := by
    simp [SymbolTable.getAllSymbolsById,bucket,Bucket.symbols]
  refine merging.file member _ _ ?_ ?_ ?_ ?_ ?_ ?_
  · exact SymbolTable.mem_pushIfAbsent.mpr (.inr rfl)
  · intro r there
    rw [held] at there
    exact SymbolTable.mem_pushIfAbsent.mpr (.inl there)
  · intro r inside
    rcases SymbolTable.mem_pushIfAbsent.mp inside with old | rfl
    · exact .inl (merging.filed.listed _ r (held ▸ old))
    · exact .inr rfl
  · simp
  · simp
  · intro r inside
    rcases List.mem_cons.mp inside with rfl | inside
    · exact SymbolTable.mem_pushIfAbsent.mpr (.inr rfl)
    · exact inside

theorem write {o d : Ref} {s : ApexSymbol} (source : d ∈ declared) (sameId : (heap d).id = (heap o).id) (id : s.id = (heap' o).id)
    (parsed : o ∈ declared → Parsed s) (heading : SameHeading s (heap' d))
    (level : detailLevelOrder s = detailLevelOrder (heap' d)) (raised : detailLevelOrder (heap' o) ≤ detailLevelOrder s) :
    Merging heap declared newSymbols through (heap'.put o s) t := by
  have ids : ∀ r, (heap'.put o s r).id = (heap' r).id := by
    intro r
    rw [Heap.put_apply]
    split
    next here => rw [here,id]
    next => rfl
  have levels : ∀ r, detailLevelOrder (heap' r) ≤ detailLevelOrder (heap'.put o s r) := by
    intro r
    rw [Heap.put_apply]
    split
    next here => exact here ▸ raised
    next => exact le_rfl
  refine ⟨?_,?_,?_,?_,?_,merging.listed,?_,merging.new,?_⟩
  · intro r member
    rw [Heap.put_apply]
    split
    next here => exact parsed (here ▸ member)
    next => exact merging.parsed r member
  · intro r member
    rw [ids]
    exact merging.ids r member
  · intro r member
    by_cases here : r = o
    · obtain ⟨d',member',own,same⟩ := merging.heading d source
      refine ⟨d',member',own.trans (sameId.trans (by rw [here])),?_⟩
      rw [here,Heap.put_self]
      exact heading.trans same
    · rw [Heap.put_of_ne _ _ here]
      exact merging.heading r member
  · intro r member
    exact (merging.raised r member).trans (levels r)
  · intro r member
    by_cases here : r = o
    · obtain ⟨d',member',own,le⟩ := merging.bounded d source
      refine ⟨d',member',own.trans (sameId.trans (by rw [here])),?_⟩
      rw [here,Heap.put_self,level]
      exact le
    · rw [Heap.put_of_ne _ _ here]
      exact merging.bounded r member
  · refine ⟨?_,merging.filed.listed,?_⟩
    · intro r there
      rw [ids]
      exact merging.filed.own r there
    · intro id e single
      rw [ids]
      exact merging.filed.single id e single
  · intro r had
    obtain ⟨member,e,held,own,le⟩ := merging.through r had
    exact ⟨member,e,held,(ids e).trans own,le.trans (levels e)⟩

end

theorem refile {heap' : Heap} {t : SymbolTable} {id : String} (merging : Merging heap declared newSymbols through heap' t)
    (single : t.symbolMap.get? id = some (.single e)) :
    Merging heap declared newSymbols through heap' (t.refile heap' id e) := by
  have ofId : (heap' e).id = id := merging.filed.single id e single
  have inside : e ∈ t.getAllSymbolsById id := by simp [SymbolTable.getAllSymbolsById,single,Bucket.symbols]
  have lookup : ∀ k, (t.refile heap' id e).getAllSymbolsById k = t.getAllSymbolsById k := by
    intro k
    by_cases here : k = id <;> simp [SymbolTable.refile,SymbolTable.getAllSymbolsById,here,single]
  have array : ∀ r, r ∈ (t.refile heap' id e).symbolArray ↔ r ∈ t.symbolArray := by
    intro r
    simp only [SymbolTable.refile,List.mem_append,List.mem_filter,decide_eq_true_eq,List.mem_singleton]
    constructor
    · rintro (⟨there,_⟩ | rfl)
      · exact there
      · exact merging.filed.listed id r inside
    · intro there
      by_cases same : (heap' r).id = (heap' e).id
      · have held := merging.filed.own r there
        rw [same,ofId] at held
        exact .inr (by simpa [SymbolTable.getAllSymbolsById,single,Bucket.symbols] using held)
      · exact .inl ⟨there,same⟩
  refine merging.rewrite (fun r there => merging.listed r ((array r).mp there)) ⟨?_,?_,?_⟩ ?_
  · intro r there
    rw [lookup]
    exact merging.filed.own r ((array r).mp there)
  · intro k r held
    rw [lookup] at held
    exact (array r).mpr (merging.filed.listed k r held)
  · intro k e' single'
    by_cases here : k = id
    · obtain rfl : e = e' := by simpa [SymbolTable.refile,here] using single'
      rw [here,ofId]
    · exact merging.filed.single k e' (by simpa [SymbolTable.refile,here] using single')
  · intro k r held
    rw [lookup]
    exact held

end Merging

section

variable [Runtime] {declared newSymbols through : List Ref}

theorem prepare_apply (heap : Heap) (symbol r : Ref) :
    prepare heap symbol none r = if r = symbol then adoptParent none (synchronizeKey (heap symbol)) else heap r := by
  rw [prepare,Heap.put_apply]

theorem Merging.prepare {heap' : Heap} {t : SymbolTable} (merging : Merging heap declared newSymbols through heap' t)
    (member : symbol ∈ declared) : Merging heap declared newSymbols through (prepare heap' symbol none) t := by
  have parsed := merging.parsed symbol member
  have heading : SameHeading (adoptParent none (synchronizeKey (heap' symbol))) (heap' symbol) := by
    unfold adoptParent
    split <;> exact ⟨rfl,rfl,fun _ => rfl⟩
  have level : detailLevelOrder (adoptParent none (synchronizeKey (heap' symbol))) = detailLevelOrder (heap' symbol) := by
    unfold adoptParent
    split <;> rfl
  refine merging.write member rfl ?_ (fun _ => ⟨?_,?_⟩) heading level level.ge
  · rw [adoptParent_id]
    exact parsed.synchronized.synchronizeKey_id
  · have sync := prepare_synchronized heap' symbol none
    rwa [prepare_apply,if_pos rfl] at sync
  · intro callable
    have callable' : (heap' symbol).isMethodOrConstructorSymbol = true := by
      rw [ApexSymbol.isMethodOrConstructorSymbol,← heading.kind]
      exact callable
    rw [heading.parameters callable']
    exact parsed.parameters callable'

omit [Runtime] in
theorem level_of_kept {heap : Heap}
    (kept : SymbolTable.exitAgainst heap symbol e ∈ [.sameObject,.keepHigherLevel,.keepTopLevelClass,.keepSamePlace]) :
    detailLevelOrder (heap symbol) ≤ detailLevelOrder (heap e) := by
  unfold SymbolTable.exitAgainst at kept
  split at kept
  next same => rw [same]
  next =>
    split at kept
    next => simp at kept
    next => simp at kept
    next newLevel existingLevel new existing =>
      split at kept
      next => simp at kept
      next notHigher =>
        simp only [detailLevelOrder,new,existing,Option.elim_some]
        omega

omit [Runtime] in
theorem level_of_enrich {heap : Heap} (enriched : SymbolTable.exitAgainst heap symbol e = .enrich e) :
    detailLevelOrder (heap e) ≤ detailLevelOrder (heap symbol) := by
  unfold SymbolTable.exitAgainst at enriched
  split at enriched
  next => cases enriched
  next =>
    split at enriched
    next => cases enriched
    next unleveled => simp [detailLevelOrder,unleveled]
    next newLevel existingLevel new existing =>
      split at enriched
      next higher =>
        simp only [detailLevelOrder,new,existing,Option.elim_some]
        omega
      next =>
        split at enriched
        next => cases enriched
        next => split at enriched <;> [cases enriched;(split at enriched <;> cases enriched)]

omit [Runtime] in
theorem Merging.enrich {heap' : Heap} {t : SymbolTable} (merging : Merging heap declared newSymbols through heap' t)
    (member : symbol ∈ declared) (bucket : t.symbolMap.get? (heap' symbol).id = some (.single e))
    (higher : detailLevelOrder (heap' e) ≤ detailLevelOrder (heap' symbol)) :
    Merging heap declared newSymbols (symbol :: through) (heap'.put e (assign (heap' e) (heap' symbol))) t := by
  have inside : e ∈ t.getAllSymbolsById (heap' symbol).id := by
    simp [SymbolTable.getAllSymbolsById,bucket,Bucket.symbols]
  have own : e ∈ declared := merging.listed e (merging.filed.listed _ e inside)
  have ofId : (heap' e).id = (heap symbol).id :=
    (merging.filed.single _ e bucket).trans (merging.ids symbol member)
  have written := merging.write member (ofId.symm.trans (merging.ids e own)) (assign_id (heap' e) (heap' symbol))
    (fun _ => (merging.parsed e own).assign (merging.parsed symbol member))
    (sameHeading_assign (heap' e) (merging.parsed symbol member)) rfl higher
  refine written.pass member (merging.ids symbol member ▸ inside) ?_ ?_
  · rw [put_assign_id]
    exact ofId
  · rw [Heap.put_self,Heap.put_apply]
    split <;> exact le_rfl

theorem Merging.insertPrepared {heap' : Heap} {t : SymbolTable} (merging : Merging heap declared newSymbols through heap' t)
    (member : symbol ∈ declared)
    (fits : t.symbolMap.get? (heap' symbol).id = none →
      filesOwnId (SymbolTable.exitOf heap' symbol (t.lookupExisting heap' symbol).2) = true) :
    Merging heap declared newSymbols (symbol :: through) (t.insertPrepared heap' symbol).1 (t.insertPrepared heap' symbol).2 := by
  have sync := (merging.parsed symbol member).synchronized
  have first : t.symbolMap.get? (heap' symbol).id = none →
      Merging heap declared newSymbols (symbol :: through) heap'
        (t.file (heap' symbol).id (.single symbol) [symbol]) := by
    intro unfiled
    apply merging.file member <;> simp [Bucket.symbols,SymbolTable.getAllSymbolsById,unfiled]
  have known : ∀ id e, t.symbolMap.get? id = some (.single e) → e ∈ t.symbolArray := by
    intro id e bucket
    exact merging.filed.listed id e (by simp [SymbolTable.getAllSymbolsById,bucket,Bucket.symbols])
  unfold SymbolTable.insertPrepared
  simp only [SymbolTable.lookupExisting,sync.getUnifiedId] at fits ⊢
  cases bucket : t.symbolMap.get? (heap' symbol).id with
  | none =>
    have ownId := fits bucket
    simp only [bucket] at ownId ⊢
    cases met : t.fallback heap' symbol with
    | none => exact (first bucket).roots _ _
    | some e =>
      simp only [met] at ownId ⊢
      generalize found : t.symbolMap.get? (getUnifiedId (heap' e).key (heap' symbol).fileUri) = other at ownId ⊢
      cases other with
      | none => exact (first bucket).roots _ _
      | some b =>
        cases b with
        | many duplicates => cases ownId
        | single e' =>
          simp only [SymbolTable.exitOf] at ownId ⊢
          rcases SymbolTable.exitAgainst_cases heap' symbol e' with kept | enrich | ⟨second,_⟩
          · simp only [List.mem_cons,List.not_mem_nil,or_false] at kept
            rcases kept with exit | exit | exit | exit <;> simp [exit,filesOwnId] at ownId
          · simp [enrich,filesOwnId] at ownId
          · rw [second]
            exact (merging.fileBeside member (known _ e' found) (by simp [SymbolTable.getAllSymbolsById,bucket])).roots _ _
  | some b =>
    cases b with
    | many duplicates => exact (merging.fileAmong member bucket).roots _ _
    | single e =>
      have held : t.getAllSymbolsById (heap' symbol).id = [e] := by
        simp [SymbolTable.getAllSymbolsById,bucket,Bucket.symbols]
      simp only [SymbolTable.exitOf]
      rcases SymbolTable.exitAgainst_cases heap' symbol e with kept | enrich | ⟨second,_⟩
      · rw [SymbolTable.perform_kept _ _ _ _ _ _ kept]
        have same := merging.ids symbol member
        refine merging.pass member (e := e) ?_ ?_ (level_of_kept kept)
        · rw [← same,held]
          exact List.mem_singleton_self e
        · exact (merging.filed.single _ e bucket).trans same
      · rw [enrich]
        exact ((merging.enrich member bucket (level_of_enrich enrich)).refile bucket).roots _ _
      · rw [second]
        exact (merging.fileBeside member (known _ e bucket) (by simp [held])).roots _ _

theorem Merging.turn {keys : List String} {s : Heap × SymbolTable}
    (merging : Merging heap declared newSymbols through s.1 s.2) (member : symbol ∈ declared)
    (named : keys = newSymbols.map (fun r => (heap r).id)) (keeps : KeepsItsId keys s symbol) :
    Merging heap declared newSymbols (symbol :: through) (mergeSymbol keys s symbol).1
      (mergeSymbol keys s symbol).2 := by
  have keyed : ∀ r ∈ declared, keyToString (s.1 r).key = (heap r).id := fun r there =>
    ((merging.parsed r there).synchronized.getUnifiedId "").trans (merging.ids r there)
  rw [mergeSymbol_eq]
  split
  next adds =>
    have fits := keeps adds
    refine (merging.prepare member).insertPrepared member ?_
    intro unfiled
    by_contra other
    exact fits ⟨unfiled,by simpa using other⟩
  next skips =>
    simp only [Adds,not_or,not_not,keyed symbol member] at skips
    obtain ⟨present,lower⟩ := skips
    rw [named,List.mem_map] at present
    obtain ⟨r,listed,sameId⟩ := present
    cases met : s.2.getAllSymbols.find? (fun r => keyToString (s.1 r).key = (heap symbol).id) with
    | none =>
      obtain ⟨own,held⟩ := merging.new r listed
      have unmet := List.find?_eq_none.mp met r (merging.filed.listed _ r held)
      simp [keyed r own,sameId] at unmet
    | some e =>
      have there : e ∈ s.2.symbolArray := List.mem_of_find?_eq_some met
      have ofId : (s.1 e).id = (heap symbol).id := by
        have found := List.find?_some met
        rw [keyed e (merging.listed e there),← merging.ids e (merging.listed e there)] at found
        simpa using found
      refine merging.pass member (ofId ▸ merging.filed.own e there) ofId ?_
      simpa [met] using lower

theorem Merging.turns {keys : List String} {s : Heap × SymbolTable} {symbols : List Ref}
    (merging : Merging heap declared newSymbols through s.1 s.2) (members : ∀ r ∈ symbols, r ∈ declared)
    (named : keys = newSymbols.map (fun r => (heap r).id))
    (every : EveryStep (mergeSymbol keys) (KeepsItsId keys) s symbols) :
    Merging heap declared newSymbols (symbols.reverse ++ through) (run (mergeSymbol keys) s symbols).1
      (run (mergeSymbol keys) s symbols).2 := by
  induction symbols generalizing s through with
  | nil => exact merging
  | cons symbol symbols ih =>
    have turned := merging.turn (members symbol List.mem_cons_self) named every.1
    have rest := ih turned (fun r member => members r (List.mem_cons_of_mem _ member)) every.2
    simpa using rest

omit [Runtime] in
theorem Merging.everythingKept {heap' : Heap} {t : SymbolTable} (merging : Merging heap declared newSymbols through heap' t)
    (all : ∀ r ∈ declared, r ∈ newSymbols ∨ r ∈ through) : EverythingKept heap declared (heap',t) where
  nothingElse s listed := ⟨s,merging.listed s listed,(merging.ids s (merging.listed s listed)).symm⟩
  kept o member := by
    -- the one captured at the highest level stands for the id
    obtain ⟨top,⟨inside,sameId⟩,highest⟩ := Set.exists_max_image
      { d | d ∈ declared ∧ (heap d).id = (heap o).id } (fun d => detailLevelOrder (heap d))
      (declared.finite_toSet.subset (fun _ h => h.1)) ⟨o,member,rfl⟩
    obtain ⟨s,held,ofId,level⟩ : ∃ s ∈ t.getAllSymbolsById (heap top).id, (heap' s).id = (heap top).id ∧
        detailLevelOrder (heap top) ≤ detailLevelOrder (heap' s) := by
      rcases all top inside with new | had
      · exact ⟨top,(merging.new top new).2,merging.ids top inside,merging.raised top inside⟩
      · exact (merging.through top had).2
    have listed : s ∈ t.symbolArray := merging.filed.listed _ s held
    have own : s ∈ declared := merging.listed s listed
    have ofO : (heap' s).id = (heap o).id := ofId.trans sameId
    have before : (heap s).id = (heap o).id := (merging.ids s own).symm.trans ofO
    obtain ⟨d,source,same,heading⟩ := merging.heading s own
    obtain ⟨d',source',same',bound⟩ := merging.bounded s own
    have upper : detailLevelOrder (heap' s) ≤ detailLevelOrder (heap top) :=
      bound.trans (highest d' ⟨source',same'.trans before⟩)
    refine ⟨s,sameId ▸ held,listed,ofO,⟨d,source,same.trans before,heading⟩,⟨top,inside,sameId,le_antisymm level upper⟩,?_⟩
    rintro _ ⟨e,there,ofE,rfl⟩
    exact (highest e ⟨there,ofE⟩).trans level

theorem addSymbol_unfiled {heap : Heap} {t : SymbolTable} {id : String} (sync : Synchronized (heap symbol))
    (unfiled : t.symbolMap.get? id = none) (other : (heap symbol).id = id → Absorbed (heap,t) symbol) :
    (t.addSymbol heap symbol).2.symbolMap.get? id = none := by
  have ready := prepare_synchronized heap symbol none
  have sameId := prepare_keeps_id symbol none sync
  have elsewhere : ∀ b, (t.lookupExisting (prepare heap symbol none) symbol).2 = some b →
      id ≠ (t.lookupExisting (prepare heap symbol none) symbol).1 := by
    intro b found here
    have filed := SymbolTable.lookupExisting_bucket found
    rw [← here,unfiled] at filed
    cases filed
  have apart : filesOwnId (SymbolTable.exitOf (prepare heap symbol none) symbol
      (t.lookupExisting (prepare heap symbol none) symbol).2) = true → id ≠ (heap symbol).id := by
    intro ownId here
    have absorbed := (other here.symm).2
    rw [ownId] at absorbed
    cases absorbed
  obtain ⟨onEnrich,_,onFurther,_⟩ := SymbolTable.exitOf_touches (prepare heap symbol none) symbol
    (t.lookupExisting (prepare heap symbol none) symbol).2
  simp only [SymbolTable.addSymbol,SymbolTable.insertPrepared,ready.getUnifiedId,sameId]
  generalize SymbolTable.exitOf (prepare heap symbol none) symbol
    (t.lookupExisting (prepare heap symbol none) symbol).2 = exit at apart onEnrich onFurther ⊢
  cases exit with
  | first => simp [SymbolTable.perform,SymbolTable.file,apart rfl,unfiled]
  | secondDuplicate e => simp [SymbolTable.perform,SymbolTable.file,apart rfl,unfiled]
  | enrich e => simp [SymbolTable.perform,SymbolTable.refile,elsewhere _ (onEnrich e rfl),unfiled]
  | furtherDuplicate l => simp [SymbolTable.perform,SymbolTable.file,elsewhere _ (onFurther l rfl),unfiled]
  | keepHigherLevel => exact unfiled
  | keepTopLevelClass => exact unfiled
  | keepSamePlace => exact unfiled
  | sameObject => exact unfiled

def KeepIds (heap : Heap) (declared : List Ref) (heap' : Heap) : Prop :=
  ∀ r ∈ declared, Synchronized (heap' r) ∧ (heap' r).id = (heap r).id

section

variable {keys : List String} {s : Heap × SymbolTable}

theorem mergeSymbol_keepIds (keepIds : KeepIds heap declared s.1)
    (symbol : Ref) : KeepIds heap declared (mergeSymbol keys s symbol).1 := by
  rw [mergeSymbol_eq]
  split
  next =>
    intro r member
    obtain ⟨sync,same⟩ := keepIds r member
    have ready := prepare_keeps_synchronized symbol none sync
    have readyId := (prepare_keeps_id symbol none sync).trans same
    rw [SymbolTable.addSymbol]
    rcases SymbolTable.insertPrepared_heap (prepare s.1 symbol none) s.2 symbol with kept | ⟨e,written⟩
    · rw [kept]
      exact ⟨ready,readyId⟩
    · rw [written]
      exact ⟨put_assign_synchronized e symbol ready,(put_assign_id _ e symbol r).trans readyId⟩
  next => exact keepIds

theorem turns_unfiled {symbols : List Ref} {id : String}
    (keepIds : KeepIds heap declared s.1) (members : ∀ r ∈ symbols, r ∈ declared)
    (others : ∀ r ∈ symbols, (heap r).id ≠ id) (unfiled : s.2.symbolMap.get? id = none) :
    (run (mergeSymbol keys) s symbols).2.symbolMap.get? id = none := by
  induction symbols generalizing s with
  | nil => exact unfiled
  | cons symbol symbols ih =>
    obtain ⟨sync,same⟩ := keepIds symbol (members symbol List.mem_cons_self)
    refine ih (mergeSymbol_keepIds keepIds symbol) (fun r member => members r (List.mem_cons_of_mem _ member))
      (fun r member => others r (List.mem_cons_of_mem _ member)) ?_
    rw [mergeSymbol_eq]
    split
    next => exact addSymbol_unfiled sync unfiled (fun own => absurd (same.symm.trans own) (others symbol List.mem_cons_self))
    next => exact unfiled

theorem everyStep_of_filed {symbols : List Ref}
    (keepIds : KeepIds heap declared s.1) (members : ∀ r ∈ symbols, r ∈ declared)
    (once : (symbols.map (fun r => (heap r).id)).Nodup)
    (filed : ∀ r ∈ symbols, (run (mergeSymbol keys) s symbols).2.symbolMap.get? (heap r).id ≠ none) :
    EveryStep (mergeSymbol keys) (KeepsItsId keys) s symbols := by
  induction symbols generalizing s with
  | nil => trivial
  | cons symbol symbols ih =>
    obtain ⟨sync,same⟩ := keepIds symbol (members symbol List.mem_cons_self)
    have later : ∀ r ∈ symbols, r ∈ declared := fun r member => members r (List.mem_cons_of_mem _ member)
    rw [List.map_cons,List.nodup_cons] at once
    refine ⟨?_,ih (mergeSymbol_keepIds keepIds symbol) later once.2 (fun r member => filed r (List.mem_cons_of_mem _ member))⟩
    intro adds absorbed
    apply filed symbol List.mem_cons_self
    rw [run_cons]
    refine turns_unfiled (mergeSymbol_keepIds keepIds symbol) later ?_ ?_
    · intro r member here
      exact once.1 (here ▸ List.mem_map_of_mem member)
    · rw [mergeSymbol_eq,if_pos adds]
      refine addSymbol_unfiled sync ?_ (fun _ => absorbed)
      have empty := absorbed.1
      rwa [prepare_keeps_id symbol none sync,same] at empty

end

theorem mergeSymbols_kept {t existing : SymbolTable}
    (parsed : ∀ r ∈ existing.getAllSymbols ++ t.getAllSymbols, Parsed (heap r)) :
    (Filed heap t → NoneAbsorbed heap t existing →
      EverythingKept heap (existing.getAllSymbols ++ t.getAllSymbols) (mergeSymbols heap t existing)) ∧
    ((existing.getAllSymbols.map (fun r => (heap r).id)).Nodup →
      EverythingKept heap (existing.getAllSymbols ++ t.getAllSymbols) (mergeSymbols heap t existing) →
        NoneAbsorbed heap t existing) := by
  have old : ∀ r ∈ existing.getAllSymbols, r ∈ existing.getAllSymbols ++ t.getAllSymbols :=
    fun r member => List.mem_append_left _ member
  have keyed : t.getAllSymbols.map (fun r => keyToString (heap r).key) = t.getAllSymbols.map (fun r => (heap r).id) :=
    List.map_congr_left fun r member => (parsed r (List.mem_append_right _ member)).synchronized.getUnifiedId ""
  constructor
  · intro filed every
    have merging := Merging.start parsed filed (fun r member => List.mem_append_right _ member)
    refine (Merging.turns merging old keyed every).everythingKept ?_
    intro r member
    rcases List.mem_append.mp member with stored | new
    · exact .inr (by simpa using stored)
    · exact .inl new
  · intro once kept
    refine everyStep_of_filed (fun r member => ⟨(parsed r member).synchronized,rfl⟩) old once ?_
    intro r member empty
    obtain ⟨s,held,_⟩ := kept.kept r (old r member)
    rw [mergeSymbols_eq,SymbolTable.getAllSymbolsById,empty] at held
    cases held

namespace SymbolGraph

def incoming (g : SymbolGraph) (c : Registration) : SymbolTable :=
  (g.table c.symbolTable).setFileUri (extractFilePathFromUri c.fileUri)

def publication (g : SymbolGraph) (c : Registration) : Heap × SymbolTable :=
  ((g.register c).heap,((g.register c).registered c.fileUri).elim {} (g.register c).table)

def declaredSymbols (g : SymbolGraph) (c : Registration) (stored : TableRef) : List Ref :=
  (g.table stored).getAllSymbols ++ (g.incoming c).getAllSymbols

theorem publication_of_merge {g : SymbolGraph} {c : Registration} (registered : g.registered c.fileUri = some stored)
    (merges : (g.report c).decision ∈ [.acceptedMerge,.acceptedFallbackMerge]) :
    (g.publication c).1 = (mergeSymbols g.heap (g.incoming c) (g.table stored)).1 ∧
      SameFiling (mergeSymbols g.heap (g.incoming c) (g.table stored)).2 (g.publication c).2 := by
  simp only [report,publication,register] at merges ⊢
  generalize called : g.registerSymbolTable c.symbolTable c.fileUri c.options = outcome at merges ⊢
  unfold registerSymbolTable at called
  extract_lets normalizedUri incomingVersion incoming at called
  split at called
  next unstored => exact absurd (registered.symm.trans unstored) (by simp)
  next existing found =>
    obtain rfl : stored = existing := Option.some.inj (registered.symm.trans found)
    extract_lets storedVersion storedTable isNewerVersion incomplete useReplace at called
    split at called
    next =>
      subst called
      simp at merges
    next =>
      split at called
      next =>
        subst called
        simp at merges
      next =>
        subst called
        have merge : useReplace = false := by
          cases replaced : useReplace with
          | false => rfl
          | true => simp [replaced] at merges
        simp only [merge,Bool.false_eq_true,if_false]
        have published : (g.fileToSymbolTable.set normalizedUri c.symbolTable).get (extractFilePathFromUri c.fileUri) =
            some c.symbolTable := CaseInsensitiveMap.get_set_self ..
        simp only [SymbolGraph.registered,published,Option.elim_some,table,setTable,Function.update_self]
        refine ⟨rfl,?_⟩
        split
        next =>
          obtain ⟨_,_,_,whole⟩ := mergeTypeReferences_eq (mergeSymbols g.heap incoming storedTable).2 storedTable
          exact whole ▸ ⟨rfl,rfl,rfl⟩
        next => exact ⟨rfl,rfl,rfl⟩

/-- A registration that merges keeps everything where the incoming table files each symbol under
its id and no stored symbol is lost to a namesake. Where the stored table lists each id once, it
keeps everything only then. -/
theorem merge_keeps_everything (g : SymbolGraph) (c : Registration) (stored : TableRef)
    (registered : g.registered c.fileUri = some stored)
    (merges : (g.report c).decision ∈ [.acceptedMerge,.acceptedFallbackMerge])
    (parsed : ∀ r ∈ g.declaredSymbols c stored, Parsed (g.heap r)) :
    (Filed g.heap (g.incoming c) → NoneAbsorbed g.heap (g.incoming c) (g.table stored) →
      EverythingKept g.heap (g.declaredSymbols c stored) (g.publication c)) ∧
    (((g.table stored).getAllSymbols.map (fun r => (g.heap r).id)).Nodup →
      EverythingKept g.heap (g.declaredSymbols c stored) (g.publication c) →
        NoneAbsorbed g.heap (g.incoming c) (g.table stored)) := by
  obtain ⟨heap,same⟩ := publication_of_merge registered merges
  have published : EverythingKept g.heap (g.declaredSymbols c stored) (g.publication c) ↔
      EverythingKept g.heap (g.declaredSymbols c stored) (mergeSymbols g.heap (g.incoming c) (g.table stored)) := by
    have bucket : ∀ id, (g.publication c).2.getAllSymbolsById id =
        (mergeSymbols g.heap (g.incoming c) (g.table stored)).2.getAllSymbolsById id := by
      intro id
      rw [SymbolTable.getAllSymbolsById,same.symbolMap]
      rfl
    have listed : (g.publication c).2.getAllSymbols =
        (mergeSymbols g.heap (g.incoming c) (g.table stored)).2.getAllSymbols := same.symbolArray
    constructor
    · intro everything
      refine ⟨?_,?_⟩
      · simpa only [bucket,listed,heap] using everything.kept
      · simpa only [listed,heap] using everything.nothingElse
    · intro everything
      refine ⟨?_,?_⟩
      · simpa only [bucket,listed,heap] using everything.kept
      · simpa only [listed,heap] using everything.nothingElse
  rw [published]
  exact mergeSymbols_kept parsed

end SymbolGraph

end

namespace SymbolGraph

/-- Two overloads of a class `C` in full, and again the second and the first as a pass over the
public methods captures them. -/
def overloads : Heap
  | .declared 0 => @SymbolTable.methodOfC asciiRuntime "foo" "String" .full .private_ 2
  | .declared 1 => @SymbolTable.methodOfC asciiRuntime "foo" "Integer" .full .public_ 3
  | .declared 2 => @SymbolTable.methodOfC asciiRuntime "foo" "Integer" .publicApi .public_ 3
  | _ => @SymbolTable.methodOfC asciiRuntime "foo" "String" .publicApi .private_ 2

/-- A table of `C` that lists `symbols`. -/
def listing (symbols : List Ref) : SymbolTable :=
  (symbols.foldl (fun t s => (@SymbolTable.addSymbol asciiRuntime overloads t s none).2) {}).setFileUri "file:///C.cls"

def twoTables (old new : List Ref) : @SymbolGraph asciiRuntime :=
  let _ := asciiRuntime
  { heap := overloads
    tables := fun t => if t = .parsed 0 then listing old else listing new
    fileToSymbolTable := CaseInsensitiveMap.empty.set "file:///C.cls" (.parsed 0) }

def secondTable : Registration := { symbolTable := .parsed 1,fileUri := "file:///C.cls" }

/-- The public pass saw both overloads. -/
theorem overloads_kept :
    let g := twoTables [.declared 0,.declared 1] [.declared 3,.declared 2]
    EverythingKept overloads (@declaredSymbols asciiRuntime g secondTable (.parsed 0))
      (@publication asciiRuntime g secondTable) :=
  (@merge_keeps_everything asciiRuntime (twoTables [.declared 0,.declared 1] [.declared 3,.declared 2]) secondTable
    (.parsed 0) (by decide +kernel) (by decide +kernel) (by decide +kernel)).1 (by decide +kernel) (by decide +kernel)

/-- The public pass saw `foo(Integer)` alone: the private `foo(String)` is taken for it, overwrites
it, and is not under its own id any more. -/
theorem private_overload_lost :
    ¬ ∀ (g : @SymbolGraph asciiRuntime) (c : Registration) (stored : TableRef),
      let _ := asciiRuntime
      g.registered c.fileUri = some stored → (g.report c).decision ∈ [.acceptedMerge,.acceptedFallbackMerge] →
        (∀ r ∈ g.declaredSymbols c stored, Parsed (g.heap r)) →
          EverythingKept g.heap (g.declaredSymbols c stored) (g.publication c) := by
  intro always
  let _ := asciiRuntime
  let g := twoTables [.declared 0,.declared 1] [.declared 2]
  have everything := always g secondTable (.parsed 0) (by decide +kernel) (by decide +kernel) (by decide +kernel)
  obtain ⟨s,held,_⟩ := everything.kept (.declared 0) (by decide +kernel)
  have none_ : (g.publication secondTable).2.getAllSymbolsById (g.heap (.declared 0)).id = [] := by decide +kernel
  rw [none_] at held
  cases held

end SymbolGraph

end ApexLs.Symbols
