import ApexLs.Symbols.ReferenceIndexes

/-! The three reference indexes mirror one another. A minted key is new because the counter of
its source only grows, also across deletions, and because the separator cuts a key in one
way up to case. -/
namespace ApexLs.Symbols

open ApexLs.Utils ApexLs.Types ApexLs.Collections

theorem toString_injective {m n : Nat} (same : toString m = toString n) : m = n := by
  have digits : Nat.toDigits 10 m = Nat.toDigits 10 n := by
    rw [← toString_toList,← toString_toList,same]
  rw [← Nat.ofDigitChars_toDigits (b := 10) (n := m) (by decide) (by decide),digits,
    Nat.ofDigitChars_toDigits (by decide) (by decide)]

theorem makeInternalKey_numeral_injective {a b : String} {m n : Nat}
    (same : makeInternalKey a (toString m) = makeInternalKey b (toString n)) : a = b ∧ m = n := by
  have noSeparator : ∀ k : Nat, ∀ c ∈ (toString k).toList.reverse, c ≠ '\x1f' := by
    rintro k c member rfl
    exact absurd (numeral_digit k _ (List.mem_reverse.mp member)) (by decide)
  have chars : a.toList ++ '\x1f' :: (toString m).toList = b.toList ++ '\x1f' :: (toString n).toList := by
    have lists := congrArg String.toList same
    simpa [makeInternalKey,separator] using lists
  have reversed := congrArg List.reverse chars
  simp only [List.reverse_append,List.reverse_cons,List.append_assoc,List.cons_append,List.nil_append] at reversed
  have cut : ∀ (k : Nat) (rest : List Char),
      ((toString k).toList.reverse ++ '\x1f' :: rest).takeWhile (· ≠ '\x1f') = (toString k).toList.reverse := by
    intro k rest
    rw [List.takeWhile_append_of_pos (by simpa using noSeparator k)]
    simp
  have tails := congrArg (List.takeWhile (· ≠ '\x1f')) reversed
  rw [cut,cut] at tails
  have numerals : m = n := toString_injective (String.toList_inj.mp (List.reverse_inj.mp tails))
  subst numerals
  refine ⟨?_,rfl⟩
  have fronts := List.append_cancel_left reversed
  exact String.toList_inj.mp (List.reverse_inj.mp (List.cons.inj fronts).2)

section

variable [Runtime]

theorem toLowerCase_makeInternalKey (a b : String) :
    toLowerCase (makeInternalKey a b) = makeInternalKey (toLowerCase a) (toLowerCase b) :=
  Runtime.lower_separator a b

theorem toLowerCase_makeRefKey (sourceFileUri sourceSymbolId : String) (n : Nat) :
    toLowerCase (makeRefKey sourceFileUri sourceSymbolId n) =
      makeInternalKey (toLowerCase (makeSourceCounterKey sourceFileUri sourceSymbolId)) (toString n) := by
  rw [makeRefKey,toLowerCase_makeInternalKey,Runtime.lower_numeral]
  rfl

theorem makeRefKey_injective (same : toLowerCase (makeRefKey f s m) = toLowerCase (makeRefKey f' s' n)) :
    toLowerCase (makeSourceCounterKey f s) = toLowerCase (makeSourceCounterKey f' s') ∧ m = n := by
  rw [toLowerCase_makeRefKey,toLowerCase_makeRefKey] at same
  exact makeInternalKey_numeral_injective same

namespace ReferenceIndexes

def forwardKey (e : RefStoreEntry) : String := toLowerCase e.sourceFileUri

def reverseKey (e : RefStoreEntry) : String := toLowerCase e.targetIndexKey

/-- The indexes mirror the store, keys come from their source's counter, and no reference is
stored twice. -/
structure Coherent (g : ReferenceIndexes) : Prop where
  forward : Mirrors g.refStore.Holds forwardKey g.forwardIndex.lookup
  reverse : Mirrors g.refStore.Holds reverseKey g.reverseIndex.lookup
  minted : ∀ k e, g.refStore.Holds k e →
    ∃ n < g.counter e.sourceFileUri e.sourceSymbolId, k = makeRefKey e.sourceFileUri e.sourceSymbolId n
  distinct : ∀ k e k' e', g.refStore.Holds k e → g.refStore.Holds k' e' →
    e.SameReference e' → reverseKey e = reverseKey e' → k = k'

theorem Coherent.empty : Coherent {} where
  forward := Mirrors.empty _ CaseInsensitiveMap.not_holds_empty (fun _ => rfl)
  reverse := Mirrors.empty _ CaseInsensitiveMap.not_holds_empty (fun _ => rfl)
  minted k e holds := absurd holds (CaseInsensitiveMap.not_holds_empty k e)
  distinct k e _ _ holds := absurd holds (CaseInsensitiveMap.not_holds_empty k e)

theorem lookup_addToSet (index : CaseInsensitiveMap (OrderedSet String)) (key refKey k : String) :
    (addToSet index key refKey).lookup k =
      if k = toLowerCase key then some (((index.lookup (toLowerCase key)).getD .empty).add refKey)
      else index.lookup k :=
  CaseInsensitiveMap.lookup_set _ _ _ _

theorem lookup_removeFromSet (index : CaseInsensitiveMap (OrderedSet String)) (key refKey k : String) :
    (removeFromSet index key refKey).lookup k =
      if k = toLowerCase key then (index.lookup (toLowerCase key)).bind (dropItem refKey)
      else index.lookup k := by
  unfold removeFromSet
  cases found : index.get key with
  | none =>
    have absent : index.lookup (toLowerCase key) = none := found
    by_cases same : k = toLowerCase key
    · simp [same,absent]
    · simp [same]
  | some s =>
    have present : index.lookup (toLowerCase key) = some s := found
    rw [present]
    simp only [Option.bind_some,dropItem]
    split
    next => rw [CaseInsensitiveMap.lookup_delete]
    next => rw [CaseInsensitiveMap.lookup_set]

theorem Coherent.mint_fresh {g : ReferenceIndexes} (coherent : Coherent g) (f s : String) :
    g.refStore.get (makeRefKey f s (g.counter f s)) = none := by
  cases found : g.refStore.get (makeRefKey f s (g.counter f s)) with
  | none => rfl
  | some e =>
    obtain ⟨k,holds,same⟩ := CaseInsensitiveMap.get_eq_some_iff.mp found
    obtain ⟨n,bound,rfl⟩ := coherent.minted k e holds
    obtain ⟨sameSource,rfl⟩ := makeRefKey_injective same
    have sameCounter : g.counter e.sourceFileUri e.sourceSymbolId = g.counter f s := by
      simp only [counter,CaseInsensitiveMap.get,sameSource]
    omega

theorem counter_mono (g : ReferenceIndexes) (f s f' s' : String) :
    g.counter f' s' ≤ (g.generateRefKey f s).2.counter f' s' := by
  simp only [generateRefKey,counter,CaseInsensitiveMap.get_set]
  split
  next same =>
    have sameCounter : g.refIndexCounters.get (makeSourceCounterKey f' s') =
        g.refIndexCounters.get (makeSourceCounterKey f s) := by
      simp only [CaseInsensitiveMap.get,same]
    simp [sameCounter]
  next => exact Nat.le_refl _

theorem counter_generateRefKey (g : ReferenceIndexes) (f s : String) :
    (g.generateRefKey f s).2.counter f s = g.counter f s + 1 := by
  simp [generateRefKey,counter]

theorem Coherent.no_duplicate {g : ReferenceIndexes} (coherent : Coherent g) (new : g.hasDuplicate entry = false)
    (holds : g.refStore.Holds k e) (sameTarget : reverseKey e = reverseKey entry) : ¬ e.SameReference entry := by
  intro same
  obtain ⟨s,found,member⟩ := (coherent.reverse.lists (reverseKey entry) k).mpr ⟨e,holds,sameTarget⟩
  have get : g.reverseIndex.get entry.targetIndexKey = some s := found
  rw [hasDuplicate,get] at new
  simp only [Option.elim_some,List.any_eq_false] at new
  exact absurd (new k member) (by simp [holds.get,same])

theorem addReferenceToIndexes_coherent {g : ReferenceIndexes} (coherent : Coherent g) (entry : RefStoreEntry) :
    Coherent (g.addReferenceToIndexes entry).2 := by
  unfold addReferenceToIndexes
  cases new : g.hasDuplicate entry with
  | true => exact coherent
  | false =>
    simp only [Bool.false_eq_true,if_false]
    have fresh := coherent.mint_fresh entry.sourceFileUri entry.sourceSymbolId
    have stored : ∀ j e, (g.refStore.set (makeRefKey entry.sourceFileUri entry.sourceSymbolId
        (g.counter entry.sourceFileUri entry.sourceSymbolId)) entry).Holds j e ↔
          (j = makeRefKey entry.sourceFileUri entry.sourceSymbolId
            (g.counter entry.sourceFileUri entry.sourceSymbolId) ∧ e = entry) ∨ g.refStore.Holds j e :=
      fun j e => CaseInsensitiveMap.holds_set_fresh fresh
    refine ⟨coherent.forward.insert stored (lookup_addToSet _ _ _),
      coherent.reverse.insert stored (lookup_addToSet _ _ _),?_,?_⟩
    · intro k e holds
      rcases (stored k e).mp holds with ⟨rfl,rfl⟩ | old
      · refine ⟨g.counter e.sourceFileUri e.sourceSymbolId,?_,rfl⟩
        exact Nat.lt_of_lt_of_eq (Nat.lt_succ_self _) (counter_generateRefKey g _ _).symm
      · obtain ⟨n,bound,same⟩ := coherent.minted k e old
        exact ⟨n,Nat.lt_of_lt_of_le bound (counter_mono g _ _ _ _),same⟩
    · intro k e k' e' holds holds' same sameTarget
      rcases (stored k e).mp holds with ⟨rfl,rfl⟩ | old <;> rcases (stored k' e').mp holds' with ⟨rfl,rfl⟩ | old'
      · rfl
      · obtain ⟨source,target,type,line,column⟩ := same
        exact absurd ⟨source.symm,target.symm,type.symm,line.symm,column.symm⟩
          (coherent.no_duplicate new old' sameTarget.symm)
      · exact absurd same (coherent.no_duplicate new old sameTarget)
      · exact coherent.distinct k e k' e' old old' same sameTarget

def Listed (g : ReferenceIndexes) (k : String) : Prop := (∃ e, g.refStore.Holds k e) ∨ g.refStore.get k = none

section

variable {g : ReferenceIndexes}

theorem removeReferenceKey_holds (listed : g.Listed k) :
    (g.removeReferenceKey k).refStore.Holds j e ↔ g.refStore.Holds j e ∧ j ≠ k := by
  unfold removeReferenceKey
  rcases listed with ⟨entry,holds⟩ | absent
  · rw [holds.get]
    simp only [CaseInsensitiveMap.holds_delete]
    constructor
    · rintro ⟨held,apart⟩
      exact ⟨held,fun same => apart (by rw [same])⟩
    · rintro ⟨held,apart⟩
      exact ⟨held,fun same => apart (held.unique holds same).1⟩
  · rw [absent]
    constructor
    · intro held
      refine ⟨held,?_⟩
      rintro rfl
      rw [held.get] at absent
      simp at absent
    · exact And.left

theorem removeReferenceKey_coherent (coherent : Coherent g) (listed : g.Listed k) :
    Coherent (g.removeReferenceKey k) := by
  have stored : ∀ j e, (g.removeReferenceKey k).refStore.Holds j e ↔ g.refStore.Holds j e ∧ j ≠ k :=
    fun j e => removeReferenceKey_holds listed
  rcases listed with ⟨entry,holds⟩ | absent
  · have only : ∀ e', g.refStore.Holds k e' → e' = entry := fun e' held => (held.unique holds rfl).2
    have removed : g.removeReferenceKey k = { g with
        reverseIndex := removeFromSet g.reverseIndex entry.targetIndexKey k
        forwardIndex := removeFromSet g.forwardIndex entry.sourceFileUri k
        refStore := g.refStore.delete k } := by
      simp only [removeReferenceKey,holds.get]
    rw [removed] at stored ⊢
    refine ⟨coherent.forward.remove stored only holds (lookup_removeFromSet _ _ _),
      coherent.reverse.remove stored only holds (lookup_removeFromSet _ _ _),?_,?_⟩
    · exact fun j e held => coherent.minted j e ((stored j e).mp held).1
    · exact fun j e j' e' held held' => coherent.distinct j e j' e' ((stored j e).mp held).1 ((stored j' e').mp held').1
  · have kept : g.removeReferenceKey k = g := by
      simp only [removeReferenceKey,absent]
    rwa [kept]

theorem removeReferenceKey_listed (listed : g.Listed k) (listed' : g.Listed j) :
    (g.removeReferenceKey k).Listed j := by
  rcases listed' with ⟨e,held⟩ | absent
  · by_cases same : j = k
    · right
      cases found : (g.removeReferenceKey k).refStore.get j with
      | none => rfl
      | some e' =>
        obtain ⟨o,holds,sameCase⟩ := CaseInsensitiveMap.get_eq_some_iff.mp found
        obtain ⟨old,apart⟩ := (removeReferenceKey_holds listed).mp holds
        exact absurd ((old.unique held sameCase).1.trans same) apart
    · exact .inl ⟨e,(removeReferenceKey_holds listed).mpr ⟨held,same⟩⟩
  · right
    cases found : (g.removeReferenceKey k).refStore.get j with
    | none => rfl
    | some e' =>
      obtain ⟨o,holds,sameCase⟩ := CaseInsensitiveMap.get_eq_some_iff.mp found
      obtain ⟨old,_⟩ := (removeReferenceKey_holds listed).mp holds
      rw [CaseInsensitiveMap.get_eq_some_iff.mpr ⟨o,old,sameCase⟩] at absent
      simp at absent

theorem removeReferenceKeys_spec (coherent : Coherent g) (keys : List String)
    (listed : ∀ k ∈ keys, g.Listed k) :
    Coherent (g.removeReferenceKeys keys) ∧
      ∀ j e, (g.removeReferenceKeys keys).refStore.Holds j e ↔ g.refStore.Holds j e ∧ j ∉ keys := by
  induction keys generalizing g with
  | nil => exact ⟨coherent,by simp [removeReferenceKeys]⟩
  | cons k keys ih =>
    have here := listed k List.mem_cons_self
    obtain ⟨after,stored⟩ := ih (removeReferenceKey_coherent coherent here)
      (fun j member => removeReferenceKey_listed here (listed j (List.mem_cons_of_mem _ member)))
    refine ⟨after,fun j e => ?_⟩
    change ((g.removeReferenceKey k).removeReferenceKeys keys).refStore.Holds j e ↔ _
    rw [stored,removeReferenceKey_holds here]
    simp [and_assoc]

theorem Coherent.listed_of_mirror {key : RefStoreEntry → String}
    {index : CaseInsensitiveMap (OrderedSet String)} (mirrors : Mirrors g.refStore.Holds key index.lookup)
    (at_ : String) : ∀ k ∈ (index.get at_).elim [] OrderedSet.elements, g.Listed k := by
  intro k member
  cases found : index.get at_ with
  | none => simp [found] at member
  | some s =>
    obtain ⟨e,holds,_⟩ := (mirrors.lists (toLowerCase at_) k).mp ⟨s,found,by simpa [found] using member⟩
    exact .inl ⟨e,holds⟩

theorem mem_elements_of_mirror {key : RefStoreEntry → String}
    {index : CaseInsensitiveMap (OrderedSet String)} (mirrors : Mirrors g.refStore.Holds key index.lookup)
    {at_ k : String} : k ∈ (index.get at_).elim [] OrderedSet.elements ↔
      ∃ e, g.refStore.Holds k e ∧ key e = toLowerCase at_ := by
  rw [← mirrors.lists]
  change k ∈ (index.lookup (toLowerCase at_)).elim [] OrderedSet.elements ↔ _
  unfold Collections.Lists
  cases index.lookup (toLowerCase at_) <;> simp

theorem removeReferencesFromFile_spec (coherent : Coherent g) (fileUri : String) :
    Coherent (g.removeReferencesFromFile fileUri) ∧ ∀ j e,
      (g.removeReferencesFromFile fileUri).refStore.Holds j e ↔
        g.refStore.Holds j e ∧ toLowerCase e.sourceFileUri ≠ toLowerCase fileUri := by
  obtain ⟨after,stored⟩ := removeReferenceKeys_spec coherent _ (Coherent.listed_of_mirror coherent.forward fileUri)
  refine ⟨after,fun j e => (stored j e).trans (and_congr_right fun held => not_congr ?_)⟩
  rw [mem_elements_of_mirror coherent.forward]
  constructor
  · rintro ⟨e',held',same⟩
    rwa [(held.unique held' rfl).2]
  · exact fun same => ⟨e,held,same⟩

theorem removeIncomingReferences_spec (coherent : Coherent g) (fileUri symbolId : String) :
    Coherent (removeIncomingReferences fileUri g symbolId) ∧ ∀ j e,
      (removeIncomingReferences fileUri g symbolId).refStore.Holds j e ↔
        g.refStore.Holds j e ∧ reverseKey e ≠ toLowerCase (makeQualifiedSymbolKey fileUri symbolId) := by
  obtain ⟨after,stored⟩ := removeReferenceKeys_spec coherent _
    (Coherent.listed_of_mirror coherent.reverse (makeQualifiedSymbolKey fileUri symbolId))
  refine ⟨after,fun j e => (stored j e).trans (and_congr_right fun held => not_congr ?_)⟩
  rw [mem_elements_of_mirror coherent.reverse]
  constructor
  · rintro ⟨e',held',same⟩
    rwa [(held.unique held' rfl).2]
  · exact fun same => ⟨e,held,same⟩

theorem removeIncomingReferencesToSymbols_spec (coherent : Coherent g)
    (symbolIds : List String) (fileUri : String) :
    Coherent (g.removeIncomingReferencesToSymbols symbolIds fileUri) ∧ ∀ j e,
      (g.removeIncomingReferencesToSymbols symbolIds fileUri).refStore.Holds j e ↔
        g.refStore.Holds j e ∧ ∀ id ∈ symbolIds,
          reverseKey e ≠ toLowerCase (makeQualifiedSymbolKey (extractFilePathFromUri fileUri) id) := by
  unfold removeIncomingReferencesToSymbols
  induction symbolIds generalizing g with
  | nil => exact ⟨coherent,by simp⟩
  | cons id ids ih =>
    obtain ⟨first,storedFirst⟩ := removeIncomingReferences_spec coherent (extractFilePathFromUri fileUri) id
    obtain ⟨after,stored⟩ := ih first
    refine ⟨after,fun j e => ?_⟩
    rw [List.foldl_cons,stored,storedFirst]
    simp [and_assoc]

end

end ReferenceIndexes
end
end ApexLs.Symbols
