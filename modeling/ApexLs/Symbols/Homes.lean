import ApexLs.Symbols.GraphRuns
import ApexLs.Types.SymbolTableIndexes

/-! Where symbols are at home. The parser gives a declaration an id, a key and a file that
agree; as long as every file is handed its own symbols, whatever the graph answers for a
symbol is a symbol of the same file. Files are compared ignoring case. -/
namespace ApexLs.Symbols

open ApexLs.Utils ApexLs.Types ApexLs.Collections

section

variable [Runtime]

def homeOf (s : ApexSymbol) : String := toLowerCase s.fileUri

/-- The id, the key and the file of a symbol agree, and the file is written as the graph
normalises it. -/
structure Homed (s : ApexSymbol) : Prop where
  normal : extractFilePathFromUri s.fileUri = s.fileUri
  hasId : s.id ≠ ""
  ofId : toLowerCase (extractFilePathFromUri s.id) = homeOf s
  key : ∃ u, s.key.unifiedId = some u ∧ u ≠ "" ∧ toLowerCase (extractFilePathFromUri u) = homeOf s
  keyFile : ∃ f, s.key.fileUri = some f ∧ f ≠ "" ∧ extractFilePathFromUri f = f ∧ toLowerCase f = homeOf s
  plain : '\x1f' ∉ (homeOf s).toList

instance (s : ApexSymbol) : Decidable (Homed s) :=
  decidable_of_iff (extractFilePathFromUri s.fileUri = s.fileUri ∧ s.id ≠ "" ∧
      toLowerCase (extractFilePathFromUri s.id) = homeOf s ∧
      (s.key.unifiedId.any fun u => u ≠ "" ∧ toLowerCase (extractFilePathFromUri u) = homeOf s) ∧
      (s.key.fileUri.any fun f => f ≠ "" ∧ extractFilePathFromUri f = f ∧ toLowerCase f = homeOf s) ∧
      '\x1f' ∉ (homeOf s).toList) (by
    simp only [Option.any_eq_true,decide_eq_true_eq]
    exact ⟨fun ⟨normal,hasId,ofId,key,keyFile,plain⟩ => ⟨normal,hasId,ofId,key,keyFile,plain⟩,
      fun homed => ⟨homed.normal,homed.hasId,homed.ofId,homed.key,homed.keyFile,homed.plain⟩⟩)

/-- The object is homed; one the graph made is homed where its id says. -/
def Sound (heap : Heap) (r : Ref) : Prop :=
  Homed (heap r) ∧ ∀ id, r = .scalar id → homeOf (heap r) = toLowerCase (extractFilePathFromUri id)

def Stays (heap heap' : Heap) : Prop :=
  ∀ r, Sound heap r → Sound heap' r ∧ homeOf (heap' r) = homeOf (heap r)

theorem Stays.refl (heap : Heap) : Stays heap heap := fun _ sound => ⟨sound,rfl⟩

theorem Stays.trans {heap heap' heap'' : Heap} (first : Stays heap heap') (second : Stays heap' heap'') :
    Stays heap heap'' := by
  intro r sound
  obtain ⟨sound',same⟩ := first r sound
  obtain ⟨sound'',same'⟩ := second r sound'
  exact ⟨sound'',same'.trans same⟩

theorem Stays.put {heap : Heap} {r : Ref} {s : ApexSymbol}
    (kept : Sound heap r → Homed s ∧ homeOf s = homeOf (heap r)) : Stays heap (heap.put r s) := by
  intro r' sound
  by_cases same : r' = r
  · subst same
    obtain ⟨homed,sameHome⟩ := kept sound
    refine ⟨⟨?_,?_⟩,?_⟩
    · simpa using homed
    · intro id scalar
      rw [Heap.put_self,sameHome]
      exact sound.2 id scalar
    · rw [Heap.put_self,sameHome]
  · have untouched := Heap.put_of_ne heap s same
    exact ⟨⟨untouched ▸ sound.1,fun id scalar => untouched ▸ sound.2 id scalar⟩,by rw [untouched]⟩

theorem Homed.congr {s s' : ApexSymbol} (homed : Homed s) (id : s'.id = s.id) (file : s'.fileUri = s.fileUri)
    (unified : s'.key.unifiedId = s.key.unifiedId) (keyFile : s'.key.fileUri = s.key.fileUri) :
    Homed s' ∧ homeOf s' = homeOf s := by
  have sameHome : homeOf s' = homeOf s := congrArg toLowerCase file
  refine ⟨⟨?_,?_,?_,?_,?_,?_⟩,sameHome⟩
  · rw [file]
    exact homed.normal
  · exact id ▸ homed.hasId
  · rw [id,sameHome]
    exact homed.ofId
  · rw [unified,sameHome]
    exact homed.key
  · rw [keyFile,sameHome]
    exact homed.keyFile
  · exact sameHome ▸ homed.plain

theorem Homed.synchronizeKey {s : ApexSymbol} (homed : Homed s) :
    Homed (synchronizeKey s) ∧ homeOf (synchronizeKey s) = homeOf s := by
  obtain ⟨u,unified,nonempty,home⟩ := homed.key
  obtain ⟨f,keyFile,given,normal,sameHome⟩ := homed.keyFile
  have written : Types.synchronizeKey s = { s with id := u,fileUri := f } := by
    simp [Types.synchronizeKey,truthy,unified,nonempty,keyFile,orElse,given]
  have sameHome' : homeOf (Types.synchronizeKey s) = homeOf s := by rw [written]; exact sameHome
  refine ⟨⟨?_,?_,?_,?_,?_,?_⟩,sameHome'⟩
  · rw [written]
    exact normal
  · rw [written]
    exact nonempty
  · rw [sameHome',written]
    exact home
  · rw [sameHome',written]
    exact homed.key
  · rw [sameHome',written]
    exact homed.keyFile
  · exact sameHome' ▸ homed.plain

theorem prepare_stays (heap : Heap) (symbol : Ref) (scope : Option String) : Stays heap (prepare heap symbol scope) := by
  apply Stays.put
  intro sound
  obtain ⟨homed,sameHome⟩ := sound.1.synchronizeKey
  have file : (adoptParent scope (synchronizeKey (heap symbol))).fileUri = (synchronizeKey (heap symbol)).fileUri := by
    unfold adoptParent
    split <;> rfl
  obtain ⟨adopted,sameHome'⟩ := homed.congr (adoptParent_id scope _) file (by rw [adoptParent_key])
    (by rw [adoptParent_key])
  exact ⟨adopted,sameHome'.trans sameHome⟩

theorem Homed.assign {existing symbol : ApexSymbol} (homed : Homed existing) (other : Homed symbol)
    (sameHome : homeOf symbol = homeOf existing) :
    Homed (assign existing symbol) ∧ homeOf (assign existing symbol) = homeOf existing := by
  have here : homeOf (Types.assign existing symbol) = homeOf existing := sameHome
  refine ⟨⟨other.normal,homed.hasId,?_,?_,?_,?_⟩,here⟩
  · rw [here]
    exact homed.ofId
  · rw [here]
    exact homed.key
  · rw [here]
    exact homed.keyFile
  · exact here ▸ homed.plain

def Within (heap : Heap) (t : SymbolTable) (file : String) : Prop :=
  ∀ s ∈ heldSymbols t, Sound heap s ∧ homeOf (heap s) = file

theorem Within.stays {heap heap' : Heap} {t : SymbolTable} (within : Within heap t file) (stays : Stays heap heap') :
    Within heap' t file := by
  intro s held
  obtain ⟨sound,home⟩ := within s held
  obtain ⟨sound',same⟩ := stays s sound
  exact ⟨sound',same.trans home⟩

omit [Runtime] in
theorem heldSymbols_set {t t' : SymbolTable} {allowed : Ref → Prop}
    (map : t'.symbolMap = t.symbolMap ∨ ∃ key b, t'.symbolMap = t.symbolMap.set key b ∧ ∀ s ∈ b.symbols, allowed s)
    (array : ∀ s ∈ t'.symbolArray, allowed s) (old : ∀ s ∈ heldSymbols t, allowed s) :
    ∀ s ∈ heldSymbols t', allowed s := by
  intro s held
  rcases mem_heldSymbols.mp held with listed | ⟨id,b,filed,member⟩
  · exact array s listed
  · rcases map with same | ⟨key,bucket,same,new⟩
    · exact old s (mem_heldSymbols.mpr (.inr ⟨id,b,same ▸ filed,member⟩))
    · rw [same,OrderedMap.get?_set] at filed
      split at filed
      next =>
        obtain rfl := Option.some.inj filed
        exact new s member
      next => exact old s (mem_heldSymbols.mpr (.inr ⟨id,b,filed,member⟩))

omit [Runtime] in
theorem perform_held {heap : Heap} {t : SymbolTable} {symbol : Ref} {exit : SymbolTable.Exit}
    (onEnrich : ∀ e, exit = .enrich e → e ∈ heldSymbols t) (onSecond : ∀ e, exit = .secondDuplicate e → e ∈ heldSymbols t)
    (onFurther : ∀ l, exit = .furtherDuplicate l → ∀ e ∈ l, e ∈ heldSymbols t) (symbolKey effectiveKey : String)
    (previous : ParentId) : ∀ s ∈ heldSymbols (t.perform heap symbol symbolKey effectiveKey previous exit).2,
      s ∈ heldSymbols t ∨ s = symbol := by
  have listed : ∀ s ∈ t.symbolArray, s ∈ heldSymbols t ∨ s = symbol :=
    fun s member => .inl (mem_heldSymbols.mpr (.inl member))
  cases exit with
  | first =>
    refine heldSymbols_set (t := t) (.inr ⟨symbolKey,.single symbol,rfl,?_⟩) ?_ (fun s held => .inl held)
    · intro s member
      exact .inr (by simpa [Bucket.symbols] using member)
    · intro s member
      rcases SymbolTable.mem_foldl_pushIfAbsent.mp member with old | new
      · exact listed s old
      · exact .inr (by simpa using new)
  | enrich e =>
    have here := onEnrich e rfl
    refine heldSymbols_set (t := t) (.inr ⟨effectiveKey,.single e,rfl,?_⟩) ?_ (fun s held => .inl held)
    · intro s member
      obtain rfl : s = e := by simpa [Bucket.symbols] using member
      exact .inl here
    · intro s member
      change s ∈ t.symbolArray.filter _ ++ [e] at member
      rcases List.mem_append.mp member with old | new
      · exact listed s (List.mem_of_mem_filter old)
      · obtain rfl : s = e := by simpa using new
        exact .inl here
  | secondDuplicate e =>
    have here := onSecond e rfl
    refine heldSymbols_set (t := t) (.inr ⟨symbolKey,.many [e,symbol],rfl,?_⟩) ?_ (fun s held => .inl held)
    · intro s member
      rcases (by simpa [Bucket.symbols] using member : s = e ∨ s = symbol) with rfl | rfl
      · exact .inl here
      · exact .inr rfl
    · intro s member
      rcases SymbolTable.mem_foldl_pushIfAbsent.mp member with old | new
      · exact listed s old
      · rcases (by simpa using new : s = symbol ∨ s = e) with rfl | rfl
        · exact .inr rfl
        · exact .inl here
  | furtherDuplicate duplicates =>
    have here := onFurther duplicates rfl
    have extended : ∀ s ∈ SymbolTable.pushIfAbsent duplicates symbol, s ∈ heldSymbols t ∨ s = symbol := by
      intro s member
      rcases SymbolTable.mem_pushIfAbsent.mp member with old | rfl
      · exact .inl (here s old)
      · exact .inr rfl
    refine heldSymbols_set (t := t) (.inr ⟨effectiveKey,_,rfl,extended⟩) ?_ (fun s held => .inl held)
    intro s member
    rcases SymbolTable.mem_foldl_pushIfAbsent.mp member with old | new
    · exact listed s old
    · rcases List.mem_cons.mp new with rfl | new
      · exact .inr rfl
      · exact extended s new
  | keepHigherLevel => exact fun s held => .inl held
  | keepTopLevelClass => exact fun s held => .inl held
  | keepSamePlace => exact fun s held => .inl held
  | sameObject => exact fun s held => .inl held

theorem enriched_held {heap : Heap} {t : SymbolTable} {symbol e : Ref}
    (taken : SymbolTable.exitOf heap symbol (t.lookupExisting heap symbol).2 = .enrich e) : e ∈ heldSymbols t := by
  obtain ⟨onEnrich,_⟩ := SymbolTable.exitOf_touches heap symbol (t.lookupExisting heap symbol).2
  have found := onEnrich e taken
  exact mem_heldSymbols.mpr (.inr ⟨_,_,SymbolTable.lookupExisting_bucket found,by simp [Bucket.symbols]⟩)

theorem addSymbol_held {heap : Heap} {t : SymbolTable} {symbol : Ref} (held : s ∈ heldSymbols (t.addSymbol heap symbol).2) :
    s ∈ heldSymbols t ∨ s = symbol := by
  simp only [SymbolTable.addSymbol,SymbolTable.insertPrepared] at held
  generalize prepare heap symbol none = heap' at held
  obtain ⟨_,onSecond,onFurther,_⟩ := SymbolTable.exitOf_touches heap' symbol (t.lookupExisting heap' symbol).2
  have filed : ∀ b, (t.lookupExisting heap' symbol).2 = some b → ∀ e ∈ b.symbols, e ∈ heldSymbols t :=
    fun b found e member => mem_heldSymbols.mpr (.inr ⟨_,b,SymbolTable.lookupExisting_bucket found,member⟩)
  exact perform_held (fun _ taken => enriched_held taken)
    (fun e taken => filed _ (onSecond e taken) e (by simp [Bucket.symbols]))
    (fun l taken e member => filed _ (onFurther l taken) e member) _ _ _ s held

theorem Within.addSymbol {heap : Heap} {t : SymbolTable} (within : Within heap t file) {symbol : Ref}
    (sound : Sound heap symbol) (home : homeOf (heap symbol) = file) :
    Stays heap (t.addSymbol heap symbol).1 ∧ Within (t.addSymbol heap symbol).1 (t.addSymbol heap symbol).2 file := by
  have stays : Stays heap (t.addSymbol heap symbol).1 := by
    have prepared := prepare_stays heap symbol none
    obtain ⟨sound',home'⟩ := prepared symbol sound
    have within' := within.stays prepared
    simp only [SymbolTable.addSymbol,SymbolTable.insertPrepared]
    generalize prepare heap symbol none = heap' at prepared within' sound' home'
    refine prepared.trans ?_
    cases taken : SymbolTable.exitOf heap' symbol (t.lookupExisting heap' symbol).2 with
    | enrich e =>
      apply Stays.put
      intro _
      obtain ⟨soundE,homeE⟩ := within' e (enriched_held taken)
      exact soundE.1.assign sound'.1 ((home'.trans home).trans homeE.symm)
    | _ => exact Stays.refl heap'
  refine ⟨stays,fun s member => ?_⟩
  rcases addSymbol_held member with old | rfl
  · obtain ⟨soundS,homeS⟩ := within s old
    obtain ⟨soundS',sameS⟩ := stays s soundS
    exact ⟨soundS',sameS.trans homeS⟩
  · obtain ⟨soundS,sameS⟩ := stays s sound
    exact ⟨soundS,sameS.trans home⟩

theorem addSymbol_metadata (heap : Heap) (t : SymbolTable) (symbol : Ref) :
    (t.addSymbol heap symbol).2.fileUri = t.fileUri ∧ (t.addSymbol heap symbol).2.metadata = t.metadata := by
  simp only [SymbolTable.addSymbol,SymbolTable.insertPrepared]
  generalize SymbolTable.exitOf (prepare heap symbol none) symbol _ = exit
  cases exit with
  | _ => exact ⟨rfl,rfl⟩

theorem addSymbol_fileUri (heap : Heap) (t : SymbolTable) (symbol : Ref) :
    (t.addSymbol heap symbol).2.fileUri = t.fileUri := (addSymbol_metadata heap t symbol).1

theorem mergeSymbols_keeps {I : Heap × SymbolTable → Prop} {existing : SymbolTable}
    (keeps : ∀ heap t, ∀ s ∈ existing.getAllSymbols, I (heap,t) → I (t.addSymbol heap s)) {heap : Heap} {t : SymbolTable}
    (start : I (heap,t)) : I (mergeSymbols heap t existing) := by
  simp only [mergeSymbols]
  generalize t.getAllSymbols.map (fun s => keyToString (heap s).key) = keys
  generalize existing.getAllSymbols = symbols at keeps
  induction symbols generalizing heap t with
  | nil => exact start
  | cons s rest ih =>
    have added := keeps heap t s List.mem_cons_self start
    have later := fun heap t s member => keeps heap t s (List.mem_cons_of_mem _ member)
    have step : I (mergeSymbol keys (heap,t) s) := by
      simp only [mergeSymbol]
      split
      next => exact added
      next =>
        split
        next => exact start
        next =>
          split
          next => exact added
          next => exact start
    exact ih step later

theorem mergeSymbols_metadata (heap : Heap) (t existing : SymbolTable) :
    (mergeSymbols heap t existing).2.fileUri = t.fileUri ∧
      (mergeSymbols heap t existing).2.metadata = t.metadata := by
  refine mergeSymbols_keeps (I := fun state => state.2.fileUri = t.fileUri ∧ state.2.metadata = t.metadata) ?_ ⟨rfl,rfl⟩
  intro heap t' s _ same
  obtain ⟨file,metadata⟩ := addSymbol_metadata heap t' s
  exact ⟨file.trans same.1,metadata.trans same.2⟩

theorem mergeSymbols_fileUri (heap : Heap) (t existing : SymbolTable) :
    (mergeSymbols heap t existing).2.fileUri = t.fileUri := (mergeSymbols_metadata heap t existing).1

omit [Runtime] in
theorem mergeTypeReferences_eq (t existing : SymbolTable) :
    ∃ references byEnd byOperator, mergeTypeReferences t existing =
      { t with
        references := references
        referencesByEndPosition := byEnd
        memberAccessByOperatorStart := byOperator } := by
  simp only [mergeTypeReferences]
  generalize existing.references.filter _ = missing
  induction missing generalizing t with
  | nil => exact ⟨_,_,_,rfl⟩
  | cons ref rest ih =>
    obtain ⟨references,byEnd,byOperator,merged⟩ := ih (t.addTypeReference ref)
    rw [List.foldl_cons,merged]
    simp only [SymbolTable.addTypeReference,SymbolTable.indexReferenceSemanticContext]
    cases ref.operatorRange with
    | none => exact ⟨_,_,_,rfl⟩
    | some operator => exact ⟨_,_,_,rfl⟩

omit [Runtime] in
theorem mergeTypeReferences_kept (t existing : SymbolTable) :
    heldSymbols (mergeTypeReferences t existing) = heldSymbols t ∧
      (mergeTypeReferences t existing).fileUri = t.fileUri := by
  obtain ⟨_,_,_,merged⟩ := mergeTypeReferences_eq t existing
  rw [merged]
  exact ⟨rfl,rfl⟩

theorem mergeSymbols_within {heap : Heap} {t existing : SymbolTable} (within : Within heap t file)
    (old : Within heap existing file) :
    Stays heap (mergeSymbols heap t existing).1 ∧
      Within (mergeSymbols heap t existing).1 (mergeSymbols heap t existing).2 file := by
  have listed : ∀ s ∈ existing.getAllSymbols, Sound heap s ∧ homeOf (heap s) = file :=
    fun s member => old s (mem_heldSymbols.mpr (.inl member))
  refine mergeSymbols_keeps (I := fun state => Stays heap state.1 ∧ Within state.1 state.2 file) ?_
    ⟨Stays.refl heap,within⟩
  rintro heap' t' s member ⟨stays,within'⟩
  obtain ⟨sound,home⟩ := listed s member
  obtain ⟨sound',same⟩ := stays s sound
  obtain ⟨stays',within''⟩ := within'.addSymbol sound' (same.trans home)
  exact ⟨stays.trans stays',within''⟩

end

end ApexLs.Symbols
