import ApexLs.Symbols.Homes

/-! What makes a symbol the symbol it is: its id, its name, and whether it is a block. The parser
gives them; no table and no index changes them, although objects are enriched in place. -/
namespace ApexLs.Symbols

open ApexLs.Utils ApexLs.Types ApexLs.Collections

/-- What the parser promises of its objects: the key holds the id, and the id tells the name and
whether it is a block. -/
structure Named (heap : Heap) : Prop where
  synchronized : ∀ n, Synchronized (heap (.declared n))
  sameName : ∀ n n', (heap (.declared n)).id = (heap (.declared n')).id →
    (heap (.declared n)).name = (heap (.declared n')).name
  sameBlock : ∀ n n', (heap (.declared n)).id = (heap (.declared n')).id →
    (heap (.declared n)).isBlockSymbol = (heap (.declared n')).isBlockSymbol
  scalar : ∀ id, (heap (.scalar id)).isBlockSymbol = false

structure SameIdentity (s s' : ApexSymbol) : Prop where
  id : s'.id = s.id
  unifiedId : s'.key.unifiedId = s.key.unifiedId
  name : s'.name = s.name
  block : s'.isBlockSymbol = s.isBlockSymbol

/-- The parser's objects are the symbols they were, and no object became a block or ceased to be
one. -/
structure Rigid (heap heap' : Heap) : Prop where
  synchronized : ∀ n, Synchronized (heap' (.declared n))
  id : ∀ n, (heap' (.declared n)).id = (heap (.declared n)).id
  name : ∀ n, (heap' (.declared n)).name = (heap (.declared n)).name
  block : ∀ r, (heap' r).isBlockSymbol = (heap r).isBlockSymbol

/-- A table of the parser's symbols, in which what has an id to itself is of that id. -/
structure Keyed (heap : Heap) (t : SymbolTable) : Prop where
  declared : ∀ s ∈ heldSymbols t, ∃ n, s = .declared n
  single : ∀ id n, t.symbolMap.get? id = some (.single (.declared n)) → (heap (.declared n)).id = id

theorem Named.rigid {heap : Heap} (named : Named heap) : Rigid heap heap :=
  ⟨named.synchronized,fun _ => rfl,fun _ => rfl,fun _ => rfl⟩

theorem SameIdentity.refl (s : ApexSymbol) : SameIdentity s s := ⟨rfl,rfl,rfl,rfl⟩

theorem SameIdentity.trans {s s' s'' : ApexSymbol} (first : SameIdentity s s') (second : SameIdentity s' s'') :
    SameIdentity s s'' where
  id := second.id.trans first.id
  unifiedId := second.unifiedId.trans first.unifiedId
  name := second.name.trans first.name
  block := second.block.trans first.block

theorem Rigid.put {heap heap' : Heap} (rigid : Rigid heap heap') {s : ApexSymbol} (same : SameIdentity (heap' r) s) :
    Rigid heap (heap'.put r s) := by
  have identity : ∀ r', SameIdentity (heap' r') (heap'.put r s r') := by
    intro r'
    rw [Heap.put_apply]
    split
    next here => exact here ▸ same
    next => exact .refl _
  refine ⟨fun n => ⟨?_,?_⟩,fun n => ?_,fun n => ?_,fun r' => ?_⟩
  · rw [(identity _).unifiedId,(identity _).id]
    exact (rigid.synchronized n).keyed
  · rw [(identity _).id]
    exact (rigid.synchronized n).nonempty
  · exact (identity _).id.trans (rigid.id n)
  · exact (identity _).name.trans (rigid.name n)
  · exact (identity r').block.trans (rigid.block r')

theorem Rigid.putScalar {heap heap' : Heap} {id : String} (named : Named heap) (rigid : Rigid heap heap') {s : ApexSymbol}
    (semantic : s.isBlockSymbol = false) : Rigid heap (heap'.put (.scalar id) s) := by
  have kept : ∀ n, heap'.put (.scalar id) s (.declared n) = heap' (.declared n) :=
    fun n => Heap.put_of_ne _ _ (by simp)
  refine ⟨fun n => ?_,fun n => ?_,fun n => ?_,fun r => ?_⟩
  · rw [kept]
    exact rigid.synchronized n
  · rw [kept]
    exact rigid.id n
  · rw [kept]
    exact rigid.name n
  · rw [Heap.put_apply]
    split
    next here => rw [here,named.scalar,semantic]
    next => exact rigid.block r

section

variable [Runtime]

theorem Rigid.unifiedId {heap heap' : Heap} (rigid : Rigid heap heap') (n : Nat) (fileUri : String) :
    getUnifiedId (heap' (.declared n)).key fileUri = (heap (.declared n)).id :=
  ((rigid.synchronized n).getUnifiedId fileUri).trans (rigid.id n)

theorem Rigid.prepare {heap heap' : Heap} (rigid : Rigid heap heap') (n : Nat) (scope : Option String) :
    Rigid heap (prepare heap' (.declared n) scope) := by
  have sync := rigid.synchronized n
  apply rigid.put
  have keyed : SameIdentity (heap' (.declared n)) (synchronizeKey (heap' (.declared n))) := by
    refine ⟨sync.synchronizeKey_id,?_,rfl,rfl⟩
    simp only [synchronizeKey]
    rw [if_pos sync.truthy]
  refine keyed.trans ?_
  unfold adoptParent
  split <;> exact ⟨rfl,rfl,rfl,rfl⟩

theorem Rigid.insertPrepared {heap heap' : Heap} {t : SymbolTable} (named : Named heap) (rigid : Rigid heap heap')
    (keyed : Keyed heap t) (n : Nat) : Rigid heap (t.insertPrepared heap' (.declared n)).1 := by
  unfold SymbolTable.insertPrepared
  simp only
  obtain ⟨onEnrich,_⟩ := SymbolTable.exitOf_touches heap' (.declared n) (t.lookupExisting heap' (.declared n)).2
  cases taken : SymbolTable.exitOf heap' (.declared n) (t.lookupExisting heap' (.declared n)).2 with
  | enrich e =>
    have found := onEnrich e taken
    have bucket := SymbolTable.lookupExisting_bucket found
    obtain ⟨k,rfl⟩ := keyed.declared e (mem_heldSymbols.mpr (.inr ⟨_,_,bucket,by simp [Bucket.symbols]⟩))
    have ofKey := keyed.single _ k bucket
    apply rigid.put
    have same : (heap (.declared k)).name = (heap (.declared n)).name ∧
        (heap (.declared k)).isBlockSymbol = (heap (.declared n)).isBlockSymbol := by
      unfold SymbolTable.lookupExisting at found ofKey
      simp only [rigid.unifiedId] at found ofKey
      split at found
      next own =>
        simp only [own] at ofKey
        exact ⟨named.sameName k n ofKey,named.sameBlock k n ofKey⟩
      next unfiled =>
        simp only [unfiled] at ofKey
        split at found
        next namesake met =>
          obtain ⟨_,first⟩ := SymbolTable.fallback_spec met
          obtain ⟨listed,kind,name,_⟩ := SymbolTable.existingByParent_spec first
          obtain ⟨j,rfl⟩ := keyed.declared namesake (mem_heldSymbols.mpr (.inl listed))
          simp only [met,rigid.unifiedId] at ofKey
          have block : (heap' (.declared j)).isBlockSymbol = (heap' (.declared n)).isBlockSymbol :=
            congrArg (fun kind => decide (kind = SymbolKind.block)) kind
          constructor
          · rw [named.sameName k j ofKey,← rigid.name j,name,rigid.name n]
          · rw [named.sameBlock k j ofKey,← rigid.block,block,rigid.block]
        next => simp at found
    refine ⟨rfl,rfl,?_,?_⟩
    · exact (rigid.name n).trans (same.1.symm.trans (rigid.name k).symm)
    · exact (rigid.block _).trans (same.2.symm.trans (rigid.block _).symm)
  | _ => exact rigid

omit [Runtime] in
theorem perform_single {heap : Heap} {t : SymbolTable} {symbol e : Ref} {exit : SymbolTable.Exit}
    {id symbolKey effectiveKey : String} (onEnrich : ∀ e, exit = .enrich e → t.symbolMap.get? effectiveKey = some (.single e))
    (single : (t.perform heap symbol symbolKey effectiveKey previous exit).2.symbolMap.get? id = some (.single e)) :
    t.symbolMap.get? id = some (.single e) ∨ e = symbol ∧ id = symbolKey := by
  cases exit with
  | first =>
    simp only [SymbolTable.perform,SymbolTable.updateRootsArray_symbolMap,SymbolTable.file,OrderedMap.get?_set] at single
    split at single
    next here => exact .inr ⟨by simpa using single.symm,here⟩
    next => exact .inl single
  | enrich e' =>
    simp only [SymbolTable.perform,SymbolTable.updateRootsArray_symbolMap,SymbolTable.refile,OrderedMap.get?_set] at single
    split at single
    next here => exact .inl (by rw [here,onEnrich e' rfl,single])
    next => exact .inl single
  | secondDuplicate e' =>
    simp only [SymbolTable.perform,SymbolTable.updateRootsArray_symbolMap,SymbolTable.file,OrderedMap.get?_set] at single
    split at single
    next => simp at single
    next => exact .inl single
  | furtherDuplicate duplicates =>
    simp only [SymbolTable.perform,SymbolTable.updateRootsArray_symbolMap,SymbolTable.file,OrderedMap.get?_set] at single
    split at single
    next => simp at single
    next => exact .inl single
  | keepHigherLevel => exact .inl single
  | keepTopLevelClass => exact .inl single
  | keepSamePlace => exact .inl single
  | sameObject => exact .inl single

theorem Keyed.addSymbol {heap heap' : Heap} {t : SymbolTable} (rigid : Rigid heap heap') (keyed : Keyed heap t) (n : Nat) :
    Keyed heap (t.addSymbol heap' (.declared n)).2 := by
  constructor
  · intro s held
    rcases addSymbol_held held with old | rfl
    · exact keyed.declared s old
    · exact ⟨n,rfl⟩
  · intro id k single
    obtain ⟨onEnrich,_⟩ := SymbolTable.exitOf_touches (Types.prepare heap' (.declared n) none) (.declared n)
      (t.lookupExisting (Types.prepare heap' (.declared n) none) (.declared n)).2
    rcases perform_single (fun e taken => SymbolTable.lookupExisting_bucket (onEnrich e taken)) single with old | ⟨here,own⟩
    · exact keyed.single id k old
    · rw [here,own]
      exact ((rigid.prepare n none).unifiedId n _).symm

theorem Rigid.addSymbol {heap heap' : Heap} {t : SymbolTable} (named : Named heap) (rigid : Rigid heap heap')
    (keyed : Keyed heap t) (n : Nat) : Rigid heap (t.addSymbol heap' (.declared n)).1 :=
  (rigid.prepare n none).insertPrepared named keyed n

theorem mergeSymbols_keyed {heap heap' : Heap} {t existing : SymbolTable} (named : Named heap) (rigid : Rigid heap heap')
    (keyed : Keyed heap t) (stored : Keyed heap existing) :
    Rigid heap (mergeSymbols heap' t existing).1 ∧ Keyed heap (mergeSymbols heap' t existing).2 := by
  refine mergeSymbols_keeps (I := fun state => Rigid heap state.1 ∧ Keyed heap state.2) ?_ ⟨rigid,keyed⟩
  rintro heap'' t' s member ⟨rigid',keyed'⟩
  obtain ⟨n,rfl⟩ := stored.declared s (mem_heldSymbols.mpr (.inl member))
  exact ⟨rigid'.addSymbol named keyed' n,keyed'.addSymbol rigid' n⟩

end

end ApexLs.Symbols
