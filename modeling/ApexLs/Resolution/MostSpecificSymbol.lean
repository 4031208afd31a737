import ApexLs.Collections.ComparatorSorts
import ApexLs.Types.Symbol

/-! The choice among several symbols of one name: the smallest, and of symbols of about one size the
one of the first kind. -/
namespace ApexLs.Resolution

open ApexLs.Collections ApexLs.Types

def sizeOfLocation : Option SymbolLocation → ℤ
  | none => 9007199254740991
  | some location =>
    let range := location.identifierRange
    let lineCount : ℤ := range.endLine - range.startLine + 1
    let columnCount : ℤ := range.endColumn - range.startColumn + 1
    lineCount * 100 + columnCount

def calculateSymbolSize (symbol : ApexSymbol) : ℤ := sizeOfLocation (some symbol.location)

def priorityOrder : List SymbolKind :=
  [.parameter,.variable,.field,.method,.constructor,.class_,.interface,.enum]

/-- `priorityOrder.indexOf(kind) ?? 999`: the index of an unlisted kind is -1, which is not nullish. -/
def priority (kind : SymbolKind) : ℤ :=
  if kind ∈ priorityOrder then priorityOrder.idxOf kind else -1

def compareSymbols (a b : ApexSymbol) : ℤ :=
  let aSize := calculateSymbolSize a
  let bSize := calculateSymbolSize b
  if (aSize - bSize).natAbs > 10 then aSize - bSize else priority a.kind - priority b.kind

def inFile (sourceFile : String) (s : ApexSymbol) : Bool := s.key.path.head? = some sourceFile

/-- The chosen symbol, and the passed array afterwards: without a candidate in the source file it is
the passed array itself that is sorted. -/
def selectMostSpecificSymbol (engine : ArraySort ApexSymbol) (candidates : List ApexSymbol) (sourceFile : String) :
    Option ApexSymbol × List ApexSymbol :=
  if candidates.length = 1 then (candidates.head?,candidates)
  else
    let sameFileCandidates := candidates.filter (inFile sourceFile)
    if sameFileCandidates.length > 0 then ((engine.sort compareSymbols sameFileCandidates).head?,candidates)
    else
      let sorted := engine.sort compareSymbols candidates
      (sorted.head?,sorted)

def compared (candidates : List ApexSymbol) (sourceFile : String) : List ApexSymbol :=
  let sameFileCandidates := candidates.filter (inFile sourceFile)
  if sameFileCandidates.length > 0 then sameFileCandidates else candidates

def Before (a b : ApexSymbol) : Prop := compareSymbols a b < 0

def Alike (a b : ApexSymbol) : Prop := (calculateSymbolSize a - calculateSymbolSize b).natAbs ≤ 10

/-- Any listing of the candidates leads to the same choice in any engine and is left as it was; the
comparison is a weak order of the candidates and ranks the unlisted kinds last. -/
structure ChoosesWell (candidates : List ApexSymbol) (sourceFile : String) : Prop where
  orderFree : ∃ chosen, ∀ (engine : ArraySort ApexSymbol) (listed : List ApexSymbol), listed.Perm candidates →
    selectMostSpecificSymbol engine listed sourceFile = (chosen,listed)
  weak : WeakOrderOn (· ∈ compared candidates sourceFile) Before
  unlistedLast : ∀ a ∈ compared candidates sourceFile, ∀ b ∈ compared candidates sourceFile, Alike a b →
    a.kind ∈ priorityOrder → b.kind ∉ priorityOrder → Before a b

/-- No three symbols whose neighbours in size are alike, whose ends are not, and whose kinds do not
rank the other way. -/
def Untangled (l : List ApexSymbol) : Prop :=
  ∀ low ∈ l, ∀ middle ∈ l, ∀ high ∈ l, Alike low middle → Alike middle high →
    calculateSymbolSize low + 10 < calculateSymbolSize high →
    ¬ (priority high.kind ≤ priority middle.kind ∧ priority middle.kind ≤ priority low.kind)

/-- There is at most one candidate; or some candidate is in the source file, and of those there the
sizes and kinds do not go round in a circle, one leads all others and no unlisted kind is alike in
size to a listed one. -/
def Clear (candidates : List ApexSymbol) (sourceFile : String) : Prop :=
  candidates.length ≤ 1 ∨
    (Untangled (candidates.filter (inFile sourceFile)) ∧
      (∃ a ∈ candidates.filter (inFile sourceFile), ∀ b ∈ candidates.filter (inFile sourceFile), b ≠ a →
        Alike a b ∧ priority a.kind < priority b.kind ∨ calculateSymbolSize a + 10 < calculateSymbolSize b) ∧
      ∀ a ∈ candidates.filter (inFile sourceFile), ∀ b ∈ candidates.filter (inFile sourceFile),
        a.kind ∈ priorityOrder → b.kind ∉ priorityOrder → ¬ Alike a b)

theorem compareSymbols_swap (a b : ApexSymbol) : compareSymbols b a = -compareSymbols a b := by
  unfold compareSymbols
  simp only
  rw [← Int.natAbs_neg (calculateSymbolSize b - calculateSymbolSize a),Int.neg_sub]
  split <;> omega

theorem alike_iff {a b : ApexSymbol} : Alike a b ↔
    calculateSymbolSize a - 10 ≤ calculateSymbolSize b ∧ calculateSymbolSize b ≤ calculateSymbolSize a + 10 := by
  unfold Alike
  omega

theorem Alike.symm {a b : ApexSymbol} (near : Alike a b) : Alike b a := by
  rw [alike_iff] at near ⊢
  omega

theorem before_iff {a b : ApexSymbol} : Before a b ↔
    Alike a b ∧ priority a.kind < priority b.kind ∨ calculateSymbolSize a + 10 < calculateSymbolSize b := by
  unfold Before compareSymbols Alike
  simp only
  split <;> omega

theorem not_before_iff {a b : ApexSymbol} : ¬ Before a b ↔
    Alike a b ∧ priority b.kind ≤ priority a.kind ∨ calculateSymbolSize b + 10 < calculateSymbolSize a := by
  rw [before_iff]
  unfold Alike
  omega

theorem weak_iff_untangled {l : List ApexSymbol} : WeakOrderOn (· ∈ l) Before ↔ Untangled l := by
  constructor
  · rintro weak low inLow middle inMiddle high inHigh near near' far ⟨ranked,ranked'⟩
    rcases weak.through low middle high inLow inMiddle inHigh (before_iff.mpr (.inr far)) with before | before
    · exact not_before_iff.mpr (.inl ⟨near,ranked'⟩) before
    · exact not_before_iff.mpr (.inl ⟨near',ranked⟩) before
  · intro untangled
    constructor
    · intro x y _ _ before back
      rw [before_iff,alike_iff] at before back
      omega
    · intro x y z inX inY inZ before
      by_contra neither
      obtain ⟨after,after'⟩ := not_or.mp neither
      rw [not_before_iff] at after after'
      -- whichever of the three is between the others in size, the kinds rank against it
      rcases before_iff.mp before with ⟨near,ranked⟩ | far
      · rcases after with ⟨near',ranked'⟩ | far'
        · rcases after' with ⟨_,ranked''⟩ | far''
          · omega
          · exact untangled z inZ x inX y inY near.symm near' far'' ⟨ranked',by omega⟩
        · rcases after' with ⟨near'',ranked''⟩ | far''
          · exact untangled y inY z inZ x inX near'' near.symm far' ⟨by omega,ranked''⟩
          · rw [alike_iff] at near
            omega
      · rcases after with ⟨near',ranked'⟩ | far'
        · rcases after' with ⟨near'',ranked''⟩ | far''
          · exact untangled x inX y inY z inZ near' near'' far ⟨ranked'',ranked'⟩
          · rw [alike_iff] at near'
            omega
        · rcases after' with ⟨near'',_⟩ | far''
          · rw [alike_iff] at near''
            omega
          · omega

theorem priority_of_mem {kind : SymbolKind} (listed : kind ∈ priorityOrder) : 0 ≤ priority kind := by
  rw [priority,if_pos listed]
  exact Int.natCast_nonneg _

theorem priority_of_not_mem {kind : SymbolKind} (unlisted : kind ∉ priorityOrder) : priority kind = -1 := if_neg unlisted

theorem unlistedLast_iff {l : List ApexSymbol} :
    (∀ a ∈ l, ∀ b ∈ l, Alike a b → a.kind ∈ priorityOrder → b.kind ∉ priorityOrder → Before a b) ↔
      ∀ a ∈ l, ∀ b ∈ l, a.kind ∈ priorityOrder → b.kind ∉ priorityOrder → ¬ Alike a b := by
  constructor
  · intro last a inA b inB listed unlisted near
    rcases before_iff.mp (last a inA b inB near listed unlisted) with ⟨_,ranked⟩ | far
    · rw [priority_of_not_mem unlisted] at ranked
      have low := priority_of_mem listed
      omega
    · rw [alike_iff] at near
      omega
  · intro apart a inA b inB near listed unlisted
    exact absurd near (apart a inA b inB listed unlisted)

section

variable {candidates : List ApexSymbol} {sourceFile : String}

theorem chooses_one (few : candidates.length = 1) : ChoosesWell candidates sourceFile := by
  obtain ⟨symbol,rfl⟩ := List.length_eq_one_iff.mp few
  have only : ∀ a ∈ compared [symbol] sourceFile, a = symbol := by
    intro a member
    simp only [compared] at member
    split at member
    · exact List.mem_singleton.mp (List.mem_filter.mp member).1
    · exact List.mem_singleton.mp member
  refine ⟨⟨some symbol,fun engine listed same => ?_⟩,?_,?_⟩
  · obtain rfl := List.perm_singleton.mp same
    rfl
  · refine weak_iff_untangled.mpr fun low inLow middle _ high inHigh _ _ far => ?_
    rw [only low inLow,only high inHigh] at far
    omega
  · refine unlistedLast_iff.mpr fun a inA b inB listed unlisted => ?_
    rw [only a inA] at listed
    rw [only b inB] at unlisted
    exact absurd listed unlisted

theorem chooses_none : ChoosesWell [] sourceFile := by
  refine ⟨⟨none,fun engine listed same => ?_⟩,⟨?_,?_⟩,?_⟩
  · obtain rfl := List.perm_nil.mp same
    have empty := (engine.perm compareSymbols []).eq_nil
    simp [selectMostSpecificSymbol,empty]
  all_goals simp [compared]

theorem not_chooses_foreign (distinct : candidates.Nodup) (many : 1 < candidates.length)
    (foreign : candidates.filter (inFile sourceFile) = []) : ¬ ChoosesWell candidates sourceFile := by
  rintro ⟨⟨chosen,free⟩,_,_⟩
  have fixed (listed : List ApexSymbol) (same : listed.Perm candidates) : listed.head? = chosen := by
    have outcome := free ArraySort.lazy listed same
    have none_ : listed.filter (inFile sourceFile) = [] := (foreign ▸ same.filter _ : List.Perm _ []).eq_nil
    have single : listed.length ≠ 1 := by
      rw [same.length_eq]
      omega
    simp only [selectMostSpecificSymbol,if_neg single,none_,List.length_nil,gt_iff_lt,lt_irrefl,if_false,
      Prod.mk.injEq] at outcome
    rw [outcome.2] at outcome
    exact outcome.1
  obtain ⟨a,b,rest,rfl⟩ : ∃ a b rest, candidates = a :: b :: rest := by
    rcases candidates with _ | ⟨a,_ | ⟨b,rest⟩⟩
    · simp at many
    · simp at many
    · exact ⟨a,b,rest,rfl⟩
  have apart : a ≠ b := fun same => (List.nodup_cons.mp distinct).1 (by simp [same])
  have first : some a = chosen := fixed _ (List.Perm.refl _)
  apply not_fixed_of_two (l := a :: b :: rest) (a := a) (b := b) (by simp) (by simp) apart a
  intro listed same
  rw [fixed listed same,first]

theorem chooses_local (many : 1 < candidates.length) (local_ : candidates.filter (inFile sourceFile) ≠ []) :
    (∃ chosen, ∀ (engine : ArraySort ApexSymbol) (listed : List ApexSymbol), listed.Perm candidates →
        selectMostSpecificSymbol engine listed sourceFile = (chosen,listed)) ↔
      ∃ a, ∀ (engine : ArraySort ApexSymbol) (listed : List ApexSymbol),
        listed.Perm (candidates.filter (inFile sourceFile)) →
          (engine.sort compareSymbols listed).head? = some a := by
  have select (engine : ArraySort ApexSymbol) (listed : List ApexSymbol) (same : listed.Perm candidates) :
      selectMostSpecificSymbol engine listed sourceFile =
        ((engine.sort compareSymbols (listed.filter (inFile sourceFile))).head?,listed) := by
    have single : listed.length ≠ 1 := by
      rw [same.length_eq]
      omega
    have some_ : 0 < (listed.filter (inFile sourceFile)).length := by
      rw [(same.filter _).length_eq]
      exact List.length_pos_iff.mpr local_
    simp only [selectMostSpecificSymbol,if_neg single,gt_iff_lt,if_pos some_]
  constructor
  · rintro ⟨chosen,free⟩
    have heads (engine : ArraySort ApexSymbol) (listed : List ApexSymbol)
        (same : listed.Perm (candidates.filter (inFile sourceFile))) :
        (engine.sort compareSymbols listed).head? = chosen := by
      -- the others are listed behind
      have whole : (listed ++ candidates.filter (fun s => !inFile sourceFile s)).Perm candidates :=
        (same.append_right _).trans (List.filter_append_perm _ candidates)
      have inside : listed.filter (inFile sourceFile) = listed :=
        List.filter_eq_self.mpr fun s member => (List.mem_filter.mp (same.mem_iff.mp member)).2
      have outcome := free engine _ whole
      rw [select engine _ whole,List.filter_append,inside,List.filter_filter] at outcome
      simpa using outcome
    have nonempty : (ArraySort.lazy.sort compareSymbols (candidates.filter (inFile sourceFile))) ≠ [] := by
      intro empty
      have same := ArraySort.lazy.perm compareSymbols (candidates.filter (inFile sourceFile))
      rw [empty] at same
      exact local_ same.symm.eq_nil
    obtain ⟨a,rest,sorted⟩ := List.exists_cons_of_ne_nil nonempty
    have first := heads ArraySort.lazy _ (List.Perm.refl _)
    rw [sorted,List.head?_cons] at first
    exact ⟨a,fun engine listed same => (heads engine listed same).trans first.symm⟩
  · rintro ⟨a,free⟩
    refine ⟨some a,fun engine listed same => ?_⟩
    rw [select engine listed same,free engine _ (same.filter _)]

/-- Which lists of candidates the choice is right for. -/
theorem choosesWell_iff (apart : candidates.Pairwise fun a b =>
    (calculateSymbolSize a,a.kind) ≠ (calculateSymbolSize b,b.kind)) :
    ChoosesWell candidates sourceFile ↔ Clear candidates sourceFile := by
  have distinct : candidates.Nodup := apart.imp fun differ same => differ (by rw [same])
  rcases Nat.lt_or_ge 1 candidates.length with many | few
  · by_cases foreign : candidates.filter (inFile sourceFile) = []
    · refine iff_of_false (not_chooses_foreign distinct many foreign) ?_
      rintro (few | ⟨_,⟨a,member,_⟩,_⟩)
      · omega
      · rw [foreign] at member
        cases member
    · have among : compared candidates sourceFile = candidates.filter (inFile sourceFile) := by
        simp [compared,List.length_pos_iff.mpr foreign]
      have free := (chooses_local many foreign).trans (head?_free_iff compareSymbols_swap)
      constructor
      · rintro ⟨orderFree,weak,last⟩
        rw [among] at weak last
        obtain ⟨_,a,member,least⟩ := free.mp orderFree
        refine .inr ⟨weak_iff_untangled.mp weak,⟨a,member,fun b inB other => ?_⟩,unlistedLast_iff.mp last⟩
        exact before_iff.mp (least b inB other)
      · rintro (few | ⟨untangled,⟨a,member,least⟩,last⟩)
        · omega
        · have weak := weak_iff_untangled.mpr untangled
          refine ⟨free.mpr ⟨weak,a,member,fun b inB other => ?_⟩,by rwa [among],?_⟩
          · exact before_iff.mpr (least b inB other)
          · rw [among]
            exact unlistedLast_iff.mpr last
  · refine iff_of_true ?_ (.inl few)
    rcases Nat.lt_or_ge 0 candidates.length with one | none_
    · exact chooses_one (by omega)
    · obtain rfl := List.length_eq_zero_iff.mp (Nat.le_zero.mp none_)
      exact chooses_none

end

def onLine (name : String) (kind : SymbolKind) (columns : Nat) (file : String) : ApexSymbol :=
  { id := name,name := name,kind := kind,fileUri := file,key := { path := [file] }
    location := ⟨⟨1,0,1,columns⟩,⟨1,0,1,columns⟩⟩ }

/-- A method and a class of the file, the method the smaller. -/
theorem choosesWell_iff_methodAndClass :
    ([onLine "run" .method 2 "Foo.cls",onLine "Runner" .class_ 20 "Foo.cls"].Pairwise fun a b =>
      (calculateSymbolSize a,a.kind) ≠ (calculateSymbolSize b,b.kind)) ∧
    ChoosesWell [onLine "run" .method 2 "Foo.cls",onLine "Runner" .class_ 20 "Foo.cls"] "Foo.cls" := by
  have apart : [onLine "run" .method 2 "Foo.cls",onLine "Runner" .class_ 20 "Foo.cls"].Pairwise fun a b =>
      (calculateSymbolSize a,a.kind) ≠ (calculateSymbolSize b,b.kind) := by decide
  refine ⟨apart,(choosesWell_iff apart).mpr (.inr ⟨?_,?_,?_⟩)⟩
  · unfold Untangled Alike
    decide
  · refine ⟨onLine "run" .method 2 "Foo.cls",by simp [inFile,onLine],?_⟩
    intro b member other
    have either : b = onLine "run" .method 2 "Foo.cls" ∨ b = onLine "Runner" .class_ 20 "Foo.cls" := by
      simpa [List.mem_filter,inFile,onLine] using member
    rcases either with rfl | rfl
    · exact absurd rfl other
    · exact .inr (by decide)
  · unfold Alike
    decide

/-- Two fields of other files, alike in size: the first of the passed list is returned. -/
theorem choice_follows_listing : ¬ ∀ (candidates : List ApexSymbol) (sourceFile : String),
    (candidates.Pairwise fun a b => (calculateSymbolSize a,a.kind) ≠ (calculateSymbolSize b,b.kind)) →
      ChoosesWell candidates sourceFile := by
  intro always
  have apart : [onLine "count" .field 5 "Bar.cls",onLine "amount" .field 6 "Baz.cls"].Pairwise fun a b =>
      (calculateSymbolSize a,a.kind) ≠ (calculateSymbolSize b,b.kind) := by decide
  have chooses := always _ "Foo.cls" apart
  refine not_chooses_foreign ?_ (by decide) (by decide) chooses
  exact apart.imp fun differ same => differ (by rw [same])

end ApexLs.Resolution
