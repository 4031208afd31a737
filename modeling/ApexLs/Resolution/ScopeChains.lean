import Mathlib.Data.List.Find
import ApexLs.Resolution.LexicalScopes
import ApexLs.Resolution.ScopeBuilds
import ApexLs.Utils.AsciiBytes

/-! The two lookups of a name compared in a built table. Both visit scopes from the inside out; the one that follows
parent ids ends at the first scope that is redirected. -/
namespace ApexLs.Resolution

open ApexLs.Utils ApexLs.Types ApexLs.Collections

namespace FileTable

def Linked (t : FileTable) (b : ApexSymbol) : Prop := ∃ c ∈ t.getAllSymbols, c.isBlockSymbol = true ∧ b.parentId = .of c.id

/-- All blocks around the position that start after this one are linked. -/
def Reached (t : FileTable) (position : Position) (c : ApexSymbol) : Prop :=
  ∀ a ∈ t.containingBlocks position, startsLater a c → t.Linked a

/-- Blocks that share an id share their parent id too, unless neither of them is linked. -/
def LinksAlike (t : FileTable) : Prop := ∀ b ∈ t.getAllSymbols, ∀ c ∈ t.getAllSymbols, b.isBlockSymbol = true →
  c.isBlockSymbol = true → b.id = c.id → b.parentId = c.parentId ∨ ¬ t.Linked b ∧ ¬ t.Linked c

/-- Whatever is declared under the name, in any case, is a variable and is written so. -/
def NamesVariables [Runtime] (t : FileTable) (name : String) : Prop :=
  ∀ s ∈ t.getAllSymbols, toLowerCase s.name = toLowerCase name → isVariableLike s = true ∧ s.name = name

end FileTable

section

variable [Runtime]

namespace FileTable

def declared (t : FileTable) (name : String) (b : ApexSymbol) : Option ApexSymbol :=
  t.getAllSymbols.find? fun s => childOf b s && nameMatches name s

theorem NamesVariables.named {t : FileTable} (variables_ : t.NamesVariables name) (listed : s ∈ t.getAllSymbols) :
    (s.name = name) ↔ nameMatches name s = true := by
  rw [nameMatches,Bool.and_eq_true,decide_eq_true_eq]
  constructor
  · rintro rfl
    exact ⟨rfl,(variables_ s listed rfl).1⟩
  · exact fun named => (variables_ s listed named.1).2

theorem NamesVariables.findSymbolInScope {t : FileTable} (variables_ : t.NamesVariables name) (scopeId : ParentId) :
    t.findSymbolInScope scopeId name = t.getAllSymbols.find? fun s => s.parentId = scopeId && nameMatches name s := by
  rw [FileTable.findSymbolInScope,getSymbolsInScope,List.find?_filter]
  refine List.find?_congr fun s listed => ?_
  rw [Bool.eq_iff_iff]
  simp only [Bool.and_eq_true,decide_eq_true_eq,variables_.named listed]

end FileTable

namespace ScopeBuild

def Around (s : ScopeBuild) (position : Position) (i : Nat) : Prop :=
  ∃ b, s.scopeAt i = some b ∧ rangeContains b.location.symbolRange position = true

def Declaring (s : ScopeBuild) (name : String) (i : Nat) : Prop := ∃ b, s.scopeAt i = some b ∧ s.fileTable.declares name b = true

def Open (s : ScopeBuild) (i : Nat) : Prop := ∃ b, s.scopeAt i = some b ∧ s.fileTable.Linked b

variable {s : ScopeBuild} {position : Position} {name : String} {i : Nat} {b : ApexSymbol}

omit [Runtime] in
theorem entered_of_scopeAt (at_ : s.scopeAt i = some b) : ∃ e, s.scopes[i]? = some e ∧ s.heap e.scope = b :=
  Option.map_eq_some_iff.mp at_

omit [Runtime] in
theorem Built.listedAt (built : s.Built) (at_ : s.scopeAt i = some b) :
    b ∈ s.fileTable.getAllSymbols ∧ b.isBlockSymbol = true := by
  obtain ⟨e,entered,rfl⟩ := entered_of_scopeAt at_
  obtain ⟨listed,block⟩ := built.listed i e entered
  exact ⟨List.mem_map_of_mem listed,decide_eq_true block⟩

omit [Runtime] in
theorem Built.exists_scopeAt (built : s.Built) (listed : b ∈ s.fileTable.getAllSymbols) (block : b.isBlockSymbol = true) :
    ∃ i, s.scopeAt i = some b := by
  obtain ⟨r,member,rfl⟩ := List.mem_map.mp listed
  obtain ⟨e,entered,rfl⟩ := built.entered r member (of_decide_eq_true block)
  obtain ⟨i,at_⟩ := List.getElem?_of_mem entered
  exact ⟨i,by rw [scopeAt,at_,Option.map_some]; rfl⟩

omit [Runtime] in
theorem Built.blockId (built : s.Built) (listed : b ∈ s.fileTable.getAllSymbols) (block : b.isBlockSymbol = true) :
    BlockId b.id := by
  obtain ⟨r,member,rfl⟩ := List.mem_map.mp listed
  exact (built.sorted.listed r member).kind.mp (of_decide_eq_true block)

omit [Runtime] in
theorem Built.nested (built : s.Built) (position : Position) : Nested s.parentOf (s.Around position) := by
  refine ⟨fun i j around up => ?_,fun i j around up => ?_,fun i k around around' same => ?_⟩
  · obtain ⟨b,at_,_⟩ := around
    obtain ⟨e,entered,_⟩ := entered_of_scopeAt at_
    rw [parentOf,entered,Option.bind_some] at up
    exact (built.inside i e entered j up).1
  · obtain ⟨b,at_,contains⟩ := around
    obtain ⟨e,entered,rfl⟩ := entered_of_scopeAt at_
    rw [parentOf,entered,Option.bind_some] at up
    obtain ⟨_,outer,at',within,_⟩ := built.inside i e entered j up
    exact ⟨outer,at',within.contains contains⟩
  · obtain ⟨b,at_,contains⟩ := around
    obtain ⟨c,at',contains'⟩ := around'
    obtain ⟨e,entered,rfl⟩ := entered_of_scopeAt at_
    obtain ⟨f,entered',rfl⟩ := entered_of_scopeAt at'
    rw [parentOf,parentOf,entered,entered'] at same
    by_contra distinct
    exact (built.apart i k e f entered entered' same distinct).not_both contains contains'

omit [Runtime] in
theorem Built.startsLater (built : s.Built) (above : Above s.parentOf i k) (apart : i ≠ k) (at_ : s.scopeAt i = some b)
    (at' : s.scopeAt k = some c) : startsLater b c := by
  induction above using Relation.ReflTransGen.head_induction_on generalizing b with
  | refl => exact absurd rfl apart
  | @head i j up above ih =>
    obtain ⟨e,entered,rfl⟩ := entered_of_scopeAt at_
    rw [parentOf,entered,Option.bind_some] at up
    obtain ⟨_,outer,between,_,later⟩ := built.inside i e entered j up
    by_cases last : j = k
    · subst last
      obtain rfl := Option.some.inj (between.symm.trans at')
      exact later
    · exact lt_trans (ih last between) later

omit [Runtime] in
theorem Built.symbolAt_block {id : String} (built : s.Built) (found : s.fileTable.symbolAt id = some c)
    (block : c.kind = .block) : c ∈ s.fileTable.getAllSymbols ∧ c.id = id := by
  obtain ⟨r,first,rfl⟩ := Option.map_eq_some_iff.mp found
  obtain ⟨bucket,got,head⟩ := Option.bind_eq_some_iff.mp first
  have member : r ∈ bucket.symbols := List.mem_of_mem_head? head
  have blockId : BlockId id := ((built.sorted.filed id bucket got).2 r member).2.mpr block
  obtain ⟨listed,same⟩ := built.sorted.own id bucket got blockId r member
  exact ⟨List.mem_map_of_mem listed,same⟩

omit [Runtime] in
theorem Built.exists_symbolAt (built : s.Built) (listed : c ∈ s.fileTable.getAllSymbols) (block : c.isBlockSymbol = true) :
    ∃ d, s.fileTable.symbolAt c.id = some d ∧ d.kind = .block := by
  have blockId := built.blockId listed block
  obtain ⟨r,member,rfl⟩ := List.mem_map.mp listed
  obtain ⟨bucket,got⟩ := built.sorted.found r member (of_decide_eq_true block)
  obtain ⟨nonempty,each⟩ := built.sorted.filed _ bucket got
  obtain ⟨first,rest,is⟩ := List.exists_cons_of_ne_nil nonempty
  refine ⟨s.heap first,?_,(each first (is ▸ List.mem_cons_self)).2.mp blockId⟩
  change ((s.table.symbolMap.get? (s.heap r).id).bind Bucket.first?).map s.heap = _
  rw [got,Option.bind_some,Bucket.first?,is,List.head?_cons,Option.map_some]

omit [Runtime] in
theorem Built.parent_of_linked (built : s.Built) (at_ : s.scopeAt i = some b) (linked : s.fileTable.Linked b) :
    ∃ j p, s.parentOf i = some j ∧ s.scopeAt j = some p ∧ b.parentId = .of p.id := by
  obtain ⟨c,listed,block,leads⟩ := linked
  obtain ⟨e,entered,rfl⟩ := entered_of_scopeAt at_
  rcases built.linked i e entered with own | ⟨id,redirected,plain⟩
  · cases parent : e.parent with
    | none =>
      rw [own,parent] at leads
      cases leads
    | some j =>
      obtain ⟨p,at'⟩ := built.scopeAt_isSome entered j parent
      refine ⟨j,p,by rw [parentOf,entered,Option.bind_some,parent],at',?_⟩
      rw [own,parent,Option.bind_some,at']
      rfl
  · rw [redirected] at leads
    exact absurd (ParentId.of.inj leads ▸ built.blockId listed block) plain

omit [Runtime] in
theorem childOf_congr (same : b.id = c.id) (v : ApexSymbol) : childOf b v = childOf c v := by
  simp only [childOf,same]

theorem Built.chain_finds (built : s.Built) (alike : s.fileTable.LinksAlike) (at_ : s.scopeAt i = some b)
    (listed : c ∈ s.fileTable.getAllSymbols) (block : c.isBlockSymbol = true) (same : c.id = b.id) (enough : i < steps) :
    ∃ found, WalkFinds s.parentOf (s.Declaring name) s.Open i found ∧
      (s.fileTable.blocksAround steps c).findSome? (s.fileTable.declared name) =
        (found.bind s.scopeAt).bind (s.fileTable.declared name) := by
  induction i using Nat.strong_induction_on generalizing b c steps with
  | h i ih =>
  obtain ⟨steps,rfl⟩ : ∃ n, steps = n + 1 := ⟨steps - 1,by omega⟩
  obtain ⟨listed',block'⟩ := built.listedAt at_
  have declares_same : s.fileTable.declared name c = s.fileTable.declared name b := by
    simp only [FileTable.declared,childOf_congr same]
  rw [FileTable.blocksAround,List.findSome?_cons,declares_same]
  cases answer : s.fileTable.declared name b with
  | some v =>
    refine ⟨some i,.here i ⟨b,at_,?_⟩,?_⟩
    · rw [FileTable.declares_iff,← FileTable.declared,answer]
      rfl
    · rw [Option.bind_some,at_,Option.bind_some,answer]
  | none =>
    have unmet : ¬ s.Declaring name i := by
      rintro ⟨b',at',declares⟩
      obtain rfl := Option.some.inj (at_.symm.trans at')
      rw [FileTable.declares_iff,← FileTable.declared,answer] at declares
      cases declares
    by_cases linked : s.fileTable.Linked b
    · obtain ⟨j,p,up,at',leads⟩ := built.parent_of_linked at_ linked
      obtain ⟨outer,outerBlock⟩ := built.listedAt at'
      have leads' : c.parentId = .of p.id := by
        rcases alike c listed b listed' block block' same with alike | ⟨_,unlinked⟩
        · exact alike.trans leads
        · exact absurd linked unlinked
      obtain ⟨d,found,kind⟩ := built.exists_symbolAt outer outerBlock
      obtain ⟨listedD,idD⟩ := built.symbolAt_block found kind
      have nonempty : p.id ≠ "" := by
        obtain ⟨r,member,rfl⟩ := List.mem_map.mp outer
        exact (built.sorted.listed r member).sync.nonempty
      have earlier : j < i := by
        obtain ⟨e,entered,_⟩ := entered_of_scopeAt at_
        rw [parentOf,entered,Option.bind_some] at up
        exact (built.inside i e entered j up).1
      obtain ⟨result,finds,rest⟩ := ih j earlier at' listedD (decide_eq_true kind) idD (by omega : j < steps)
      refine ⟨result,.up i j result unmet ⟨b,at_,linked⟩ up finds,?_⟩
      rw [leads']
      simp only [if_neg nonempty,found,if_pos kind]
      exact rest
    · have unlinked : ¬ s.fileTable.Linked c := by
        rcases alike c listed b listed' block block' same with alike | ⟨unlinked,_⟩
        · rintro ⟨d,listedD,blockD,leads⟩
          exact linked ⟨d,listedD,blockD,alike.symm.trans leads⟩
        · exact unlinked
      refine ⟨none,.shut i unmet ?_,?_⟩
      · rintro ⟨b',at',linked'⟩
        obtain rfl := Option.some.inj (at_.symm.trans at')
        exact linked linked'
      · change List.findSome? (s.fileTable.declared name) _ = none
        split
        next parentId leads =>
          split
          next parent found =>
            split
            next kind =>
              have found : s.fileTable.symbolAt parentId = some parent := by
                split at found
                next => cases found
                next => exact found
              obtain ⟨listedP,idP⟩ := built.symbolAt_block found kind
              exact absurd ⟨parent,listedP,decide_eq_true kind,leads.trans (congrArg _ idP.symm)⟩ unlinked
            next => rfl
          next => rfl
        next => rfl

omit [Runtime] in
theorem Built.scopes_le (built : s.Built) : s.scopes.length ≤ s.fileTable.getAllSymbols.length := by
  have inside : (s.scopes.map Entered.scope) ⊆ s.table.symbolArray := by
    intro r member
    obtain ⟨e,entered,rfl⟩ := List.mem_map.mp member
    obtain ⟨i,at_⟩ := List.getElem?_of_mem entered
    exact (built.listed i e at_).1
  have le := (List.subperm_of_subset built.distinct inside).length_le
  have listed : s.fileTable.getAllSymbols.length = s.table.symbolArray.length := List.length_map _
  rw [listed]
  simpa using le

omit [Runtime] in
theorem Built.above_innermost (built : s.Built) (innermost : s.fileTable.Innermost position b) (at_ : s.scopeAt i = some b)
    (member : c ∈ s.fileTable.containingBlocks position) : ∃ k, s.scopeAt k = some c ∧ Above s.parentOf i k := by
  obtain ⟨listed,block,contains⟩ := FileTable.mem_containingBlocks.mp member
  obtain ⟨k,at'⟩ := built.exists_scopeAt listed block
  refine ⟨k,at',?_⟩
  have around : s.Around position i := ⟨b,at_,(FileTable.mem_containingBlocks.mp innermost.member).2.2⟩
  rcases (built.nested position).comparable around ⟨c,at',contains⟩ with above | below
  · exact above
  · by_cases same : k = i
    · exact same ▸ .refl
    · have later : Resolution.start b.location.symbolRange < Resolution.start c.location.symbolRange :=
        built.startsLater below same at' at_
      exact absurd (innermost.within c member).opens (not_le.mpr later)

omit [Runtime] in
theorem Built.containing (built : s.Built) (around : s.Around position i) (above : Above s.parentOf i k)
    (at_ : s.scopeAt k = some c) : c ∈ s.fileTable.containingBlocks position := by
  obtain ⟨⟨d,at',contains⟩,_⟩ := (built.nested position).above above around
  obtain rfl := Option.some.inj (at_.symm.trans at')
  obtain ⟨listed,block⟩ := built.listedAt at_
  exact FileTable.mem_containingBlocks.mpr ⟨listed,block,contains⟩

omit [Runtime] in
theorem Built.reaches_iff (built : s.Built) (innermost : s.fileTable.Innermost position b) (at_ : s.scopeAt i = some b)
    (above : Above s.parentOf i k) (at' : s.scopeAt k = some c) :
    WalksTo s.parentOf s.Open i k ↔ s.fileTable.Reached position c := by
  have around : s.Around position i := ⟨b,at_,(FileTable.mem_containingBlocks.mp innermost.member).2.2⟩
  constructor
  · rintro ⟨_,all⟩ a member later
    obtain ⟨m,atM,aboveM⟩ := built.above_innermost innermost at_ member
    have apart : m ≠ k := by
      rintro rfl
      obtain rfl := Option.some.inj (atM.symm.trans at')
      exact lt_irrefl _ later
    have below : Above s.parentOf m k := by
      rcases aboveM.total above with below | beyond
      · exact below
      · exact absurd (built.startsLater beyond apart.symm at' atM) (not_lt.mpr (le_of_lt later))
    obtain ⟨a',at'',linked⟩ := all m aboveM below apart
    exact Option.some.inj (atM.symm.trans at'') ▸ linked
  · intro reached
    refine ⟨above,fun m aboveM below apart => ?_⟩
    obtain ⟨⟨a,atM,_⟩,_⟩ := (built.nested position).above aboveM around
    exact ⟨a,atM,reached a (built.containing around aboveM atM) (built.startsLater below apart atM at')⟩

theorem Built.agree_iff (built : s.Built) (alike : s.fileTable.LinksAlike) (variables_ : s.fileTable.NamesVariables name)
    (innermost : s.fileTable.Innermost position b) :
    s.fileTable.lookupInScopeChain name (some b) = resolveVariableAtPosition s.fileTable position name ↔
      (∃ c ∈ s.fileTable.declaringBlocks position name, s.fileTable.Reached position c) ∨
        s.fileTable.declaringBlocks position name = [] := by
  obtain ⟨listed,block,contains⟩ := FileTable.mem_containingBlocks.mp innermost.member
  obtain ⟨i,at_⟩ := built.exists_scopeAt listed block
  have around : s.Around position i := ⟨b,at_,contains⟩
  have bound : i < s.fileTable.getAllSymbols.length + 1 := by
    obtain ⟨e,entered,_⟩ := entered_of_scopeAt at_
    have below := (List.getElem?_eq_some_iff.mp entered).1
    have le := built.scopes_le
    omega
  obtain ⟨found,finds,chain⟩ : ∃ found, WalkFinds s.parentOf (s.Declaring name) s.Open i found ∧ _ :=
    built.chain_finds alike at_ listed block rfl bound
  have lookup : s.fileTable.lookupInScopeChain name (some b) = ((found.bind s.scopeAt).bind (s.fileTable.declared name)).or
      (s.fileTable.getAllSymbols.find? fun v => v.parentId = .null && nameMatches name v) := by
    rw [FileTable.lookupInScopeChain,variables_.findSymbolInScope,← chain]
    congr 2
    funext c
    rw [variables_.findSymbolInScope]
    rfl
  have declaring (k : Nat) (above : Above s.parentOf i k) (wanted : s.Declaring name k) :
      ∃ c, s.scopeAt k = some c ∧ c ∈ s.fileTable.declaringBlocks position name := by
    obtain ⟨c,at',declares⟩ := wanted
    exact ⟨c,at',FileTable.mem_declaringBlocks.mpr ⟨built.containing around above at',declares⟩⟩
  rw [lookup]
  rcases FileTable.resolveVariableAtPosition_cases s.fileTable position name with ⟨free,answer⟩ | ⟨w,v,first,foundV,answer⟩
  · refine iff_of_true ?_ (.inr free)
    cases found with
    | none => exact answer.symm
    | some j =>
      obtain ⟨reaches,wanted,_⟩ := finds.first (built.nested position) around
      obtain ⟨c,_,member⟩ := declaring j reaches.1 wanted
      exact absurd member (free ▸ List.not_mem_nil)
  · have memberW := first.mem
    have last := first.led startsLater_weakOrder fun _ _ => trivial
    obtain ⟨k,atW,aboveW⟩ := built.above_innermost innermost at_ (FileTable.mem_declaringBlocks.mp memberW).1
    rw [answer]
    cases found with
    | none =>
      refine iff_of_false ?_ ?_
      · intro same
        have root : (s.fileTable.getAllSymbols.find? fun v => v.parentId = .null && nameMatches name v) = some v := same
        have meets := List.find?_some root
        have child := (FileTable.declared_of_find foundV).2.1
        simp only [Bool.and_eq_true,decide_eq_true_eq] at meets
        simp [childOf,meets.1] at child
      · rintro (⟨c,member,reached⟩ | free)
        · obtain ⟨m,atM,aboveM⟩ := built.above_innermost innermost at_ (FileTable.mem_declaringBlocks.mp member).1
          have reaches := (built.reaches_iff innermost at_ aboveM atM).mpr reached
          exact finds.silent m reaches ⟨c,atM,(FileTable.mem_declaringBlocks.mp member).2⟩
        · exact absurd memberW (free ▸ List.not_mem_nil)
    | some j =>
      obtain ⟨reaches,wanted,nearest⟩ := finds.first (built.nested position) around
      obtain ⟨c,atJ,member⟩ := declaring j reaches.1 wanted
      have beyond := nearest k aboveW ⟨w,atW,(FileTable.mem_declaringBlocks.mp memberW).2⟩
      -- The first of the declaring blocks is the one the walk stops at.
      have same : j = k := by
        by_contra apart
        exact last c member (built.startsLater beyond apart atJ atW)
      subst same
      refine iff_of_true ?_ (.inl ⟨w,memberW,(built.reaches_iff innermost at_ reaches.1 atW).mp reaches⟩)
      rw [Option.bind_some,atW,Option.bind_some,FileTable.declared,foundV,Option.some_or]

end ScopeBuild

instance : DecidableRel startsLater := fun _ _ => inferInstanceAs (Decidable (_ < _))

instance (t : FileTable) (b : ApexSymbol) : Decidable (t.Linked b) :=
  inferInstanceAs (Decidable (∃ c ∈ t.getAllSymbols, _ ∧ _))

instance (t : FileTable) (position : Position) (c : ApexSymbol) : Decidable (t.Reached position c) :=
  inferInstanceAs (Decidable (∀ a ∈ t.containingBlocks position, _))

instance (t : FileTable) : Decidable t.LinksAlike := inferInstanceAs (Decidable (∀ b ∈ t.getAllSymbols, _))

instance (t : FileTable) (name : String) : Decidable (t.NamesVariables name) :=
  inferInstanceAs (Decidable (∀ s ∈ t.getAllSymbols, _))

instance (s : ScopeBuild) (range : Range) (parent : Option Nat) : Decidable (s.Nests range parent) :=
  decidable_of_iff' _ ⟨fun h => And.intro h.inside h.apart,fun h => ⟨h.1,h.2⟩⟩

instance (s : ScopeBuild) : DecidablePred s.Fits
  | .enterScope _ _ location _ parentScope => inferInstanceAs (Decidable (∀ l ∈ location, s.Nests l.symbolRange parentScope))
  | .addSymbol .. => inferInstanceAs (Decidable (_ ∧ _))

def declarationIn (name : String) (kind : SymbolKind) (range : Range) : ApexSymbol :=
  createFullSymbolWithNamespace name kind ⟨range,range⟩ "file:///Account.cls" {} .undefined

def accountStart : ScopeBuild := .start (fun _ => declarationIn "Account" .class_ ⟨1,0,9,1⟩) "file:///Account.cls"

/-- A class with a field and a method, and a variable in the method. -/
def accountSteps : List ScopeStep := [
  .addSymbol (declarationIn "Account" .class_ ⟨1,0,9,1⟩) none,
  .enterScope "Account" .class_ (some ⟨⟨1,14,9,1⟩,⟨1,14,9,1⟩⟩) none none,
  .addSymbol (declarationIn "total" .field ⟨2,2,2,16⟩) (some 0),
  .addSymbol (declarationIn "sum" .method ⟨3,2,6,3⟩) (some 0),
  .enterScope "sum" .method (some ⟨⟨3,15,6,3⟩,⟨3,15,6,3⟩⟩) none (some 0),
  .addSymbol (declarationIn "partSum" .variable ⟨4,4,4,20⟩) (some 1)]

def accountTable : FileTable := (run ScopeBuild.step accountStart accountSteps).fileTable

def sumBlock : ApexSymbol := accountTable.heap (.declared 4)

/-- The run fits, the method's block is innermost around a position, and the name is one of variables. -/
structure SeenFromSum (name : String) : Prop where
  fits : EveryStep ScopeBuild.step ScopeBuild.Fits accountStart accountSteps
  alike : accountTable.LinksAlike
  variables_ : accountTable.NamesVariables name
  listed : .declared 4 ∈ accountTable.table.symbolArray
  around : sumBlock.isBlockSymbol = true ∧ rangeContains sumBlock.location.symbolRange ⟨5,4⟩ = true
  within : ∀ c ∈ accountTable.containingBlocks ⟨5,4⟩, Within sumBlock.location.symbolRange c.location.symbolRange

theorem SeenFromSum.innermost (seen : SeenFromSum name) : accountTable.Innermost ⟨5,4⟩ sumBlock :=
  ⟨FileTable.mem_containingBlocks.mpr ⟨List.mem_map_of_mem seen.listed,seen.around⟩,seen.within⟩

instance (name : String) : Decidable (SeenFromSum name) :=
  decidable_of_iff' _ ⟨fun h => And.intro h.fits (And.intro h.alike (And.intro h.variables_ (And.intro h.listed
    (And.intro h.around h.within)))),fun ⟨a,b,c,d,e,f⟩ => ⟨a,b,c,d,e,f⟩⟩

end

end ApexLs.Resolution
