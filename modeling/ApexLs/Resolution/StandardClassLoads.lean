import Mathlib.Data.Prod.Lex
import ApexLs.Resolution.StandardApexClasses
import ApexLs.Utils.AsciiBytes

/-! What interleaved calls for standard classes come to. -/
namespace ApexLs.Resolution

open ApexLs.Utils ApexLs.Types ApexLs.Collections

section

variable [Runtime]

namespace StdlibProvider

variable (p : StdlibProvider)

def Provides (classPath className : String) : Prop :=
  ∃ symbols, p.getSymbolTable classPath = some symbols ∧ (findClass symbols className).isSome

instance (classPath className : String) : Decidable (p.Provides classPath className) :=
  decidable_of_iff ((p.getSymbolTable classPath).any fun symbols => (findClass symbols className).isSome)
    (Option.any_eq_true _ _)

/-- A symbol of a table of the provider, as it is once the table is added. -/
def Holds (classPath : String) (c : ApexSymbol) : Prop :=
  ∃ symbols, p.getSymbolTable classPath = some symbols ∧ c ∈ place (libraryUri classPath) symbols

def IsClass (classPath className : String) (c : ApexSymbol) : Prop :=
  p.Holds classPath c ∧ c.kind = .class_ ∧ sameName c.name className

end StdlibProvider

/-- Among the symbols of the provider the id leads to the class of the entry only. -/
structure TypeRegistryEntry.LeadsTo (p : StdlibProvider) (e : TypeRegistryEntry) (symbolId : String) : Prop where
  indexed : ∀ path c, p.Holds path c → c.id = symbolId → e.classPath = some path ∧ p.IsClass path e.name c
  inTable : ∀ path symbols c, libraryUri path = extractFilePathFromUri symbolId → p.getSymbolTable path = some symbols →
    findById (place (libraryUri path) symbols) symbolId = some c → e.classPath = some path ∧ p.IsClass path e.name c

/-- An entry is of a class of the library, and leads to no other symbol of it. -/
structure TypeRegistryEntry.Describes (p : StdlibProvider) (e : TypeRegistryEntry) : Prop where
  classFile : ∃ path, e.classPath = some path ∧ e.fileUri = libraryUri path ∧ p.Provides path e.name
  byId : e.LeadsTo p e.symbolId
  byFqn : ∀ path c, p.Holds path c → c.fqn.any (sameName · e.fqn) → e.LeadsTo p c.id

structure StandardLibrary extends StdlibProvider where
  registry : List TypeRegistryEntry
  described : ∀ e ∈ registry, e.Describes toStdlibProvider
  named : ∀ path symbols, getSymbolTable path = some symbols → ∀ c ∈ symbols, c.name ≠ ""
  dotted : ∀ simple fqn, resolveClassFqn simple = some fqn → '.' ∈ fqn.toList

/-- The class file and the name a call is for: the registry's, else those of the provider's index. -/
def ClassCall.asked (p : StdlibProvider) (c : ClassCall) : Option (String × String) :=
  match c.entry,p.naming c.name with
  | some e,_ => e.classPath.map (·,e.name)
  | none,.target t => some (t.classPath,t.className)
  | none,_ => none

def ClassCall.Right (p : StdlibProvider) (c : ClassCall) (answer : Option ApexSymbol) : Prop :=
  ∃ path name found, c.asked p = some (path,name) ∧ answer = some found ∧ p.IsClass path name found

def ClassCall.answer (c : ClassCall) : Option (Option ApexSymbol) :=
  match c.point with
  | .done answer => some answer
  | _ => none

def ClassEvent.Calls : ClassEvent → Prop
  | .call _ => True
  | _ => False

namespace StandardClassLoads

def requests (s : StandardClassLoads) (fileUri : String) : Nat := (s.loads.map (·.fileUri)).count fileUri

def registrations (p : StdlibProvider) (s : StandardClassLoads) (fileUri : String) : Nat :=
  ((s.loads.filter fun l => l.phase ≠ .requested ∧ (tableOf p l).isSome).map (·.fileUri)).count fileUri

def Opens (s : StandardClassLoads) (fileUri : String) : Prop :=
  s.fileToSymbolTable.get? fileUri = none ∧ s.inFlightStdlibHydration.get? fileUri = none

def Fetches (s : StandardClassLoads) (fileUri : String) : Prop :=
  ∃ l ∈ s.loads, l.fileUri = fileUri ∧ l.guarded = false ∧ l.phase = .requested

instance (s : StandardClassLoads) (fileUri : String) : Decidable (s.Opens fileUri) := inferInstanceAs (Decidable (_ ∧ _))

instance (s : StandardClassLoads) (fileUri : String) : Decidable (s.Fetches fileUri) :=
  inferInstanceAs (Decidable (∃ l ∈ s.loads,l.fileUri = fileUri ∧ l.guarded = false ∧ l.phase = .requested))

/-- No table is registered for the URI, and no request for it waits. -/
def Untouched (s : StandardClassLoads) (fileUri : String) : Prop :=
  s.fileToSymbolTable.get? fileUri = none ∧ ∀ l ∈ s.loads, l.fileUri = fileUri → l.phase ≠ .requested

instance (s : StandardClassLoads) (fileUri : String) : Decidable (s.Untouched fileUri) :=
  inferInstanceAs (Decidable (_ ∧ _))

/-- The class is in the graph, under a name that may be looked up there. -/
def InGraph (s : StandardClassLoads) (t : ClassTarget) : Prop :=
  isApexKeyword t.className = false ∧
    ∃ c ∈ s.graph, c.kind = .class_ ∧ sameName c.name t.className ∧ c.fileUri = t.fileUri

instance (s : StandardClassLoads) (t : ClassTarget) : Decidable (s.InGraph t) :=
  inferInstanceAs (Decidable (_ ∧ ∃ c ∈ s.graph,c.kind = .class_ ∧ sameName c.name t.className ∧ c.fileUri = t.fileUri))

/-- The turn does not meet a load that it is not guarded against: a call comes upon the mark of another only when the class
is in the graph, the unguarded branch is taken for a URI untouched, and no load is started over an unguarded request. -/
def Orderly (s : StandardClassLoads) : Turn → Prop
  | .hydrates e _ => s.Opens e.fileUri → ¬ s.Fetches e.fileUri
  | .targets t =>
    if t.direct then s.Untouched t.fileUri
    else if t.fileUri ∈ s.loadingSymbolTables then s.InGraph t
    else s.Opens t.fileUri → ¬ s.Fetches t.fileUri
  | _ => True

instance (s : StandardClassLoads) : ∀ turn, Decidable (s.Orderly turn)
  | .hydrates e _ => inferInstanceAs (Decidable (s.Opens e.fileUri → ¬ s.Fetches e.fileUri))
  | .targets t =>
    inferInstanceAs (Decidable (if t.direct then s.Untouched t.fileUri
      else if t.fileUri ∈ s.loadingSymbolTables then s.InGraph t else s.Opens t.fileUri → ¬ s.Fetches t.fileUri))
  | .goes _ | .asks _ | .leaves _ _ => .isTrue trivial

def Standard (p : StdlibProvider) (name : String) : Prop :=
  match p.naming name with
  | .target t => p.Provides t.classPath t.className
  | .unnamed simple => (given (p.resolveClassFqn simple)).isSome
  | .ambiguous => False

instance (p : StdlibProvider) (name : String) : Decidable (Standard p name) :=
  match naming : p.naming name with
  | .target t => decidable_of_iff (p.Provides t.classPath t.className) (by rw [Standard,naming])
  | .unnamed simple => decidable_of_iff (given (p.resolveClassFqn simple)).isSome (by rw [Standard,naming])
  | .ambiguous => .isFalse (by rw [Standard,naming]; exact id)

/-- A call that the registry has no entry for is for a class the provider has. -/
def AsksStandard (p : StdlibProvider) (s : StandardClassLoads) : ClassEvent → Prop
  | .lookUp i none => ∀ c, s.calls[i]? = some c → Standard p c.name
  | _ => True

instance (p : StdlibProvider) (s : StandardClassLoads) : ∀ event, Decidable (AsksStandard p s event)
  | .lookUp i none => decidable_of_iff (∀ c ∈ s.calls[i]?.toList,Standard p c.name) (by simp [AsksStandard])
  | .lookUp _ (some _) | .call _ | .resume _ | .answer _ | .insert _ | .settle _ => .isTrue trivial

def StepsOrderly (lib : StandardLibrary) (s : StandardClassLoads) (event : ClassEvent) : Prop :=
  ∀ i c turn, s.turn lib.toStdlibProvider lib.registry event = some (i,c,turn) → s.Orderly turn

instance (lib : StandardLibrary) (s : StandardClassLoads) (event : ClassEvent) : Decidable (StepsOrderly lib s event) :=
  decidable_of_iff ((s.turn lib.toStdlibProvider lib.registry event).all fun next => decide (s.Orderly next.2.2)) (by
    rw [Option.all_eq_true]
    exact ⟨fun all i c turn turns => of_decide_eq_true (all _ turns),fun all next turns => decide_eq_true (all _ _ _ turns)⟩)

def Awaits (p : StdlibProvider) (s : StandardClassLoads) (awaited : Awaited) (path : String) : Prop :=
  match awaited with
  | .installed symbols => ∃ raw, p.getSymbolTable path = some raw ∧ symbols = place (libraryUri path) raw
  | .load index => ∃ l, s.loads[index]? = some l ∧ l.classPath = path

def At (lib : StandardLibrary) (s : StandardClassLoads) (c : ClassCall) : Prop :=
  match c.point with
  | .lookingUp => True
  | .byFqn e known => c.entry = some e ∧ e ∈ lib.registry ∧
      ∀ k, known = some k → ∃ path, e.classPath = some path ∧ lib.IsClass path e.name k
  | .hydrating e awaited => c.entry = some e ∧ e ∈ lib.registry ∧
      ∃ path, e.classPath = some path ∧ Awaits lib.toStdlibProvider s awaited path
  | .naming simple => (given (lib.resolveClassFqn simple)).isSome
  | .fetching t index => c.entry = none ∧ lib.naming c.name = .target t ∧ lib.Provides t.classPath t.className ∧
      Awaits lib.toStdlibProvider s (.load index) t.classPath
  | .loading t awaited => c.entry = none ∧ lib.naming c.name = .target t ∧ lib.Provides t.classPath t.className ∧
      Awaits lib.toStdlibProvider s awaited t.classPath
  | .leaving _ _ => False
  | .returning answer => c.Right lib.toStdlibProvider answer
  | .done answer => c.Right lib.toStdlibProvider answer

def Turns (lib : StandardLibrary) (s : StandardClassLoads) (c : ClassCall) : Turn → Prop
  | .goes point => s.At lib { c with point }
  | .hydrates e path => c.entry = some e ∧ e ∈ lib.registry ∧ e.classPath = some path
  | .targets t => c.entry = none ∧ lib.naming c.name = .target t ∧ lib.Provides t.classPath t.className
  | .asks _ => True
  | .leaves _ answer => c.Right lib.toStdlibProvider answer

/-- The invariant of orderly runs: one load for each URI, in flight until it settles and registered once answered. -/
structure Kept (lib : StandardLibrary) (s : StandardClassLoads) : Prop where
  provided : ∀ l ∈ s.loads, l.fileUri = libraryUri l.classPath ∧ (lib.getSymbolTable l.classPath).isSome
  unique : (s.loads.map (·.fileUri)).Nodup
  inFlight : ∀ (index : Nat) (l : ClassLoad), s.loads[index]? = some l → l.guarded = true → l.phase ≠ .settled →
    s.inFlightStdlibHydration.get? l.fileUri = some index
  flying : ∀ uri index, s.inFlightStdlibHydration.get? uri = some index →
    ∃ l : ClassLoad, s.loads[index]? = some l ∧ l.fileUri = uri
  registered : ∀ l ∈ s.loads, l.phase ≠ .requested → ∃ symbols, s.fileToSymbolTable.get? l.fileUri = some symbols
  tables : ∀ uri symbols, s.fileToSymbolTable.get? uri = some symbols →
    ∃ path raw, uri = libraryUri path ∧ lib.getSymbolTable path = some raw ∧ symbols = place uri raw
  graph : ∀ c ∈ s.graph, ∃ path, lib.Holds path c
  inserted : ∀ l ∈ s.loads, ∀ n, l.phase = .adding n → n ≤ ((tableOf lib.toStdlibProvider l).getD []).length
  calls : ∀ c ∈ s.calls, s.At lib c

end StandardClassLoads

omit [Runtime] in
theorem libraryUri_injective : Function.Injective libraryUri := fun _ _ same => String.append_right_inj _ |>.mp same

theorem findClass_place (fileUri : String) (symbols : List ApexSymbol) (name : String) :
    findClass (place fileUri symbols) name = (findClass symbols name).map fun c => { c with fileUri } :=
  List.find?_map

section

variable {lib : StandardLibrary} {s t : StandardClassLoads}

theorem isClass_of_findClass (provided : lib.getSymbolTable path = some raw)
    (found : findClass (place (libraryUri path) raw) name = some c) : lib.IsClass path name c := by
  have named := List.find?_some found
  simp only [Bool.and_eq_true,decide_eq_true_eq] at named
  exact ⟨⟨raw,provided,List.mem_of_find?_eq_some found⟩,named.2,named.1⟩

theorem findClass_of_provides (provides : lib.Provides path name) (provided : lib.getSymbolTable path = some raw) :
    ∃ c, findClass (place (libraryUri path) raw) name = some c ∧ lib.IsClass path name c := by
  obtain ⟨symbols,same,has⟩ := provides
  obtain rfl := Option.some_inj.mp (provided.symm.trans same)
  obtain ⟨c,found⟩ := Option.isSome_iff_exists.mp has
  have answers : findClass (place (libraryUri path) raw) name = some { c with fileUri := libraryUri path } := by
    rw [findClass_place,found,Option.map_some]
  exact ⟨_,answers,isClass_of_findClass provided answers⟩

namespace StandardClassLoads

variable {c : ClassCall} {e : TypeRegistryEntry} {target : ClassTarget} {next : Turn}

theorem Kept.isClass_of_getSymbol (kept : Kept lib s) (leads : e.LeadsTo lib.toStdlibProvider symbolId)
    (found : s.getSymbol symbolId = some k) : ∃ path, e.classPath = some path ∧ lib.IsClass path e.name k := by
  rcases Option.or_eq_some_iff.mp found with indexed | ⟨-,inTable⟩
  · obtain ⟨path,holds⟩ := kept.graph k (List.mem_of_find?_eq_some indexed)
    have same : k.id = symbolId := by simpa using List.find?_some indexed
    exact ⟨path,leads.indexed path k holds same⟩
  · obtain ⟨symbols,registered,found⟩ := Option.bind_eq_some_iff.mp inTable
    obtain ⟨path,raw,uri,provided,rfl⟩ := kept.tables _ _ registered
    rw [uri] at found
    exact ⟨path,leads.inTable path raw k uri.symm provided found⟩

theorem Kept.isClass_of_findSymbolByFQN (kept : Kept lib s) (described : e.Describes lib.toStdlibProvider)
    (found : s.findSymbolByFQN e.fqn = some k) : ∃ path, e.classPath = some path ∧ lib.IsClass path e.name k := by
  obtain ⟨first,named,byId⟩ := Option.bind_eq_some_iff.mp found
  obtain ⟨path,holds⟩ := kept.graph first (List.mem_of_find?_eq_some named)
  have same := List.find?_some named
  exact kept.isClass_of_getSymbol (described.byFqn path first holds same) byId

theorem Kept.isClass_of_inGraph (kept : Kept lib s) (inGraph : s.InGraph target) :
    ∃ c, pickClass target.fileUri (s.findSymbolByName target.className) = some c ∧
      lib.IsClass target.classPath target.className c := by
  obtain ⟨plain,c,member,kind,named,here⟩ := inGraph
  have listed : s.findSymbolByName target.className =
      s.graph.filter fun c => sameName c.name target.className && !c.isBlockSymbol := by
    rw [findSymbolByName,plain,if_neg Bool.false_ne_true]
  unfold pickClass
  dsimp only
  cases found : (List.filter _ (s.findSymbolByName target.className)).find? (·.fileUri = target.fileUri) with
  | none =>
    have noBlock : c.isBlockSymbol = false := by simp [ApexSymbol.isBlockSymbol,kind]
    have absent := List.find?_eq_none.mp found c
    simp [listed,member,kind,named,here,noBlock] at absent
  | some k =>
    refine ⟨k,rfl,?_⟩
    have uri : k.fileUri = target.fileUri := by simpa using List.find?_some found
    have picked := List.mem_of_find?_eq_some found
    simp only [listed,List.mem_filter,Bool.and_eq_true,decide_eq_true_eq] at picked
    obtain ⟨⟨inGraph,same,-⟩,class_,-⟩ := picked
    obtain ⟨path,raw,provided,placed⟩ := kept.graph k inGraph
    obtain ⟨c₀,-,rfl⟩ := List.mem_map.mp placed
    obtain rfl : path = target.classPath := libraryUri_injective uri
    exact ⟨⟨raw,provided,placed⟩,class_,same⟩

theorem Kept.result (kept : Kept lib s) (awaits : Awaits lib.toStdlibProvider s awaited path)
    (came : s.result lib.toStdlibProvider awaited = some symbols) :
    ∃ raw, lib.getSymbolTable path = some raw ∧ symbols = some (place (libraryUri path) raw) := by
  cases awaited with
  | installed table =>
    obtain ⟨raw,provided,rfl⟩ := awaits
    obtain rfl := Option.some_inj.mp came
    exact ⟨raw,provided,rfl⟩
  | load index =>
    obtain ⟨l,there,rfl⟩ := awaits
    obtain ⟨uri,has⟩ := kept.provided l (List.mem_of_getElem? there)
    obtain ⟨raw,provided⟩ := Option.isSome_iff_exists.mp has
    obtain ⟨l',settled,rfl⟩ := Option.map_eq_some_iff.mp came
    obtain rfl := Option.some_inj.mp (there.symm.trans (Option.eq_some_of_filter_eq_some settled))
    exact ⟨raw,provided,by rw [tableOf,provided,uri,Option.map_some]⟩

theorem At.mono (here : s.At lib c) (extends_ : ∀ (index : Nat) (l : ClassLoad), s.loads[index]? = some l →
    ∃ l' : ClassLoad, t.loads[index]? = some l' ∧ l'.classPath = l.classPath) : t.At lib c := by
  have waits {awaited : Awaited} {path : String} (awaits : Awaits lib.toStdlibProvider s awaited path) :
      Awaits lib.toStdlibProvider t awaited path := by
    cases awaited with
    | installed _ => exact awaits
    | load index =>
      obtain ⟨l,there,rfl⟩ := awaits
      exact extends_ index l there
  unfold At at here ⊢
  split
  case h_3 e awaited point =>
    rw [point] at here
    obtain ⟨entry,member,path,classPath,awaits⟩ := here
    exact ⟨entry,member,path,classPath,waits awaits⟩
  case h_5 target index point =>
    rw [point] at here
    obtain ⟨entry,naming,provides,awaits⟩ := here
    exact ⟨entry,naming,provides,waits awaits⟩
  case h_6 target awaited point =>
    rw [point] at here
    obtain ⟨entry,naming,provides,awaits⟩ := here
    exact ⟨entry,naming,provides,waits awaits⟩
  all_goals
    next point =>
      rw [point] at here
      exact here

theorem Kept.setCall (kept : Kept lib s) (here : s.At lib c) (i : Nat) : Kept lib (s.setCall i c) := by
  refine ⟨kept.provided,kept.unique,kept.inFlight,kept.flying,kept.registered,kept.tables,kept.graph,kept.inserted,?_⟩
  intro c' member
  rcases List.mem_or_eq_of_mem_set member with before | rfl
  · exact kept.calls c' before
  · exact here

theorem Kept.mark (kept : Kept lib s) (loadingSymbolTables : List String) : Kept lib { s with loadingSymbolTables } :=
  ⟨kept.provided,kept.unique,kept.inFlight,kept.flying,kept.registered,kept.tables,kept.graph,kept.inserted,kept.calls⟩

theorem Kept.free_of_opens (kept : Kept lib s) (opens : s.Opens fileUri) (quiet : ¬ s.Fetches fileUri) :
    ∀ l ∈ s.loads, l.fileUri ≠ fileUri := by
  rintro l member rfl
  have settled : l.phase = .requested := by
    by_contra answered
    obtain ⟨symbols,registered⟩ := kept.registered l member answered
    rw [opens.1] at registered
    cases registered
  cases guarded : l.guarded with
  | false => exact quiet ⟨l,member,rfl,guarded,settled⟩
  | true =>
    obtain ⟨index,there⟩ := List.mem_iff_getElem?.mp member
    have flies := kept.inFlight index l there guarded (by rw [settled]; exact nofun)
    rw [opens.2] at flies
    cases flies

theorem Kept.free_of_untouched (kept : Kept lib s) (untouched : s.Untouched fileUri) :
    ∀ l ∈ s.loads, l.fileUri ≠ fileUri := by
  rintro l member rfl
  obtain ⟨symbols,registered⟩ := kept.registered l member (untouched.2 l member rfl)
  rw [untouched.1] at registered
  cases registered

theorem Kept.request (kept : Kept lib s) (free : ∀ l ∈ s.loads, l.fileUri ≠ libraryUri path)
    (has : (lib.getSymbolTable path).isSome) (guarded : Bool) :
    Kept lib (s.request (libraryUri path) path guarded) where
  provided l member := by
    rcases List.mem_append.mp member with before | new
    · exact kept.provided l before
    · obtain rfl := List.mem_singleton.mp new
      exact ⟨rfl,has⟩
  unique := by
    have apart : libraryUri path ∉ s.loads.map (·.fileUri) := by
      rintro listed
      obtain ⟨l,member,same⟩ := List.mem_map.mp listed
      exact free l member same
    simp only [StandardClassLoads.request,List.map_append,List.map_cons,List.map_nil]
    exact List.nodup_append.mpr ⟨kept.unique,List.nodup_singleton _,fun a inside b new => by
      rw [List.mem_singleton.mp new]
      rintro rfl
      exact apart inside⟩
  inFlight index l there guards unsettled := by
    rw [StandardClassLoads.request] at there ⊢
    rcases Nat.lt_or_ge index s.loads.length with inside | beyond
    · rw [List.getElem?_append_left inside] at there
      have old := kept.inFlight index l there guards unsettled
      cases guarded with
      | false => exact old
      | true => exact (OrderedMap.get?_set_of_ne _ _ (free l (List.mem_of_getElem? there))).trans old
    · rw [List.getElem?_append_right beyond] at there
      obtain ⟨only,new⟩ := List.getElem?_eq_some_iff.mp there
      have last : index = s.loads.length := by simp at only; omega
      subst last
      simp only [Nat.sub_self,List.getElem_cons_zero] at new
      subst new
      simp only at guards
      subst guards
      exact OrderedMap.get?_set_self _ _ _
  flying uri index flies := by
    rw [StandardClassLoads.request] at flies ⊢
    have old (flies : s.inFlightStdlibHydration.get? uri = some index) :
        ∃ l : ClassLoad, (s.loads ++ [⟨libraryUri path,path,guarded,.requested⟩])[index]? = some l ∧ l.fileUri = uri := by
      obtain ⟨l,there,same⟩ := kept.flying uri index flies
      have inside := (List.getElem?_eq_some_iff.mp there).1
      exact ⟨l,by rw [List.getElem?_append_left inside,there],same⟩
    cases guarded with
    | false => exact old flies
    | true =>
      by_cases same : uri = libraryUri path
      · subst same
        obtain rfl := Option.some_inj.mp ((OrderedMap.get?_set_self _ _ _).symm.trans flies)
        exact ⟨_,List.getElem?_concat_length,rfl⟩
      · exact old ((OrderedMap.get?_set_of_ne _ _ same).symm.trans flies)
  registered l member answered := by
    rcases List.mem_append.mp member with before | new
    · exact kept.registered l before answered
    · obtain rfl := List.mem_singleton.mp new
      exact absurd rfl answered
  tables := kept.tables
  graph := kept.graph
  inserted l member n adding := by
    rcases List.mem_append.mp member with before | new
    · exact kept.inserted l before n adding
    · obtain rfl := List.mem_singleton.mp new
      cases adding
  calls c member := by
    refine (kept.calls c member).mono fun index l there => ⟨l,?_,rfl⟩
    have inside := (List.getElem?_eq_some_iff.mp there).1
    exact (List.getElem?_append_left inside).trans there

theorem awaits_request (path : String) (guarded : Bool) :
    Awaits lib.toStdlibProvider (s.request (libraryUri path) path guarded) (.load s.loads.length) path :=
  ⟨_,List.getElem?_concat_length,rfl⟩

theorem Kept.loadAndRegister (kept : Kept lib s) (has : (lib.getSymbolTable path).isSome)
    (clear : s.Opens (libraryUri path) → ¬ s.Fetches (libraryUri path))
    (loads : s.loadAndRegisterStdlibSymbolTable (libraryUri path) path = (t,awaited)) :
    Kept lib t ∧ Awaits lib.toStdlibProvider t awaited path := by
  unfold loadAndRegisterStdlibSymbolTable at loads
  split at loads
  next installed registered =>
    obtain ⟨rfl,rfl⟩ := Prod.mk.inj loads
    obtain ⟨own,raw,same,provided,rfl⟩ := kept.tables _ _ registered
    obtain rfl := libraryUri_injective same
    exact ⟨kept,raw,provided,rfl⟩
  next index _ flies =>
    obtain ⟨rfl,rfl⟩ := Prod.mk.inj loads
    obtain ⟨l,there,same⟩ := kept.flying _ _ flies
    obtain ⟨uri,-⟩ := kept.provided l (List.mem_of_getElem? there)
    exact ⟨kept,l,there,libraryUri_injective (uri.symm.trans same)⟩
  next none_ unused =>
    obtain ⟨rfl,rfl⟩ := Prod.mk.inj loads
    have opens : s.Opens (libraryUri path) := ⟨none_,unused⟩
    exact ⟨kept.request (kept.free_of_opens opens (clear opens)) has true,awaits_request path true⟩

theorem right_of_entry (registered : c.entry = some e) (here : e.classPath = some path)
    (class_ : lib.IsClass path e.name found) : c.Right lib.toStdlibProvider (some found) :=
  ⟨path,e.name,found,by simp [ClassCall.asked,registered,here],rfl,class_⟩

theorem right_of_target (unregistered : c.entry = none) (naming : lib.naming c.name = .target target)
    (class_ : lib.IsClass target.classPath target.className found) : c.Right lib.toStdlibProvider (some found) :=
  ⟨target.classPath,target.className,found,by simp [ClassCall.asked,unregistered,naming],rfl,class_⟩

theorem turns_pastRegistry (unregistered : c.entry = none) (standard : Standard lib.toStdlibProvider c.name) :
    s.Turns lib c (pastRegistry lib.toStdlibProvider c.name) := by
  unfold Standard at standard
  unfold pastRegistry
  split
  next simple naming =>
    rw [naming] at standard
    exact standard
  next naming =>
    rw [naming] at standard
    exact standard.elim
  next target naming =>
    rw [naming] at standard
    exact ⟨unregistered,naming,standard⟩

theorem Kept.lookedUp (kept : Kept lib s) (c : ClassCall) (entry : Option TypeRegistryEntry)
    (listed : ∀ e, entry = some e → e ∈ lib.registry) (standard : entry = none → Standard lib.toStdlibProvider c.name) :
    s.Turns lib { c with entry } (s.lookedUp lib.toStdlibProvider c.name entry) := by
  cases entry with
  | none => exact turns_pastRegistry rfl (standard rfl)
  | some e =>
    have described := lib.described e (listed e rfl)
    unfold StandardClassLoads.lookedUp
    dsimp only
    split
    next known found =>
      obtain ⟨path,here,class_⟩ := kept.isClass_of_getSymbol described.byId found
      exact right_of_entry rfl here class_
    next => exact ⟨rfl,listed e rfl,fun k found => kept.isClass_of_findSymbolByFQN described found⟩

theorem Kept.findClass_result (kept : Kept lib s) (awaits : Awaits lib.toStdlibProvider s awaited path)
    (provides : lib.Provides path name) (came : s.result lib.toStdlibProvider awaited = some symbols) :
    ∃ table found, symbols = some table ∧ findClass table name = some found ∧ lib.IsClass path name found := by
  obtain ⟨raw,provided,rfl⟩ := kept.result awaits came
  obtain ⟨found,answers,class_⟩ := findClass_of_provides provides provided
  exact ⟨_,found,rfl,answers,class_⟩

theorem Kept.resumed (kept : Kept lib s) (here : s.At lib c) (goes : s.resumed lib.toStdlibProvider c = some next) :
    s.Turns lib c next := by
  unfold StandardClassLoads.resumed at goes
  unfold At at here
  split at goes
  case h_1 => cases goes
  case h_2 e known point =>
    rw [point] at here
    obtain ⟨registered,listed,sound⟩ := here
    split at goes
    next k picked =>
      obtain rfl := Option.some_inj.mp goes
      obtain ⟨path,here,class_⟩ := sound k (Option.eq_some_of_filter_eq_some picked)
      exact right_of_entry registered here class_
    next path _ here =>
      obtain rfl := Option.some_inj.mp goes
      exact ⟨registered,listed,here⟩
    next _ nowhere =>
      obtain ⟨path,here,-⟩ := (lib.described e listed).classFile
      rw [here] at nowhere
      cases nowhere
  case h_3 e awaited point =>
    rw [point] at here
    obtain ⟨registered,listed,path,here,awaits⟩ := here
    obtain ⟨symbols,came,rfl⟩ := Option.map_eq_some_iff.mp goes
    obtain ⟨own,same,-,provides⟩ := (lib.described e listed).classFile
    obtain rfl := Option.some_inj.mp (same.symm.trans here)
    obtain ⟨table,found,rfl,answers,class_⟩ := kept.findClass_result awaits provides came
    simp only [Option.bind_some,answers]
    exact right_of_entry registered here class_
  case h_4 simple point =>
    rw [point] at here
    obtain ⟨fqn,full⟩ := Option.isSome_iff_exists.mp here
    rw [full] at goes
    obtain rfl := Option.some_inj.mp goes
    exact trivial
  case h_5 target index point =>
    rw [point] at here
    obtain ⟨unregistered,naming,provides,awaits⟩ := here
    obtain ⟨symbols,came,rfl⟩ := Option.map_eq_some_iff.mp goes
    obtain ⟨table,found,rfl,answers,class_⟩ := kept.findClass_result awaits provides came
    rw [Option.bind_some,answers]
    exact right_of_target unregistered naming class_
  case h_6 target awaited point =>
    rw [point] at here
    obtain ⟨unregistered,naming,provides,awaits⟩ := here
    obtain ⟨symbols,came,rfl⟩ := Option.map_eq_some_iff.mp goes
    obtain ⟨table,found,rfl,answers,class_⟩ := kept.findClass_result awaits provides came
    simp only [answers,Option.some_or]
    obtain ⟨⟨raw,provided,placed⟩,-,-⟩ := id class_
    obtain ⟨c₀,member,rfl⟩ := List.mem_map.mp placed
    -- The class has a name, and the URI it was placed under.
    rw [if_neg (lib.named _ _ provided c₀ member)]
    exact right_of_target unregistered naming class_
  case h_7 point =>
    rw [point] at here
    exact here.elim
  case h_8 answer point =>
    rw [point] at here
    obtain rfl := Option.some_inj.mp goes
    exact here
  case h_9 => cases goes

theorem Kept.turn (kept : Kept lib s) (asks : AsksStandard lib.toStdlibProvider s event)
    (turns : s.turn lib.toStdlibProvider lib.registry event = some (i,c,next)) : s.Turns lib c next := by
  cases event with
  | lookUp j entry =>
    obtain ⟨before,asked,same⟩ := Option.map_eq_some_iff.mp turns
    obtain ⟨there,allowed⟩ := Option.filter_eq_some_iff.mp asked
    obtain ⟨rfl,rest⟩ := Prod.mk.inj same
    obtain ⟨rfl,rfl⟩ := Prod.mk.inj rest
    refine kept.lookedUp before entry (fun e known => ?_) fun none_ => ?_
    · subst known
      simp only [Bool.and_eq_true,Option.all_some,decide_eq_true_eq] at allowed
      exact allowed.2.1
    · subst none_
      exact asks before there
  | resume j =>
    obtain ⟨before,there,goes⟩ := Option.bind_eq_some_iff.mp turns
    obtain ⟨then_,resumes,same⟩ := Option.map_eq_some_iff.mp goes
    obtain ⟨rfl,rest⟩ := Prod.mk.inj same
    obtain ⟨rfl,rfl⟩ := Prod.mk.inj rest
    exact kept.resumed (kept.calls before (List.mem_of_getElem? there)) resumes
  | call _ | answer _ | insert _ | settle _ => cases turns

theorem Kept.take (kept : Kept lib s) (turns : s.Turns lib c next) (orderly : s.Orderly next) (i : Nat) :
    Kept lib (s.take i c next) := by
  cases next with
  | goes point => exact kept.setCall turns i
  | asks fqn =>
    have here : s.At lib { name := fqn } := trivial
    exact kept.setCall here i
  | leaves target answer =>
    have kept' := kept.mark (s.loadingSymbolTables.erase target.fileUri)
    have here : At lib { s with loadingSymbolTables := s.loadingSymbolTables.erase target.fileUri }
      { c with point := .done answer } := turns
    exact kept'.setCall here i
  | hydrates e path =>
    obtain ⟨registered,listed,here⟩ := turns
    obtain ⟨own,same,uri,raw,provided,-⟩ := (lib.described e listed).classFile
    obtain rfl := Option.some_inj.mp (same.symm.trans here)
    simp only [Orderly,uri] at orderly
    rw [StandardClassLoads.take,uri]
    cases loads : s.loadAndRegisterStdlibSymbolTable (libraryUri own) own with
    | mk after awaited =>
      obtain ⟨kept',awaits⟩ := kept.loadAndRegister (Option.isSome_iff_exists.mpr ⟨raw,provided⟩) orderly loads
      have there : after.At lib { c with point := .hydrating e awaited } := ⟨registered,listed,own,here,awaits⟩
      exact kept'.setCall there i
  | targets target =>
    obtain ⟨unregistered,naming,provides⟩ := turns
    obtain ⟨raw,provided,-⟩ := id provides
    have has : (lib.getSymbolTable target.classPath).isSome := Option.isSome_iff_exists.mpr ⟨raw,provided⟩
    simp only [Orderly] at orderly
    rw [StandardClassLoads.take]
    split at orderly
    case isTrue direct =>
      rw [if_pos direct]
      have kept' := kept.request (kept.free_of_untouched orderly) has false
      have there : At lib (s.request (libraryUri target.classPath) target.classPath false)
          { c with point := .fetching target s.loads.length } :=
        ⟨unregistered,naming,provides,awaits_request target.classPath false⟩
      exact kept'.setCall there i
    case isFalse indexed =>
      rw [if_neg indexed]
      split at orderly
      case isTrue marked =>
        rw [if_pos marked]
        obtain ⟨found,picked,class_⟩ := kept.isClass_of_inGraph orderly
        rw [picked]
        have here : s.At lib { c with point := .returning (some found) } := right_of_target unregistered naming class_
        exact kept.setCall here i
      case isFalse unmarked =>
        rw [if_neg unmarked]
        dsimp only [ClassTarget.fileUri]
        have marked := kept.mark (target.fileUri :: s.loadingSymbolTables)
        cases loads : loadAndRegisterStdlibSymbolTable { s with
          loadingSymbolTables := libraryUri target.classPath :: s.loadingSymbolTables }
            (libraryUri target.classPath) target.classPath with
        | mk after awaited =>
          obtain ⟨kept',awaits⟩ := marked.loadAndRegister has orderly loads
          have there : after.At lib { c with point := .loading target awaited } := ⟨unregistered,naming,provides,awaits⟩
          exact kept'.setCall there i

variable {l : ClassLoad} {index : Nat}

omit [Runtime] in
theorem setPhase_loads {k : ClassLoad} {h : Nat} (there : s.loads[index]? = some l) (phase : LoadPhase)
    (found : s.loads[h]? = some k) :
    ∃ k' : ClassLoad, (s.setPhase index l phase).loads[h]? = some k' ∧ k'.fileUri = k.fileUri ∧
      k'.classPath = k.classPath := by
  rw [StandardClassLoads.setPhase,List.getElem?_set]
  split
  case isTrue same =>
    subst same
    obtain rfl := Option.some_inj.mp (there.symm.trans found)
    exact ⟨_,if_pos (List.getElem?_eq_some_iff.mp there).1,rfl,rfl⟩
  case isFalse => exact ⟨k,found,rfl,rfl⟩

section

variable (kept : Kept lib s)
include kept

theorem Kept.setPhase (there : s.loads[index]? = some l)
    (registered : ∃ symbols, s.fileToSymbolTable.get? l.fileUri = some symbols)
    (inside : ∀ n, phase = .adding n → n ≤ ((tableOf lib.toStdlibProvider l).getD []).length)
    (unsettled : phase ≠ .settled → l.phase ≠ .settled) : Kept lib (s.setPhase index l phase) where
  provided k member := by
    rcases List.mem_or_eq_of_mem_set member with before | rfl
    · exact kept.provided k before
    · exact kept.provided l (List.mem_of_getElem? there)
  unique := by
    have same : (s.setPhase index l phase).loads.map (·.fileUri) = s.loads.map (·.fileUri) := by
      rw [StandardClassLoads.setPhase,List.map_set]
      refine List.ext_getElem? fun n => ?_
      rw [List.getElem?_set]
      split
      case isTrue same =>
        subst same
        rw [List.getElem?_map,there,if_pos (by simpa using (List.getElem?_eq_some_iff.mp there).1),Option.map_some]
      case isFalse => rfl
    rw [same]
    exact kept.unique
  inFlight h k found guarded going := by
    rw [StandardClassLoads.setPhase,List.getElem?_set] at found
    split at found
    case isTrue same =>
      subst same
      rw [if_pos (List.getElem?_eq_some_iff.mp there).1] at found
      obtain rfl := Option.some_inj.mp found
      exact kept.inFlight index l there guarded (unsettled going)
    case isFalse => exact kept.inFlight h k found guarded going
  flying uri h flies := by
    obtain ⟨k,found,same⟩ := kept.flying uri h flies
    obtain ⟨k',found',uri',-⟩ := setPhase_loads there phase found
    exact ⟨k',found',uri'.trans same⟩
  registered k member answered := by
    rcases List.mem_or_eq_of_mem_set member with before | rfl
    · exact kept.registered k before answered
    · exact registered
  tables := kept.tables
  graph := kept.graph
  inserted k member n adding := by
    rcases List.mem_or_eq_of_mem_set member with before | rfl
    · exact kept.inserted k before n adding
    · exact inside n adding
  calls c member := by
    refine (kept.calls c member).mono fun h k found => ?_
    obtain ⟨k',found',-,path⟩ := setPhase_loads there phase found
    exact ⟨k',found',path⟩

theorem Kept.index_eq (first : s.loads[h]? = some k) (second : s.loads[index]? = some l)
    (same : k.fileUri = l.fileUri) : h = index := by
  have inside := (List.getElem?_eq_some_iff.mp first).1
  refine (List.getElem?_inj (by simpa using inside) kept.unique).mp ?_
  rw [List.getElem?_map,List.getElem?_map,first,second,Option.map_some,Option.map_some,same]

theorem Kept.land (there : s.loads[index]? = some l) (settled : l.phase = .settled) :
    Kept lib { s with inFlightStdlibHydration := s.inFlightStdlibHydration.erase l.fileUri } where
  provided := kept.provided
  unique := kept.unique
  inFlight h k found guarded going := by
    have apart : k.fileUri ≠ l.fileUri := by
      intro same
      obtain rfl := kept.index_eq found there same
      obtain rfl := Option.some_inj.mp (found.symm.trans there)
      exact going settled
    exact (OrderedMap.get?_erase_of_ne _ apart).trans (kept.inFlight h k found guarded going)
  flying uri h flies := by
    by_cases same : uri = l.fileUri
    · subst same
      exact absurd ((OrderedMap.get?_erase_self _ _).symm.trans flies) nofun
    · exact kept.flying uri h ((OrderedMap.get?_erase_of_ne _ same).symm.trans flies)
  registered := kept.registered
  tables := kept.tables
  graph := kept.graph
  inserted := kept.inserted
  calls := kept.calls

theorem Kept.settled (there : s.loads[index]? = some l)
    (registered : ∃ symbols, s.fileToSymbolTable.get? l.fileUri = some symbols) : Kept lib (s.settled index l) := by
  have kept' : Kept lib (s.setPhase index l .settled) :=
    kept.setPhase there registered (fun _ adding => nomatch adding) fun going => absurd rfl going
  have there' : (s.setPhase index l .settled).loads[index]? = some { l with phase := .settled } := by
    rw [StandardClassLoads.setPhase,List.getElem?_set_self (List.getElem?_eq_some_iff.mp there).1]
  have landed := kept'.land there' rfl
  unfold StandardClassLoads.settled
  split
  case isTrue => exact landed
  case isFalse => exact kept'

theorem Kept.register (there : s.loads[index]? = some l)
    (answered : tableOf lib.toStdlibProvider l = some symbols) :
    Kept lib { s with fileToSymbolTable := s.fileToSymbolTable.set l.fileUri symbols } where
  provided := kept.provided
  unique := kept.unique
  inFlight := kept.inFlight
  flying := kept.flying
  registered k member done := by
    by_cases same : k.fileUri = l.fileUri
    · exact ⟨symbols,by rw [same]; exact OrderedMap.get?_set_self _ _ _⟩
    · obtain ⟨old,registered⟩ := kept.registered k member done
      exact ⟨old,(OrderedMap.get?_set_of_ne _ _ same).trans registered⟩
  tables uri table found := by
    by_cases same : uri = l.fileUri
    · subst same
      obtain rfl := Option.some_inj.mp ((OrderedMap.get?_set_self _ _ _).symm.trans found)
      obtain ⟨raw,provided,rfl⟩ := Option.map_eq_some_iff.mp answered
      exact ⟨l.classPath,raw,(kept.provided l (List.mem_of_getElem? there)).1,provided,rfl⟩
    · exact kept.tables uri table ((OrderedMap.get?_set_of_ne _ _ same).symm.trans found)
  graph := kept.graph
  inserted := kept.inserted
  calls := kept.calls

theorem Kept.answer (went : s.answer lib.toStdlibProvider index = some t) : Kept lib t := by
  obtain ⟨l,asked,rfl⟩ := Option.map_eq_some_iff.mp went
  obtain ⟨there,waiting⟩ := Option.filter_eq_some_iff.mp asked
  have requested : l.phase = .requested := by simpa using waiting
  have has := (kept.provided l (List.mem_of_getElem? there)).2
  cases answered : tableOf lib.toStdlibProvider l with
  | none =>
    rw [tableOf,Option.map_eq_none_iff] at answered
    rw [answered] at has
    cases has
  | some symbols =>
    have kept' := kept.register there answered
    refine kept'.setPhase there ⟨symbols,OrderedMap.get?_set_self _ _ _⟩ (fun n adding => ?_) fun _ => ?_
    · cases adding
      exact Nat.zero_le _
    · rw [requested]
      exact nofun

theorem Kept.insert (went : s.insert lib.toStdlibProvider index = some t) : Kept lib t := by
  obtain ⟨l,there,goes⟩ := Option.bind_eq_some_iff.mp went
  split at goes
  next inserted adding =>
    obtain ⟨c,next,rfl⟩ := Option.map_eq_some_iff.mp goes
    have member := List.mem_of_getElem? there
    obtain ⟨uri,has⟩ := kept.provided l member
    obtain ⟨raw,provided⟩ := Option.isSome_iff_exists.mp has
    have table : tableOf lib.toStdlibProvider l = some (place l.fileUri raw) := by rw [tableOf,provided,Option.map_some]
    have holds : lib.Holds l.classPath c := by
      rw [table,Option.getD_some,uri] at next
      exact ⟨raw,provided,List.mem_of_getElem? next⟩
    have kept' : Kept lib (s.setPhase index l (.adding (inserted + 1))) := by
      refine kept.setPhase there (kept.registered l member (by rw [adding]; exact nofun)) (fun n same => ?_) fun _ => ?_
      · cases same
        exact (List.getElem?_eq_some_iff.mp next).1
      · rw [adding]
        exact nofun
    refine ⟨kept'.provided,kept'.unique,kept'.inFlight,kept'.flying,kept'.registered,kept'.tables,?_,kept'.inserted,
      kept'.calls⟩
    intro k listed
    rcases List.mem_append.mp listed with before | new
    · exact kept.graph k before
    · exact ⟨l.classPath,List.mem_singleton.mp new ▸ holds⟩
  next => cases goes

theorem Kept.settle (went : s.settle lib.toStdlibProvider index = some t) : Kept lib t := by
  obtain ⟨l,asked,rfl⟩ := Option.map_eq_some_iff.mp went
  obtain ⟨there,through⟩ := Option.filter_eq_some_iff.mp asked
  have adding : l.phase = .adding ((tableOf lib.toStdlibProvider l).getD []).length := by simpa using through
  exact kept.settled there (kept.registered l (List.mem_of_getElem? there) (by rw [adding]; exact nofun))

theorem Kept.step (asks : AsksStandard lib.toStdlibProvider s event) (orderly : StepsOrderly lib s event)
    (went : s.step lib.toStdlibProvider lib.registry event = some t) : Kept lib t := by
  cases event with
  | call name =>
    obtain rfl := Option.some_inj.mp went
    refine ⟨kept.provided,kept.unique,kept.inFlight,kept.flying,kept.registered,kept.tables,kept.graph,kept.inserted,?_⟩
    intro c member
    rcases List.mem_append.mp member with before | new
    · exact kept.calls c before
    · rw [List.mem_singleton.mp new]
      exact trivial
  | answer index => exact kept.answer went
  | insert index => exact kept.insert went
  | settle index => exact kept.settle went
  | lookUp j entry | resume j =>
    obtain ⟨⟨i,c,next⟩,turns,rfl⟩ := Option.map_eq_some_iff.mp went
    exact kept.take (kept.turn asks turns) (orderly i c next turns) i

end

theorem start_kept (lib : StandardLibrary) : Kept lib {} where
  provided _ member := absurd member List.not_mem_nil
  unique := List.nodup_nil
  inFlight _ _ found := nomatch found
  flying _ _ flies := nomatch flies
  registered _ member := absurd member List.not_mem_nil
  tables _ _ found := nomatch found
  graph _ member := absurd member List.not_mem_nil
  inserted _ member := absurd member List.not_mem_nil
  calls _ member := absurd member List.not_mem_nil

theorem Kept.load_goes_on (kept : Kept lib s) (there : s.loads[index]? = some l) (unsettled : l.phase ≠ .settled) :
    ∃ event, ¬ event.Calls ∧ (s.step lib.toStdlibProvider lib.registry event).isSome := by
  cases phase : l.phase with
  | requested =>
    refine ⟨.answer index,id,?_⟩
    simp [StandardClassLoads.step,StandardClassLoads.answer,there,phase,Option.filter_some]
  | settled => exact absurd phase unsettled
  | adding n =>
    rcases (kept.inserted l (List.mem_of_getElem? there) n phase).lt_or_eq with fewer | all
    · refine ⟨.insert index,id,?_⟩
      simp [StandardClassLoads.step,StandardClassLoads.insert,there,phase,List.getElem?_eq_getElem fewer]
    · refine ⟨.settle index,id,?_⟩
      simp [StandardClassLoads.step,StandardClassLoads.settle,there,phase,Option.filter_some,all]

theorem Kept.wait_goes_on (kept : Kept lib s) (awaits : Awaits lib.toStdlibProvider s awaited path) :
    (s.result lib.toStdlibProvider awaited).isSome ∨
      ∃ event, ¬ event.Calls ∧ (s.step lib.toStdlibProvider lib.registry event).isSome := by
  cases awaited with
  | installed symbols => exact .inl rfl
  | load index =>
    obtain ⟨l,there,-⟩ := awaits
    by_cases settled : l.phase = .settled
    · exact .inl (by simp [StandardClassLoads.result,there,Option.filter_some,settled])
    · exact .inr (kept.load_goes_on there settled)

theorem Kept.goes_on (kept : Kept lib s) (member : c ∈ s.calls) (pending : c.answer = none) :
    ∃ event, ¬ event.Calls ∧ (s.step lib.toStdlibProvider lib.registry event).isSome := by
  obtain ⟨i,there⟩ := List.mem_iff_getElem?.mp member
  have here := kept.calls c member
  have resumes (ready : (s.resumed lib.toStdlibProvider c).isSome) :
      ∃ event, ¬ event.Calls ∧ (s.step lib.toStdlibProvider lib.registry event).isSome :=
    ⟨.resume i,id,by simpa [StandardClassLoads.step,StandardClassLoads.turn,there] using ready⟩
  unfold At at here
  unfold StandardClassLoads.resumed at resumes
  cases point : c.point with
  | lookingUp =>
    refine ⟨.lookUp i none,id,?_⟩
    simp [StandardClassLoads.step,StandardClassLoads.turn,there,ClassCall.starts,point,Option.filter_some]
  | byFqn e known =>
    rw [point] at resumes
    refine resumes ?_
    dsimp only
    split <;> rfl
  | hydrating e awaited =>
    rw [point] at here resumes
    obtain ⟨-,-,path,-,awaits⟩ := here
    exact (kept.wait_goes_on awaits).elim (fun ready => resumes (by simpa using ready)) id
  | naming simple =>
    rw [point] at resumes
    refine resumes ?_
    dsimp only
    split <;> rfl
  | fetching target index =>
    rw [point] at here resumes
    exact (kept.wait_goes_on here.2.2.2).elim (fun ready => resumes (by simpa using ready)) id
  | loading target awaited =>
    rw [point] at here resumes
    exact (kept.wait_goes_on here.2.2.2).elim (fun ready => resumes (by simpa using ready)) id
  | leaving target answer =>
    rw [point] at here
    exact here.elim
  | returning answer =>
    rw [point] at resumes
    exact resumes rfl
  | done answer =>
    rw [ClassCall.answer,point] at pending
    cases pending

/-- The turns a name without a class file in the index may need besides. -/
def detour (p : StdlibProvider) (name : String) : Nat :=
  match p.naming name with
  | .unnamed _ => 4
  | _ => 0

def callLeft (p : StdlibProvider) (c : ClassCall) : Nat :=
  match c.point with
  | .lookingUp => detour p c.name + 5
  | .byFqn _ _ => detour p c.name + 4
  | .hydrating _ _ => detour p c.name + 3
  | .naming _ => 6
  | .fetching _ _ | .loading _ _ => 2
  | .leaving _ _ | .returning _ => 1
  | .done _ => 0

def turnLeft (p : StdlibProvider) (c : ClassCall) : Turn → Nat
  | .goes point => callLeft p { c with point }
  | .hydrates _ _ => detour p c.name + 3
  | .targets _ => 2
  | .asks fqn => detour p fqn + 5
  | .leaves _ _ => 0

def loadLeft (p : StdlibProvider) (l : ClassLoad) : Nat :=
  match l.phase with
  | .requested => ((tableOf p l).getD []).length + 2
  | .adding n => ((tableOf p l).getD []).length - n + 1
  | .settled => 0

def left (p : StdlibProvider) (s : StandardClassLoads) : Nat ×ₗ Nat :=
  toLex ((s.calls.map (callLeft p)).sum,(s.loads.map (loadLeft p)).sum)

theorem detour_dotted (p : StdlibProvider) (dotted : '.' ∈ fqn.toList) : detour p fqn = 0 := by
  obtain ⟨before,after,cut,free⟩ := List.eq_append_cons_of_mem dotted
  have parts : (fqn.toList.splitOn '.').map String.ofList =
      String.ofList before :: (after.splitOn '.').map String.ofList := by
    rw [cut,List.splitOn_append_cons_self_of_not_mem free,List.map_cons]
  have found : ∃ target, p.naming fqn = .target target := by
    unfold StdlibProvider.naming
    rw [parts]
    cases rest : (after.splitOn '.').map String.ofList with
    | nil => exact absurd (List.map_eq_nil_iff.mp rest) (List.splitOn_ne_nil '.' after)
    | cons className _ => exact ⟨_,rfl⟩
  obtain ⟨target,naming⟩ := found
  rw [detour,naming]

theorem turnLeft_pastRegistry (p : StdlibProvider) (c : ClassCall) :
    turnLeft p c (pastRegistry p c.name) < detour p c.name + 3 := by
  cases naming : p.naming c.name <;> simp [pastRegistry,detour,naming,turnLeft,callLeft]

theorem turnLeft_lookedUp (p : StdlibProvider) (s : StandardClassLoads) (c : ClassCall) (entry : Option TypeRegistryEntry)
    (starts : c.starts = true) : turnLeft p { c with entry } (s.lookedUp p c.name entry) < callLeft p c := by
  have whole : callLeft p c = detour p c.name + 5 := by
    unfold ClassCall.starts at starts
    unfold callLeft
    split at starts
    next point => rw [point]
    next => cases starts
  rw [whole]
  unfold StandardClassLoads.lookedUp
  split
  next =>
    have past := turnLeft_pastRegistry p c
    exact past.trans (by omega)
  next e =>
    split
    next => simp [turnLeft,callLeft]
    next => simp [turnLeft,callLeft]

theorem turnLeft_resumed (goes : s.resumed lib.toStdlibProvider c = some next) :
    turnLeft lib.toStdlibProvider c next < callLeft lib.toStdlibProvider c := by
  have past := turnLeft_pastRegistry lib.toStdlibProvider c
  unfold StandardClassLoads.resumed at goes
  split at goes
  case h_1 => cases goes
  case h_2 e known point =>
    unfold callLeft
    rw [point]
    split at goes
    next =>
      obtain rfl := Option.some_inj.mp goes
      simp [turnLeft,callLeft]
    next =>
      obtain rfl := Option.some_inj.mp goes
      simp [turnLeft]
    next =>
      obtain rfl := Option.some_inj.mp goes
      exact past.trans (by simp)
  case h_3 e awaited point =>
    unfold callLeft
    rw [point]
    obtain ⟨symbols,-,rfl⟩ := Option.map_eq_some_iff.mp goes
    split
    next => simp [turnLeft,callLeft]
    next => exact past
  case h_4 simple point =>
    unfold callLeft
    rw [point]
    split at goes
    next fqn full =>
      obtain rfl := Option.some_inj.mp goes
      have dotted := lib.dotted simple fqn (Option.eq_some_of_filter_eq_some full)
      simp [turnLeft,detour_dotted lib.toStdlibProvider dotted]
    next =>
      obtain rfl := Option.some_inj.mp goes
      simp [turnLeft,callLeft]
  case h_5 target index point =>
    unfold callLeft
    rw [point]
    obtain ⟨symbols,-,rfl⟩ := Option.map_eq_some_iff.mp goes
    simp [turnLeft,callLeft]
  case h_6 target awaited point =>
    unfold callLeft
    rw [point]
    obtain ⟨symbols,-,rfl⟩ := Option.map_eq_some_iff.mp goes
    split
    next => simp [turnLeft]
    next =>
      split
      next => simp [turnLeft]
      next => simp [turnLeft,callLeft]
  case h_7 target answer point =>
    unfold callLeft
    rw [point]
    obtain rfl := Option.some_inj.mp goes
    simp [turnLeft]
  case h_8 answer point =>
    unfold callLeft
    rw [point]
    obtain rfl := Option.some_inj.mp goes
    simp [turnLeft,callLeft]
  case h_9 => cases goes

omit [Runtime] in
theorem loadAndRegister_calls (s : StandardClassLoads) (fileUri classPath : String) :
    (s.loadAndRegisterStdlibSymbolTable fileUri classPath).1.calls = s.calls := by
  unfold loadAndRegisterStdlibSymbolTable
  split <;> rfl

theorem take_calls (p : StdlibProvider) (s : StandardClassLoads) (i : Nat) (c : ClassCall) (next : Turn) :
    ∃ after, (s.take i c next).calls = s.calls.set i after ∧ callLeft p after ≤ turnLeft p c next := by
  cases next with
  | goes point => exact ⟨_,rfl,le_rfl⟩
  | asks fqn => exact ⟨_,rfl,le_rfl⟩
  | leaves target answer => exact ⟨_,rfl,le_rfl⟩
  | hydrates e path =>
    rw [StandardClassLoads.take]
    exact ⟨_,congrArg (List.set · i _) (loadAndRegister_calls s e.fileUri path),le_rfl⟩
  | targets target =>
    rw [StandardClassLoads.take]
    split
    case isTrue => exact ⟨_,rfl,le_rfl⟩
    case isFalse =>
      split
      case isTrue => exact ⟨_,rfl,Nat.le_succ _⟩
      case isFalse => exact ⟨_,congrArg (List.set · i _) (loadAndRegister_calls _ _ _),le_rfl⟩

theorem left_lt (went : s.step lib.toStdlibProvider lib.registry event = some t) (old : ¬ event.Calls) :
    left lib.toStdlibProvider t < left lib.toStdlibProvider s := by
  have loads {index : Nat} {l : ClassLoad} {after : StandardClassLoads} (phase : LoadPhase) (there : s.loads[index]? = some l)
      (less : loadLeft lib.toStdlibProvider { l with phase } < loadLeft lib.toStdlibProvider l)
      (same : after.calls = s.calls) (set : after.loads = s.loads.set index { l with phase }) :
      left lib.toStdlibProvider after < left lib.toStdlibProvider s := by
    refine Prod.Lex.toLex_lt_toLex.mpr (.inr ⟨by rw [same],?_⟩)
    rw [set]
    exact sum_set_lt there less
  have turns {i : Nat} {before c : ClassCall} {next : Turn} (there : s.calls[i]? = some before)
      (less : turnLeft lib.toStdlibProvider c next < callLeft lib.toStdlibProvider before) :
      left lib.toStdlibProvider (s.take i c next) < left lib.toStdlibProvider s := by
    obtain ⟨after,set,bound⟩ := take_calls lib.toStdlibProvider s i c next
    refine Prod.Lex.toLex_lt_toLex.mpr (.inl ?_)
    rw [set]
    exact sum_set_lt there (bound.trans_lt less)
  cases event with
  | call name => exact absurd trivial old
  | answer index =>
    obtain ⟨l,asked,rfl⟩ := Option.map_eq_some_iff.mp went
    obtain ⟨there,waiting⟩ := Option.filter_eq_some_iff.mp asked
    have requested : l.phase = .requested := by simpa using waiting
    split
    next => exact loads .settled there (by simp [loadLeft,requested]) rfl rfl
    next symbols answered =>
      refine loads (.adding 0) there ?_ rfl rfl
      simp only [loadLeft,requested,tableOf]
      omega
  | insert index =>
    obtain ⟨l,there,goes⟩ := Option.bind_eq_some_iff.mp went
    split at goes
    next inserted adding =>
      obtain ⟨c,found,rfl⟩ := Option.map_eq_some_iff.mp goes
      refine loads (.adding (inserted + 1)) there ?_ rfl rfl
      have inside := (List.getElem?_eq_some_iff.mp found).1
      simp only [tableOf] at inside
      simp only [loadLeft,adding,tableOf]
      omega
    next => cases goes
  | settle index =>
    obtain ⟨l,asked,rfl⟩ := Option.map_eq_some_iff.mp went
    obtain ⟨there,through⟩ := Option.filter_eq_some_iff.mp asked
    have adding : l.phase = .adding ((tableOf lib.toStdlibProvider l).getD []).length := by simpa using through
    exact loads .settled there (by simp [loadLeft,adding]) rfl rfl
  | lookUp j entry =>
    obtain ⟨⟨i,c,next⟩,turn,rfl⟩ := Option.map_eq_some_iff.mp went
    obtain ⟨before,asked,same⟩ := Option.map_eq_some_iff.mp turn
    obtain ⟨there,allowed⟩ := Option.filter_eq_some_iff.mp asked
    obtain ⟨rfl,rest⟩ := Prod.mk.inj same
    obtain ⟨rfl,rfl⟩ := Prod.mk.inj rest
    simp only [Bool.and_eq_true] at allowed
    exact turns there (turnLeft_lookedUp _ s before entry allowed.1)
  | resume j =>
    obtain ⟨⟨i,c,next⟩,turn,rfl⟩ := Option.map_eq_some_iff.mp went
    obtain ⟨before,there,goes⟩ := Option.bind_eq_some_iff.mp turn
    obtain ⟨then_,resumes,same⟩ := Option.map_eq_some_iff.mp goes
    obtain ⟨rfl,rest⟩ := Prod.mk.inj same
    obtain ⟨rfl,rfl⟩ := Prod.mk.inj rest
    exact turns there (turnLeft_resumed resumes)

theorem requests_le (kept : Kept lib s) (fileUri : String) : s.requests fileUri ≤ 1 :=
  List.nodup_iff_count_le_one.mp kept.unique fileUri

omit [Runtime] in
theorem registrations_le_requests (p : StdlibProvider) (s : StandardClassLoads) (fileUri : String) :
    s.registrations p fileUri ≤ s.requests fileUri :=
  (List.filter_sublist.map _).count_le fileUri

/-- Along every orderly run of calls for standard classes: a call that has returned has the symbol of its class; each URI is
asked for once and has one table registered; while a call has not returned a step is enabled, and only finitely many
follow before a new call. -/
theorem calls_answered_in_orderly_runs (lib : StandardLibrary) (events : List ClassEvent)
    (ran : Runs (step lib.toStdlibProvider · lib.registry) {} events t)
    (asks : Meets (step lib.toStdlibProvider · lib.registry) (AsksStandard lib.toStdlibProvider) {} events)
    (orderly : Meets (step lib.toStdlibProvider · lib.registry) (StepsOrderly lib) {} events) :
    (∀ c ∈ t.calls, ∀ answer, c.answer = some answer → c.Right lib.toStdlibProvider answer) ∧
      (∀ fileUri, t.requests fileUri ≤ 1 ∧ t.registrations lib.toStdlibProvider fileUri ≤ 1) ∧
      (∀ c ∈ t.calls, c.answer = none →
        ∃ event, ¬ event.Calls ∧ (t.step lib.toStdlibProvider lib.registry event).isSome) ∧
      WellFounded fun after before : StandardClassLoads =>
        ∃ event, ¬ event.Calls ∧ before.step lib.toStdlibProvider lib.registry event = some after := by
  have kept : Kept lib t := by
    refine ran.invariant_of_meets (fun s event after kept met went => ?_) (asks.and orderly) (start_kept lib)
    exact kept.step met.1 met.2 went
  refine ⟨fun c member answer returned => ?_,fun fileUri => ?_,fun c member pending => kept.goes_on member pending,?_⟩
  · have here := kept.calls c member
    unfold ClassCall.answer at returned
    split at returned
    next given_ point =>
      obtain rfl := Option.some_inj.mp returned
      rw [At,point] at here
      exact here
    next => cases returned
  · have once := requests_le kept fileUri
    exact ⟨once,(registrations_le_requests _ t fileUri).trans once⟩
  · exact wellFounded_of_lowers (left lib.toStdlibProvider) fun s event after old went => left_lt went old

end StandardClassLoads

end

/-- Whatever the order of the steps, calls for standard classes are answered with the symbols of their classes. -/
def StandardLibrary.AlwaysAnswers (lib : StandardLibrary) : Prop :=
  ∀ events t, Runs (StandardClassLoads.step lib.toStdlibProvider · lib.registry) {} events t →
    Meets (StandardClassLoads.step lib.toStdlibProvider · lib.registry)
      (StandardClassLoads.AsksStandard lib.toStdlibProvider) {} events →
    ∀ c ∈ t.calls, ∀ answer, c.answer = some answer → c.Right lib.toStdlibProvider answer

end

namespace StandardClassLoads

def stringClass : ApexSymbol :=
  { id := "String",name := "String",kind := .class_,location := ⟨⟨1,0,9,1⟩,⟨1,13,1,19⟩⟩,fileUri := "" }

def stringProvider : StdlibProvider where
  findNamespaceForClass _ := []
  resolveClassFqn simple := if simple = "String" then some "System.String" else none
  getStandardNamespaces := [("System",["String.cls"])]
  isStdApexNamespace namespace_ := namespace_ = "System"
  hasClass classPath := classPath = "System/String.cls"
  getSymbolTable classPath := if classPath = "System/String.cls" then some [stringClass] else none

def stringLibrary [Runtime] : StandardLibrary where
  toStdlibProvider := stringProvider
  registry := []
  described := nofun
  named path symbols has c member := by
    simp only [stringProvider] at has
    split at has
    case isTrue =>
      obtain rfl := Option.some_inj.mp has
      rw [List.mem_singleton.mp member]
      decide
    case isFalse => cases has
  dotted simple fqn full := by
    simp only [stringProvider] at full
    split at full
    case isTrue =>
      obtain rfl := Option.some_inj.mp full
      decide
    case isFalse => cases full

def loneCall : List ClassEvent :=
  [.call "String",.lookUp 0 none,.resume 0,.lookUp 0 none,.answer 0,.insert 0,.settle 0,.resume 0]

def secondCall : List ClassEvent :=
  [.call "System.String",.call "System.String",.lookUp 0 none,.lookUp 1 none,.resume 1]

theorem lone_call_answered : ∃ t : StandardClassLoads, Runs (@step stringProvider · asciiRuntime []) {} loneCall t ∧
    (∃ c ∈ t.calls, ∃ answer, c.answer = some answer ∧ @ClassCall.Right asciiRuntime stringProvider c answer) ∧
      ∀ fileUri, t.requests fileUri ≤ 1 := by
  let Ends (_ : Runtime) :=
    ((loneCall.foldlM (step stringProvider · []) {}).any fun t => t.calls.any fun c => c.answer.isSome) = true ∧
      Meets (step stringProvider · []) (AsksStandard stringProvider) {} loneCall ∧
        Meets (step stringProvider · []) (StepsOrderly stringLibrary) {} loneCall
  obtain ⟨ends,asks,orderly⟩ : Ends asciiRuntime := of_byteRuntime Ends (by decide +kernel)
  obtain ⟨t,ran,returned⟩ := (Option.any_eq_true _ _).mp ends
  obtain ⟨c,member,answered⟩ := List.any_eq_true.mp returned
  obtain ⟨answer,answered⟩ := Option.isSome_iff_exists.mp answered
  obtain ⟨right,once,-⟩ := @calls_answered_in_orderly_runs asciiRuntime t (@stringLibrary asciiRuntime) loneCall ran asks
    orderly
  exact ⟨t,ran,⟨c,member,answer,answered,right c member answer answered⟩,fun fileUri => (once fileUri).1⟩

/-- The second call is answered `null`: the first is still loading its class. -/
theorem second_call_answered_null : ¬ @StandardLibrary.AlwaysAnswers asciiRuntime (@stringLibrary asciiRuntime) := by
  intro always
  let Ends (_ : Runtime) :=
    ((secondCall.foldlM (step stringProvider · []) {}).any fun t => t.calls.any fun c => c.answer.any Option.isNone) = true ∧
      Meets (step stringProvider · []) (AsksStandard stringProvider) {} secondCall
  obtain ⟨ends,asks⟩ : Ends asciiRuntime := of_byteRuntime Ends (by decide +kernel)
  obtain ⟨t,ran,returned⟩ := (Option.any_eq_true _ _).mp ends
  obtain ⟨c,member,answered⟩ := List.any_eq_true.mp returned
  obtain ⟨answer,answered,null⟩ := (Option.any_eq_true _ _).mp answered
  obtain ⟨path,name,found,-,rfl,-⟩ := always secondCall t ran asks c member answer answered
  cases null

end StandardClassLoads

end ApexLs.Resolution
