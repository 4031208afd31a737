import Mathlib.Data.List.TakeWhile
import ApexLs.Types.IdentifierFiles

/-! Reading an identifier back. The parser looks for the file first, by its extension or its scheme, and takes
what follows the first `$` of the signature for the disambiguator; without a signature nothing takes it off the name. -/
namespace ApexLs.Types

open ApexLs.Utils

def HashAfter (found : Option (List Char × List Char)) : Prop := ∃ p, found = some p ∧ '#' ∈ p.2

theorem cutAtHash_of_free {head rest : List Char} (free : '#' ∉ rest) : cutAtHash head rest = none := by
  cases found : breakOn ['#'] rest with
  | none => simp [cutAtHash,found]
  | some p => exact absurd (breakOn_parts found ▸ by simp) free

theorem cutAtHash_of_mem {rest : List Char} (head : List Char) (hash : '#' ∈ rest) :
    ∃ tail, cutAtHash head rest = some (head ++ tail) := by
  obtain ⟨before,after,rfl,free⟩ := List.eq_append_cons_of_mem hash
  exact ⟨before,by simp [cutAtHash,breakOn_hash before after free]⟩

theorem cutAtHash_self {head tail rest : List Char} (free : '#' ∉ tail) :
    cutAtHash head (tail ++ '#' :: rest) = some (head ++ tail) := by
  simp [cutAtHash,breakOn_hash tail rest free]

theorem cut_behind (uri head : List Char) (found : Option (List Char × List Char)) :
    (¬ HashAfter found → found.bind (fun p => cutAtHash (uri ++ '#' :: (p.1 ++ head)) p.2) = none) ∧
    (HashAfter found → ∃ cut, found.bind (fun p => cutAtHash (uri ++ '#' :: (p.1 ++ head)) p.2) = some cut ∧ cut ≠ uri) := by
  constructor
  · intro none_
    rw [Option.bind_eq_none_iff]
    exact fun p is => cutAtHash_of_free fun hash => none_ ⟨p,is,hash⟩
  · rintro ⟨p,rfl,hash⟩
    obtain ⟨tail,cut⟩ := cutAtHash_of_mem (uri ++ '#' :: (p.1 ++ head)) hash
    refine ⟨_,cut,fun same => ?_⟩
    have long := congrArg List.length same
    simp at long

theorem extractChars_iff {uri rest : List Char} (free : '#' ∉ uri) : extractChars (uri ++ '#' :: rest) = uri ↔
    ((breakAfterExtension uri).isSome = true ∨ ¬ HashAfter (breakAfterExtension rest)) ∧
    ((breakAfterExtension uri).isSome = true ∨ (breakOn "://".toList uri).isSome = true ∨
      ¬ HashAfter (breakOn "://".toList rest)) := by
  have own {head tail : List Char} (whole : head ++ tail = uri) : cutAtHash head (tail ++ '#' :: rest) = some uri := by
    rw [cutAtHash_self fun member => free (whole ▸ List.mem_append_right _ member),whole]
  have last : cutAtHash [] (uri ++ '#' :: rest) = some uri := own rfl
  have plain : '#' ∉ "://".toList := by decide
  rw [extractChars,last,breakAfterExtension_hash]
  generalize "://".toList = needle at plain ⊢
  cases extension : breakAfterExtension uri with
  | some p =>
    have byExtension := own (breakAfterExtension_parts extension)
    simp [byExtension]
  | none =>
    obtain ⟨silent,astray⟩ := cut_behind uri [] (breakAfterExtension rest)
    simp only [List.append_nil] at silent astray
    have shape : ((Option.map (fun p : List Char × List Char => (p.1,p.2 ++ '#' :: rest)) none).or
        ((breakAfterExtension rest).map fun p => (uri ++ '#' :: p.1,p.2))).bind (fun p => cutAtHash p.1 p.2) =
        (breakAfterExtension rest).bind fun p => cutAtHash (uri ++ '#' :: p.1) p.2 := by
      simp [Option.bind_map]
    rw [shape]
    by_cases hash : HashAfter (breakAfterExtension rest)
    · obtain ⟨cut,found,apart⟩ := astray hash
      simp [found,apart,hash]
    · rw [silent hash,Option.none_or]
      cases scheme : breakOn needle uri with
      | some q =>
        have byScheme := own (breakOn_parts scheme)
        simp [breakOn_before plain scheme rest,byScheme,hash]
      | none =>
        obtain ⟨silent',astray'⟩ := cut_behind uri needle (breakOn needle rest)
        rw [breakOn_behind plain scheme rest,Option.bind_map]
        have shape' : ((fun p : List Char × List Char => cutAtHash (p.1 ++ needle) p.2) ∘
            fun p : List Char × List Char => (uri ++ '#' :: p.1,p.2)) =
            fun p => cutAtHash (uri ++ '#' :: (p.1 ++ needle)) p.2 := by
          funext p
          simp
        rw [shape']
        by_cases hash' : HashAfter (breakOn needle rest)
        · obtain ⟨cut,found,apart⟩ := astray' hash'
          simp [found,apart,hash']
        · simp [silent' hash',hash,hash']

theorem not_hashAfter_extension {l : List Char} (free : '#' ∉ l) : ¬ HashAfter (breakAfterExtension l) := by
  rintro ⟨p,found,hash⟩
  exact free (breakAfterExtension_parts found ▸ List.mem_append_right _ hash)

theorem not_hashAfter_scheme {needle l : List Char} (free : '#' ∉ l) : ¬ HashAfter (breakOn needle l) := by
  rintro ⟨p,found,hash⟩
  exact free (breakOn_parts found ▸ List.mem_append_right _ hash)

theorem hashAfter_extension_hash {l rest : List Char} : HashAfter (breakAfterExtension (l ++ '#' :: rest)) ↔
    (breakAfterExtension l).isSome = true ∨ HashAfter (breakAfterExtension rest) := by
  rw [breakAfterExtension_hash]
  cases breakAfterExtension l with
  | some p => simp [HashAfter]
  | none =>
    cases breakAfterExtension rest with
    | none => simp [HashAfter]
    | some p => simp [HashAfter]

theorem hashAfter_scheme_hash {needle l rest : List Char} (plain : '#' ∉ needle) :
    HashAfter (breakOn needle (l ++ '#' :: rest)) ↔ (breakOn needle l).isSome = true ∨ HashAfter (breakOn needle rest) := by
  cases found : breakOn needle l with
  | some p =>
    rw [breakOn_before plain found]
    simp [HashAfter]
  | none =>
    rw [breakOn_behind plain found]
    cases breakOn needle rest with
    | none => simp [HashAfter]
    | some p => simp [HashAfter]

theorem map_replace_plain {a b : Char} {l : List Char} (free : '#' ∉ l) (other : b ≠ '#') :
    '#' ∉ l.map fun c => if c = a then b else c := by
  simp only [List.mem_map,not_exists,not_and]
  intro c member
  split
  next => exact other
  next => exact fun same => free (same ▸ member)

theorem splitClsExtension_plain {l : List Char} (free : '#' ∉ l) :
    '#' ∉ ((splitClsExtension l).getD (l,".cls".toList)).1 ∧ '#' ∉ ((splitClsExtension l).getD (l,".cls".toList)).2 := by
  unfold splitClsExtension
  dsimp only
  split
  next => exact ⟨fun member => free (List.mem_of_mem_take member),fun member => free (List.mem_of_mem_drop member)⟩
  next =>
    have plain : '#' ∉ ".cls".toList := by decide
    exact ⟨free,plain⟩

theorem normalizeApexPath_plain {path : String} (free : '#' ∉ path.toList) : '#' ∉ (normalizeApexPath path).toList := by
  obtain ⟨stem,extension⟩ := splitClsExtension_plain (map_replace_plain (a := '\\') (b := '/') free (by decide))
  unfold normalizeApexPath
  simp only [String.toList_ofList,List.mem_append,not_or]
  refine ⟨?_,extension⟩
  split
  next => exact map_replace_plain stem (by decide)
  next => exact stem

theorem createApexLibUri_plain {path : String} (free : '#' ∉ path.toList) : '#' ∉ (createApexLibUri path).toList := by
  have root : '#' ∉ "apexlib://resources/StandardApexLibrary/".toList := by decide +kernel
  unfold createApexLibUri
  rw [String.toList_append,List.mem_append,not_or]
  exact ⟨root,free⟩

theorem intercalate_free {c : Char} {separator : List Char} {l : List (List Char)} (other : c ∉ separator)
    (free : ∀ part ∈ l, c ∉ part) : c ∉ separator.intercalate l := by
  induction l with
  | nil => simp
  | cons part l ih =>
    cases l with
    | nil => simpa using free
    | cons next l =>
      rw [List.intercalate_cons_cons]
      simp only [List.mem_append,not_or]
      exact ⟨⟨free part (.head _),other⟩,ih fun x member => free x (.tail _ member)⟩

theorem head_splitOn (c : Char) (l : List Char) : (l.splitOn c).headD [] = l.takeWhile (· ≠ c) := by
  by_cases member : c ∈ l
  · obtain ⟨before,after,rfl,free⟩ := List.eq_append_cons_of_mem member
    have other : ∀ x ∈ before, decide (x ≠ c) = true := fun x listed => decide_eq_true fun same => free (same ▸ listed)
    rw [List.splitOn_append_cons_self_of_not_mem free,List.takeWhile_append_of_pos other]
    simp
  · have other : ∀ x ∈ l, decide (x ≠ c) = true := fun x listed => decide_eq_true fun same => member (same ▸ listed)
    rw [List.splitOn_eq_singleton member,List.takeWhile_eq_self_iff.mpr other]
    rfl

theorem parseSymbolPart_hash {uri name rest : List Char} (free : '#' ∉ name) :
    (parseSymbolPart uri (name ++ '#' :: rest)).qualifiedName = String.ofList name ∧
    (parseSymbolPart uri (name ++ '#' :: rest)).signature =
      some (String.ofList ((rest.takeWhile (· ≠ '#')).takeWhile (· ≠ '$'))) := by
  have parts : (name ++ '#' :: rest).splitOn '#' = name :: rest.splitOn '#' :=
    List.splitOn_append_cons_self_of_not_mem free rest
  refine ⟨by rw [parseSymbolPart,parts]; rfl,?_⟩
  rw [parseSymbolPart,parts,← head_splitOn '#']
  cases behind : rest.splitOn '#' with
  | nil => exact absurd behind (List.splitOn_ne_nil _ _)
  | cons part others => rfl

section

variable [Runtime]

theorem convertToUri_plain {fileUri : String} (free : '#' ∉ fileUri.toList) : '#' ∉ (convertToUri fileUri).toList := by
  unfold convertToUri
  split
  next => exact free
  next =>
    dsimp only
    split
    next => exact createApexLibUri_plain (normalizeApexPath_plain free)
    next => exact createFileUri_plain free

def dottedName (scopePath : List String) (name : String) : String := ".".intercalate (scopePath ++ [name])

def disambiguatorChars (kindPrefix : String) : List Char := if kindPrefix = "" then [] else '$' :: kindPrefix.toList

variable (name fileUri : String) (scopePath : List String) (kindPrefix : String) (parameters : List ParameterInfo)

theorem generateSymbolId_plain : (generateSymbolId name fileUri scopePath kindPrefix).toList =
    (convertToUri fileUri).toList ++ '#' :: ((dottedName scopePath name).toList ++ disambiguatorChars kindPrefix) := by
  unfold generateSymbolId dottedName disambiguatorChars
  by_cases nested : scopePath = []
  · by_cases bare : kindPrefix = ""
    · simp [nested,bare]
    · simp [nested,bare]
  · by_cases bare : kindPrefix = ""
    · simp [nested,bare]
    · simp [nested,bare]

theorem generateSymbolId_signed {parameters : List ParameterInfo} (signed : parameters ≠ []) :
    (generateSymbolId name fileUri scopePath kindPrefix parameters).toList =
      (convertToUri fileUri).toList ++ '#' :: ((dottedName scopePath name).toList ++
        '#' :: ((normalizeSignature parameters).toList ++ disambiguatorChars kindPrefix)) := by
  unfold generateSymbolId dottedName disambiguatorChars
  by_cases nested : scopePath = []
  · by_cases bare : kindPrefix = ""
    · simp [nested,bare,signed]
    · simp [nested,bare,signed]
  · by_cases bare : kindPrefix = ""
    · simp [nested,bare,signed]
    · simp [nested,bare,signed]

def ReadsBack : Prop :=
  ∃ parsed, parseSymbolId (generateSymbolId name fileUri scopePath kindPrefix parameters) = some parsed ∧
    parsed.uri = convertToUri fileUri ∧ parsed.name = name ∧ parsed.scopePath = scopePath ∧
    parsed.qualifiedName = dottedName scopePath name ∧
    (parameters ≠ [] → parsed.signature = some (normalizeSignature parameters))

/-- A disambiguator has a signature before it that is free of separators; and where the file has no extension of its own
(no scheme of its own) none is found in what follows it before another hash. -/
structure Readable : Prop where
  disambiguator : parameters = [] → kindPrefix = ""
  signature : '#' ∉ (normalizeSignature parameters).toList ∧ '$' ∉ (normalizeSignature parameters).toList
  extension : parameters ≠ [] → (breakAfterExtension (convertToUri fileUri).toList).isSome = true ∨
    breakAfterExtension (dottedName scopePath name).toList = none ∧
      ¬ HashAfter (breakAfterExtension ((normalizeSignature parameters).toList ++ disambiguatorChars kindPrefix))
  scheme : parameters ≠ [] → (breakAfterExtension (convertToUri fileUri).toList).isSome = true ∨
    (breakOn "://".toList (convertToUri fileUri).toList).isSome = true ∨
    breakOn "://".toList (dottedName scopePath name).toList = none ∧
      ¬ HashAfter (breakOn "://".toList ((normalizeSignature parameters).toList ++ disambiguatorChars kindPrefix))

variable {name fileUri scopePath kindPrefix parameters}

omit [Runtime] in
theorem parseSymbolId_eq_some {id : String} {parsed : ParsedSymbolId} (read : parseSymbolId id = some parsed) :
    parsed.uri = String.ofList (extractChars id.toList) ∧
      parsed = parseSymbolPart (extractChars id.toList) (id.toList.drop ((extractChars id.toList).length + 1)) := by
  unfold parseSymbolId at read
  dsimp only at read
  split at read
  next => cases read
  next =>
    obtain rfl := Option.some.inj read
    exact ⟨rfl,rfl⟩

omit [Runtime] in
theorem parseSymbolId_of_extract {id : String} {uri rest : List Char} (text : id.toList = uri ++ '#' :: rest)
    (file : extractChars (uri ++ '#' :: rest) = uri) : parseSymbolId id = some (parseSymbolPart uri rest) := by
  have longer : uri ≠ uri ++ '#' :: rest := by simp
  rw [parseSymbolId,text,file,if_neg longer]
  simp

omit [Runtime] in
theorem dottedName_parts (plain : ∀ part ∈ scopePath ++ [name], '.' ∉ part.toList) :
    ((dottedName scopePath name).toList.splitOn '.').map String.ofList = scopePath ++ [name] := by
  rw [dottedName,String.toList_intercalate]
  refine (congrArg (List.map String.ofList) (List.splitOn_intercalate '.' ?_ (by simp))).trans (by simp)
  intro part member
  obtain ⟨text,listed,rfl⟩ := List.mem_map.mp member
  exact plain text listed

omit [Runtime] in
theorem dottedName_hash_free (plain : ∀ part ∈ scopePath ++ [name], '#' ∉ part.toList) :
    '#' ∉ (dottedName scopePath name).toList := by
  rw [dottedName,String.toList_intercalate]
  refine intercalate_free (by decide) fun part member => ?_
  obtain ⟨text,listed,rfl⟩ := List.mem_map.mp member
  exact plain text listed

omit [Runtime] in
theorem name_cut {name : List Char} (free : '#' ∉ name) (kindPrefix : String) :
    (name ++ disambiguatorChars kindPrefix).takeWhile (· ≠ '#') = name ↔ kindPrefix = "" := by
  have other : ∀ c ∈ name, decide (c ≠ '#') = true := fun c listed => decide_eq_true fun same => free (same ▸ listed)
  rw [List.takeWhile_append_of_pos other,disambiguatorChars]
  split
  next bare => simp [bare]
  next given => simp [given]

omit [Runtime] in
theorem signature_cut (signature : List Char) (kindPrefix : String) :
    ((signature ++ disambiguatorChars kindPrefix).takeWhile (· ≠ '#')).takeWhile (· ≠ '$') = signature ↔
      '#' ∉ signature ∧ '$' ∉ signature := by
  constructor
  · intro cut
    have dollar : '$' ∉ signature := by
      rw [← cut]
      exact fun member => absurd (List.mem_takeWhile_imp member) (by decide)
    have hash : '#' ∉ signature := by
      rw [← cut]
      exact fun member => absurd (List.mem_takeWhile_imp ((List.takeWhile_sublist _).subset member)) (by decide)
    exact ⟨hash,dollar⟩
  · rintro ⟨hash,dollar⟩
    have noHash : ∀ c ∈ signature, decide (c ≠ '#') = true := fun c listed => decide_eq_true fun same => hash (same ▸ listed)
    have noDollar : ∀ c ∈ signature, decide (c ≠ '$') = true := fun c listed => decide_eq_true fun same => dollar (same ▸ listed)
    rw [List.takeWhile_append_of_pos noHash,List.takeWhile_append_of_pos noDollar,disambiguatorChars]
    split
    next => simp
    next => simp

theorem readsBack_parts {rest : List Char}
    (text : (generateSymbolId name fileUri scopePath kindPrefix parameters).toList =
      (convertToUri fileUri).toList ++ '#' :: rest) : ReadsBack name fileUri scopePath kindPrefix parameters ↔
    extractChars ((convertToUri fileUri).toList ++ '#' :: rest) = (convertToUri fileUri).toList ∧
      (parseSymbolPart (convertToUri fileUri).toList rest).name = name ∧
      (parseSymbolPart (convertToUri fileUri).toList rest).scopePath = scopePath ∧
      (parseSymbolPart (convertToUri fileUri).toList rest).qualifiedName = dottedName scopePath name ∧
      (parameters ≠ [] →
        (parseSymbolPart (convertToUri fileUri).toList rest).signature = some (normalizeSignature parameters)) := by
  constructor
  · rintro ⟨parsed,read,uri,parts⟩
    have file : extractChars ((convertToUri fileUri).toList ++ '#' :: rest) = (convertToUri fileUri).toList := by
      rw [← text,← uri,(parseSymbolId_eq_some read).1,String.toList_ofList]
    rw [parseSymbolId_of_extract text file] at read
    obtain rfl := Option.some.inj read
    exact ⟨file,parts⟩
  · rintro ⟨file,parts⟩
    exact ⟨_,parseSymbolId_of_extract text file,String.ofList_toList,parts⟩

omit [Runtime] in
theorem parseSymbolPart_dotted {uri rest : List Char} (plain : ∀ part ∈ scopePath ++ [name], '.' ∉ part.toList)
    (qualified : (parseSymbolPart uri rest).qualifiedName = dottedName scopePath name) :
    (parseSymbolPart uri rest).name = name ∧ (parseSymbolPart uri rest).scopePath = scopePath := by
  have cut : (rest.splitOn '#').headD [] = (dottedName scopePath name).toList := by
    rw [← qualified]
    exact String.toList_ofList.symm
  have parts := dottedName_parts plain
  have last : (parseSymbolPart uri rest).name =
      ((((rest.splitOn '#').headD []).splitOn '.').map String.ofList).getLastD (String.ofList []) := by
    rw [List.getLastD_map]
    rfl
  have front : (parseSymbolPart uri rest).scopePath =
      ((((rest.splitOn '#').headD []).splitOn '.').map String.ofList).dropLast := by
    rw [← List.map_dropLast]
    rfl
  rw [last,front,cut,parts]
  simp

end

theorem readsBack_plain_iff [Runtime] {name fileUri : String} {scopePath : List String} {kindPrefix : String}
    (file : '#' ∉ fileUri.toList) (plain : ∀ part ∈ scopePath ++ [name], '.' ∉ part.toList ∧ '#' ∉ part.toList) :
    ReadsBack name fileUri scopePath kindPrefix [] ↔ kindPrefix = "" := by
  have free := dottedName_hash_free fun part member => (plain part member).2
  rw [readsBack_parts (generateSymbolId_plain name fileUri scopePath kindPrefix)]
  constructor
  · rintro ⟨_,_,_,qualified,_⟩
    apply (name_cut free kindPrefix).mp
    rw [← head_splitOn]
    exact String.toList_ofList.symm.trans (congrArg String.toList qualified)
  · rintro rfl
    have bare : (dottedName scopePath name).toList ++ disambiguatorChars "" = (dottedName scopePath name).toList := by
      simp [disambiguatorChars]
    rw [bare]
    have qualified : (parseSymbolPart (convertToUri fileUri).toList (dottedName scopePath name).toList).qualifiedName =
        dottedName scopePath name := by
      rw [parseSymbolPart,List.splitOn_eq_singleton free]
      exact String.ofList_toList
    obtain ⟨nameOf,scopeOf⟩ := parseSymbolPart_dotted (fun part member => (plain part member).1) qualified
    refine ⟨(extractChars_iff (convertToUri_plain file)).mpr ?_,nameOf,scopeOf,qualified,fun signed => absurd rfl signed⟩
    exact ⟨.inr (not_hashAfter_extension free),.inr (.inr (not_hashAfter_scheme free))⟩

/-- An identifier is read back just where it is readable. -/
theorem readsBack_iff [Runtime] (name fileUri : String) (scopePath : List String) (kindPrefix : String)
    (parameters : List ParameterInfo) (file : '#' ∉ fileUri.toList)
    (plain : ∀ part ∈ scopePath ++ [name], '.' ∉ part.toList ∧ '#' ∉ part.toList ∧ '$' ∉ part.toList) :
    ReadsBack name fileUri scopePath kindPrefix parameters ↔ Readable name fileUri scopePath kindPrefix parameters := by
  have free := dottedName_hash_free fun part member => (plain part member).2.1
  by_cases signed : parameters = []
  · subst signed
    rw [readsBack_plain_iff file fun part member => ⟨(plain part member).1,(plain part member).2.1⟩]
    constructor
    · intro bare
      exact ⟨fun _ => bare,by decide,fun signed => absurd rfl signed,fun signed => absurd rfl signed⟩
    · intro readable
      exact readable.disambiguator rfl
  · obtain ⟨qualified,signature⟩ := @parseSymbolPart_hash (convertToUri fileUri).toList (dottedName scopePath name).toList
      ((normalizeSignature parameters).toList ++ disambiguatorChars kindPrefix) free
    rw [String.ofList_toList] at qualified
    obtain ⟨nameOf,scopeOf⟩ := parseSymbolPart_dotted (fun part member => (plain part member).1) qualified
    rw [readsBack_parts (generateSymbolId_signed name fileUri scopePath kindPrefix signed),
      extractChars_iff (convertToUri_plain file),hashAfter_extension_hash,hashAfter_scheme_hash (by decide),signature,
      not_or,not_or,Option.not_isSome_iff_eq_none,Option.not_isSome_iff_eq_none]
    constructor
    · rintro ⟨⟨extension,scheme⟩,_,_,_,cut⟩
      refine ⟨fun unsigned => absurd unsigned signed,(signature_cut _ kindPrefix).mp ?_,fun _ => extension,fun _ => scheme⟩
      rw [← @String.toList_ofList (List.takeWhile _ _)]
      exact congrArg String.toList (Option.some.inj (cut signed))
    · intro readable
      have cut := (signature_cut _ kindPrefix).mpr readable.signature
      refine ⟨⟨readable.extension signed,readable.scheme signed⟩,nameOf,scopeOf,qualified,fun _ => ?_⟩
      rw [cut,String.ofList_toList]

theorem readsBack_iff_signed : @ReadsBack asciiRuntime "bar" "file:///Foo.cls" ["Foo"] "" [⟨"String",none⟩] ↔
    @Readable asciiRuntime "bar" "file:///Foo.cls" ["Foo"] "" [⟨"String",none⟩] :=
  @readsBack_iff asciiRuntime "bar" "file:///Foo.cls" ["Foo"] "" [⟨"String",none⟩] (by decide) (by decide)

/-- Without a signature the disambiguator stays on the name. -/
theorem variable_read_with_disambiguator : ¬ ∀ (name fileUri : String) (scopePath : List String) (kindPrefix : String)
    (parameters : List ParameterInfo), '#' ∉ fileUri.toList →
    (∀ part ∈ scopePath ++ [name], '.' ∉ part.toList ∧ '#' ∉ part.toList ∧ '$' ∉ part.toList) →
    @ReadsBack asciiRuntime name fileUri scopePath kindPrefix parameters := by
  intro always
  obtain ⟨parsed,read,_,nameOf,_⟩ := always "x" "file:///Foo.cls" ["Foo"] "variable" [] (by decide) (by decide)
  have id : @generateSymbolId asciiRuntime "x" "file:///Foo.cls" ["Foo"] "variable" [] "" =
      "file:///Foo.cls#Foo.x$variable" := by decide +kernel
  rw [id] at read
  have named : (parseSymbolId "file:///Foo.cls#Foo.x$variable").map ParsedSymbolId.name = some "x$variable" := by
    decide +kernel
  rw [read,Option.map_some,nameOf] at named
  exact absurd named (by decide)

end ApexLs.Types
