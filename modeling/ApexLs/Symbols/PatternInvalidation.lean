import ApexLs.Types.UriBasedIdGenerator
import ApexLs.Utils.CacheBookkeeping
import ApexLs.Utils.RegExpMatching

/-! Invalidation of the unified cache by a pattern. The callers give the text of a URI or of a name, and it goes into the
`RegExp` as it stands. -/
namespace ApexLs.Symbols

open ApexLs.Utils ApexLs.Utils.RegExp ApexLs.Types ApexLs.Collections

/-- What the callers mean to remove: `removeFile` the entries of a file, `addSymbolTable` its list of symbols and what was
looked up by a name, `addSymbol` whatever has the name in its key. -/
inductive Invalidation where
  | removeFile (fileUri : String)
  | fileSymbols (fileUri : String)
  | symbolName (name : String)
  | anyKey (name : String)

def Invalidation.pattern [Runtime] : Invalidation → String
  | .removeFile fileUri => extractFilePathFromUri (createFileUri fileUri)
  | .fileSymbols fileUri => "file_symbols_" ++ extractFilePathFromUri (createFileUri fileUri)
  | .symbolName name => "symbol_name_" ++ toLowerCase name
  | .anyKey name => toLowerCase name

theorem unitsOf_append (a b : String) : unitsOf (a ++ b) = unitsOf a ++ unitsOf b := by
  rw [unitsOf,String.toList_append,List.flatMap_append]
  rfl

section

variable [LetterTables]

/-- `none` is the `SyntaxError` that `new RegExp(pattern, 'i')` throws. -/
def invalidatePattern (c : WeakCache α) (pattern : String) : Option (Nat × WeakCache α) :=
  (parsePattern (unitsOf pattern)).map fun regex =>
    c.invalidatePattern (fun _ key => regex.test (unitsOf key)) pattern

def StandsIn (s key : String) : Prop :=
  ∃ before found behind : String, key = before ++ found ++ behind ∧ SameLetters (unitsOf found) (unitsOf s)

/-- Whatever the cache holds, the call returns, and no entry is left whose key the text stands in. -/
def Removes (s : String) : Prop :=
  ∀ (α : Type) (c : WeakCache α), ∃ count d, invalidatePattern c s = some (count,d) ∧
    ∀ key, StandsIn s key → d.cache.get? key = none

/-- The text is a pattern, and the pattern is found in every text that the text stands in as it is. -/
def FindsItself (s : String) : Prop :=
  ∃ regex, parsePattern (unitsOf s) = some regex ∧
    ∀ before behind : String, regex.test (unitsOf (before ++ s ++ behind)) = true

omit [LetterTables] in
theorem get?_invalidatePattern (c : WeakCache α) (test : String → String → Bool) (pattern key : String) :
    (c.invalidatePattern test pattern).2.cache.get? key = if test pattern key then none else c.cache.get? key := by
  rw [WeakCache.invalidatePattern_eq,WeakCache.get?_deleteAll]
  by_cases there : key ∈ c.cache.keys
  · simp [there]
  · simp [there,OrderedMap.get?_eq_none_iff.mpr there]

theorem get?_invalidated {c : WeakCache α} {s : String} {regex : Regex} (parsed : parsePattern (unitsOf s) = some regex)
    (result : invalidatePattern c s = some p) (key : String) :
    p.2.cache.get? key = if regex.test (unitsOf key) then none else c.cache.get? key := by
  rw [invalidatePattern,parsed] at result
  rw [← Option.some.inj result]
  exact get?_invalidatePattern c _ s key

theorem found_everywhere {s : String} {regex : Regex}
    (finds : ∀ before behind : String, regex.test (unitsOf (before ++ s ++ behind)) = true) (stands : StandsIn s key) :
    regex.test (unitsOf key) = true := by
  obtain ⟨before,found,behind,rfl,letters⟩ := stands
  have same : SameLetters (unitsOf (before ++ found ++ behind)) (unitsOf (before ++ s ++ behind)) := by
    unfold SameLetters at letters ⊢
    simp only [unitsOf_append,List.map_append,letters]
  rw [same.test_eq]
  exact finds before behind

def oneEntry (key : String) : WeakCache Unit :=
  { cache := OrderedMap.empty.set key ⟨0,⟨(),0,1,0,.symbolLookup⟩⟩ }

theorem removes_iff (s : String) : Removes s ↔ FindsItself s := by
  constructor
  · intro removes
    obtain ⟨count,d,result,-⟩ := removes Unit {}
    obtain ⟨regex,parsed,-⟩ := Option.map_eq_some_iff.mp result
    refine ⟨regex,parsed,fun before behind => ?_⟩
    obtain ⟨count,d,result,removed⟩ := removes Unit (oneEntry (before ++ s ++ behind))
    have gone := removed (before ++ s ++ behind) ⟨before,s,behind,rfl,rfl⟩
    have left := get?_invalidated parsed result (before ++ s ++ behind)
    by_contra missed
    rw [gone,if_neg missed,oneEntry,OrderedMap.get?_set_self] at left
    cases left
  · rintro ⟨regex,parsed,finds⟩ α c
    have result : ∃ p, invalidatePattern c s = some p := ⟨_,congrArg (Option.map _) parsed⟩
    obtain ⟨⟨count,d⟩,result⟩ := result
    refine ⟨count,d,result,fun key stands => ?_⟩
    exact (get?_invalidated parsed result key).trans (if_pos (found_everywhere finds stands))

theorem findsItself_iff {s : String} {regex : Regex} (parsed : parsePattern (unitsOf s) = some regex)
    (blind : regex.looks = false) : FindsItself s ↔ regex.test (unitsOf s) = true := by
  constructor
  · rintro ⟨regex',parsed',finds⟩
    obtain rfl := Option.some.inj (parsed.symm.trans parsed')
    simpa using finds "" ""
  · refine fun found => ⟨regex,parsed,fun before behind => ?_⟩
    rw [unitsOf_append,unitsOf_append]
    exact (holds_append _ _ _).test regex blind found

theorem findsItself_plain {s : String} (plain : Plain (unitsOf s)) : FindsItself s :=
  (findsItself_iff (parsePattern_plain plain) (looks_plain _)).mpr (test_plain _)

/-- The call removes what its caller means just when the text, read as a pattern, finds itself wherever it stands. Without
assertions in it, it is enough that it finds itself alone; a text without metacharacters always does. -/
theorem invalidatePattern_removes (s : String) :
    (Removes s ↔ FindsItself s) ∧
      (∀ regex, parsePattern (unitsOf s) = some regex → regex.looks = false →
        (FindsItself s ↔ regex.test (unitsOf s) = true)) ∧
      (Plain (unitsOf s) → FindsItself s) :=
  ⟨removes_iff s,fun _ parsed blind => findsItself_iff parsed blind,findsItself_plain⟩

end

@[reducible] def asciiTables : LetterTables where
  toUppercase c := [if 97 ≤ c.toNat ∧ c.toNat ≤ 122 then c - 32 else c]
  isIdStart point := isLetter (UInt16.ofNat point)
  isIdContinue point := isWordChar (UInt16.ofNat point)
  upper_ascii _ _ := rfl

/-- The parentheses of a file's name group its letters and are not looked for; one alone makes the call throw. -/
theorem parentheses_in_file_name :
    ¬@Removes asciiTables (@Invalidation.pattern asciiRuntime (.removeFile "file:///a/Foo(1).cls")) ∧
      ¬@Removes asciiTables (@Invalidation.pattern asciiRuntime (.removeFile "file:///a/Foo(.cls")) := by
  constructor
  · rw [@removes_iff asciiTables]
    rintro ⟨regex,parsed,finds⟩
    have missed :
        (@parsePattern asciiTables (unitsOf (@Invalidation.pattern asciiRuntime (.removeFile "file:///a/Foo(1).cls")))).all
        (fun regex => @Regex.test asciiTables regex
          (unitsOf ("" ++ @Invalidation.pattern asciiRuntime (.removeFile "file:///a/Foo(1).cls") ++ ""))) = false := by
      decide +kernel
    rw [parsed,Option.all_some,finds] at missed
    cases missed
  · intro removes
    obtain ⟨count,d,result,-⟩ := removes Unit {}
    have thrown : @parsePattern asciiTables (unitsOf (@Invalidation.pattern asciiRuntime (.removeFile "file:///a/Foo(.cls"))) =
        none := by decide +kernel
    unfold invalidatePattern at result
    rw [thrown] at result
    cases result

end ApexLs.Symbols
