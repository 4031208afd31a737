import ApexLs.Types.IdentifierParts
import ApexLs.Types.SymbolTable
import ApexLs.Types.TypeReferences
import ApexLs.Collections.DelimitedTexts

/-! What the signature in an identifier tells of the parameter types. A type is written into it without its white space
and without what qualifies its outermost name, and what is written is read back in one way. -/
namespace ApexLs.Types

open ApexLs.Collections ApexLs.Utils

def bare (text : List Char) : List Char := text.filter fun c => !isWhiteSpace c

def trimmed (text : List Char) : List Char := ((text.dropWhile isWhiteSpace).reverse.dropWhile isWhiteSpace).reverse

theorem bare_append (l r : List Char) : bare (l ++ r) = bare l ++ bare r := List.filter_append ..

theorem bare_reverse (l : List Char) : bare l.reverse = (bare l).reverse := List.filter_reverse ..

theorem bare_dropWhile (l : List Char) : bare (l.dropWhile isWhiteSpace) = bare l := by
  induction l with
  | nil => rfl
  | cons c l ih =>
    cases white : isWhiteSpace c with
    | true => simpa [bare,white] using ih
    | false => simp [bare,white]

theorem bare_trimmed (l : List Char) : bare (trimmed l) = bare l := by
  rw [trimmed,bare_reverse,bare_dropWhile,bare_reverse,List.reverse_reverse,bare_dropWhile]

theorem bare_takeWhile {c : Char} (visible : isWhiteSpace c = false) (l : List Char) :
    bare (l.takeWhile (· ≠ c)) = (bare l).takeWhile (· ≠ c) := by
  induction l with
  | nil => rfl
  | cons x l ih =>
    by_cases is : x = c
    · simp [bare,is,visible]
    · cases white : isWhiteSpace x with
      | true => simpa [bare,is,white] using ih
      | false => simpa [bare,is,white] using ih

theorem bare_dropWhile_ne {c : Char} (visible : isWhiteSpace c = false) (l : List Char) :
    bare (l.dropWhile (· ≠ c)) = (bare l).dropWhile (· ≠ c) := by
  induction l with
  | nil => rfl
  | cons x l ih =>
    by_cases is : x = c
    · simp [bare,is,visible]
    · cases white : isWhiteSpace x with
      | true => simpa [bare,is,white] using ih
      | false => simpa [bare,is,white] using ih

theorem bare_removeNamespace (l : List Char) : bare (removeNamespace l) = removeNamespace (bare l) := by
  have visible : isWhiteSpace '.' = false := by decide
  rw [removeNamespace,bare_reverse,bare_takeWhile visible,bare_reverse]
  rfl

theorem removeNamespace_append {l r : List Char} (free : '.' ∉ r) :
    removeNamespace (l ++ r) = removeNamespace l ++ r := by
  have other : ∀ c ∈ r.reverse, decide (c ≠ '.') = true := fun c member =>
    decide_eq_true fun same => free (same ▸ List.mem_reverse.mp member)
  rw [removeNamespace,List.reverse_append,List.takeWhile_append_of_pos other]
  simp [removeNamespace]

theorem removeNamespace_of_free {l : List Char} (free : '.' ∉ l) : removeNamespace l = l :=
  removeNamespace_append (l := []) free

theorem removeNamespace_dot (l r : List Char) : removeNamespace (l ++ '.' :: r) = removeNamespace r := by
  rw [removeNamespace,removeNamespace,List.reverse_append,List.reverse_cons,List.append_assoc,List.takeWhile_append]
  split
  next whole =>
    rw [(List.takeWhile_prefix _).eq_of_length whole]
    simp
  next => rfl

def behindName (text : List Char) : List Char := (trimmed text).dropWhile (· ≠ '<')

theorem bare_behindName (text : List Char) : bare (behindName text) = (bare text).dropWhile (· ≠ '<') := by
  rw [behindName,bare_dropWhile_ne (by decide),bare_trimmed]

theorem normalizeTypeName_chars {text : String}
    (apart : '.' ∈ behindName text.toList → (genericMatch (trimmed text.toList)).isSome = true) :
    (normalizeTypeName text).toList =
      removeNamespace ((bare text.toList).takeWhile (· ≠ '<')) ++ (bare text.toList).dropWhile (· ≠ '<') := by
  rw [← bare_behindName,← bare_trimmed text.toList,← bare_takeWhile (by decide),← bare_removeNamespace,← bare_append]
  unfold normalizeTypeName
  rw [String.toList_ofList]
  change bare _ = _
  congr 1
  rw [show ((text.toList.dropWhile isWhiteSpace).reverse.dropWhile isWhiteSpace).reverse = trimmed text.toList from rfl]
  cases found : genericMatch (trimmed text.toList) with
  | some p =>
    unfold genericMatch at found
    dsimp only at found
    split at found
    next =>
      obtain rfl := Option.some.inj found
      rfl
    next => cases found
  | none =>
    have free : '.' ∉ behindName text.toList := fun dot => by
      have set_ := apart dot
      rw [found] at set_
      cases set_
    rw [← removeNamespace_append free,behindName,List.takeWhile_append_dropWhile]

def Identifier.IsWord (i : Identifier) : Prop :=
  ∀ c ∈ i.text.toList, c ∉ [',','>',')','['] ∧ isWhiteSpace c = false

instance (i : Identifier) : Decidable i.IsWord :=
  List.decidableBAll (fun c => c ∉ [',','>',')','['] ∧ isWhiteSpace c = false) i.text.toList

def brackets (dimensions : Nat) : List Char := (List.replicate dimensions ['[',']']).flatten

def enclosed : List (List Char) → List Char
  | [] => []
  | arguments => '<' :: ([','].intercalate arguments ++ ['>'])

namespace TypeRef

mutual

def chars : TypeRef → List Char
  | .mk qualifier name typeArguments dimensions =>
    (qualifiedName qualifier name).toList ++ (enclosed (charsAll typeArguments) ++ brackets dimensions)

def charsAll : List TypeRef → List (List Char)
  | [] => []
  | t :: ts => t.chars :: charsAll ts

end

theorem charsAll_eq (ts : List TypeRef) : charsAll ts = ts.map chars := by
  induction ts with
  | nil => rfl
  | cons t ts ih => rw [charsAll,ih,List.map_cons]

theorem chars_mk (qualifier : List Identifier) (name : Identifier) (typeArguments : List TypeRef) (dimensions : Nat) :
    chars (.mk qualifier name typeArguments dimensions) = (qualifiedName qualifier name).toList ++
      (enclosed (typeArguments.map chars) ++ brackets dimensions) := by
  rw [chars,charsAll_eq]

inductive Worded : TypeRef → Prop where
  | mk {qualifier : List Identifier} {name : Identifier} {typeArguments : List TypeRef} {dimensions : Nat}
    (names : ∀ i ∈ qualifier ++ [name], i.IsWord) (arguments : ∀ t ∈ typeArguments, Worded t) :
    Worded (.mk qualifier name typeArguments dimensions)

def simple : TypeRef → TypeRef
  | .mk _ name typeArguments dimensions => .mk [] name typeArguments dimensions

def dimensions : TypeRef → Nat
  | .mk _ _ _ dimensions => dimensions

theorem Worded.simple {t : TypeRef} (words : Worded t) : Worded t.simple := by
  cases words with
  | mk names arguments => exact .mk (fun i member => names i (List.mem_append_right _ member)) arguments

def delimiters : Set Char := {',','>',')'}

theorem ends_brackets (dimensions : Nat) {rest : List Char} (ends : Ends delimiters rest) :
    Ends {'[',',','>',')'} (brackets dimensions ++ rest) := by
  cases dimensions with
  | zero =>
    refine ends.mono fun c member => ?_
    simp only [delimiters,Set.mem_insert_iff,Set.mem_singleton_iff] at member ⊢
    exact .inr member
  | succ n => simp [brackets,List.replicate_succ]

theorem ends_enclosed (arguments : List (List Char)) {rest : List Char} (ends : Ends {'[',',','>',')'} rest) :
    Ends {'<','[',',','>',')'} (enclosed arguments ++ rest) := by
  cases arguments with
  | nil =>
    refine ends.mono fun c member => ?_
    simp only [Set.mem_insert_iff,Set.mem_singleton_iff] at member ⊢
    exact .inr member
  | cons a arguments => simp [enclosed]

theorem legible_names {names : List Identifier} (some_ : names ≠ []) (words : ∀ i ∈ names, i.IsWord) :
    Legible (fun l : List Identifier => ['.'].intercalate (l.map fun i => i.text.toList))
      {l | l ≠ [] ∧ ∀ i ∈ l, i ∈ {i : Identifier | i.IsWord}} {'<','[',',','>',')'} names := by
  have separates : '.' ∈ ({'.','<','[',',','>',')'} : Set Char) := by simp
  refine Legible.joined separates (by simp) (by simp) some_ fun i member => ?_
  refine Legible.of_free (words i member) ?_ ?_
  · intro j word c listed
    have other := (word c listed).1
    have dot : c ≠ '.' := fun same => j.plain.1 (same ▸ listed)
    have bracket : c ≠ '<' := fun same => j.plain.2 (same ▸ listed)
    simp only [List.mem_cons,List.not_mem_nil,or_false,not_or] at other
    simp [dot,bracket,other]
  · intro j _ same
    cases i
    cases j
    simpa [String.toList_inj] using same

theorem legible_joined {kind : Set TypeRef} {close : Char} (closes : close = '>' ∨ close = ')') {ts : List TypeRef}
    (some_ : ts ≠ []) (each : ∀ t ∈ ts, Legible chars kind delimiters t) :
    Legible (fun l => [','].intercalate (l.map chars)) {l | l ≠ [] ∧ ∀ t ∈ l, t ∈ kind} {close} ts := by
  have separates : ',' ∈ delimiters := by simp [delimiters]
  refine Legible.joined separates ?_ ?_ some_ each
  · rcases closes with rfl | rfl
    · simp [delimiters]
    · simp [delimiters]
  · rcases closes with rfl | rfl
    · simp
    · simp

theorem behind_inj {kind : Set TypeRef} {ts us : List TypeRef} (each : ∀ t ∈ ts, Legible chars kind delimiters t)
    (kinds : ∀ u ∈ us, u ∈ kind) {m n : Nat} {rest rest' : List Char} (ends : Ends delimiters rest)
    (ends' : Ends delimiters rest') (same : enclosed (ts.map chars) ++ (brackets m ++ rest) =
      enclosed (us.map chars) ++ (brackets n ++ rest')) : ts = us ∧ m = n ∧ rest = rest' := by
  have counted {k l : Nat} (same : brackets k ++ rest = brackets l ++ rest') : k = l ∧ rest = rest' :=
    Legible.repeated [']'] (by simp [delimiters]) k l (Set.mem_univ _) rest rest' ends ends' same
  cases ts with
  | nil =>
    cases us with
    | nil => exact ⟨rfl,counted same⟩
    | cons u us =>
      have front := ends_brackets m ends
      rw [show brackets m ++ rest = _ from same] at front
      simp [enclosed] at front
  | cons t ts =>
    cases us with
    | nil =>
      have front := ends_brackets n ends'
      rw [show brackets n ++ rest' = _ from same.symm] at front
      simp [enclosed] at front
    | cons u us =>
      have joined := legible_joined (.inl rfl) (List.cons_ne_nil t ts) each
      have inside : [','].intercalate ((t :: ts).map chars) ++ '>' :: (brackets m ++ rest) =
          [','].intercalate ((u :: us).map chars) ++ '>' :: (brackets n ++ rest') := by
        simpa only [enclosed,List.map_cons,List.cons_append,List.append_assoc,List.nil_append,List.cons.injEq,true_and]
          using same
      obtain ⟨arguments,rests⟩ := joined (u :: us) ⟨List.cons_ne_nil u us,kinds⟩ _ _ (by simp) (by simp) inside
      exact ⟨arguments,counted (List.cons.inj rests).2⟩

theorem Worded.legible {t : TypeRef} (words : Worded t) : Legible chars {u | Worded u} delimiters t := by
  induction words with
  | @mk qualifier name typeArguments dimensions names arguments ih =>
    rintro u (@⟨qualifier',name',typeArguments',dimensions',names',arguments'⟩) rest rest' ends ends' same
    rw [chars_mk,chars_mk,toList_qualifiedName,toList_qualifiedName] at same
    simp only [List.append_assoc] at same
    obtain ⟨named,behind⟩ := legible_names (by simp) names (qualifier' ++ [name']) ⟨by simp,names'⟩ _ _
      (ends_enclosed _ (ends_brackets dimensions ends)) (ends_enclosed _ (ends_brackets dimensions' ends')) same
    obtain ⟨rfl,last⟩ := List.append_inj' named rfl
    obtain rfl := List.singleton_inj.mp last
    obtain ⟨rfl,rfl,rests⟩ := behind_inj ih arguments' ends ends' behind
    exact ⟨rfl,rests⟩

theorem brackets_free {c : Char} (front : c ≠ '[') (back : c ≠ ']') (dimensions : Nat) : c ∉ brackets dimensions := by
  induction dimensions with
  | zero => exact List.not_mem_nil
  | succ n ih =>
    rw [show brackets (n + 1) = '[' :: ']' :: brackets n by simp [brackets,List.replicate_succ]]
    simp [front,back,ih]

theorem removeNamespace_qualifiedName (qualifier : List Identifier) (name : Identifier) :
    removeNamespace (qualifiedName qualifier name).toList = name.text.toList := by
  induction qualifier with
  | nil => exact removeNamespace_of_free name.plain.1
  | cons outer qualifier ih =>
    rw [qualifiedName_cons,← ih,String.toList_append,String.toList_append,List.append_assoc]
    exact removeNamespace_dot _ _

theorem takeWhile_name (qualifier : List Identifier) (name : Identifier) (rest : List Char) :
    ((qualifiedName qualifier name).toList ++ rest).takeWhile (· ≠ '<') =
        (qualifiedName qualifier name).toList ++ rest.takeWhile (· ≠ '<') ∧
      ((qualifiedName qualifier name).toList ++ rest).dropWhile (· ≠ '<') = rest.dropWhile (· ≠ '<') := by
  have unbracketed : ∀ c ∈ (qualifiedName qualifier name).toList, decide (c ≠ '<') = true := fun c member =>
    decide_eq_true fun same => unbracketed_qualifiedName qualifier name (same ▸ member)
  exact ⟨List.takeWhile_append_of_pos unbracketed,List.dropWhile_append_of_pos unbracketed⟩

theorem qualifiedName_chars_ne_nil (qualifier : List Identifier) (name : Identifier) :
    (qualifiedName qualifier name).toList ≠ [] := by
  cases qualifier with
  | nil => exact fun empty => name.nonempty (String.toList_eq_nil_iff.mp empty)
  | cons outer qualifier => simp [qualifiedName_cons]

theorem cut_chars (t : TypeRef) : removeNamespace (t.chars.takeWhile (· ≠ '<')) ++ t.chars.dropWhile (· ≠ '<') =
    t.simple.chars := by
  obtain ⟨qualifier,name,typeArguments,dimensions⟩ := t
  obtain ⟨taken,dropped⟩ := takeWhile_name qualifier name (enclosed (typeArguments.map chars) ++ brackets dimensions)
  rw [simple,chars_mk,chars_mk,taken,dropped,qualifiedName_nil]
  cases typeArguments with
  | nil =>
    have free : ∀ c ∈ brackets dimensions, decide (c ≠ '<') = true := fun c member =>
      decide_eq_true fun same => brackets_free (by decide) (by decide) dimensions (same ▸ member)
    rw [List.map_nil,enclosed,List.nil_append,List.takeWhile_eq_self_iff.mpr free,List.dropWhile_eq_nil_iff.mpr free,
      List.append_nil,removeNamespace_append (brackets_free (by decide) (by decide) dimensions),removeNamespace_qualifiedName]
  | cons t ts =>
    rw [← removeNamespace_qualifiedName qualifier name]
    simp [enclosed]

end TypeRef

theorem getLast?_bare {l : List Char} (closed : ∀ c ∈ l.getLast?, isWhiteSpace c = false) :
    (bare l).getLast? = l.getLast? := by
  rcases List.eq_nil_or_concat l with rfl | ⟨front,c,rfl⟩
  · rfl
  · have visible : isWhiteSpace c = false := closed c (by simp)
    simp [bare,visible]

theorem trimmed_closed (text : List Char) : ∀ c ∈ (trimmed text).getLast?, isWhiteSpace c = false := by
  intro c last
  rw [trimmed,List.getLast?_reverse] at last
  have kept := List.head?_dropWhile_not isWhiteSpace (text.dropWhile isWhiteSpace).reverse
  rw [show List.head? _ = some c from last] at kept
  simpa using kept

theorem behindName_closed (text : List Char) : ∀ c ∈ (behindName text).getLast?, isWhiteSpace c = false := by
  intro c last
  have suffix : behindName text <:+ trimmed text := List.dropWhile_suffix _
  obtain ⟨front,whole⟩ := suffix
  refine trimmed_closed text c ?_
  rw [← whole,List.getLast?_append,show (behindName text).getLast? = some c from last]
  rfl

/-- A parameter as it is declared: its type is a reference spelled with any white space. A dot among the arguments
stands in no array and in no argument list that a line ends in. -/
structure WrittenParameter extends ParameterInfo where
  ref : TypeRef
  worded : ref.Worded
  spelled : bare type.toList = ref.chars
  whole : '.' ∈ behindName type.toList → ref.dimensions = 0 ∧ ∀ c ∈ behindName type.toList, isLineTerminator c = false

namespace WrittenParameter

variable (t : WrittenParameter)

theorem apart (dot : '.' ∈ behindName t.type.toList) : (genericMatch (trimmed t.type.toList)).isSome = true := by
  obtain ⟨⟨text,_⟩,⟨qualifier,name,typeArguments,dimensions⟩,worded,spelled,whole⟩ := t
  dsimp only at dot ⊢
  obtain ⟨flat,lines⟩ := whole dot
  obtain rfl : dimensions = 0 := flat
  obtain ⟨taken,dropped⟩ := TypeRef.takeWhile_name qualifier name (enclosed (typeArguments.map TypeRef.chars) ++ brackets 0)
  rw [← TypeRef.chars_mk,← spelled] at taken dropped
  rw [← bare_behindName] at dropped
  have seen : '.' ∈ bare (behindName text.toList) := List.mem_filter.mpr ⟨dot,by decide⟩
  cases typeArguments with
  | nil =>
    rw [dropped] at seen
    exact absurd seen List.not_mem_nil
  | cons a others =>
    generalize joinedAs : [','].intercalate ((a :: others).map TypeRef.chars) = joined at *
    have shape : bare (behindName text.toList) = '<' :: (joined ++ ['>']) := by
      rw [dropped,← joinedAs]
      simp [enclosed,brackets]
    have named : bare ((trimmed text.toList).takeWhile (· ≠ '<')) = (qualifiedName qualifier name).toList := by
      rw [bare_takeWhile (by decide),bare_trimmed,taken]
      simp [enclosed]
    have base : (trimmed text.toList).takeWhile (· ≠ '<') ≠ [] := fun empty => by
      rw [empty] at named
      exact TypeRef.qualifiedName_chars_ne_nil qualifier name named.symm
    have long : 3 ≤ (behindName text.toList).length := by
      have inside : '.' ∈ joined := by simpa [shape] using seen
      have positive := List.length_pos_of_mem inside
      have shorter : (bare (behindName text.toList)).length ≤ (behindName text.toList).length := List.length_filter_le ..
      rw [shape] at shorter
      simp only [List.length_cons,List.length_append,List.length_nil] at shorter
      omega
    have last : (behindName text.toList).getLast? = some '>' := by
      rw [← getLast?_bare (behindName_closed text.toList),shape]
      exact List.getLast?_concat (l := '<' :: joined)
    have unbroken : (((behindName text.toList).drop 1).dropLast.any isLineTerminator) = false := by
      rw [List.any_eq_false]
      intro c member
      have listed := List.mem_of_mem_drop (List.dropLast_subset _ member)
      simp [lines c listed]
    rw [genericMatch,if_pos ⟨base,long,last,unbroken⟩]
    rfl

theorem normalized : (normalizeTypeName t.type).toList = t.ref.simple.chars := by
  rw [normalizeTypeName_chars t.apart,t.spelled]
  exact t.ref.cut_chars

end WrittenParameter

/-- `text` is written for `written` with blanks added. -/
def Spaced (text : String) (written : List Char) : Prop :=
  bare text.toList = written ∧ ∀ c ∈ text.toList, c = ' ' ∨ isWhiteSpace c = false

theorem Spaced.append {text text' : String} {written written' : List Char} (spaced : Spaced text written)
    (spaced' : Spaced text' written') : Spaced (text ++ text') (written ++ written') := by
  refine ⟨by rw [String.toList_append,bare_append,spaced.1,spaced'.1],fun c member => ?_⟩
  rw [String.toList_append] at member
  exact (List.mem_append.mp member).elim (spaced.2 c) (spaced'.2 c)

theorem Spaced.of_bare (text : String) (visible : bare text.toList = text.toList) : Spaced text text.toList := by
  refine ⟨visible,fun c member => .inr ?_⟩
  simpa using List.filter_eq_self.mp visible c member

theorem Spaced.of_visible {text : String} (visible : ∀ c ∈ text.toList, isWhiteSpace c = false) :
    Spaced text text.toList :=
  .of_bare text (List.filter_eq_self.mpr fun c member => by rw [visible c member]; rfl)

theorem spaced_comma : Spaced ", " [','] := ⟨by decide,fun c member => by
  obtain rfl | rfl : c = ',' ∨ c = ' ' := by simpa using member
  · exact .inr (by decide)
  · exact .inl rfl⟩

theorem spaced_joinTypes {isPrimitiveType : String → Bool} {ts : List TypeRef}
    (each : ∀ t ∈ ts, Spaced (createTypeInfoFromTypeRef isPrimitiveType t).originalTypeString t.chars) :
    Spaced (joinTypes (createTypeInfos isPrimitiveType ts)) ([','].intercalate (ts.map TypeRef.chars)) := by
  rw [createTypeInfos_eq,joinTypes,List.map_map]
  induction ts with
  | nil => exact .of_bare "" (by decide)
  | cons t ts ih =>
    cases ts with
    | nil => simpa using each t (.head _)
    | cons u us =>
      have written : [','].intercalate ((t :: u :: us).map TypeRef.chars) =
          t.chars ++ [','] ++ [','].intercalate ((u :: us).map TypeRef.chars) := by
        rw [List.map_cons,List.intercalate_cons_of_ne_nil (by simp)]
      rw [List.map_cons,String.intercalate_cons_of_ne_nil (by simp),written]
      exact ((each t (.head _)).append spaced_comma).append (ih fun v member => each v (.tail _ member))

inductive TypeRef.Fits : TypeRef → Prop where
  | mk {qualifier : List Identifier} {name : Identifier} {typeArguments : List TypeRef} {dimensions : Nat}
    (two : qualifier = [] → name.text = "Map" → typeArguments.length ≤ 2) (arguments : ∀ t ∈ typeArguments, Fits t) :
    Fits (.mk qualifier name typeArguments dimensions)

theorem spaced_arrays (t : TypeInfo) {written : List Char} (spaced : Spaced t.originalTypeString written) (dimensions : Nat) :
    Spaced (createArrayTypeInfo^[dimensions] t).originalTypeString (written ++ brackets dimensions) := by
  induction dimensions generalizing t written with
  | zero => simpa [brackets] using spaced
  | succ n ih =>
    have once : Spaced (createArrayTypeInfo t).originalTypeString (written ++ ['[',']']) :=
      spaced.append (.of_bare "[]" (by decide))
    have more := ih (createArrayTypeInfo t) once
    rw [List.append_assoc] at more
    exact more

theorem spaced_qualifiedName {qualifier : List Identifier} {name : Identifier} (words : ∀ i ∈ qualifier ++ [name], i.IsWord) :
    Spaced (qualifiedName qualifier name) (qualifiedName qualifier name).toList := by
  induction qualifier with
  | nil => exact .of_visible fun c member => (words name (by simp) c member).2
  | cons outer qualifier ih =>
    have first : Spaced outer.text outer.text.toList := .of_visible fun c member => (words outer (by simp) c member).2
    rw [qualifiedName_cons,String.toList_append,String.toList_append]
    exact (first.append (.of_bare "." (by decide))).append (ih fun i member => words i (.tail _ member))

theorem spaced_originalTypeString (isPrimitiveType : String → Bool) {t : TypeRef} (words : t.Worded) (fits : t.Fits) :
    Spaced (createTypeInfoFromTypeRef isPrimitiveType t).originalTypeString t.chars := by
  induction words with
  | @mk qualifier name typeArguments dimensions names _ ih =>
    obtain ⟨two,arguments⟩ := fits
    have named := spaced_qualifiedName names
    have joined := spaced_joinTypes fun t member => ih t member (arguments t member)
    rw [createTypeInfoFromTypeRef,TypeRef.chars_mk,← List.append_assoc]
    have given (some_ : typeArguments ≠ []) : Spaced (qualifiedName qualifier name ++ "<" ++
        joinTypes (createTypeInfos isPrimitiveType typeArguments) ++ ">")
        ((qualifiedName qualifier name).toList ++ enclosed (typeArguments.map TypeRef.chars)) := by
      obtain ⟨u,us,rfl⟩ := List.exists_cons_of_ne_nil some_
      have opened := named.append (.of_bare "<" (by decide))
      have closed := (opened.append joined).append (.of_bare ">" (by decide))
      simpa [enclosed] using closed
    refine spaced_arrays _ ?_ dimensions
    cases pair : mapArguments qualifier name (createTypeInfos isPrimitiveType typeArguments) with
    | some p =>
      obtain ⟨keyType,valueType⟩ := p
      obtain ⟨rfl,isMap,rest,both⟩ := mapArguments_eq_some pair
      rw [createTypeInfos_eq] at both
      obtain ⟨u,others,rfl,rfl,behind⟩ := List.map_eq_cons_iff.mp both
      obtain ⟨v,more,rfl,rfl,_⟩ := List.map_eq_cons_iff.mp behind
      have few := two rfl isMap
      obtain rfl : more = [] := List.eq_nil_of_length_eq_zero (by simp only [List.length_cons] at few; omega)
      have text : (typeInfoOf isPrimitiveType [] name (createTypeInfos isPrimitiveType [u,v])).originalTypeString =
          qualifiedName [] name ++ "<" ++ joinTypes (createTypeInfos isPrimitiveType [u,v]) ++ ">" := by
        rw [typeInfoOf,pair,qualifiedName_nil,isMap]
        simp [createMapTypeInfo,mapTypeString,joinTypes,createTypeInfos,TypeInfo.originalTypeString,String.append_assoc]
      rw [text]
      exact given (List.cons_ne_nil _ _)
    | none =>
      by_cases empty : typeArguments = []
      · obtain ⟨_,_,leaf⟩ := createTypeInfo_leaf isPrimitiveType qualifier name
        rw [empty,createTypeInfos,typeInfoOf_nil,leaf]
        simpa [enclosed,TypeInfo.originalTypeString] using named
      · have some_ : createTypeInfos isPrimitiveType typeArguments ≠ [] := by simpa [createTypeInfos_eq] using empty
        obtain ⟨_,_,record⟩ := typeInfoOf_arguments isPrimitiveType qualifier name _ some_ pair
        rw [record]
        exact given empty

def extractParameterInfo (isPrimitiveType : String → Bool) (typeRef : TypeRef) (name : String) : ParameterInfo :=
  ⟨(createTypeInfoFromTypeRef isPrimitiveType typeRef).originalTypeString,some name⟩

theorem mem_of_mem_behindName {c : Char} {text : List Char} (member : c ∈ behindName text) : c ∈ text := by
  have inner : c ∈ trimmed text := (List.dropWhile_sublist _).subset member
  rw [trimmed,List.mem_reverse] at inner
  have kept := (List.dropWhile_sublist _).subset inner
  rw [List.mem_reverse] at kept
  exact (List.dropWhile_sublist _).subset kept

/-- `Iterable<Lead>[]` -/
def leads : TypeRef := .mk [] ⟨"Iterable",by decide,by decide⟩ [.mk [] ⟨"Lead",by decide,by decide⟩ [] 0] 1

def infos (ts : List WrittenParameter) : List ParameterInfo := ts.map WrittenParameter.toParameterInfo

def simpleTypes (ts : List WrittenParameter) : List TypeRef := ts.map fun t => t.ref.simple

theorem normalizeSignature_chars (ts : List WrittenParameter) : (normalizeSignature (infos ts)).toList =
    '(' :: ([','].intercalate ((simpleTypes ts).map TypeRef.chars) ++ [')']) := by
  have types : ((infos ts).map fun p => normalizeTypeName p.type).map String.toList = (simpleTypes ts).map TypeRef.chars := by
    rw [infos,simpleTypes,List.map_map,List.map_map,List.map_map]
    exact List.map_congr_left fun t _ => t.normalized
  rw [normalizeSignature,String.toList_append,String.toList_append,String.toList_intercalate,types]
  rfl

def signatureChars (parameters : List ParameterInfo) : List Char :=
  if parameters = [] then [] else '#' :: (normalizeSignature parameters).toList

theorem signatureChars_nil : signatureChars (infos []) = [] := rfl

theorem signatureChars_cons (t : WrittenParameter) (ts : List WrittenParameter) : signatureChars (infos (t :: ts)) =
    '#' :: '(' :: ([','].intercalate ((simpleTypes (t :: ts)).map TypeRef.chars) ++ [')']) := by
  rw [signatureChars,if_neg (by simp [infos]),normalizeSignature_chars]

theorem signatureChars_inj (ts us : List WrittenParameter) :
    signatureChars (infos ts) = signatureChars (infos us) ↔ simpleTypes ts = simpleTypes us := by
  constructor
  · intro same
    cases ts with
    | nil =>
      cases us with
      | nil => rfl
      | cons u us =>
        rw [signatureChars_nil,signatureChars_cons] at same
        cases same
    | cons t ts =>
      cases us with
      | nil =>
        rw [signatureChars_nil,signatureChars_cons] at same
        cases same
      | cons u us =>
        rw [signatureChars_cons,signatureChars_cons] at same
        have worded {vs : List WrittenParameter} : ∀ r ∈ simpleTypes vs, r.Worded := by
          intro r member
          obtain ⟨v,_,rfl⟩ := List.mem_map.mp member
          exact v.worded.simple
        have some_ : simpleTypes (t :: ts) ≠ [] := List.cons_ne_nil _ _
        have joined := TypeRef.legible_joined (.inr rfl) some_ fun r member => (worded r member).legible
        exact (joined (simpleTypes (u :: us)) ⟨by simp [simpleTypes],worded⟩ [')'] [')'] (by simp) (by simp)
          (by simpa using same)).1
  · intro same
    cases ts with
    | nil =>
      cases us with
      | nil => rfl
      | cons u us => simp [simpleTypes] at same
    | cons t ts =>
      cases us with
      | nil => simp [simpleTypes] at same
      | cons u us => rw [signatureChars_cons,signatureChars_cons,same]

section

variable [Runtime]

def idLead (fileUri : String) (scopePath : List String) (namespace_ : String) : List Char :=
  (convertToUri fileUri).toList ++ '#' :: (if scopePath = [] then if namespace_ = "" then [] else namespace_.toList ++ ['.']
    else scopePath.flatMap fun scope => scope.toList ++ ['.'])

omit [Runtime] in
theorem dotted_chars (scopePath : List String) (name : String) :
    ['.'].intercalate (scopePath.map String.toList ++ [name.toList]) =
      (scopePath.flatMap fun scope => scope.toList ++ ['.']) ++ name.toList := by
  induction scopePath with
  | nil => simp
  | cons scope scopePath ih =>
    rw [List.map_cons,List.cons_append,List.intercalate_cons_of_ne_nil (by simp),ih]
    simp

theorem generateSymbolId_lead (name fileUri : String) (scopePath : List String) (kindPrefix : String)
    (parameters : List ParameterInfo) (namespace_ : String) :
    (generateSymbolId name fileUri scopePath kindPrefix parameters namespace_).toList =
      idLead fileUri scopePath namespace_ ++ (name.toList ++ (signatureChars parameters ++ disambiguatorChars kindPrefix)) := by
  have signature : (if parameters = [] then "" else "#" ++ normalizeSignature parameters).toList =
      signatureChars parameters := by
    unfold signatureChars
    split
    next => rfl
    next => rw [String.toList_append]; rfl
  have disambiguator : (if kindPrefix = "" then "" else "$" ++ kindPrefix).toList = disambiguatorChars kindPrefix := by
    unfold disambiguatorChars
    split
    next => rfl
    next => rw [String.toList_append]; rfl
  unfold generateSymbolId idLead
  simp only [String.toList_append,signature,disambiguator]
  by_cases nested : scopePath = []
  · by_cases global : namespace_ = ""
    · simp [nested,global]
    · simp [nested,global]
  · simp [nested,dotted_chars]

/-- The identifier that `createFullSymbolWithNamespace` gives a declaration. -/
def declaredId (kind : SymbolKind) (name fileUri : String) (scopePath : List String) (namespace_ : String)
    (parameters : List ParameterInfo) : String :=
  generateSymbolId name fileUri scopePath (if kind = .block || kind = .variable then kind.text else "") parameters namespace_

theorem createFullSymbolWithNamespace_id (name : String) (kind : SymbolKind) (location : SymbolLocation) (fileUri : String)
    (modifiers : SymbolModifiers) (parentId : ParentId) (parameters : List ParameterInfo)
    (annotations : Option (List Annotation)) (scopePath : List String) :
    (createFullSymbolWithNamespace name kind location fileUri modifiers parentId parameters annotations scopePath).id =
      declaredId kind name fileUri scopePath "" parameters := rfl

def callableKinds : List SymbolKind := [.method,.constructor]

def memberKinds : List SymbolKind := [.field,.property,.class_,.interface,.enum]

theorem declaredId_chars {kind : SymbolKind} (unmarked : kind ≠ .block ∧ kind ≠ .variable) (name fileUri : String)
    (scopePath : List String) (namespace_ : String) (parameters : List ParameterInfo) :
    (declaredId kind name fileUri scopePath namespace_ parameters).toList =
      idLead fileUri scopePath namespace_ ++ (name.toList ++ signatureChars parameters) := by
  rw [declaredId,generateSymbolId_lead]
  simp [unmarked,disambiguatorChars]

omit [Runtime] in
theorem callable_unmarked {kind : SymbolKind} (callable : kind ∈ callableKinds) : kind ≠ .block ∧ kind ≠ .variable := by
  revert kind
  decide

omit [Runtime] in
theorem member_unmarked {kind : SymbolKind} (member : kind ∈ memberKinds) : kind ≠ .block ∧ kind ≠ .variable := by
  revert kind
  decide

def TypeRef.withoutStandardNamespace : TypeRef → TypeRef
  | .mk (outer :: qualifier) name typeArguments dimensions =>
    if isStdApexNamespace outer.text then .mk qualifier name typeArguments dimensions
    else .mk (outer :: qualifier) name typeArguments dimensions
  | .mk [] name typeArguments dimensions => .mk [] name typeArguments dimensions

/-- The identifiers of methods and constructors of one name agree just where their parameter types do up to white space
and what qualifies the outermost name, and only without parameters is it the identifier of another member. -/
theorem declaredId_eq_iff (name fileUri : String) (scopePath : List String) (namespace_ : String) :
    (∀ kind ∈ callableKinds, ∀ kind' ∈ callableKinds, ∀ ts us : List WrittenParameter,
      declaredId kind name fileUri scopePath namespace_ (infos ts) =
        declaredId kind' name fileUri scopePath namespace_ (infos us) ↔ simpleTypes ts = simpleTypes us) ∧
    (∀ kind ∈ callableKinds, ∀ kind' ∈ memberKinds, ∀ (ts : List WrittenParameter) (member : String), '#' ∉ member.toList →
      (declaredId kind name fileUri scopePath namespace_ (infos ts) =
        declaredId kind' member fileUri scopePath namespace_ [] ↔ ts = [] ∧ name = member)) := by
  constructor
  · intro kind callable kind' callable' ts us
    rw [← String.toList_inj,declaredId_chars (callable_unmarked callable),declaredId_chars (callable_unmarked callable'),
      List.append_cancel_left_eq,List.append_cancel_left_eq]
    exact signatureChars_inj ts us
  · intro kind callable kind' other ts member plain
    rw [← String.toList_inj,declaredId_chars (callable_unmarked callable),declaredId_chars (member_unmarked other),
      List.append_cancel_left_eq]
    cases ts with
    | nil =>
      rw [show signatureChars [] = [] from rfl,show signatureChars (infos []) = [] from rfl,List.append_nil,List.append_nil,
        String.toList_inj]
      exact (and_iff_right rfl).symm
    | cons t ts =>
      refine iff_of_false (fun same => plain ?_) (fun none_ => List.cons_ne_nil t ts none_.1)
      rw [show signatureChars [] = [] from rfl,List.append_nil,signatureChars_cons] at same
      rw [← same]
      simp

end

def kindOfA : WrittenParameter where
  type := "A.Kind"
  ref := .mk [⟨"A",by decide,by decide⟩] ⟨"Kind",by decide,by decide⟩ [] 0
  worded := .mk (by decide) (fun _ member => absurd member List.not_mem_nil)
  spelled := by decide
  whole := fun dot => absurd dot (by decide)

def kindOfB : WrittenParameter where
  type := "B.Kind"
  ref := .mk [⟨"B",by decide,by decide⟩] ⟨"Kind",by decide,by decide⟩ [] 0
  worded := .mk (by decide) (fun _ member => absurd member List.not_mem_nil)
  spelled := by decide
  whole := fun dot => absurd dot (by decide)

theorem declaredId_eq_iff_kinds :
    (@declaredId asciiRuntime .method "m" "file:///Foo.cls" ["Foo"] "" (infos [kindOfA]) =
      @declaredId asciiRuntime .method "m" "file:///Foo.cls" ["Foo"] "" (infos []) ↔ simpleTypes [kindOfA] = simpleTypes []) ∧
    (@declaredId asciiRuntime .method "m" "file:///Foo.cls" ["Foo"] "" (infos [kindOfA]) =
      @declaredId asciiRuntime .field "x" "file:///Foo.cls" ["Foo"] "" [] ↔ [kindOfA] = [] ∧ "m" = "x") :=
  have told := @declaredId_eq_iff asciiRuntime "m" "file:///Foo.cls" ["Foo"] ""
  ⟨told.1 .method (by decide) .method (by decide) [kindOfA] [],
    told.2 .method (by decide) .field (by decide) [kindOfA] "x" (by decide)⟩

/-- Overloads on the inner types of two classes that share their simple name share an identifier. -/
theorem inner_kinds_collide : ¬ ∀ (name fileUri : String) (scopePath : List String) (namespace_ : String),
    ∀ kind ∈ callableKinds, ∀ kind' ∈ callableKinds, ∀ ts us : List WrittenParameter,
      @declaredId asciiRuntime kind name fileUri scopePath namespace_ (infos ts) =
        @declaredId asciiRuntime kind' name fileUri scopePath namespace_ (infos us) →
      ts.map (fun t => @TypeRef.withoutStandardNamespace asciiRuntime t.ref) =
        us.map (fun t => @TypeRef.withoutStandardNamespace asciiRuntime t.ref) := by
  intro separates
  have ids : @declaredId asciiRuntime .method "m" "file:///Foo.cls" ["Foo"] "" (infos [kindOfA]) =
      @declaredId asciiRuntime .method "m" "file:///Foo.cls" ["Foo"] "" (infos [kindOfB]) := by decide +kernel
  have same := separates "m" "file:///Foo.cls" ["Foo"] "" .method (by decide) .method (by decide) [kindOfA] [kindOfB] ids
  have foreign : @isStdApexNamespace asciiRuntime "A" = false ∧ @isStdApexNamespace asciiRuntime "B" = false := by
    decide +kernel
  simp [kindOfA,kindOfB,TypeRef.withoutStandardNamespace,foreign] at same

end ApexLs.Types
