import Mathlib.Data.List.Find
import ApexLs.Types.UriBasedIdGenerator

/-! The file an identifier names. A file's URI has no hash, and what follows the first hash of
an identifier does not change where its URI ends. -/
namespace ApexLs.Types

theorem isPrefixOf_before {needle : List Char} (free : c ∉ needle) (l rest : List Char) :
    needle.isPrefixOf (l ++ c :: rest) = needle.isPrefixOf l := by
  induction needle generalizing l with
  | nil => simp
  | cons n needle ih =>
    simp only [List.mem_cons,not_or] at free
    cases l with
    | nil => simp [List.isPrefixOf,Ne.symm free.1]
    | cons x l => simp [List.isPrefixOf,ih free.2]

theorem breakOn_parts {needle : List Char} (found : breakOn needle l = some p) : p.1 ++ needle ++ p.2 = l := by
  induction l generalizing p with
  | nil =>
    simp only [breakOn] at found
    split at found
    next empty =>
      obtain rfl := Option.some.inj found
      simp [empty]
    next => simp at found
  | cons c rest ih =>
    simp only [breakOn] at found
    split at found
    next here =>
      obtain rfl := Option.some.inj found
      simpa using List.prefix_iff_eq_append.mp (List.isPrefixOf_iff_prefix.mp here)
    next =>
      obtain ⟨q,later,rfl⟩ := Option.map_eq_some_iff.mp found
      simpa using ih later

theorem breakOn_before {needle : List Char} (free : c ∉ needle) (found : breakOn needle l = some p) (rest : List Char) :
    breakOn needle (l ++ c :: rest) = some (p.1,p.2 ++ c :: rest) := by
  induction l generalizing p with
  | nil =>
    simp only [breakOn] at found
    split at found
    next empty =>
      obtain rfl := Option.some.inj found
      simp [breakOn,empty]
    next => simp at found
  | cons x l ih =>
    rw [List.cons_append,breakOn,← List.cons_append,isPrefixOf_before free]
    simp only [breakOn] at found
    split at found
    next here =>
      obtain rfl := Option.some.inj found
      have long : needle.length ≤ (x :: l).length := (List.isPrefixOf_iff_prefix.mp here).length_le
      simp only [here,if_true,List.drop_append_of_le_length long]
    next apart =>
      obtain ⟨q,later,rfl⟩ := Option.map_eq_some_iff.mp found
      simp [apart,ih later]

theorem breakOn_behind {needle : List Char} (free : c ∉ needle) (absent : breakOn needle l = none) (rest : List Char) :
    breakOn needle (l ++ c :: rest) = (breakOn needle rest).map fun p => (l ++ c :: p.1,p.2) := by
  induction l with
  | nil =>
    have apart := isPrefixOf_before free [] rest
    cases needle with
    | nil => simp [breakOn] at absent
    | cons n needle =>
      rw [List.nil_append] at apart ⊢
      simp [breakOn,apart]
  | cons x l ih =>
    rw [List.cons_append,breakOn,← List.cons_append,isPrefixOf_before free]
    simp only [breakOn] at absent
    split at absent
    next => cases absent
    next apart => simp [apart,ih (Option.map_eq_none_iff.mp absent),Option.map_map,Function.comp_def]

theorem breakOn_hash (l : List Char) (rest : List Char) (free : '#' ∉ l) : breakOn ['#'] (l ++ '#' :: rest) = some (l,rest) := by
  induction l with
  | nil => simp [breakOn]
  | cons x l ih =>
    simp only [List.mem_cons,not_or] at free
    have apart : ['#'].isPrefixOf (x :: (l ++ '#' :: rest)) = false := by simp [List.isPrefixOf,free.1]
    simp [breakOn,apart,ih free.2]

theorem breakOn_hash_none (none_ : breakOn ['#'] l = none) : '#' ∉ l := by
  intro member
  obtain ⟨a,b,rfl,free⟩ := List.eq_append_cons_of_mem member
  simp [breakOn_hash a b free] at none_

theorem breakAfterExtension_parts (found : breakAfterExtension l = some p) : p.1 ++ p.2 = l := by
  induction l generalizing p with
  | nil => simp [breakAfterExtension] at found
  | cons c rest ih =>
    simp only [breakAfterExtension] at found
    split at found
    next e hit =>
      obtain rfl := Option.some.inj found
      have begins : e.toList.isPrefixOf (c :: rest) = true := by
        simpa using List.find?_some hit
      exact List.prefix_iff_eq_append.mp (List.isPrefixOf_iff_prefix.mp begins)
    next =>
      obtain ⟨q,later,rfl⟩ := Option.map_eq_some_iff.mp found
      simpa using ih later

theorem breakAfterExtension_none {l : List Char} (free : '.' ∉ l) : breakAfterExtension l = none := by
  induction l with
  | nil => rfl
  | cons c rest ih =>
    simp only [List.mem_cons,not_or] at free
    have noDot : fileExtensions.find? (fun e => e.toList.isPrefixOf (c :: rest)) = none := by
      simp [fileExtensions,free.1]
    simp [breakAfterExtension,noDot,ih free.2]

theorem breakAfterExtension_hash (l rest : List Char) : breakAfterExtension (l ++ '#' :: rest) =
    ((breakAfterExtension l).map fun p => (p.1,p.2 ++ '#' :: rest)).or
      ((breakAfterExtension rest).map fun p => (l ++ '#' :: p.1,p.2)) := by
  induction l with
  | nil =>
    have apart : fileExtensions.find? (fun e => e.toList.isPrefixOf ('#' :: rest)) = none := by simp [fileExtensions]
    simp only [List.nil_append,breakAfterExtension,apart,Option.map_none,Option.none_or]
  | cons c l ih =>
    have hit : fileExtensions.find? (fun e => e.toList.isPrefixOf (c :: (l ++ '#' :: rest))) =
        fileExtensions.find? (fun e => e.toList.isPrefixOf (c :: l)) := by
      apply List.find?_congr
      intro e member
      have plain : '#' ∉ e.toList := by
        simp only [fileExtensions,List.mem_cons,List.not_mem_nil,or_false] at member
        rcases member with rfl | rfl | rfl | rfl | rfl | rfl | rfl <;> decide
      exact isPrefixOf_before plain (c :: l) rest
    simp only [List.cons_append,breakAfterExtension,hit]
    split
    next e found =>
      have begins : e.toList.isPrefixOf (c :: l) = true := by
        simpa using List.find?_some found
      have long := (List.isPrefixOf_iff_prefix.mp begins).length_le
      change some (e.toList,((c :: l) ++ '#' :: rest).drop e.toList.length) = _
      rw [List.drop_append_of_le_length long]
      rfl
    next => simp [ih,Option.map_or,Option.map_map,Function.comp_def]

theorem breakAfterExtension_before (l rest : List Char) (free : '.' ∉ rest) :
    breakAfterExtension (l ++ '#' :: rest) = (breakAfterExtension l).map (fun p => (p.1,p.2 ++ '#' :: rest)) := by
  rw [breakAfterExtension_hash,breakAfterExtension_none free,Option.map_none,Option.or_none]

theorem hash_free_of_extract {uri : List Char} (same : extractChars uri = uri) : '#' ∉ uri := by
  have shorter : ∀ head rest cut, cutAtHash head rest = some cut → cut.length < head.length + rest.length := by
    intro head rest cut found
    obtain ⟨p,parts,rfl⟩ := Option.map_eq_some_iff.mp found
    have whole := congrArg List.length (breakOn_parts parts)
    simp at whole ⊢
    omega
  cases cut : cutAtHash [] uri with
  | none => exact breakOn_hash_none (by simpa [cutAtHash] using cut)
  | some q =>
    have answered : ∃ r, ((((breakAfterExtension uri).bind (fun p => cutAtHash p.1 p.2)).or
        ((breakOn "://".toList uri).bind (fun p => cutAtHash (p.1 ++ "://".toList) p.2))).or (cutAtHash [] uri)) = some r := by
      rw [cut]
      cases ((breakAfterExtension uri).bind (fun p => cutAtHash p.1 p.2)).or
        ((breakOn "://".toList uri).bind (fun p => cutAtHash (p.1 ++ "://".toList) p.2)) with
      | none => exact ⟨q,rfl⟩
      | some r => exact ⟨r,rfl⟩
    obtain ⟨r,found⟩ := answered
    have is : r = uri := by
      rw [extractChars,found] at same
      exact same
    subst is
    exfalso
    rcases Option.or_eq_some_iff.mp found with first | ⟨_,third⟩
    · rcases Option.or_eq_some_iff.mp first with byExtension | ⟨_,byScheme⟩
      · obtain ⟨p,parts,at_⟩ := Option.bind_eq_some_iff.mp byExtension
        have := shorter _ _ _ at_
        have whole := congrArg List.length (breakAfterExtension_parts parts)
        simp at whole
        omega
      · obtain ⟨p,parts,at_⟩ := Option.bind_eq_some_iff.mp byScheme
        have := shorter _ _ _ at_
        have whole := congrArg List.length (breakOn_parts parts)
        simp at whole this
        omega
    · have := shorter _ _ _ third
      simp at this

theorem extractChars_hash {uri rest : List Char} (free : '#' ∉ uri) (plain : '.' ∉ rest)
    (scheme : breakOn "://".toList uri = some q) : extractChars (uri ++ '#' :: rest) = uri := by
  have cut : ∀ head tail : List Char, head ++ tail = uri → cutAtHash head (tail ++ '#' :: rest) = some uri := by
    rintro head tail rfl
    have tailFree : '#' ∉ tail := fun member => free (List.mem_append_right _ member)
    simp [cutAtHash,breakOn_hash _ _ tailFree]
  have byScheme := breakOn_before (c := '#') (by decide) scheme rest
  simp only [extractChars,breakAfterExtension_before uri rest plain,byScheme]
  cases found : breakAfterExtension uri with
  | some p => simp [cut _ _ (breakAfterExtension_parts found)]
  | none =>
    have parts := breakOn_parts scheme
    simp only [Option.map_none,Option.bind_none,Option.none_or,Option.bind_some]
    rw [cut (q.1 ++ "://".toList) q.2 parts]
    rfl

theorem extractFilePathFromUri_plain {uri : String} (free : '#' ∉ uri.toList) : extractFilePathFromUri uri = uri := by
  have uncut : ∀ head rest : List Char, '#' ∉ rest → cutAtHash head rest = none := by
    intro head rest plain
    cases found : breakOn ['#'] rest with
    | none => simp [cutAtHash,found]
    | some p =>
      have parts := breakOn_parts found
      exact absurd (by simp [← parts]) plain
  have byExtension : (breakAfterExtension uri.toList).bind (fun p => cutAtHash p.1 p.2) = none := by
    rw [Option.bind_eq_none_iff]
    intro p found
    apply uncut
    intro member
    exact free (breakAfterExtension_parts found ▸ List.mem_append_right _ member)
  have byScheme : (breakOn "://".toList uri.toList).bind (fun p => cutAtHash (p.1 ++ "://".toList) p.2) = none := by
    rw [Option.bind_eq_none_iff]
    intro p found
    apply uncut
    intro member
    exact free (breakOn_parts found ▸ List.mem_append_right _ member)
  rw [extractFilePathFromUri,extractChars,byExtension,byScheme,uncut [] _ free]
  exact String.ofList_toList

theorem createFileUri_plain {uri : String} (free : '#' ∉ uri.toList) : '#' ∉ (createFileUri uri).toList := by
  unfold createFileUri
  split
  next => exact free
  next => simpa using free

theorem createFileUri_again (uri : String) : createFileUri (createFileUri uri) = createFileUri uri := by
  have scheme : hasUriScheme (createFileUri uri) = true := by
    unfold createFileUri
    split
    next given => exact given
    next => simp [hasUriScheme,includes,breakOn]
  rw [createFileUri,if_pos scheme]

end ApexLs.Types
