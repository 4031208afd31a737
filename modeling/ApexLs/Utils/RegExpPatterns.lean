import Mathlib.Data.List.Nodup
import Mathlib.Order.Basic
import ApexLs.Utils.Text

/-! How `RegExp` reads a text as a pattern: its grammar without the flags `u` and `v`, with what the web adds to it and
without modifiers. The text is cut into tokens first, and the groups are put together from these. -/
namespace ApexLs.Utils.RegExp

/-- What the patterns take from the Unicode tables. -/
class LetterTables where
  toUppercase : CodeUnit → List CodeUnit
  isIdStart : Nat → Bool
  isIdContinue : Nat → Bool
  upper_ascii : ∀ c : CodeUnit, c.toNat < 128 → toUppercase c = [if 97 ≤ c.toNat ∧ c.toNat ≤ 122 then c - 32 else c]

def between (low high : Char) (c : CodeUnit) : Bool := unit low ≤ c && c ≤ unit high

def isDigit : CodeUnit → Bool := between '0' '9'

def isOctal : CodeUnit → Bool := between '0' '7'

def isLetter (c : CodeUnit) : Bool := between 'a' 'z' c || between 'A' 'Z' c

def isWordChar (c : CodeUnit) : Bool := isLetter c || isDigit c || c = unit '_'

def isLineTerminator (c : CodeUnit) : Bool := c ∈ [0x0a,0x0d,0x2028,0x2029]

def isSpace (c : CodeUnit) : Bool :=
  isLineTerminator c || (0x2000 ≤ c && c ≤ 0x200a) ||
    c ∈ [0x09,0x0b,0x0c,0x20,0xa0,0x1680,0x202f,0x205f,0x3000,0xfeff]

def digitValue (c : CodeUnit) : Option Nat :=
  if isDigit c then some (c - unit '0').toNat
  else if between 'a' 'f' c then some ((c - unit 'a').toNat + 10)
  else if between 'A' 'F' c then some ((c - unit 'A').toNat + 10)
  else none

def isHex (c : CodeUnit) : Bool := (digitValue c).isSome

def numeral (base : Nat) (digits : List CodeUnit) : Nat :=
  digits.foldl (fun n c => n * base + (digitValue c).getD 0) 0

/-- The sets that a letter after a backslash names, and the line terminators that `.` leaves out. -/
inductive Named where
  | digit | space | word | lineTerminator
  deriving DecidableEq, Repr

def Named.has : Named → CodeUnit → Bool
  | .digit => isDigit
  | .space => isSpace
  | .word => isWordChar
  | .lineTerminator => isLineTerminator

inductive CharSet where
  | range (low high : CodeUnit)
  | named (name : Named) (inverted : Bool)
  deriving DecidableEq, Repr

def CharSet.has : CharSet → CodeUnit → Bool
  | .range low high,c => low ≤ c && c ≤ high
  | .named name inverted,c => name.has c != inverted

inductive Opening where
  | capturing (name : Option (List Nat))
  | plain
  | look (ahead negated : Bool)
  deriving DecidableEq, Repr

def Opening.captures : Opening → Bool
  | .capturing _ => true
  | _ => false

inductive Token where
  | bar
  | opening (kind : Opening)
  | close
  | quantifier (min : Nat) (max : Option Nat) (greedy : Bool)
  | lineStart
  | lineEnd
  | boundary (inverted : Bool)
  | literal (c : CodeUnit)
  | set (inverted : Bool) (members : List CharSet)
  | reference (group : Nat)
  | namedReference (name : List Nat)
  deriving DecidableEq, Repr

def Token.dot : Token := .set false [.named .lineTerminator true]

def after (lead : List Char) (text : List CodeUnit) : Option (List CodeUnit) :=
  if (lead.map unit).isPrefixOf text then some (text.drop lead.length) else none

def readUntil (stop : CodeUnit) (item : List CodeUnit → Option (β × List CodeUnit)) :
    Nat → List CodeUnit → Option (List β × List CodeUnit)
  | _,[] => none
  | 0,_ => none
  | n + 1,c :: rest =>
    if c = stop then some ([],rest)
    else (item (c :: rest)).bind fun p => (readUntil stop item n p.2).map fun q => (p.1 :: q.1,q.2)

def readNumber (text : List CodeUnit) : Option (Nat × List CodeUnit) :=
  let digits := text.takeWhile isDigit
  if digits = [] then none else some (numeral 10 digits,text.drop digits.length)

def readHex (count : Nat) (text : List CodeUnit) : Option (Nat × List CodeUnit) :=
  let digits := text.take count
  if digits.length = count && digits.all isHex then some (numeral 16 digits,text.drop count) else none

/-- The rest of `{n}`, `{n,}` and `{n,m}`. -/
def readBounds (text : List CodeUnit) : Option ((Nat × Option Nat) × List CodeUnit) :=
  (readNumber text).bind fun low =>
    match after ['}'] low.2 with
    | some rest => some ((low.1,some low.1),rest)
    | none => (after [','] low.2).bind fun rest =>
      match after ['}'] rest with
      | some rest => some ((low.1,none),rest)
      | none => (readNumber rest).bind fun high => (after ['}'] high.2).map fun rest => ((low.1,some high.1),rest)

def quantifier (min : Nat) (max : Option Nat) (text : List CodeUnit) : Token × List CodeUnit :=
  match after ['?'] text with
  | some rest => (.quantifier min max false,rest)
  | none => (.quantifier min max true,text)

def isLead (n : Nat) : Bool := 0xd800 ≤ n && n ≤ 0xdbff

def isTrail (n : Nat) : Bool := 0xdc00 ≤ n && n ≤ 0xdfff

def codePoint (lead trail : Nat) : Nat := 0x10000 + (lead - 0xd800) * 0x400 + (trail - 0xdc00)

/-- What follows `\u` in the name of a group. -/
def readNameEscape (text : List CodeUnit) : Option (Nat × List CodeUnit) :=
  match after ['\x7b'] text with
  | some rest =>
    let digits := rest.takeWhile isHex
    if digits ≠ [] ∧ numeral 16 digits ≤ 0x10ffff then
      (after ['\x7d'] (rest.drop digits.length)).map fun rest => (numeral 16 digits,rest)
    else none
  | none => (readHex 4 text).map fun lead =>
    match ((after ['\\','u'] lead.2).bind (readHex 4)).filter fun trail => isLead lead.1 && isTrail trail.1 with
    | some trail => (codePoint lead.1 trail.1,trail.2)
    | none => lead

def joinSurrogates (c : CodeUnit) : List CodeUnit → Nat × List CodeUnit
  | [] => (c.toNat,[])
  | trail :: rest =>
    if isLead c.toNat && isTrail trail.toNat then (codePoint c.toNat trail.toNat,rest) else (c.toNat,trail :: rest)

def readNamePoint : List CodeUnit → Option (Nat × List CodeUnit)
  | [] => none
  | c :: rest => if c = unit '\\' then (after ['u'] rest).bind readNameEscape else some (joinSurrogates c rest)

/-- `\c` with what may follow it; else the backslash stands for itself. -/
def readControl (allowed : CodeUnit → Bool) : List CodeUnit → CodeUnit × List CodeUnit
  | [] => (unit '\\',[unit 'c'])
  | c :: rest => if allowed c then (c % 32,rest) else (unit '\\',unit 'c' :: c :: rest)

def readOctal (c : CodeUnit) (rest : List CodeUnit) : CodeUnit × List CodeUnit :=
  let more := (rest.take (if c ≤ unit '3' then 2 else 1)).takeWhile isOctal
  (UInt16.ofNat (numeral 8 (c :: more)),rest.drop more.length)

/-- What follows a backslash, where it stands for one letter. -/
def readCharacterEscape (named : Bool) : List CodeUnit → Option (CodeUnit × List CodeUnit)
  | [] => none
  | c :: rest =>
    if c = unit 'f' then some (0x0c,rest)
    else if c = unit 'n' then some (0x0a,rest)
    else if c = unit 'r' then some (0x0d,rest)
    else if c = unit 't' then some (0x09,rest)
    else if c = unit 'v' then some (0x0b,rest)
    else if isOctal c then some (readOctal c rest)
    else if c = unit 'x' then some (((readHex 2 rest).map fun p => (UInt16.ofNat p.1,p.2)).getD (c,rest))
    else if c = unit 'u' then some (((readHex 4 rest).map fun p => (UInt16.ofNat p.1,p.2)).getD (c,rest))
    else if c = unit 'k' ∧ named then none
    else some (c,rest)

def classEscape (c : CodeUnit) : Option CharSet :=
  if c = unit 'd' then some (.named .digit false)
  else if c = unit 'D' then some (.named .digit true)
  else if c = unit 's' then some (.named .space false)
  else if c = unit 'S' then some (.named .space true)
  else if c = unit 'w' then some (.named .word false)
  else if c = unit 'W' then some (.named .word true)
  else none

section

variable [LetterTables]

def isNameStart (point : Nat) : Bool := point = 0x24 || point = 0x5f || LetterTables.isIdStart point

def isNamePart (point : Nat) : Bool :=
  isNameStart point || LetterTables.isIdContinue point || point = 0x200c || point = 0x200d

def readGroupName (text : List CodeUnit) : Option (List Nat × List CodeUnit) :=
  (readUntil (unit '>') readNamePoint text.length text).filter fun p => p.1.head?.any isNameStart && p.1.all isNamePart

def readOpening (text : List CodeUnit) : Option (Opening × List CodeUnit) :=
  match after ['?'] text with
  | none => some (.capturing none,text)
  | some rest =>
    ((after [':'] rest).map (Opening.plain,·)).or <|
    ((after ['='] rest).map (Opening.look true false,·)).or <|
    ((after ['!'] rest).map (Opening.look true true,·)).or <|
    ((after ['<','='] rest).map (Opening.look false false,·)).or <|
    ((after ['<','!'] rest).map (Opening.look false true,·)).or <|
    ((after ['<'] rest).bind readGroupName).map fun p => (.capturing (some p.1),p.2)

/-- What follows a backslash outside of a class; `groups` is the number of groups of the whole pattern, and `named` says
that one of them has a name. -/
def readAtomEscape (named : Bool) (groups : Nat) : List CodeUnit → Option (Token × List CodeUnit)
  | [] => none
  | c :: rest =>
    let digits := (c :: rest).takeWhile isDigit
    if c = unit 'b' then some (.boundary false,rest)
    else if c = unit 'B' then some (.boundary true,rest)
    else if c = unit 'c' then
      let p := readControl isLetter rest
      some (.literal p.1,p.2)
    else if c = unit 'k' ∧ named then
      ((after ['<'] rest).bind readGroupName).map fun p => (.namedReference p.1,p.2)
    else if between '1' '9' c ∧ numeral 10 digits ≤ groups then
      some (.reference (numeral 10 digits),(c :: rest).drop digits.length)
    else match classEscape c with
      | some set => some (.set false [set],rest)
      | none => (readCharacterEscape named (c :: rest)).map fun p => (.literal p.1,p.2)

end

def single (c : CodeUnit) : CharSet := .range c c

def readClassEscape (named : Bool) : List CodeUnit → Option (CharSet × List CodeUnit)
  | [] => none
  | c :: rest =>
    if c = unit 'b' then some (single 0x08,rest)
    else if c = unit 'c' then
      let p := readControl isWordChar rest
      some (single p.1,p.2)
    else match classEscape c with
      | some set => some (set,rest)
      | none => (readCharacterEscape named (c :: rest)).map fun p => (single p.1,p.2)

def readClassAtom (named : Bool) : List CodeUnit → Option (CharSet × List CodeUnit)
  | [] => none
  | c :: rest => if c = unit '\\' then readClassEscape named rest else some (single c,rest)

def classRange : CharSet → CharSet → Option (List CharSet)
  | .range low _,.range high _ => if low ≤ high then some [.range low high] else none
  | first,last => some [first,single (unit '-'),last]

def readClassItem (named : Bool) (text : List CodeUnit) : Option (List CharSet × List CodeUnit) :=
  (readClassAtom named text).bind fun first =>
    match after ['-'] first.2 with
    | none => some ([first.1],first.2)
    | some rest =>
      if (after [']'] rest).isSome then some ([first.1],first.2)
      else (readClassAtom named rest).bind fun last => (classRange first.1 last.1).map (·,last.2)

def readClass (named : Bool) (text : List CodeUnit) : Option (Token × List CodeUnit) :=
  let inverted := (after ['^'] text).isSome
  let text := (after ['^'] text).getD text
  (readUntil (unit ']') (readClassItem named) text.length text).map fun p => (.set inverted p.1.flatten,p.2)

def sign (c : CodeUnit) : Option Token :=
  if c = unit '|' then some .bar
  else if c = unit ')' then some .close
  else if c = unit '^' then some .lineStart
  else if c = unit '$' then some .lineEnd
  else if c = unit '.' then some .dot
  else none

def repetition (c : CodeUnit) : Option (Nat × Option Nat) :=
  if c = unit '*' then some (0,none)
  else if c = unit '+' then some (1,none)
  else if c = unit '?' then some (0,some 1)
  else none

/-- A left brace that begins no bounds stands for itself. -/
def readBrace (rest : List CodeUnit) : Option (Token × List CodeUnit) :=
  match readBounds rest with
  | some p => if p.1.2.all (p.1.1 ≤ ·) then some (quantifier p.1.1 p.1.2 p.2) else none
  | none => some (.literal (unit '\x7b'),rest)

section

variable [LetterTables]

def readToken (named : Bool) (groups : Nat) : List CodeUnit → Option (Token × List CodeUnit)
  | [] => none
  | c :: rest =>
    match sign c,repetition c with
    | some token,_ => some (token,rest)
    | none,some bounds => some (quantifier bounds.1 bounds.2 rest)
    | none,none =>
      if c = unit '(' then (readOpening rest).map fun p => (.opening p.1,p.2)
      else if c = unit '\x7b' then readBrace rest
      else if c = unit '\\' then readAtomEscape named groups rest
      else if c = unit '[' then readClass named rest
      else some (.literal c,rest)

def readTokens (named : Bool) (groups : Nat) : Nat → List CodeUnit → Option (List Token)
  | _,[] => some []
  | 0,_ => none
  | n + 1,text => (readToken named groups text).bind fun p => (readTokens named groups n p.2).map (p.1 :: ·)

end

/-- A pattern. A repetition names the groups in it: those after the first `before`, as many as `inside`. -/
inductive Regex where
  | empty
  | literal (c : CodeUnit)
  | set (inverted : Bool) (members : List CharSet)
  | seq (first second : Regex)
  | alt (first second : Regex)
  | group (index : Nat) (body : Regex)
  | reference (index : Nat)
  | lineStart
  | lineEnd
  | boundary (inverted : Bool)
  | look (ahead negated : Bool) (body : Regex)
  | repeated (min : Nat) (max : Option Nat) (greedy : Bool) (before inside : Nat) (body : Regex)
  deriving DecidableEq, Repr

structure Term where
  node : Regex
  before : Nat
  quantifiable : Bool
  deriving DecidableEq, Repr

/-- A disjunction that is not at its end: the alternatives that are, and the terms of the last one, the latest first. -/
structure Level where
  alternatives : List Regex := []
  terms : List Term := []
  deriving DecidableEq, Repr

def Level.sequence (l : Level) : Regex := l.terms.foldl (fun rest t => .seq t.node rest) .empty

def Level.disjunction (l : Level) : Regex := l.alternatives.foldr .alt l.sequence

def Level.add (l : Level) (t : Term) : Level := { l with terms := t :: l.terms }

/-- The term that a parenthesis closes; after `(?<=` and `(?<!` no quantifier may follow. -/
def Opening.term (before : Nat) (body : Regex) : Opening → Term
  | .capturing _ => ⟨.group (before + 1) body,before,true⟩
  | .plain => ⟨body,before,true⟩
  | .look ahead negated => ⟨.look ahead negated body,before,ahead⟩

structure Progress where
  level : Level := {}
  enclosing : List (Opening × Nat × Level) := []
  groups : Nat := 0
  deriving DecidableEq, Repr

namespace Progress

def add (s : Progress) (quantifiable : Bool) (node : Regex) : Progress :=
  { s with level := s.level.add ⟨node,s.groups,quantifiable⟩ }

def quantify (s : Progress) (min : Nat) (max : Option Nat) (greedy : Bool) : Option Progress :=
  match s.level.terms with
  | [] => none
  | t :: terms =>
    if t.quantifiable then
      let node := Regex.repeated min max greedy t.before (s.groups - t.before) t.node
      some { s with level := { s.level with terms := ⟨node,t.before,false⟩ :: terms } }
    else none

def token (names : List (List Nat × Nat)) (s : Progress) : Token → Option Progress
  | .bar => some { s with level := ⟨s.level.alternatives ++ [s.level.sequence],[]⟩ }
  | .opening kind => some ⟨{},(kind,s.groups,s.level) :: s.enclosing,if kind.captures then s.groups + 1 else s.groups⟩
  | .close =>
    match s.enclosing with
    | [] => none
    | (kind,before,outer) :: enclosing => some { s with level := outer.add (kind.term before s.level.disjunction),enclosing }
  | .quantifier min max greedy => s.quantify min max greedy
  | .lineStart => some (s.add false .lineStart)
  | .lineEnd => some (s.add false .lineEnd)
  | .boundary inverted => some (s.add false (.boundary inverted))
  | .literal c => some (s.add true (.literal c))
  | .set inverted members => some (s.add true (.set inverted members))
  | .reference group => some (s.add true (.reference group))
  | .namedReference name => (names.find? (·.1 = name)).map fun p => s.add true (.reference p.2)

end Progress

def openings (tokens : List Token) : List Opening := tokens.filterMap fun
  | .opening kind => some kind
  | _ => none

def groupNames (tokens : List Token) : List (List Nat × Nat) :=
  (((openings tokens).filter Opening.captures).zipIdx 1).filterMap fun
    | (.capturing (some name),index) => some (name,index)
    | _ => none

/-- `none` is the thrown `SyntaxError`. The groups are counted, and their names looked for, before the tokens are read for
good. -/
def parsePattern [LetterTables] (text : List CodeUnit) : Option Regex :=
  (readTokens false 0 text.length text).bind fun first =>
    let groups := ((openings first).filter Opening.captures).length
    (readTokens (groupNames first ≠ []) groups text.length text).bind fun tokens =>
      if ((groupNames tokens).map Prod.fst).Nodup then
        (tokens.foldlM (Progress.token (groupNames tokens)) {}).bind fun s =>
          if s.enclosing = [] then some s.level.disjunction else none
      else none

/-- The letters that a pattern does not take as they stand; a dot stands for itself among others. -/
def metacharacters : List CodeUnit := ['\\','^','$','*','+','?','(',')','[','\x7b','|'].map unit

def Plain (text : List CodeUnit) : Prop := ∀ c ∈ text, c ∉ metacharacters

def plainToken (c : CodeUnit) : Token := if c = unit '.' then .dot else .literal c

def plainNode (c : CodeUnit) : Regex := if c = unit '.' then .set false [.named .lineTerminator true] else .literal c

section

variable [LetterTables]

theorem readToken_plain (plain : c ∉ metacharacters) (named : Bool) (groups : Nat) (rest : List CodeUnit) :
    readToken named groups (c :: rest) = some (plainToken c,rest) := by
  simp only [metacharacters,List.map_cons,List.map_nil,List.mem_cons,List.not_mem_nil,or_false,not_or] at plain
  obtain ⟨backslash,caret,dollar,star,plus,mark,left,right,bracket,brace,bar⟩ := plain
  by_cases dot : c = unit '.'
  · subst dot
    rfl
  · simp [readToken,sign,repetition,plainToken,backslash,caret,dollar,star,plus,mark,left,right,bracket,brace,bar,dot]

theorem readTokens_plain {text : List CodeUnit} (plain : Plain text) (named : Bool) (groups : Nat) (enough : text.length ≤ n) :
    readTokens named groups n text = some (text.map plainToken) := by
  induction text generalizing n with
  | nil => rw [readTokens]; rfl
  | cons c text ih =>
    obtain ⟨n,rfl⟩ : ∃ m : Nat, n = m + 1 := ⟨n - 1,by have : text.length + 1 ≤ n := enough; omega⟩
    rw [readTokens,readToken_plain (plain c List.mem_cons_self),Option.bind_some,
      ih (fun d member => plain d (List.mem_cons_of_mem c member)) (Nat.le_of_succ_le_succ enough)]
    · rfl
    · exact List.cons_ne_nil _ _

end

theorem openings_plain (text : List CodeUnit) : openings (text.map plainToken) = [] := by
  refine List.filterMap_eq_nil_iff.mpr fun t member => ?_
  obtain ⟨c,-,rfl⟩ := List.mem_map.mp member
  by_cases dot : c = unit '.'
  · rw [plainToken,if_pos dot]
    rfl
  · rw [plainToken,if_neg dot]

theorem token_plain (names : List (List Nat × Nat)) (s : Progress) (c : CodeUnit) :
    s.token names (plainToken c) = some (s.add true (plainNode c)) := by
  by_cases dot : c = unit '.'
  · rw [plainToken,plainNode,if_pos dot,if_pos dot]
    rfl
  · rw [plainToken,plainNode,if_neg dot,if_neg dot]
    rfl

theorem tokens_plain (names : List (List Nat × Nat)) (text : List CodeUnit) (s : Progress) :
    (text.map plainToken).foldlM (Progress.token names) s =
      some ((text.map plainNode).foldl (fun s node => s.add true node) s) := by
  induction text generalizing s with
  | nil => rfl
  | cons c text ih =>
    rw [List.map_cons,List.foldlM_cons,token_plain]
    exact ih _

theorem added (nodes : List Regex) (s : Progress) (rest : Regex) :
    (nodes.foldl (fun s node => s.add true node) s).level.terms.foldl (fun rest t => .seq t.node rest) rest =
        s.level.terms.foldl (fun rest t => .seq t.node rest) (nodes.foldr .seq rest) ∧
      (nodes.foldl (fun s node => s.add true node) s).level.alternatives = s.level.alternatives ∧
      (nodes.foldl (fun s node => s.add true node) s).enclosing = s.enclosing := by
  induction nodes generalizing s with
  | nil => exact ⟨rfl,rfl,rfl⟩
  | cons node nodes ih => exact ih (s.add true node)

theorem parsePattern_plain [LetterTables] {text : List CodeUnit} (plain : Plain text) :
    parsePattern text = some ((text.map plainNode).foldr .seq .empty) := by
  have named : groupNames (text.map plainToken) = [] := by rw [groupNames,openings_plain]; rfl
  obtain ⟨terms,alternatives,enclosing⟩ := added (text.map plainNode) {} .empty
  rw [parsePattern,readTokens_plain plain _ _ (Nat.le_refl _),Option.bind_some]
  dsimp only
  rw [readTokens_plain plain _ _ (Nat.le_refl _),Option.bind_some,named,List.map_nil,if_pos List.nodup_nil,tokens_plain,
    Option.bind_some,if_pos enclosing,Level.disjunction,alternatives,Level.sequence,terms]
  rfl

end ApexLs.Utils.RegExp
