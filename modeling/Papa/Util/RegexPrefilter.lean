import Papa.Util.Text

/-!
# The literal prefilter of regular expressions

`requiredLiteral` scans the text of a pattern for the longest run of bytes that every match must
contain, and `containsLiteral` tests a subject for it. An index into the pattern is the rest of
the pattern from that index on, and `none` stands for `kNone` and `nullopt`. The scans that skip
over a nested class take the number of bytes left as fuel, since each step consumes one byte.

## Main definitions

* `Papa.Util.classEnd`, `Papa.Util.skipBracketed`, `Papa.Util.parseQuantifier`.
* `Papa.Util.requiredLiteral`, `Papa.Util.containsLiteral`.
-/

namespace Papa.Util

/-- The bytes of a brace quantifier. -/
def kBraceChars : Str := str "0123456789,"

def isDigit (c : UInt8) : Bool := ch '0' ≤ c && c ≤ ch '9'

def isAlnum (c : UInt8) : Bool :=
  isDigit c || (ch 'a' ≤ c && c ≤ ch 'z') || (ch 'A' ≤ c && c ≤ ch 'Z')

/-- Lower an ASCII letter. -/
def fold (c : UInt8) : UInt8 :=
  if ch 'A' ≤ c && c ≤ ch 'Z' then c - ch 'A' + ch 'a' else c

/-! ### Skipping classes and groups -/

/-- The loop of `classEnd`, on the rest of the class. -/
def classScan : Str → Option Str
  | [] => none
  | c :: rest =>
    if c == ch '\\' then
      match rest with
      | [] => none
      | _ :: rest' => classScan rest'
    else if c == ch '[' && (rest.head?.any fun d => (str ":.=").contains d) then none
    else if c == ch ']' then some rest
    else classScan rest

/-- What follows the class whose text after `[` is `s`. There is no answer when the class is empty,
never closes, or holds a `[:name:]`, `[.name.]` or `[=name=]` element whose inner `]` would end it
early. -/
def classEnd (s : Str) : Option Str :=
  let s := if s.head? == some (ch '^') then s.drop 1 else s
  if s.head? == some (ch ']') then none else classScan s

/-- The loop of `skipBracketed` inside `depth` open groups. -/
def groupScan : (fuel depth : ℕ) → Str → Option Str
  | 0, _, _ => none
  | _ + 1, _, [] => none
  | fuel + 1, depth, c :: rest =>
    if c == ch '\\' then groupScan fuel depth (rest.drop 1)
    else if c == ch '[' then
      match classEnd rest with
      | none => none
      | some rest' => groupScan fuel depth rest'
    else if c == ch '(' then groupScan fuel (depth + 1) rest
    else if c == ch ')' then
      if depth - 1 == 0 then some rest else groupScan fuel (depth - 1) rest
    else groupScan fuel depth rest

/-- What follows the group or class that opens at the head of `s`. -/
def skipBracketed (s : Str) : Option Str :=
  match s with
  | [] => none
  | c :: rest => if c == ch '[' then classEnd rest else groupScan s.length 0 s

/-! ### Quantifiers -/

/-- What follows a quantifier and whether it allows zero repeats. -/
structure Quantifier where
  rest : Str
  optional : Bool

/-- Consume the `?` of the lazy form. -/
def lazyForm (rest : Str) (optional : Bool) : Quantifier :=
  ⟨if rest.head? == some (ch '?') then rest.drop 1 else rest, optional⟩

/-- The quantifier at the head of `s`, if any; there is no answer for a malformed brace
quantifier. -/
def parseQuantifier (s : Str) : Option Quantifier :=
  match s with
  | [] => some ⟨s, false⟩
  | c :: rest =>
    if c == ch '*' || c == ch '?' then some (lazyForm rest true)
    else if c == ch '+' then some (lazyForm rest false)
    else if c == ch '{' then
      match Str.find rest (ch '}') with
      | none => none
      | some close =>
        let body := rest.take close
        let minLen := body.findIdx (· == ch ',')
        if minLen == 0 || body.any (fun d => !kBraceChars.contains d) then none
        else some (lazyForm (rest.drop (close + 1)) (minLen ≤ body.findIdx (· != ch '0')))
    else some ⟨s, false⟩

/-! ### The required literal -/

/-- The atom at the head of `c :: rest`: the byte it stands for when it is a literal, and what
follows it. There is no answer for constructs the scan does not model. -/
def scanAtom (c : UInt8) (rest : Str) : Option (Option UInt8 × Str) :=
  if c == ch '(' || c == ch '[' then (skipBracketed (c :: rest)).map fun next => (none, next)
  else if c == ch '\\' then
    match rest with
    | [] => none
    | e :: next =>
      if !isAlnum e then some (some e, next)
      else if (str "dDwWsSbB").contains e then some (none, next)
      else none
  else if (str "|)]\x7d*+?\x7b").contains c then none
  else if c != ch '.' && c != ch '^' && c != ch '$' then some (some c, rest)
  else some (none, rest)

/-- Keep the longer of the best run and the current one. -/
def flush (best run : Str) : Str := if best.length < run.length then run else best

/-- Printable ASCII. -/
def isPrintable (c : UInt8) : Bool := 0x20 ≤ c && c ≤ 0x7E

/-- The loop of `requiredLiteral`. -/
def literalLoop (icase : Bool) : (fuel : ℕ) → (pattern best run : Str) → Str
  | 0, _, best, run => flush best run
  | _ + 1, [], best, run => flush best run
  | fuel + 1, c :: rest, best, run =>
    match scanAtom c rest with
    | none => []
    | some (literal, next) =>
      match parseQuantifier next with
      | none => []
      | some q =>
        let printable := literal.any isPrintable
        let run :=
          if printable && !q.optional then
            run ++ literal.toList.map (if icase then fold else id)
          else run
        if !printable || q.rest != next then literalLoop icase fuel q.rest (flush best run) []
        else literalLoop icase fuel q.rest best run

/-- The longest literal every match of a pattern must contain, lowercased when `icase`, or empty
when no literal is provably required. -/
def requiredLiteral (pattern : Str) (icase : Bool) : Str :=
  literalLoop icase pattern.length pattern [] []

/-- The haystack contains the literal, folding ASCII case when `icase`. -/
def containsLiteral (haystack literal : Str) (icase : Bool) : Bool :=
  literal.isEmpty ||
    if !icase then (Str.findStr haystack literal).isSome
    else (Str.findStr (haystack.map fold) (literal.map fold)).isSome

end Papa.Util
