import ProvenanceTrail.Regex.Size
import ProvenanceTrail.Text.Blank
import ProvenanceTrail.Text.Word
import ProvenanceTrail.Json.Token
/-!
# The syntax of regular expressions

The parser walks once over the text of an expression, with a stack of the groups that are still open.
Each step reads at least one character, so that the length of the text bounds the steps.

Flags change how what follows them is read, up to the end of the innermost group: letters in any case
(`i`), line ends at `^` and `$` (`m`), a dot for every character (`s`), carriage returns as part of a
line end (`R`), and blanks and comments that are skipped (`x`). The flags `U` and `u` are accepted and
have no effect on what an expression matches, and neither has the `?` behind a repetition.

Not supported, and refused: look-around, back-references, classes named by properties, nested classes
and set operations, groups nested deeper than `Regex.nestLimit`, and automata beyond
`Regex.sizeLimit`.
-/

namespace ProvenanceTrail.Regex

/-- How the text that follows is read. -/
structure Flags where
  anyCase : Bool
  multiLine : Bool
  dotAll : Bool
  crlf : Bool
  skipBlanks : Bool
deriving DecidableEq, Repr

/-- The flags at the start of an expression: none is set. -/
def Flags.none : Flags := ⟨false, false, false, false, false⟩

/-- How deep groups, and expressions, may be nested. -/
def nestLimit : Nat := 50

/-- What follows a comment: the rest of the text after the end of the line. -/
def afterComment (cs : List Char) : List Char := (cs.dropWhile (· != '\n')).drop 1

/-- Skips blanks and comments, in at most `fuel` turns. -/
def skipBlanksUpTo : Nat → List Char → List Char
  | 0, cs => cs
  | fuel + 1, cs =>
    match Text.trimStart cs with
    | '#' :: rest => skipBlanksUpTo fuel (afterComment rest)
    | rest => rest

/-- Skips blanks and comments where the flags say so. -/
def skip (flags : Flags) (cs : List Char) : List Char :=
  if flags.skipBlanks then skipBlanksUpTo (cs.length + 1) cs else cs

/-- A character as an expression, in either case where the flags say so. -/
def ofChar (flags : Flags) (c : Char) : Regex :=
  if flags.anyCase then
    match CharSet.foldRange? (CharSet.single c) with
    | some r => .set (CharSet.canonical [CharSet.single c, r])
    | none => .char c
  else .char c

/-- What a dot stands for. -/
def dot (flags : Flags) : Regex :=
  if flags.dotAll then .set [(0, CharSet.last)]
  else if flags.crlf then .set (CharSet.complement [(0x0A, 0x0A), (0x0D, 0x0D)])
  else .set (CharSet.complement [(0x0A, 0x0A)])

/-- What `^` stands for. -/
def startAnchor (flags : Flags) : Regex :=
  .look (if flags.multiLine then (if flags.crlf then .crlfLineStart else .lineStart) else .start)

/-- What `$` stands for. -/
def endAnchor (flags : Flags) : Regex :=
  .look (if flags.multiLine then (if flags.crlf then .crlfLineEnd else .lineEnd) else .finish)

/-- The characters that have a meaning of their own somewhere in an expression. -/
def isMeta (c : Char) : Bool :=
  ['\\', '.', '+', '*', '?', '(', ')', '|', '[', ']', '{', '}', '^', '$', '#', '&', '-', '~'].contains c

/-- Whether a backslash makes a character stand for itself: any ASCII character but letters, digits
and the angle brackets. -/
def isEscapable (c : Char) : Bool :=
  isMeta c || (c.toNat < 0x80 && !c.isAlphanum && c != '<' && c != '>')

/-- The number written by hexadecimal digits. -/
def ofHexDigits? (ds : List Char) : Option Nat :=
  ds.foldlM (fun n c => (Text.hexValue? c).map (16 * n + ·)) 0

/-- The character with the code point written by hexadecimal digits. -/
def charOfHex? (ds : List Char) : Option Char := do
  let n ← ofHexDigits? ds
  if n < 0xD800 || (0xE000 ≤ n && n ≤ CharSet.last) then some (Char.ofNat n) else none

/-- Reads `count` hexadecimal digits, with what may be skipped between them. -/
def hexDigits? (flags : Flags) : Nat → List Char → Option (List Char × List Char)
  | 0, cs => some ([], cs)
  | _ + 1, [] => none
  | count + 1, c :: cs => do
    let _ ← Text.hexValue? c
    let (ds, rest) ← hexDigits? flags count (skip flags cs)
    pure (c :: ds, rest)

/-- Reads hexadecimal digits up to a closing brace, in at most `fuel` steps. -/
def hexBraced? (flags : Flags) : Nat → List Char → Option (List Char × List Char)
  | 0, _ => none
  | fuel + 1, cs =>
    match skip flags cs with
    | [] => none
    | '\x7d' :: rest => some ([], skip flags rest)
    | c :: rest => do
      let _ ← Text.hexValue? c
      let (ds, rest) ← hexBraced? flags fuel rest
      pure (c :: ds, rest)

/-- Reads a code point after `\x`, `\u` or `\U`: digits of a fixed number, or any number in braces. -/
def hexEscape? (flags : Flags) (count : Nat) (cs : List Char) : Option (Regex × List Char) := do
  match skip flags cs with
  | [] => none
  | '\x7b' :: rest =>
    let (ds, rest) ← hexBraced? flags (rest.length + 1) rest
    if ds.isEmpty then none
    else
      let c ← charOfHex? ds
      pure (ofChar flags c, rest)
  | cs =>
    let (ds, rest) ← hexDigits? flags count cs
    let c ← charOfHex? ds
    pure (ofChar flags c, rest)

/-- The assertions that have a name between braces after `\b`. -/
def namedBoundary? (name : List Char) : Option Look :=
  match String.ofList name with
  | "start" => some .wordStart
  | "end" => some .wordEnd
  | "start-half" => some .wordStartHalf
  | "end-half" => some .wordEndHalf
  | _ => none

/-- Whether a character may occur in the name of an assertion. -/
def isBoundaryChar (c : Char) : Bool := c.isAlpha || c == '-'

/-- Reads the name of an assertion up to the closing brace, in at most `fuel` steps. -/
def boundaryName? (flags : Flags) : Nat → List Char → Option (List Char × List Char)
  | 0, _ => none
  | fuel + 1, cs =>
    match cs with
    | '\x7d' :: rest => some ([], rest)
    | c :: rest =>
      if isBoundaryChar c then do
        let (name, rest) ← boundaryName? flags fuel (skip flags rest)
        pure (c :: name, rest)
      else none
    | [] => none

/-- Reads what follows `\b`: a name in braces, or nothing that belongs to it. A brace that opens with
no letter and no hyphen is left for a counted repetition. -/
def boundary? (flags : Flags) (cs : List Char) : Option (Regex × List Char) :=
  match cs with
  | '\x7b' :: rest =>
    match skip flags rest with
    | [] => none
    | c :: more =>
      if isBoundaryChar c then do
        let (name, rest) ← boundaryName? flags (more.length + 2) (c :: more)
        let l ← namedBoundary? name
        pure (.look l, rest)
      else some (.look .wordBoundary, cs)
  | _ => some (.look .wordBoundary, cs)

/-- Reads what follows a backslash. -/
def escape? (flags : Flags) : List Char → Option (Regex × List Char)
  | [] => none
  | c :: cs =>
    if c == 'x' then hexEscape? flags 2 cs
    else if c == 'u' then hexEscape? flags 4 cs
    else if c == 'U' then hexEscape? flags 8 cs
    else if isEscapable c then some (ofChar flags c, cs)
    else
      match c with
      | 'd' => some (.set CharSet.digit, cs)
      | 's' => some (.set CharSet.space, cs)
      | 'w' => some (.set CharSet.word, cs)
      | 'D' => some (.set (CharSet.complement CharSet.digit), cs)
      | 'S' => some (.set (CharSet.complement CharSet.space), cs)
      | 'W' => some (.set (CharSet.complement CharSet.word), cs)
      | 'a' => some (ofChar flags '\x07', cs)
      | 'f' => some (ofChar flags '\x0c', cs)
      | 't' => some (ofChar flags '\t', cs)
      | 'n' => some (ofChar flags '\n', cs)
      | 'r' => some (ofChar flags '\r', cs)
      | 'v' => some (ofChar flags '\x0b', cs)
      | 'A' => some (.look .start, cs)
      | 'z' => some (.look .finish, cs)
      | 'b' => boundary? flags cs
      | 'B' => some (.look .noWordBoundary, cs)
      | '<' => some (.look .wordStart, cs)
      | '>' => some (.look .wordEnd, cs)
      | _ => none

/-- Reads a named class after `[`: a colon, an optional `^`, a name, and `:]`. -/
def namedClass? (cs : List Char) : Option (CharSet × List Char) :=
  match cs with
  | ':' :: rest =>
    let (negated, rest) := match rest with
      | '^' :: rest => (true, rest)
      | rest => (false, rest)
    match rest.dropWhile (· != ':') with
    | ':' :: ']' :: after =>
      (Text.meaning? CharSet.named (String.ofList (rest.takeWhile (· != ':')))).map fun s =>
        (if negated then s.complement else s, after)
    | _ => none
  | _ => none

/-- Reads one item of a class: a character, or an escape. -/
def classItem? (flags : Flags) : List Char → Option (Regex × List Char)
  | [] => none
  | '\\' :: cs => escape? flags cs
  | c :: cs => some (.char c, cs)

/-- The ranges of an item; assertions have none. -/
def itemRanges? : Regex → Option CharSet
  | .char c => some [CharSet.single c]
  | .set ranges => some ranges
  | _ => none

/-- The character of an item that is the end of a range. -/
def itemChar? : Regex → Option Char
  | .char c => some c
  | _ => none

/-- The character that decides whether a hyphen makes a range: the next one, or where blanks are
skipped the next that is neither blank nor the first `#`. -/
def afterHyphen? (flags : Flags) (rest : List Char) : Option Char :=
  if !flags.skipBlanks then rest.head?
  else
    match Text.trimStart rest with
    | [] => rest.head?
    | '#' :: comment => ((Text.trimStart comment).head?).or rest.head?
    | c :: _ => some c

/-- Reads an item of a class, or a range from one item to another. -/
def classRange? (flags : Flags) (cs : List Char) : Option (CharSet × List Char) := do
  let (first, rest) ← classItem? flags cs
  match skip flags rest with
  | [] => none
  | c :: rest =>
    let next := afterHyphen? flags rest
    if c != '-' || next == some ']' || next == some '-' then
      let ranges ← itemRanges? first
      pure (ranges, c :: rest)
    else
      let (second, rest) ← classItem? flags (skip flags rest)
      let low ← itemChar? first
      let high ← itemChar? second
      if high < low then none else pure ([(low.toNat, high.toNat)], rest)

/-- Whether a doubled character would be an operation on sets. -/
def isSetOperation (c : Char) : Bool := c == '&' || c == '-' || c == '~'

/-- Reads the items of a class up to the closing bracket, in at most `fuel` steps. -/
def classItems? (flags : Flags) : Nat → CharSet → List Char → Option (CharSet × List Char)
  | 0, _, _ => none
  | fuel + 1, ranges, cs =>
    match skip flags cs with
    | [] => none
    | '[' :: rest =>
      match namedClass? rest with
      | none => none
      | some (named, rest) => classItems? flags fuel (ranges ++ named) rest
    | ']' :: rest => some (ranges, rest)
    | c :: rest =>
      if isSetOperation c && rest.head? == some c then none
      else
        match classRange? flags (c :: rest) with
        | none => none
        | some (more, rest) => classItems? flags fuel (ranges ++ more) rest

/-- Splits off the hyphens at the front of a class. -/
def leadingHyphens (flags : Flags) : Nat → List Char → CharSet × List Char
  | 0, cs => ([], cs)
  | fuel + 1, cs =>
    match cs with
    | '-' :: rest =>
      let (more, rest) := leadingHyphens flags fuel (skip flags rest)
      (CharSet.single '-' :: more, rest)
    | _ => ([], cs)

/-- Reads a class after its opening bracket. Hyphens at the front, and a closing bracket right there,
stand for themselves. -/
def class? (flags : Flags) (cs : List Char) : Option (Regex × List Char) := do
  let cs := skip flags cs
  let (negated, cs) := match cs with
    | '^' :: rest => (true, skip flags rest)
    | cs => (false, cs)
  let (front, cs) := leadingHyphens flags cs.length cs
  let (front, cs) := match front, cs with
    | [], ']' :: rest => ([CharSet.single ']'], skip flags rest)
    | front, cs => (front, cs)
  let (ranges, rest) ← classItems? flags (cs.length + 1) front cs
  let ranges := CharSet.canonical ranges
  let ranges := if flags.anyCase then CharSet.fold ranges else ranges
  pure (.set (if negated then CharSet.complement ranges else ranges), rest)

/-- Reads decimal digits with what may be skipped behind each, in at most `fuel` steps. -/
def countDigits (flags : Flags) : Nat → List Char → List Char × List Char
  | 0, cs => ([], cs)
  | fuel + 1, cs =>
    match cs with
    | [] => ([], [])
    | c :: rest =>
      if c.isDigit then
        let (ds, rest) := countDigits flags fuel (skip flags rest)
        (c :: ds, rest)
      else ([], cs)

/-- Reads a count below 2^32 with blanks around it. -/
def count? (flags : Flags) (cs : List Char) : Option (Nat × List Char) :=
  let cs := Text.trimStart cs
  let (ds, rest) := countDigits flags cs.length cs
  let rest := skip flags (Text.trimStart rest)
  if ds.isEmpty then none
  else
    let n := Number.ofDigits ds
    if n < Nat.pow 2 32 then some (n, rest) else none

/-- What follows a repetition: a `?` right behind it belongs to it. -/
def afterRepetition : List Char → List Char
  | '?' :: rest => rest
  | rest => rest

/-- Reads a counted repetition after its opening brace: the least and the greatest count. Blanks may
be skipped between the closing brace and a `?`. -/
def counted? (flags : Flags) (cs : List Char) : Option (Nat × Option Nat × List Char) := do
  let (least, cs) ← count? flags (skip flags cs)
  match cs with
  | '\x7d' :: rest => pure (least, some least, afterRepetition (skip flags rest))
  | ',' :: rest =>
    match skip flags rest with
    | [] => none
    | '\x7d' :: rest => pure (least, none, afterRepetition (skip flags rest))
    | rest =>
      let (most, rest) ← count? flags rest
      match rest with
      | '\x7d' :: rest =>
        if most < least then none
        else pure (least, some most, afterRepetition (skip flags rest))
      | _ => none
  | _ => none

/-- The flags after the letter `c` has set or cleared one of them. -/
def setFlag? (flags : Flags) (value : Bool) (c : Char) : Option Flags :=
  match c with
  | 'i' => some { flags with anyCase := value }
  | 'm' => some { flags with multiLine := value }
  | 's' => some { flags with dotAll := value }
  | 'R' => some { flags with crlf := value }
  | 'x' => some { flags with skipBlanks := value }
  | 'U' => some flags
  | 'u' => some flags
  | _ => none

/-- Reads flags up to the colon or parenthesis that ends them: the flags, the character that ends them
and the rest. Each letter occurs once, and at least one follows a minus. -/
def flags? (flags : Flags) (negated : Bool) (seen : List Char) (last : Char) :
    List Char → Option (Flags × Char × List Char)
  | [] => none
  | c :: cs =>
    if c == ':' || c == ')' then if last == '-' then none else some (flags, c, cs)
    else if c == '-' then if negated then none else flags? flags true seen c cs
    else if seen.contains c then none
    else
      match setFlag? flags (!negated) c with
      | none => none
      | some changed => flags? changed negated (c :: seen) c cs

/-- Whether a character may stand in the name of a group. -/
def isGroupNameChar (first : Bool) (c : Char) : Bool :=
  if first then c == '_' || c.isAlpha
  else c == '_' || c == '.' || c == '[' || c == ']' || c.isAlphanum

/-- Reads the name of a group up to `>`. -/
def groupName? (cs : List Char) : Option (String × List Char) :=
  let name := cs.takeWhile (· != '>')
  match name, cs.dropWhile (· != '>') with
  | first :: more, '>' :: rest =>
    if isGroupNameChar true first && more.all (isGroupNameChar false) then
      some (String.ofList name, rest)
    else none
  | _, _ => none

/-- A group that is still open: what stands in front of it, the flags that hold again behind it, and
whether it is a numbered group. -/
structure OpenGroup where
  alternatives : List Regex
  items : List Regex
  flags : Flags
  numbered : Bool

/-- How far the parser has come: the groups that are open, innermost first; the finished alternatives
and the items of the current one, latest first; the flags, and the names of groups so far. -/
structure Progress where
  groups : List OpenGroup
  alternatives : List Regex
  items : List Regex
  flags : Flags
  names : List String

namespace Progress

/-- Nothing has been read. -/
def initial : Progress := ⟨[], [], [], Flags.none, []⟩

/-- The expression between the innermost open parenthesis and here. -/
def current (p : Progress) : Regex :=
  ofAlternatives (ofSequence p.items.reverse :: p.alternatives).reverse

/-- Adds an item to the current alternative. -/
def add (p : Progress) (e : Regex) : Progress := { p with items := e :: p.items }

/-- Repeats the last item of the current alternative. -/
def repeatLast? (p : Progress) (least : Nat) (most : Option Nat) : Option Progress :=
  match p.items with
  | [] => none
  | e :: items => some { p with items := ofRepetition least most e :: items }

/-- Ends the current alternative. -/
def endAlternative (p : Progress) : Progress :=
  { p with alternatives := ofSequence p.items.reverse :: p.alternatives, items := [] }

/-- Opens a group, unless that would nest too deep. -/
def openGroup? (p : Progress) (flags : Flags) (numbered : Bool) : Option Progress :=
  if nestLimit ≤ p.groups.length then none
  else
    some { p with
      groups := ⟨p.alternatives, p.items, p.flags, numbered⟩ :: p.groups
      alternatives := []
      items := []
      flags := flags }

/-- Closes the innermost open group. -/
def closeGroup? (p : Progress) : Option Progress :=
  match p.groups with
  | [] => none
  | g :: groups =>
    let e := if g.numbered then Regex.group p.current else p.current
    some { p with
      groups := groups, alternatives := g.alternatives, items := e :: g.items, flags := g.flags }

/-- Reads what follows an opening parenthesis. -/
def group? (p : Progress) (cs : List Char) : Option (Progress × List Char) := do
  match skip p.flags cs with
  | '?' :: '=' :: _ => none
  | '?' :: '!' :: _ => none
  | '?' :: '<' :: '=' :: _ => none
  | '?' :: '<' :: '!' :: _ => none
  | '?' :: 'P' :: '<' :: rest => named rest
  | '?' :: '<' :: rest => named rest
  | '?' :: rest =>
    let (flags, ending, after) ← flags? p.flags false [] '?' rest
    if ending == ':' then
      let p ← p.openGroup? flags false
      pure (p, after)
    else if rest.head? == some ')' then none
    else pure ({ p with flags := flags }, after)
  | rest =>
    let p ← p.openGroup? p.flags true
    pure (p, rest)
where
  /-- Reads a group with a name, which no other group has. -/
  named (rest : List Char) : Option (Progress × List Char) := do
    let (name, rest) ← groupName? rest
    if p.names.contains name then none
    else
      let p ← openGroup? { p with names := name :: p.names } p.flags true
      pure (p, rest)

/-- Reads one item or operator that starts with the character `c`. -/
def step? (p : Progress) (c : Char) (cs : List Char) : Option (Progress × List Char) :=
  match c with
  | '(' => p.group? cs
  | ')' => p.closeGroup?.map fun p => (p, cs)
  | '|' => some (p.endAlternative, cs)
  | '[' => (class? p.flags cs).map fun r => (p.add r.1, r.2)
  | '?' => (p.repeatLast? 0 (some 1)).map fun q => (q, afterRepetition cs)
  | '*' => (p.repeatLast? 0 none).map fun q => (q, afterRepetition cs)
  | '+' => (p.repeatLast? 1 none).map fun q => (q, afterRepetition cs)
  | '\x7b' =>
    match counted? p.flags cs with
    | none => none
    | some (least, most, rest) => (p.repeatLast? least most).map fun q => (q, rest)
  | '\\' => (escape? p.flags cs).map fun r => (p.add r.1, r.2)
  | '.' => some (p.add (dot p.flags), cs)
  | '^' => some (p.add (startAnchor p.flags), cs)
  | '$' => some (p.add (endAnchor p.flags), cs)
  | c => some (p.add (ofChar p.flags c), cs)

/-- Reads to the end of the text, in at most `fuel` steps. -/
def run? : Nat → Progress → List Char → Option Regex
  | 0, _, _ => none
  | fuel + 1, p, cs =>
    match skip p.flags cs with
    | [] => if p.groups.isEmpty then some p.current else none
    | c :: rest =>
      match p.step? c rest with
      | none => none
      | some (p, rest) => p.run? fuel rest

end Progress

/-- Reads a regular expression. -/
def parse? (source : String) : Option Regex := do
  let cs := source.toList
  let e ← Progress.initial.run? (cs.length + 1) cs
  if e.depth ≤ nestLimit && e.fits then some e else none

end ProvenanceTrail.Regex
