import ProvenanceTrail.Address.Folding
import ProvenanceTrail.Address.Percent
/-!
# Hosts

A host is a domain name or an address of version 4 or 6. The letters of a domain name are folded, and a
label with characters beyond ASCII is written in the coded form of such labels. A name whose last label is a
number must be an address of version 4; an address of version 6 stands in brackets.
-/

namespace ProvenanceTrail.Host

/-- The parts of a text between separators. -/
def parts (separator : Char) (cs : List Char) : List (List Char) := cs.splitOn separator

/-- The number that the digits of a base write. -/
def ofDigits? (base : Nat) (cs : List Char) : Option Nat :=
  cs.foldlM (fun n c => do
    let d ← Text.hexValue? c
    if d < base then some (base * n + d) else none) 0

/-- A number of an address of version 4: decimal, octal after `0`, hexadecimal after `0x`. -/
def number? : List Char → Option Nat
  | [] => none
  | '0' :: 'x' :: ds => ofDigits? 16 ds
  | '0' :: 'X' :: ds => ofDigits? 16 ds
  | '0' :: d :: ds => ofDigits? 8 (d :: ds)
  | ds => ofDigits? 10 ds

/-- The labels of a name, without an empty one at the end. -/
def labels (name : List Char) : List (List Char) :=
  match (parts '.' name).reverse with
  | [] :: rest@(_ :: _) => rest.reverse
  | all => all.reverse

/-- Whether the last label is a number. -/
def endsInNumber (name : List Char) : Bool :=
  match (labels name).getLast? with
  | some l => (!l.isEmpty && l.all Char.isDigit) || (l.take 2 == ['0', 'x'] && (number? l).isSome)
  | none => false

/-- The four numbers of an address of version 4, with points between them. -/
def renderQuad (n : Nat) : List Char :=
  ".".toList.intercalate
    ([n / Nat.pow 2 24, n / Nat.pow 2 16 % 256, n / Nat.pow 2 8 % 256, n % 256].map (Nat.toDigits 10))

/-- Reads an address of version 4. The last number fills all the bytes that are left. -/
def quad? (name : List Char) : Option Nat := do
  let ls := labels name
  if 4 < ls.length then none
  else
    let ns ← ls.mapM number?
    let front := ns.dropLast
    let last ← ns.getLast?
    if front.any (255 < ·) || Nat.pow 256 (4 - front.length) ≤ last then none
    else some (front.foldl (fun n b => n * 256 + b) 0 * Nat.pow 256 (4 - front.length) + last)

/-- The 16-bit pieces of a part of an address of version 6; the last one may be written as an address
of version 4. -/
def pieces? (cs : List Char) : Option (List Nat) :=
  if cs.isEmpty then some []
  else
    let ps := parts ':' cs
    let piece? (p : List Char) : Option Nat :=
      if p.isEmpty || 4 < p.length then none else ofDigits? 16 p
    let isPlain (l : List Char) : Bool :=
      !l.isEmpty && l.length ≤ 3 && l.all Char.isDigit && (l.length == 1 || l.head? != some '0')
    match ps.getLast? with
    | some last =>
      if last.contains '.' then
        let ls := parts '.' last
        if ls.length == 4 && ls.all isPlain then do
          let front ← ps.dropLast.mapM piece?
          let n ← quad? last
          some (front ++ [n / 65536, n % 65536])
        else none
      else ps.mapM piece?
    | none => none

/-- Splits at the first double colon. -/
def splitGap? : List Char → Option (List Char × List Char)
  | [] => none
  | ':' :: ':' :: rest => some ([], rest)
  | c :: rest => (splitGap? rest).map fun r => (c :: r.1, r.2)

/-- Reads the eight pieces of an address of version 6; a double colon stands for missing zeros. -/
def eightPieces? (cs : List Char) : Option (List Nat) := do
  match splitGap? cs with
  | some (front, back) =>
    let front ← pieces? front
    let back ← pieces? back
    if 8 ≤ front.length + back.length then none
    else some (front ++ List.replicate (8 - front.length - back.length) 0 ++ back)
  | none =>
    let all ← pieces? cs
    if all.length = 8 then some all else none

/-- How many zeros a list starts with. -/
def zerosAt (pieces : List Nat) : Nat := (pieces.takeWhile (· == 0)).length

/-- Where the longest run of at least two zeros starts, and its length; the first of equal ones. -/
def gap? (pieces : List Nat) : Option (Nat × Nat) :=
  (List.range pieces.length).foldl (fun best i =>
    let n := zerosAt (pieces.drop i)
    if 2 ≤ n && best.all (fun b => b.2 < n) then some (i, n) else best) none

/-- Writes pieces with colons between them. -/
def renderPieces (pieces : List Nat) : List Char :=
  ":".toList.intercalate (pieces.map (Nat.toDigits 16))

/-- Writes an address of version 6. -/
def renderEight (pieces : List Nat) : List Char :=
  match gap? pieces with
  | some (i, n) => renderPieces (pieces.take i) ++ "::".toList ++ renderPieces (pieces.drop (i + n))
  | none => renderPieces pieces

/-- The characters that no domain name may hold. -/
def forbidden : List Char :=
  [' ', '#', '/', ':', '<', '>', '?', '@', '[', '\\', ']', '^', '|', '%', '\x7f']

/-- A digit of the coded form of labels. -/
def labelDigit (d : Nat) : Char := if d < 26 then Char.ofNat (97 + d) else Char.ofNat (22 + d)

/-- Writes a difference in digits of base 36 with sinking thresholds; at most `fuel` digits. -/
def renderDifference (bias : Nat) : Nat → Nat → Nat → List Char
  | 0, _, _ => []
  | fuel + 1, position, n =>
    let threshold := if position ≤ bias then 1 else if bias + 26 ≤ position then 26 else position - bias
    if n < threshold then [labelDigit n]
    else
      labelDigit (threshold + (n - threshold) % (36 - threshold)) ::
        renderDifference bias fuel (position + 36) ((n - threshold) / (36 - threshold))

/-- Divides a difference down; at most `fuel` times. -/
def damp : Nat → Nat → Nat → Nat
  | 0, k, _ => k
  | fuel + 1, k, delta => if 455 < delta then damp fuel (k + 36) (delta / 35) else
    k + 36 * delta / (delta + 38)

/-- The bias after a difference. -/
def adapt (delta count : Nat) (isFirst : Bool) : Nat :=
  let delta := if isFirst then delta / 700 else delta / 2
  damp 64 0 (delta + delta / count)

/-- The state of coding a label: the next code point, the difference so far, the bias, how many
characters are written, and the digits. -/
structure Coding where
  next : Nat
  delta : Nat
  bias : Nat
  written : Nat
  digits : List Char

/-- Codes all occurrences of a code point in a label. -/
def codeOccurrences (label : List Char) (basics : Nat) (c : Coding) (point : Nat) : Coding :=
  let c := { c with delta := c.delta + (point - c.next) * (c.written + 1), next := point }
  let c := label.foldl (fun (c : Coding) ch =>
    if ch.toNat < point then { c with delta := c.delta + 1 }
    else if ch.toNat = point then
      { c with
        delta := 0, bias := adapt c.delta (c.written + 1) (c.written == basics)
        written := c.written + 1, digits := c.digits ++ renderDifference c.bias 64 36 c.delta }
    else c) c
  { c with delta := c.delta + 1, next := c.next + 1 }

/-- The coded form of a label with characters beyond ASCII. -/
def codeLabel (label : List Char) : List Char :=
  let basics := label.filter fun ch => ch.toNat < 128
  let points := ((label.map Char.toNat).filter (128 ≤ ·)).mergeSort.eraseReps
  let start : Coding := ⟨128, 0, 72, basics.length, []⟩
  let coded := points.foldl (codeOccurrences label basics.length) start
  "xn--".toList ++ basics ++ (if basics.isEmpty then [] else ['-']) ++ coded.digits

/-- The written form of a domain name. -/
def domain? (cs : List Char) : Option (List Char) := do
  let text ← String.fromUTF8? ⟨(Percent.decode cs).toArray⟩
  let ls := (parts '.' (text.toList.flatMap fold)).map fun l =>
    if l.all fun ch => ch.toNat < 128 then l else codeLabel l
  let name := ".".toList.intercalate ls
  if name.isEmpty || name.any fun ch => ch.toNat < 0x20 || forbidden.contains ch then none
  else if endsInNumber name then (quad? name).map renderQuad
  else some name

/-- The written form of a host. -/
def ofText? (cs : List Char) : Option (List Char) :=
  match cs with
  | '[' :: rest =>
    if rest.getLast? = some ']' then
      (eightPieces? rest.dropLast).map fun pieces => '[' :: (renderEight pieces ++ [']'])
    else none
  | _ => domain? cs

end ProvenanceTrail.Host
