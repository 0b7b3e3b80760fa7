import ProvenanceTrail.Regex.Basic
/-!
# Matching

A set of positions in a text is a natural number whose bit `i` stands for the position in front of the
character `i`; the end of the text is a position as well. For a text, every character and assertion of an
expression is replaced by the positions at which it holds, once (`Regex.mark`). `Marked.next` then maps a
set of positions to the positions at which a match that starts in the set may end. An expression occurs
in a text when the set of all positions is mapped to a set that is not empty.
-/

namespace ProvenanceTrail

/-- A set of positions. -/
abbrev Positions := Nat

namespace Positions

/-- The positions `i < size` that satisfy `p`. -/
def thoseWith (size : Nat) (p : Nat → Bool) : Positions :=
  size.fold (fun i _ ps => if p i then ps ||| (1 <<< i) else ps) 0

end Positions

/-- Whether a character counts as part of a word. -/
def isWordChar (c : Char) : Bool := CharSet.word.contains c

namespace Look

/-- Whether an assertion holds at a position of a text. -/
def holds (text : Array Char) (i : Nat) (l : Look) : Bool :=
  let before := if i = 0 then none else text[i - 1]?
  let after := text[i]?
  let wordBefore := before.any isWordChar
  let wordAfter := after.any isWordChar
  match l with
  | .start => i == 0
  | .finish => i == text.size
  | .lineStart => before.isNone || before == some '\n'
  | .lineEnd => after.isNone || after == some '\n'
  | .crlfLineStart =>
    before.isNone || before == some '\n' || (before == some '\r' && after != some '\n')
  | .crlfLineEnd =>
    after.isNone || after == some '\r' || (after == some '\n' && before != some '\r')
  | .wordBoundary => wordBefore != wordAfter
  | .noWordBoundary => wordBefore == wordAfter
  | .wordStart => !wordBefore && wordAfter
  | .wordEnd => wordBefore && !wordAfter
  | .wordStartHalf => !wordBefore
  | .wordEndHalf => !wordAfter

end Look

/-- An expression over a text: instead of characters and assertions it has the positions at which they
hold. A repetition has the least count, and how many more there may be. -/
inductive Marked where
  | character (places : Positions)
  | assertion (places : Positions)
  | repeated (least more : Nat) (e : Marked)
  | sequence (es : List Marked)
  | alternation (es : List Marked)

namespace Marked

/-- Applies a map of positions `n` times, and stops early at a set that is mapped to itself. -/
def iterate (f : Positions → Positions) : Nat → Positions → Positions
  | 0, ps => ps
  | n + 1, ps =>
    let image := f ps
    if image = ps then ps else iterate f n image

/-- The positions reached by applying a map up to `n` times, together. -/
def upTo (f : Positions → Positions) (n : Nat) (ps : Positions) : Positions :=
  iterate (fun s => s ||| f s) n ps

mutual
/-- The ends of the matches that start in a set of positions. -/
def next : Marked → Positions → Positions
  | .character places, ps => (ps &&& places) <<< 1
  | .assertion places, ps => ps &&& places
  | .repeated least more e, ps => upTo (next e) more (iterate (next e) least ps)
  | .sequence es, ps => nextOfSequence es ps
  | .alternation es, ps => nextOfChoice es ps
termination_by structural e => e

/-- The ends of the matches of expressions one behind the other. -/
def nextOfSequence : List Marked → Positions → Positions
  | [], ps => ps
  | e :: es, ps => nextOfSequence es (next e ps)
termination_by structural es => es

/-- The ends of the matches of one of some expressions. -/
def nextOfChoice : List Marked → Positions → Positions
  | [], _ => 0
  | e :: es, ps => next e ps ||| nextOfChoice es ps
termination_by structural es => es
end

end Marked

namespace Regex

mutual
/-- Marks an expression with the positions of a text at which its characters and assertions hold. -/
def mark (text : Array Char) : Regex → Marked
  | .empty => .sequence []
  | .char c => .character (Positions.thoseWith text.size fun i => text[i]? == some c)
  | .set ranges => .character (Positions.thoseWith text.size fun i => text[i]?.any ranges.contains)
  | .look l => .assertion (Positions.thoseWith (text.size + 1) fun i => l.holds text i)
  | .repeated least most e =>
    let more := match most with
      | none => text.size + 1
      | some most => most - least
    .repeated least more (mark text e)
  | .group e => mark text e
  | .sequence es => .sequence (markAll text es)
  | .alternation es => .alternation (markAll text es)
termination_by structural e => e

/-- Marks some expressions. -/
def markAll (text : Array Char) : List Regex → List Marked
  | [] => []
  | e :: es => mark text e :: markAll text es
termination_by structural es => es
end

/-- Whether a part of the text matches. -/
def occursIn (e : Regex) (text : String) : Bool :=
  let chars := text.toList.toArray
  (e.mark chars).next (Nat.pow 2 (chars.size + 1) - 1) != 0

end Regex

end ProvenanceTrail
