import ProvenanceTrail.Regex.CharSet
/-!
# Regular expressions

The expressions that patterns are made of, with the assertions that look at the characters around a
position. `Regex.ofSequence`, `Regex.ofAlternatives` and `Regex.ofRepetition` keep expressions in the
form in which their nesting is measured: a sequence or alternation of one is that one, and a repetition
of exactly once is what it repeats.
-/

namespace ProvenanceTrail

/-- An assertion about a position in a text. -/
inductive Look where
  | start
  | finish
  | lineStart
  | lineEnd
  | crlfLineStart
  | crlfLineEnd
  | wordBoundary
  | noWordBoundary
  | wordStart
  | wordEnd
  | wordStartHalf
  | wordEndHalf
deriving DecidableEq, Repr

/-- A regular expression. -/
inductive Regex where
  | empty
  | char (c : Char)
  | set (ranges : CharSet)
  | look (assertion : Look)
  | repeated (least : Nat) (most : Option Nat) (e : Regex)
  | group (e : Regex)
  | sequence (es : List Regex)
  | alternation (es : List Regex)
deriving Repr

namespace Regex

/-- The sequence of some expressions. -/
def ofSequence : List Regex → Regex
  | [] => .empty
  | [e] => e
  | es => .sequence es

/-- The alternation of some expressions. -/
def ofAlternatives : List Regex → Regex
  | [e] => e
  | es => .alternation es

/-- The repetition of an expression. -/
def ofRepetition (least : Nat) (most : Option Nat) (e : Regex) : Regex :=
  if least = 0 && most == some 0 then .empty
  else if least = 1 && most == some 1 then e
  else .repeated least most e

mutual
/-- Whether an expression may match the empty text. -/
def nullable : Regex → Bool
  | .empty => true
  | .char _ => false
  | .set _ => false
  | .look _ => true
  | .repeated least _ e => least == 0 || nullable e
  | .group e => nullable e
  | .sequence es => allNullable es
  | .alternation es => anyNullable es
termination_by structural e => e

/-- Whether each of some expressions may match the empty text. -/
def allNullable : List Regex → Bool
  | [] => true
  | e :: es => nullable e && allNullable es
termination_by structural es => es

/-- Whether one of some expressions may match the empty text. -/
def anyNullable : List Regex → Bool
  | [] => false
  | e :: es => nullable e || anyNullable es
termination_by structural es => es
end

mutual
/-- How deep an expression is nested; an expression without parts has depth zero. -/
def depth : Regex → Nat
  | .repeated _ _ e => depth e + 1
  | .group e => depth e + 1
  | .sequence es => depthAll es + 1
  | .alternation es => depthAll es + 1
  | _ => 0
termination_by structural e => e

/-- The greatest depth of some expressions. -/
def depthAll : List Regex → Nat
  | [] => 0
  | e :: es => max (depth e) (depthAll es)
termination_by structural es => es
end

end Regex

end ProvenanceTrail
