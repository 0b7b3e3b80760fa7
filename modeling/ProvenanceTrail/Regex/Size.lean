import ProvenanceTrail.Regex.Basic
/-!
# The size of an automaton

An expression is refused when the automaton for it would take more than ten megabytes. The automaton
has one state per character, set, assertion or empty expression, two per group, and a branching state
at every choice; a repetition is written out, once per count. The size is computed without building it.
-/

namespace ProvenanceTrail.Regex

/-- A part of an automaton: its states, the bytes of its ranges and branches, and whether it ends in a
branching state, which takes another branch when something follows. -/
structure Part where
  states : Nat
  bytes : Nat
  endsInBranch : Bool

/-- Bytes of a state. -/
def stateBytes : Nat := 32

/-- Bytes of a range of characters. -/
def rangeBytes : Nat := 8

/-- Bytes of a branch. -/
def branchBytes : Nat := 4

/-- The largest automaton in bytes. -/
def sizeLimit : Nat := 10 * Nat.pow 2 20

namespace Part

/-- Bytes for leading on from the end of a part. -/
def linkBytes (p : Part) : Nat := if p.endsInBranch then branchBytes else 0

/-- One state without a branch. -/
def single : Part := ⟨1, 0, false⟩

/-- One part behind another. -/
def followedBy (p q : Part) : Part :=
  ⟨p.states + q.states, p.bytes + p.linkBytes + q.bytes, q.endsInBranch⟩

/-- A part written `n` times, one behind the other. -/
def times (p : Part) (n : Nat) : Part :=
  if n = 0 then single
  else ⟨n * p.states, n * p.bytes + (n - 1) * p.linkBytes, p.endsInBranch⟩

/-- The part of a repetition. -/
def repeated (p : Part) (nullable : Bool) (least : Nat) : Option Nat → Part
  | none =>
    if least = 0 then
      if nullable then ⟨p.states + 3, p.bytes + p.linkBytes + 4 * branchBytes, false⟩
      else ⟨p.states + 1, p.bytes + p.linkBytes + branchBytes, true⟩
    else ⟨least * p.states + 1, least * p.bytes + least * p.linkBytes + branchBytes, true⟩
  | some most =>
    if least = 0 && most = 1 then
      ⟨p.states + 2, p.bytes + p.linkBytes + 2 * branchBytes, false⟩
    else if most ≤ least then p.times least
    else
      let head := p.times least
      let more := most - least
      ⟨head.states + 1 + more * (p.states + 1),
        head.bytes + head.linkBytes + more * (p.bytes + p.linkBytes + 2 * branchBytes), false⟩

end Part

mutual
/-- The part of an expression. -/
def part : Regex → Part
  | .empty => .single
  | .char _ => .single
  | .look _ => .single
  | .set ranges => ⟨1, ranges.length * rangeBytes, false⟩
  | .repeated least most e => (part e).repeated (nullable e) least most
  | .group e =>
    let p := part e
    ⟨p.states + 2, p.bytes + p.linkBytes, false⟩
  | .sequence es => partInSequence es
  | .alternation es =>
    let (states, bytes) := partsOfChoice es
    ⟨states + 2, bytes, false⟩
termination_by structural e => e

/-- The part of expressions one behind the other. -/
def partInSequence : List Regex → Part
  | [] => .single
  | [e] => part e
  | e :: es => (part e).followedBy (partInSequence es)
termination_by structural es => es

/-- States and bytes of the alternatives of a choice. -/
def partsOfChoice : List Regex → Nat × Nat
  | [] => (0, 0)
  | e :: es =>
    let p := part e
    let (states, bytes) := partsOfChoice es
    (p.states + states, p.bytes + p.linkBytes + branchBytes + bytes)
termination_by structural es => es
end

/-- The bytes of the automaton of an expression with its accepting state. -/
def automatonBytes (e : Regex) : Nat :=
  let p := part (.group e)
  (p.states + 1) * stateBytes + p.bytes

/-- Whether the automaton of an expression is small enough. -/
def fits (e : Regex) : Bool := e.automatonBytes ≤ sizeLimit

end ProvenanceTrail.Regex
