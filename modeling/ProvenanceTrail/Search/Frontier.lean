import ProvenanceTrail.Search.Item
/-!
# The frontier of a search

Items wait in the order of their credibility: those on trusted paths first, then by the outcomes of the
checks, position by position, a satisfied one first. Items that are equal in all of this wait in the
order in which they came.

All items of a search carry outcomes for the same checks in the same order; others are refused.
-/

namespace ProvenanceTrail

/-- How the checks of two items differ. -/
inductive LayoutError where
  | lengths (left right : Nat)
  | checks (position : Nat) (left right : String)
deriving DecidableEq, Repr

namespace LayoutError

/-- The text of an error. -/
def message : LayoutError → String
  | .lengths left right => s!"Validity lists differ in length: {left} vs {right}"
  | .checks position left right =>
    s!"Validity checks differ at position {position}: {left} vs {right}"

/-- The first difference of two lists of checks, the first of which is at a position. -/
def atFrom? (position : Nat) : List String → List String → Option LayoutError
  | a :: as, b :: bs => if a = b then atFrom? (position + 1) as bs else some (.checks position a b)
  | _, _ => none

/-- How two lists of checks differ, if they do. -/
def between? (left right : List String) : Option LayoutError :=
  if left.length ≠ right.length then some (.lengths left.length right.length)
  else atFrom? 0 left right

end LayoutError

namespace SearchItem

/-- The checks that an item carries outcomes for. -/
def layout (i : SearchItem) : List String := i.pathValidity.map CheckOutcome.check

/-- What ranks an item: its path's integrity, then the outcomes of the checks. -/
def rank (i : SearchItem) : List Bool := i.pathIntegrity :: i.pathValidity.map CheckOutcome.satisfied

/-- Ranks compare at the first position where they differ; there the item that is satisfied comes
first. -/
def compareRanks : List Bool → List Bool → Ordering
  | a :: as, b :: bs => if a = b then compareRanks as bs else if a then .lt else .gt
  | _, _ => .eq

/-- Which of two items with the same checks is served first: `lt` says the first one. -/
def order (a b : SearchItem) : Ordering := compareRanks a.rank b.rank

/-- Which of two items is served first, if they carry the same checks. -/
def compare (a b : SearchItem) : Except LayoutError Ordering :=
  match LayoutError.between? a.layout b.layout with
  | some e => .error e
  | none => .ok (order a b)

/-- Whether an item comes strictly before another. -/
def precedes (a b : SearchItem) : Except LayoutError Bool := (compare a b).map (· == .lt)

end SearchItem

/-- The waiting items, the one to be served next first. -/
structure Frontier where
  checks : List String
  items : List SearchItem

namespace Frontier

/-- A frontier for items with given checks. -/
def empty (checks : List String) : Frontier := ⟨checks, []⟩

/-- Puts an item before the first one that it precedes. -/
def insert (item : SearchItem) : List SearchItem → List SearchItem
  | [] => [item]
  | other :: rest =>
    if SearchItem.order item other = .lt then item :: other :: rest else other :: insert item rest

/-- Adds an item behind those of equal rank. -/
def push (f : Frontier) (item : SearchItem) : Except LayoutError Frontier :=
  match LayoutError.between? f.checks item.layout with
  | some e => .error e
  | none => .ok { f with items := insert item f.items }

/-- Takes out the item to be served next. -/
def pop (f : Frontier) : Option (SearchItem × Frontier) :=
  match f.items with
  | [] => none
  | item :: rest => some (item, { f with items := rest })

/-- The item to be served next. -/
def peek (f : Frontier) : Option SearchItem := f.items.head?

/-- How many items wait. -/
def size (f : Frontier) : Nat := f.items.length

/-- Whether no item waits. -/
def isEmpty (f : Frontier) : Bool := f.items.isEmpty

end Frontier

end ProvenanceTrail
