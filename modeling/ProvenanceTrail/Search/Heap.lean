import ProvenanceTrail.Search.Frontier
/-!
# The frontier as a heap

A binary heap is an array in which the elements at `2i + 1` and `2i + 2` stand below the one at `i`, and no
element is greater than the one that it stands below. So the first element is the greatest.

The items of a frontier wait in such a heap. Each has the number of its arrival, and an item is the greater
one if it is served first: the comparison of items is taken the other way round, and of items that tie the
one that came first is the greater one. `Frontier` keeps the same items in a sorted list.
-/

namespace ProvenanceTrail

namespace Heap

variable {α : Type} {n : Nat}

/-- The position above a position. -/
def parent (i : Nat) : Nat := (i - 1) / 2

/-- Swaps two elements. -/
def swap (a : Vector α n) (i j : Fin n) : Vector α n := a.swap i j i.isLt j.isLt

/-- Moves an element up as long as it is greater than the one above it. -/
def siftUp (le : α → α → Bool) (a : Vector α n) (i : Fin n) : Vector α n :=
  if h : i.val = 0 then a
  else
    let above : Fin n := ⟨parent i, by unfold parent; omega⟩
    if le (a.get i) (a.get above) then a else siftUp le (swap a i above) above
termination_by i.val
decreasing_by simp only [parent]; omega

/-- Moves an element down to a position without any below it, where the greater one of those below takes
its place each time; gives the position as well. -/
def siftToBottom (le : α → α → Bool) (a : Vector α n) (i : Fin n) : Vector α n × Fin n :=
  if hright : 2 * i.val + 2 < n then
    let left : Fin n := ⟨2 * i.val + 1, by omega⟩
    let right : Fin n := ⟨2 * i.val + 2, hright⟩
    if le (a.get left) (a.get right) then siftToBottom le (swap a i right) right
    else siftToBottom le (swap a i left) left
  else if hleft : 2 * i.val + 1 < n then
    let left : Fin n := ⟨2 * i.val + 1, hleft⟩
    (swap a i left, left)
  else (a, i)
termination_by n - i.val

/-- Moves the first element down all the way and up again as far as it belongs. -/
def settle (le : α → α → Bool) (a : Vector α n) (h : 0 < n) : Vector α n :=
  let (b, i) := siftToBottom le a ⟨0, h⟩
  siftUp le b i

/-- Adds an element. -/
def push (le : α → α → Bool) (a : Array α) (x : α) : Array α :=
  (siftUp le (Vector.mk (a.push x) rfl) ⟨a.size, by simp⟩).toArray

/-- Takes the first element out of a heap without its last element, which is settled in its place. -/
def replaceFirst (le : α → α → Bool) (a : Array α) (last : α) : α × Array α :=
  if h : 0 < a.size then (a[0], (settle le (Vector.mk (a.set 0 last h) (Array.size_set h)) h).toArray)
  else (last, a)

/-- Takes out the first element. -/
def pop? (le : α → α → Bool) (a : Array α) : Option (α × Array α) :=
  a.back?.map fun last => replaceFirst le a.pop last

end Heap

/-- An item that waits in a heap, with the number of its arrival. -/
structure HeapEntry where
  item : SearchItem
  seq : Nat
deriving DecidableEq, Repr

namespace HeapEntry

/-- The greater one of two entries is served first. -/
def cmp (a b : HeapEntry) : Ordering :=
  (SearchItem.order b.item a.item).then (compare b.seq a.seq)

/-- Whether an entry is not greater than another one. -/
def le (a b : HeapEntry) : Bool := (a.cmp b).isLE

end HeapEntry

/-- A frontier that keeps its items in a heap. -/
structure HeapFrontier where
  checks : List String
  heap : Array HeapEntry
  nextSeq : Nat

namespace HeapFrontier

/-- A frontier for items with given checks. -/
def empty (checks : List String) : HeapFrontier := ⟨checks, #[], 0⟩

/-- Adds an item under the next number. -/
def push (f : HeapFrontier) (item : SearchItem) : Except LayoutError HeapFrontier :=
  match LayoutError.between? f.checks item.layout with
  | some e => .error e
  | none =>
    .ok { f with heap := Heap.push HeapEntry.le f.heap ⟨item, f.nextSeq⟩, nextSeq := f.nextSeq + 1 }

/-- Takes out the item to be served next. -/
def pop (f : HeapFrontier) : Option (SearchItem × HeapFrontier) :=
  (Heap.pop? HeapEntry.le f.heap).map fun r => (r.1.item, { f with heap := r.2 })

/-- The item to be served next. -/
def peek (f : HeapFrontier) : Option SearchItem := f.heap[0]?.map HeapEntry.item

/-- How many items wait. -/
def size (f : HeapFrontier) : Nat := f.heap.size

/-- Whether no item waits. -/
def isEmpty (f : HeapFrontier) : Bool := f.heap.isEmpty

end HeapFrontier

end ProvenanceTrail
