import ProvenanceTrail.Proofs.Search.Heap
import ProvenanceTrail.Proofs.Search.StableQueue

/-!
# The heap serves in turn

In a heap each item has the number under which it came, so that the comparison of entries puts any two of them
in an order: a reversed comparison of items, of which those that tie are told apart by their numbers. The line
of the items that wait is the heap in ascending order of the numbers (`HeapFrontier.Holds`), and the greatest
entry is that of the next item of the line. So the heap answers as the sorted list does
(`HeapFrontier.stable_priority_queue`).
-/

namespace ProvenanceTrail

instance : ItemQueue HeapFrontier :=
  ⟨HeapFrontier.push, HeapFrontier.pop, HeapFrontier.peek, HeapFrontier.size, HeapFrontier.isEmpty,
    fun f => f.heap.toList.map HeapEntry.item⟩

namespace HeapEntry

open SearchItem (AtLeast order)

variable {checks : List String} {a b : HeapEntry}

/-- The entry of an item for some checks. -/
def Carries (checks : List String) (e : HeapEntry) : Prop := e.item.layout = checks

/-- An entry is not greater than another one when the other item is at least as credible, and came no later
if the two tie. -/
theorem le_iff : a.le b ↔ b.item.AtLeast a.item ∧ (a.item.AtLeast b.item → b.seq ≤ a.seq) := by
  have htie := SearchItem.order_eq_iff (a := b.item) (b := a.item)
  rw [le, cmp, AtLeast]
  cases horder : order b.item a.item with
  | lt =>
    have hnot : ¬ a.item.AtLeast b.item := fun h =>
      SearchItem.atLeast_iff_order_ne_lt.1 h horder
    simp [hnot]
  | eq => simp [(htie.1 horder).2, Nat.isLE_compare]
  | gt => simp

/-- The comparison of entries compares those of items for the same checks. -/
theorem compares (checks : List String) : Heap.Compares le (Carries checks) where
  total {a b} ha hb := by
    rw [le_iff, le_iff]
    rcases em (a.item.AtLeast b.item) with hab | hab
    · rcases em (b.item.AtLeast a.item) with hba | hba
      · exact (Nat.le_total b.seq a.seq).imp (fun h => ⟨hba, fun _ => h⟩) fun h => ⟨hab, fun _ => h⟩
      · exact .inr ⟨hab, fun h => absurd h hba⟩
    · have hba : b.item.AtLeast a.item := by
        rw [SearchItem.atLeast_iff_order_ne_lt] at hab
        exact SearchItem.atLeast_of_order_lt (not_not.1 hab)
      exact .inl ⟨hba, fun h => absurd h hab⟩
  trans {a b c} ha hb hc hab hbc := by
    rw [le_iff] at *
    have hca := hbc.1.trans (hc.trans hb.symm) (hb.trans ha.symm) hab.1
    refine ⟨hca, fun hac => ?_⟩
    -- if the outer two tie, all three do
    have hba := hac.trans (ha.trans hc.symm) (hc.trans hb.symm) hbc.1
    have hcb := hab.1.trans (hb.trans ha.symm) (ha.trans hc.symm) hac
    exact (hbc.2 hcb).trans (hab.2 hba)

end HeapEntry

namespace HeapFrontier

open Frontier (Next)

variable {checks : List String} {f : HeapFrontier} {line : List SearchItem} {item : SearchItem}

/-- A frontier for some checks, while a line of items waits: the heap has the items of the line under
ascending numbers, all of which were given out. -/
structure Holds (checks : List String) (f : HeapFrontier) (line : List SearchItem) : Prop where
  checks_eq : f.checks = checks
  isHeap : Heap.IsHeap HeapEntry.le (HeapEntry.Carries checks) f.heap
  numbered : ∃ entries : List HeapEntry, entries.Perm f.heap.toList ∧ entries.map HeapEntry.item = line ∧
    entries.Pairwise (fun a b => a.seq < b.seq) ∧ ∀ e ∈ entries, e.seq < f.nextSeq

namespace Holds

/-- The empty heap holds the empty line. -/
theorem empty (checks : List String) : Holds checks (HeapFrontier.empty checks) [] :=
  ⟨rfl, Heap.isHeap_empty _ _, [], by simp [HeapFrontier.empty]⟩

/-- The items of the heap are those of the line. -/
theorem perm (h : Holds checks f line) : (f.heap.toList.map HeapEntry.item).Perm line := by
  obtain ⟨entries, hperm, rfl, -⟩ := h.numbered
  exact hperm.symm.map _

/-- An item that is taken in goes to the end of the line. -/
theorem push (h : Holds checks f line) (hitem : item.layout = checks) :
    ∃ g, f.push item = .ok g ∧ Holds checks g (line ++ [item]) := by
  obtain ⟨entries, hperm, rfl, hascending, hgiven⟩ := h.numbered
  have hentry : HeapEntry.Carries checks ⟨item, f.nextSeq⟩ := hitem
  refine ⟨{ f with heap := Heap.push HeapEntry.le f.heap ⟨item, f.nextSeq⟩, nextSeq := f.nextSeq + 1 },
    ?_, h.checks_eq, h.isHeap.push (HeapEntry.compares checks) hentry,
    entries ++ [⟨item, f.nextSeq⟩], ?_, by simp, ?_, ?_⟩
  · rw [HeapFrontier.push, LayoutError.between?_eq_none_iff.2 (h.checks_eq.trans hitem.symm)]
  · have hpush := (Array.perm_iff_toList_perm.1 (Heap.push_perm HeapEntry.le f.heap ⟨item, f.nextSeq⟩)).symm
    rw [Array.toList_push] at hpush
    exact (hperm.append_right _).trans hpush
  · refine List.pairwise_append.2 ⟨hascending, List.pairwise_singleton _ _, fun a ha b hb => ?_⟩
    obtain rfl := List.mem_singleton.1 hb
    exact hgiven a ha
  · intro e he
    rcases List.mem_append.1 he with he | he
    · exact (hgiven e he).trans (Nat.lt_succ_self _)
    · obtain rfl := List.mem_singleton.1 he
      exact Nat.lt_succ_self _

/-- The greatest entry is that of the next item of the line. -/
theorem pop (h : Holds checks f line) {e : HeapEntry} {heap : Array HeapEntry}
    (hpop : Heap.pop? HeapEntry.le f.heap = some (e, heap)) :
    Next line e.item ∧ Holds checks { f with heap := heap } (line.erase e.item) := by
  obtain ⟨entries, hperm, rfl, hascending, hgiven⟩ := h.numbered
  obtain ⟨-, hgreatest, hrest, hheap⟩ := h.isHeap.pop?_spec (HeapEntry.compares checks) hpop
  have hlayout : ∀ x ∈ entries, x.item.layout = checks := fun x hx =>
    h.isHeap.all x (Array.mem_toList_iff.1 (hperm.mem_iff.1 hx))
  have hle : ∀ x ∈ entries, x.le e := fun x hx =>
    hgreatest x (Array.mem_toList_iff.1 (hperm.mem_iff.1 hx))
  obtain ⟨earlier, later, rfl⟩ := List.append_of_mem ((hperm.trans hrest).mem_iff.2 List.mem_cons_self)
  obtain ⟨-, hlater, hbefore⟩ := List.pairwise_append.1 hascending
  have hsame (x : HeapEntry) (hx : x ∈ earlier ++ e :: later) : e.item.layout = x.item.layout :=
    (hlayout e (by simp)).trans (hlayout x hx).symm
  -- an earlier one has the smaller number, so that it does not tie
  have hstrict (x : HeapEntry) (hx : x ∈ earlier) : SearchItem.order e.item x.item = .lt := by
    have hnumber := hbefore x hx e List.mem_cons_self
    have hnot := mt (HeapEntry.le_iff.1 (hle x (by simp [hx]))).2 (Nat.not_le.2 hnumber)
    rwa [SearchItem.atLeast_iff_order_ne_lt, not_not] at hnot
  refine ⟨⟨earlier.map HeapEntry.item, later.map HeapEntry.item, by simp, ?_, ?_⟩, h.checks_eq, hheap,
    earlier ++ later, ?_, ?_, ?_, ?_⟩
  · simp only [List.forall_mem_map]
    exact fun x hx => (SearchItem.precedes_eq_ok_true_iff (hsame x (by simp [hx]))).2 (hstrict x hx)
  · simp only [List.forall_mem_map]
    exact fun x hx => (SearchItem.precedes_eq_ok_false_iff (hsame x (by simp [hx]))).2
      (HeapEntry.le_iff.1 (hle x (by simp [hx]))).1
  · exact (List.perm_middle.symm.trans (hperm.trans hrest)).cons_inv
  · have hnot : e.item ∉ earlier.map HeapEntry.item := by
      rw [List.mem_map]
      rintro ⟨x, hx, heq⟩
      have hlt := hstrict x hx
      rw [heq] at hlt
      exact SearchItem.atLeast_iff_order_ne_lt.1 (.refl _) hlt
    rw [List.map_append, List.map_append, List.map_cons, List.erase_append_right _ hnot, List.erase_cons_head]
  · exact hascending.sublist ((List.sublist_cons_self e later).append_left earlier)
  · exact fun x hx => hgiven x (by simp at hx ⊢; tauto)

/-- A heap keeps a line. -/
theorem keeps (checks : List String) : ItemQueue.Keeps checks (Holds checks) where
  push h hitem := h.push hitem
  push_error h hbetween := by
    simp only [ItemQueue.push, HeapFrontier.push, h.checks_eq, hbetween]
  pop_nil {f} h := by
    have hnil : f.heap = #[] := by simpa using h.perm.eq_nil
    simp only [ItemQueue.pop, HeapFrontier.pop, hnil]
    rfl
  pop_cons {f line} h hline := by
    cases hpop : Heap.pop? HeapEntry.le f.heap with
    -- only an empty heap has nothing to serve, but the line goes on
    | none =>
      have hempty := Heap.pop?_eq_none_iff.1 hpop
      have hnil := h.perm
      rw [hempty] at hnil
      exact absurd hnil.nil_eq.symm hline
    | some r =>
      exact ⟨r.1.item, _, by simp only [ItemQueue.pop, HeapFrontier.pop, hpop, Option.map_some], h.pop hpop⟩
  peek {f line} h := by
    cases hpop : Heap.pop? HeapEntry.le f.heap with
    | none =>
      have hempty := Heap.pop?_eq_none_iff.1 hpop
      simp [ItemQueue.pop, ItemQueue.peek, HeapFrontier.pop, HeapFrontier.peek, hempty, Heap.pop?]
    | some r =>
      have hfirst := (h.isHeap.pop?_spec (HeapEntry.compares checks) hpop).1
      simp [ItemQueue.pop, ItemQueue.peek, HeapFrontier.pop, HeapFrontier.peek, hpop, hfirst]
  size {f line} h := by
    rw [← h.perm.length_eq, List.length_map, Array.length_toList]
    rfl
  isEmpty {f line} h := by
    rw [← h.perm.isEmpty_eq, List.isEmpty_map, Array.isEmpty_toList]
    rfl
  items h := h.perm

end Holds

open ItemQueue (ServesInTurn after history)

/-- **The frontier is a stable priority queue.** Take a frontier for any checks, kept in a heap, after any uses,
and the line of the items that were taken in and not yet served, in the order in which they came. The next
use takes an item in exactly if it carries these checks, and serves the item of the line that no other
strictly precedes, the first of those that tie. Nothing was lost and nothing served twice. A frontier kept in
a sorted list gives the same answers and serves the same line. The comparison behind this never fails on
items for these checks and is a total preorder that puts trusted paths first. -/
theorem stable_priority_queue (checks : List String) (calls : List FrontierCall) :
    ServesInTurn (after (empty checks) calls) checks (history (empty checks) calls).waiting ∧
      (history (empty checks) calls).taken.Perm
        ((history (empty checks) calls).served ++ (history (empty checks) calls).waiting) ∧
      history (Frontier.empty checks) calls = history (empty checks) calls ∧
      ServesInTurn (after (Frontier.empty checks) calls) checks (history (empty checks) calls).waiting ∧
      SearchItem.TotallyPreordered checks := by
  have hheap := Holds.keeps checks
  have hlist := Frontier.Sorts.keeps checks
  have hsame := hlist.history_eq hheap (.empty checks) (.empty checks) calls
  refine ⟨hheap.servesInTurn (hheap.after (.empty checks) calls),
    by simpa [FrontierHistory.waiting] using hheap.conserved (.empty checks) calls, hsame,
    hlist.servesInTurn ?_, SearchItem.totallyPreordered checks⟩
  rw [← hsame]
  exact hlist.after (.empty checks) calls

/-- An item on the path with a given integrity, for one check. -/
def sampleItem (name : String) (trusted satisfied : Bool) : SearchItem :=
  { SearchItem.seed ⟨"http://s/", name⟩ ⟨"http://s/", "entry"⟩ [] with
    pathIntegrity := trusted
    pathValidity := [⟨"C0", satisfied⟩] }

example :
    (history (empty ["C0"])
        [.push (sampleItem "low" false true), .push (sampleItem "tie1" true false),
          .push (sampleItem "best" true true), .push (sampleItem "tie2" true false),
          .pop, .pop, .pop, .pop, .pop]).served.map (·.bundleId.localPart) =
      ["best", "tie1", "tie2", "low"] := by decide +kernel

end HeapFrontier

end ProvenanceTrail
