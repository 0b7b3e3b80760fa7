import Mathlib.Order.Fin.Basic
import ProvenanceTrail.Search.Heap

/-!
# Binary heaps

The comparison of a heap need not be an order on everything that there is: it is enough that it compares
the elements that are put in (`Heap.Compares`). Adding an element and taking one out keep the heap ordered
(`Heap.ordered_push`, `Heap.pop?_spec`), and what is taken out is at least as great as all that stay. Both
move one element, and what holds meanwhile is `Heap.OrderedAround`: all pairs that this element is no part
of are in order, and so are those below it with the one above it.
-/

namespace ProvenanceTrail.Heap

variable {α : Type} {n : Nat}

/-- A comparison of the elements with a property: one of two is not greater than the other, and not being
greater is transitive. -/
structure Compares (le : α → α → Bool) (P : α → Prop) : Prop where
  total : ∀ {x y}, P x → P y → le x y ∨ le y x
  trans : ∀ {x y z}, P x → P y → P z → le x y → le y z → le x z

/-- All elements have a property. -/
def All (P : α → Prop) (a : Vector α n) : Prop := ∀ i : Fin n, P (a.get i)

/-- A position stands below another one. -/
def Below (i k : Fin n) : Prop := 0 < i.val ∧ parent i = k

/-- No element is greater than the one that it stands below. -/
def Ordered (le : α → α → Bool) (a : Vector α n) : Prop := ∀ i k : Fin n, Below i k → le (a.get i) (a.get k)

/-- Elements are in order around the one at a position: all pairs without it, and those below it with the
one above it. -/
structure OrderedAround (le : α → α → Bool) (a : Vector α n) (k : Fin n) : Prop where
  apart : ∀ i j : Fin n, Below i j → i ≠ k → j ≠ k → le (a.get i) (a.get j)
  across : ∀ i j : Fin n, Below i k → Below k j → le (a.get i) (a.get j)

variable {le : α → α → Bool} {P : α → Prop} {a : Vector α n} {i j k : Fin n}

/-! ## Positions -/

/-- A place stands behind the one it is below. -/
theorem Below.lt (h : Below i k) : k < i := by
  obtain ⟨hpos, hparent⟩ := h
  rw [parent] at hparent
  exact Fin.lt_def.2 (by omega)

/-- A position stands below one other at most. -/
theorem Below.unique (h : Below i j) (h' : Below i k) : j = k := Fin.ext (h.2.symm.trans h'.2)

/-- Below a place are the two at twice its position. -/
theorem below_iff : Below i k ↔ i.val = 2 * k.val + 1 ∨ i.val = 2 * k.val + 2 := by
  rw [Below, parent]
  omega

/-- Swapping two elements changes what stands at these two positions. -/
theorem get_swap (a : Vector α n) (i j k : Fin n) :
    (swap a i j).get k = if k = i then a.get j else if k = j then a.get i else a.get k := by
  simp only [swap, get_eq_getElem, Vector.getElem_swap, Fin.ext_iff]

/-- A swap keeps what all entries have. -/
theorem All.swap (h : All P a) (i j : Fin n) : All P (swap a i j) := by
  intro k
  rw [get_swap]
  split_ifs
  · exact h j
  · exact h i
  · exact h k

/-- The first element is at least as great as every other one. -/
theorem Ordered.le_first (hle : Compares le P) (hall : All P a) (h : Ordered le a) (hn : 0 < n) (i : Fin n) :
    le (a.get i) (a.get ⟨0, hn⟩) := by
  obtain ⟨i, hi⟩ := i
  induction i using Nat.strong_induction_on with
  | _ i ih =>
    by_cases hzero : i = 0
    · subst hzero
      exact (hle.total (hall _) (hall _)).elim id id
    · have hlt : parent i < i := by
        unfold parent
        omega
      have habove : Below ⟨i, hi⟩ ⟨parent i, hlt.trans hi⟩ := ⟨Nat.pos_of_ne_zero hzero, rfl⟩
      exact hle.trans (hall _) (hall _) (hall _) (h _ _ habove) (ih _ hlt _)

/-! ## Moving up -/

/-- Sifting up only moves entries. -/
theorem siftUp_perm (le : α → α → Bool) (a : Vector α n) (i : Fin n) : (siftUp le a i).Perm a := by
  fun_induction siftUp le a i with
  | case1 | case2 => exact .refl _
  | case3 a i _ above _ ih => exact ih.trans (Vector.swap_perm ..)

/-- An element that is greater than the one above it changes places with that one. -/
theorem OrderedAround.swap_up (hle : Compares le P) (hall : All P a) (h : OrderedAround le a i)
    (hik : Below i k) (hgreater : ¬ le (a.get i) (a.get k)) :
    OrderedAround le (swap a i k) k ∧ ∀ j, Below j k → le ((swap a i k).get j) ((swap a i k).get k) := by
  have hne : k ≠ i := hik.lt.ne
  have hki : le (a.get k) (a.get i) := (hle.total (hall k) (hall i)).resolve_right hgreater
  -- what stood below the one above belongs below the one that moved up
  have hsibling {j : Fin n} (hj : Below j k) (hji : j ≠ i) : le (a.get j) (a.get k) :=
    h.apart j k hj hji hne
  have htop {m : Fin n} (hm : Below k m) : le (a.get k) (a.get m) :=
    h.apart k m hm hne (ne_of_lt (hm.lt.trans hik.lt))
  refine ⟨⟨fun j m hjm hjk hmk => ?_, fun j m hj hm => ?_⟩, fun j hj => ?_⟩
  · rw [get_swap, get_swap, if_neg hjk, if_neg hmk]
    by_cases hji : j = i
    · exact absurd (hjm.unique (hji ▸ hik)) hmk
    · rw [if_neg hji]
      by_cases hmi : m = i
      · rw [if_pos hmi]
        exact h.across j k (hmi ▸ hjm) hik
      · rw [if_neg hmi]
        exact h.apart j m hjm hji hmi
  · have hmk : m ≠ k := hm.lt.ne
    have hmi : m ≠ i := ne_of_lt (hm.lt.trans hik.lt)
    rw [get_swap a i k m, if_neg hmi, if_neg hmk, get_swap]
    by_cases hji : j = i
    · rw [if_pos hji]
      exact htop hm
    · rw [if_neg hji, if_neg hj.lt.ne']
      exact hle.trans (hall _) (hall _) (hall _) (hsibling hj hji) (htop hm)
  · rw [get_swap a i k k, if_neg hne, if_pos rfl, get_swap]
    by_cases hji : j = i
    · rw [if_pos hji]
      exact hki
    · rw [if_neg hji, if_neg hj.lt.ne']
      exact hle.trans (hall _) (hall _) (hall _) (hsibling hj hji) hki

/-- Moving up an element that is at least as great as those below it leaves the heap in order. -/
theorem ordered_siftUp (hle : Compares le P) (hall : All P a) (h : OrderedAround le a i)
    (hbelow : ∀ j, Below j i → le (a.get j) (a.get i)) : Ordered le (siftUp le a i) := by
  -- in order around the element and below it: what is left are pairs with the one above it
  have hdone {a : Vector α n} {i : Fin n} (h : OrderedAround le a i)
      (hbelow : ∀ j, Below j i → le (a.get j) (a.get i)) (habove : ∀ k, Below i k → le (a.get i) (a.get k)) :
      Ordered le a := by
    intro j m hjm
    by_cases hj : j = i
    · subst hj
      exact habove m hjm
    · by_cases hm : m = i
      · subst hm
        exact hbelow j hjm
      · exact h.apart j m hjm hj hm
  fun_induction siftUp le a i with
  | case1 a i hzero => exact hdone h hbelow fun k hk => absurd hzero hk.1.ne'
  | case2 a i hzero above hstop =>
    refine hdone h hbelow fun k hk => ?_
    obtain rfl : above = k := Fin.ext hk.2
    exact hstop
  | case3 a i hzero above hgreater ih =>
    obtain ⟨haround, hbelow'⟩ := h.swap_up hle hall ⟨Nat.pos_of_ne_zero hzero, rfl⟩ hgreater
    exact ih (hall.swap i above) haround hbelow'

/-! ## Moving down -/

/-- Sifting to the bottom only moves entries. -/
theorem siftToBottom_perm (le : α → α → Bool) (a : Vector α n) (i : Fin n) :
    (siftToBottom le a i).1.Perm a := by
  fun_induction siftToBottom le a i with
  | case1 a i _ left right _ ih | case2 a i _ left right _ ih => exact ih.trans (Vector.swap_perm ..)
  | case3 a i _ hleft left => exact Vector.swap_perm i.isLt left.isLt
  | case4 => exact .refl _

/-- An element changes places with one below it that is at least as great as all below it. -/
theorem OrderedAround.swap_down (h : OrderedAround le a i) (hki : Below k i)
    (hgreatest : ∀ j, Below j i → j ≠ k → le (a.get j) (a.get k)) : OrderedAround le (swap a i k) k := by
  have hne : i ≠ k := hki.lt.ne
  refine ⟨fun j m hjm hjk hmk => ?_, fun j m hj hm => ?_⟩
  · rw [get_swap, get_swap, if_neg hjk, if_neg hmk]
    by_cases hji : j = i
    · subst hji
      rw [if_pos rfl, if_neg hjm.lt.ne]
      exact h.across k m hki hjm
    · rw [if_neg hji]
      by_cases hmi : m = i
      · rw [if_pos hmi]
        exact hgreatest j (hmi ▸ hjm) hjk
      · rw [if_neg hmi]
        exact h.apart j m hjm hji hmi
  · obtain rfl : i = m := hki.unique hm
    have hji : j ≠ i := (hki.lt.trans hj.lt).ne'
    rw [get_swap a i k i, if_pos rfl, get_swap, if_neg hji, if_neg hj.lt.ne']
    exact h.apart j k hj hji hne.symm

/-- An element that was moved down has none below it. -/
theorem orderedAround_siftToBottom (hle : Compares le P) (hall : All P a) (h : OrderedAround le a i) :
    OrderedAround le (siftToBottom le a i).1 (siftToBottom le a i).2 ∧
      ∀ j, ¬ Below j (siftToBottom le a i).2 := by
  fun_induction siftToBottom le a i with
  -- both places below exist, and the right one holds the greater element
  | case1 a i hright left right hless ih =>
    refine ih (hall.swap i right) (h.swap_down (below_iff.2 (.inr rfl)) fun j hj hne => ?_)
    obtain rfl : j = left := Fin.ext ((below_iff.1 hj).resolve_right fun heq => hne (Fin.ext heq))
    exact hless
  | case2 a i hright left right hgreater ih =>
    refine ih (hall.swap i left) (h.swap_down (below_iff.2 (.inl rfl)) fun j hj hne => ?_)
    obtain rfl : j = right := Fin.ext ((below_iff.1 hj).resolve_left fun heq => hne (Fin.ext heq))
    exact (hle.total (hall _) (hall _)).resolve_left hgreater
  -- the last place has the only one below
  | case3 a i hright hleft left =>
    refine ⟨h.swap_down (below_iff.2 (.inl rfl)) fun j hj hne => ?_, fun j hj => ?_⟩
    · rcases below_iff.1 hj with heq | heq
      · exact absurd (Fin.ext heq) hne
      · exact absurd j.isLt (by omega)
    · have hpos := below_iff.1 hj
      have hlt := j.isLt
      simp only [left] at hpos
      omega
  | case4 a i hright hleft =>
    refine ⟨h, fun j hj => ?_⟩
    have hpos := below_iff.1 hj
    have hlt := j.isLt
    simp only at hpos
    omega

/-- Settling only moves entries. -/
theorem settle_perm (le : α → α → Bool) (a : Vector α n) (hn : 0 < n) : (settle le a hn).Perm a :=
  (siftUp_perm le _ _).trans (siftToBottom_perm le a ⟨0, hn⟩)

/-- What all entries have does not depend on their order. -/
theorem all_of_perm {b : Vector α n} (h : All P a) (hperm : b.Perm a) : All P b := by
  intro i
  obtain ⟨j, hj, heq⟩ := Vector.mem_iff_getElem.1 (hperm.mem_iff.1 (Vector.getElem_mem i.isLt))
  have hP : P (getElem a j hj) := h ⟨j, hj⟩
  rwa [heq] at hP

/-- A heap whose first element was replaced is put in order. -/
theorem ordered_settle (hle : Compares le P) (hall : All P a) {hn : 0 < n}
    (h : OrderedAround le a ⟨0, hn⟩) : Ordered le (settle le a hn) := by
  obtain ⟨haround, hnone⟩ := orderedAround_siftToBottom hle hall h
  exact ordered_siftUp hle (all_of_perm hall (siftToBottom_perm le a _)) haround
    fun j hj => absurd hj (hnone j)

/-! ## Adding and taking out -/

/-- A heap of elements with a property. -/
structure IsHeap (le : α → α → Bool) (P : α → Prop) (a : Array α) : Prop where
  all : ∀ x ∈ a, P x
  ordered : Ordered le (Vector.mk a rfl)

/-- The empty array is a heap. -/
theorem isHeap_empty (le : α → α → Bool) (P : α → Prop) : IsHeap le P #[] :=
  ⟨by simp, fun i => i.elim0⟩

/-- Pushing adds the entry and only moves the others. -/
theorem push_perm (le : α → α → Bool) (a : Array α) (x : α) : (push le a x).Perm (a.push x) :=
  (siftUp_perm le (Vector.mk (a.push x) rfl) ⟨a.size, by simp⟩).toArray

/-- What all entries of an array have, all entries of its vector have. -/
theorem all_mk {a : Array α} (h : ∀ x ∈ a, P x) : All P (Vector.mk a rfl) :=
  fun i => h _ (Array.getElem_mem i.isLt)

/-- An ordered vector makes a heap. -/
theorem isHeap_toArray {v : Vector α n} (hall : ∀ x ∈ v.toArray, P x) (h : Ordered le v) :
    IsHeap le P v.toArray := by
  obtain ⟨a, rfl⟩ := v
  exact ⟨hall, h⟩

/-- A heap stays one when an element is added. -/
theorem IsHeap.push {a : Array α} {x : α} (hle : Compares le P) (h : IsHeap le P a) (hx : P x) :
    IsHeap le P (push le a x) := by
  have hall : ∀ y ∈ a.push x, P y := by
    intro y hy
    rcases Array.mem_push.1 hy with hy | rfl
    · exact h.all y hy
    · exact hx
  have hlast : ∀ j : Fin (a.push x).size, ¬ Below j ⟨a.size, by simp⟩ := by
    intro j hj
    have := hj.lt
    have := j.isLt
    simp only [Array.size_push, Fin.lt_def] at *
    omega
  refine isHeap_toArray (fun y hy => hall y ((push_perm le a x).mem_iff.1 hy)) ?_
  refine ordered_siftUp hle (all_mk hall) ⟨fun i j hij hi hj => ?_, fun i j hi _ => absurd hi (hlast i)⟩
    fun j hj => absurd hj (hlast j)
  -- without the last element it is the heap from before
  have hlt {i : Fin (a.push x).size} (hi : i ≠ ⟨a.size, by simp⟩) : i.val < a.size := by
    have := i.isLt
    have := Fin.val_ne_of_ne hi
    simp only [Array.size_push] at *
    omega
  have hold := h.ordered ⟨i, hlt hi⟩ ⟨j, hlt hj⟩ hij
  simpa [get_eq_getElem, Array.getElem_push_lt (hlt hi), Array.getElem_push_lt (hlt hj)] using hold

/-- Nothing is popped just from the empty heap. -/
theorem pop?_eq_none_iff {a : Array α} : pop? le a = none ↔ a = #[] := by
  rw [pop?, Option.map_eq_none_iff, Array.back?_eq_none_iff]

/-- A heap without its last element, which takes the place of the first one, is in order around it. -/
theorem Ordered.orderedAround_set {a : Array α} {last : α} (h : Ordered le (Vector.mk (a.push last) rfl))
    (hpos : 0 < a.size) :
    OrderedAround le (Vector.mk (a.set 0 last hpos) (Array.size_set hpos)) ⟨0, hpos⟩ := by
  refine ⟨fun i j hij hi hj => ?_, fun i j _ hj => absurd hj.1 (lt_irrefl 0)⟩
  have hi' : 0 ≠ i.val := fun hzero => hi (Fin.ext hzero.symm)
  have hj' : 0 ≠ j.val := fun hzero => hj (Fin.ext hzero.symm)
  have hlt (k : Fin a.size) : k.val < (a.push last).size := by
    rw [Array.size_push]
    exact Nat.lt_succ_of_lt k.isLt
  have hold := h ⟨i, hlt i⟩ ⟨j, hlt j⟩ hij
  simpa [get_eq_getElem, Array.getElem_push_lt, hi', hj'] using hold

/-- Popping takes the last entry and lets it replace the first. -/
theorem pop?_push (le : α → α → Bool) (a : Array α) (last : α) :
    pop? le (a.push last) = some (replaceFirst le a last) := by
  rw [pop?, Array.back?_push, Array.pop_push, Option.map_some]

/-- What is taken out is the first and greatest element; the others stay, as a heap. -/
theorem IsHeap.pop?_spec {a b : Array α} {x : α} (hle : Compares le P) (h : IsHeap le P a)
    (hpop : pop? le a = some (x, b)) :
    a[0]? = some x ∧ (∀ y ∈ a, le y x) ∧ a.toList.Perm (x :: b.toList) ∧ IsHeap le P b := by
  have hfirst (hpos : 0 < a.size) : ∀ y ∈ a, le y a[0] := by
    intro y hy
    obtain ⟨i, hi, rfl⟩ := Array.mem_iff_getElem.1 hy
    exact h.ordered.le_first hle (all_mk h.all) hpos ⟨i, hi⟩
  obtain ⟨last, hlast, -⟩ := Option.map_eq_some_iff.1 hpop
  obtain ⟨front, rfl⟩ := Array.back?_eq_some_iff.1 hlast
  rw [pop?_push, replaceFirst, Option.some_inj] at hpop
  split_ifs at hpop with hpos
  · -- the last element goes to the front and is settled there
    cases hpop
    have hall : ∀ y ∈ front.set 0 last hpos, P y := by
      intro y hy
      rcases Array.mem_or_eq_of_mem_set hy with hy | rfl
      · exact h.all y (Array.mem_push_of_mem _ hy)
      · exact h.all y Array.mem_push_self
    have hperm := (settle_perm le (Vector.mk (front.set 0 last hpos) (Array.size_set hpos)) hpos).toArray
    refine ⟨by simp [Array.getElem_push_lt hpos], by simpa [Array.getElem_push_lt hpos] using hfirst (by simp),
      ?_, isHeap_toArray (fun y hy => hall y (hperm.mem_iff.1 hy))
        (ordered_settle hle (P := P) (fun i => hall _ (Array.getElem_mem _)) (h.ordered.orderedAround_set hpos))⟩
    obtain ⟨first, rest, hfront⟩ := List.exists_cons_of_length_pos (l := front.toList) (by simpa using hpos)
    have hset : (front.set 0 last hpos).toList = last :: rest := by simp [hfront]
    have hhead : front[0] = first := by
      rw [← Array.getElem_toList, List.getElem_of_eq hfront]
      rfl
    refine .trans ?_ ((Array.perm_iff_toList_perm.1 hperm).symm.cons _)
    rw [Array.toList_push, hfront, hset, hhead]
    exact (List.perm_append_singleton last rest).cons first
  · cases hpop
    obtain rfl : b = #[] := by simpa using hpos
    exact ⟨rfl, by simpa using hfirst (by simp), by simp, isHeap_empty le P⟩

end ProvenanceTrail.Heap
