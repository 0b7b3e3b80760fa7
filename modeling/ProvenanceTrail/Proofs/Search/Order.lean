import Mathlib.Data.List.Forall2
import ProvenanceTrail.Search.Frontier

/-!
# The order of credibility

On items that carry outcomes for the same checks, `SearchItem.compare` never fails and is a total
preorder: the lexicographic order of the ranks, a satisfied position before one that is not. `AtLeast` is
that preorder as a relation. The paths through a bundle only lose by it, since outcomes are joined by
conjunction position by position (`atLeast_of_implied`), so nothing that a bundle leads to outranks the
item through which the bundle was reached.
-/

namespace ProvenanceTrail

namespace LayoutError

/-- Two lists of one length differ nowhere just if they are equal. -/
theorem atFrom?_eq_none_iff (position : Nat) {left right : List String}
    (hlen : left.length = right.length) : atFrom? position left right = none ↔ left = right := by
  induction left generalizing right position with
  | nil =>
    cases right with
    | nil => simp [atFrom?]
    | cons b bs => simp at hlen
  | cons a as ih =>
    cases right with
    | nil => simp at hlen
    | cons b bs =>
      have htail : as.length = bs.length := by simpa using hlen
      by_cases hab : a = b
      · simp [atFrom?, hab, ih (position + 1) htail]
      · simp [atFrom?, hab]

/-- Two lists of checks differ nowhere exactly when they are the same list. -/
theorem between?_eq_none_iff {left right : List String} :
    between? left right = none ↔ left = right := by
  unfold between?
  by_cases hlen : left.length = right.length
  · simp [hlen, atFrom?_eq_none_iff 0 hlen]
  · simp only [hlen, ne_eq, not_false_eq_true, if_true, reduceCtorEq, false_iff]
    exact fun h => hlen (congrArg List.length h)

end LayoutError

namespace SearchItem

/-! ## Ranks -/

/-- A rank ties with itself. -/
theorem compareRanks_self (a : List Bool) : compareRanks a a = .eq := by
  induction a with
  | nil => rfl
  | cons x xs ih => simpa [compareRanks] using ih

/-- Comparing ranks the other way round reverses the result. -/
theorem compareRanks_swap (a b : List Bool) : (compareRanks a b).swap = compareRanks b a := by
  induction a generalizing b with
  | nil => cases b <;> rfl
  | cons x xs ih =>
    cases b with
    | nil => rfl
    | cons y ys =>
      by_cases hxy : x = y
      · simp [compareRanks, hxy, ih]
      · -- the first position decides, one way or the other
        cases x <;> cases y <;> simp_all [compareRanks]

/-- The comparison at the first position decides, unless the ranks agree there. -/
theorem compareRanks_cons_ne_gt (x y : Bool) (xs ys : List Bool) :
    compareRanks (x :: xs) (y :: ys) ≠ .gt ↔
      (x = true ∧ y = false) ∨ (x = y ∧ compareRanks xs ys ≠ .gt) := by
  cases x <;> cases y <;> simp [compareRanks]

/-- The comparison of ranks of one length is transitive. -/
theorem compareRanks_trans {a b c : List Bool} (hab : a.length = b.length)
    (hbc : b.length = c.length) (h₁ : compareRanks a b ≠ .gt) (h₂ : compareRanks b c ≠ .gt) :
    compareRanks a c ≠ .gt := by
  -- the ranks have one length, so none of them ends before a position decides
  induction a generalizing b c with
  | nil =>
    cases c with
    | nil => simp [compareRanks]
    | cons z zs => simp [compareRanks]
  | cons x xs ih =>
    cases b with
    | nil => simp at hab
    | cons y ys =>
      cases c with
      | nil => simp at hbc
      | cons z zs =>
        rw [compareRanks_cons_ne_gt] at h₁ h₂ ⊢
        rcases h₁ with ⟨hx, hy⟩ | ⟨hxy, htail₁⟩
        · rcases h₂ with ⟨hy', _⟩ | ⟨hyz, _⟩
          · simp [hy] at hy'
          · exact Or.inl ⟨hx, hyz ▸ hy⟩
        · subst hxy
          rcases h₂ with ⟨hx, hz⟩ | ⟨hxz, htail₂⟩
          · exact Or.inl ⟨hx, hz⟩
          · exact Or.inr ⟨hxz, ih (by simpa using hab) (by simpa using hbc) htail₁ htail₂⟩

/-- A rank in which every satisfied position is satisfied in another rank too is not the better one. -/
theorem compareRanks_of_implied {a b : List Bool}
    (h : List.Forall₂ (fun x y => y = true → x = true) a b) : compareRanks a b ≠ .gt := by
  induction h with
  | nil => simp [compareRanks]
  | @cons x y xs ys hxy _ ih =>
    rw [compareRanks_cons_ne_gt]
    cases x with
    | true => cases y with
      | true => exact Or.inr ⟨rfl, ih⟩
      | false => exact Or.inl ⟨rfl, rfl⟩
    | false => cases y with
      | true => exact absurd (hxy rfl) (by simp)
      | false => exact Or.inr ⟨rfl, ih⟩

/-! ## Items -/

/-- An item is at least as credible as another: the other one is not served strictly before it. -/
def AtLeast (a b : SearchItem) : Prop := order a b ≠ .gt

instance (a b : SearchItem) : Decidable (AtLeast a b) := inferInstanceAs (Decidable (_ ≠ _))

/-- A rank has one place more than the layout. -/
@[simp] theorem length_rank (a : SearchItem) : a.rank.length = a.layout.length + 1 := by
  simp [rank, layout]

/-- The first item has the layout of the checks asked for. -/
theorem layout_seed (bundle entry : QualifiedName) (checks : List String) :
    (seed bundle entry checks).layout = checks := by
  simp [seed, layout, Function.comp_def]

/-- Comparing items the other way round reverses the result. -/
theorem order_swap (a b : SearchItem) : (order a b).swap = order b a := compareRanks_swap _ _

/-- The first of two items is at least as credible unless the second is strictly more so. -/
theorem atLeast_iff_order_ne_lt {a b : SearchItem} : AtLeast a b ↔ order b a ≠ .lt := by
  rw [AtLeast, ← order_swap a b]
  cases order a b <;> simp [Ordering.swap]

/-- An item is at least as credible as itself. -/
theorem AtLeast.refl (a : SearchItem) : AtLeast a a := by
  simp [AtLeast, order, compareRanks_self]

/-- Credibility is transitive among items of one layout. -/
theorem AtLeast.trans {a b c : SearchItem} (hab : a.layout = b.layout) (hbc : b.layout = c.layout)
    (h₁ : AtLeast a b) (h₂ : AtLeast b c) : AtLeast a c :=
  compareRanks_trans (by simp [hab]) (by simp [hbc]) h₁ h₂

/-- An item that comes first is at least as credible. -/
theorem atLeast_of_order_lt {a b : SearchItem} (h : order a b = .lt) : AtLeast a b := by
  simp [AtLeast, h]

/-- What strictly precedes an item also strictly precedes all that the item is at least as credible as. -/
theorem order_lt_of_lt_of_atLeast {a b c : SearchItem} (hab : a.layout = b.layout)
    (hbc : b.layout = c.layout) (h₁ : order a b = .lt) (h₂ : AtLeast b c) : order a c = .lt := by
  by_contra h
  have hca : AtLeast c a := atLeast_iff_order_ne_lt.2 h
  exact atLeast_iff_order_ne_lt.1 (h₂.trans hbc (hbc.symm.trans hab.symm) hca) h₁

/-- Two items tie exactly when each is at least as credible as the other. -/
theorem order_eq_iff {a b : SearchItem} : order a b = .eq ↔ AtLeast a b ∧ AtLeast b a := by
  rw [AtLeast, AtLeast, ← order_swap a b]
  cases order a b <;> simp [Ordering.swap]

/-- Items for the same checks can always be compared. -/
theorem compare_eq_ok {a b : SearchItem} (h : a.layout = b.layout) : compare a b = .ok (order a b) := by
  unfold compare
  rw [LayoutError.between?_eq_none_iff.2 h]

/-- Among items of one layout, one precedes another just if it comes first. -/
theorem precedes_eq_ok_true_iff {a b : SearchItem} (h : a.layout = b.layout) :
    precedes a b = .ok true ↔ order a b = .lt := by
  rw [precedes, compare_eq_ok h]
  cases order a b <;> simp [Except.map]

/-- For items with the same checks, `AtLeast` says that the other one does not precede. -/
theorem precedes_eq_ok_false_iff {a b : SearchItem} (h : a.layout = b.layout) :
    precedes b a = .ok false ↔ AtLeast a b := by
  rw [precedes, compare_eq_ok h.symm, atLeast_iff_order_ne_lt]
  cases order b a <;> simp [Except.map]

/-- An item whose path lost nothing that the path of another one has kept is at least as credible. -/
theorem atLeast_of_implied {a b : SearchItem} (hpath : b.pathIntegrity = true → a.pathIntegrity = true)
    (hchecks : List.Forall₂ (fun x y => y = true → x = true)
      (a.pathValidity.map CheckOutcome.satisfied) (b.pathValidity.map CheckOutcome.satisfied)) :
    AtLeast a b :=
  compareRanks_of_implied (.cons hpath hchecks)

end SearchItem

namespace CheckOutcome

/-- Going on through a bundle keeps the checks of a path and their order. -/
@[simp] theorem map_check_combine (inherited own : List CheckOutcome) :
    (combine inherited own).map CheckOutcome.check = inherited.map CheckOutcome.check := by
  simp [combine, Function.comp_def]

/-- What a path satisfies after a bundle it satisfied before. -/
theorem combine_implies (inherited own : List CheckOutcome) :
    List.Forall₂ (fun x y => y = true → x = true)
      (inherited.map CheckOutcome.satisfied) ((combine inherited own).map CheckOutcome.satisfied) := by
  induction inherited with
  | nil => exact .nil
  | cons o rest ih =>
    refine .cons ?_ ih
    intro h
    exact (Bool.and_eq_true_iff.1 h).1

end CheckOutcome

end ProvenanceTrail
