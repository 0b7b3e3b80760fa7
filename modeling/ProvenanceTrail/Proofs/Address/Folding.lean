import Mathlib.Data.List.Basic
import ProvenanceTrail.Address.Folding

/-!
# Folding once is enough

The table of foldings is checked as a whole: no character that replaces another one is in the table itself, so
that a folded name is not changed by folding it again.
-/

namespace ProvenanceTrail.Host

/-- What replaces a character is not replaced itself. -/
theorem fold_of_mem_fold {c d : Char} (h : d ∈ fold c) : fold d = [d] := by
  have hranges : foldingRanges.all (fun r => (List.range (r.last + 1 - r.first)).all fun k =>
      (r.apply (Char.ofNat (r.first + k))).all fun d => fold d == [d]) = true := by
    decide +kernel
  cases hfind : foldingRanges.find? (·.holds c) with
  | none =>
    obtain rfl : d = c := by simpa [fold, hfind] using h
    rw [fold, hfind]
  | some r =>
    obtain ⟨hfirst, hlast⟩ : r.first ≤ c.toNat ∧ c.toNat ≤ r.last := by
      simpa [FoldingRange.holds] using List.find?_some hfind
    have hmem : d ∈ r.apply c := by simpa [fold, hfind] using h
    have hplace : c.toNat - r.first ∈ List.range (r.last + 1 - r.first) := List.mem_range.2 (by omega)
    have hc : Char.ofNat (r.first + (c.toNat - r.first)) = c := by
      rw [Nat.add_sub_cancel' hfirst, Char.ofNat_toNat]
    have hall := List.all_eq_true.1 (List.all_eq_true.1 hranges r (List.mem_of_find?_eq_some hfind)) _ hplace
    rw [hc] at hall
    exact beq_iff_eq.1 (List.all_eq_true.1 hall d hmem)

/-- A folded name is not changed by folding it again. -/
theorem flatMap_fold_flatMap_fold (cs : List Char) : (cs.flatMap fold).flatMap fold = cs.flatMap fold := by
  rw [List.flatMap_assoc]
  refine List.flatMap_congr fun c _ => ?_
  rw [List.flatMap_congr fun d hd => fold_of_mem_fold hd]
  simp

end ProvenanceTrail.Host
