import ProvenanceTrail.Proofs.Search.Order

/-!
# The frontier as a queue

The frontier keeps its items sorted by credibility, and a new item goes behind every item that is at
least as credible. For items of one layout, adding an item never fails, so it adds exactly that item.
-/

namespace ProvenanceTrail.Frontier

open SearchItem (AtLeast order)

/-- Items in the order in which a frontier serves them. -/
def Sorted (items : List SearchItem) : Prop := items.Pairwise AtLeast

/-- Inserting adds the item and keeps the others. -/
theorem insert_perm (item : SearchItem) (items : List SearchItem) :
    (insert item items).Perm (item :: items) := by
  induction items with
  | nil => exact .refl _
  | cons other rest ih =>
    unfold insert
    split
    · exact .refl _
    · exact (ih.cons other).trans (.swap item other rest)

/-- An item waits after an insertion just if it is the new one or waited before. -/
theorem mem_insert {item x : SearchItem} {items : List SearchItem} :
    x ∈ insert item items ↔ x = item ∨ x ∈ items := by
  rw [(insert_perm item items).mem_iff, List.mem_cons]

/-- Inserting keeps the items sorted, when all of them are for the same checks. -/
theorem sorted_insert {checks : List String} {item : SearchItem} {items : List SearchItem}
    (hitem : item.layout = checks) (hitems : ∀ x ∈ items, x.layout = checks) (h : Sorted items) :
    Sorted (insert item items) := by
  induction items with
  | nil => exact List.pairwise_singleton _ _
  | cons other rest ih =>
    obtain ⟨hother, hrest⟩ := List.pairwise_cons.1 h
    have hlayout : other.layout = checks := hitems other (by simp)
    unfold insert
    split
    · rename_i hlt
      have hbefore : AtLeast item other := SearchItem.atLeast_of_order_lt hlt
      refine List.pairwise_cons.2 ⟨?_, h⟩
      intro x hx
      rcases List.mem_cons.1 hx with rfl | hx
      · exact hbefore
      · -- what is behind `other` is at most as credible as `other`
        exact hbefore.trans (hitem.trans hlayout.symm)
          (hlayout.trans (hitems x (by simp [hx])).symm) (hother x hx)
    · rename_i hlt
      refine List.pairwise_cons.2 ⟨?_, ih (fun x hx => hitems x (by simp [hx])) hrest⟩
      intro x hx
      rcases mem_insert.1 hx with rfl | hx
      · exact SearchItem.atLeast_iff_order_ne_lt.2 hlt
      · exact hother x hx

/-- Items inserted one after the other. -/
def insertAll (new items : List SearchItem) : List SearchItem :=
  new.foldl (fun items item => insert item items) items

/-- Items are inserted one after the other. -/
theorem insertAll_cons (item : SearchItem) (new items : List SearchItem) :
    insertAll (item :: new) items = insertAll new (insert item items) := rfl

/-- An item waits after insertions just if it is a new one or waited before. -/
theorem mem_insertAll {x : SearchItem} {new items : List SearchItem} :
    x ∈ insertAll new items ↔ x ∈ new ∨ x ∈ items := by
  induction new generalizing items with
  | nil => simp [insertAll]
  | cons item rest ih =>
    rw [insertAll_cons, ih, mem_insert, List.mem_cons]
    tauto

/-- Insertions keep the items sorted. -/
theorem sorted_insertAll {checks : List String} {new items : List SearchItem}
    (hnew : ∀ x ∈ new, x.layout = checks) (hitems : ∀ x ∈ items, x.layout = checks)
    (h : Sorted items) : Sorted (insertAll new items) := by
  induction new generalizing items with
  | nil => exact h
  | cons item rest ih =>
    have hitem : item.layout = checks := hnew item (by simp)
    rw [insertAll_cons]
    refine ih (fun x hx => hnew x (by simp [hx])) ?_ (sorted_insert hitem hitems h)
    intro x hx
    rcases mem_insert.1 hx with rfl | hx
    · exact hitem
    · exact hitems x hx

/-- An item with the checks of the frontier is always taken in. -/
theorem push_eq_ok {f : Frontier} {item : SearchItem} (h : item.layout = f.checks) :
    f.push item = .ok { f with items := insert item f.items } := by
  unfold push
  rw [LayoutError.between?_eq_none_iff.2 h.symm]

end ProvenanceTrail.Frontier
