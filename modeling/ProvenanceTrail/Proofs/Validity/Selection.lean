import Mathlib.Data.List.Nodup
import ProvenanceTrail.Validity.Registry

/-!
# Selecting checks

`ValidityRegistry.selectAfter` adds checks to those selected before, so that what it gives is described
relative to them: the ids that were there, and then the other ones, each at its first occurrence
(`map_id_of_selectAfter`). A check that was selected is registered, so passing over its id hides no error,
and the selection fails at the first id that is not registered (`selectAfter_eq_error_iff`).
-/

namespace ProvenanceTrail.ValidityRegistry

variable {r : ValidityRegistry} {ids : List String} {selected checks : List ValidityCheck}

/-- The check found under an id has that id. -/
theorem id_of_find? {id : String} {c : ValidityCheck} (h : r.find? id = some c) : c.id = id := by
  obtain ⟨entry, hentry, rfl⟩ := Option.map_eq_some_iff.1 h
  have hkey : entry.1 = id := by simpa using List.find?_some hentry
  exact (r.keyed entry (List.mem_of_find?_eq_some hentry)).trans hkey

/-- An id has no check exactly when it is not registered. -/
theorem find?_eq_none_iff {id : String} : r.find? id = none ↔ id ∉ r.ids := by
  rw [find?, Text.meaning?, Option.map_eq_none_iff, List.find?_eq_none, ids, List.mem_map]
  constructor
  · rintro h ⟨entry, hentry, rfl⟩
    exact h entry hentry (beq_self_eq_true entry.1)
  · intro h entry hentry hsame
    exact h ⟨entry, hentry, eq_of_beq hsame⟩

/-! ## What is selected -/

/-- No check is selected twice. -/
theorem nodup_of_selectAfter (hselected : (selected.map ValidityCheck.id).Nodup)
    (h : r.selectAfter selected ids = .ok checks) : (checks.map ValidityCheck.id).Nodup := by
  induction ids generalizing selected with
  | nil =>
    obtain rfl := Except.ok.inj h
    exact hselected
  | cons id rest ih =>
    rw [selectAfter] at h
    split at h
    · exact ih hselected h
    · rename_i hnew
      split at h
      · cases h
      · rename_i c hc
        refine ih ?_ h
        rw [List.map_append, List.map_singleton]
        refine List.nodup_append.2 ⟨hselected, List.pairwise_singleton _ _, ?_⟩
        intro a ha b hb hab
        obtain rfl := List.mem_singleton.1 hb
        obtain ⟨c', hc', hid⟩ := List.mem_map.1 ha
        refine hnew (List.any_eq_true.2 ⟨c', hc', ?_⟩)
        simp [hid, hab, id_of_find? hc]

/-- A selection has each check once. -/
theorem nodup_of_select (h : r.select ids = .ok checks) : (checks.map ValidityCheck.id).Nodup :=
  nodup_of_selectAfter (by simp) h

/-- The checks selected before stay in front, and behind them come the other ids in the order of their first
occurrence. -/
theorem map_id_of_selectAfter (h : r.selectAfter selected ids = .ok checks) :
    checks.map ValidityCheck.id = selected.map ValidityCheck.id ++
      (ids.removeAll (selected.map ValidityCheck.id)).eraseDups := by
  induction ids generalizing selected with
  | nil =>
    obtain rfl := Except.ok.inj h
    simp
  | cons id rest ih =>
    have hcontains : (selected.any fun c => c.id == id) =
        (selected.map ValidityCheck.id).contains id := by
      rw [List.contains_eq_any_beq, List.any_map]
      exact List.any_congr rfl fun c => Bool.beq_comm
    rw [selectAfter, hcontains] at h
    rw [List.cons_removeAll]
    cases hold : (selected.map ValidityCheck.id).contains id with
    | true =>
      rw [hold, if_pos rfl] at h
      rw [if_neg (by simp), ih h]
    | false =>
      rw [hold, if_neg (by simp)] at h
      cases hc : r.find? id with
      | none => simp [hc] at h
      | some c =>
        rw [hc] at h
        -- the id is among those selected from here on
        have hremove : rest.removeAll (selected.map ValidityCheck.id ++ [id]) =
            (rest.removeAll (selected.map ValidityCheck.id)).filter fun other => !other == id := by
          rw [List.removeAll, List.removeAll, List.filter_filter]
          refine List.filter_congr fun other _ => ?_
          simp [Bool.and_comm, beq_eq_decide]
        rw [ih h, List.map_append, List.map_singleton, id_of_find? hc, hremove, if_pos rfl,
          List.eraseDups_cons, List.append_assoc, List.singleton_append]

/-- A selection has the checks of the ids, in the order of their first occurrence. -/
theorem map_id_of_select (h : r.select ids = .ok checks) :
    checks.map ValidityCheck.id = ids.eraseDups := by
  rw [map_id_of_selectAfter h, List.map_nil, List.removeAll_nil, List.nil_append]

/-- The checks that are added to a selection are registered under their ids. -/
theorem find?_of_mem_selectAfter (hselected : ∀ c ∈ selected, r.find? c.id = some c)
    (h : r.selectAfter selected ids = .ok checks) : ∀ c ∈ checks, r.find? c.id = some c := by
  induction ids generalizing selected with
  | nil =>
    obtain rfl := Except.ok.inj h
    exact hselected
  | cons id rest ih =>
    rw [selectAfter] at h
    split at h
    · exact ih hselected h
    · split at h
      · cases h
      · rename_i c hc
        refine ih (fun c' hc' => ?_) h
        rcases List.mem_append.1 hc' with hc' | hc'
        · exact hselected c' hc'
        · obtain rfl := List.mem_singleton.1 hc'
          rwa [id_of_find? hc]

/-! ## When a selection fails -/

/-- A selection fails at the first id that is not registered. -/
theorem selectAfter_eq_error_iff (hselected : ∀ c ∈ selected, r.find? c.id = some c) {e : UnknownCheck} :
    r.selectAfter selected ids = .error e ↔
      ids.find? (fun id => decide (id ∉ r.ids)) = some e.id := by
  induction ids generalizing selected with
  | nil => simp [selectAfter]
  | cons id rest ih =>
    rw [selectAfter, List.find?_cons]
    split
    · -- the id is passed over, and registered
      rename_i hold
      obtain ⟨c, hc, hid⟩ := List.any_eq_true.1 hold
      have hregistered : ¬id ∉ r.ids := by
        rw [← find?_eq_none_iff, ← eq_of_beq hid, hselected c hc]
        simp
      rw [decide_eq_false hregistered]
      exact ih hselected
    · split
      · rename_i hnone
        rw [decide_eq_true (find?_eq_none_iff.1 hnone)]
        obtain ⟨other⟩ := e
        simp
      · rename_i c hc
        have hregistered : ¬id ∉ r.ids := by
          rw [← find?_eq_none_iff, hc]
          simp
        rw [decide_eq_false hregistered]
        refine ih fun c' hc' => ?_
        rcases List.mem_append.1 hc' with hc' | hc'
        · exact hselected c' hc'
        · obtain rfl := List.mem_singleton.1 hc'
          rwa [id_of_find? hc]

/-- The selection fails just for the first unknown id. -/
theorem select_eq_error_iff {e : UnknownCheck} :
    r.select ids = .error e ↔ ids.find? (fun id => decide (id ∉ r.ids)) = some e.id :=
  selectAfter_eq_error_iff (by simp)

/-- A selection fails exactly when an id is not registered. -/
theorem exists_select_eq_error_iff : (∃ e, r.select ids = .error e) ↔ ∃ id ∈ ids, id ∉ r.ids := by
  have hfind : (ids.find? fun id => decide (id ∉ r.ids)).isSome = true ↔ ∃ id ∈ ids, id ∉ r.ids := by
    simp [List.find?_isSome]
  rw [← hfind, Option.isSome_iff_exists]
  simp only [select_eq_error_iff]
  constructor
  · rintro ⟨e, he⟩
    exact ⟨e.id, he⟩
  · rintro ⟨id, hid⟩
    exact ⟨⟨id⟩, hid⟩

end ProvenanceTrail.ValidityRegistry
