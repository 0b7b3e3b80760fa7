import ProvenanceTrail.Proofs.Search.Outcomes

/-!
# What a claim can do

`Session.claimNext` runs through the front of the frontier. `Passes` says which items it passes over and
what becomes of the session meanwhile; `ClaimEnds` says how it ends. `claimNext_spec` is the only place
where the loop is opened: it is one run of passes followed by one ending, and the fuel never runs out.
-/

namespace ProvenanceTrail.Session

variable {limit : Option Nat}

/-- Passing over items at the front: those of claimed bundles are dropped, and beyond the limit of
visits the others are skipped. -/
inductive Passes (limit : Option Nat) : Session → List SearchItem → Session → Prop where
  | nil (s : Session) : Passes limit s [] s
  | drop {s t : Session} {item : SearchItem} {rest passed : List SearchItem}
      (front : s.frontier.items = item :: rest) (claimed : s.isClaimed item.bundleId = true)
      (more : Passes limit (s.withItems rest) passed t) : Passes limit s (item :: passed) t
  | skip {s t : Session} {item : SearchItem} {rest passed : List SearchItem} {n : Nat}
      (front : s.frontier.items = item :: rest) (free : s.isClaimed item.bundleId = false)
      (top : s.isOutranked item = false) (reached : limit.filter (· ≤ s.started) = some n)
      (more : Passes limit ((s.withItems rest).skip item.bundleId (.visitLimit n)) passed t) :
      Passes limit s (item :: passed) t

/-- How a claim ends once it passes over nothing more: no item is left, the first one is outranked and
goes back, or the first one is claimed. -/
inductive ClaimEnds (limit : Option Nat) (s : Session) : Option SearchItem × Session → Prop where
  | exhausted (empty : s.frontier.items = []) : ClaimEnds limit s (none, s)
  | returned {item : SearchItem} {rest : List SearchItem} (front : s.frontier.items = item :: rest)
      (free : s.isClaimed item.bundleId = false) (outranked : s.isOutranked item = true) :
      ClaimEnds limit s (none, (s.withItems rest).enqueue item)
  | claimed {item : SearchItem} {rest : List SearchItem} (front : s.frontier.items = item :: rest)
      (free : s.isClaimed item.bundleId = false) (top : s.isOutranked item = false)
      (within : limit.filter (· ≤ s.started) = none) :
      ClaimEnds limit s (some item,
        { (s.withItems rest).claim item.bundleId item with started := s.started + 1 })

/-- One round of the loop, in terms of the item at the front. -/
theorem claimNextWithin_cons {fuel : Nat} {s : Session} {item : SearchItem} {rest : List SearchItem}
    (front : s.frontier.items = item :: rest) :
    claimNextWithin limit (fuel + 1) s =
      if s.isClaimed item.bundleId then claimNextWithin limit fuel (s.withItems rest)
      else if s.isOutranked item then (none, (s.withItems rest).enqueue item)
      else
        match limit.filter (· ≤ s.started) with
        | some n =>
          claimNextWithin limit fuel ((s.withItems rest).skip item.bundleId (.visitLimit n))
        | none => (some item,
            { (s.withItems rest).claim item.bundleId item with started := s.started + 1 }) := by
  rw [claimNextWithin, Frontier.pop, front]
  rfl

/-- With nothing waiting, nothing is claimed. -/
theorem claimNextWithin_nil (fuel : Nat) {s : Session} (empty : s.frontier.items = []) :
    claimNextWithin limit fuel s = (none, s) := by
  cases fuel with
  | zero => rfl
  | succ fuel => rw [claimNextWithin, Frontier.pop, empty]

/-- With fuel for all items that wait, some are passed over and then one is claimed, or none is left to be. -/
theorem claimNextWithin_spec (fuel : Nat) (s : Session) (hfuel : s.frontier.items.length ≤ fuel) :
    ∃ passed t, Passes limit s passed t ∧ ClaimEnds limit t (claimNextWithin limit fuel s) := by
  -- each round takes one item, so as many rounds as items wait are enough
  induction fuel generalizing s with
  | zero =>
    have hempty : s.frontier.items = [] := List.eq_nil_of_length_eq_zero (Nat.le_zero.1 hfuel)
    exact ⟨[], s, .nil s, .exhausted hempty⟩
  | succ fuel ih =>
    cases hitems : s.frontier.items with
    | nil =>
      refine ⟨[], s, .nil s, ?_⟩
      rw [claimNextWithin_nil _ hitems]
      exact .exhausted hitems
    | cons item rest =>
      have hrest : rest.length ≤ fuel := by
        rw [hitems] at hfuel
        exact Nat.le_of_succ_le_succ hfuel
      rw [claimNextWithin_cons hitems]
      cases hclaimed : s.isClaimed item.bundleId with
      | true =>
        obtain ⟨passed, t, hpasses, hends⟩ := ih (s.withItems rest) hrest
        exact ⟨item :: passed, t, .drop hitems hclaimed hpasses, hends⟩
      | false =>
        cases houtranked : s.isOutranked item with
        | true => exact ⟨[], s, .nil s, .returned hitems hclaimed houtranked⟩
        | false =>
          cases hlimit : limit.filter (· ≤ s.started) with
          | none => exact ⟨[], s, .nil s, .claimed hitems hclaimed houtranked hlimit⟩
          | some n =>
            obtain ⟨passed, t, hpasses, hends⟩ :=
              ih ((s.withItems rest).skip item.bundleId (.visitLimit n)) hrest
            exact ⟨item :: passed, t, .skip hitems hclaimed houtranked hlimit hpasses, hends⟩

/-- A claim passes over some items and then ends in one of three ways. -/
theorem claimNext_spec (limit : Option Nat) (s : Session) :
    ∃ passed t, Passes limit s passed t ∧ ClaimEnds limit t (s.claimNext limit) :=
  claimNextWithin_spec _ s (Nat.le_refl _)

/-! ## What passing over items changes -/

namespace Passes

variable {s t : Session} {passed : List SearchItem}

/-- The items passed over are those that were at the front. -/
theorem items_eq (h : Passes limit s passed t) :
    s.frontier.items = passed ++ t.frontier.items := by
  induction h with
  | nil s => rfl
  | drop front _ _ ih => rw [front, List.cons_append, ← ih]; rfl
  | skip front _ _ _ _ ih => rw [front, List.cons_append, ← ih]; rfl

/-- Passing over items leaves all but the items that wait and the outcomes. -/
theorem checks_eq (h : Passes limit s passed t) : t.frontier.checks = s.frontier.checks := by
  induction h with
  | nil s => rfl
  | drop _ _ _ ih => exact ih
  | skip _ _ _ _ _ ih => exact ih

theorem inFlight_eq (h : Passes limit s passed t) : t.inFlight = s.inFlight := by
  induction h with
  | nil s => rfl
  | drop _ _ _ ih => exact ih
  | skip _ _ _ _ _ ih => exact ih

theorem results_eq (h : Passes limit s passed t) : t.results = s.results := by
  induction h with
  | nil s => rfl
  | drop _ _ _ ih => exact ih
  | skip _ _ _ _ _ ih => exact ih

theorem started_eq (h : Passes limit s passed t) : t.started = s.started := by
  induction h with
  | nil s => rfl
  | drop _ _ _ ih => exact ih
  | skip _ _ _ _ _ ih => exact ih

/-- Nothing that is claimed gets an outcome or another one. -/
theorem find?_eq_of_isClaimed (h : Passes limit s passed t) {id : QualifiedName}
    (hid : s.isClaimed id = true) : Visits.find? id t.visited = Visits.find? id s.visited := by
  induction h with
  | nil s => rfl
  | drop _ _ _ ih => exact ih hid
  | @skip s t item rest passed n _ free _ _ _ ih =>
    -- only free bundles are skipped, and a claimed one is not free
    have hne : id ≠ item.bundleId := by
      rintro rfl
      rw [hid] at free
      exact Bool.noConfusion free
    have hsame : Visits.find? id ((s.withItems rest).skip item.bundleId (.visitLimit n)).visited =
        Visits.find? id s.visited := by
      rw [Session.skip, record, Visits.find?_insert, if_neg hne]
      rfl
    rw [← hsame]
    refine ih ?_
    rw [isClaimed_iff] at hid ⊢
    rw [hsame]
    exact hid

/-- An outcome that is there after passing over items was there before, or is that of a bundle which was
skipped. -/
theorem find?_or_skipped (h : Passes limit s passed t) {id : QualifiedName} {outcome : VisitOutcome}
    (hid : Visits.find? id t.visited = some outcome) :
    Visits.find? id s.visited = some outcome ∨
      (∃ item ∈ passed, item.bundleId = id) ∧ ∃ code message, outcome = .skipped code message := by
  induction h with
  | nil s => exact .inl hid
  | drop _ _ _ ih =>
    exact (ih hid).imp_right fun ⟨⟨item, hitem, hbundle⟩, hskipped⟩ =>
      ⟨⟨item, List.mem_cons_of_mem _ hitem, hbundle⟩, hskipped⟩
  | @skip s t item rest passed n _ _ _ _ _ ih =>
    rcases ih hid with hbefore | ⟨⟨other, hother, hbundle⟩, hskipped⟩
    · rw [Session.skip, record, Visits.find?_insert] at hbefore
      split at hbefore
      · rename_i hsame
        exact .inr ⟨⟨item, List.mem_cons_self, hsame.symm⟩, _, _, (Option.some.inj hbefore).symm⟩
      · exact .inl hbefore
    · exact .inr ⟨⟨other, List.mem_cons_of_mem _ hother, hbundle⟩, hskipped⟩

/-- What is claimed stays claimed. -/
theorem isClaimed_mono (h : Passes limit s passed t) {id : QualifiedName}
    (hid : s.isClaimed id = true) : t.isClaimed id = true := by
  have hsame := h.find?_eq_of_isClaimed hid
  rw [isClaimed_iff] at hid ⊢
  rw [hsame, inFlightIds, h.inFlight_eq]
  exact hid

/-- The bundles of the items passed over are claimed. -/
theorem isClaimed_of_mem (h : Passes limit s passed t) {x : SearchItem} (hx : x ∈ passed) :
    t.isClaimed x.bundleId = true := by
  induction h with
  | nil s => simp at hx
  | @drop s t item rest passed front claimed more ih =>
    rcases List.mem_cons.1 hx with rfl | hx
    · exact more.isClaimed_mono claimed
    · exact ih hx
  | @skip s t item rest passed n front free top reached more ih =>
    rcases List.mem_cons.1 hx with rfl | hx
    · refine more.isClaimed_mono ?_
      rw [isClaimed_iff, Session.skip, record, Visits.find?_insert, if_pos rfl]
      exact Or.inr rfl
    · exact ih hx

end Passes

/-- An item that is claimed no longer waits. -/
theorem length_lt_of_claimNext {s t : Session} {item : SearchItem}
    (h : s.claimNext limit = (some item, t)) : t.frontier.items.length < s.frontier.items.length := by
  obtain ⟨passed, mid, hpasses, hends⟩ := s.claimNext_spec limit
  rw [h] at hends
  cases hends with
  | @claimed item rest front free top within =>
    rw [hpasses.items_eq, front, List.length_append, List.length_cons]
    show rest.length < passed.length + (rest.length + 1)
    omega

end ProvenanceTrail.Session
