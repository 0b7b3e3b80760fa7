import ProvenanceTrail.Proofs.Search.BestPath

/-!
# Fetching a bundle once

A visit fetches its bundle at most once: on the way along its reference, or else when it comes to search
it, and in the first case the search takes what was fetched. A claim is what entitles a visit to this one
fetch, be it the claim of the referenced bundle or of the version that the reference leads to. So the
fetches are accounted for: what has been fetched, and what visits are still due to fetch, is covered by
what was claimed, apart from the meta-bundles that were consulted on the way (`Change.count_fetches`). No
bundle is claimed twice, hence none is fetched twice.

Meta-bundles do count as often as they are consulted: two references to one document consult its
meta-bundle twice, and a meta-bundle may be searched as well.
-/

namespace ProvenanceTrail

variable {f : Federation} {p : SearchPlan}

/-- The meta-bundle that is consulted when the reference of an item is followed, if one is: the searcher
looks the latest version up, has a service for the referenced bundle, and finds it there. -/
def Federation.listing? (f : Federation) (preference : VersionPreference) (item : SearchItem) :
    Option QualifiedName :=
  match preference with
  | .specified => none
  | .latest =>
    if f.settings.delegateVersionPick then none
    else
      match f.serviceOf item.bundleId item.serviceHint with
      | .error _ => none
      | .ok service =>
        match f.services.find service item.bundleId with
        | .error _ => none
        | .ok found => found.bundle.metaBundle?.or item.metaBundleId

/-- Nobody consults meta-bundles when references are taken as they are, or when services pick the
version. -/
theorem Federation.listing?_eq_none {preference : VersionPreference} {item : SearchItem}
    (h : preference = .specified ∨ f.settings.delegateVersionPick = true) :
    f.listing? preference item = none := by
  rcases h with rfl | hdelegate
  · rfl
  · cases preference with
    | specified => rfl
    | latest => exact if_pos hdelegate

/-- What following a reference fetches: nothing, or the referenced bundle and then the meta-bundle that is
consulted. In the second case nothing is missing when the reference leads to the bundle itself. -/
theorem Federation.locate_fetched (f : Federation) (preference : VersionPreference) (item : SearchItem) :
    (f.locate preference item).fetched = [] ∧ f.listing? preference item = none ∨
      (f.locate preference item).fetched =
          item.bundleId :: (f.listing? preference item).toList ∧
        ∀ l, (f.locate preference item).value = .ok l → l.bundleId = item.bundleId →
          l.missing = [] := by
  unfold locate listing?
  cases hservice : f.serviceOf item.bundleId item.serviceHint with
  | error e => cases preference <;> simp
  | ok service =>
    cases preference with
    | specified => exact .inl ⟨rfl, rfl⟩
    | latest =>
      by_cases hdelegate : f.settings.delegateVersionPick = true
      · left
        simp [Resolver.resolve, hdelegate]
      · right
        simp only [Resolver.resolve, hdelegate, Resolver.resolveLatest, Bool.false_eq_true, if_false]
        cases hfind : f.services.find service item.bundleId with
        | error e => simp
        | ok found =>
          cases hlisting : found.bundle.metaBundle?.or item.metaBundleId with
          | none => simp [hlisting]
          | some metaId =>
            cases hmeta : f.services.find ((f.table.route? metaId).getD service) metaId with
            | error e => simp [hlisting, hmeta]
            | ok listing =>
              refine ⟨by simp [hlisting, hmeta], fun l hl hsame => ?_⟩
              cases hversion : listing.bundle.latestVersion with
              | error e => simp [hlisting, hmeta, hversion] at hl
              | ok version =>
                -- the reference led back to the bundle that was fetched on the way
                obtain rfl : (⟨version.getD item.bundleId, service,
                    Resolved.prefetched ⟨version.getD item.bundleId, some found⟩ item.bundleId⟩ :
                      Located) = l := by
                  simpa [hlisting, hmeta, hversion] using hl
                simp only at hsame
                simp [Located.missing, Resolved.prefetched, hsame]

/-! ## Fetches that are due -/

/-- What a visit may still fetch: its bundle before it has followed its reference, then what is missing of
the version. -/
def OpenVisit.due (v : OpenVisit) : List QualifiedName :=
  match v.stage with
  | .claimed => [v.item.bundleId]
  | .located l => l.missing
  | .settled _ => []

/-- What the visits under way may still fetch. -/
def SearchState.due (st : SearchState) : List QualifiedName := st.running.flatMap OpenVisit.due

/-- The meta-bundles that were consulted. -/
def Event.listings (f : Federation) (p : SearchPlan) : Event → List QualifiedName
  | .followed item _ => (f.listing? p.preference item).toList
  | _ => []

/-- The meta-bundles that were consulted in a run, in their order. -/
def listingsOf (f : Federation) (p : SearchPlan) (es : List Event) : List QualifiedName :=
  es.flatMap (Event.listings f p)

/-- A located reference asks for its bundle at most once. -/
theorem Located.count_missing_le (l : Located) (id : QualifiedName) :
    l.missing.count id ≤ [l.bundleId].count id := by
  unfold missing
  split
  · exact Nat.zero_le _
  · exact Nat.le_refl _

/-- A visit that follows its reference fetches its bundle now or later but not both, and the version that
it claims later. -/
theorem Follows.count_fetches {s s' : Session} {item : SearchItem} {v : OpenVisit}
    (h : Follows f p s item v s') (id : QualifiedName) :
    (f.locate p.preference item).fetched.count id + v.due.count id ≤
      [item.bundleId].count id + v.version.toList.count id +
        (f.listing? p.preference item).toList.count id := by
  -- what is left for later if nothing was fetched, and if the bundle was
  have hsplit (hlater : v.due.count id ≤ [item.bundleId].count id + v.version.toList.count id)
      (hnow : (∀ l, (f.locate p.preference item).value = .ok l → l.bundleId = item.bundleId →
        l.missing = []) → v.due.count id ≤ v.version.toList.count id) :
      (f.locate p.preference item).fetched.count id + v.due.count id ≤
        [item.bundleId].count id + v.version.toList.count id +
          (f.listing? p.preference item).toList.count id := by
    rcases f.locate_fetched p.preference item with ⟨hfetched, -⟩ | ⟨hfetched, hmissing⟩
    · rw [hfetched, List.count_nil]
      omega
    · have hdue := hnow hmissing
      rw [hfetched, ← List.singleton_append, List.count_append]
      omega
  cases h with
  | lost fails | redirected leads other claimed => exact hsplit (Nat.zero_le _) fun _ => Nat.zero_le _
  | @same l leads same =>
    refine hsplit ?_ fun hmissing => ?_
    · rw [← same]
      exact Nat.le_add_right_of_le (l.count_missing_le id)
    · show l.missing.count id ≤ _
      rw [hmissing l leads same]
      exact Nat.zero_le _
  | @version l leads other free =>
    exact hsplit (Nat.le_add_left_of_le (l.count_missing_le id)) fun _ => l.count_missing_le id

/-- Fetches are accounted for: what a change fetches was due, or is a meta-bundle that it consults, and what
becomes due was claimed. -/
theorem Change.count_fetches {st st' : SearchState} {e : Event} (h : Change f p st e st')
    (id : QualifiedName) :
    (e.fetches f p).count id + st'.due.count id ≤
      st.due.count id + (e.claims.map Prod.fst).count id + (e.listings f p).count id := by
  cases h with
  | @claimed passed rest t item passes front free top within =>
    simp only [Event.fetches, Event.claims, Event.listings, SearchState.due, List.flatMap_append,
      List.flatMap_singleton, List.count_append, OpenVisit.due, OpenVisit.start, List.map_cons,
      List.map_nil, List.count_nil]
    omega
  | @followed before after item v s running result =>
    have hcount := (followReference_follows result).count_fetches id
    have hclaims : (Event.followed item v.version).claims.map Prod.fst = v.version.toList := by
      cases v.version <;> rfl
    have hstart : (OpenVisit.start item).due = [item.bundleId] := rfl
    rw [hclaims]
    simp only [Event.fetches, Event.listings, SearchState.due, running, List.flatMap_append,
      List.flatMap_cons, List.count_append, hstart]
    omega
  | @examined before after item version l running =>
    have hlocated : (OpenVisit.mk item version (.located l)).due = l.missing := rfl
    simp only [Event.fetches, Event.claims, Event.listings, SearchState.due, running,
      List.flatMap_append, List.flatMap_cons, List.count_append, hlocated]
    simp only [OpenVisit.due, List.map_nil, List.count_nil]
    omega
  | @ended before after item version outcome running =>
    simp only [Event.fetches, Event.claims, Event.listings, SearchState.due, running,
      List.flatMap_append, List.flatMap_cons, List.count_append, OpenVisit.due, List.map_nil,
      List.count_nil]
    omega
  | returned | exhausted | elsewhere =>
    simp [Event.fetches, Event.claims, Event.listings, SearchState.due]

/-! ## Runs -/

/-- In a run no bundle is fetched more often than it was claimed and consulted as a meta-bundle. -/
theorem Run.count_fetchesOf_le {start st : SearchState} {es : List Event} (hlaid : start.Laid f p)
    (hstart : start.running = []) (h : Run f p start es st) (id : QualifiedName) :
    (fetchesOf f p es).count id ≤
      ((claimsOf es).map Prod.fst).count id + (listingsOf f p es).count id := by
  have haccount : (fetchesOf f p es).count id + st.due.count id ≤
      ((claimsOf es).map Prod.fst).count id + (listingsOf f p es).count id := by
    refine h.induct (motive := fun es st => (fetchesOf f p es).count id + st.due.count id ≤
      ((claimsOf es).map Prod.fst).count id + (listingsOf f p es).count id) hlaid ?_ ?_
    · simp [fetchesOf, SearchState.due, hstart]
    · intro es st e st' _ ih hchange
      have hstep := hchange.count_fetches id
      simp only [fetchesOf, claimsOf, listingsOf, List.flatMap_append, List.flatMap_singleton,
        List.map_append, List.count_append] at ih ⊢
      omega
  omega

/-- Consulting a meta-bundle is fetching it. -/
theorem listingsOf_sublist (es : List Event) : (listingsOf f p es).Sublist (fetchesOf f p es) := by
  refine List.Sublist.flatMap_right es fun e _ => ?_
  cases e with
  | followed item version =>
    show (f.listing? p.preference item).toList.Sublist (f.locate p.preference item).fetched
    rcases f.locate_fetched p.preference item with ⟨hfetched, hnone⟩ | ⟨hfetched, -⟩
    · rw [hfetched, hnone]
      exact .refl _
    · rw [hfetched]
      exact List.sublist_cons_self _ _
  | claimed | returned | exhausted | examined | ended | elsewhere => exact List.nil_sublist _

namespace Engine

variable {r : SearchRequest} {s : Session} {v : Verifier} {es : List Event} {st : SearchState}

/-- References are followed for claimed items only. -/
theorem mem_claimedItems_of_followed (hprepare : prepare f r = .ok (p, s))
    (hrun : Run f p (.initial s v) es st) {item : SearchItem} {version : Option QualifiedName}
    (h : .followed item version ∈ es) : item ∈ claimedItems es := by
  have hboth : st.Ranked p es ∧
      ∀ item version, .followed item version ∈ es → item ∈ claimedItems es := by
    refine hrun.induct (motive := fun es st => st.Ranked p es ∧
      ∀ item version, .followed item version ∈ es → item ∈ claimedItems es)
      (laid_of_prepare hprepare) ⟨ranked_of_prepare hprepare .nil, by simp⟩ ?_
    intro es st e st' hlaid ih hchange
    refine ⟨ih.1.change hlaid hchange, fun item version h => ?_⟩
    rw [claimedItems_concat]
    refine List.mem_append_left _ ?_
    rcases List.mem_append.1 h with h | h
    · exact ih.2 item version h
    · obtain rfl := List.mem_singleton.1 h
      cases hchange with
      | followed running result => exact ih.1.started (.start item) (by simp [running])
  exact hboth.2 item version h

/-- Every meta-bundle that was consulted is the one of a claimed item's reference. -/
theorem exists_listing (hprepare : prepare f r = .ok (p, s)) (hrun : Run f p (.initial s v) es st) :
    ∀ id ∈ listingsOf f p es, ∃ item ∈ claimedItems es, f.listing? p.preference item = some id := by
  intro id hid
  obtain ⟨e, he, hlisting⟩ := List.mem_flatMap.1 hid
  cases e with
  | followed item version =>
    exact ⟨item, mem_claimedItems_of_followed hprepare hrun he, Option.mem_toList.1 hlisting⟩
  | claimed | returned | exhausted | examined | ended | elsewhere => cases hlisting

/-- **No bundle is fetched twice.** Apart from the meta-bundles that are consulted for the references of
claimed items, the fetches of a search are of different bundles. When references are taken as they are, or
services pick the versions, this is so of all fetches. What an engine notes as fetched are the fetches of
such a run. -/
theorem fetched_once (hprepare : prepare f r = .ok (p, s)) (hrun : Run f p (.initial s v) es st) :
    (∃ others, (fetchesOf f p es).Perm (listingsOf f p es ++ others) ∧ others.Nodup) ∧
      (∀ id ∈ listingsOf f p es, ∃ item ∈ claimedItems es,
        f.listing? p.preference item = some id) ∧
      (p.preference = .specified ∨ f.settings.delegateVersionPick = true →
        (fetchesOf f p es).Nodup) ∧
      ∀ (e e' : Engine) (report : SearchReport), e.federation = f → e.verifier = v →
        e.search r = (.ok report, e') →
          ∃ es' st', Run f p (.initial s v) es' st' ∧ e'.fetched = e.fetched ++ fetchesOf f p es' := by
  have hlaid := laid_of_prepare (v := v) hprepare
  have hstart : (SearchState.initial s v).running = [] := rfl
  have hclaims := hrun.nodup_claimsOf hlaid (owned_of_prepare hprepare .nil)
  have hothers : ∃ others, (fetchesOf f p es).Perm (listingsOf f p es ++ others) ∧ others.Nodup := by
    obtain ⟨others, hperm⟩ := (listingsOf_sublist es).exists_perm_append
    refine ⟨others, hperm, List.nodup_iff_count_le_one.2 fun id => ?_⟩
    -- what is fetched beyond the listings was claimed, and nothing is claimed twice
    have hfetched := hrun.count_fetchesOf_le hlaid hstart id
    have hclaimed := List.nodup_iff_count_le_one.1 hclaims id
    rw [hperm.count_eq, List.count_append] at hfetched
    omega
  refine ⟨hothers, exists_listing hprepare hrun, fun hnone => ?_, ?_⟩
  · obtain ⟨others, hperm, hdistinct⟩ := hothers
    have hlistings : listingsOf f p es = [] := by
      refine List.eq_nil_iff_forall_not_mem.2 fun id hid => ?_
      obtain ⟨item, -, hlisting⟩ := exists_listing hprepare hrun id hid
      rw [Federation.listing?_eq_none hnone] at hlisting
      cases hlisting
    rw [hlistings, List.nil_append] at hperm
    exact hperm.nodup_iff.2 hdistinct
  · rintro e e' report rfl rfl hsearch
    obtain ⟨p', s', es', st', hprepare', hrun', -, hfetched⟩ := exists_run_search hsearch
    obtain ⟨rfl, rfl⟩ := Prod.mk.inj (Except.ok.inj (hprepare'.symm.trans hprepare))
    exact ⟨es', st', hrun', hfetched⟩

end Engine

namespace Sample.Versions

/-- A request that starts with `A`, whose listing names `B` as the latest version. -/
def fromA : SearchRequest :=
  { request with bundleId := document "A", startNodeId := some (node "toA") }

def sessionA : Session := .start ⟨["NO_AGENT"], [.seed (document "A") (node "toA") ["NO_AGENT"]]⟩

theorem prepare_fromA : Engine.prepare federation fromA = .ok (plan, sessionA) := by
  with_unfolding_all rfl

end Sample.Versions

/-- `B` is searched as the version that the reference to `A` leads to. Both are fetched once, and the
meta-bundle of `A` is consulted. -/
theorem Engine.versions_fetched_once :
    ∃ es st others, Run Sample.Versions.federation Sample.Versions.plan
        (.initial Sample.Versions.sessionA Sample.verifier) es st ∧
      fetchesOf Sample.Versions.federation Sample.Versions.plan es =
        ["A", "metaA", "B"].map Sample.document ∧
      (["A", "metaA", "B"].map Sample.document).Perm ([Sample.document "metaA"] ++ others) ∧
      others.Nodup := by
  have hplay : (SearchState.play Sample.Versions.federation Sample.Versions.plan
      (.initial Sample.Versions.sessionA Sample.verifier)
      ([.claim] ++ Sample.visit 0 ++ [.claim])).any (fun r =>
        fetchesOf Sample.Versions.federation Sample.Versions.plan r.1 ==
            ["A", "metaA", "B"].map Sample.document &&
          listingsOf Sample.Versions.federation Sample.Versions.plan r.1 ==
            [Sample.document "metaA"]) = true := by
    decide +kernel
  obtain ⟨⟨es, st⟩, hst, hplayed⟩ := (Option.any_eq_true _ _).1 hplay
  obtain ⟨hfetched, hconsulted⟩ := Bool.and_eq_true_iff.1 hplayed
  have hrun := Run.of_play hst
  obtain ⟨others, hperm, hdistinct⟩ := (fetched_once Sample.Versions.prepare_fromA hrun).1
  rw [eq_of_beq hfetched, eq_of_beq hconsulted] at hperm
  exact ⟨es, st, others, hrun, eq_of_beq hfetched, hperm, hdistinct⟩

end ProvenanceTrail
