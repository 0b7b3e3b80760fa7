import ProvenanceTrail.Proofs.Search.Coverage

/-!
# Searches that require integrity

When integrity is required, an untrusted bundle is still answered, but nothing that it says leads anywhere.
The test looks at the bundle's own verdict only, not at the path to it. This is enough: the first item is
on a trusted path, and a step that is taken at all is taken from a trusted bundle
(`Change.pathIntegrity_discovered`). So no item of the search is on any other path, and the verdict on the
path to an answer is the verdict on its bundle.

Whatever is claimed or gets an outcome is therefore the first bundle, is named by a connector of a trusted
bundle (`Vouched`), or is the version that the reference to such a bundle leads to.
-/

namespace ProvenanceTrail

variable {f : Federation} {p : SearchPlan}

/-- A connector of a trusted bundle, which was expanded, names a bundle. -/
def Vouched (f : Federation) (p : SearchPlan) (start : SearchState) (es : List Event)
    (st : SearchState) (id : QualifiedName) : Prop :=
  ∃ x : Expansion f p, x.Performed start es st ∧ x.trusted = true ∧ x.Names id

/-! ## One step -/

/-- Connectors are followed out of trusted bundles only, and so lead on along trusted paths. -/
theorem Federation.SearchedBy.pathIntegrity_child {item : SearchItem} {l : Located} {v : Verifier}
    {result : Option FoundResult} {found : Bool} {children : List SearchItem}
    (hrequired : f.settings.requireIntegrity = true)
    (h : f.SearchedBy p item l v (.searched result found children)) {child : SearchItem}
    (hchild : child ∈ children) : child.pathIntegrity = item.pathIntegrity := by
  obtain ⟨-, -, -, -, -, discovers⟩ := h
  rename_i verdict _ _
  obtain ⟨hintegrity, -⟩ := Federation.childrenOf_ok discovers hchild
  unfold Federation.childrenOf at discovers
  rw [hrequired] at discovers
  cases hvalid : verdict.isValid with
  | true => rw [hintegrity, hvalid, Bool.and_true]
  | false =>
    obtain rfl : [] = children := by simpa [hvalid] using discovers
    cases hchild

/-- What is discovered is on a trusted path, if all items that wait or are being visited are. -/
theorem Change.pathIntegrity_discovered {st st' : SearchState} {e : Event}
    (hrequired : f.settings.requireIntegrity = true) (hlaid : st.Laid f p)
    (htrusted : ∀ x ∈ st.items, x.pathIntegrity = true) (h : Change f p st e st') :
    ∀ y ∈ e.discovered, y.pathIntegrity = true := by
  intro y hy
  cases h with
  | claimed | returned | exhausted | followed | examined | elsewhere => cases hy
  | @ended before after item version outcome running =>
    have hvisit : OpenVisit.mk item version (.settled outcome) ∈ st.running := by simp [running]
    rcases outcome with e | (target | ⟨result, found, children⟩)
    · cases hy
    · cases hy
    · obtain ⟨l, u, -, hsearched⟩ := (hlaid.founded _ hvisit).searched
      rw [hsearched.pathIntegrity_child hrequired hy]
      exact htrusted item (List.mem_append_right _ (List.mem_map_of_mem hvisit))

/-- An expansion that leads on is that of a trusted bundle. -/
theorem Expansion.trusted_of_mem_children (hrequired : f.settings.requireIntegrity = true)
    (x : Expansion f p) {child : SearchItem} (h : child ∈ x.children) : x.trusted = true := by
  obtain ⟨hfollowed, -⟩ := x.child_spec h
  simpa [Expansion.followed, hrequired] using hfollowed

/-! ## Runs -/

/-- All items of a run are on trusted paths, if the first ones are. -/
theorem Run.pathIntegrity_createdItems {start st : SearchState} {es : List Event}
    (hrequired : f.settings.requireIntegrity = true) (hlaid : start.Laid f p)
    (hstart : start.running = []) (hfirst : ∀ x ∈ start.session.frontier.items, x.pathIntegrity = true)
    (h : Run f p start es st) : ∀ y ∈ createdItems start.session es, y.pathIntegrity = true := by
  induction h with
  | nil =>
    intro y hy
    exact hfirst y (by simpa [createdItems, discoveredItems] using hy)
  | @step es st st' m e run hmove ih =>
    intro y hy
    have hlaid' := run.laid hlaid
    have hitems := (run.items_subset_createdItems hlaid hstart).1
    rcases mem_createdItems_concat.1 hy with hy | hy
    · exact ih y hy
    · exact (SearchState.move_change hlaid'.fits hmove).pathIntegrity_discovered hrequired hlaid'
        (fun x hx => ih x (hitems hx)) y hy

/-- A bundle is claimed through an item as the one that the item refers to, or as the version that the
reference leads to. -/
theorem Run.located_of_mem_claimsOf {start st : SearchState} {es : List Event}
    (hlaid : start.Laid f p) (h : Run f p start es st) :
    ∀ c ∈ claimsOf es, c.1 = c.2.bundleId ∨
      ∃ l, (f.locate p.preference c.2).value = .ok l ∧ l.bundleId = c.1 := by
  refine h.induct (motive := fun es _ => ∀ c ∈ claimsOf es, c.1 = c.2.bundleId ∨
    ∃ l, (f.locate p.preference c.2).value = .ok l ∧ l.bundleId = c.1) hlaid (by simp [claimsOf]) ?_
  intro es st e st' _ ih hchange c hc
  rcases mem_claimsOf_concat.1 hc with hc | hc
  · exact ih c hc
  · cases hchange with
    | claimed =>
      obtain rfl := List.mem_singleton.1 hc
      exact .inl rfl
    | @followed before after item v s running result =>
      cases followReference_follows result with
      | lost | same | redirected => cases hc
      | @version l leads other free =>
        obtain rfl := List.mem_singleton.1 hc
        exact .inr ⟨l, leads, rfl⟩
    | returned | exhausted | examined | ended | elsewhere => cases hc

namespace Engine

variable {r : SearchRequest} {s : Session} {v : Verifier} {es : List Event} {st : SearchState}

/-- An item that comes up is the first one, or a trusted bundle led to it. -/
theorem seed_or_trusted_of_mem_createdItems (hprepare : prepare f r = .ok (p, s))
    (hrequired : f.settings.requireIntegrity = true) (hrun : Run f p (.initial s v) es st)
    {y : SearchItem} (hy : y ∈ createdItems s es) :
    y ∈ s.frontier.items ∨
      ∃ x : Expansion f p, x.Performed (.initial s v) es st ∧ x.trusted = true ∧ y ∈ x.children ∧
        x.Names y.bundleId := by
  obtain ⟨entry, -, hfirst, -⟩ := initial_of_prepare hprepare
  obtain ⟨path, hpath, ⟨-, rfl⟩ | ⟨x, hlast, hchild⟩⟩ :=
    hrun.exists_path (laid_of_prepare hprepare) rfl hfirst y hy
  · rw [hfirst]
    exact .inl (List.mem_singleton_self _)
  · exact .inr ⟨x, hpath.performed x (List.mem_of_getLast? hlast),
      x.trusted_of_mem_children hrequired hchild, hchild, (x.child_spec hchild).2.1⟩

/-- **Untrusted bundles lead nowhere when integrity is required.** All items that ever wait or are visited
are on trusted paths, and an answer's verdict on its path is that on its bundle. A bundle with an outcome is
the first one, or a connector of a trusted bundle names it, or it is the version that the reference to such a
bundle leads to. What is claimed is claimed through the first item or through one that a trusted bundle led
to, and untrusted bundles lead to none. -/
theorem contained_when_integrity_required (hprepare : prepare f r = .ok (p, s))
    (hrequired : f.settings.requireIntegrity = true) (hrun : Run f p (.initial s v) es st) :
    (∀ y ∈ createdItems s es, y.pathIntegrity = true) ∧
      (∀ y ∈ st.items, y.pathIntegrity = true) ∧
      (∀ c ∈ st.session.inFlight, c.2.pathIntegrity = true) ∧
      (∀ a ∈ st.session.results, a.pathIntegrity = a.integrity) ∧
      (∀ id, Visits.has id st.session.visited = true →
        id = r.bundleId ∨ Vouched f p (.initial s v) es st id ∨
          ∃ item ∈ claimedItems es,
            (item.bundleId = r.bundleId ∨ Vouched f p (.initial s v) es st item.bundleId) ∧
              ∃ l, (f.locate p.preference item).value = .ok l ∧ l.bundleId = id) ∧
      (∀ c ∈ claimsOf es,
        (c.2 ∈ s.frontier.items ∨
          ∃ x : Expansion f p, x.Performed (.initial s v) es st ∧ x.trusted = true ∧
            c.2 ∈ x.children ∧ x.Names c.2.bundleId) ∧
          (c.1 = c.2.bundleId ∨ ∃ l, (f.locate p.preference c.2).value = .ok l ∧ l.bundleId = c.1)) ∧
      ∀ x : Expansion f p, x.trusted = false → x.children = [] := by
  have hlaid := laid_of_prepare (v := v) hprepare
  obtain ⟨entry, -, hfirst, -, hresults⟩ := initial_of_prepare hprepare
  obtain ⟨hitems, hclaimed⟩ := hrun.items_subset_createdItems hlaid rfl
  have hranked := ranked_of_prepare hprepare hrun
  have htracked := tracked_of_prepare hprepare hrun
  -- only the bundles of trusted paths are followed, and the search starts on one
  have htrusted : ∀ y ∈ createdItems s es, y.pathIntegrity = true := by
    refine hrun.pathIntegrity_createdItems hrequired hlaid rfl fun x hx => ?_
    obtain rfl := List.mem_singleton.1 (hfirst ▸ hx)
    rfl
  have hvouched {y : SearchItem} (hy : y ∈ createdItems s es) :
      y.bundleId = r.bundleId ∨ Vouched f p (.initial s v) es st y.bundleId := by
    rcases seed_or_trusted_of_mem_createdItems hprepare hrequired hrun hy with
      hy | ⟨x, hx, htrust, -, hnames⟩
    · obtain rfl := List.mem_singleton.1 (hfirst ▸ hy)
      exact .inl rfl
    · exact .inr ⟨x, hx, htrust, hnames⟩
  refine ⟨htrusted, fun y hy => htrusted y (hitems hy),
    fun c hc => htrusted c.2 (hclaimed (hranked.held c hc)), ?_, ?_, ?_, ?_⟩
  · intro a ha
    obtain ⟨x, hx, rfl⟩ := hrun.exists_expansion_of_mem_results hlaid rfl hresults ha
    have hitem := htrusted x.item (hclaimed (mem_claimedItems_of_expands hprepare hrun hx.expands))
    show (x.item.pathIntegrity && x.trusted) = x.trusted
    rw [hitem, Bool.true_and]
  · intro id hid
    rcases created_or_located_of_has hprepare hrun hid with ⟨y, hy, rfl⟩ | ⟨item, hitem, hleads⟩
    · exact (hvouched hy).imp_right .inl
    · exact .inr (.inr ⟨item, hitem, hvouched (hclaimed hitem), hleads⟩)
  · intro c hc
    exact ⟨seed_or_trusted_of_mem_createdItems hprepare hrequired hrun
      (hclaimed (htracked.claimed c hc)), hrun.located_of_mem_claimsOf hlaid c hc⟩
  · intro x huntrusted
    refine x.children_eq_nil ?_
    rw [Expansion.followed, hrequired, huntrusted]
    rfl

end Engine

namespace Sample

/-- The small federation, with integrity required. Its bundles have no tokens. -/
def guarded : Federation :=
  { federation with settings := { federation.settings with requireIntegrity := true } }

theorem prepare_guarded : Engine.prepare guarded request = .ok (plan, session) := by
  with_unfolding_all rfl

end Sample

/-- `A` is answered but not trusted, so that it does not lead to `B` and `C`: the search ends with it. -/
theorem Engine.sample_contained_when_integrity_required :
    ∃ es st, Run Sample.guarded Sample.plan (.initial Sample.session Sample.verifier) es st ∧
      st.session.results.map FoundResult.bundleId = [Sample.document "A"] ∧
      st.session.results.map FoundResult.pathIntegrity = [false] ∧
      st.running = [] ∧ st.session.frontier.items = [] ∧
      (claimsOf es).map Prod.fst = [Sample.document "A"] ∧
      ∀ c ∈ claimsOf es, c.2 ∈ Sample.session.frontier.items ∨
        ∃ x : Expansion Sample.guarded Sample.plan, x.trusted = true ∧ c.2 ∈ x.children := by
  have hplay : (SearchState.play Sample.guarded Sample.plan
      (.initial Sample.session Sample.verifier)
      ([.claim] ++ Sample.visit 0 ++ [.claim])).any (fun r =>
        (r.2.session.results.map FoundResult.bundleId == [Sample.document "A"] &&
          r.2.session.results.map FoundResult.integrity == [false]) &&
        ((r.2.running.isEmpty && r.2.session.frontier.items.isEmpty) &&
          (claimsOf r.1).map Prod.fst == [Sample.document "A"])) = true := by
    decide +kernel
  obtain ⟨⟨es, st⟩, hst, hplayed⟩ := (Option.any_eq_true _ _).1 hplay
  obtain ⟨hresults, hended⟩ := Bool.and_eq_true_iff.1 hplayed
  obtain ⟨hbundles, hintegrity⟩ := Bool.and_eq_true_iff.1 hresults
  obtain ⟨hdone, hclaimed⟩ := Bool.and_eq_true_iff.1 hended
  obtain ⟨hrunning, hwaiting⟩ := Bool.and_eq_true_iff.1 hdone
  have hrun := Run.of_play hst
  obtain ⟨-, -, -, hpath, -, hclaims, -⟩ :=
    contained_when_integrity_required Sample.prepare_guarded rfl hrun
  refine ⟨es, st, hrun, eq_of_beq hbundles, ?_, List.isEmpty_iff.1 hrunning,
    List.isEmpty_iff.1 hwaiting, eq_of_beq hclaimed, fun c hc => ?_⟩
  · rw [← eq_of_beq hintegrity]
    exact List.map_congr_left hpath
  · refine (hclaims c hc).1.imp_right ?_
    rintro ⟨x, -, htrusted, hchild, -⟩
    exact ⟨x, htrusted, hchild⟩

end ProvenanceTrail
