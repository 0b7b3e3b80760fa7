import ProvenanceTrail.Proofs.Search.BestPath

/-!
# Expansions

An `Expansion` is the search of one bundle with everything it went by, from the reference to the items that
its connectors lead to. Its fields hold together by construction: each stage is given with the equation that
says how it went. What a run reports and what it discovers comes from expansions that were carried out in
it (`Run.exists_expansion_of_ended`), so questions about answers become questions about one expansion, in
which no scheduler appears.

The verifier is the one stage that depends on time. `Expansion.Examined` ties it to the run: it is the
verifier of the state that the run was in when the bundle was examined.
-/

namespace ProvenanceTrail

variable {f : Federation} {p : SearchPlan}

/-! ## What is fetched on the way -/

/-- The referenced bundle that a resolution hands back is what its service hosts. -/
theorem Resolver.find_of_resolve {r : Resolver} {service : String} {id : QualifiedName}
    {preference : VersionPreference} {hint : Option QualifiedName} {resolved : Resolved}
    {hosted : HostedBundle} (h : (r.resolve service id preference hint).value = .ok resolved)
    (hreferenced : resolved.referenced = some hosted) : r.services.find service id = .ok hosted := by
  cases preference with
  | specified =>
    obtain rfl := Except.ok.inj h
    cases hreferenced
  | latest =>
    unfold resolve at h
    cases hdelegate : r.delegate with
    | true =>
      -- the service that picks the version hands no bundle back
      simp only [hdelegate, if_true] at h
      split at h
      · obtain rfl := Except.ok.inj h
        cases hreferenced
      · cases h
    | false =>
      simp only [hdelegate, Bool.false_eq_true, if_false, resolveLatest] at h
      split at h
      · cases h
      · rename_i found hfound
        split at h
        · cases h
        · split at h
          · cases h
          · simp only at h
            split at h
            · cases h
            · obtain rfl := Except.ok.inj h
              obtain rfl := Option.some.inj hreferenced
              exact hfound

namespace Federation

/-- A version that was fetched on the way is the referenced bundle, as the service that would be asked for
the version hosts it. -/
theorem find_of_prefetched {preference : VersionPreference} {item : SearchItem} {l : Located}
    {hosted : HostedBundle} (h : (f.locate preference item).value = .ok l)
    (hprefetched : l.prefetched = some hosted) :
    f.services.find (f.versionService item l) l.bundleId = .ok hosted := by
  unfold locate at h
  split at h
  · cases h
  · rename_i service _
    simp only at h
    split at h
    · cases h
    · rename_i resolved hresolved
      obtain rfl := Except.ok.inj h
      obtain ⟨hsame, hreferenced⟩ := Option.ite_none_right_eq_some.1 hprefetched
      simp only [versionService, hsame]
      exact Resolver.find_of_resolve hresolved hreferenced

end Federation

/-! ## Expansions and the searches they record -/

/-- The search of one bundle with all it went by: the item and where its reference leads, the verifier at
that time, the bundle as it is hosted and the node it is entered at, the verdicts, the answer and the
items that its connectors lead to. -/
structure Expansion (f : Federation) (p : SearchPlan) where
  item : SearchItem
  located : Located
  verifier : Verifier
  hosted : HostedBundle
  view : BundleView
  verdict : IntegrityResult
  own : List CheckOutcome
  answer : QueryResult
  children : List SearchItem
  locates : (f.locate p.preference item).value = .ok located
  hosts : f.services.find (f.versionService item located) located.bundleId = .ok hosted
  enters : hosted.bundle.enter (some item.entryNodeId) = .ok view
  verifies : (verifier.verify located.bundleId hosted.token item.expectedDigest).1 = .ok verdict
  checked : ValidityCheck.runAll f.services (f.versionService item located) located.bundleId
    item.entryNodeId p.checks = .ok own
  answers : p.query.evalView view = .ok answer
  discovers : f.childrenOf p.direction view verdict.isValid (item.pathIntegrity && verdict.isValid)
    (CheckOutcome.combine item.pathValidity own) = .ok children

namespace Expansion

variable (x : Expansion f p)

/-- The bundle that is searched. -/
def bundleId : QualifiedName := x.located.bundleId

/-- The bundle that is searched, if it is another one than the item refers to. -/
def version? : Option QualifiedName := x.located.version? x.item

/-- Whether the bundle itself is trusted. -/
def trusted : Bool := x.verdict.isValid

/-- The answer, tagged with the verdicts on the bundle and on the path to it. -/
def result : FoundResult :=
  ⟨x.bundleId, x.item.entryNodeId, x.hosted.token, x.answer, x.trusted, x.own,
    x.item.pathIntegrity && x.trusted, CheckOutcome.combine x.item.pathValidity x.own⟩

/-- Whether the answer is reported. -/
def reported : Bool := !x.answer.isEmpty || !f.settings.omitEmptyResults

/-- What the visit brings. -/
def visit : Visit :=
  .searched (if x.reported then some x.result else none) (!x.answer.isEmpty) x.children

/-- The connectors of the bundle name another bundle. -/
def Names (id : QualifiedName) : Prop :=
  ∃ connectors c, discoverConnectors x.view (some p.direction) = .ok connectors ∧ c ∈ connectors ∧
    c.referencedBundleId = some id

/-- Whether the connectors of the bundle are followed. -/
def followed : Bool := !(f.settings.requireIntegrity && !x.trusted)

/-- The bundle that is searched is the version, or the one referred to. -/
theorem getD_version? : x.version?.getD x.item.bundleId = x.bundleId :=
  x.located.getD_version? x.item

/-- When connectors are followed, they are discovered, and the items are those that they lead to. -/
theorem exists_connectors (h : x.followed = true) :
    ∃ connectors, discoverConnectors x.view (some p.direction) = .ok connectors ∧
      x.children = connectors.filterMap fun c =>
        SearchItem.ofConnector? c x.result.pathIntegrity x.result.pathValidityChecks := by
  have hdiscovers := x.discovers
  unfold Federation.childrenOf at hdiscovers
  have hskipped : (f.settings.requireIntegrity && !x.verdict.isValid) = false := by
    simpa only [followed, trusted, Bool.not_eq_true'] using h
  rw [hskipped, if_neg Bool.false_ne_true] at hdiscovers
  cases hconnectors : discoverConnectors x.view (some p.direction) with
  | error e => simp [hconnectors] at hdiscovers
  | ok connectors =>
    rw [hconnectors] at hdiscovers
    exact ⟨connectors, rfl, (Except.ok.inj hdiscovers).symm⟩

/-- Nothing is discovered in a bundle whose connectors are not followed. -/
theorem children_eq_nil (h : x.followed = false) : x.children = [] := by
  have hdiscovers := x.discovers
  unfold Federation.childrenOf at hdiscovers
  have hskipped : (f.settings.requireIntegrity && !x.verdict.isValid) = true := by
    simpa only [followed, trusted, Bool.not_eq_false'] using h
  rw [if_pos hskipped] at hdiscovers
  exact (Except.ok.inj hdiscovers).symm

/-- A discovered item comes from a connector that is followed, and inherits the path of the answer. -/
theorem child_spec {child : SearchItem} (h : child ∈ x.children) :
    x.followed = true ∧ x.Names child.bundleId ∧ child.pathIntegrity = x.result.pathIntegrity ∧
      child.pathValidity = x.result.pathValidityChecks := by
  cases hfollowed : x.followed with
  | false =>
    rw [x.children_eq_nil hfollowed] at h
    cases h
  | true =>
    obtain ⟨connectors, hconnectors, hchildren⟩ := x.exists_connectors hfollowed
    rw [hchildren] at h
    obtain ⟨c, hc, hchild⟩ := List.mem_filterMap.1 h
    obtain ⟨bundle, hbundle, rfl⟩ := Option.map_eq_some_iff.1 hchild
    exact ⟨rfl, ⟨connectors, c, hconnectors, hc, hbundle⟩, rfl, rfl⟩

/-- Every bundle that a followed connector names has an item. -/
theorem exists_child (h : x.followed = true) {id : QualifiedName} (hid : x.Names id) :
    ∃ child ∈ x.children, child.bundleId = id := by
  obtain ⟨connectors, hconnectors, hchildren⟩ := x.exists_connectors h
  obtain ⟨connectors', c, hconnectors', hc, hbundle⟩ := hid
  obtain rfl := Except.ok.inj (hconnectors.symm.trans hconnectors')
  refine ⟨⟨id, c.referencedConnectorId, c.referencedMetaBundleId, c.provenanceServiceUri,
    c.referencedBundleHashValue, x.result.pathIntegrity, x.result.pathValidityChecks⟩, ?_, rfl⟩
  rw [hchildren]
  exact List.mem_filterMap.2 ⟨c, hc, by rw [SearchItem.ofConnector?, hbundle]; rfl⟩

end Expansion

/-- A search that succeeds is an expansion. -/
theorem Federation.SearchedBy.exists_expansion {item : SearchItem} {l : Located} {v : Verifier}
    {visit : Visit} (locates : (f.locate p.preference item).value = .ok l)
    (h : f.SearchedBy p item l v visit) :
    ∃ x : Expansion f p, x.item = item ∧ x.located = l ∧ x.verifier = v ∧ x.visit = visit := by
  obtain ⟨hosts, enters, verifies, checked, answers, discovers⟩ := h
  rename_i hosted view verdict own answer children
  have hfind : f.services.find (f.versionService item l) l.bundleId = .ok hosted := by
    rcases hosts with hprefetched | ⟨-, hfind⟩
    · exact Federation.find_of_prefetched locates hprefetched
    · exact hfind
  exact ⟨⟨item, l, v, hosted, view, verdict, own, answer, children, locates, hfind, enters, verifies,
    checked, answers, discovers⟩, rfl, rfl, rfl, rfl⟩

/-! ## Expansions in a run -/

namespace Expansion

variable {start st st' : SearchState} {es es' : List Event} {x : Expansion f p}

/-- The bundle was examined in a run, when the verifier was the one of the expansion. -/
def Examined (start : SearchState) (es : List Event) (st : SearchState) (x : Expansion f p) : Prop :=
  ∃ before mid after, es = before ++ .examined x.item x.located :: after ∧ Run f p start before mid ∧
    Run f p mid (.examined x.item x.located :: after) st ∧ mid.verifier = x.verifier

/-- The expansion was carried out in a run: the bundle was examined, and the visit ended with what that
brought. -/
def Performed (start : SearchState) (es : List Event) (st : SearchState) (x : Expansion f p) : Prop :=
  x.Examined start es st ∧ ∃ admitted, Event.ended x.item x.version? (.ok x.visit) admitted ∈ es

/-- What was examined stays so in a longer run. -/
theorem Examined.append (h : x.Examined start es st) (later : Run f p st es' st') :
    x.Examined start (es ++ es') st' := by
  obtain ⟨before, mid, after, rfl, hrun, hrest, hverifier⟩ := h
  exact ⟨before, mid, after ++ es', by simp, hrun, hrest.append later, hverifier⟩

/-- What was performed stays so in a longer run. -/
theorem Performed.append (h : x.Performed start es st) (later : Run f p st es' st') :
    x.Performed start (es ++ es') st' := by
  obtain ⟨hexamined, admitted, hended⟩ := h
  exact ⟨hexamined.append later, admitted, List.mem_append_left _ hended⟩

end Expansion

/-- Following a reference brings no answer yet. -/
theorem followReference_stage_ne {s s' : Session} {item : SearchItem} {v : OpenVisit}
    (h : f.followReference p s item = (v, s')) (result : Option FoundResult) (found : Bool)
    (children : List SearchItem) : v.stage ≠ .settled (.ok (.searched result found children)) := by
  cases followReference_follows h <;> simp

/-- What the visits under way are about to bring was examined in the run. -/
def SearchState.Backed (f : Federation) (p : SearchPlan) (st start : SearchState) (es : List Event) :
    Prop :=
  ∀ item version result found children,
    OpenVisit.mk item version (.settled (.ok (.searched result found children))) ∈ st.running →
      ∃ x : Expansion f p, x.Examined start es st ∧ x.item = item ∧ x.version? = version ∧
        x.visit = .searched result found children

namespace SearchState.Backed

variable {start st st' : SearchState} {es : List Event} {e : Event}

/-- Visits that have been under way before are backed as before. -/
theorem of_subset (h : st.Backed f p start es) (later : Run f p st [e] st') (running : List OpenVisit)
    (hsub : ∀ v ∈ st'.running, v ∈ st.running ∨ v ∈ running)
    (hnew : ∀ v ∈ running, ∀ result found children,
      v.stage ≠ .settled (.ok (.searched result found children))) : st'.Backed f p start (es ++ [e]) := by
  intro item version result found children hv
  rcases hsub _ hv with hv | hv
  · obtain ⟨x, hexamined, hx⟩ := h _ _ _ _ _ hv
    exact ⟨x, hexamined.append later, hx⟩
  · exact absurd rfl (hnew _ hv result found children)

/-- Every change keeps the visits under way backed. -/
theorem change (h : st.Backed f p start es) (hrun : Run f p start es st) (hlaid : st.Laid f p)
    (hchange : Change f p st e st') (later : Run f p st [e] st') :
    st'.Backed f p start (es ++ [e]) := by
  cases hchange with
  | @claimed passed rest t item passes front free top within =>
    refine h.of_subset later [.start item] (fun v hv => List.mem_append.1 hv) ?_
    intro v hv
    obtain rfl := List.mem_singleton.1 hv
    simp [OpenVisit.start]
  | returned passes front free outranked => exact h.of_subset later [] (fun v => .inl) (by simp)
  | exhausted passes empty => exact h.of_subset later [] (fun v => .inl) (by simp)
  | @followed before after item v s running result =>
    refine h.of_subset later [v] (fun w hw => ?_) ?_
    · rw [running]
      simp only [List.mem_append, List.mem_cons, List.not_mem_nil] at hw ⊢
      tauto
    · intro w hw
      obtain rfl := List.mem_singleton.1 hw
      exact followReference_stage_ne result
  | @examined before after item version l running =>
    -- the one change after which a visit has something to bring
    intro item' version' result found children hv
    rcases List.mem_append.1 hv with hv | hv
    · obtain ⟨x, hexamined, hx⟩ := h _ _ _ _ _ (by rw [running]; exact List.mem_append_left _ hv)
      exact ⟨x, hexamined.append later, hx⟩
    · rcases List.mem_cons.1 hv with heq | hv
      · obtain ⟨rfl, rfl, hstage⟩ := OpenVisit.mk.inj heq
        obtain ⟨hversion, hleads⟩ :=
          (hlaid.founded ⟨item', version', .located l⟩ (by simp [running])).of_located
        have hsearched := Federation.search_ok (Stage.settled.inj hstage).symm
        obtain ⟨x, rfl, rfl, hverifier, hvisit⟩ := hsearched.exists_expansion hleads
        exact ⟨x, ⟨es, st, [], rfl, hrun, later, hverifier.symm⟩, rfl, hversion.symm, hvisit⟩
      · obtain ⟨x, hexamined, hx⟩ :=
          h _ _ _ _ _ (by rw [running]; exact List.mem_append_right _ (List.mem_cons_of_mem _ hv))
        exact ⟨x, hexamined.append later, hx⟩
  | @ended before after item version outcome running =>
    refine h.of_subset later [] (fun v hv => .inl ?_) (by simp)
    rw [running]
    simp only [List.mem_append, List.mem_cons] at hv ⊢
    tauto
  | elsewhere call => exact h.of_subset later [] (fun v => .inl) (by simp)

end SearchState.Backed

namespace Run

variable {start st : SearchState} {es : List Event}

/-- Every run backs its results and discoveries by expansions. -/
theorem backed (hlaid : start.Laid f p) (hstart : start.running = []) (h : Run f p start es st) :
    st.Backed f p start es := by
  induction h with
  | nil =>
    intro item version result found children hv
    rw [hstart] at hv
    cases hv
  | step run hmove ih =>
    have hlaid' := run.laid hlaid
    exact ih.change run hlaid' (SearchState.move_change hlaid'.fits hmove) (.step .nil hmove)

/-- A visit that ended with a search carried an expansion out. -/
theorem exists_expansion_of_ended (hlaid : start.Laid f p) (hstart : start.running = [])
    (h : Run f p start es st) {item : SearchItem} {version : Option QualifiedName}
    {result : Option FoundResult} {found : Bool} {children admitted : List SearchItem}
    (hended : Event.ended item version (.ok (.searched result found children)) admitted ∈ es) :
    ∃ x : Expansion f p, x.Performed start es st ∧ x.item = item ∧ x.version? = version ∧
      x.visit = .searched result found children := by
  induction h with
  | nil => cases hended
  | @step es st st' m e run hmove ih =>
    have hlogged : ∃ admitted, Event.ended item version (.ok (.searched result found children))
        admitted ∈ es ++ [e] := ⟨admitted, hended⟩
    rcases List.mem_append.1 hended with hended | hended
    · obtain ⟨x, hperformed, hx⟩ := ih hended
      exact ⟨x, hperformed.append (.step .nil hmove), hx⟩
    · obtain rfl := List.mem_singleton.1 hended
      have hlaid' := run.laid hlaid
      cases SearchState.move_change hlaid'.fits hmove with
      | @ended before after item version outcome running =>
        obtain ⟨x, hexamined, rfl, rfl, hvisit⟩ :=
          run.backed hlaid hstart _ _ _ _ _ (by rw [running]; exact List.mem_append_right _ List.mem_cons_self)
        refine ⟨x, ⟨hexamined.append (.step .nil hmove), ?_⟩, rfl, rfl, hvisit⟩
        rw [hvisit]
        exact hlogged

/-- Every answer was brought by a visit that ended. -/
theorem exists_ended_of_mem_results (hlaid : start.Laid f p) (hresults : start.session.results = [])
    (h : Run f p start es st) :
    ∀ r ∈ st.session.results, ∃ item version found children admitted,
      Event.ended item version (.ok (.searched (some r) found children)) admitted ∈ es := by
  refine h.induct (motive := fun es st => ∀ r ∈ st.session.results,
    ∃ item version found children admitted,
      Event.ended item version (.ok (.searched (some r) found children)) admitted ∈ es) hlaid ?_ ?_
  · simp [hresults]
  · intro es st e st' hlaid ih hchange r hr
    rcases hchange.mem_results hlaid hr with hr | ⟨item, version, found, children, admitted, rfl, -⟩
    · obtain ⟨item, version, found, children, admitted, hended⟩ := ih r hr
      exact ⟨item, version, found, children, admitted, List.mem_append_left _ hended⟩
    · exact ⟨item, version, found, children, admitted, by simp⟩

/-- Every answer is the answer of an expansion that was carried out. -/
theorem exists_expansion_of_mem_results (hlaid : start.Laid f p) (hstart : start.running = [])
    (hresults : start.session.results = []) (h : Run f p start es st) {r : FoundResult}
    (hr : r ∈ st.session.results) : ∃ x : Expansion f p, x.Performed start es st ∧ x.result = r := by
  obtain ⟨item, version, found, children, admitted, hended⟩ :=
    h.exists_ended_of_mem_results hlaid hresults r hr
  obtain ⟨x, hperformed, -, -, hvisit⟩ := h.exists_expansion_of_ended hlaid hstart hended
  have hresult : (if x.reported then some x.result else none) = some r := (Visit.searched.inj hvisit).1
  exact ⟨x, hperformed, Option.some.inj (Option.ite_none_right_eq_some.1 hresult).2⟩

end Run

end ProvenanceTrail
