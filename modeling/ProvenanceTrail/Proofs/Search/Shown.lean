import Mathlib.Data.Prod.Lex
import ProvenanceTrail.Proofs.Json.Canonical
import ProvenanceTrail.Proofs.Search.Failures
import ProvenanceTrail.Proofs.Search.Loop
import ProvenanceTrail.Proofs.Search.Schedule
import ProvenanceTrail.Proofs.Version.Latest

/-!
# What a report shows

A search tells bundles apart by their names, which are pairs of a namespace and a local part. Its report lists
them by their URIs, where the two parts are written as one text. So a report shows what became of every bundle
exactly when no two of them share a URI (`SearchReport.showsEveryOutcome_iff`); of those that do, the last one
in the order of names is shown (`Visits.lookup_members`).

Which bundles a search comes across depends on the names that the hosted bundles mention, as the reference of a
node or as a version that it lists (`Federation.Mentions`). When these names have different URIs, whatever is
searched is shown.
-/

namespace ProvenanceTrail

/-! ## The order of names -/

namespace QualifiedName

/-- The two parts of a name, of which the first one is compared first. -/
def parts (n : QualifiedName) : String ×ₗ String := toLex (n.nameSpace, n.localPart)

/-- A name is determined by its parts. -/
theorem parts_injective : Function.Injective parts := by
  rintro ⟨nameSpace, localPart⟩ ⟨nameSpace', localPart'⟩ h
  obtain ⟨rfl, rfl⟩ := Prod.mk.inj (toLex_inj.1 h)
  rfl

/-- Names are compared by their parts. -/
theorem blt_iff {a b : QualifiedName} : a.blt b = true ↔ a.parts < b.parts := by
  rw [blt, parts, parts, Prod.Lex.toLex_lt_toLex]
  simp

/-- Names are written differently. -/
theorem toJson_injective : Function.Injective toJson := by
  rintro ⟨nameSpace, localPart⟩ ⟨nameSpace', localPart'⟩ h
  simp_all [toJson]

end QualifiedName

/-- The value that stands for an outcome stands for no other one. -/
theorem VisitOutcome.toJson_injective : Function.Injective VisitOutcome.toJson := by
  intro a b h
  cases a <;> cases b <;> simp_all [toJson]
  exact QualifiedName.toJson_injective h

/-! ## Outcomes in the order of names -/

namespace Visits

/-- Names ascend. -/
def Ascending (visits : Visits) : Prop := visits.Pairwise fun v w => v.1.parts < w.1.parts

/-- The members under which the outcomes are written, in the order of names. -/
def members (visits : Visits) : List (String × Json) := visits.map fun v => (v.1.uri, v.2.toJson)

variable {visits : Visits} {id : QualifiedName} {outcome : VisitOutcome}

/-- No id occurs twice among ascending visits. -/
theorem Ascending.distinct (h : visits.Ascending) : (visits.map Prod.fst).Nodup :=
  List.pairwise_map.2 (h.imp fun hlt heq => hlt.ne (congrArg QualifiedName.parts heq))

/-- An id has an outcome just if it is recorded. -/
theorem has_iff_mem : has id visits = true ↔ id ∈ visits.map Prod.fst := by
  rw [has, Option.isSome_iff_ne_none, ne_eq, find?_eq_none_iff, not_not]

/-- Recorded after an insertion is the new outcome or what was there. -/
theorem mem_insert {v : QualifiedName × VisitOutcome} (h : v ∈ insert id outcome visits) :
    v = (id, outcome) ∨ v ∈ visits := by
  induction visits with
  | nil => exact .inl (List.mem_singleton.1 h)
  | cons w rest ih =>
    obtain ⟨other, old⟩ := w
    unfold insert at h
    split_ifs at h
    · exact (List.mem_cons.1 h).imp_right (List.mem_cons_of_mem _)
    · exact List.mem_cons.1 h
    · rcases List.mem_cons.1 h with rfl | h
      · exact .inr List.mem_cons_self
      · exact (ih h).imp_right (List.mem_cons_of_mem _)

/-- An outcome is recorded at the place of its name. -/
theorem Ascending.insert (h : visits.Ascending) (id : QualifiedName) (outcome : VisitOutcome) :
    (insert id outcome visits).Ascending := by
  induction visits with
  | nil => exact List.pairwise_singleton _ _
  | cons w rest ih =>
    obtain ⟨other, old⟩ := w
    obtain ⟨hhead, hrest⟩ := List.pairwise_cons.1 h
    unfold Visits.insert
    split_ifs with hsame hless
    · subst hsame
      exact List.pairwise_cons.2 ⟨hhead, hrest⟩
    · have hlt := QualifiedName.blt_iff.1 hless
      refine List.pairwise_cons.2 ⟨fun v hv => ?_, h⟩
      rcases List.mem_cons.1 hv with rfl | hv
      · exact hlt
      · exact hlt.trans (hhead v hv)
    · -- neither the same name nor a smaller one
      have hgt : other.parts < id.parts := by
        apply lt_of_le_of_ne
        · exact not_lt.1 fun hlt => hless (QualifiedName.blt_iff.2 hlt)
        · intro heq
          exact hsame (QualifiedName.parts_injective heq).symm
      refine List.pairwise_cons.2 ⟨fun v hv => ?_, ih hrest⟩
      rcases mem_insert hv with rfl | hv
      · exact hgt
      · exact hhead v hv

/-- Recording outcomes keeps the visits ascending. -/
theorem Ascending.insertAll (h : visits.Ascending) (records : List (QualifiedName × VisitOutcome)) :
    (insertAll records visits).Ascending := by
  induction records generalizing visits with
  | nil => exact h
  | cons r rest ih => exact ih (h.insert r.1 r.2)

/-- Under a URI stands the outcome of the last bundle that has it. -/
theorem lookup_members (h : visits.Ascending) {uri : String} {value : Json} :
    Json.lookup uri visits.members = some value ↔
      ∃ v ∈ visits, v.1.uri = uri ∧ v.2.toJson = value ∧
        ∀ w ∈ visits, w.1.uri = uri → w.1.parts ≤ v.1.parts := by
  induction visits using List.reverseRecOn with
  | nil => simp [members, Json.lookup]
  | append_singleton visits v ih =>
    obtain ⟨hbefore, -, hlast⟩ := List.pairwise_append.1 h
    have hless (w) (hw : w ∈ visits) : w.1.parts < v.1.parts := hlast w hw v (List.mem_singleton_self _)
    rw [members, List.map_append, List.map_singleton, Json.lookup_append_singleton, ← members]
    -- a later member of the same URI hides those before it
    split_ifs with huri
    · constructor
      · intro hvalue
        refine ⟨v, List.mem_append_right _ (List.mem_singleton_self _), huri, Option.some.inj hvalue, ?_⟩
        intro w hw _
        rcases List.mem_append.1 hw with hw | hw
        · exact (hless w hw).le
        · rw [List.mem_singleton.1 hw]
      · rintro ⟨w, hw, -, rfl, hgreatest⟩
        have hle := hgreatest v (List.mem_append_right _ (List.mem_singleton_self _)) huri
        rcases List.mem_append.1 hw with hw | hw
        · exact absurd hle (hless w hw).not_ge
        · rw [List.mem_singleton.1 hw]
    · rw [ih hbefore]
      constructor
      · rintro ⟨w, hw, hwuri, hvalue, hgreatest⟩
        refine ⟨w, List.mem_append_left _ hw, hwuri, hvalue, fun u hu huuri => ?_⟩
        rcases List.mem_append.1 hu with hu | hu
        · exact hgreatest u hu huuri
        · exact absurd (List.mem_singleton.1 hu ▸ huuri) huri
      · rintro ⟨w, hw, hwuri, hvalue, hgreatest⟩
        rcases List.mem_append.1 hw with hw | hw
        · exact ⟨w, hw, hwuri, hvalue, fun u hu => hgreatest u (List.mem_append_left _ hu)⟩
        · exact absurd (List.mem_singleton.1 hw ▸ hwuri) huri

end Visits

variable {f : Federation} {p : SearchPlan}

namespace Session

/-- Skipping bundles because of the limit keeps the outcomes in order. -/
theorem Passes.ascending {limit : Option Nat} {s t : Session} {passed : List SearchItem}
    (h : Passes limit s passed t) (hs : s.visited.Ascending) : t.visited.Ascending := by
  induction h with
  | nil => exact hs
  | drop front claimed more ih => exact ih hs
  | skip front free top reached more ih => exact ih (hs.insert _ _)

end Session

/-- Every change keeps the outcomes in order. -/
theorem Change.ascending {st st' : SearchState} {e : Event} (hchange : Change f p st e st')
    (h : st.session.visited.Ascending) : st'.session.visited.Ascending := by
  cases hchange with
  | claimed passes | returned passes | exhausted passes => exact passes.ascending h
  | followed running result =>
    rcases followReference_claims result with ⟨-, rfl⟩ | ⟨id, -, -, -, rfl⟩
    · exact h
    · exact h
  | examined | elsewhere => exact h
  | @ended before after item version outcome running =>
    show (st.session.complete item.bundleId version outcome).visited.Ascending
    rw [st.session.complete_visited]
    exact h.insertAll _

/-- The outcomes of a search are ascending at any time. -/
theorem Engine.ascending_of_prepare {r : SearchRequest} {s : Session} {v : Verifier} {es : List Event}
    {st : SearchState} (hprepare : prepare f r = .ok (p, s)) (hrun : Run f p (.initial s v) es st) :
    st.session.visited.Ascending := by
  refine hrun.induct (motive := fun _ st => st.session.visited.Ascending) (laid_of_prepare hprepare) ?_ ?_
  · obtain ⟨entry, -, rfl⟩ := prepare_eq_ok hprepare
    exact .nil
  · exact fun es st e st' _ ih hchange => hchange.ascending ih

/-! ## The object `visited` of a report -/

namespace SearchReport

/-- The report has in `visited` exactly one member for each bundle with an outcome, and under the URI of the
bundle that outcome and no other one can be read. -/
def ShowsEveryOutcome (r : SearchReport) : Prop :=
  ∃ members, r.toJson.get? "visited" = some (.object members) ∧ (members.map Prod.fst).Nodup ∧
    (members.map Prod.fst).Perm (r.visited.map fun v => v.1.uri) ∧
    ∀ id, Visits.has id r.visited = true → ∀ outcome,
      Json.lookup id.uri members = some outcome.toJson ↔ r.outcome? id = some outcome

variable {r : SearchReport}

/-- The outcomes of a report are the members under that key, sorted. -/
theorem get?_visited (r : SearchReport) :
    r.toJson.get? "visited" = some (.object (Json.sortMembers r.visited.members)) := rfl

/-- A report shows every outcome when no two bundles with an outcome share a URI. -/
theorem showsEveryOutcome_iff (h : r.visited.Ascending) :
    r.ShowsEveryOutcome ↔ ∀ a b, Visits.has a r.visited = true → Visits.has b r.visited = true →
      a.uri = b.uri → a = b := by
  have huris : r.visited.members.map Prod.fst = r.visited.map fun v => v.1.uri := by
    rw [Visits.members, List.map_map]
    rfl
  constructor
  · rintro ⟨members, -, hdistinct, hone, -⟩ a b ha hb huri
    obtain ⟨v, hv, rfl⟩ := List.mem_map.1 (Visits.has_iff_mem.1 ha)
    obtain ⟨w, hw, rfl⟩ := List.mem_map.1 (Visits.has_iff_mem.1 hb)
    rw [List.inj_on_of_nodup_map (hone.nodup_iff.1 hdistinct) hv hw huri]
  · intro hdiffer
    have hinj {v w : QualifiedName × VisitOutcome} (hv : v ∈ r.visited) (hw : w ∈ r.visited)
        (huri : v.1.uri = w.1.uri) : v.1 = w.1 :=
      hdiffer _ _ (Visits.has_iff_mem.2 (List.mem_map_of_mem hv))
        (Visits.has_iff_mem.2 (List.mem_map_of_mem hw)) huri
    have hnodup : (r.visited.members.map Prod.fst).Nodup := by
      rw [huris]
      apply List.pairwise_map.2
      apply h.imp_of_mem
      intro v w hv hw hlt huri
      exact hlt.ne (congrArg QualifiedName.parts (hinj hv hw huri))
    have hperm := (Json.sortMembers_perm hnodup).map Prod.fst
    refine ⟨_, r.get?_visited, Json.nodup_sortMembers _, huris ▸ hperm, ?_⟩
    intro id hid outcome
    -- a member found under the URI belongs to the bundle itself, since no other one has it
    obtain ⟨v, hv, rfl⟩ := List.mem_map.1 (Visits.has_iff_mem.1 hid)
    rw [Json.lookup_sortMembers, Json.lookup_eq_some_iff hnodup, outcome?,
      Visits.find?_eq_some_iff h.distinct, Visits.members, List.mem_map]
    constructor
    · rintro ⟨w, hw, hmember⟩
      obtain ⟨huri, hvalue⟩ := Prod.mk.inj hmember
      rwa [← hinj hw hv huri, ← VisitOutcome.toJson_injective hvalue]
    · exact fun hmem => ⟨_, hmem, rfl⟩

/-- What is shown under a URI is the outcome of the last bundle that has it. -/
theorem get?_visited_eq_some_iff (h : r.visited.Ascending) {uri : String} {value : Json} :
    (r.toJson.get? "visited").bind (Json.get? uri) = some value ↔
      ∃ id outcome, r.outcome? id = some outcome ∧ id.uri = uri ∧ outcome.toJson = value ∧
        ∀ other, Visits.has other r.visited = true → other.uri = uri → id.blt other = false := by
  have hget : (r.toJson.get? "visited").bind (Json.get? uri) =
      Json.lookup uri (Json.sortMembers r.visited.members) := rfl
  rw [hget, Json.lookup_sortMembers, Visits.lookup_members h]
  constructor
  · rintro ⟨⟨id, outcome⟩, hmem, huri, hvalue, hgreatest⟩
    refine ⟨id, outcome, (Visits.find?_eq_some_iff h.distinct).2 hmem, huri, hvalue, fun other hother huri' => ?_⟩
    obtain ⟨w, hw, rfl⟩ := List.mem_map.1 (Visits.has_iff_mem.1 hother)
    apply Bool.eq_false_iff.2
    intro hless
    exact (hgreatest w hw huri').not_gt (QualifiedName.blt_iff.1 hless)
  · rintro ⟨id, outcome, hfind, huri, hvalue, hgreatest⟩
    refine ⟨_, (Visits.find?_eq_some_iff h.distinct).1 hfind, huri, hvalue, fun w hw huri' => ?_⟩
    have hnot := hgreatest w.1 (Visits.has_iff_mem.2 (List.mem_map_of_mem hw)) huri'
    apply not_lt.1
    intro hless
    exact Bool.eq_false_iff.1 hnot (QualifiedName.blt_iff.2 hless)

end SearchReport

/-! ## The names that a search can come across -/

/-- A hosted bundle lists a name as a version. -/
def Services.Lists (s : Services) (id : QualifiedName) : Prop :=
  ∃ entry ∈ s.hosted, ∃ n ∈ entry.2.bundle.versionNodes, (entry.2.bundle.node n).id = id

/-- The latest version, where a bundle lists any, is one that it lists. -/
theorem Bundle.listed_of_latestVersion {b : Bundle} {version : Option QualifiedName}
    (h : b.latestVersion = .ok version) (id : QualifiedName) :
    version.getD id = id ∨ ∃ n ∈ b.versionNodes, (b.node n).id = version.getD id := by
  cases version with
  | none => exact .inl rfl
  | some latest =>
    obtain ⟨n, -, hn, rfl, -⟩ := latestVersion_eq_some_iff.1 h
    exact .inr ⟨n, hn, rfl⟩

/-- A latest version is the bundle itself or one that is listed. -/
theorem Services.lists_of_latestVersion {s : Services} {service : String} {id metaId : QualifiedName}
    {listing : HostedBundle} {version : Option QualifiedName} (hfind : s.find service metaId = .ok listing)
    (h : listing.bundle.latestVersion = .ok version) : version.getD id = id ∨ s.Lists (version.getD id) :=
  (Bundle.listed_of_latestVersion h id).imp_right fun ⟨n, hn, hid⟩ =>
    ⟨_, (mem_hosted_of_find hfind).1, n, hn, hid⟩

/-- A service picks the bundle itself or a version that is listed. -/
theorem Services.lists_of_pickVersion {s : Services} {service : String} {id version : QualifiedName}
    (h : s.pickVersion service id .latest = .ok version) : version = id ∨ s.Lists version := by
  unfold pickVersion at h
  simp only at h
  split at h
  · cases h
  · split at h
    · cases h
    · split at h
      · cases h
      · rename_i listing hlisting
        split at h
        · cases h
        · rename_i latest hlatest
          obtain rfl := Except.ok.inj h
          exact lists_of_latestVersion hlisting hlatest

/-- A reference is resolved to the bundle itself or to a version that is listed. -/
theorem Resolver.lists_of_resolve {r : Resolver} {service : String} {id : QualifiedName}
    {preference : VersionPreference} {hint : Option QualifiedName} {resolved : Resolved}
    (h : (r.resolve service id preference hint).value = .ok resolved) :
    resolved.bundleId = id ∨ r.services.Lists resolved.bundleId := by
  cases preference with
  | specified =>
    obtain rfl := Except.ok.inj h
    exact .inl rfl
  | latest =>
    unfold resolve at h
    cases hdelegate : r.delegate with
    | true =>
      simp only [hdelegate, if_true] at h
      split at h
      · rename_i version hversion
        obtain rfl := Except.ok.inj h
        exact Services.lists_of_pickVersion hversion
      · cases h
    | false =>
      simp only [hdelegate, Bool.false_eq_true, if_false, resolveLatest] at h
      split at h
      · cases h
      · split at h
        · cases h
        · split at h
          · cases h
          · rename_i listing hlisting
            simp only at h
            split at h
            · cases h
            · rename_i version hversion
              obtain rfl := Except.ok.inj h
              exact Services.lists_of_latestVersion hlisting hversion

/-- The reference of an item leads to its bundle or to a version that is listed. -/
theorem Federation.lists_of_locate {preference : VersionPreference} {item : SearchItem} {l : Located}
    (h : (f.locate preference item).value = .ok l) :
    l.bundleId = item.bundleId ∨ f.services.Lists l.bundleId := by
  unfold locate at h
  split at h
  · cases h
  · simp only at h
    split at h
    · cases h
    · rename_i resolved hresolved
      obtain rfl := Except.ok.inj h
      exact Resolver.lists_of_resolve hresolved

/-- A name that a search from a first bundle can come across: the first one, one that a node of a hosted bundle
refers to, or one that a hosted bundle lists as a version. -/
inductive Federation.Mentions (f : Federation) (first : QualifiedName) : QualifiedName → Prop
  | first : Mentions f first first
  | referenced {id : QualifiedName} (h : id ∈ f.services.referenced) : Mentions f first id
  | version {id : QualifiedName} (h : f.services.Lists id) : Mentions f first id

namespace Engine

variable {r : SearchRequest} {s : Session} {v : Verifier} {es : List Event} {st : SearchState}

/-- A bundle with an outcome is one that is mentioned. -/
theorem mentions_of_has (hprepare : prepare f r = .ok (p, s)) (hrun : Run f p (.initial s v) es st)
    {id : QualifiedName} (hid : Visits.has id st.session.visited = true) : f.Mentions r.bundleId id := by
  have hlaid := laid_of_prepare (v := v) hprepare
  have hcreated {y : SearchItem} (hy : y ∈ createdItems s es) : f.Mentions r.bundleId y.bundleId := by
    rcases referenced_of_mem_createdItems hprepare hrun hy with hfirst | ⟨x, -, -, hnames⟩
    · exact hfirst ▸ .first
    · exact .referenced hnames.mem_referenced
  rcases created_or_located_of_has hprepare hrun hid with ⟨y, hy, rfl⟩ | ⟨item, hitem, l, hleads, rfl⟩
  · exact hcreated hy
  · rcases Federation.lists_of_locate hleads with hsame | hlisted
    · exact hsame ▸ hcreated ((hrun.items_subset_createdItems hlaid rfl).2 hitem)
    · exact .version hlisted

/-- **What a report shows.** In every state that a search reaches, its report shows every outcome exactly when
no two bundles with an outcome share a URI; under the URI of several the last one in the order of names is
shown. All bundles with an outcome are mentioned: requested, referred to or listed as a version. So every
outcome is shown whenever the names that are mentioned have different URIs. -/
theorem shows_every_outcome_iff (hprepare : prepare f r = .ok (p, s))
    (hrun : Run f p (.initial s v) es st) (late : Bool) :
    ((reportOf f.settings late st.session).ShowsEveryOutcome ↔
      ∀ a b, Visits.has a st.session.visited = true → Visits.has b st.session.visited = true →
        a.uri = b.uri → a = b) ∧
    (∀ uri value,
      ((reportOf f.settings late st.session).toJson.get? "visited").bind (Json.get? uri) = some value ↔
        ∃ id outcome, Visits.find? id st.session.visited = some outcome ∧ id.uri = uri ∧
          outcome.toJson = value ∧
          ∀ other, Visits.has other st.session.visited = true → other.uri = uri → id.blt other = false) ∧
    (∀ id, Visits.has id st.session.visited = true → f.Mentions r.bundleId id) ∧
    ((∀ a b, f.Mentions r.bundleId a → f.Mentions r.bundleId b → a.uri = b.uri → a = b) →
      (reportOf f.settings late st.session).ShowsEveryOutcome) := by
  have hordered : (reportOf f.settings late st.session).visited.Ascending :=
    ascending_of_prepare hprepare hrun
  have hmentions (id : QualifiedName) (hid : Visits.has id st.session.visited = true) :=
    mentions_of_has hprepare hrun hid
  have hshows := SearchReport.showsEveryOutcome_iff hordered
  refine ⟨hshows, fun uri value => SearchReport.get?_visited_eq_some_iff hordered, hmentions, ?_⟩
  intro hdiffer
  apply hshows.2
  intro a b ha hb
  exact hdiffer a b (hmentions a ha) (hmentions b hb)

/-- In the small federation all names that are visited have the namespace of bundles, so each has its member. -/
theorem sample_shows_every_outcome :
    ∃ es st, Run Sample.federation Sample.plan (.initial Sample.session Sample.verifier) es st ∧
      st.session.visited.length = 5 ∧
      (reportOf Sample.federation.settings false st.session).ShowsEveryOutcome := by
  have hplay : (SearchState.play Sample.federation Sample.plan (.initial Sample.session Sample.verifier)
      Sample.complete).any (fun r =>
        r.2.session.visited.map Prod.fst == ["A", "B", "C", "X", "Y"].map Sample.document) = true := by
    decide +kernel
  obtain ⟨⟨es, st⟩, hst, hplayed⟩ := (Option.any_eq_true _ _).1 hplay
  have hvisited := eq_of_beq hplayed
  have hrun := Run.of_play hst
  refine ⟨es, st, hrun, ?_, (shows_every_outcome_iff Sample.prepare_request hrun false).1.2 ?_⟩
  · rw [← List.length_map (f := Prod.fst), hvisited]
    rfl
  · intro a b ha hb huri
    rw [Visits.has_iff_mem, hvisited] at ha hb
    obtain ⟨x, -, rfl⟩ := List.mem_map.1 ha
    obtain ⟨y, -, rfl⟩ := List.mem_map.1 hb
    have hsame : "http://a/" ++ x = "http://a/" ++ y := huri
    rw [(String.append_right_inj _).1 hsame]

open Sample.Spellings in
/-- The bundle that is hosted is found, and the other name of its URI is skipped. -/
theorem exists_search_spellings :
    ∃ report e' code message, engine.search request = (.ok report, e') ∧
      report.outcome? whole = some .found ∧
      report.outcome? (Sample.document "B") = some (.skipped code message) := by
  have hsearch : (engine.search request).1.toOption.any (fun report =>
      report.outcome? whole == some .found &&
        (report.outcome? (Sample.document "B")).any (·.isSkippedWith "REMOTE_CALL_ERROR")) = true := by
    decide +kernel
  rcases hreport : engine.search request with ⟨_ | report, e'⟩
  · rw [hreport] at hsearch
    cases hsearch
  · rw [hreport] at hsearch
    obtain ⟨hfound, hskipped⟩ := Bool.and_eq_true_iff.1 hsearch
    obtain ⟨outcome, houtcome, hcode⟩ := (Option.any_eq_true _ _).1 hskipped
    cases outcome with
    | skipped code message => exact ⟨report, e', code, message, rfl, eq_of_beq hfound, houtcome⟩
    | found | notFound | redirected => cases hcode

/-- A report need not show every outcome: of two bundles with one URI the later one hides the other, so that a
bundle with an answer is shown as skipped. -/
theorem not_forall_shows_every_outcome :
    ¬∀ (e e' : Engine) (r : SearchRequest) (report : SearchReport), e.search r = (.ok report, e') →
        report.ShowsEveryOutcome := by
  intro h
  obtain ⟨report, e', code, message, hreport, hwhole, hB⟩ := exists_search_spellings
  obtain ⟨members, -, -, -, hread⟩ := h _ _ _ report hreport
  have hfound := (hread _ (Option.isSome_iff_exists.2 ⟨_, hwhole⟩) _).2 hwhole
  have hskipped := (hread _ (Option.isSome_iff_exists.2 ⟨_, hB⟩) _).2 hB
  have huri : Sample.Spellings.whole.uri = (Sample.document "B").uri := by decide
  rw [huri, hskipped] at hfound
  exact VisitOutcome.noConfusion (VisitOutcome.toJson_injective (Option.some.inj hfound))

end Engine

end ProvenanceTrail
