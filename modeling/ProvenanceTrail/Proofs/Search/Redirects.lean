import Mathlib.Logic.Relation
import Mathlib.Order.WellFoundedSet
import ProvenanceTrail.Proofs.Search.Answers

/-!
# Where redirects lead

A visit whose reference leads to a claimed bundle is redirected there and searches nothing itself. Whether
the bundle that it is redirected to is ever searched is decided elsewhere, and following redirects may come
back to where it started: two visits under way may each be redirected to the other's bundle, and then
nobody searches either. `redirects_end_iff` says when this happens. Redirects never lead to a bundle that
has no outcome, they end exactly if they reach no cycle, and on every cycle there is a bundle that was
*met*: a reference led to it while the visit that held it had not followed its own reference. A search
that takes up one bundle at a time meets none.

The argument follows what a redirect's target is `Destined` to. When the redirect is decided the target is
claimed, and unless it is met it has been decided on as well, so its fate is known from then on.
-/

namespace ProvenanceTrail

variable {f : Federation} {p : SearchPlan}

open Relation (ReflTransGen TransGen)

/-! ## Links between outcomes -/

namespace Visits

variable {visits : Visits} {a b c : QualifiedName}

/-- The outcome of a bundle is that another one was to be searched in its place. -/
def Redirects (visits : Visits) (a b : QualifiedName) : Prop :=
  find? a visits = some (.redirected b)

/-- A bundle was searched, or its branch ended with an error. -/
def Processed (visits : Visits) (a : QualifiedName) : Prop :=
  ∃ outcome, find? a visits = some outcome ∧ ∀ b, outcome ≠ .redirected b

/-- The redirects from a bundle end, at a bundle that was processed. -/
def Ends (visits : Visits) (a : QualifiedName) : Prop :=
  ∃ b, ReflTransGen (Redirects visits) a b ∧ Processed visits b

/-- A reference is redirected to one bundle only. -/
theorem Redirects.eq (h : Redirects visits a b) (h' : Redirects visits a c) : b = c :=
  VisitOutcome.redirected.inj (Option.some.inj (h.symm.trans h'))

/-- What has been processed is not redirected. -/
theorem Processed.not_redirects (h : Processed visits a) : ¬Redirects visits a b := by
  obtain ⟨outcome, hfind, hne⟩ := h
  exact fun hredirects => hne b (Option.some.inj (hfind.symm.trans hredirects))

/-- An outcome is either final or a redirect. -/
theorem processed_or_redirects (h : has a visits = true) :
    Processed visits a ∨ ∃ b, Redirects visits a b := by
  obtain ⟨outcome, hfind⟩ := Option.isSome_iff_exists.1 h
  cases outcome with
  | redirected b => exact .inr ⟨b, hfind⟩
  | found | notFound | skipped code message => exact .inl ⟨_, hfind, by simp⟩

/-- Redirects that end do so wherever one comes in. -/
theorem Ends.of_reflTransGen (h : Ends visits a) (hab : ReflTransGen (Redirects visits) a b) :
    Ends visits b := by
  obtain ⟨c, hac, hc⟩ := h
  induction hab using ReflTransGen.head_induction_on with
  | refl => exact ⟨c, hac, hc⟩
  | head hstep _ ih =>
    refine ih ?_
    rcases hac.cases_head with rfl | ⟨d, hd, hdc⟩
    · exact absurd hstep hc.not_redirects
    · rwa [hstep.eq hd]

/-- On a cycle nothing is processed. -/
theorem not_ends_of_cycle (h : TransGen (Redirects visits) a a) : ¬Ends visits a := by
  rintro ⟨b, hab, hb⟩
  induction hab using ReflTransGen.head_induction_on with
  | refl =>
    obtain ⟨c, hstep, -⟩ := TransGen.head'_iff.1 h
    exact hb.not_redirects hstep
  | head hstep _ ih =>
    -- the next bundle is on the cycle as well
    obtain ⟨c, hstep', hback⟩ := TransGen.head'_iff.1 h
    obtain rfl := hstep.eq hstep'
    exact ih (TransGen.tail' hback hstep)

/-- There are finitely many bundles with an outcome. -/
theorem finite_has (visits : Visits) : {id | has id visits = true}.Finite := by
  refine (visits.map Prod.fst).finite_toSet.subset fun id hid => ?_
  obtain ⟨outcome, hfind⟩ := Option.isSome_iff_exists.1 hid
  obtain ⟨v, hv, -⟩ := Option.map_eq_some_iff.1 hfind
  have hkey : v.1 = id := by simpa using List.find?_some hv
  exact hkey ▸ List.mem_map_of_mem (List.mem_of_find?_eq_some hv)

/-- Following redirects from `a`, one comes to `x` and after that to `y`. -/
def Ahead (visits : Visits) (a y x : QualifiedName) : Prop :=
  ReflTransGen (Redirects visits) a x ∧ TransGen (Redirects visits) x y

/-- If redirects reach no cycle, what lies ahead is a strict order. -/
theorem isStrictOrder_ahead
    (hacyclic : ∀ b, ReflTransGen (Redirects visits) a b → ¬TransGen (Redirects visits) b b) :
    IsStrictOrder QualifiedName (Ahead visits a) where
  irrefl x h := hacyclic x h.1 h.2
  trans _ _ _ hzy hyx := ⟨hyx.1, hyx.2.trans hzy.2⟩

/-- If every redirect leads to a bundle with an outcome, redirects that reach no cycle end. -/
theorem ends_of_acyclic (hclosed : ∀ a b, Redirects visits a b → has b visits = true)
    (ha : has a visits = true)
    (hacyclic : ∀ b, ReflTransGen (Redirects visits) a b → ¬TransGen (Redirects visits) b b) :
    Ends visits a := by
  -- there are finitely many outcomes, so one cannot follow redirects forever without coming back
  have hstrict := isStrictOrder_ahead hacyclic
  have hwf : {id | has id visits = true}.WellFoundedOn (Ahead visits a) := (finite_has visits).wellFoundedOn
  have hall : ReflTransGen (Redirects visits) a a → Ends visits a := by
    refine hwf.induction (P := fun b => ReflTransGen (Redirects visits) a b → Ends visits b) ha ?_
    intro b hb ih hab
    rcases processed_or_redirects hb with hprocessed | ⟨c, hc⟩
    · exact ⟨b, .refl, hprocessed⟩
    · obtain ⟨d, hcd, hd⟩ := ih c (hclosed b c hc) ⟨hab, .single hc⟩ (hab.tail hc)
      exact ⟨d, .head hc hcd, hd⟩
  exact hall .refl

/-- If every redirect leads to a bundle with an outcome, redirects end exactly if they reach no cycle. -/
theorem ends_iff (hclosed : ∀ a b, Redirects visits a b → has b visits = true)
    (ha : has a visits = true) :
    Ends visits a ↔
      ∀ b, ReflTransGen (Redirects visits) a b → ¬TransGen (Redirects visits) b b :=
  ⟨fun h _ hab hcycle => not_ends_of_cycle hcycle (h.of_reflTransGen hab), ends_of_acyclic hclosed ha⟩

end Visits

/-! ## Visits that are redirected -/

/-- A visit is redirected when its reference leads to another bundle, which is claimed. -/
theorem followReference_redirected {s s' : Session} {item : SearchItem} {v : OpenVisit}
    {b : QualifiedName} (h : f.followReference p s item = (v, s'))
    (hstage : v.stage = .settled (.ok (.redirected b))) :
    v = ⟨item, none, .settled (.ok (.redirected b))⟩ ∧ s.isClaimed b = true ∧ b ≠ item.bundleId ∧
      ∃ l, (f.locate p.preference item).value = .ok l ∧ l.bundleId = b := by
  cases followReference_follows h with
  | lost | same | version => simp at hstage
  | @redirected l leads other claimed =>
    obtain rfl : l.bundleId = b := by simpa using hstage
    exact ⟨rfl, claimed, other, l, leads, rfl⟩

namespace OpenVisit

/-- It is decided that a visit ends with a search of what it holds, or with an error. -/
def Decided (v : OpenVisit) : Prop :=
  v.stage ≠ .claimed ∧ ∀ b, v.stage ≠ .settled (.ok (.redirected b))

/-- What can have become of a visit after a change. -/
inductive After (f : Federation) (p : SearchPlan) (st st' : SearchState) (v : OpenVisit) : Prop where
  | same (mem : v ∈ st'.running)
  | followed (fresh : v.stage = .claimed)
  | examined {l : Located} (stage : v.stage = .located l)
      (mem : ⟨v.item, v.version, .settled (f.search p v.item l st.verifier).value.1⟩ ∈ st'.running)
  | ended {outcome : Except BranchError Visit} (stage : v.stage = .settled outcome)
      (session : st'.session = st.session.complete v.item.bundleId v.version outcome)

end OpenVisit

/-- A change leaves a visit as it is, or takes that visit a step further. -/
theorem Change.visit_after {st st' : SearchState} {e : Event} (h : Change f p st e st')
    {v : OpenVisit} (hv : v ∈ st.running) : v.After f p st st' := by
  have hsplit {before after : List OpenVisit} {w : OpenVisit}
      (running : st.running = before ++ w :: after) : v = w ∨ v ∈ before ∨ v ∈ after := by
    rw [running] at hv
    simp only [List.mem_append, List.mem_cons] at hv
    tauto
  cases h with
  | claimed passes front free top within => exact .same (List.mem_append_left _ hv)
  | returned passes front free outranked => exact .same hv
  | exhausted passes empty => exact .same hv
  | followed running result =>
    rcases hsplit running with rfl | hbefore | hafter
    · exact .followed rfl
    · exact .same (List.mem_append_left _ hbefore)
    · exact .same (List.mem_append_right _ (List.mem_cons_of_mem _ hafter))
  | examined running =>
    rcases hsplit running with rfl | hbefore | hafter
    · exact .examined rfl (List.mem_append_right _ List.mem_cons_self)
    · exact .same (List.mem_append_left _ hbefore)
    · exact .same (List.mem_append_right _ (List.mem_cons_of_mem _ hafter))
  | ended running =>
    rcases hsplit running with rfl | hbefore | hafter
    · exact .ended rfl rfl
    · exact .same (List.mem_append_left _ hbefore)
    · exact .same (List.mem_append_right _ hafter)
  | elsewhere call => exact .same hv

/-! ## What redirects lead to while visits are under way -/

/-- A bundle was met in a run: the reference of an item led to it, and the visit that held it had not
followed its own reference yet. -/
def Met (f : Federation) (p : SearchPlan) (start : SearchState) (es : List Event) (st : SearchState)
    (id : QualifiedName) : Prop :=
  ∃ before mid after item y l, es = before ++ .followed item none :: after ∧
    Run f p start before mid ∧ Run f p mid (.followed item none :: after) st ∧
    OpenVisit.start item ∈ mid.running ∧ OpenVisit.start y ∈ mid.running ∧ y.bundleId = id ∧
    (f.locate p.preference item).value = .ok l ∧ l.bundleId = id ∧ id ≠ item.bundleId

/-- What was met stays so in a longer run. -/
theorem Met.append {start st st' : SearchState} {es es' : List Event} {id : QualifiedName}
    (h : Met f p start es st id) (later : Run f p st es' st') : Met f p start (es ++ es') st' id := by
  obtain ⟨before, mid, after, item, y, l, rfl, hbefore, hafter, hrest⟩ := h
  exact ⟨before, mid, after ++ es', item, y, l, by simp, hbefore, hafter.append later, hrest⟩

namespace SearchState

variable {start st st' : SearchState} {es es' : List Event} {e : Event} {a b : QualifiedName}

/-- A bundle is redirected to another one, or will be when a visit under way ends. -/
def Forwards (st : SearchState) (a b : QualifiedName) : Prop :=
  Visits.Redirects st.session.visited a b ∨
    ∃ item, item.bundleId = a ∧ OpenVisit.mk item none (.settled (.ok (.redirected b))) ∈ st.running

/-- What is known to become of a bundle: it was processed, it will be, it is redirected to a bundle of which
as much is known, or it was met. -/
inductive Destined (f : Federation) (p : SearchPlan) (start : SearchState) (es : List Event)
    (st : SearchState) : QualifiedName → Prop where
  | processed {id : QualifiedName} (done : Visits.Processed st.session.visited id) :
      Destined f p start es st id
  | held {id : QualifiedName} {v : OpenVisit} (mem : v ∈ st.running) (holds : id ∈ v.ids)
      (decided : v.Decided) : Destined f p start es st id
  | forwarded {id next : QualifiedName} (link : st.Forwards id next)
      (more : Destined f p start es st next) : Destined f p start es st id
  | met {id : QualifiedName} (met : Met f p start es st id) : Destined f p start es st id

/-- A link stays, whoever records it. -/
theorem Forwards.change (h : st.Forwards a b) (howned : st.Owned) (hchange : Change f p st e st') :
    st'.Forwards a b := by
  rcases h with hrecorded | ⟨item, rfl, hmem⟩
  · exact .inl (hchange.outcome_kept howned hrecorded)
  · cases hchange.visit_after hmem with
    | same mem => exact .inr ⟨item, rfl, mem⟩
    | followed fresh => cases fresh
    | examined stage mem => cases stage
    | ended stage session =>
      obtain rfl := Stage.settled.inj stage
      refine .inl ?_
      rw [Visits.Redirects, session, Session.complete_visited]
      exact Visits.find?_insertAll_concat [] item.bundleId (.redirected b) _

/-- When a visit that was decided on ends, everything that it held is processed or redirected to a bundle
that is. -/
theorem destined_of_ended {v : OpenVisit} {outcome : Except BranchError Visit} {id : QualifiedName}
    (hdecided : v.Decided) (stage : v.stage = .settled outcome)
    (session : st'.session = st.session.complete v.item.bundleId v.version outcome)
    (hid : id ∈ v.ids) : Destined f p start es st' id := by
  have hvisited : st'.session.visited =
      Visits.insertAll (Visit.endings v.item.bundleId v.version outcome) st.session.visited := by
    rw [session, Session.complete_visited]
  rcases outcome with err | (target | ⟨result, found, children⟩)
  · refine .processed ?_
    have hending : id ∈ (Visit.endings v.item.bundleId v.version (.error err)).map Prod.fst := by
      simpa [Visit.endings, OpenVisit.ids, or_comm] using hid
    obtain ⟨outcome, hmem, hfind⟩ := Visits.exists_find?_insertAll hending
    obtain ⟨_, -, heq⟩ := List.mem_map.1 hmem
    obtain ⟨-, rfl⟩ := Prod.mk.inj heq
    exact ⟨_, by rw [hvisited]; exact hfind, by simp⟩
  · exact absurd stage (hdecided.2 target)
  · have hprocessed : Visits.Processed st'.session.visited (v.version.getD v.item.bundleId) := by
      refine ⟨if found then .found else .notFound, ?_, by cases found <;> simp⟩
      rw [hvisited]
      exact Visits.find?_insertAll_concat _ _ _ _
    cases hversion : v.version with
    | none =>
      rw [hversion, Option.getD_none] at hprocessed
      obtain rfl : id = v.item.bundleId := by simpa [OpenVisit.ids, hversion] using hid
      exact .processed hprocessed
    | some w =>
      rw [hversion, Option.getD_some] at hprocessed
      by_cases hsame : id = w
      · exact .processed (hsame ▸ hprocessed)
      · obtain rfl : id = v.item.bundleId := by
          simpa [OpenVisit.ids, hversion, hsame] using hid
        refine .forwarded (.inl ?_) (.processed hprocessed)
        -- the redirect to the version is recorded before the outcome of the version
        rw [Visits.Redirects, hvisited, hversion, Visit.endings, Option.toList_some, List.map_singleton,
          List.singleton_append, Visits.insertAll, List.foldl_cons, List.foldl_cons, List.foldl_nil,
          Visits.find?_insert, Option.getD_some, if_neg hsame, Visits.find?_insert, if_pos rfl]

/-- What is known to become of a bundle stays known. -/
theorem Destined.change {id : QualifiedName} (h : Destined f p start es st id) (howned : st.Owned)
    (hchange : Change f p st e st') (later : Run f p st [e] st') :
    Destined f p start (es ++ [e]) st' id := by
  induction h with
  | processed done =>
    obtain ⟨outcome, hfind, hne⟩ := done
    exact .processed ⟨outcome, hchange.outcome_kept howned hfind, hne⟩
  | @held id v mem holds decided =>
    cases hchange.visit_after mem with
    | same mem => exact .held mem holds decided
    | followed fresh => exact absurd fresh decided.1
    | @examined l stage mem =>
      refine .held mem holds ⟨by simp, fun b h => ?_⟩
      exact Federation.search_ne_redirected v.item l st.verifier b (Stage.settled.inj h)
    | ended stage session => exact destined_of_ended decided stage session holds
  | forwarded link _ ih => exact .forwarded (link.change howned hchange) ih
  | met met => exact .met (met.append later)

/-! ### Every link leads to a bundle whose end is known -/

/-- Every link leads to a claimed bundle of which it is known what becomes of it, and it is where the
reference of a claimed item leads. -/
structure Forwarded (f : Federation) (p : SearchPlan) (st start : SearchState) (es : List Event) :
    Prop where
  destined : ∀ a b, st.Forwards a b → Destined f p start es st b
  claimed : ∀ a b, st.Forwards a b → st.session.isClaimed b = true
  resolved : ∀ a b, st.Forwards a b → b ≠ a ∧ ∃ item ∈ claimedItems es, item.bundleId = a ∧
    ∃ l, (f.locate p.preference item).value = .ok l ∧ l.bundleId = b

namespace Forwarded

/-- Of a claimed bundle it is known what becomes of it, unless the visit that holds it has not followed its
reference. -/
theorem destined_of_claimed (h : st.Forwarded f p start es) (hlaid : st.Laid f p) (howned : st.Owned)
    (hb : st.session.isClaimed b = true) :
    Destined f p start es st b ∨ ∃ y, OpenVisit.start y ∈ st.running ∧ y.bundleId = b := by
  rcases st.session.isClaimed_iff.1 hb with hflight | hdone
  · obtain ⟨v, hv, hid⟩ := List.mem_flatMap.1 (howned.inFlightIds_perm.mem_iff.1 hflight)
    have hfounded := hlaid.founded v hv
    by_cases hclaimed : v.stage = .claimed
    · have hstart := hfounded.eq_start hclaimed
      rw [hstart] at hv hid
      obtain rfl : b = v.item.bundleId := by simpa [OpenVisit.ids, OpenVisit.start] using hid
      exact .inr ⟨v.item, hv, rfl⟩
    · left
      by_cases hredirected : ∃ c, v.stage = .settled (.ok (.redirected c))
      · obtain ⟨c, hstage⟩ := hredirected
        obtain ⟨heq, -⟩ := hfounded.of_redirected hstage
        rw [heq] at hv hid
        obtain rfl : b = v.item.bundleId := by simpa [OpenVisit.ids] using hid
        have hlink : st.Forwards v.item.bundleId c := .inr ⟨v.item, rfl, hv⟩
        exact .forwarded hlink (h.destined _ _ hlink)
      · exact .held hv hid ⟨hclaimed, fun c hc => hredirected ⟨c, hc⟩⟩
  · left
    rcases Visits.processed_or_redirects hdone with hprocessed | ⟨c, hc⟩
    · exact .processed hprocessed
    · exact .forwarded (.inl hc) (h.destined b c (.inl hc))

end Forwarded

/-- Where a link comes from that is there after a change. -/
inductive LinkOrigin (f : Federation) (p : SearchPlan) (st st' : SearchState) (e : Event)
    (a b : QualifiedName) : Prop where
  /-- it was there before -/
  | earlier (link : st.Forwards a b)
  /-- a reference turned out to lead to a claimed bundle -/
  | decided {item : SearchItem} {l : Located} (event : e = .followed item none)
      (mem : OpenVisit.start item ∈ st.running) (bundle : item.bundleId = a)
      (leads : (f.locate p.preference item).value = .ok l) (target : l.bundleId = b) (other : b ≠ a)
      (claimed : st.session.isClaimed b = true)
  /-- a version was searched in place of the referenced bundle -/
  | searched {v : OpenVisit} {l : Located} (mem : v ∈ st.running) (bundle : v.item.bundleId = a)
      (leads : (f.locate p.preference v.item).value = .ok l) (target : l.bundleId = b) (other : b ≠ a)
      (done : Visits.Processed st'.session.visited b)

/-- A link that a change records was about to be recorded, or leads to a version that was searched. -/
theorem linkOrigin_of_redirects (hlaid : st.Laid f p) (hchange : Change f p st e st')
    (h : Visits.Redirects st'.session.visited a b) : LinkOrigin f p st st' e a b := by
  cases hchange.outcomeOrigin h with
  | earlier found => exact .earlier (.inl found)
  | skipped mem bundle eq => cases eq
  | @ended item version result admitted event mem ending =>
    have hfounded := hlaid.founded _ mem
    subst event
    -- an error leaves no link, and what is searched only one to a claimed version
    rcases result with err | (target | ⟨result, found, children⟩)
    · simp [Visit.endings] at ending
    · obtain ⟨rfl, rfl⟩ : a = item.bundleId ∧ b = target := by simpa [Visit.endings] using ending
      obtain ⟨heq, -⟩ := hfounded.of_redirected rfl
      rw [heq] at mem
      exact .earlier (.inr ⟨item, rfl, mem⟩)
    · cases version with
      | none => cases found <;> simp [Visit.endings] at ending
      | some w =>
        obtain ⟨rfl, rfl⟩ : a = item.bundleId ∧ b = w := by
          cases found <;> simpa [Visit.endings] using ending
        obtain ⟨hother, l, hleads, hl⟩ := hfounded.of_version
        refine .searched mem rfl hleads hl hother
          ⟨if found then .found else .notFound, ?_, by cases found <;> simp⟩
        cases hchange
        show Visits.find? b (st.session.complete item.bundleId (some b) _).visited = _
        rw [Session.complete_visited]
        exact Visits.find?_insertAll_concat _ _ _ _

/-- Every link after a change has one of the three origins. -/
theorem linkOrigin_of_change (hlaid : st.Laid f p) (hchange : Change f p st e st')
    (h : st'.Forwards a b) : LinkOrigin f p st st' e a b := by
  rcases h with hrecorded | ⟨item, hbundle, hmem⟩
  · exact linkOrigin_of_redirects hlaid hchange hrecorded
  -- a visit that stays under way records what it was about to record
  have hkept (hmem : OpenVisit.mk item none (.settled (.ok (.redirected b))) ∈ st.running) :
      LinkOrigin f p st st' e a b := .earlier (.inr ⟨item, hbundle, hmem⟩)
  cases hchange with
  | claimed passes front free top within =>
    rcases List.mem_append.1 hmem with hmem | hmem
    · exact hkept hmem
    · simp [OpenVisit.start] at hmem
  | returned passes front free outranked => exact hkept hmem
  | exhausted passes empty => exact hkept hmem
  | @followed before after item' v s running result =>
    rcases List.mem_append.1 hmem with hmem | hmem
    · exact hkept (by simp [running, hmem])
    · rcases List.mem_cons.1 hmem with heq | hmem
      · obtain ⟨hv, hclaimed, hother, l, hleads, hl⟩ :=
          followReference_redirected result (congrArg OpenVisit.stage heq.symm)
        obtain rfl : item = item' := (OpenVisit.mk.inj (heq.trans hv)).1
        refine .decided ?_ (by simp [running]) hbundle hleads hl (hbundle ▸ hother) hclaimed
        rw [hv]
      · exact hkept (by simp [running, hmem])
  | @examined before after item' version l running =>
    rcases List.mem_append.1 hmem with hmem | hmem
    · exact hkept (by simp [running, hmem])
    · rcases List.mem_cons.1 hmem with heq | hmem
      · have hstage := Stage.settled.inj (OpenVisit.mk.inj heq).2.2
        exact absurd hstage.symm (Federation.search_ne_redirected _ _ _ _)
      · exact hkept (by simp [running, hmem])
  | @ended before after item' version outcome running =>
    refine hkept ?_
    rw [running]
    simp only [List.mem_append, List.mem_cons] at hmem ⊢
    tauto
  | elsewhere call => exact hkept hmem

/-- Every change keeps the ends of all links known. -/
theorem Forwarded.change (h : st.Forwarded f p start es) (hlaid : st.Laid f p) (hranked : st.Ranked p es)
    (hrun : Run f p start es st) (hchange : Change f p st e st') (later : Run f p st [e] st') :
    st'.Forwarded f p start (es ++ [e]) := by
  have hmono {id : QualifiedName} (hid : st.session.isClaimed id = true) :
      st'.session.isClaimed id = true := hchange.isClaimed_mono hlaid hranked.owned hid
  have hclaimed {item : SearchItem} (hitem : item ∈ claimedItems es) :
      item ∈ claimedItems (es ++ [e]) := by
    rw [claimedItems_concat]
    exact List.mem_append_left _ hitem
  refine ⟨fun a b hlink => ?_, fun a b hlink => ?_, fun a b hlink => ?_⟩
  · cases linkOrigin_of_change hlaid hchange hlink with
    | earlier link => exact (h.destined a b link).change hranked.owned hchange later
    | @decided item l event mem bundle leads target other hb =>
      -- the link is new; its end is known, unless it is held by a visit that has not gone on
      rcases h.destined_of_claimed hlaid hranked.owned hb with hdestined | ⟨y, hy, hbundle⟩
      · exact hdestined.change hranked.owned hchange later
      · subst event
        exact .met ⟨es, st, [], item, y, l, rfl, hrun, later, mem, hy, hbundle, leads, target,
          bundle ▸ other⟩
    | searched mem bundle leads target other done => exact .processed done
  · cases linkOrigin_of_change hlaid hchange hlink with
    | earlier link => exact hmono (h.claimed a b link)
    | decided event mem bundle leads target other hb => exact hmono hb
    | searched mem bundle leads target other done =>
      obtain ⟨outcome, hfind, -⟩ := done
      exact (st'.session.isClaimed_iff).2 (.inr (by simp [hfind]))
  · cases linkOrigin_of_change hlaid hchange hlink with
    | earlier link =>
      obtain ⟨hne, item, hitem, hrest⟩ := h.resolved a b link
      exact ⟨hne, item, hclaimed hitem, hrest⟩
    | decided event mem bundle leads target other hb =>
      exact ⟨other, _, hclaimed (hranked.started _ mem), bundle, _, leads, target⟩
    | searched mem bundle leads target other done =>
      exact ⟨other, _, hclaimed (hranked.started _ mem), bundle, _, leads, target⟩

/-- Once no visit is under way, what is known to become of a bundle has come about, unless the redirects
lead to a bundle that was met. -/
theorem Destined.ends_or_met {id : QualifiedName} (h : Destined f p start es st id)
    (hdone : st.running = []) :
    ∃ c, ReflTransGen (Visits.Redirects st.session.visited) id c ∧
      (Visits.Processed st.session.visited c ∨ Met f p start es st c) := by
  induction h with
  | @processed id done => exact ⟨id, .refl, .inl done⟩
  | held mem holds decided =>
    rw [hdone] at mem
    cases mem
  | forwarded link _ ih =>
    obtain ⟨c, hc, hend⟩ := ih
    rcases link with hrecorded | ⟨item, -, hmem⟩
    · exact ⟨c, .head hrecorded hc, hend⟩
    · rw [hdone] at hmem
      cases hmem
  | @met id met => exact ⟨id, .refl, .inr met⟩

end SearchState

/-- A bundle is met only where two visits are under way. -/
theorem Met.exists_two {start st : SearchState} {es : List Event} {id : QualifiedName}
    (h : Met f p start es st id) :
    ∃ before mid after, es = before ++ after ∧ Run f p start before mid ∧ Run f p mid after st ∧
      1 < mid.running.length := by
  obtain ⟨before, mid, after, item, y, l, hes, hbefore, hafter, hitem, hy, hbundle, -, -, hother⟩ := h
  refine ⟨before, mid, _, hes, hbefore, hafter, ?_⟩
  by_contra hfew
  -- the visit that follows its reference and the one that holds the bundle are two
  have hle : mid.running.length ≤ 1 := Nat.not_lt.1 hfew
  obtain ⟨v, hv⟩ := List.length_eq_one_iff.1 (Nat.le_antisymm hle (List.length_pos_of_mem hitem))
  rw [hv, List.mem_singleton] at hitem hy
  obtain rfl : item = y := (OpenVisit.mk.inj (hitem.trans hy.symm)).1
  exact hother hbundle.symm

namespace Engine

variable {r : SearchRequest} {s : Session} {v : Verifier} {es : List Event} {st : SearchState}

/-- Every search forwards what it redirects. -/
theorem forwarded_of_prepare (hprepare : prepare f r = .ok (p, s))
    (hrun : Run f p (.initial s v) es st) : st.Forwarded f p (.initial s v) es := by
  have hlaid := laid_of_prepare (v := v) hprepare
  induction hrun with
  | nil =>
    obtain ⟨entry, -, rfl⟩ := prepare_eq_ok hprepare
    have hnone (a b : QualifiedName) : ¬(SearchState.initial
        (.start ⟨p.layout, [.seed r.bundleId entry p.layout]⟩) v).Forwards a b := by
      rintro (hrecorded | ⟨item, -, hmem⟩)
      · cases hrecorded
      · cases hmem
    exact ⟨fun a b h => absurd h (hnone a b), fun a b h => absurd h (hnone a b),
      fun a b h => absurd h (hnone a b)⟩
  | step run hmove ih =>
    have hlaid' := run.laid hlaid
    exact ih.change hlaid' (ranked_of_prepare hprepare run) run
      (SearchState.move_change hlaid'.fits hmove) (.step .nil hmove)

/-- **When redirects end.** After a run of a search with no visit under way, every redirect is from the
bundle of a claimed item to the other bundle that the item's reference leads to, which has an outcome.
Following redirects ends at a bundle that was processed exactly if it reaches no cycle. On every cycle
there is a bundle that was met before its own reference had been followed; so there is none if one visit at
most was under way throughout. -/
theorem redirects_end_iff (hprepare : prepare f r = .ok (p, s))
    (hrun : Run f p (.initial s v) es st) (hdone : st.running = []) :
    (∀ a b, Visits.Redirects st.session.visited a b →
      Visits.has b st.session.visited = true ∧ b ≠ a ∧ ∃ item ∈ claimedItems es, item.bundleId = a ∧
        ∃ l, (f.locate p.preference item).value = .ok l ∧ l.bundleId = b) ∧
    (∀ a, Visits.has a st.session.visited = true →
      (Visits.Ends st.session.visited a ↔
        ∀ b, ReflTransGen (Visits.Redirects st.session.visited) a b →
          ¬TransGen (Visits.Redirects st.session.visited) b b)) ∧
    (∀ a, TransGen (Visits.Redirects st.session.visited) a a →
      ∃ b, ReflTransGen (Visits.Redirects st.session.visited) a b ∧
        Met f p (.initial s v) es st b) ∧
    ((∀ before mid after, es = before ++ after → Run f p (.initial s v) before mid →
        Run f p mid after st → mid.running.length ≤ 1) →
      ∀ a, Visits.has a st.session.visited = true → Visits.Ends st.session.visited a) := by
  have hforwarded := forwarded_of_prepare hprepare hrun
  have howned := owned_of_prepare hprepare hrun
  have hclosed (a b : QualifiedName) (h : Visits.Redirects st.session.visited a b) :
      Visits.has b st.session.visited = true :=
    howned.has_of_isClaimed hdone (hforwarded.claimed a b (.inl h))
  have hends (a : QualifiedName) (ha : Visits.has a st.session.visited = true) :=
    Visits.ends_iff hclosed ha
  have hmet (a : QualifiedName) (hcycle : TransGen (Visits.Redirects st.session.visited) a a) :
      ∃ b, ReflTransGen (Visits.Redirects st.session.visited) a b ∧
        Met f p (.initial s v) es st b := by
    -- a link on the cycle has an end that is known, and it cannot be where redirects end
    obtain ⟨b, hab, hback⟩ := TransGen.head'_iff.1 hcycle
    obtain ⟨c, hbc, hprocessed | hmet⟩ := (hforwarded.destined a b (.inl hab)).ends_or_met hdone
    · exact absurd ⟨c, .head hab hbc, hprocessed⟩ (Visits.not_ends_of_cycle hcycle)
    · exact ⟨c, .head hab hbc, hmet⟩
  refine ⟨fun a b h => ⟨hclosed a b h, hforwarded.resolved a b (.inl h)⟩, hends, hmet, ?_⟩
  intro hfew a ha
  refine (hends a ha).2 fun b _ hcycle => ?_
  obtain ⟨c, -, hc⟩ := hmet b hcycle
  -- at a bundle that is met two visits are under way
  obtain ⟨before, mid, after, hes, hbefore, hafter, htwo⟩ := hc.exists_two
  exact absurd (hfew before mid after hes hbefore hafter) (Nat.not_le.2 htwo)

/-- In the search of the disagreeing listings one bundle at a time, `A` is redirected to `B`, where its
reference leads, and `B` has an outcome. -/
theorem versions_redirects_end_iff :
    ∃ es st, Run Sample.Versions.federation Sample.Versions.plan
        (.initial Sample.Versions.session Sample.verifier) es st ∧
      Visits.Redirects st.session.visited (Sample.document "A") (Sample.document "B") ∧
      Visits.has (Sample.document "B") st.session.visited = true ∧
      (Visits.Ends st.session.visited (Sample.document "A") ↔
        ∀ b, ReflTransGen (Visits.Redirects st.session.visited) (Sample.document "A") b →
          ¬TransGen (Visits.Redirects st.session.visited) b b) := by
  obtain ⟨es, st, hrun, -, hA, hrunning⟩ := exists_run_one_by_one
  obtain ⟨hlinks, hends, -⟩ := redirects_end_iff Sample.Versions.prepare_request hrun
    (List.eq_nil_of_length_eq_zero hrunning)
  have hhas : Visits.has (Sample.document "A") st.session.visited = true := by
    rw [Visits.has, hA]
    rfl
  exact ⟨es, st, hrun, hA, (hlinks _ _ hA).1, hends _ hhas⟩

/-- The search of the disagreeing listings, with `A` and `B` taken up side by side, comes to its end, and
each of the two is redirected to the other. -/
theorem exists_run_side_by_side :
    ∃ es st, Run Sample.Versions.federation Sample.Versions.plan
        (.initial Sample.Versions.session Sample.verifier) es st ∧
      st.running.length = 0 ∧ st.session.frontier.items = [] ∧
      Visits.Redirects st.session.visited (Sample.document "A") (Sample.document "B") ∧
      Visits.Redirects st.session.visited (Sample.document "B") (Sample.document "A") := by
  have hplay : (SearchState.play Sample.Versions.federation Sample.Versions.plan
      (.initial Sample.Versions.session Sample.verifier) Sample.Versions.sideBySide).any (fun r =>
        (r.2.running.length == 0 && r.2.session.frontier.items == []) &&
          (Visits.find? (Sample.document "A") r.2.session.visited ==
              some (.redirected (Sample.document "B")) &&
            Visits.find? (Sample.document "B") r.2.session.visited ==
              some (.redirected (Sample.document "A")))) = true := by
    decide +kernel
  obtain ⟨⟨es, st⟩, hst, hplayed⟩ := (Option.any_eq_true _ _).1 hplay
  obtain ⟨hdone, hlinks⟩ := Bool.and_eq_true_iff.1 hplayed
  obtain ⟨hrunning, hwaiting⟩ := Bool.and_eq_true_iff.1 hdone
  obtain ⟨hA, hB⟩ := Bool.and_eq_true_iff.1 hlinks
  exact ⟨es, st, Run.of_play hst, eq_of_beq hrunning, eq_of_beq hwaiting, eq_of_beq hA, eq_of_beq hB⟩

/-- Redirects need not end: of two bundles whose listings each name the other as the latest version,
neither may be searched, although the search has come to its end. -/
theorem not_forall_redirects_end :
    ¬∀ (f : Federation) (p : SearchPlan) (r : SearchRequest) (s : Session) (v : Verifier)
      (es : List Event) (st : SearchState), prepare f r = .ok (p, s) →
        Run f p (.initial s v) es st → st.running = [] → st.session.frontier.items = [] →
          ∀ a b, Visits.Redirects st.session.visited a b → Visits.Ends st.session.visited a := by
  intro h
  obtain ⟨es, st, hrun, hrunning, hwaiting, hA, hB⟩ := exists_run_side_by_side
  have hends := h _ _ _ _ _ es st Sample.Versions.prepare_request hrun
    (List.eq_nil_of_length_eq_zero hrunning) hwaiting _ _ hA
  exact Visits.not_ends_of_cycle (.head hA (.single hB)) hends

end Engine

end ProvenanceTrail
