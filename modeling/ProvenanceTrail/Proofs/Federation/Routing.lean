import Mathlib.Data.List.Induction
import Mathlib.Data.List.Infix
import Mathlib.Data.List.Perm.Basic
import ProvenanceTrail.Federation.Table
import ProvenanceTrail.Proofs.Json.Canonical
import ProvenanceTrail.Proofs.Json.Exchange
import ProvenanceTrail.Proofs.Text.Words

/-!
# Routing by the longest prefix

A federation table comes from a sequence of insertions, and keeps for each prefix the service that was put
in last (`FederationTable.mem_routes_ofList`). Prefixes of one URI begin one another, so that two of them
with the same length are the same: there is one longest among those that were inserted, and its service is
the route (`FederationTable.route_eq_ok_iff`). The order of the insertions only matters between insertions
of one prefix (`FederationTable.ofList_congr`).
-/

namespace ProvenanceTrail

/-! ## Texts that start with a word -/

namespace Text

/-- A text starts with a word just if the word's characters are a prefix. -/
theorem startsWith_iff {word text : String} : startsWith word text ↔ word.toList <+: text.toList := by
  rw [startsWith, Option.isSome_iff_exists]
  exact exists_congr fun rest => afterFront?_eq_some_iff.trans eq_comm

end Text

namespace FederationTable

variable {history history' : List (String × String)} {uri uriStart service : String}
  {bundle : QualifiedName}

/-! ## Sequences of insertions -/

/-- The services that a sequence of insertions puts in for a prefix, in their order. -/
def servicesFor (history : List (String × String)) (uriStart : String) : List String :=
  history.filterMap fun r => if r.1 = uriStart then some r.2 else none

/-- A prefix was inserted, and a URI starts with it. -/
def Fits (history : List (String × String)) (uri uriStart : String) : Prop :=
  uriStart ∈ history.map Prod.fst ∧ uriStart.toList <+: uri.toList

/-- A prefix decides for a URI that starts with it and with no longer inserted prefix. As prefixes of one URI
begin one another, it does not matter whether characters or bytes are counted. -/
structure Decides (history : List (String × String)) (uri uriStart : String) : Prop where
  begins : uriStart.toList <+: uri.toList
  length_le : ∀ other, Fits history uri other → other.length ≤ uriStart.length

/-- The longest of the inserted prefixes with which a URI starts. -/
structure Longest (history : List (String × String)) (uri uriStart : String) : Prop
    extends Decides history uri uriStart where
  inserted : uriStart ∈ history.map Prod.fst

/-- The longest prefix of a URI is one. -/
theorem Longest.fits (h : Longest history uri uriStart) : Fits history uri uriStart :=
  ⟨h.inserted, h.begins⟩

/-- One more insertion adds its service under its own prefix. -/
theorem servicesFor_append_singleton (r : String × String) :
    servicesFor (history ++ [r]) uriStart =
      servicesFor history uriStart ++ if r.1 = uriStart then [r.2] else [] := by
  by_cases h : r.1 = uriStart <;> simp [servicesFor, h]

/-- A prefix has as many services as it was inserted. -/
theorem length_servicesFor (history : List (String × String)) (uriStart : String) :
    (servicesFor history uriStart).length = (history.map Prod.fst).count uriStart := by
  induction history using List.reverseRecOn with
  | nil => rfl
  | append_singleton history r ih =>
    rw [servicesFor_append_singleton, List.length_append, ih, List.map_append, List.count_append]
    by_cases h : r.1 = uriStart <;> simp [h]

/-- A prefix has a last service just if it was inserted. -/
theorem exists_getLast?_servicesFor_iff :
    (∃ service, (servicesFor history uriStart).getLast? = some service) ↔
      uriStart ∈ history.map Prod.fst := by
  rw [← Option.isSome_iff_exists, List.getLast?_isSome, ← List.length_pos_iff, length_servicesFor,
    List.count_pos_iff]

/-- A table of one more insertion is the table with that inserted. -/
theorem ofList_append_singleton (r : String × String) :
    ofList (history ++ [r]) = (ofList history).insert r.1 r.2 := by
  simp [ofList]

/-! ## The table of a sequence -/

/-- The routes of a table have ascending prefixes. -/
theorem pairwise_routes_ofList (history : List (String × String)) :
    (ofList history).routes.Pairwise fun r r' => r.1 < r'.1 := by
  induction history using List.reverseRecOn with
  | nil => exact .nil
  | append_singleton history r ih =>
    rw [ofList_append_singleton]
    exact Json.pairwise_insertMember ih

/-- A table has for each prefix the service that was put in last. -/
theorem mem_routes_ofList :
    (uriStart, service) ∈ (ofList history).routes ↔
      (servicesFor history uriStart).getLast? = some service := by
  induction history using List.reverseRecOn with
  | nil => simp [ofList, empty, servicesFor]
  | append_singleton history r ih =>
    rw [ofList_append_singleton, insert, Json.mem_insertMember_iff (pairwise_routes_ofList history), ih,
      servicesFor_append_singleton]
    by_cases h : r.1 = uriStart
    · simp [h, eq_comm]
    · simp [h, Ne.symm h, Prod.ext_iff]

/-- Sequences that put in the same services for each prefix lead to the same table. -/
theorem ofList_congr (h : ∀ uriStart, servicesFor history uriStart = servicesFor history' uriStart) :
    ofList history = ofList history' := by
  have hsorted (history : List (String × String)) := pairwise_routes_ofList history
  have hperm : (ofList history).routes.Perm (ofList history').routes := by
    refine (List.perm_ext_iff_of_nodup ?_ ?_).2 ?_
    · exact (hsorted history).imp fun hlt heq => hlt.ne (congrArg Prod.fst heq)
    · exact (hsorted history').imp fun hlt heq => hlt.ne (congrArg Prod.fst heq)
    · rintro ⟨uriStart, service⟩
      rw [mem_routes_ofList, mem_routes_ofList, h]
  refine congrArg mk (hperm.eq_of_pairwise ?_ (hsorted history) (hsorted history'))
  exact fun r r' _ _ hlt hgt => absurd hgt hlt.asymm

/-- Insertions of different prefixes can be made in any order. -/
theorem ofList_perm (hdifferent : (history.map Prod.fst).Nodup) (hperm : history.Perm history') :
    ofList history = ofList history' := by
  refine ofList_congr fun uriStart => ?_
  -- Of at most one service for a prefix there is but one order.
  have hservices : (servicesFor history uriStart).Perm (servicesFor history' uriStart) :=
    hperm.filterMap _
  have hlength : (servicesFor history uriStart).length ≤ 1 := by
    rw [length_servicesFor]
    exact List.nodup_iff_count_le_one.1 hdifferent uriStart
  cases hfor : servicesFor history uriStart with
  | nil => exact (List.nil_perm.1 (hfor ▸ hservices)).symm
  | cons service rest =>
    obtain rfl : rest = [] := by simpa [hfor] using hlength
    exact List.singleton_perm.1 (hfor ▸ hservices)

/-! ## The longest prefix -/

/-- A URI has one longest prefix. -/
theorem Longest.unique {other : String} (h : Longest history uri uriStart) (h' : Longest history uri other) :
    uriStart = other := by
  have hlength : uriStart.length = other.length :=
    le_antisymm (h'.length_le uriStart h.fits) (h.length_le other h'.fits)
  rw [← String.length_toList, ← String.length_toList] at hlength
  have hbegins : uriStart.toList <+: other.toList :=
    List.prefix_of_prefix_length_le h.begins h'.begins hlength.le
  exact String.toList_inj.1 (hbegins.eq_of_length hlength)

section Comparing

variable {routes : List (String × String)} {r best : String × String}

/-- The better of a route and the best one before, if any, is one of them, and neither has a longer
prefix. -/
theorem exists_longer (before : Option (String × String)) (r : String × String) :
    ∃ best, longer before r = some best ∧ (best = r ∨ before = some best) ∧
      r.1.length ≤ best.1.length ∧ ∀ b, before = some b → b.1.length ≤ best.1.length := by
  cases before with
  | none => exact ⟨r, rfl, .inl rfl, le_rfl, nofun⟩
  | some b =>
    by_cases hlt : r.1.length < b.1.length
    · refine ⟨b, if_pos hlt, .inr rfl, hlt.le, ?_⟩
      rintro _ ⟨⟩
      exact le_rfl
    · refine ⟨r, if_neg hlt, .inl rfl, le_rfl, ?_⟩
      rintro _ ⟨⟩
      exact not_lt.1 hlt

/-- The best of one more route is the longer of it and the best before. -/
theorem foldl_longer_append_singleton :
    (routes ++ [r]).foldl longer none = longer (routes.foldl longer none) r := by
  rw [List.foldl_append, List.foldl_cons, List.foldl_nil]

/-- The best route is one of the routes. -/
theorem mem_of_foldl_longer (h : routes.foldl longer none = some best) : best ∈ routes := by
  induction routes using List.reverseRecOn with
  | nil => cases h
  | append_singleton routes r ih =>
    obtain ⟨better, hbetter, hone, -⟩ := exists_longer (routes.foldl longer none) r
    rw [foldl_longer_append_singleton, hbetter] at h
    obtain rfl := Option.some.inj h
    rcases hone with rfl | hbefore
    · simp
    · exact List.mem_append_left _ (ih hbefore)

/-- No route has a longer prefix than the best one. -/
theorem exists_foldl_longer (h : r ∈ routes) :
    ∃ best, routes.foldl longer none = some best ∧ r.1.length ≤ best.1.length := by
  induction routes using List.reverseRecOn with
  | nil => cases h
  | append_singleton routes last ih =>
    obtain ⟨better, hbetter, -, hlast, hbefore⟩ := exists_longer (routes.foldl longer none) last
    refine ⟨better, foldl_longer_append_singleton.trans hbetter, ?_⟩
    rcases List.mem_append.1 h with hmem | hmem
    · obtain ⟨best, hbest, hle⟩ := ih hmem
      exact hle.trans (hbefore best hbest)
    · obtain rfl := List.mem_singleton.1 hmem
      exact hlast

end Comparing

/-! ## Routes -/

/-- A route of the table that matches a URI is that of a fitting prefix. -/
theorem mem_filter_routes_iff :
    (uriStart, service) ∈ ((ofList history).routes.filter fun r => Text.startsWith r.1 uri) ↔
      (servicesFor history uriStart).getLast? = some service ∧ uriStart.toList <+: uri.toList := by
  rw [List.mem_filter, mem_routes_ofList, Text.startsWith_iff]

/-- A bundle is routed to a service just if one is found for it. -/
theorem route_eq_ok_iff_route? {t : FederationTable} :
    t.route bundle = .ok service ↔ t.route? bundle = some service := by
  rw [route]
  cases t.route? bundle <;> simp

/-- A bundle with a fitting prefix is routed. -/
theorem route_of_fits (h : Fits history bundle.uri uriStart) :
    ∃ service, (ofList history).route bundle = .ok service := by
  obtain ⟨service, hservice⟩ := exists_getLast?_servicesFor_iff.2 h.1
  obtain ⟨best, hbest, -⟩ := exists_foldl_longer (mem_filter_routes_iff.2 ⟨hservice, h.2⟩)
  exact ⟨best.2, route_eq_ok_iff_route?.2 (by rw [route?, hbest]; rfl)⟩

/-- A bundle is routed to the last service of its longest prefix. -/
theorem exists_longest_of_route (h : (ofList history).route bundle = .ok service) :
    ∃ uriStart, Longest history bundle.uri uriStart ∧
      (servicesFor history uriStart).getLast? = some service := by
  obtain ⟨⟨uriStart, _⟩, hbest, rfl⟩ := Option.map_eq_some_iff.1 (route_eq_ok_iff_route?.1 h)
  obtain ⟨hservice, hbegins⟩ := mem_filter_routes_iff.1 (mem_of_foldl_longer hbest)
  refine ⟨uriStart, ⟨⟨hbegins, fun other hother => ?_⟩, exists_getLast?_servicesFor_iff.1 ⟨_, hservice⟩⟩,
    hservice⟩
  -- Each fitting prefix has a route in the table, with which the best one was compared.
  obtain ⟨service', hservice'⟩ := exists_getLast?_servicesFor_iff.2 hother.1
  obtain ⟨best, hbest', hle⟩ := exists_foldl_longer (mem_filter_routes_iff.2 ⟨hservice', hother.2⟩)
  obtain rfl := Option.some.inj (hbest'.symm.trans hbest)
  exact hle

/-- The route is the service that was put in last for the longest fitting prefix. -/
theorem route_eq_ok_iff :
    (ofList history).route bundle = .ok service ↔
      ∃ uriStart, Longest history bundle.uri uriStart ∧
        (servicesFor history uriStart).getLast? = some service := by
  refine ⟨exists_longest_of_route, fun ⟨uriStart, hlongest, hservice⟩ => ?_⟩
  obtain ⟨service', hroute⟩ := route_of_fits hlongest.fits
  obtain ⟨other, hother, hservice'⟩ := exists_longest_of_route hroute
  obtain rfl := hlongest.unique hother
  rw [hroute, ← Option.some.inj (hservice'.symm.trans hservice)]

/-- A failure names the bundle. -/
theorem eq_of_route_eq_error {t : FederationTable} {err : UnroutableBundle}
    (h : t.route bundle = .error err) : err = ⟨bundle⟩ := by
  rw [route] at h
  split at h
  · cases h
  · exact (Except.error.inj h).symm

/-- There is no route exactly if no prefix fits. -/
theorem route_eq_error_iff {err : UnroutableBundle} :
    (ofList history).route bundle = .error err ↔
      err = ⟨bundle⟩ ∧ ∀ uriStart, ¬ Fits history bundle.uri uriStart := by
  constructor
  · intro h
    refine ⟨eq_of_route_eq_error h, fun uriStart hfits => ?_⟩
    obtain ⟨service, hroute⟩ := route_of_fits hfits
    cases h.symm.trans hroute
  · rintro ⟨rfl, hnone⟩
    cases hroute : (ofList history).route bundle with
    | ok service =>
      obtain ⟨uriStart, hlongest, -⟩ := exists_longest_of_route hroute
      exact absurd hlongest.fits (hnone uriStart)
    | error err => rw [eq_of_route_eq_error hroute]

/-! ## One more insertion -/

/-- One more insertion lets its own prefix fit, and no other. -/
theorem fits_append_singleton_iff {other : String} :
    Fits (history ++ [(uriStart, service)]) uri other ↔
      Fits history uri other ∨ other = uriStart ∧ uriStart.toList <+: uri.toList := by
  simp only [Fits, List.map_append, List.map_singleton, List.mem_append, List.mem_singleton,
    or_and_right]
  refine or_congr_right (and_congr_right ?_)
  rintro rfl
  exact Iff.rfl

/-- An insertion that decides about a bundle routes it to its service. -/
theorem route_insert_of_decides (h : Decides history bundle.uri uriStart) (service : String) :
    ((ofList history).insert uriStart service).route bundle = .ok service := by
  rw [← ofList_append_singleton (uriStart, service), route_eq_ok_iff]
  refine ⟨uriStart, ⟨⟨h.begins, fun other hother => ?_⟩, by simp⟩, ?_⟩
  · rcases fits_append_singleton_iff.1 hother with hbefore | ⟨rfl, -⟩
    · exact h.length_le other hbefore
    · exact le_rfl
  · simp [servicesFor_append_singleton]

/-- Any other insertion leaves the bundle's route. -/
theorem route_insert_of_not_decides (h : ¬ Decides history bundle.uri uriStart) (service : String) :
    ((ofList history).insert uriStart service).route bundle = (ofList history).route bundle := by
  rw [← ofList_append_singleton (uriStart, service)]
  cases hroute : (ofList history).route bundle with
  | ok before =>
    obtain ⟨longest, hlongest, hservice⟩ := route_eq_ok_iff.1 hroute
    have hother : longest ≠ uriStart := by
      rintro rfl
      exact h hlongest.toDecides
    -- If the new prefix began the URI and were longer than the longest so far, it would decide.
    refine route_eq_ok_iff.2 ⟨longest, ⟨⟨hlongest.begins, fun other hfits => ?_⟩,
      by simp [hlongest.inserted]⟩, ?_⟩
    · rcases fits_append_singleton_iff.1 hfits with hbefore | ⟨rfl, hbegins⟩
      · exact hlongest.length_le other hbefore
      · by_contra! hlt
        exact h ⟨hbegins, fun other hother => (hlongest.length_le other hother).trans hlt.le⟩
    · rw [servicesFor_append_singleton, if_neg hother.symm, List.append_nil, hservice]
  | error err =>
    obtain ⟨rfl, hnone⟩ := route_eq_error_iff.1 hroute
    refine route_eq_error_iff.2 ⟨rfl, fun other hfits => ?_⟩
    rcases fits_append_singleton_iff.1 hfits with hbefore | ⟨rfl, hbegins⟩
    · exact hnone other hbefore
    · exact h ⟨hbegins, fun other hother => absurd hother (hnone other)⟩

/-- An insertion changes the routes that its prefix decides, unless they lead to its service already. -/
theorem route_insert_ne_iff :
    ((ofList history).insert uriStart service).route bundle ≠ (ofList history).route bundle ↔
      Decides history bundle.uri uriStart ∧ (ofList history).route bundle ≠ .ok service := by
  by_cases h : Decides history bundle.uri uriStart
  · rw [route_insert_of_decides h]
    simp [h, eq_comm]
  · simp [h, route_insert_of_not_decides h]

/-! ## Tables from texts -/

/-- A member is read as a route just if its value is the text of the service. -/
theorem routeOfMember_eq_some_iff {m : String × Json} {r : String × String} :
    (m.2.string?.map fun service => (m.1, service)) = some r ↔ m = (r.1, .string r.2) := by
  obtain ⟨key, value⟩ := m
  cases value <;> simp [Json.string?, Prod.ext_iff]

/-- Members are read as routes just if all their values are texts. -/
theorem routesOfMembers_eq_some_iff {members : List (String × Json)} {routes : List (String × String)} :
    (members.mapM fun m => m.2.string?.map fun service => (m.1, service)) = some routes ↔
      members = routes.map fun r => (r.1, .string r.2) := by
  constructor
  · intro h
    induction members generalizing routes with
    | nil =>
      obtain rfl := Option.some_inj.1 h
      rfl
    | cons m members ih =>
      rw [List.mapM_cons] at h
      obtain ⟨r, hr, h⟩ := Option.bind_eq_some_iff.1 h
      obtain ⟨rest, hrest, h⟩ := Option.bind_eq_some_iff.1 h
      obtain rfl := Option.some_inj.1 h
      rw [routeOfMember_eq_some_iff.1 hr, ih hrest]
      rfl
  · rintro rfl
    exact Json.mapM_map_eq_some fun r _ => routeOfMember_eq_some_iff.2 rfl

/-- A table is read from an object of texts, whose members are inserted in the order of the text. -/
theorem ofText?_eq_some_iff {text : String} {t : FederationTable} :
    ofText? text = some t ↔
      ∃ history, Json.read? text = some (.object (history.map fun r => (r.1, .string r.2))) ∧
        t = ofList history := by
  constructor
  · intro h
    obtain ⟨v, hv, h⟩ := Option.bind_eq_some_iff.1 h
    cases v with
    | object members =>
      obtain ⟨history, hmembers, h⟩ := Option.bind_eq_some_iff.1 h
      rw [routesOfMembers_eq_some_iff.1 hmembers] at hv
      exact ⟨history, hv, (Option.some_inj.1 h).symm⟩
    | _ => cases h
  · rintro ⟨history, hread, rfl⟩
    rw [ofText?, hread]
    simp [routesOfMembers_eq_some_iff.2 rfl]

/-! ## Exactness -/

/-- **Routing is by the longest prefix.** After any sequence of insertions, the route of a bundle is the
service that was put in last for the longest inserted prefix of its URI, and there is none exactly if no
inserted prefix begins the URI. Insertions of different prefixes can be made in any order, and so can any
insertions as long as those of one prefix stay in order. One more insertion changes just the routes of the
bundles whose URIs start with its prefix and with no longer one, unless they lead to its service already. A
table that is read from a text is one of a sequence of insertions, too. -/
theorem routes_exact :
    (∀ history bundle service, (ofList history).route bundle = .ok service ↔
      ∃ uriStart, Longest history bundle.uri uriStart ∧
        (servicesFor history uriStart).getLast? = some service) ∧
    (∀ history bundle err, (ofList history).route bundle = .error err ↔
      err = ⟨bundle⟩ ∧ ∀ uriStart, ¬ Fits history bundle.uri uriStart) ∧
    (∀ history history', (history.map Prod.fst).Nodup → history.Perm history' →
      ofList history = ofList history') ∧
    (∀ history history', (∀ uriStart, servicesFor history uriStart = servicesFor history' uriStart) →
      ofList history = ofList history') ∧
    (∀ history uriStart service bundle,
      ((ofList history).insert uriStart service).route bundle ≠ (ofList history).route bundle ↔
        Decides history bundle.uri uriStart ∧ (ofList history).route bundle ≠ .ok service) ∧
    ∀ text t, ofText? text = some t ↔
      ∃ history, Json.read? text = some (.object (history.map fun r => (r.1, .string r.2))) ∧
        t = ofList history :=
  ⟨fun _ _ _ => route_eq_ok_iff, fun _ _ _ => route_eq_error_iff, fun _ _ => ofList_perm,
    fun _ _ => ofList_congr, fun _ _ _ _ => route_insert_ne_iff, fun _ _ => ofText?_eq_some_iff⟩

/-- The longest of three nested prefixes decides, wherever it stands; the empty one fits every URI. -/
example :
    let t := ofList [("http://a/x/", "inner"), ("", "other"), ("http://a/", "outer"), ("http://a/", "last")]
    t.route? ⟨"http://a/x/", "B"⟩ = some "inner" ∧ t.route? ⟨"http://a/", "x"⟩ = some "last" ∧
      t.route? ⟨"n:", "C"⟩ = some "other" := by
  decide +kernel

end FederationTable

end ProvenanceTrail
