import Mathlib.Algebra.Order.Field.Power
import Mathlib.Data.List.MinMax
import Mathlib.Data.Rat.Cast.Order
import Mathlib.Tactic.Positivity
import ProvenanceTrail.Proofs.Condition.DerivationPath
import ProvenanceTrail.Version.Latest

/-!
# The latest version of a bundle

A bundle is entered at its first forward connector, else at its first backward connector, else at its main
activity, else at its first node (`Bundle.defaultStart?_eq_some_iff`). A meta-bundle lists versions at the nodes
that are reached from there (`Bundle.versionNodes`). They are gone through in the order in which they are
reached, and the best so far is kept. Where all of them have numbers this is the running maximum of the standard
library (`Bundle.newest_eq_argmax`), which prefers the first of equal ones. A text that is no number ends the
walk, whatever the best so far is (`Bundle.newest_eq_error`).

Numbers are compared in units of the least power of two of the format. Since none of them has a smaller
exponent, that is the order of the rational numbers that they stand for (`Binary64.blt_iff`).
-/

namespace ProvenanceTrail

/-! ## Numbers by their values -/

namespace Binary64

/-- The number that a value of the format stands for. -/
def value (x : Binary64) : ℚ := (if x.negative then -(x.mantissa : ℚ) else x.mantissa) * 2 ^ x.exponent

/-- Values of the format are whole in units of its least power of two. -/
theorem scaled_eq {x : Binary64} (h : minExponent ≤ x.exponent) :
    (x.scaled : ℚ) = x.value * 2 ^ (-minExponent) := by
  have hpower : (2 : ℚ) ^ x.exponent * 2 ^ (-minExponent) = 2 ^ (x.exponent - minExponent).toNat := by
    rw [← zpow_add₀ two_ne_zero, ← zpow_natCast, Int.toNat_of_nonneg (by omega), Int.sub_eq_add_neg]
  rw [value, mul_assoc, hpower, scaled]
  cases x.negative <;> simp

/-- The order of values is that of the numbers. -/
theorem blt_iff {x y : Binary64} (hx : minExponent ≤ x.exponent) (hy : minExponent ≤ y.exponent) :
    x.blt y ↔ x.value < y.value := by
  have hunit : (0 : ℚ) < 2 ^ (-minExponent) := by positivity
  rw [blt, decide_eq_true_eq, ← Int.cast_lt (R := ℚ), scaled_eq hx, scaled_eq hy,
    mul_lt_mul_iff_left₀ hunit]

/-- A ratio is rounded to a number whose exponent is in range. -/
theorem minExponent_le_of_ofRatio? {negative : Bool} {a b : Nat} {x : Binary64}
    (h : ofRatio? negative a b = some x) : minExponent ≤ x.exponent := by
  have hbound : minExponent ≤ exponentFor a b := le_max_left _ _
  have hzero : minExponent ≤ (zero negative).exponent := le_refl _
  unfold ofRatio? at h
  simp only at h
  split at h
  · exact Option.some.inj h ▸ hzero
  · -- rounding up to the next power of two makes the exponent greater
    split at h
    · split at h
      · cases h
      · split at h
        · exact Option.some.inj h ▸ hzero
        · obtain rfl := Option.some.inj h
          exact hbound.trans (Int.le_add_one le_rfl)
    · split at h
      · cases h
      · split at h
        · exact Option.some.inj h ▸ hzero
        · exact Option.some.inj h ▸ hbound

/-- A decimal is rounded to a number whose exponent is in range. -/
theorem minExponent_le_of_ofDecimal? {negative : Bool} {digits : Nat} {power : Int} {x : Binary64}
    (h : ofDecimal? negative digits power = some x) : minExponent ≤ x.exponent := by
  have hzero : minExponent ≤ (zero negative).exponent := le_refl _
  unfold ofDecimal? at h
  split at h
  · exact Option.some.inj h ▸ hzero
  · simp only at h
    split at h
    · cases h
    · split at h
      · exact Option.some.inj h ▸ hzero
      · split at h <;> exact minExponent_le_of_ofRatio? h

/-- Whatever is read has an exponent of the format. -/
theorem minExponent_le_of_readDecimal? {text : String} {x : Binary64}
    (h : Number.readDecimal? text = some x) : minExponent ≤ x.exponent := by
  unfold Number.readDecimal? at h
  simp only at h
  split at h
  · cases h
  · obtain ⟨power, -, hdecimal⟩ := Option.bind_eq_some_iff.1 h
    exact minExponent_le_of_ofDecimal? hdecimal

end Binary64

namespace Bundle

variable {b : Bundle} {n : b.NodeIx}

/-! ## Where a bundle is entered -/

/-- The first node that passes a test comes before all others that do. -/
theorem find?_nodeIndices_eq_some_iff {test : b.NodeIx → Bool} :
    b.nodeIndices.find? test = some n ↔ test n = true ∧ ∀ m, test m = true → n ≤ m := by
  rw [nodeIndices, ← Fin.find?_eq_find?_finRange, Fin.find?_eq_some_iff]
  refine and_congr_right fun _ => forall_congr' fun m => ?_
  rw [← not_lt, ← Bool.not_eq_true]
  exact imp_not_comm

/-- How late a node comes as the start: forward connectors come first, then backward connectors, main activities
and all other nodes. -/
def startRank (b : Bundle) (n : b.NodeIx) : Nat :=
  if b.isConnector n (some .forward) then 0
  else if b.isConnector n (some .backward) then 1
  else if b.hasType n Vocabulary.mainActivity then 2
  else 3

/-- A node comes before another as the start: it has a lower rank, or the same and an earlier place. -/
def StartsBefore (b : Bundle) (n m : b.NodeIx) : Prop :=
  b.startRank n < b.startRank m ∨ b.startRank n = b.startRank m ∧ n.val ≤ m.val

/-- The default start comes before every other node. -/
theorem startsBefore_of_defaultStart? (h : b.defaultStart? = some n) (m : b.NodeIx) : b.StartsBefore n m := by
  have hnone {test : b.NodeIx → Bool} : b.nodeIndices.find? test = none ↔ ∀ m, test m = false := by
    simp [nodeIndices]
  simp only [defaultStart?, mainActivity?, Option.or_eq_some_iff, find?_nodeIndices_eq_some_iff, hnone] at h
  unfold StartsBefore startRank
  rcases h with ⟨hn, hleast⟩ | ⟨hforward, ⟨hn, hleast⟩ | ⟨hbackward, ⟨hn, hleast⟩ | ⟨hmain, hhead⟩⟩⟩
  · grind
  · grind
  · grind
  · have hfirst : n.val = 0 := by
      obtain ⟨hsize, hn⟩ := List.getElem?_eq_some_iff.1 ((List.head?_eq_getElem? ..).symm.trans hhead)
      simpa [nodeIndices] using congrArg Fin.val hn.symm
    simp [hforward, hbackward, hmain, hfirst]

/-- There is no default start just if there are no nodes. -/
theorem defaultStart?_eq_none_iff : b.defaultStart? = none ↔ b.nodes.size = 0 := by
  have hindices : b.nodeIndices = [] ↔ b.nodes.size = 0 := by
    rw [nodeIndices, ← List.length_eq_zero_iff, List.length_finRange]
  rw [defaultStart?, Option.or_eq_none_iff, Option.or_eq_none_iff, Option.or_eq_none_iff, List.head?_eq_none_iff,
    hindices]
  refine ⟨fun h => h.2.2.2, fun h => ?_⟩
  rw [mainActivity?, hindices.2 h]
  exact ⟨rfl, rfl, rfl, h⟩

/-- The default start is the node that comes before all others as the start. -/
theorem defaultStart?_eq_some_iff : b.defaultStart? = some n ↔ ∀ m, b.StartsBefore n m := by
  refine ⟨startsBefore_of_defaultStart?, fun h => ?_⟩
  cases hstart : b.defaultStart? with
  | none =>
    have hempty := defaultStart?_eq_none_iff.1 hstart
    exact absurd n.isLt (by omega)
  | some m =>
    have hm := startsBefore_of_defaultStart? hstart n
    have hn := h m
    unfold StartsBefore at hm hn
    exact congrArg some (Fin.ext (by omega))
/-! ## The nodes that are reached -/

/-- Connected nodes are listed once, nearest first. -/
theorem reachable_exact (b : Bundle) (start : b.NodeIx) :
    (∀ n, n ∈ b.reachable start ↔ b.Connected start n) ∧ (b.reachable start).Nodup ∧
      (b.reachable start).Pairwise fun n m =>
        b.distance (fun _ => (.ok true : Except Empty Bool)) start n ≤
          b.distance (fun _ => (.ok true : Except Empty Bool)) start m := by
  obtain ⟨-, hexact, -⟩ := b.reachFiltered_exact (fun _ => (.ok true : Except Empty Bool)) start
  unfold reachable
  split
  rename_i nodes hnodes
  obtain ⟨-, hnodup, hmem, hsorted⟩ := hexact nodes hnodes
  refine ⟨fun n => ?_, hnodup, hsorted⟩
  rw [hmem n, exists_walkTo_iff]
  simp only [and_true]
  rfl

/-! ## The versions that a meta-bundle lists -/

/-- The text of the version that a node lists. -/
def versionText? (b : Bundle) (n : b.NodeIx) : Option String :=
  (b.node n).textValue? Vocabulary.version

/-- The number of the version that a node lists. -/
def version? (b : Bundle) (n : b.NodeIx) : Option ℚ :=
  ((b.versionText? n).bind versionNumber?).map Binary64.value

/-- The nodes that list a version, in the order in which they are reached from the default start. -/
def versionNodes (b : Bundle) : List b.NodeIx :=
  match b.defaultStart? with
  | none => []
  | some root => (b.reachable root).filter fun n =>
    b.hasType n Vocabulary.bundle && (b.versionText? n).isSome

/-- They are different nodes, nearest first. -/
theorem versionNodes_ordered (b : Bundle) : b.versionNodes.Nodup ∧
    ∀ root, b.defaultStart? = some root → b.versionNodes.Pairwise fun n m =>
      b.distance (fun _ => (.ok true : Except Empty Bool)) root n ≤
        b.distance (fun _ => (.ok true : Except Empty Bool)) root m := by
  unfold versionNodes
  cases b.defaultStart? with
  | none => simp
  | some root =>
    obtain ⟨-, hnodup, hsorted⟩ := b.reachable_exact root
    refine ⟨hnodup.filter _, fun root' hroot => ?_⟩
    obtain rfl := Option.some.inj hroot
    exact hsorted.filter _

/-- The versions are the nodes connected to the default start that are bundles with a version. -/
theorem mem_versionNodes_iff :
    n ∈ b.versionNodes ↔ (∃ root, b.defaultStart? = some root ∧ b.Connected root n) ∧
      b.hasType n Vocabulary.bundle ∧ ∃ text, b.versionText? n = some text := by
  unfold versionNodes
  cases hroot : b.defaultStart? with
  | none => simp
  | some root =>
    simp [List.mem_filter, (b.reachable_exact root).1, Option.isSome_iff_exists]

/-- The number of the version at a node; what it is where none can be read does not matter. -/
def versionNumber (b : Bundle) (n : b.NodeIx) : Binary64 :=
  ((b.versionText? n).bind versionNumber?).getD (.zero false)

/-- The number of a version has an exponent in range. -/
theorem minExponent_le_versionNumber (b : Bundle) (n : b.NodeIx) :
    Binary64.minExponent ≤ (b.versionNumber n).exponent := by
  unfold versionNumber
  cases h : (b.versionText? n).bind versionNumber? with
  | none => exact le_refl _
  | some x =>
    obtain ⟨text, -, hread⟩ := Option.bind_eq_some_iff.1 h
    exact Binary64.minExponent_le_of_readDecimal? hread

/-- A node has a version just if its text is read as a number of that value. -/
theorem version?_eq_some_iff {x : ℚ} :
    b.version? n = some x ↔ (∃ y, (b.versionText? n).bind versionNumber? = some y) ∧
      (b.versionNumber n).value = x := by
  unfold version? versionNumber
  cases (b.versionText? n).bind versionNumber? <;> simp

/-- The entry for a node that lists a version: its id and the text of the version. -/
def listedVersion? (b : Bundle) (n : b.NodeIx) : Option (QualifiedName × String) :=
  (b.versionText? n).map fun text => ((b.node n).id, text)

/-- The listed versions are those of the version nodes, in order. -/
theorem listedVersions_eq (b : Bundle) : b.listedVersions = b.versionNodes.filterMap b.listedVersion? := by
  unfold listedVersions versionNodes
  cases b.defaultStart? with
  | none => rfl
  | some root =>
    simp only [List.filterMap_filter]
    refine List.filterMap_congr fun n _ => ?_
    unfold listedVersion? versionText?
    cases b.hasType n Vocabulary.bundle <;>
      cases (b.node n).textValue? Vocabulary.version <;> simp

/-! ## The walk over the versions -/

section Walk

variable {metaBundle : QualifiedName} {nodes : List b.NodeIx}

/-- The newest of two lists is sought in one after the other. -/
theorem newest_append (best : Option (Binary64 × QualifiedName)) (first rest : List (QualifiedName × String)) :
    newest metaBundle best (first ++ rest) =
      newest metaBundle best first >>= fun best => newest metaBundle best rest := by
  induction first generalizing best with
  | nil => rfl
  | cons entry first ih =>
    obtain ⟨node, text⟩ := entry
    rw [List.cons_append, newest, newest]
    cases versionNumber? text with
    | none => rfl
    | some number => exact ih _

/-- Where all nodes have a number, the walk keeps the running maximum. -/
theorem newest_eq_argmax (h : ∀ n ∈ nodes, ∃ x, (b.versionText? n).bind versionNumber? = some x) :
    newest metaBundle none (nodes.filterMap b.listedVersion?) =
      .ok ((nodes.argmax fun n => (b.versionNumber n).value).map fun n =>
        (b.versionNumber n, (b.node n).id)) := by
  induction nodes using List.reverseRecOn with
  | nil => rfl
  | append_singleton nodes n ih =>
    obtain ⟨x, hx⟩ := h n (by simp)
    obtain ⟨text, htext, hread⟩ := Option.bind_eq_some_iff.1 hx
    have hnumber : b.versionNumber n = x := by rw [versionNumber, hx, Option.getD_some]
    have hentry : [n].filterMap b.listedVersion? = [((b.node n).id, text)] := by
      simp [listedVersion?, htext]
    rw [List.filterMap_append, newest_append, ih fun m hm => h m (by simp [hm]), hentry,
      List.argmax_concat]
    cases nodes.argmax fun n => (b.versionNumber n).value with
    | none => simp [newest, hread, hnumber, bind, Except.bind]
    | some m =>
      have hbetter : (b.versionNumber m).blt x ↔ (b.versionNumber m).value < x.value :=
        hnumber ▸ Binary64.blt_iff (b.minExponent_le_versionNumber m) (b.minExponent_le_versionNumber n)
      by_cases hlt : (b.versionNumber m).value < x.value
      · simp [newest, hread, hnumber, bind, Except.bind, hbetter.2 hlt, hlt]
      · have hworse : (b.versionNumber m).blt x = false := by
          rwa [Bool.eq_false_iff, ne_eq, hbetter]
        simp [newest, hread, hnumber, bind, Except.bind, hworse, hlt]

/-- The first text that is no number ends the walk. -/
theorem newest_eq_error {before after : List b.NodeIx} {text : String}
    (hbefore : ∀ m ∈ before, ∃ x, (b.versionText? m).bind versionNumber? = some x)
    (htext : b.versionText? n = some text) (hread : versionNumber? text = none) :
    newest metaBundle none ((before ++ n :: after).filterMap b.listedVersion?) =
      .error (.nonNumericVersion metaBundle (b.node n).id text) := by
  have hentry : (n :: after).filterMap b.listedVersion? =
      ((b.node n).id, text) :: after.filterMap b.listedVersion? := by
    simp [listedVersion?, htext]
  rw [List.filterMap_append, newest_append, newest_eq_argmax hbefore, hentry]
  simp [newest, hread, bind, Except.bind]

end Walk

/-- The first of the nodes that list a version without a number. -/
def firstUnreadable? (b : Bundle) : Option b.NodeIx :=
  b.versionNodes.find? fun n => (b.version? n).isNone

/-- No version is unreadable just if each of them has a number. -/
theorem firstUnreadable?_eq_none_iff :
    b.firstUnreadable? = none ↔ ∀ n ∈ b.versionNodes, ∃ x, b.version? n = some x := by
  simp [firstUnreadable?, Option.ne_none_iff_exists']

/-- If all versions are readable, the first of the greatest is the latest. -/
theorem latestVersion_of_readable (h : b.firstUnreadable? = none) :
    b.latestVersion = .ok ((b.versionNodes.argmax fun n => (b.versionNumber n).value).map fun n =>
      (b.node n).id) := by
  have hnumbers : ∀ n ∈ b.versionNodes, ∃ x, (b.versionText? n).bind versionNumber? = some x := by
    intro n hn
    obtain ⟨x, hx⟩ := firstUnreadable?_eq_none_iff.1 h n hn
    exact (version?_eq_some_iff.1 hx).1
  rw [latestVersion, listedVersions_eq, newest_eq_argmax hnumbers]
  simp [Except.map, Function.comp_def]

/-- Otherwise the first unreadable one is reported. -/
theorem latestVersion_of_unreadable (h : b.firstUnreadable? = some n) :
    ∃ text, b.versionText? n = some text ∧
      b.latestVersion = .error (.nonNumericVersion b.id (b.node n).id text) := by
  obtain ⟨hnone, before, after, hsplit, hbefore⟩ := List.find?_eq_some_iff_append.1 h
  obtain ⟨-, -, text, htext⟩ := mem_versionNodes_iff.1 (List.mem_of_find?_eq_some h)
  have hread : versionNumber? text = none := by
    simpa [version?, htext] using hnone
  have hnumbers : ∀ m ∈ before, ∃ x, (b.versionText? m).bind versionNumber? = some x := by
    intro m hm
    obtain ⟨x, hx⟩ := Option.isSome_iff_exists.1 (by simpa using hbefore m hm)
    exact (version?_eq_some_iff.1 hx).1
  refine ⟨text, htext, ?_⟩
  rw [latestVersion, listedVersions_eq, hsplit, newest_eq_error hnumbers htext hread]
  rfl

/-- The resolution fails just for the first unreadable version. -/
theorem latestVersion_eq_error_iff {err : ResolutionError} :
    b.latestVersion = .error err ↔ ∃ n text, b.firstUnreadable? = some n ∧ b.versionText? n = some text ∧
      err = .nonNumericVersion b.id (b.node n).id text := by
  constructor
  · intro h
    cases hfirst : b.firstUnreadable? with
    | none =>
      rw [latestVersion_of_readable hfirst] at h
      cases h
    | some n =>
      obtain ⟨text, htext, hfails⟩ := latestVersion_of_unreadable hfirst
      exact ⟨n, text, rfl, htext, Except.error.inj (h.symm.trans hfails)⟩
  · rintro ⟨n, text, hfirst, htext, rfl⟩
    obtain ⟨text', htext', hfails⟩ := latestVersion_of_unreadable hfirst
    obtain rfl := Option.some.inj (htext'.symm.trans htext)
    exact hfails

/-- There is no latest version just if there are no versions. -/
theorem latestVersion_eq_none_iff : b.latestVersion = .ok none ↔ b.versionNodes = [] := by
  cases hfirst : b.firstUnreadable? with
  | none =>
    rw [latestVersion_of_readable hfirst, Except.ok.injEq, Option.map_eq_none_iff, List.argmax_eq_none]
  | some n =>
    obtain ⟨text, -, hfails⟩ := latestVersion_of_unreadable hfirst
    have hnode := List.mem_of_find?_eq_some hfirst
    rw [hfails]
    constructor
    · intro h
      cases h
    · intro hempty
      simp [hempty] at hnode

/-- The latest version is the first of the greatest. -/
theorem latestVersion_eq_some_iff {id : QualifiedName} :
    b.latestVersion = .ok (some id) ↔
      ∃ n x, n ∈ b.versionNodes ∧ (b.node n).id = id ∧ b.version? n = some x ∧
        ∀ m ∈ b.versionNodes, ∃ y, b.version? m = some y ∧ y ≤ x ∧
          (y = x → b.versionNodes.idxOf n ≤ b.versionNodes.idxOf m) := by
  have hvalue {n : b.NodeIx} {x : ℚ} (h : b.version? n = some x) : (b.versionNumber n).value = x :=
    (version?_eq_some_iff.1 h).2
  constructor
  · intro h
    cases hfirst : b.firstUnreadable? with
    -- an unreadable version would have been reported
    | some n =>
      obtain ⟨text, -, hfails⟩ := latestVersion_of_unreadable hfirst
      rw [hfails] at h
      cases h
    | none =>
      have hread := firstUnreadable?_eq_none_iff.1 hfirst
      rw [latestVersion_of_readable hfirst, Except.ok.injEq, Option.map_eq_some_iff] at h
      obtain ⟨n, hn, rfl⟩ := h
      obtain ⟨hmem, hgreatest, hearliest⟩ := List.mem_argmax_iff.1 hn
      obtain ⟨x, hx⟩ := hread n hmem
      refine ⟨n, x, hmem, rfl, hx, fun m hm => ?_⟩
      obtain ⟨y, hy⟩ := hread m hm
      have hle := hgreatest m hm
      have hfirst := hearliest m hm
      rw [hvalue hx, hvalue hy] at hle hfirst
      exact ⟨y, hy, hle, fun heq => hfirst heq.ge⟩
  · rintro ⟨n, x, hmem, rfl, hx, hlatest⟩
    have hfirst : b.firstUnreadable? = none := by
      refine firstUnreadable?_eq_none_iff.2 fun m hm => ?_
      obtain ⟨y, hy, -⟩ := hlatest m hm
      exact ⟨y, hy⟩
    -- the first of the greatest is what `argmax` picks
    have hargmax : n ∈ b.versionNodes.argmax fun n => (b.versionNumber n).value := by
      refine List.mem_argmax_iff.2 ⟨hmem, fun m hm => ?_, fun m hm hle => ?_⟩
      · obtain ⟨y, hy, hyx, -⟩ := hlatest m hm
        rwa [hvalue hx, hvalue hy]
      · obtain ⟨y, hy, hyx, hearlier⟩ := hlatest m hm
        rw [hvalue hx, hvalue hy] at hle
        exact hearlier (le_antisymm hyx hle)
    rw [latestVersion_of_readable hfirst, Option.mem_def.1 hargmax]
    rfl

/-- **The latest version is the first of the greatest.** The nodes that count are those of the bundle type
with a version text that are connected with the default start, each once and nearest first. Looking for the
latest version fails just if the text of one of them is no number, and names the first of these. Otherwise
there is no latest version when there is no such node, and else it is the first of those with the greatest
number. -/
theorem latestVersion_exact (b : Bundle) :
    ((∀ n, n ∈ b.versionNodes ↔ (∃ root, b.defaultStart? = some root ∧ b.Connected root n) ∧
          b.hasType n Vocabulary.bundle ∧ ∃ text, b.versionText? n = some text) ∧
        b.versionNodes.Nodup ∧
        ∀ root, b.defaultStart? = some root → b.versionNodes.Pairwise fun n m =>
          b.distance (fun _ => (.ok true : Except Empty Bool)) root n ≤
            b.distance (fun _ => (.ok true : Except Empty Bool)) root m) ∧
      (∀ err, b.latestVersion = .error err ↔
        ∃ n text, b.versionNodes.find? (fun n => (b.version? n).isNone) = some n ∧
          b.versionText? n = some text ∧ err = .nonNumericVersion b.id (b.node n).id text) ∧
      (b.latestVersion = .ok none ↔ b.versionNodes = []) ∧
      ∀ id, b.latestVersion = .ok (some id) ↔
        ∃ n x, n ∈ b.versionNodes ∧ (b.node n).id = id ∧ b.version? n = some x ∧
          ∀ m ∈ b.versionNodes, ∃ y, b.version? m = some y ∧ y ≤ x ∧
            (y = x → b.versionNodes.idxOf n ≤ b.versionNodes.idxOf m) :=
  ⟨⟨fun _ => mem_versionNodes_iff, b.versionNodes_ordered⟩, fun _ => latestVersion_eq_error_iff,
    latestVersion_eq_none_iff, fun _ => latestVersion_eq_some_iff⟩

end Bundle

namespace Sample

/-- A node of a meta-bundle that lists a version. -/
def edition (localPart number : String) : Node :=
  ((Node.bare ⟨"", localPart⟩ .entity).withAttribute Vocabulary.type
    (.qualifiedName ⟨Vocabulary.bundle, ""⟩)).withAttribute Vocabulary.version (.string number)

/-- A meta-bundle with four versions, of which one cannot be reached. -/
def editions : Bundle where
  id := ⟨"", "editions"⟩
  nodes := #[.bare ⟨"", "work"⟩ .entity, edition "draft" "2.5", edition "third" " 3.0", edition "last" "3",
    edition "lost" "4"]
  edges := #[⟨1, 0, [.alternate], by decide⟩, ⟨2, 0, [.alternate], by decide⟩,
    ⟨3, 0, [.alternate], by decide⟩]
  distinct := by decide +kernel

example : editions.latestVersion = .ok (some ⟨"", "third"⟩) := by decide +kernel

end Sample

end ProvenanceTrail
