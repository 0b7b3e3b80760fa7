import Mathlib.Data.List.Nodup
import Mathlib.Data.List.Perm.Subperm
import ProvenanceTrail.Proofs.Trust.Verdicts

/-!
# Which verdicts are remembered

A verdict is put in front when it is reached and stays where it is when it is looked up. So what a verifier
with room for `n` verdicts remembers are the `n` verdicts that were put in last, whichever tokens were
checked last. `VerdictCache.Holds` says this of a history of checks; it is kept by every call.

A token that was among the last `n` tokens checked can therefore be forgotten: its verdict, looked up again
and again, grows old all the same. This is the only way (`VerdictCache.Holds.mem_of_fresh`): a token
whose last check put its verdict in is remembered as long as it is among the last `n`, because two verdicts
under one key are more than `n` places apart (`Spaced`).
-/

namespace ProvenanceTrail

/-! ## Histories of checks -/

/-- A check of a signature that came to a verdict: the token, and whether its verdict was remembered. -/
structure SignatureCheck where
  token : Token
  remembered : Bool
deriving DecidableEq, Repr

namespace SignatureCheck

/-- The tokens whose verdicts were put in during some checks, latest first. -/
def putIn (past : List SignatureCheck) : List Token :=
  (past.filter fun c => !c.remembered).map token

/-- The keys under which these verdicts were put in. -/
def keysPutIn (past : List SignatureCheck) : List (List UInt8) := (putIn past).map Token.verdictKey

/-- The check of a token for which the signature stage gives an answer. -/
def of? (t : Token) : Except IntegrityError (Bool × Bool) → Option SignatureCheck
  | .ok (_, remembered) => some ⟨t, remembered⟩
  | .error _ => none

/-- The `n` different tokens that were checked last. -/
def recent (n : Nat) (past : List SignatureCheck) : List Token :=
  ((past.map token).eraseDups).take n

end SignatureCheck

namespace VerifierCall

/-- The token of a call that gets to the stage where the signature is decided. -/
def staged? : VerifierCall → Option Token
  | .verify bundle (some t) pinned =>
    if t.data.additionalData.bundle = bundle.uri ∧ Verifier.agreesWithPin t pinned = true then some t
    else none
  | _ => none

/-- The check that a call makes, if it gets to that stage and makes it without an error. -/
def check? (v : Verifier) (c : VerifierCall) : Option SignatureCheck :=
  c.staged?.bind fun t => SignatureCheck.of? t (v.signatureVerdict t).1

/-- The checks since the verdicts were last forgotten, latest first, after one more call. -/
def record (v : Verifier) (past : List SignatureCheck) : VerifierCall → List SignatureCheck
  | .clear => []
  | .verify bundle token pinned => ((VerifierCall.verify bundle token pinned).check? v).toList ++ past

/-- The token whose signature a call looks at is the one it is given. -/
theorem token_of_staged {bundle : QualifiedName} {token : Option Token} {pinned : Option String}
    {t : Token} (h : (VerifierCall.verify bundle token pinned).staged? = some t) : token = some t := by
  cases token with
  | none => cases h
  | some u =>
    simp only [staged?, Option.ite_none_right_eq_some, Option.some.injEq] at h
    rw [h.2]

end VerifierCall

namespace Verifier

/-- The verifier after some calls. -/
def after (v : Verifier) (calls : List VerifierCall) : Verifier := calls.foldl VerifierCall.run v

/-- The checks since the verdicts were last forgotten, latest first, after some more calls. -/
def checksAfter (v : Verifier) (past : List SignatureCheck) :
    List VerifierCall → List SignatureCheck
  | [] => past
  | c :: calls => (c.run v).checksAfter (c.record v past) calls

/-- The verdict on the signature of a token is remembered. -/
def Remembers (v : Verifier) (t : Token) : Prop := ∃ valid, (v.signatureVerdict t).1 = .ok (valid, true)

/-- A verifier with room for some verdicts, one at least, after some calls. -/
def cachedAfter (registry : TokenRegistry) (capacity : Nat) (calls : List VerifierCall) : Verifier :=
  (Verifier.mk registry (some (.empty capacity))).after calls

/-- The checks that such a verifier has made since its verdicts were last forgotten, latest first. -/
def cachedChecks (registry : TokenRegistry) (capacity : Nat) (calls : List VerifierCall) :
    List SignatureCheck :=
  (Verifier.mk registry (some (.empty capacity))).checksAfter [] calls

end Verifier

/-! ## Spacing -/

/-- Each element differs from the `n` elements behind it. -/
def Spaced {α : Type*} (n : Nat) : List α → Prop
  | [] => True
  | a :: rest => a ∉ rest.take n ∧ Spaced n rest

namespace Spaced

variable {α : Type*} {n : Nat} {front back : List α}

/-- What is spaced out is so behind any front. -/
theorem of_append (h : Spaced n (front ++ back)) : Spaced n back := by
  induction front with
  | nil => exact h
  | cons a front ih => exact ih h.2

/-- Among `n + 1` neighbours none occurs twice. -/
theorem nodup (h : Spaced n (front ++ back)) (hlength : front.length ≤ n + 1) : front.Nodup := by
  induction front with
  | nil => exact List.nodup_nil
  | cons a front ih =>
    have hfront : front.length ≤ n := by simpa using hlength
    refine List.nodup_cons.2 ⟨fun hmem => h.1 ?_, ih h.2 (by omega)⟩
    show a ∈ (front ++ back).take n
    rw [List.take_append, List.take_of_length_le hfront]
    exact List.mem_append_left _ hmem

end Spaced

/-! ## What a cache holds -/

namespace SignatureCheck

/-- What was put in by two stretches of calls was put in by either. -/
theorem putIn_append (newer older : List SignatureCheck) :
    putIn (newer ++ older) = putIn newer ++ putIn older := by
  simp [putIn]

/-- A token put in was checked. -/
theorem mem_map_token_of_mem_putIn {t : Token} {past : List SignatureCheck} (h : t ∈ putIn past) :
    t ∈ past.map token :=
  (List.filter_sublist.map token).subset h

/-- A token that is checked behind others is recent only if fewer than `n` different tokens were checked
after it. -/
theorem length_lt_of_mem_recent {n : Nat} {t : Token} {newer older : List SignatureCheck} {b : Bool}
    (hlast : t ∉ newer.map token) (h : t ∈ recent n (newer ++ ⟨t, b⟩ :: older)) {ts : List Token}
    (hts : ts.Nodup) (hsub : ∀ u ∈ ts, u ∈ newer.map token) : ts.length < n := by
  have hlength : ts.length ≤ (newer.map token).eraseDups.length :=
    (List.subperm_of_subset hts fun u hu => List.mem_eraseDups.2 (hsub u hu)).length_le
  by_contra hle
  rw [recent, List.map_append, List.eraseDups_append, List.take_append_of_le_length (by omega)] at h
  exact hlast (List.mem_eraseDups.1 (List.mem_of_mem_take h))

end SignatureCheck

namespace VerdictCache

open SignatureCheck (putIn keysPutIn recent)

variable {c : VerdictCache} {past newer older : List SignatureCheck} {t : Token} {valid : Bool}
  {key : List UInt8}

/-- Nothing is found under a key just if no entry has it. -/
theorem find?_eq_none_iff : c.find? key = none ↔ key ∉ c.entries.map Prod.fst := by
  rw [find?, Option.map_eq_none_iff, List.find?_eq_none, List.mem_map]
  constructor
  · rintro h ⟨e, he, rfl⟩
    exact h e he (by simp)
  · intro h e he heq
    exact h ⟨e, he, by simpa using heq⟩

/-- A cache after some checks: it holds what was put in last, and what was put in under one key lies far
apart. -/
structure Holds (c : VerdictCache) (past : List SignatureCheck) : Prop where
  keys : c.entries.map Prod.fst = (keysPutIn past).take c.capacity
  spaced : Spaced c.capacity (keysPutIn past)

/-- An empty cache holds nothing of the past. -/
theorem holds_nil (capacity : Nat) : (VerdictCache.mk capacity []).Holds [] :=
  ⟨by simp [keysPutIn, putIn], trivial⟩

namespace Holds

/-- A cache that holds the past is not larger than its room. -/
theorem size_le (h : c.Holds past) : c.size ≤ c.capacity := by
  have hlength := congrArg List.length h.keys
  rw [List.length_map, List.length_take] at hlength
  rw [size, hlength]
  exact Nat.min_le_left _ _

/-- A verdict that is looked up stays where it is. -/
theorem look (h : c.Holds past) (t : Token) : c.Holds (⟨t, true⟩ :: past) := ⟨h.keys, h.spaced⟩

/-- A verdict that is put in comes in front. -/
theorem put (h : c.Holds past) (hfind : c.find? t.verdictKey = none) :
    (c.insert t.verdictKey valid).Holds (⟨t, false⟩ :: past) := by
  rw [find?_eq_none_iff] at hfind
  have hfilter : (c.entries.filter fun e => e.1 != t.verdictKey) = c.entries :=
    List.filter_eq_self.2 fun e he => bne_iff_ne.2 fun heq => hfind (heq ▸ List.mem_map_of_mem he)
  have hput : keysPutIn (⟨t, false⟩ :: past) = t.verdictKey :: keysPutIn past := rfl
  refine ⟨?_, h.keys ▸ hfind, h.spaced⟩
  rw [insert, hfilter, hput, List.map_take, List.map_cons, h.keys, ← List.take_succ_cons,
    List.take_take, Nat.min_eq_left (Nat.le_succ _)]

/-- **A verdict is remembered as long as its token is recent, if it was put in when the token was last
checked.** -/
theorem mem_of_fresh (h : c.Holds (newer ++ ⟨t, false⟩ :: older)) (hlast : t ∉ newer.map (·.token))
    (hrecent : t ∈ recent c.capacity (newer ++ ⟨t, false⟩ :: older)) :
    t.verdictKey ∈ (keysPutIn (newer ++ ⟨t, false⟩ :: older)).take c.capacity := by
  have hput : putIn (newer ++ ⟨t, false⟩ :: older) = putIn newer ++ t :: putIn older :=
    SignatureCheck.putIn_append _ _
  have hspaced := h.spaced
  rw [keysPutIn, hput] at hspaced ⊢
  rcases Nat.lt_or_ge (putIn newer).length c.capacity with hlt | hge
  · obtain ⟨m, hm⟩ := Nat.exists_eq_add_of_lt hlt
    rw [List.map_append, List.take_append, List.mem_append, List.length_map, hm, Nat.add_assoc,
      Nat.add_sub_cancel_left]
    exact .inr List.mem_cons_self
  · -- the tokens put in right after `t` are different ones, and all of them were checked after `t`
    exfalso
    obtain ⟨others, first, hsplit, hlength⟩ :
        ∃ others first, putIn newer = others ++ first ∧ first.length = c.capacity :=
      ⟨_, _, (List.take_append_drop ((putIn newer).length - c.capacity) _).symm, by
        rw [List.length_drop]; omega⟩
    rw [hsplit, List.append_assoc, List.map_append, List.map_append] at hspaced
    have hnodup : first.Nodup :=
      List.Nodup.of_map _ (hspaced.of_append.nodup (by rw [List.length_map]; omega))
    refine absurd (SignatureCheck.length_lt_of_mem_recent hlast hrecent hnodup fun u hu => ?_) (by omega)
    exact SignatureCheck.mem_map_token_of_mem_putIn (hsplit ▸ List.mem_append_right _ hu)

end Holds

end VerdictCache

/-! ## What a verifier remembers -/

namespace Verifier

open SignatureCheck (keysPutIn recent)

variable {v : Verifier} {bundle : QualifiedName} {t : Token} {pinned : Option String}
  {past : List SignatureCheck} {c : VerdictCache}

/-- A call that gets to the signature stage leaves the verifier as this stage leaves it, and reports
whether the verdict was remembered. -/
theorem verify_of_staged (h : (VerifierCall.verify bundle (some t) pinned).staged? = some t) :
    (v.verify bundle (some t) pinned).2 = (v.signatureVerdict t).2 ∧
      ∀ r, (v.verify bundle (some t) pinned).1 = .ok r →
        (v.signatureVerdict t).1.map (·.2) = .ok r.cacheHit := by
  simp only [VerifierCall.staged?, Option.ite_none_right_eq_some, and_true] at h
  simp only [verify, h.1, h.2, ne_eq, not_true_eq_false, if_false, Bool.not_true, Bool.false_eq_true]
  rcases v.signatureVerdict t with ⟨_ | ⟨_ | _, hit⟩, after⟩
  · exact ⟨rfl, fun r hr => by cases hr⟩
  · exact ⟨rfl, fun r hr => by cases hr; rfl⟩
  · simp only
    cases after.isListed t with
    | error e => exact ⟨rfl, fun r hr => by cases hr⟩
    | ok listed => exact ⟨rfl, fun r hr => by cases hr; rfl⟩

/-- A call that does not get there changes nothing. -/
theorem verify_of_not_staged {token : Option Token}
    (h : (VerifierCall.verify bundle token pinned).staged? = none) :
    (v.verify bundle token pinned).2 = v := by
  cases token with
  | none => rfl
  | some t =>
    simp only [VerifierCall.staged?, ite_eq_right_iff, reduceCtorEq, imp_false, not_and] at h
    simp only [verify]
    split_ifs with hnames hagrees
    · rfl
    · rfl
    · exact absurd (by simpa using hagrees) (h (not_not.1 hnames))

/-- A verdict on a signature leaves the registry as it is. -/
theorem signatureVerdict_registry (v : Verifier) (t : Token) :
    (v.signatureVerdict t).2.registry = v.registry := by
  obtain ⟨registry, _ | c⟩ := v
  · rfl
  · simp only [signatureVerdict]
    cases c.find? t.verdictKey with
    | some valid => rfl
    | none => cases t.verifySignature <;> rfl

/-- Every call leaves the registry as it is. -/
theorem run_registry (v : Verifier) (call : VerifierCall) : (call.run v).registry = v.registry := by
  cases call with
  | clear => rfl
  | verify bundle token pinned =>
    rw [VerifierCall.run]
    cases token with
    | none => rfl
    | some t =>
      rcases verify_after v bundle t pinned with h | h <;> rw [h]
      exact signatureVerdict_registry v t

theorem after_registry (v : Verifier) (calls : List VerifierCall) :
    (v.after calls).registry = v.registry := by
  induction calls generalizing v with
  | nil => rfl
  | cons call calls ih => exact (ih (call.run v)).trans (run_registry v call)

/-- A call that gets to the signature stage is answered when the signature can be decided and the registry
can be reached. -/
theorem exists_answer (h : (VerifierCall.verify bundle (some t) pinned).staged? = some t)
    (hok : ∃ valid, t.verifySignature = .ok valid) (hreachable : v.registry.reachable = true) :
    ∃ r, (v.verify bundle (some t) pinned).1 = .ok r := by
  simp only [VerifierCall.staged?, Option.ite_none_right_eq_some, and_true] at h
  obtain ⟨answer, hanswer⟩ : ∃ answer, (v.signatureVerdict t).1 = .ok answer := by
    obtain ⟨valid, hvalid⟩ := hok
    obtain ⟨registry, _ | c⟩ := v
    · exact ⟨_, by simp only [signatureVerdict, hvalid]; rfl⟩
    · simp only [signatureVerdict, hvalid]
      cases c.find? t.verdictKey <;> exact ⟨_, rfl⟩
  simp only [verify, h.1, h.2, ne_eq, not_true_eq_false, if_false, Bool.not_true, Bool.false_eq_true]
  rcases hstage : v.signatureVerdict t with ⟨_ | ⟨_ | _, hit⟩, after⟩
  · rw [hstage] at hanswer; cases hanswer
  · exact ⟨_, rfl⟩
  · have hregistry : after.registry = v.registry := by
      rw [← signatureVerdict_registry v t, hstage]
    simp only [isListed, TokenRegistry.tokensOf, hregistry, hreachable, if_true]
    exact ⟨_, rfl⟩

/-- A verdict is remembered exactly when it stands under the key of the token. -/
theorem remembers_iff (hcache : v.cache = some c) :
    v.Remembers t ↔ c.find? t.verdictKey ≠ none := by
  simp only [Remembers, signatureVerdict, hcache]
  cases c.find? t.verdictKey with
  | some valid => simp
  | none => cases t.verifySignature <;> simp

/-- A check is answered from memory just if the verdict on its token is remembered. -/
theorem cacheHit_iff (h : (VerifierCall.verify bundle (some t) pinned).staged? = some t)
    {r : IntegrityResult} (hr : (v.verify bundle (some t) pinned).1 = .ok r) :
    r.cacheHit = true ↔ v.Remembers t := by
  have hhit := (verify_of_staged h).2 r hr
  unfold Remembers
  rcases hanswer : (v.signatureVerdict t).1 with _ | ⟨valid, hit⟩
  · rw [hanswer] at hhit; cases hhit
  · rw [hanswer] at hhit
    cases hhit
    simp

/-- A verifier after some checks, with room for `n` verdicts. -/
def Holds (v : Verifier) (n : Nat) (past : List SignatureCheck) : Prop :=
  ∃ c, v.cache = some c ∧ c.capacity = n ∧ c.Holds past

namespace Holds

variable {n : Nat}

/-- The signature stage keeps it. -/
theorem signatureVerdict (h : v.Holds n past) (t : Token) :
    (v.signatureVerdict t).2.Holds n
      ((SignatureCheck.of? t (v.signatureVerdict t).1).toList ++ past) := by
  obtain ⟨registry, _⟩ := v
  obtain ⟨c, rfl, hcapacity, hc⟩ := h
  simp only [Verifier.signatureVerdict]
  cases hfind : c.find? t.verdictKey with
  | some valid => exact ⟨c, rfl, hcapacity, hc.look t⟩
  | none =>
    cases t.verifySignature with
    | error e => exact ⟨c, rfl, hcapacity, hc⟩
    | ok valid => exact ⟨_, rfl, hcapacity, hc.put hfind⟩

/-- Every call keeps it. -/
theorem run (h : v.Holds n past) (call : VerifierCall) : (call.run v).Holds n (call.record v past) := by
  cases call with
  | clear =>
    obtain ⟨registry, _⟩ := v
    obtain ⟨c, rfl, hcapacity, -⟩ := h
    exact ⟨_, rfl, hcapacity, VerdictCache.holds_nil c.capacity⟩
  | verify bundle token pinned =>
    simp only [VerifierCall.run, VerifierCall.record, VerifierCall.check?]
    cases hstaged : (VerifierCall.verify bundle token pinned).staged? with
    | none => rw [verify_of_not_staged hstaged]; exact h
    | some t =>
      obtain rfl := VerifierCall.token_of_staged hstaged
      rw [(verify_of_staged hstaged).1]
      exact h.signatureVerdict t

/-- Every sequence of calls keeps it. -/
theorem after (h : v.Holds n past) (calls : List VerifierCall) :
    (v.after calls).Holds n (v.checksAfter past calls) := by
  induction calls generalizing v past with
  | nil => exact h
  | cons call calls ih => exact ih (h.run call)

/-- Remembered are the verdicts that were put in last. -/
theorem remembers_iff (h : v.Holds n past) :
    v.Remembers t ↔ t.verdictKey ∈ (keysPutIn past).take n := by
  obtain ⟨c, hcache, rfl, hc⟩ := h
  rw [Verifier.remembers_iff hcache, ne_eq, VerdictCache.find?_eq_none_iff, not_not, hc.keys]

/-- A check of a token whose signature can be decided, as it is noted. -/
theorem record_of_staged (h : v.Holds n past) {call : VerifierCall} (hstaged : call.staged? = some t)
    (hok : ∃ valid, t.verifySignature = .ok valid) :
    call.record v past = ⟨t, decide (t.verdictKey ∈ (keysPutIn past).take n)⟩ :: past := by
  obtain ⟨valid, hvalid⟩ := hok
  cases call with
  | clear => cases hstaged
  | verify bundle token pinned =>
    rw [VerifierCall.record, VerifierCall.check?, hstaged, Option.bind_some]
    obtain ⟨c, hcache, rfl, hc⟩ := h
    simp only [Verifier.signatureVerdict, hcache, ← hc.keys]
    cases hfind : c.find? t.verdictKey with
    | some valid =>
      have hmem : t.verdictKey ∈ c.entries.map Prod.fst := by
        by_contra hmem
        rw [VerdictCache.find?_eq_none_iff.2 hmem] at hfind
        cases hfind
      simp only [decide_eq_true hmem]
      rfl
    | none =>
      simp only [hvalid, decide_eq_false (VerdictCache.find?_eq_none_iff.1 hfind)]
      rfl

/-- A recent token whose verdict is not remembered was looked up when it was last checked. -/
theorem find?_of_recent (h : v.Holds n past) (hrecent : t ∈ recent n past) (hnot : ¬v.Remembers t) :
    past.find? (fun c => c.token = t) = some ⟨t, true⟩ := by
  rw [h.remembers_iff] at hnot
  obtain ⟨c, -, rfl, hc⟩ := h
  have hmem : ∃ check ∈ past, check.token = t :=
    List.mem_map.1 (List.mem_eraseDups.1 (List.mem_of_mem_take hrecent))
  obtain ⟨check, hfind⟩ : ∃ check, past.find? (fun c => c.token = t) = some check := by
    rw [← Option.isSome_iff_exists, List.find?_isSome]
    simpa using hmem
  obtain ⟨htoken, newer, older, rfl, hnewer⟩ := List.find?_eq_some_iff_append.1 hfind
  obtain ⟨u, remembered⟩ := check
  obtain rfl : u = t := by simpa using htoken
  cases remembered with
  | true => exact hfind
  | false =>
    have hlast : u ∉ newer.map (·.token) := fun hmem => by
      obtain ⟨check, hcheck, rfl⟩ := List.mem_map.1 hmem
      simpa using hnewer check hcheck
    exact absurd (hc.mem_of_fresh hlast hrecent) hnot

end Holds

/-- After any calls the cache holds the checks that were made since the last clearing. -/
theorem holds_cachedAfter (registry : TokenRegistry) (capacity : Nat) (calls : List VerifierCall) :
    (cachedAfter registry capacity calls).Holds (max capacity 1)
      (cachedChecks registry capacity calls) :=
  Holds.after ⟨_, rfl, rfl, VerdictCache.holds_nil _⟩ calls

/-- **A verifier remembers the verdicts that it put in last.** Take any registry, any capacity and any
sequence of calls, and let `n` be the capacity, but one at least. There are never more than `n` verdicts. A
call that then gets to the signature stage is answered from memory exactly when the verdict on its token is
one of the last `n` that were put in, and says so in its answer. If the token is one of the last `n` that
were checked and yet is not remembered, then its last check was answered from memory: it did not put the
verdict in again. -/
theorem remembers_put_in_last (registry : TokenRegistry) (capacity : Nat)
    (calls : List VerifierCall) :
    (∃ c, (cachedAfter registry capacity calls).cache = some c ∧ c.size ≤ max capacity 1) ∧
      ∀ bundle t pinned, (VerifierCall.verify bundle (some t) pinned).staged? = some t →
        ((cachedAfter registry capacity calls).Remembers t ↔
            t.verdictKey ∈
              (keysPutIn (cachedChecks registry capacity calls)).take (max capacity 1)) ∧
          (∀ r, ((cachedAfter registry capacity calls).verify bundle (some t) pinned).1 = .ok r →
            (r.cacheHit = true ↔ (cachedAfter registry capacity calls).Remembers t)) ∧
          (t ∈ recent (max capacity 1) (cachedChecks registry capacity calls) →
            ¬(cachedAfter registry capacity calls).Remembers t →
              (cachedChecks registry capacity calls).find? (fun c => c.token = t) =
                some ⟨t, true⟩) := by
  have hholds := holds_cachedAfter registry capacity calls
  refine ⟨?_, fun bundle t pinned hstaged =>
    ⟨hholds.remembers_iff, fun r => cacheHit_iff hstaged, hholds.find?_of_recent⟩⟩
  obtain ⟨c, hcache, hcapacity, hc⟩ := hholds
  exact ⟨c, hcache, hcapacity ▸ hc.size_le⟩

end Verifier

namespace Sample

/-- A call that checks such a token. -/
def checkOf (signature : String) : VerifierCall :=
  .verify ⟨"http://host/", "a"⟩ (some (signedBy signature)) none

/-- Three tokens with one data, whose signatures are the pairs (1, 1), (1, 2) and (1, 3). With room for two
verdicts, the first token is looked up between the second and the third. -/
def overtaken : List VerifierCall :=
  [checkOf "MAYCAQECAQE=", checkOf "MAYCAQECAQI=", checkOf "MAYCAQECAQE=", checkOf "MAYCAQECAQM="]

/-- The check of a sample token looks at its signature. -/
theorem staged_checkOf (signature : String) : (checkOf signature).staged? = some (signedBy signature) := by
  simp only [checkOf, VerifierCall.staged?]
  rw [if_pos]
  exact ⟨rfl, rfl⟩

/-- A sample token whose signature can be read has a verdict. -/
theorem exists_verdict (signature : String) (h : (signedBy signature).signature?.isSome = true) :
    ∃ valid, (signedBy signature).verifySignature = .ok valid := by
  obtain ⟨sig, hsig⟩ := Option.isSome_iff_exists.1 h
  exact ⟨_, verifySignature_signedBy hsig⟩

set_option maxRecDepth 4000 in
/-- The digest keeps the three tokens apart. -/
theorem nodup_verdictKeys :
    (["MAYCAQECAQE=", "MAYCAQECAQI=", "MAYCAQECAQM="].map fun s => (signedBy s).verdictKey).Nodup := by
  simp only [Token.verdictKey, Token.canonicalBytes_eq_flatMap, Token.normalize_toJson,
    TokenData.normalize_toJson, AdditionalTokenData.normalize_toJson, signedBy, certifiedData, Json.render,
    Json.renderMembers, Json.quote]
  simp only [show shortCertificate.toList = _ from String.toList_ofList]
  decide +kernel

/-- The sample tokens have different keys. -/
theorem verdictKey_signedBy_ne :
    (signedBy "MAYCAQECAQE=").verdictKey ≠ (signedBy "MAYCAQECAQI=").verdictKey ∧
      (signedBy "MAYCAQECAQE=").verdictKey ≠ (signedBy "MAYCAQECAQM=").verdictKey ∧
      (signedBy "MAYCAQECAQI=").verdictKey ≠ (signedBy "MAYCAQECAQM=").verdictKey := by
  have hnodup := nodup_verdictKeys
  simp only [List.map_cons, List.map_nil, List.nodup_cons, List.mem_cons, List.not_mem_nil, or_false,
    not_or, not_false_eq_true, List.nodup_nil, and_true] at hnodup
  exact ⟨hnodup.1.1, hnodup.1.2, hnodup.2⟩

/-- Sample tokens are told apart by their signatures. -/
theorem signedBy_inj {s s' : String} : signedBy s = signedBy s' ↔ s = s' := by simp [signedBy]

/-- Only the second check of the first token is answered from memory. -/
theorem checks_overtaken :
    Verifier.cachedChecks ⟨[], true⟩ 2 overtaken =
      [⟨signedBy "MAYCAQECAQM=", false⟩, ⟨signedBy "MAYCAQECAQE=", true⟩,
        ⟨signedBy "MAYCAQECAQI=", false⟩, ⟨signedBy "MAYCAQECAQE=", false⟩] := by
  obtain ⟨hne₁₂, hne₁₃, hne₂₃⟩ := verdictKey_signedBy_ne
  have h₀ : (Verifier.mk ⟨[], true⟩ (some (.empty 2))).Holds 2 [] :=
    ⟨_, rfl, rfl, VerdictCache.holds_nil 2⟩
  have h₁ := h₀.run (checkOf "MAYCAQECAQE=")
  have h₂ := h₁.run (checkOf "MAYCAQECAQI=")
  have h₃ := h₂.run (checkOf "MAYCAQECAQE=")
  have hok₁ := exists_verdict "MAYCAQECAQE=" (by decide +kernel)
  have hok₂ := exists_verdict "MAYCAQECAQI=" (by decide +kernel)
  have hok₃ := exists_verdict "MAYCAQECAQM=" (by decide +kernel)
  simp only [Verifier.cachedChecks, overtaken, Verifier.checksAfter]
  rw [h₃.record_of_staged (staged_checkOf _) hok₃, h₂.record_of_staged (staged_checkOf _) hok₁,
    h₁.record_of_staged (staged_checkOf _) hok₂, h₀.record_of_staged (staged_checkOf _) hok₁]
  simp [SignatureCheck.keysPutIn, SignatureCheck.putIn, Ne.symm hne₁₂, Ne.symm hne₁₃, Ne.symm hne₂₃]

/-- The first token is one of the two that were checked last. -/
theorem mem_recent_overtaken :
    signedBy "MAYCAQECAQE=" ∈
      SignatureCheck.recent 2 (Verifier.cachedChecks ⟨[], true⟩ 2 overtaken) := by
  rw [checks_overtaken]
  simp [SignatureCheck.recent, List.eraseDups_cons, signedBy_inj]

/-- The first token is not remembered: two verdicts were put in after its own. -/
theorem not_remembers_overtaken :
    ¬(Verifier.cachedAfter ⟨[], true⟩ 2 overtaken).Remembers (signedBy "MAYCAQECAQE=") := by
  obtain ⟨hne₁₂, hne₁₃, -⟩ := verdictKey_signedBy_ne
  rw [(Verifier.holds_cachedAfter _ _ _).remembers_iff, checks_overtaken]
  simpa [SignatureCheck.keysPutIn, SignatureCheck.putIn] using ⟨hne₁₃, hne₁₂⟩

/-- A recent token that is forgotten had last been answered from memory. -/
theorem last_check_of_forgotten :
    (checkOf "MAYCAQECAQE=").staged? = some (signedBy "MAYCAQECAQE=") ∧
      signedBy "MAYCAQECAQE=" ∈
        SignatureCheck.recent 2 (Verifier.cachedChecks ⟨[], true⟩ 2 overtaken) ∧
      ¬(Verifier.cachedAfter ⟨[], true⟩ 2 overtaken).Remembers (signedBy "MAYCAQECAQE=") ∧
      (Verifier.cachedChecks ⟨[], true⟩ 2 overtaken).find?
          (fun c => c.token = signedBy "MAYCAQECAQE=") =
        some ⟨signedBy "MAYCAQECAQE=", true⟩ := by
  have hstaged := staged_checkOf "MAYCAQECAQE="
  exact ⟨hstaged, mem_recent_overtaken, not_remembers_overtaken,
    ((Verifier.remembers_put_in_last ⟨[], true⟩ 2 overtaken).2 _ _ _ hstaged).2.2
      mem_recent_overtaken not_remembers_overtaken⟩

/-- **Not every recent token is remembered.** -/
theorem not_forall_recent_remembered :
    ¬∀ (registry : TokenRegistry) (n : Nat) (calls : List VerifierCall), 1 ≤ n →
      (∃ c, (Verifier.cachedAfter registry n calls).cache = some c ∧ c.size ≤ n) ∧
        ∀ bundle t pinned r, (VerifierCall.verify bundle (some t) pinned).staged? = some t →
          t ∈ SignatureCheck.recent n (Verifier.cachedChecks registry n calls) →
          ((Verifier.cachedAfter registry n calls).verify bundle (some t) pinned).1 = .ok r →
            r.cacheHit = true := by
  intro h
  have hstaged := staged_checkOf "MAYCAQECAQE="
  obtain ⟨r, hr⟩ := Verifier.exists_answer
    (v := Verifier.cachedAfter ⟨[], true⟩ 2 overtaken) hstaged (exists_verdict _ (by decide +kernel))
    (by rw [Verifier.cachedAfter, Verifier.after_registry])
  have hhit := (h ⟨[], true⟩ 2 overtaken (by decide)).2 _ _ _ r hstaged mem_recent_overtaken hr
  exact not_remembers_overtaken ((Verifier.cacheHit_iff hstaged hr).1 hhit)

end Sample

end ProvenanceTrail
