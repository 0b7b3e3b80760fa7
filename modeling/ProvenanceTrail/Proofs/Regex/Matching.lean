import Mathlib.Data.Nat.Bitwise
import Mathlib.Logic.Function.Iterate
import ProvenanceTrail.Regex.Match

/-!
# What a regular expression matches

An expression says which parts of a text match it: it relates the positions in front of them to the
positions behind them (`Regex.Spans`). The matcher does not look at parts one by one. It maps a whole set of
positions to the positions at which a match that starts in the set may end, and it follows the relation in
this (`Positions.Follows`, `Regex.follows_mark`).

A repetition without a greatest count is cut off after as many more turns as the text has positions. That
loses nothing: a turn either stays where it is, and can be left out, or goes on within the text
(`Regex.Spans.onward`).
-/

namespace ProvenanceTrail

namespace Positions

/-! ## Relations between positions -/

/-- So many steps of a relation, one after the other. -/
def Repeats (r : Nat → Nat → Prop) : Nat → Nat → Nat → Prop
  | 0, i, j => i = j
  | n + 1, i, j => ∃ k, r i k ∧ Repeats r n k j

/-- Each step stays where it is or goes on, no further than the size. -/
def Onward (size : Nat) (r : Nat → Nat → Prop) : Prop := ∀ i j, r i j → i = j ∨ i < j ∧ j ≤ size

namespace Repeats

variable {r : Nat → Nat → Prop} {i j : Nat}

/-- Repeating `n + m` times is repeating `n` times to some place and `m` times from there. -/
theorem add_iff {n m : Nat} : Repeats r (n + m) i j ↔ ∃ k, Repeats r n i k ∧ Repeats r m k j := by
  induction n generalizing i with
  | zero => simp [Repeats]
  | succ n ih =>
    rw [Nat.add_right_comm]
    simp only [Repeats, ih]
    constructor
    · rintro ⟨l, hl, k, hk, hj⟩
      exact ⟨k, ⟨l, hl, hk⟩, hj⟩
    · rintro ⟨k, ⟨l, hl, hk⟩, hj⟩
      exact ⟨l, hl, k, hk, hj⟩

/-- What leads onward within the input leads onward however often it is repeated. -/
theorem onward {size n : Nat} (hr : Onward size r) : Onward size (Repeats r n) := by
  induction n with
  | zero => exact fun _ _ h => .inl h
  | succ n ih =>
    rintro i j ⟨k, hfirst, hrest⟩
    have h₁ := hr i k hfirst
    have h₂ := ih k j hrest
    omega

/-- Steps that stay where they are can be left out, so that there are no more steps than positions between
the ends. -/
theorem exists_le_sub {size n : Nat} (hr : Onward size r) (h : Repeats r n i j) :
    ∃ m ≤ j - i, Repeats r m i j := by
  induction n generalizing i with
  | zero => exact ⟨0, Nat.zero_le _, h⟩
  | succ n ih =>
    obtain ⟨k, hfirst, hrest⟩ := h
    obtain ⟨m, hm, hshort⟩ := ih hrest
    rcases hr i k hfirst with rfl | ⟨hlt, -⟩
    · exact ⟨m, hm, hshort⟩
    · have hon := Repeats.onward hr k j hrest
      exact ⟨m + 1, by omega, k, hfirst, hshort⟩

/-- Whatever is reached by repeating is reached with at most as many repetitions as the input has places. -/
theorem exists_le_size {size n : Nat} (hr : Onward size r) (h : Repeats r n i j) :
    ∃ m ≤ size, Repeats r m i j := by
  obtain ⟨m, hm, hshort⟩ := exists_le_sub hr h
  have hon := Repeats.onward hr i j h
  exact ⟨m, by omega, hshort⟩

end Repeats

/-! ## Sets of positions -/

/-- A place is among those with `p` just if it lies within the size and has `p`. -/
theorem testBit_thoseWith {size : Nat} {p : Nat → Bool} {i : Nat} :
    (thoseWith size p).testBit i = (decide (i < size) && p i) := by
  unfold thoseWith
  induction size with
  | zero => simp
  | succ size ih =>
    rw [Nat.fold_succ]
    by_cases hlast : i = size
    · subst hlast
      cases hp : p i <;> simp [hp, ih]
    · have hlt : i < size + 1 ↔ i < size := by omega
      cases hp : p size
      · simpa only [hp, Bool.false_eq_true, if_false, hlt] using ih
      · rw [if_pos rfl, Nat.testBit_or, ih, Nat.one_shiftLeft, Nat.testBit_two_pow]
        simp [hlt, Ne.symm hlast]

/-- A map of sets follows a relation: it gives the positions to which the relation leads from the set. -/
def Follows (f : Positions → Positions) (r : Nat → Nat → Prop) : Prop :=
  ∀ ps j, (f ps).testBit j ↔ ∃ i, ps.testBit i ∧ r i j

namespace Follows

variable {f g : Positions → Positions} {r s : Nat → Nat → Prop}

/-- A transformer that follows a relation follows every relation with the same pairs. -/
theorem congr (hf : Follows f r) (h : ∀ i j, r i j ↔ s i j) : Follows f s := by
  intro ps j
  simp only [hf ps j, h]

/-- Leaving the places as they are follows equality. -/
theorem id : Follows (fun ps => ps) Eq := by simp [Follows]

/-- Transformers one after the other follow the composition of their relations. -/
theorem comp (hf : Follows f r) (hg : Follows g s) :
    Follows (fun ps => g (f ps)) fun i j => ∃ k, r i k ∧ s k j := by
  intro ps j
  rw [hg]
  constructor
  · rintro ⟨k, hk, hj⟩
    obtain ⟨i, hi, hik⟩ := (hf ps k).1 hk
    exact ⟨i, hi, k, hik, hj⟩
  · rintro ⟨i, hi, k, hik, hj⟩
    exact ⟨k, (hf ps k).2 ⟨i, hi, hik⟩, hj⟩

/-- The union of two transformers follows either relation. -/
theorem union (hf : Follows f r) (hg : Follows g s) :
    Follows (fun ps => f ps ||| g ps) fun i j => r i j ∨ s i j := by
  intro ps j
  simp only [Nat.testBit_or, Bool.or_eq_true, hf ps j, hg ps j, and_or_left, exists_or]

/-- Keeping the positions of a set. -/
theorem inter (places : Positions) :
    Follows (fun ps => ps &&& places) fun i j => places.testBit i ∧ i = j := by
  intro ps j
  simp [Nat.testBit_and]

/-- Going on by one character from the positions of a set. -/
theorem shift (places : Positions) :
    Follows (fun ps => (ps &&& places) <<< 1) fun i j => places.testBit i ∧ j = i + 1 := by
  intro ps j
  rw [Nat.testBit_shiftLeft, Bool.and_eq_true, Nat.testBit_and, Bool.and_eq_true, decide_eq_true_eq]
  constructor
  · rintro ⟨hj, hps, hplaces⟩
    exact ⟨j - 1, hps, hplaces, by omega⟩
  · rintro ⟨i, hps, hplaces, rfl⟩
    exact ⟨by omega, hps, hplaces⟩

/-- A transformer applied `n` times follows its relation repeated `n` times. -/
theorem iterate (hf : Follows f r) (n : Nat) : Follows f^[n] (Repeats r n) := by
  induction n with
  | zero => exact id
  | succ n ih => exact hf.comp ih

/-- Collecting what is reached in each turn. -/
theorem iterate_union (hf : Follows f r) (n : Nat) :
    Follows (fun ps => ps ||| f ps)^[n] fun i j => ∃ k ≤ n, Repeats r k i j := by
  induction n with
  | zero => exact id.congr fun i j => by simp [Repeats]
  | succ n ih =>
    refine ((id.union hf).comp ih).congr fun i j => ⟨?_, ?_⟩
    · rintro ⟨k, rfl | hfirst, m, hm, hrest⟩
      · exact ⟨m, by omega, hrest⟩
      · exact ⟨m + 1, by omega, k, hfirst, hrest⟩
    · rintro ⟨_ | m, hm, hsteps⟩
      · exact ⟨i, .inl rfl, 0, Nat.zero_le n, hsteps⟩
      · obtain ⟨k, hfirst, hrest⟩ := hsteps
        exact ⟨k, .inr hfirst, m, by omega, hrest⟩

end Follows

end Positions

open Positions (Repeats Onward Follows)

namespace Marked

/-- Stopping early at a set that is mapped to itself changes nothing. -/
theorem iterate_eq (f : Positions → Positions) (n : Nat) : iterate f n = f^[n] := by
  funext ps
  induction n generalizing ps with
  | zero => rfl
  | succ n ih =>
    rw [iterate, Function.iterate_succ_apply]
    split
    · rename_i hfixed
      rw [hfixed, Function.iterate_fixed hfixed]
    · exact ih (f ps)

/-- A repetition follows the turns that its counts allow. Where there is no greatest count, as many more
turns as there are positions suffice. -/
theorem follows_repeated {f : Positions → Positions} {r : Nat → Nat → Prop} {size : Nat}
    (hf : Follows f r) (hr : Onward size r) (least : Nat) (most : Option Nat) :
    Follows
      (fun ps => upTo f (match most with | none => size + 1 | some most => most - least)
        (iterate f least ps))
      fun i j => ∃ n, least ≤ n ∧ (∀ m, most = some m → n ≤ max least m) ∧ Repeats r n i j := by
  simp only [upTo, iterate_eq]
  refine ((hf.iterate least).comp (hf.iterate_union _)).congr fun i j => ⟨?_, ?_⟩
  · rintro ⟨k, hleast, more, hmore, hrest⟩
    refine ⟨least + more, Nat.le_add_right _ _, ?_, Repeats.add_iff.2 ⟨k, hleast, hrest⟩⟩
    rintro m rfl
    simp only at hmore
    omega
  · rintro ⟨n, hn, hmost, hsteps⟩
    obtain ⟨more, rfl⟩ := Nat.exists_eq_add_of_le hn
    obtain ⟨k, hleast, hrest⟩ := Repeats.add_iff.1 hsteps
    cases most with
    | none =>
      obtain ⟨fewer, hfewer, hshort⟩ := hrest.exists_le_size hr
      exact ⟨k, hleast, fewer, Nat.le_succ_of_le hfewer, hshort⟩
    | some m =>
      have hm := hmost m rfl
      exact ⟨k, hleast, more, by simp only; omega, hrest⟩

end Marked

/-! ## Parts of a text that match -/

namespace Regex

mutual
/-- The part of a text between two positions matches an expression. -/
def Spans (text : Array Char) : Regex → Nat → Nat → Prop
  | .empty, i, j => i = j
  | .char c, i, j => text[i]? = some c ∧ j = i + 1
  | .set ranges, i, j => (∃ c, text[i]? = some c ∧ ranges.contains c) ∧ j = i + 1
  | .look l, i, j => (i ≤ text.size ∧ l.holds text i) ∧ i = j
  | .repeated least most e, i, j =>
    ∃ n, least ≤ n ∧ (∀ m, most = some m → n ≤ max least m) ∧ Repeats (Spans text e) n i j
  | .group e, i, j => Spans text e i j
  | .sequence es, i, j => SpansInTurn text es i j
  | .alternation es, i, j => SpansOne text es i j
termination_by structural e => e

/-- The part between two positions matches expressions one behind the other. -/
def SpansInTurn (text : Array Char) : List Regex → Nat → Nat → Prop
  | [], i, j => i = j
  | e :: es, i, j => ∃ k, Spans text e i k ∧ SpansInTurn text es k j
termination_by structural es => es

/-- The part between two positions matches one of some expressions. -/
def SpansOne (text : Array Char) : List Regex → Nat → Nat → Prop
  | [], _, _ => False
  | e :: es, i, j => Spans text e i j ∨ SpansOne text es i j
termination_by structural es => es
end

variable {text : Array Char}

mutual
/-- A match ends at its start or behind it, within the text. -/
theorem Spans.onward : ∀ e : Regex, Onward text.size (Spans text e)
  | .empty => fun _ _ h => .inl h
  | .char c => by
    rintro i j ⟨hc, rfl⟩
    have hi := (Array.getElem?_eq_some_iff.1 hc).1
    omega
  | .set ranges => by
    rintro i j ⟨⟨c, hc, -⟩, rfl⟩
    have hi := (Array.getElem?_eq_some_iff.1 hc).1
    omega
  | .look l => fun _ _ h => .inl h.2
  | .repeated least most e => by
    rintro i j ⟨n, -, -, hsteps⟩
    exact Repeats.onward (Spans.onward e) i j hsteps
  | .group e => Spans.onward e
  | .sequence es => SpansInTurn.onward es
  | .alternation es => SpansOne.onward es
termination_by structural e => e

/-- Expressions in turn lead onward within the input. -/
theorem SpansInTurn.onward : ∀ es : List Regex, Onward text.size (SpansInTurn text es)
  | [] => fun _ _ h => .inl h
  | e :: es => by
    rintro i j ⟨k, hfirst, hrest⟩
    have h₁ := Spans.onward e i k hfirst
    have h₂ := SpansInTurn.onward es k j hrest
    omega
termination_by structural es => es

/-- One of several expressions leads onward within the input. -/
theorem SpansOne.onward : ∀ es : List Regex, Onward text.size (SpansOne text es)
  | [] => fun _ _ h => h.elim
  | e :: es => fun i j h => h.elim (Spans.onward e i j) (SpansOne.onward es i j)
termination_by structural es => es
end

mutual
/-- The matcher follows the relation of the expression. -/
theorem follows_mark : ∀ e : Regex, Follows (e.mark text).next (Spans text e)
  | .empty => .id
  | .char c => (Follows.shift _).congr fun i j => by
    have hi : text[i]? = some c → i < text.size := fun h => (Array.getElem?_eq_some_iff.1 h).1
    simp only [Positions.testBit_thoseWith, Bool.and_eq_true, decide_eq_true_eq, beq_iff_eq, Spans]
    tauto
  | .set ranges => (Follows.shift _).congr fun i j => by
    simp only [Positions.testBit_thoseWith, Bool.and_eq_true, decide_eq_true_eq, Spans, Option.any_eq_true]
    refine and_congr_left fun _ => and_iff_right_of_imp ?_
    rintro ⟨c, hc, -⟩
    exact (Array.getElem?_eq_some_iff.1 hc).1
  | .look l => (Follows.inter _).congr fun i j => by
    simp only [Positions.testBit_thoseWith, Bool.and_eq_true, decide_eq_true_eq, Spans, Nat.lt_succ_iff]
  | .repeated least most e => Marked.follows_repeated (follows_mark e) (Spans.onward e) least most
  | .group e => follows_mark e
  | .sequence es => follows_markAll_inTurn es
  | .alternation es => follows_markAll_one es
termination_by structural e => e

/-- The marked expressions, taken in turn, follow the stretches these span in turn. -/
theorem follows_markAll_inTurn :
    ∀ es : List Regex, Follows (Marked.nextOfSequence (markAll text es)) (SpansInTurn text es)
  | [] => .id
  | e :: es => (follows_mark e).comp (follows_markAll_inTurn es)
termination_by structural es => es

/-- The marked expressions, taken as a choice, follow the stretches one of them spans. -/
theorem follows_markAll_one :
    ∀ es : List Regex, Follows (Marked.nextOfChoice (markAll text es)) (SpansOne text es)
  | [] => by simp [Follows, markAll, Marked.nextOfChoice, SpansOne]
  | e :: es => (follows_mark e).union (follows_markAll_one es)
termination_by structural es => es
end

/-- **The matcher is exact.** It finds an expression in a text just if some part of the text matches. -/
theorem occursIn_iff {e : Regex} {text : String} :
    e.occursIn text ↔ ∃ i j, i ≤ text.toList.length ∧ Spans text.toList.toArray e i j := by
  have hnonempty (ps : Positions) : (ps != 0) = true ↔ ∃ j, ps.testBit j := by
    rw [bne_iff_ne]
    refine ⟨Nat.exists_testBit_of_ne_zero, ?_⟩
    rintro ⟨j, hj⟩ rfl
    simp at hj
  have hall (n i : Nat) : Nat.testBit (Nat.pow 2 (n + 1) - 1) i ↔ i ≤ n := by
    rw [Nat.pow_eq, Nat.testBit_two_pow_sub_one, decide_eq_true_eq, Nat.lt_succ_iff]
  rw [occursIn, hnonempty, exists_comm]
  simp only [follows_mark e _ _, hall, List.size_toArray]

/-! ## Sequences and anchors -/

section Sequences

variable {i j : Nat}

/-- Two sequences span in turn what the first spans up to some place and the second from there. -/
theorem spansInTurn_append {es fs : List Regex} :
    SpansInTurn text (es ++ fs) i j ↔ ∃ k, SpansInTurn text es i k ∧ SpansInTurn text fs k j := by
  induction es generalizing i with
  | nil => simp [SpansInTurn]
  | cons e es ih =>
    simp only [List.cons_append, SpansInTurn, ih]
    constructor
    · rintro ⟨l, hl, k, hk, hj⟩
      exact ⟨k, ⟨l, hl, hk⟩, hj⟩
    · rintro ⟨k, ⟨l, hl, hk⟩, hj⟩
      exact ⟨l, hl, k, hk, hj⟩

/-- A sequence of one expression spans what that expression spans. -/
theorem spansInTurn_singleton {e : Regex} : SpansInTurn text [e] i j ↔ Spans text e i j := by
  simp [SpansInTurn]

/-- The form in which a sequence is kept does not matter. -/
theorem spans_ofSequence {es : List Regex} :
    Spans text (ofSequence es) i j ↔ SpansInTurn text es i j := by
  rcases es with _ | ⟨e, _ | ⟨f, es⟩⟩
  · rfl
  · exact spansInTurn_singleton.symm
  · rfl

/-- Characters in turn match a part of the text that consists of them. -/
theorem spansInTurn_chars {cs : List Char} :
    SpansInTurn text (cs.map .char) i j ↔ cs <+: text.toList.drop i ∧ j = i + cs.length := by
  induction cs generalizing i with
  | nil => simp [SpansInTurn, eq_comm]
  | cons c cs ih =>
    have hcons : c :: cs <+: text.toList.drop i ↔
        text[i]? = some c ∧ cs <+: text.toList.drop (i + 1) := by
      by_cases hi : i < text.size
      · rw [List.drop_eq_getElem_cons (by simpa using hi), List.cons_prefix_cons]
        simp [hi, eq_comm]
      · have hend : text.toList.drop i = [] := List.drop_eq_nil_of_le (by simpa using hi)
        simp [hend, hi]
    simp only [List.map_cons, SpansInTurn, Spans, ih, List.length_cons, hcons]
    constructor
    · rintro ⟨k, ⟨hc, rfl⟩, hcs, rfl⟩
      exact ⟨⟨hc, hcs⟩, by omega⟩
    · rintro ⟨⟨hc, hcs⟩, rfl⟩
      exact ⟨i + 1, ⟨hc, rfl⟩, hcs, by omega⟩

/-- Characters in turn match a whole text that consists of them. -/
theorem spansInTurn_chars_whole {cs : List Char} :
    SpansInTurn text (cs.map .char) 0 text.size ↔ text.toList = cs := by
  rw [spansInTurn_chars, List.drop_zero, Nat.zero_add]
  constructor
  · rintro ⟨hfront, hlength⟩
    exact (hfront.eq_of_length (by simpa using hlength.symm)).symm
  · rintro rfl
    exact ⟨List.prefix_refl _, by simp⟩

/-- An expression between the anchors of a text. -/
def whole (e : Regex) : Regex := .sequence [.look .start, e, .look .finish]

/-- Between the anchors stands the whole text. -/
theorem occursIn_whole {e : Regex} {text : String} :
    (whole e).occursIn text ↔ Spans text.toList.toArray e 0 text.toList.length := by
  rw [occursIn_iff]
  simp only [whole, Spans, SpansInTurn, Look.holds, List.size_toArray, beq_iff_eq]
  constructor
  · rintro ⟨i, j, -, k, ⟨⟨-, hstart⟩, rfl⟩, l, hspans, m, ⟨⟨-, hfinish⟩, -⟩, -⟩
    rwa [hstart, hfinish] at hspans
  · intro hspans
    exact ⟨0, _, Nat.zero_le _, 0, ⟨⟨Nat.zero_le _, rfl⟩, rfl⟩, _, hspans, _, ⟨⟨le_refl _, rfl⟩, rfl⟩, rfl⟩

example : (whole (.repeated 1 none (.char 'a'))).occursIn "aaa" = true ∧
    (whole (.repeated 1 none (.char 'a'))).occursIn "aab" = false := by
  decide

end Sequences

end Regex

end ProvenanceTrail
