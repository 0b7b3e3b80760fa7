import Mathlib.Data.List.TakeWhile
import ProvenanceTrail.Json.Printer
import ProvenanceTrail.Json.Token
import ProvenanceTrail.Proofs.Text.Letters

/-!
# Lexemes are read as they were written

A text that was put together from lexemes without anything between them is cut into these lexemes again
(`Written.scan_eq`). A quoted text ends by itself, because a quote inside it is escaped. Digits do not: a
number is read back only in front of something that it cannot go on with (`JsonNumber.Ends`), and this is
what follows a number in JSON. Reals are left out, since what is read of them is rounded.

The same two facts, taken for themselves, say that quoted texts and integers are told apart by their text
whatever follows (`quote_append_inj`, `ofInt_render_append_inj`); the latter holds of integers of any size.

In the other direction, a text holds no numbers but those that the format has (`inRange_of_mem_scan`).
-/

namespace ProvenanceTrail

namespace JsonNumber

/-- An integer that 64 bits hold: without a sign below 2^64, with one down to -2^63. -/
def IsInteger : JsonNumber → Prop
  | .natural n => n < Nat.pow 2 64
  | .negative n => 0 < n ∧ n ≤ Nat.pow 2 63
  | .real _ => False

/-- A number that the reader can give. -/
def InRange : JsonNumber → Prop
  | .real _ => True
  | n => n.IsInteger

/-- Nothing that a number in front of the text would go on with. -/
def Ends : List Char → Prop
  | [] => True
  | c :: _ => c.isDigit = false ∧ c ≠ '.' ∧ c ≠ 'e' ∧ c ≠ 'E'

variable {cs r r' : List Char} {m n : Nat}

/-! ## Numbers -/

/-- A decimal numeral consists of digits. -/
theorem isDigit_of_mem_toDigits {c : Char} (hc : c ∈ Nat.toDigits 10 n) : c.isDigit = true :=
  Nat.isDigit_of_mem_toDigits (by decide) (by decide) hc

/-- The digits at the front of a numeral before a non-digit are the numeral. -/
theorem takeWhile_toDigits_append (hr : ∀ c ∈ r.head?, c.isDigit = false) :
    (Nat.toDigits 10 n ++ r).takeWhile Char.isDigit = Nat.toDigits 10 n := by
  rw [List.takeWhile_append_of_pos fun c hc => isDigit_of_mem_toDigits hc]
  cases r with
  | nil => simp
  | cons c r => simp [hr c rfl]

/-- Past the digits of a numeral stands what follows it. -/
theorem dropWhile_toDigits_append (hr : ∀ c ∈ r.head?, c.isDigit = false) :
    (Nat.toDigits 10 n ++ r).dropWhile Char.isDigit = r := by
  rw [List.dropWhile_append_of_pos fun c hc => isDigit_of_mem_toDigits hc]
  cases r with
  | nil => simp
  | cons c r => simp [hr c rfl]

/-- Different numbers have different numerals. -/
theorem toDigits_inj (h : Nat.toDigits 10 m = Nat.toDigits 10 n) : m = n := by
  rw [← Nat.ofDigitChars_ten_toDigits (n := m), h, Nat.ofDigitChars_ten_toDigits]

/-- A number is written without a zero in front. -/
theorem head?_toDigits_ne_zero (hn : 0 < n) : (Nat.toDigits 10 n).head? ≠ some '0' := by
  induction n using Nat.strongRecOn with
  | ind n ih =>
    rcases Nat.lt_or_ge n 10 with hlt | hge
    · rw [Nat.toDigits_of_lt_base hlt]
      simpa using Nat.pos_iff_ne_zero.1 hn
    · rw [Nat.toDigits_of_base_le (by decide) hge, List.head?_append,
        Option.or_of_isSome (by simp [Nat.toDigits_ne_nil])]
      exact ih (n / 10) (by omega) (by omega)

/-- Digits whose value stays below the limit are all taken. -/
theorem collect_eq (s k : Nat) (h : Nat.ofDigitChars 10 cs s < significandLimit) :
    collect s k cs = (Nat.ofDigitChars 10 cs s, k + cs.length) := by
  induction cs generalizing s k with
  | nil => simp [collect]
  | cons c cs ih =>
    rw [Nat.ofDigitChars_cons] at h ⊢
    have hnext : 10 * s + (c.toNat - '0'.toNat) < significandLimit := by
      refine lt_of_le_of_lt ?_ h
      rw [Nat.ofDigitChars_eq_ofDigitChars_zero]
      exact le_trans (Nat.le_mul_of_pos_left _ (Nat.pow_pos (by decide))) (Nat.le_add_right _ _)
    rw [collect]
    simp only [Number.digitValue, hnext, if_true]
    rw [ih _ _ h, List.length_cons, Nat.add_assoc, Nat.add_comm 1]

/-- The digits of a significand that fits are collected to it, each of them counted. -/
theorem collect_toDigits (h : n < significandLimit) :
    collect 0 0 (Nat.toDigits 10 n) = (n, (Nat.toDigits 10 n).length) := by
  rw [collect_eq _ _ (by rwa [Nat.ofDigitChars_ten_toDigits]), Nat.ofDigitChars_ten_toDigits,
    Nat.zero_add]

/-- The numeral of a natural number stands for that number. -/
theorem ofLexeme?_natural (hn : (natural n).IsInteger) :
    ofLexeme? false (Nat.toDigits 10 n) none none = some (.natural n) := by
  rw [ofLexeme?, collect_toDigits hn]
  simp

/-- The numeral of a negative number stands for that number. -/
theorem ofLexeme?_negative (hn : (negative n).IsInteger) :
    ofLexeme? true (Nat.toDigits 10 n) none none = some (.negative n) := by
  obtain ⟨hpos, hle⟩ := hn
  have hlt : Nat.pow 2 63 < significandLimit := by decide
  rw [ofLexeme?, collect_toDigits (lt_of_le_of_lt hle hlt)]
  simp [Nat.pos_iff_ne_zero.1 hpos, hle]

/-- What ends a number starts with no digit. -/
theorem Ends.isDigit_head? (h : Ends r) : ∀ c ∈ r.head?, c.isDigit = false := by
  cases r with
  | nil => simp
  | cons c r => intro d hd; cases hd; exact h.1

/-- What ends a number holds no fraction. -/
theorem splitFraction?_of_ends (h : Ends r) : splitFraction? r = some (none, r) := by
  cases r with
  | nil => rfl
  | cons c r => obtain ⟨-, hc, -⟩ := h; simp [splitFraction?, hc]

/-- What ends a number holds no exponent. -/
theorem splitExponent?_of_ends (h : Ends r) : splitExponent? r = some (none, r) := by
  cases r with
  | nil => rfl
  | cons c r => obtain ⟨-, -, he, hE⟩ := h; simp [splitExponent?, he, hE]

/-- What is written has the form that the reader demands of a whole part. -/
theorem toDigits_is_whole (n : Nat) : ((Nat.toDigits 10 n).isEmpty ||
    ((Nat.toDigits 10 n).head? == some '0' && (Nat.toDigits 10 n).length != 1)) = false := by
  rcases Nat.eq_zero_or_pos n with rfl | hn
  · decide
  · simp [Nat.toDigits_ne_nil, head?_toDigits_ne_zero hn]

/-- Digits are not taken for a sign. -/
theorem toDigits_append_ne_minus : Nat.toDigits 10 n ++ r ≠ '-' :: cs := by
  obtain ⟨c, ds, hds⟩ := List.exists_cons_of_ne_nil (Nat.toDigits_ne_nil (n := n) (b := 10))
  have hc : c.isDigit = true := isDigit_of_mem_toDigits (hds ▸ List.mem_cons_self)
  rw [hds, List.cons_append]
  rintro ⟨rfl, -⟩
  exact absurd hc (by decide)

/-- An integer is written with digits and a minus sign. -/
theorem mem_render {n : JsonNumber} (hn : n.IsInteger) {c : Char} (hc : c ∈ n.render) :
    c = '-' ∨ c.isDigit = true := by
  cases n with
  | natural n => exact .inr (isDigit_of_mem_toDigits hc)
  | negative n => exact (List.mem_cons.1 hc).imp_right isDigit_of_mem_toDigits
  | real x => exact hn.elim

/-- An integer is written with at least one character. -/
theorem render_ne_nil {n : JsonNumber} (hn : n.IsInteger) : n.render ≠ [] := by
  cases n with
  | natural n => exact Nat.toDigits_ne_nil
  | negative n => exact List.cons_ne_nil _ _
  | real x => exact hn.elim

/-- An integer is read as it was written, up to the first character that does not belong to it. -/
theorem read?_render {n : JsonNumber} (hn : n.IsInteger) (hr : Ends r) :
    read? (n.render ++ r) = some (n, r) := by
  have htake := fun n => takeWhile_toDigits_append (n := n) hr.isDigit_head?
  have hdrop := fun n => dropWhile_toDigits_append (n := n) hr.isDigit_head?
  cases n with
  | natural n =>
    have hne : ∀ cs, Nat.toDigits 10 n ++ r = '-' :: cs → False := fun _ =>
      toDigits_append_ne_minus
    simp [render, read?, split?, Parts.value?, htake, hdrop, toDigits_is_whole, splitFraction?_of_ends hr,
      splitExponent?_of_ends hr, ofLexeme?_natural hn]
  | negative n =>
    simp [render, read?, split?, Parts.value?, htake, hdrop, toDigits_is_whole, splitFraction?_of_ends hr,
      splitExponent?_of_ends hr, ofLexeme?_negative hn]
  | real x => exact hn.elim

/-- A numeral before a non-digit determines its number and what follows. -/
theorem toDigits_append_inj (hr : ∀ c ∈ r.head?, c.isDigit = false)
    (hr' : ∀ c ∈ r'.head?, c.isDigit = false)
    (h : Nat.toDigits 10 m ++ r = Nat.toDigits 10 n ++ r') : m = n ∧ r = r' := by
  have htake := congrArg (List.takeWhile Char.isDigit) h
  have hdrop := congrArg (List.dropWhile Char.isDigit) h
  rw [takeWhile_toDigits_append hr, takeWhile_toDigits_append hr'] at htake
  rw [dropWhile_toDigits_append hr, dropWhile_toDigits_append hr'] at hdrop
  exact ⟨toDigits_inj htake, hdrop⟩

/-! The numbers that the reader gives are in range. -/

/-- Collected digits keep the significand below its limit. -/
theorem collect_lt (s k : Nat) (hs : s < significandLimit) :
    (collect s k cs).1 < significandLimit := by
  induction cs generalizing s k with
  | nil => exact hs
  | cons c cs ih =>
    unfold collect
    simp only
    split
    case isTrue h => exact ih _ _ h
    case isFalse => exact hs

/-- The number made of a sign, a significand and a power is in range. -/
theorem ofParts?_inRange {minus : Bool} {significand : Nat} {power : Int} {n : JsonNumber}
    (h : ofParts? minus significand power = some n) : n.InRange := by
  unfold ofParts? at h
  split at h
  · cases h
  · obtain ⟨y, -, rfl⟩ := Option.map_eq_some_iff.1 h
    trivial

/-- A numeral stands for a number in range. -/
theorem ofLexeme?_inRange {minus : Bool} {whole : List Char} {fraction : Option (List Char)}
    {exponent : Option (Bool × List Char)} {n : JsonNumber}
    (h : ofLexeme? minus whole fraction exponent = some n) : n.InRange := by
  have hlimit : (collect 0 0 whole).1 < significandLimit := collect_lt 0 0 (by decide)
  unfold ofLexeme? at h
  simp only at h
  split at h
  · split_ifs at h with _ _ hzero hle
    · cases h; exact hlimit
    · cases h; trivial
    · cases h; exact ⟨Nat.pos_of_ne_zero hzero, hle⟩
    · exact ofParts?_inRange h
    · exact ofParts?_inRange h
  · split at h
    · exact ofParts?_inRange h
    · split_ifs at h
      · cases h; trivial
      · exact ofParts?_inRange h
      · exact ofParts?_inRange h

/-- A number that is read is in range. -/
theorem read?_inRange {n : JsonNumber} (h : read? cs = some (n, r)) : n.InRange := by
  obtain ⟨_, -, h⟩ := Option.bind_eq_some_iff.1 h
  obtain ⟨_, hn, h⟩ := Option.bind_eq_some_iff.1 h
  cases h
  exact ofLexeme?_inRange hn

end JsonNumber

namespace Json

open Lexeme JsonNumber

variable {cs r r' : List Char}

/-! ## Quoted texts and integers in front of others -/

/-- A character that was escaped is read as itself. -/
theorem readQuoted?_escape (c : Char) (r : List Char) :
    readQuoted? (escape c ++ r) = (readQuoted? r).map fun p => (c :: p.1, p.2) := by
  unfold escape
  split_ifs with _ hback _ _ _ _ _ hc
  -- the characters with a short form
  iterate 7 (· subst c; simp [readQuoted?, shortEscape?])
  · have hzero : Text.hexValue? '0' = some 0 := by decide
    have hhigh := Text.hexValue?_hexDigit (show 'a' ∈ ['a', 'A'] by simp) (n := c.toNat / 16) (by omega)
    have hlow := Text.hexValue?_hexDigit (show 'a' ∈ ['a', 'A'] by simp) (n := c.toNat % 16) (by omega)
    have hhex : hex4? '0' '0' (Text.hexDigit 'a' (c.toNat / 16)) (Text.hexDigit 'a' (c.toNat % 16)) =
        some c.toNat := by
      simp only [hex4?, hzero, hhigh, hlow, Option.bind_eq_bind, Option.bind_some, Option.pure_def]
      congr 1
      omega
    have hlt : c.toNat < 0xD800 := by omega
    simp [readQuoted?, hhex, hlt]
  · rw [List.singleton_append, readQuoted?]
    · simp [hback, hc]
    all_goals simp_all

/-- Escaped characters up to the closing quote are read back as themselves. -/
theorem readQuoted?_flatMap_escape (cs r : List Char) :
    readQuoted? (cs.flatMap escape ++ '"' :: r) = some (cs, r) := by
  induction cs with
  | nil => simp [readQuoted?]
  | cons c cs ih => rw [List.flatMap_cons, List.append_assoc, readQuoted?_escape, ih]; rfl

/-- A quoted text is its escaped characters between quotes. -/
theorem quote_append (s : String) (r : List Char) :
    quote s ++ r = '"' :: (s.toList.flatMap escape ++ '"' :: r) := by
  simp [quote]

/-- Where a quoted text ends is seen from the text itself. -/
theorem quote_append_inj {s s' : String} : quote s ++ r = quote s' ++ r' ↔ s = s' ∧ r = r' := by
  refine ⟨fun h => ?_, by rintro ⟨rfl, rfl⟩; rfl⟩
  rw [quote_append, quote_append, List.cons_inj_right] at h
  have hread := congrArg readQuoted? h
  rwa [readQuoted?_flatMap_escape, readQuoted?_flatMap_escape, Option.some_inj, Prod.mk.injEq,
    String.toList_inj] at hread

/-- Where an integer ends is seen from the first character that is not a digit. -/
theorem ofInt_render_append_inj {i j : Int} {c c' : Char} (hc : c.isDigit = false)
    (hc' : c'.isDigit = false) :
    (ofInt i).render ++ c :: r = (ofInt j).render ++ c' :: r' ↔ i = j ∧ c :: r = c' :: r' := by
  refine ⟨fun h => ?_, by rintro ⟨rfl, h⟩; rw [h]⟩
  have hr : ∀ d ∈ (c :: r).head?, d.isDigit = false := by simpa using hc
  have hr' : ∀ d ∈ (c' :: r').head?, d.isDigit = false := by simpa using hc'
  cases i with
  | ofNat m =>
    cases j with
    | ofNat n =>
      obtain ⟨rfl, hrr⟩ := toDigits_append_inj hr hr' h
      exact ⟨rfl, hrr⟩
    | negSucc n => exact absurd h toDigits_append_ne_minus
  | negSucc m =>
    cases j with
    | ofNat n => exact absurd h.symm toDigits_append_ne_minus
    | negSucc n =>
      obtain ⟨hmn, hrr⟩ := toDigits_append_inj hr hr' (List.cons_inj_right _ |>.1 h)
      rw [Nat.succ_inj.1 hmn]
      exact ⟨rfl, hrr⟩

/-! ## Lexemes -/

namespace Lexeme

/-- The text of a lexeme. -/
def text : Lexeme → List Char
  | .openBrace => ['{']
  | .closeBrace => ['}']
  | .openBracket => ['[']
  | .closeBracket => [']']
  | .colon => [':']
  | .comma => [',']
  | .null => ['n', 'u', 'l', 'l']
  | .bool true => ['t', 'r', 'u', 'e']
  | .bool false => ['f', 'a', 'l', 's', 'e']
  | .number n => n.render
  | .string s => quote s
  | .skippable | .fault => []

/-- What a lexeme needs to be read back in front of a text: a number is an integer and does not go on. -/
def Readable (r : List Char) : Lexeme → Prop
  | .number n => n.IsInteger ∧ Ends r
  | .skippable | .fault => False
  | _ => True

/-- The text of lexemes that stand side by side, each where it is read back. -/
inductive Written : List Lexeme → List Char → Prop
  | nil : Written [] []
  | cons {l : Lexeme} {ls : List Lexeme} {r : List Char} (hl : l.Readable r) (h : Written ls r) :
    Written (l :: ls) (l.text ++ r)

variable {l : Lexeme} {ls : List Lexeme}

/-- A lexeme is written with at least one character. -/
theorem text_ne_nil (hl : l.Readable r) : l.text ≠ [] := by
  cases l with
  | bool b => cases b <;> simp [text]
  | number n => exact render_ne_nil hl.1
  | string s => simp [text, quote]
  | skippable | fault => exact hl.elim
  | _ => simp [text]

/-- The text of a lexeme is read back as that lexeme, with what follows left over. -/
theorem first?_text (hl : l.Readable r) : first? (l.text ++ r) = some (l, r) := by
  cases l with
  | bool b => cases b <;> rfl
  | number n =>
    obtain ⟨hn, hr⟩ := hl
    have hread := read?_render hn hr
    obtain ⟨c, cs, hcs⟩ := List.exists_cons_of_ne_nil (render_ne_nil hn)
    have hc := mem_render hn (hcs ▸ List.mem_cons_self)
    rw [hcs, List.cons_append] at hread
    rw [text, hcs, List.cons_append]
    simp only [first?]
    split
    case h_11 => rw [numeral?, hread]
    -- no other lexeme starts like a number
    all_goals exact absurd hc (by decide)
  | string s =>
    rw [text, quote_append, first?, quoted?, readQuoted?_flatMap_escape]
    simp
  | skippable | fault => exact hl.elim
  | _ => rfl

/-- No lexeme starts with white space. -/
theorem isSpace_eq_false_of_first? {c : Char} {p : Lexeme × List Char}
    (h : first? (c :: cs) = some p) : isSpace c = false := by
  by_contra hc
  simp only [isSpace, Bool.not_eq_false, Bool.or_eq_true, beq_iff_eq] at hc
  rcases hc with ((rfl | rfl) | rfl) | rfl <;>
    simp [first?, numeral?, JsonNumber.read?, JsonNumber.split?] at h

namespace Written

/-- A text written as lexemes is scanned as these, given enough fuel. -/
theorem scanUpTo_eq (h : Written ls cs) : ∀ fuel, cs.length < fuel → scanUpTo fuel cs = ls := by
  induction h with
  | nil => intro fuel hfuel; obtain ⟨fuel, rfl⟩ := Nat.exists_eq_add_of_lt hfuel; rfl
  | @cons l ls r hl h ih =>
    intro fuel hfuel
    obtain ⟨c, cs, hc⟩ := List.exists_cons_of_ne_nil (text_ne_nil hl)
    have hfirst := first?_text hl
    rw [hc, List.cons_append] at hfirst hfuel ⊢
    obtain _ | fuel := fuel
    · exact absurd hfuel (Nat.not_lt_zero _)
    · have hlt : r.length < fuel := by
        simp only [List.length_cons, List.length_append] at hfuel
        omega
      simp [scanUpTo, isSpace_eq_false_of_first? hfirst, hfirst, ih fuel hlt]

/-- The lexemes of a text that was written from lexemes. -/
theorem scan_eq (h : Written ls cs) : scan cs = ls :=
  h.scanUpTo_eq _ (Nat.lt_succ_self _)

end Written

/-- The characters of a text that stand outside quoted texts; whether the text starts inside one is
given. -/
def outer : Bool → List Char → List Char
  | _, [] => []
  | true, '\\' :: _ :: cs => outer true cs
  | true, c :: cs => if c = '"' then outer false cs else outer true cs
  | false, c :: cs => if c = '"' then outer true cs else c :: outer false cs

/-- A hexadecimal digit is neither a quote nor a backslash. -/
theorem hexDigit_ne {n : Nat} (h : n < 16) :
    Text.hexDigit 'a' n ≠ '"' ∧ Text.hexDigit 'a' n ≠ '\\' := by
  have all : ∀ n : Fin 16, Text.hexDigit 'a' n.1 ≠ '"' ∧ Text.hexDigit 'a' n.1 ≠ '\\' := by decide
  exact all ⟨n, h⟩

/-- An escaped character leaves the text inside its string. -/
theorem outer_escape_append (c : Char) (r : List Char) :
    outer true (escape c ++ r) = outer true r := by
  unfold escape
  split_ifs with hquote hback
  -- the characters with a short form
  iterate 7 (· simp [outer])
  · have hhigh := hexDigit_ne (n := c.toNat / 16) (by omega)
    have hlow := hexDigit_ne (n := c.toNat % 16) (by omega)
    simp [outer, hhigh, hlow]
  · simp [outer, hquote, hback]

/-- Nothing of a quoted text lies outside strings. -/
theorem outer_quote_append (s : String) (r : List Char) :
    outer false (quote s ++ r) = outer false r := by
  rw [quote_append, outer, if_pos rfl]
  induction s.toList with
  | nil => simp [outer]
  | cons c cs ih => rw [List.flatMap_cons, List.append_assoc, outer_escape_append, ih]

/-- Characters without a quote among them stay outside strings. -/
theorem outer_append_of_notMem (h : '"' ∉ cs) : outer false (cs ++ r) = cs ++ outer false r := by
  induction cs with
  | nil => rfl
  | cons c cs ih =>
    obtain ⟨hc, hcs⟩ := List.mem_cons.not.1 h |> not_or.1
    rw [List.cons_append, outer, if_neg (Ne.symm hc), ih hcs, List.cons_append]

/-- Lexemes that stand side by side have no white space between them. -/
theorem Written.isSpace_outer (h : Written ls cs) : ∀ c ∈ outer false cs, isSpace c = false := by
  induction h with
  | nil => simp [outer]
  | @cons l ls r hl h ih =>
    cases l with
    | string s => rwa [text, outer_quote_append]
    | number n =>
      have hquote : '"' ∉ n.render := fun hc => absurd (mem_render hl.1 hc) (by decide)
      rw [text, outer_append_of_notMem hquote]
      intro c hc
      rcases List.mem_append.1 hc with hc | hc
      · rcases mem_render hl.1 hc with rfl | hd
        · decide
        · by_contra hspace
          simp only [isSpace, Bool.not_eq_false, Bool.or_eq_true, beq_iff_eq] at hspace
          rcases hspace with ((rfl | rfl) | rfl) | rfl <;> exact absurd hd (by decide)
      · exact ih c hc
    | bool b => cases b <;> simpa [text, outer, isSpace] using ih
    | skippable | fault => exact hl.elim
    | _ => simpa [text, outer, isSpace] using ih

/-- A number at the front of a text is in range. -/
theorem first?_inRange {n : JsonNumber} (h : first? cs = some (.number n, r)) : n.InRange := by
  cases cs with
  | nil => cases h
  | cons c cs =>
    simp only [first?] at h
    split at h
    case h_10 =>
      unfold quoted? at h
      split at h <;> simp at h
    case h_11 =>
      unfold numeral? at h
      split at h
      · rename_i r hr
        obtain ⟨hn, -⟩ := Prod.mk.inj (Option.some_inj.1 h)
        exact Lexeme.number.inj hn ▸ read?_inRange hr
      · simp at h
    all_goals simp at h

/-- Every number scanned from a text is in range. -/
theorem inRange_of_mem_scan {n : JsonNumber} (h : .number n ∈ scan cs) : n.InRange := by
  have upTo : ∀ fuel cs, .number n ∈ scanUpTo fuel cs → n.InRange := by
    intro fuel
    induction fuel with
    | zero => exact fun cs h => absurd h List.not_mem_nil
    | succ fuel ih =>
      intro cs h
      unfold scanUpTo at h
      split at h
      · exact absurd h List.not_mem_nil
      · split at h
        case h_1 => exact absurd h (by simp)
        case h_2 l rest hfirst =>
          rcases List.mem_cons.1 h with rfl | h
          · exact first?_inRange hfirst
          · exact ih _ h
  exact upTo _ _ h

end Lexeme

end Json

end ProvenanceTrail
