import Mathlib.Data.List.TakeWhile
import ProvenanceTrail.Proofs.Regex.Readers

/-!
# What the reader of classes looks at

A class is put together from the operations of readers, with two readers in it that are no such readers by
themselves: that of an item, which may be an assertion and then stands for no characters (`Regex.charItem`), and
that of a range, which needs something behind it, if only the bracket that closes the class
(`Regex.classRange?_same`).
-/

namespace ProvenanceTrail.Regex

open Reader

variable {flags : Flags} {size : Nat}

/-! ## Items -/

/-- One item of a class, when it stands for characters. -/
def charItem (flags : Flags) : Reader Regex := fun cs =>
  (classItem? flags cs).filter fun r => (itemRanges? r.1).isSome

/-- An item that stands for characters is an item. -/
theorem classItem?_of_charItem {cs rest : List Char} {e : Regex} (h : charItem flags cs = some (e, rest)) :
    classItem? flags cs = some (e, rest) ∧ (itemRanges? e).isSome := Option.filter_eq_some_iff.1 h

/-- An item takes a character at least, and hands on the end of the text. -/
theorem classItem?_suffix {cs rest : List Char} {e : Regex} (h : classItem? flags cs = some (e, rest)) :
    rest <:+ cs.tail := by
  rw [classItem?.eq_def] at h
  split at h
  · cases h
  · exact (escape?_suffix h).trans (List.tail_suffix _)
  · obtain ⟨-, rfl⟩ := Prod.mk.inj (Option.some.inj h)
    exact List.suffix_refl _

/-- Reading an item that stands for characters is local. -/
theorem charItem_local : Local (charItem flags) := fun _ => {
  suffix := fun h => (classItem?_suffix (classItem?_of_charItem h).1).trans (List.tail_suffix _)
  same := fun {cs more e ds t} _ h ht => by
    obtain ⟨hitem, hranges⟩ := classItem?_of_charItem h
    refine Option.filter_eq_some_iff.2 ⟨?_, hranges⟩
    cases cs with
    | nil => exact absurd (classItem?_suffix hitem) (not_suffix_behind ds ')' more)
    | cons c cs =>
      by_cases hc : c = '\\'
      · subst hc
        have hescape : escape? flags (cs ++ ')' :: more) = some (e, ds ++ ')' :: more) := hitem
        refine (escape?_same hescape ht).resolve_right ?_
        rintro ⟨⟨l, rfl⟩, -⟩
        cases hranges
      · simp only [List.cons_append, classItem?] at hitem ⊢
        obtain ⟨rfl, hrest⟩ := Prod.mk.inj (Option.some.inj hitem)
        rw [List.append_cancel_right hrest] }

/-! ## Ranges -/

/-- Whether the hyphen in front of here is the last character of a class, or the first of two hyphens. -/
def endsAtHyphen (flags : Flags) (cs : List Char) : Bool :=
  afterHyphen? flags cs == some ']' || afterHyphen? flags cs == some '-'

/-- The rest of a range behind its hyphen. -/
def rangeEnd (flags : Flags) (first : Regex) : Reader CharSet := do
  skipping flags
  let second ← charItem flags
  let low ← StateT.lift (itemChar? first)
  let high ← StateT.lift (itemChar? second)
  if high < low then StateT.lift none else pure [(low.toNat, high.toNat)]

/-- What may follow an item of a class. -/
def afterItem (flags : Flags) (first : Regex) : Reader CharSet
  | [] => none
  | c :: cs =>
    if c != '-' || endsAtHyphen flags cs then (itemRanges? first).map fun ranges => (ranges, c :: cs)
    else rangeEnd flags first cs

/-- An item that stands for no characters is no character. -/
theorem itemChar?_eq_none {e : Regex} (h : (itemRanges? e).isSome = false) : itemChar? e = none := by
  cases e <;> first | rfl | cases h

/-- Where an item that stands for no characters leads nowhere, it need not be read. -/
theorem charItem_bind {α : Type} {cs : List Char} {f : Regex × List Char → Option α}
    (hf : ∀ e rest, (itemRanges? e).isSome = false → f (e, rest) = none) :
    (charItem flags cs).bind f = (classItem? flags cs).bind f := by
  rw [charItem]
  cases classItem? flags cs with
  | none => rfl
  | some r =>
    cases hranges : (itemRanges? r.1).isSome with
    | true => simp [Option.filter, hranges]
    | false => simp [Option.filter, hranges, hf r.1 r.2 hranges]

/-- A range ends with an item that is one character, which does not come before the first. -/
theorem rangeEnd_apply (first : Regex) (cs : List Char) :
    rangeEnd flags first cs = (classItem? flags (skip flags cs)).bind fun r =>
      (itemChar? first).bind fun low => (itemChar? r.1).bind fun high =>
        if high < low then none else some ([(low.toNat, high.toNat)], r.2) := by
  rw [rangeEnd, bind_apply, skipping, Option.bind_some, bind_apply]
  simp only [lift_bind_apply, choice_apply]
  refine charItem_bind fun e rest he => ?_
  simp [itemChar?_eq_none he]

/-- An item that stands for no characters leads nowhere. -/
theorem afterItem_eq_none {first : Regex} (h : (itemRanges? first).isSome = false) (cs : List Char) :
    afterItem flags first cs = none := by
  cases cs with
  | nil => rfl
  | cons c cs =>
    rw [afterItem, rangeEnd_apply, itemChar?_eq_none h]
    split
    · simpa using h
    · simp

/-- An item of a class that stands for characters, and what is skipped behind it. -/
def spacedItem (flags : Flags) : Reader Regex := do
  let e ← charItem flags
  skipping flags
  pure e

/-- Reading an item with what is skipped behind it is local. -/
theorem spacedItem_local : Local (spacedItem flags) := fun _ =>
  (charItem_local _).bind fun _ => (skipping_local flags _).bind fun _ => .pure _

/-- An item takes a character at least, with what is skipped behind it too. -/
theorem spacedItem_suffix {cs rest : List Char} {e : Regex} (h : spacedItem flags cs = some (e, rest)) :
    rest <:+ cs.tail := by
  obtain ⟨⟨first, after⟩, hfirst, hskip⟩ := Option.bind_eq_some_iff.1 h
  obtain ⟨-, rfl⟩ := Prod.mk.inj (Option.some.inj hskip)
  exact (skip_suffix flags after).trans (classItem?_suffix (classItem?_of_charItem hfirst).1)

/-- A range is an item and what may follow it. -/
theorem classRange?_eq (cs : List Char) :
    classRange? flags cs = (spacedItem flags cs).bind fun r => afterItem flags r.1 r.2 := by
  have hspaced : spacedItem flags cs = (charItem flags cs).bind fun r => some (r.1, skip flags r.2) := rfl
  rw [hspaced, Option.bind_assoc, charItem_bind fun e rest he => afterItem_eq_none he _, classRange?]
  congr 1
  funext ⟨first, rest⟩
  dsimp only [Option.bind_some]
  cases skip flags rest with
  | nil => rfl
  | cons c rest =>
    rw [afterItem, endsAtHyphen, ← Bool.or_assoc, rangeEnd_apply, Option.map_eq_bind]
    rfl

/-- A character other than the parenthesis comes first whatever closing follows. -/
theorem head?_append_closing {c : Char} (hc : c ≠ ')') (cs : List Char) {t : List Char} (ht : Closing t) :
    (cs ++ t).head? = some c ↔ cs.head? = some c := by
  cases cs with
  | nil => simpa using fun h => hc (ht c h)
  | cons d cs => rfl

/-- A text that does not start with a blank stays as it is. -/
theorem trimStart_head? {c : Char} (hc : Text.isBlank c = false) {cs : List Char} (h : cs.head? = some c) :
    Text.trimStart cs = cs := by
  obtain ⟨rest, rfl⟩ := List.head?_eq_some_iff.1 h
  simp [Text.trimStart, hc]

/-- What comes behind a hyphen does not go by the closing, unless it is the closing. -/
theorem afterHyphen?_append {c : Char} (hparen : c ≠ ')') (hcomment : c ≠ '#') (hblank : Text.isBlank c = false)
    (cs : List Char) {t : List Char} (ht : Closing t) :
    afterHyphen? flags (cs ++ t) = some c ↔ afterHyphen? flags cs = some c := by
  have hhead (cs : List Char) := head?_append_closing hparen cs ht
  cases hskip : flags.skipBlanks with
  | false => simpa [afterHyphen?, hskip] using hhead cs
  | true =>
    simp only [afterHyphen?, hskip, trimStart_append _ ht, Bool.not_true, Bool.false_eq_true, if_false]
    cases htrim : Text.trimStart cs with
    | nil =>
      have hno : cs.head? ≠ some c := fun h => by
        rw [trimStart_head? hblank h] at htrim
        simp [htrim] at h
      cases t with
      | nil => simp
      | cons d t =>
        obtain rfl := ht d rfl
        simpa [hno] using hparen.symm
    | cons d rest =>
      by_cases hd : d = '#'
      · subst hd
        have hno : cs.head? ≠ some c := fun h => by
          rw [trimStart_head? hblank h] at htrim
          exact hcomment (by simpa [htrim, eq_comm] using h)
        simp only [List.cons_append, trimStart_append _ ht, Option.or_eq_some_iff, hhead, hno, and_false, or_false]
      · simp

/-- Whether a hyphen is the last character of a class does not go by the closing. -/
theorem endsAtHyphen_append (cs : List Char) {t : List Char} (ht : Closing t) :
    endsAtHyphen flags (cs ++ t) = endsAtHyphen flags cs := by
  rw [endsAtHyphen, endsAtHyphen, Bool.eq_iff_iff]
  simp only [Bool.or_eq_true, beq_iff_eq]
  exact or_congr (afterHyphen?_append (by decide) (by decide) (by decide) cs ht)
    (afterHyphen?_append (by decide) (by decide) (by decide) cs ht)

/-- Reading the rest of a range is local. -/
theorem rangeEnd_local (first : Regex) : Local (rangeEnd flags first) := fun _ =>
  (skipping_local flags _).bind fun _ => (charItem_local _).bind fun _ => (Agree.lift _).bind fun _ =>
    (Agree.lift _).bind fun _ => .ite (.lift none) (.pure _)

/-- What follows an item hands on the end of the text. -/
theorem afterItem_suffix {first : Regex} {cs rest : List Char} {s : CharSet}
    (h : afterItem flags first cs = some (s, rest)) : rest <:+ cs := by
  cases cs with
  | nil => cases h
  | cons c cs =>
    rw [afterItem] at h
    split at h
    · obtain ⟨_, -, hs⟩ := Option.map_eq_some_iff.1 h
      exact (Prod.mk.inj hs).2 ▸ List.suffix_refl _
    · exact ((rangeEnd_local first 0).suffix h).trans (List.suffix_cons _ _)

/-- An item of a class needs something behind it, if only the closing bracket. -/
theorem afterItem_same {first : Regex} {cs more ds t : List Char} {s : CharSet}
    (h : afterItem flags first (cs ++ ')' :: more) = some (s, ds ++ ')' :: more)) (hds : ds ≠ []) (ht : Closing t) :
    afterItem flags first (cs ++ t) = some (s, ds ++ t) := by
  cases cs with
  | nil =>
    obtain ⟨_, -, hs⟩ := Option.map_eq_some_iff.1 h
    exact absurd (List.self_eq_append_left.1 (Prod.mk.inj hs).2) hds
  | cons c cs =>
    rw [List.cons_append, afterItem, endsAtHyphen_append _ (closing_cons more)] at h
    rw [List.cons_append, afterItem, endsAtHyphen_append _ ht]
    split at h
    case isTrue hend =>
      obtain ⟨ranges, hranges, hs⟩ := Option.map_eq_some_iff.1 h
      obtain ⟨rfl, hrest⟩ := Prod.mk.inj hs
      obtain rfl : c :: cs = ds := List.append_cancel_right hrest
      rw [if_pos hend, hranges]
      rfl
    case isFalse hend =>
      rw [if_neg hend]
      exact (rangeEnd_local first _).same (Nat.lt_succ_self _) h ht

/-- A range takes a character at least, and hands on the end of the text. -/
theorem classRange?_suffix {cs rest : List Char} {s : CharSet} (h : classRange? flags cs = some (s, rest)) :
    rest <:+ cs.tail := by
  rw [classRange?_eq] at h
  obtain ⟨⟨first, after⟩, hfirst, h⟩ := Option.bind_eq_some_iff.1 h
  exact (afterItem_suffix h).trans (spacedItem_suffix hfirst)

/-- A range that leaves something of its source is read whatever closing follows. -/
theorem classRange?_same {cs more ds t : List Char} {s : CharSet}
    (h : classRange? flags (cs ++ ')' :: more) = some (s, ds ++ ')' :: more)) (hds : ds ≠ []) (ht : Closing t) :
    classRange? flags (cs ++ t) = some (s, ds ++ t) := by
  rw [classRange?_eq] at h ⊢
  obtain ⟨⟨first, after⟩, hfirst, h⟩ := Option.bind_eq_some_iff.1 h
  obtain ⟨ds', rfl, -⟩ := exists_of_suffix (afterItem_suffix h) ((spacedItem_local 0).suffix hfirst)
  rw [(spacedItem_local _).same (Nat.lt_succ_self _) hfirst ht]
  exact afterItem_same h hds ht

/-! ## Named classes -/

/-- Reads up to a character, and that character. -/
def upTo (stop : Char) : Reader (List Char) := fun cs =>
  match cs.dropWhile (· != stop) with
  | [] => none
  | _ :: rest => some (cs.takeWhile (· != stop), rest)

/-- What is left out stops at the character that is looked for. -/
theorem eq_of_dropWhile {stop c : Char} {cs rest : List Char} (h : cs.dropWhile (· != stop) = c :: rest) :
    c = stop := by
  have hhead := List.head?_dropWhile_not (· != stop) cs
  rw [h] at hhead
  simpa using hhead

/-- What is read up to a character is what stands in front of its first place. -/
theorem upTo_eq_some_iff {stop : Char} {cs name rest : List Char} :
    upTo stop cs = some (name, rest) ↔ cs = name ++ stop :: rest ∧ stop ∉ name := by
  have hfront : ∀ c ∈ cs.takeWhile (· != stop), c ≠ stop := fun c hc =>
    bne_iff_ne.1 (List.mem_takeWhile_imp (p := (· != stop)) hc)
  rw [upTo]
  constructor
  · intro h
    cases hdrop : cs.dropWhile (· != stop) with
    | nil =>
      rw [hdrop] at h
      cases h
    | cons c after =>
      rw [hdrop] at h
      obtain ⟨rfl, rfl⟩ := Prod.mk.inj (Option.some.inj h)
      obtain rfl := eq_of_dropWhile hdrop
      refine ⟨?_, fun hmem => hfront c hmem rfl⟩
      rw [← hdrop, List.takeWhile_append_dropWhile]
  · rintro ⟨rfl, hname⟩
    have hpass : ∀ c ∈ name, (c != stop) = true := fun c hc => bne_iff_ne.2 fun heq => hname (heq ▸ hc)
    rw [List.dropWhile_append_of_pos hpass, List.takeWhile_append_of_pos hpass]
    simp

/-- Reading up to a character is local. -/
theorem upTo_local (stop : Char) : Local (upTo stop) := fun _ => {
  suffix := fun h => by
    obtain ⟨rfl, -⟩ := upTo_eq_some_iff.1 h
    exact (List.suffix_cons _ _).trans (List.suffix_append _ _)
  same := fun {cs more name ds t} _ h ht => by
    obtain ⟨hcs, hname⟩ := upTo_eq_some_iff.1 h
    obtain rfl : cs = name ++ stop :: ds := List.append_cancel_right (by simpa using hcs)
    exact upTo_eq_some_iff.2 ⟨by simp, hname⟩ }

/-- The name of a class behind the colon, when the class stands for the other characters and when not. -/
def className (negated : Bool) : Reader CharSet := do
  let name ← upTo ':'
  let c ← next
  if c = ']' then do
    let s ← StateT.lift (Text.meaning? CharSet.named (String.ofList name))
    pure (if negated then s.complement else s)
  else StateT.lift none

/-- Reading the name of a class is local. -/
theorem className_local (negated : Bool) : Local (className negated) := fun _ =>
  (upTo_local ':' _).bind fun _ => .next_bind fun _ => .ite ((Agree.lift _).bind fun _ => .pure _) (.lift none)

/-- The name of a class ends with a colon and a bracket, and is known. -/
theorem className_apply (negated : Bool) (cs : List Char) :
    className negated cs =
      match cs.dropWhile (· != ':') with
      | ':' :: ']' :: after =>
        (Text.meaning? CharSet.named (String.ofList (cs.takeWhile (· != ':')))).map fun s =>
          (if negated then s.complement else s, after)
      | _ => none := by
  rw [className, bind_apply, upTo]
  cases hdrop : cs.dropWhile (· != ':') with
  | nil => rfl
  | cons c rest =>
    obtain rfl := eq_of_dropWhile hdrop
    cases rest with
    | nil => rfl
    | cons d after =>
      rw [Option.bind_some, bind_apply, next, Option.bind_some, choice_apply]
      split
      case isTrue hd =>
        obtain rfl : d = ']' := hd
        rw [lift_bind_apply]
        exact Option.map_eq_bind.symm
      case isFalse hd =>
        split
        case h_1 heq => exact absurd ((List.cons.inj (List.cons.inj heq).2).1) hd
        case h_2 => rfl

/-- A named class may be turned around by a caret. -/
theorem namedClass?_eq :
    namedClass? =
      onNext (· == ':') (fun _ => onNext (· == '^') (fun _ => className true) (className false))
        (StateT.lift none) := by
  have hinner : (fun rest => namedClass? (':' :: rest)) =
      onNext (· == '^') (fun _ => className true) (className false) := by
    refine eq_onNext (fun name => (className_apply true name).symm) fun rest hother => ?_
    simp only [namedClass?]
    exact (className_apply false rest).symm
  refine eq_onNext (congrFun hinner) fun cs hother => ?_
  rw [namedClass?]
  · rfl
  · exact hother

/-- Reading a named class is local. -/
theorem namedClass?_local : Local namedClass? := by
  intro size
  rw [namedClass?_eq]
  exact .onNext (by decide)
    (fun _ => .onNext (by decide) (fun _ => className_local true _) (className_local false _)) (.lift none)

/-! ## Whole classes -/

/-- Whether a doubled character starts here that would be an operation on sets. -/
def startsOperation : List Char → Bool
  | c :: cs => isSetOperation c && cs.head? == some c
  | [] => false

/-- Reads a range of characters, and goes on with `next`. -/
def rangeThen (flags : Flags) (next : CharSet → Reader CharSet) : Reader CharSet := fun cs =>
  if startsOperation cs then none else (classRange? flags cs).bind fun r => next r.1 r.2

/-- The items of a class are named classes and ranges, up to the bracket. -/
theorem classItems?_succ (fuel : Nat) (ranges : CharSet) :
    classItems? flags (fuel + 1) ranges = (do
      skipping flags
      onNext (· == '[')
        (fun _ => do
          let named ← (namedClass? : Reader CharSet)
          (classItems? flags fuel (ranges ++ named) : Reader CharSet))
        (onNext (· == ']') (fun _ => pure ranges)
          (rangeThen flags fun more => classItems? flags fuel (ranges ++ more))) : Reader CharSet) := by
  funext cs
  rw [bind_apply, skipping, Option.bind_some, classItems?]
  split
  case h_1 hnil => rw [hnil]; rfl
  case h_2 rest hopen =>
    rw [hopen, onNext_self, bind_apply]
    cases namedClass? rest <;> rfl
  case h_3 rest hclose => rw [hclose]; rfl
  case h_4 c rest hopen hclose hrest =>
    rw [hrest, onNext_other (by simpa using hopen), onNext_other (by simpa using hclose), rangeThen, startsOperation]
    split
    · rfl
    · cases classRange? flags (c :: rest) <;> rfl

/-- Whether an operation on sets starts here does not go by the closing. -/
theorem startsOperation_append (cs : List Char) {t : List Char} (ht : Closing t) :
    startsOperation (cs ++ t) = startsOperation cs := by
  cases cs with
  | nil =>
    cases t with
    | nil => rfl
    | cons c t =>
      obtain rfl := ht c rfl
      rfl
  | cons c cs =>
    rw [List.cons_append, startsOperation, startsOperation, Bool.eq_iff_iff]
    simp only [Bool.and_eq_true, beq_iff_eq]
    refine and_congr_right fun hc => head?_append_closing ?_ cs ht
    rintro rfl
    exact absurd hc (by decide)

/-- A class ends with a bracket of its own. -/
theorem classItems?_shorter {fuel : Nat} {ranges s : CharSet} {cs rest : List Char}
    (h : classItems? flags fuel ranges cs = some (s, rest)) : rest.length < cs.length := by
  induction fuel generalizing ranges cs with
  | zero => cases h
  | succ fuel ih =>
    have hskip := (skip_suffix flags cs).length_le
    rw [classItems?] at h
    split at h
    case h_1 => cases h
    case h_2 after hopen =>
      split at h
      case h_1 => cases h
      case h_2 named behind hnamed =>
        have hbehind := ((namedClass?_local 0).suffix hnamed).length_le
        have hrest := ih h
        rw [hopen, List.length_cons] at hskip
        omega
    case h_3 after hclose =>
      obtain ⟨-, rfl⟩ := Prod.mk.inj (Option.some.inj h)
      rw [hclose, List.length_cons] at hskip
      omega
    case h_4 c after _ _ hitem =>
      split at h
      case isTrue => cases h
      case isFalse =>
        split at h
        case h_1 => cases h
        case h_2 more behind hrange =>
          have hbehind := (classRange?_suffix hrange).length_le
          have hrest := ih h
          rw [hitem, List.length_cons] at hskip
          rw [List.tail_cons] at hbehind
          omega

/-- Readers that read a range first agree if they agree behind it. -/
theorem rangeThen_agree {g g' : CharSet → Reader CharSet} (hg : ∀ s, Agree (size - 1) (g s) (g' s))
    (hshorter : ∀ {s cs s' rest}, g s cs = some (s', rest) → rest.length < cs.length) :
    Agree size (rangeThen flags g) (rangeThen flags g') where
  suffix {cs s rest} h := by
    rw [rangeThen] at h
    split at h
    · cases h
    · obtain ⟨⟨more, after⟩, hrange, h⟩ := Option.bind_eq_some_iff.1 h
      exact ((hg more).suffix h).trans ((classRange?_suffix hrange).trans (List.tail_suffix cs))
  same {cs more s ds t} hsize h ht := by
    rw [rangeThen, startsOperation_append _ (closing_cons _)] at h
    rw [rangeThen, startsOperation_append _ ht]
    split at h
    case isTrue => cases h
    case isFalse hstart =>
      obtain ⟨⟨found, after⟩, hrange, h⟩ := Option.bind_eq_some_iff.1 h
      -- the range ends before what closes, so that something of the class is left
      obtain ⟨ds', rfl, -⟩ := exists_of_suffix ((hg found).suffix h)
        ((classRange?_suffix hrange).trans (List.tail_suffix _))
      have hlength := hshorter h
      have hne : ds' ≠ [] := by
        rintro rfl
        simp only [List.nil_append, List.length_append, List.length_cons] at hlength
        omega
      rw [if_neg hstart, classRange?_same hrange hne ht, Option.bind_some]
      refine (hg found).same ?_ h ht
      have hrest := (classRange?_suffix hrange).length_le
      simp only [List.length_tail, List.length_append, List.length_cons] at hrest
      omega

/-- Reading the items of a class does not go by how much fuel is left. -/
theorem classItems?_agree (n size : Nat) (ranges : CharSet) :
    Agree size (classItems? flags n ranges) (classItems? flags size ranges) := by
  refine Agree.fuelled (f := fun n ranges => (classItems? flags n ranges : Reader CharSet)) (fun _ => rfl)
    (fun _ _ _ h ranges => ?_) n size ranges
  rw [classItems?_succ, classItems?_succ]
  exact (skipping_local flags _).bind fun _ => .onNext (by decide)
    (fun _ => (namedClass?_local _).bind fun named => h _)
    (.onNext (by decide) (fun _ => .pure ranges) (rangeThen_agree (fun more => h _) classItems?_shorter))

/-- The hyphens at the front of a class. -/
def hyphens (flags : Flags) (fuel : Nat) : Reader CharSet := fun cs => some (leadingHyphens flags fuel cs)

/-- The hyphens at the front of a class are read one by one. -/
theorem hyphens_succ (fuel : Nat) :
    hyphens flags (fuel + 1) =
      onNext (· == '-')
        (fun _ => do
          skipping flags
          let more ← hyphens flags fuel
          pure (CharSet.single '-' :: more))
        (pure []) := by
  refine eq_onNext (fun rest => rfl) fun cs hother => ?_
  rw [hyphens, leadingHyphens]
  · rfl
  · exact hother

/-- Reading the hyphens at the front of a class does not go by how much fuel is left. -/
theorem hyphens_agree : ∀ n m, Agree (min n m + 1) (hyphens flags n) (hyphens flags m) := by
  refine Agree.lasting rfl (fun n t ht => ?_) fun _ _ _ h => ?_
  · cases n with
    | zero => rfl
    | succ n =>
      rw [hyphens_succ, Agree.onNext_closing (by decide) _ ht]
      rfl
  · rw [hyphens_succ, hyphens_succ]
    exact .onNext (by decide) (fun _ => (skipping_local flags _).bind fun _ => h.bind fun _ => .pure _) (.pure [])

/-- The items of a class. -/
def items (flags : Flags) (front : CharSet) : Reader CharSet := fun cs => classItems? flags (cs.length + 1) front cs

/-- A closing bracket right at the front of a class, which stands for itself. -/
def bracket (flags : Flags) (front : CharSet) : Reader CharSet :=
  if front = [] then onNext (· == ']') (fun _ => do skipping flags; pure [CharSet.single ']']) (pure front)
  else pure front

/-- A class behind its opening bracket and what turns it around. -/
def classBody (flags : Flags) (negated : Bool) : Reader Regex := do
  let front ← fun cs => hyphens flags cs.length cs
  let front ← bracket flags front
  let ranges ← items flags front
  let ranges := CharSet.canonical ranges
  let ranges := if flags.anyCase then CharSet.fold ranges else ranges
  pure (.set (if negated then CharSet.complement ranges else ranges))

/-- Reading a bracket at the front of a class is local. -/
theorem bracket_local (front : CharSet) : Local (bracket flags front) := fun _ =>
  .ite (.onNext (by decide) (fun _ => (skipping_local flags _).bind fun _ => .pure _) (.pure _)) (.pure _)

/-- Reading a class behind its opening bracket is local. -/
theorem classBody_local (negated : Bool) : Local (classBody flags negated) := fun _ =>
  (Agree.lasting_length hyphens_agree 0 _).bind fun _ => (bracket_local _ _).bind fun _ =>
    (Agree.fuelled_length (classItems?_agree · · _) _).bind fun _ => .pure _

/-- A closing bracket stands for itself just where nothing of the class stands in front of it. -/
theorem bracket_apply (front : CharSet) (cs : List Char) :
    bracket flags front cs = some (match front, cs with
      | [], ']' :: rest => ([CharSet.single ']'], skip flags rest)
      | front, cs => (front, cs)) := by
  rw [bracket, choice_apply]
  split
  case isTrue hfront =>
    subst hfront
    by_cases hclose : ∃ rest, cs = ']' :: rest
    · obtain ⟨rest, rfl⟩ := hclose
      rfl
    · have hother := not_exists.1 hclose
      rw [onNext_other hother]
      split
      · exact absurd rfl (hother _)
      · rfl
  case isFalse hfront =>
    split
    · exact absurd rfl hfront
    · rfl

/-- Whether a caret turns a class around. -/
def caret (flags : Flags) : Reader Bool :=
  onNext (· == '^') (fun _ => do skipping flags; pure true) (pure false)

/-- Reading a caret is local. -/
theorem caret_local : Local (caret flags) := fun _ =>
  .onNext (by decide) (fun _ => (skipping_local flags _).bind fun _ => .pure true) (.pure false)

/-- A caret turns a class around, with what is skipped behind it. -/
theorem caret_apply (cs : List Char) :
    caret flags cs = some (match cs with
      | '^' :: rest => (true, skip flags rest)
      | cs => (false, cs)) := by
  by_cases hcaret : ∃ rest, cs = '^' :: rest
  · obtain ⟨rest, rfl⟩ := hcaret
    rfl
  · have hother := not_exists.1 hcaret
    rw [caret, onNext_other hother]
    split
    · exact absurd rfl (hother _)
    · rfl

/-- A class is read behind its opening bracket, a caret first. -/
theorem class?_eq :
    class? flags = (do
      skipping flags
      let negated ← caret flags
      classBody flags negated : Reader Regex) := by
  funext cs
  rw [bind_apply, skipping, Option.bind_some, bind_apply, caret_apply, Option.bind_some, classBody, bind_apply,
    hyphens, Option.bind_some, bind_apply, bracket_apply, Option.bind_some, class?]
  rfl

/-- Reading a class is local. -/
theorem class?_local : Local (class? flags) := by
  intro size
  rw [class?_eq]
  exact (skipping_local flags _).bind fun _ => (caret_local _).bind fun _ => classBody_local _ _

end ProvenanceTrail.Regex
