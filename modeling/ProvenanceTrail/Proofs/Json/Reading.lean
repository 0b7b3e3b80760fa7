import Mathlib.Algebra.Group.Int.Defs
import ProvenanceTrail.Json.Reader
import ProvenanceTrail.Json.Record
import ProvenanceTrail.Proofs.Json.Lexemes

/-!
# Values are read as they were written

`Json.Within` bounds how deep a value is nested and says of which kind its numbers are. A value of integers
that is nested no deeper than the reader allows is read back from its text (`read?_render`). The text is
first cut into the lexemes of the value (`Within.written`); these lead the reader from the start of the
value to its end and leave what stood open before as it was (`Within.readBefore`), so that the items of an
array and the members of an object are read one after the other.

In the other direction, whatever is read is nested no deeper and has only numbers of the format
(`read?_within`). The invariant of the reader is `Room`: each array or object that is open holds values
that leave room for those around it.
-/

namespace ProvenanceTrail.Json

open Lexeme JsonNumber

/-- A value whose arrays and objects are nested at most so deep and whose numbers have a property. -/
inductive Within (P : JsonNumber → Prop) : Nat → Json → Prop
  | null {d : Nat} : Within P d .null
  | bool {d : Nat} (b : Bool) : Within P d (.bool b)
  | number {d : Nat} {n : JsonNumber} (hn : P n) : Within P d (.number n)
  | string {d : Nat} (s : String) : Within P d (.string s)
  | array {d : Nat} {items : List Json} (h : ∀ v ∈ items, Within P d v) : Within P (d + 1) (.array items)
  | object {d : Nat} {members : List (String × Json)} (h : ∀ m ∈ members, Within P d m.2) :
    Within P (d + 1) (.object members)

/-- A value within a depth is within every greater depth. -/
theorem Within.mono {P : JsonNumber → Prop} {d e : Nat} {v : Json} (h : Within P d v) (hde : d ≤ e) :
    Within P e v := by
  induction h generalizing e with
  | null => exact .null
  | bool b => exact .bool b
  | number hn => exact .number hn
  | string s => exact .string s
  | array h ih =>
    obtain ⟨e, rfl⟩ := Nat.exists_eq_add_of_lt hde
    exact .array fun v hv => ih v hv (by omega)
  | object h ih =>
    obtain ⟨e, rfl⟩ := Nat.exists_eq_add_of_lt hde
    exact .object fun m hm => ih m hm (by omega)

mutual
/-- The lexemes in which a value is written. -/
def lexemes : Json → List Lexeme
  | .null => [.null]
  | .bool b => [.bool b]
  | .number n => [.number n]
  | .string s => [.string s]
  | .array [] => [.openBracket, .closeBracket]
  | .array (v :: rest) => .openBracket :: (lexemes v ++ itemLexemes rest)
  | .object [] => [.openBrace, .closeBrace]
  | .object ((k, v) :: rest) =>
    .openBrace :: .string k :: .colon :: (lexemes v ++ memberLexemes rest)
termination_by structural v => v

/-- The lexemes of the items after the first, up to the closing bracket. -/
def itemLexemes : List Json → List Lexeme
  | [] => [.closeBracket]
  | v :: rest => .comma :: (lexemes v ++ itemLexemes rest)
termination_by structural vs => vs

/-- The lexemes of the members after the first, up to the closing brace. -/
def memberLexemes : List (String × Json) → List Lexeme
  | [] => [.closeBrace]
  | (k, v) :: rest => .comma :: .string k :: .colon :: (lexemes v ++ memberLexemes rest)
termination_by structural vs => vs
end

variable {P : JsonNumber → Prop} {d : Nat} {v : Json} {items : List Json}
  {members : List (String × Json)} {ls rest : List Lexeme} {r : List Char}

/-! ## Writing -/

/-- What holds of the text of a value that is written in front of other lexemes. -/
def WrittenBefore (v : Json) : Prop :=
  ∀ ls r, Written ls r → Ends r → Written (v.lexemes ++ ls) (v.render ++ r)

/-- The items of a list behind the first are written as their lexemes. -/
theorem written_renderItems (hv : ∀ v ∈ items, WrittenBefore v) (h : Written ls r) :
    Written (itemLexemes items ++ ls) (renderItems items ++ r) ∧ Ends (renderItems items ++ r) := by
  induction items with
  | nil => exact ⟨.cons (l := .closeBracket) trivial h, by simp [renderItems, Ends]⟩
  | cons v items ih =>
    obtain ⟨hw, hends⟩ := ih fun w hw => hv w (List.mem_cons_of_mem _ hw)
    simp only [itemLexemes, renderItems, List.cons_append, List.append_assoc]
    exact ⟨.cons (l := .comma) trivial (hv v List.mem_cons_self _ _ hw hends), by simp [Ends]⟩

/-- The members of an object behind the first are written as their lexemes. -/
theorem written_renderMembers (hv : ∀ m ∈ members, WrittenBefore m.2) (h : Written ls r) :
    Written (memberLexemes members ++ ls) (renderMembers members ++ r) ∧
      Ends (renderMembers members ++ r) := by
  induction members with
  | nil => exact ⟨.cons (l := .closeBrace) trivial h, by simp [renderMembers, Ends]⟩
  | cons m members ih =>
    obtain ⟨k, v⟩ := m
    obtain ⟨hw, hends⟩ := ih fun w hw => hv w (List.mem_cons_of_mem _ hw)
    simp only [memberLexemes, renderMembers, List.cons_append, List.append_assoc]
    exact ⟨.cons (l := .comma) trivial (.cons (l := .string k) trivial
      (.cons (l := .colon) trivial (hv _ List.mem_cons_self _ _ hw hends))), by simp [Ends]⟩

/-- A value of integers is written as its lexemes before whatever ends it. -/
theorem Within.writtenBefore (hv : Within IsInteger d v) : WrittenBefore v := by
  induction hv with
  | null => exact fun ls r h _ => .cons (l := .null) trivial h
  | bool b => cases b <;> exact fun ls r h _ => .cons (l := .bool _) trivial h
  | number hn => exact fun ls r h hr => .cons (l := .number _) ⟨hn, hr⟩ h
  | string s => exact fun ls r h _ => .cons (l := .string s) trivial h
  | @array d items h ih =>
    intro ls r hw hr
    obtain _ | ⟨v, items⟩ := items
    · exact .cons (l := .openBracket) trivial (.cons (l := .closeBracket) trivial hw)
    · obtain ⟨hw, hends⟩ := written_renderItems (fun w hw => ih w (List.mem_cons_of_mem _ hw)) hw
      simp only [lexemes, render, List.cons_append, List.append_assoc]
      exact .cons (l := .openBracket) trivial (ih v List.mem_cons_self _ _ hw hends)
  | @object d members h ih =>
    intro ls r hw hr
    obtain _ | ⟨⟨k, v⟩, members⟩ := members
    · exact .cons (l := .openBrace) trivial (.cons (l := .closeBrace) trivial hw)
    · obtain ⟨hw, hends⟩ := written_renderMembers (fun w hw => ih w (List.mem_cons_of_mem _ hw)) hw
      simp only [lexemes, render, List.cons_append, List.append_assoc]
      exact .cons (l := .openBrace) trivial (.cons (l := .string k) trivial
        (.cons (l := .colon) trivial (ih _ List.mem_cons_self _ _ hw hends)))

/-- The text of a value of integers is written as its lexemes. -/
theorem Within.written (hv : Within IsInteger d v) : Written v.lexemes v.render := by
  simpa using hv.writtenBefore [] [] .nil trivial

/-! ## Reading -/

/-- The reader's answer where a value is finished in front of other lexemes. -/
def close (value : Json) (stack : List Frame) (rest : List Lexeme) : Option (Json × List Lexeme) :=
  match finish value stack with
  | .complete v => some (v, rest)
  | .open stack => readFrom stack .separator rest

section Steps

variable (v : Json) (items : List Json) (members : List (String × Json)) (key : String)
  (stack : List Frame) (rest : List Lexeme)

/-- Inside a list, a value that is finished becomes its next item. -/
theorem close_array :
    close v (.array items :: stack) rest = readFrom (.array (v :: items) :: stack) .separator rest := rfl

/-- Inside an object, a value that is finished becomes the member of the key before it. -/
theorem close_object :
    close v (.object members key :: stack) rest =
      readFrom (.object ((key, v) :: members) key :: stack) .separator rest := rfl

theorem readFrom_null : readFrom stack .value (.null :: rest) = close .null stack rest := rfl

theorem readFrom_bool (b : Bool) :
    readFrom stack .value (.bool b :: rest) = close (.bool b) stack rest := rfl

theorem readFrom_number (n : JsonNumber) :
    readFrom stack .value (.number n :: rest) = close (.number n) stack rest := rfl

theorem readFrom_string (s : String) :
    readFrom stack .value (.string s :: rest) = close (.string s) stack rest := rfl

/-- An opening bracket opens a list, as long as the nesting allows it. -/
theorem readFrom_openBracket (h : stack.length < maxDepth) :
    readFrom stack .value (.openBracket :: rest) = readFrom (.array [] :: stack) .firstItem rest := by
  simp [readFrom, h]

/-- An opening brace opens an object, as long as the nesting allows it. -/
theorem readFrom_openBrace (h : stack.length < maxDepth) :
    readFrom stack .value (.openBrace :: rest) = readFrom stack (.firstKey []) rest := by
  simp [readFrom, h]

/-- A list closed at once is empty. -/
theorem readFrom_emptyArray :
    readFrom (.array [] :: stack) .firstItem (.closeBracket :: rest) = close (.array []) stack rest := rfl

/-- An object closed at once is empty. -/
theorem readFrom_emptyObject :
    readFrom stack (.firstKey []) (.closeBrace :: rest) = close (.object []) stack rest := rfl

/-- The first key of an object opens a frame under that key. -/
theorem readFrom_firstKey :
    readFrom stack (.firstKey []) (.string key :: .colon :: rest) =
      readFrom (.object [] key :: stack) .value rest := rfl

/-- A comma in a list leads to its next item. -/
theorem readFrom_nextItem :
    readFrom (.array items :: stack) .separator (.comma :: rest) =
      readFrom (.array items :: stack) .value rest := rfl

/-- A closing bracket finishes the list with its items in the order of the text. -/
theorem readFrom_endArray :
    readFrom (.array items :: stack) .separator (.closeBracket :: rest) =
      close (.array items.reverse) stack rest := rfl

/-- A comma and a key in an object lead to the value of that key. -/
theorem readFrom_nextMember (k : String) :
    readFrom (.object members key :: stack) .separator (.comma :: .string k :: .colon :: rest) =
      readFrom (.object members k :: stack) .value rest := rfl

/-- A closing brace finishes the object with its members in the order of the text. -/
theorem readFrom_endObject :
    readFrom (.object members key :: stack) .separator (.closeBrace :: rest) =
      close (.object members.reverse) stack rest := rfl

/-- A value does not start with a bracket that closes. -/
theorem readFrom_firstItem :
    readFrom (.array [] :: stack) .firstItem (v.lexemes ++ rest) =
      readFrom (.array [] :: stack) .value (v.lexemes ++ rest) := by
  rcases v with _ | _ | _ | _ | (_ | ⟨_, _⟩) | (_ | ⟨⟨_, _⟩, _⟩) <;> simp [lexemes, readFrom]

end Steps

/-- What the reader does with the lexemes of a value in front of others, as long as no more values
are open than the value leaves room for. -/
def ReadBefore (d : Nat) (v : Json) : Prop :=
  ∀ stack rest, stack.length + d ≤ maxDepth →
    readFrom stack .value (v.lexemes ++ rest) = close v stack rest

/-- The lexemes of a list behind its first item are read as its remaining items. -/
theorem readFrom_itemLexemes (hv : ∀ v ∈ items, ReadBefore d v) (before : List Json)
    {stack : List Frame} (hd : stack.length + (d + 1) ≤ maxDepth) :
    readFrom (.array before :: stack) .separator (itemLexemes items ++ rest) =
      close (.array (before.reverse ++ items)) stack rest := by
  induction items generalizing before with
  | nil => rw [itemLexemes, List.singleton_append, readFrom_endArray, List.append_nil]
  | cons v items ih =>
    have hread := hv v List.mem_cons_self (.array before :: stack) (itemLexemes items ++ rest)
      (by simp only [List.length_cons]; omega)
    rw [itemLexemes, List.cons_append, List.append_assoc, readFrom_nextItem, hread, close_array,
      ih fun w hw => hv w (List.mem_cons_of_mem _ hw)]
    simp

/-- The lexemes of an object behind its first member are read as its remaining members. -/
theorem readFrom_memberLexemes (hv : ∀ m ∈ members, ReadBefore d m.2)
    (before : List (String × Json)) (key : String) {stack : List Frame}
    (hd : stack.length + (d + 1) ≤ maxDepth) :
    readFrom (.object before key :: stack) .separator (memberLexemes members ++ rest) =
      close (.object (before.reverse ++ members)) stack rest := by
  induction members generalizing before key with
  | nil => rw [memberLexemes, List.singleton_append, readFrom_endObject, List.append_nil]
  | cons m members ih =>
    obtain ⟨k, v⟩ := m
    have hread := hv _ List.mem_cons_self (.object before k :: stack)
      (memberLexemes members ++ rest) (by simp only [List.length_cons]; omega)
    rw [memberLexemes, List.cons_append, List.cons_append, List.cons_append, List.append_assoc,
      readFrom_nextMember, hread, close_object, ih fun w hw => hv w (List.mem_cons_of_mem _ hw)]
    simp

/-- The lexemes of a value are read back as the value, wherever the nesting leaves room for it. -/
theorem Within.readBefore (hv : Within P d v) : ReadBefore d v := by
  induction hv with
  | null => exact fun stack rest _ => readFrom_null stack rest
  | bool b => exact fun stack rest _ => readFrom_bool stack rest b
  | number hn => exact fun stack rest _ => readFrom_number stack rest _
  | string s => exact fun stack rest _ => readFrom_string stack rest s
  -- the first item opens the frame, the others are read behind separators
  | @array d items h ih =>
    intro stack rest hd
    have hlt : stack.length < maxDepth := by omega
    obtain _ | ⟨v, items⟩ := items
    · exact (readFrom_openBracket _ _ hlt).trans (readFrom_emptyArray stack rest)
    · have hread := ih v List.mem_cons_self (.array [] :: stack) (itemLexemes items ++ rest)
        (by simp only [List.length_cons]; omega)
      rw [lexemes, List.cons_append, List.append_assoc, readFrom_openBracket _ _ hlt,
        readFrom_firstItem, hread, close_array,
        readFrom_itemLexemes (fun w hw => ih w (List.mem_cons_of_mem _ hw)) [v] hd]
      rfl
  | @object d members h ih =>
    intro stack rest hd
    have hlt : stack.length < maxDepth := by omega
    obtain _ | ⟨⟨k, v⟩, members⟩ := members
    · exact (readFrom_openBrace _ _ hlt).trans (readFrom_emptyObject stack rest)
    · have hread := ih _ List.mem_cons_self (.object [] k :: stack) (memberLexemes members ++ rest)
        (by simp only [List.length_cons]; omega)
      rw [lexemes, List.cons_append, List.cons_append, List.cons_append, List.append_assoc,
        readFrom_openBrace _ _ hlt, readFrom_firstKey, hread, close_object,
        readFrom_memberLexemes (fun w hw => ih w (List.mem_cons_of_mem _ hw)) [(k, v)] k hd]
      rfl

/-- A value of integers that is not nested too deep is read as it was written. -/
theorem read?_render (hv : Within IsInteger maxDepth v) :
    read? (String.ofList v.render) = some v := by
  have hread := hv.readBefore [] [] (Nat.le_of_eq (Nat.zero_add _))
  rw [List.append_nil] at hread
  simp [read?, readFront?, hv.written.scan_eq, hread, close, finish]

/-! ## What is read -/

/-- What an open array or object holds so far. -/
def Frame.Holds (P : JsonNumber → Prop) (d : Nat) : Frame → Prop
  | .array items => ∀ v ∈ items, Within P d v
  | .object members _ => ∀ m ∈ members, Within P d m.2

/-- The open arrays and objects leave room for a value that is nested `d` deep. -/
inductive Room (P : JsonNumber → Prop) : Nat → List Frame → Prop
  | nil : Room P maxDepth []
  | cons {d : Nat} {frame : Frame} {stack : List Frame} (hf : frame.Holds P d)
    (h : Room P (d + 1) stack) : Room P d (frame :: stack)

/-- What the members that were read before a key hold. -/
def Expected.Holds (P : JsonNumber → Prop) (d : Nat) : Expected → Prop
  | .firstKey members | .key members | .colon members _ =>
    ∃ e, d = e + 1 ∧ ∀ m ∈ members, Within P e m.2
  | _ => True

variable {stack : List Frame} {expected : Expected} {p : Json × List Lexeme}

/-- The room that is left and the open frames make up the greatest depth. -/
theorem Room.add_length (h : Room P d stack) : d + stack.length = maxDepth := by
  induction h with
  | nil => rfl
  | cons hf h ih => rw [List.length_cons]; omega

/-- Before the greatest depth there is room for one more level. -/
theorem Room.exists_succ (h : Room P d stack) (hlt : stack.length < maxDepth) :
    ∃ e, d = e + 1 :=
  ⟨d - 1, by have := h.add_length; omega⟩

/-- What holds of the reader on the lexemes that remain. -/
def ReadsWithin (P : JsonNumber → Prop) (rest : List Lexeme) : Prop :=
  ∀ d stack expected p, Room P d stack → expected.Holds P d →
    readFrom stack expected rest = some p → Within P maxDepth p.1

/-- Finishing a value that keeps within its room leads to a document that does. -/
theorem close_within (ih : ReadsWithin P rest) (hroom : Room P d stack) (hv : Within P d v)
    (h : close v stack rest = some p) : Within P maxDepth p.1 := by
  cases hroom with
  | nil => cases h; exact hv
  | @cons _ frame stack hf hroom =>
    cases frame with
    | array items =>
      have hf : (Frame.array (v :: items)).Holds P d := List.forall_mem_cons.2 ⟨hv, hf⟩
      exact ih _ _ .separator _ (.cons hf hroom) trivial h
    | object members key =>
      have hf : (Frame.object ((key, v) :: members) key).Holds P d :=
        List.forall_mem_cons.2 ⟨hv, hf⟩
      exact ih _ _ .separator _ (.cons hf hroom) trivial h

/-- A value that starts within its room leads to a document that keeps within it. -/
theorem value_within (ih : ReadsWithin P rest) {l : Lexeme} (hl : ∀ n, l = .number n → P n)
    (hroom : Room P d stack) (h : readFrom stack .value (l :: rest) = some p) :
    Within P maxDepth p.1 := by
  cases l with
  | null => exact close_within ih hroom .null h
  | bool b => exact close_within ih hroom (.bool b) h
  | number n => exact close_within ih hroom (.number (hl n rfl)) h
  | string s => exact close_within ih hroom (.string s) h
  | openBracket =>
    have hlt : stack.length < maxDepth := by
      by_contra hlt
      simp [readFrom, hlt] at h
    obtain ⟨e, rfl⟩ := hroom.exists_succ hlt
    rw [readFrom_openBracket _ _ hlt] at h
    have hf : (Frame.array []).Holds P e := fun _ hv => absurd hv List.not_mem_nil
    exact ih _ _ .firstItem _ (.cons hf hroom) trivial h
  | openBrace =>
    have hlt : stack.length < maxDepth := by
      by_contra hlt
      simp [readFrom, hlt] at h
    obtain ⟨e, rfl⟩ := hroom.exists_succ hlt
    rw [readFrom_openBrace _ _ hlt] at h
    exact ih _ _ (.firstKey []) _ hroom ⟨e, rfl, fun _ hm => absurd hm List.not_mem_nil⟩ h
  | _ => simp [readFrom] at h

/-- Whatever is read holds no other numbers than the lexemes, and is nested no deeper than the reader
allows. -/
theorem readsWithin (hls : ∀ n, .number n ∈ ls → P n) : ReadsWithin P ls := by
  induction ls with
  | nil => intro d stack expected p _ _ h; cases h
  | cons l rest ih =>
    have hl : ∀ n, l = .number n → P n := fun n hn => hls n (hn ▸ List.mem_cons_self)
    specialize ih fun n hn => hls n (List.mem_cons_of_mem _ hn)
    intro d stack expected p hroom he h
    -- anything but what is expected ends the reading with an error
    cases expected with
    | value => exact value_within ih hl hroom h
    | firstItem =>
      by_cases hclose : l = .closeBracket
      · subst hclose
        cases hroom with
        | nil => simp [readFrom] at h
        | @cons _ frame stack hf hroom =>
          cases frame with
          | array items =>
            exact close_within ih hroom (.array fun _ hv => absurd hv List.not_mem_nil) h
          | object members key => simp [readFrom] at h
      · -- any other lexeme is read as where a value is expected
        refine value_within ih hl hroom ?_
        rw [← h]
        cases l <;> first | rfl | exact absurd rfl hclose
    | firstKey members =>
      obtain ⟨e, rfl, hm⟩ := he
      cases l with
      | closeBrace =>
        exact close_within ih hroom (.object fun _ hm => absurd hm List.not_mem_nil) h
      | string key => exact ih _ _ (.colon members key) _ hroom ⟨e, rfl, hm⟩ h
      | _ => simp [readFrom] at h
    | key members =>
      cases l with
      | string key => exact ih _ _ (.colon members key) _ hroom he h
      | _ => simp [readFrom] at h
    | colon members key =>
      obtain ⟨e, rfl, hm⟩ := he
      cases l with
      | colon =>
        have hf : (Frame.object members key).Holds P e := hm
        exact ih _ _ .value _ (.cons hf hroom) trivial h
      | _ => simp [readFrom] at h
    | separator =>
      cases hroom with
      | nil => cases l <;> simp [readFrom] at h
      | @cons _ frame stack hf hroom =>
        cases frame with
        | array items =>
          cases l with
          | comma => exact ih _ _ .value _ (.cons hf hroom) trivial h
          | closeBracket =>
            exact close_within ih hroom (.array fun v hv => hf v (List.mem_reverse.1 hv)) h
          | _ => simp [readFrom] at h
        | object members key =>
          cases l with
          | comma => exact ih _ _ (.key members) _ hroom ⟨_, rfl, hf⟩ h
          | closeBrace =>
            exact close_within ih hroom (.object fun m hm => hf m (List.mem_reverse.1 hm)) h
          | _ => simp [readFrom] at h

/-- Every document read has numbers in range and keeps within the greatest depth. -/
theorem read?_within {text : String} (h : read? text = some v) : Within InRange maxDepth v := by
  unfold read? at h
  split at h
  case h_1 value hfront =>
    cases h
    have hscan : ∀ n, .number n ∈ scan text.toList → n.InRange := fun n hn => inRange_of_mem_scan hn
    exact readsWithin hscan _ _ .value _ .nil trivial hfront
  case h_2 => cases h

/-! ## Fields -/

/-- A required member is read just if it is present and its value is read. -/
theorem required?_eq_some_iff {α : Type} {read : Json → Option α} {o : Option Json} {a : α} :
    required? read o = some a ↔ ∃ v, o = some v ∧ read v = some a := by
  cases o <;> simp [required?]

/-- A member that is looked up is a member of the object. -/
theorem mem_of_lookup {key : String} (h : lookup key members = some v) : (key, v) ∈ members := by
  obtain ⟨m, hfind, rfl⟩ := Option.map_eq_some_iff.1 h
  have hkey : m.1 = key := by simpa using List.find?_some hfind
  exact hkey ▸ List.mem_reverse.1 (List.mem_of_find?_eq_some hfind)

/-- The fields of a record are parts of the value. -/
theorem Within.of_fields? {names : List String} {fields : List (Option Json)} (h : Within P d v)
    (hf : v.fields? names = some fields) : ∃ e, ∀ w, some w ∈ fields → Within P e w := by
  cases h with
  | @array d items h =>
    refine ⟨d, fun w hw => h w ?_⟩
    simp only [fields?] at hf
    split_ifs at hf
    obtain rfl := Option.some_inj.1 hf
    simpa using hw
  | @object d members h =>
    refine ⟨d, fun w hw => ?_⟩
    simp only [fields?] at hf
    split_ifs at hf
    obtain rfl := Option.some_inj.1 hf
    obtain ⟨name, -, hname⟩ := List.mem_map.1 hw
    exact h _ (mem_of_lookup hname)
  | _ => cases hf

/-! ## Integers of 64 bits -/

/-- An integer of 64 signed bits. -/
def IsInteger64 (i : Int) : Prop := -(2 ^ 63) ≤ i ∧ i < 2 ^ 63

/-- What a number in range is read as lies within the 64-bit integers. -/
theorem isInteger64_of_integer64? {i : Int} (hv : Within InRange d v)
    (h : v.integer64? = some i) : IsInteger64 i := by
  unfold integer64? at h
  split at h
  case h_1 n =>
    split_ifs at h with hn
    cases h
    have : n < 2 ^ 63 := hn
    constructor <;> omega
  case h_2 n =>
    cases h
    cases hv with
    | number hn =>
      have : 0 < n ∧ n ≤ 2 ^ 63 := hn
      constructor <;> omega
  case h_3 => cases h

/-- A 64-bit integer is read back from the number that writes it. -/
theorem integer64?_ofInt {i : Int} (h : IsInteger64 i) : (ofInt i).integer64? = some i := by
  obtain ⟨-, hlt⟩ := h
  cases i with
  | ofNat n =>
    rw [Int.ofNat_eq_natCast] at hlt
    have hn : n < 2 ^ 63 := by omega
    simp [ofInt, integer64?, show n < Nat.pow 2 63 from hn]
  | negSucc n => rfl

/-- The number that writes a 64-bit integer is an integer value at every depth. -/
theorem within_ofInt {i : Int} (h : IsInteger64 i) : Within IsInteger d (ofInt i) := by
  obtain ⟨hle, hlt⟩ := h
  cases i with
  | ofNat n =>
    rw [Int.ofNat_eq_natCast] at hlt
    have hn : n < 2 ^ 63 := by omega
    exact .number (show n < 2 ^ 64 by omega)
  | negSucc n =>
    exact .number (show 0 < n + 1 ∧ n + 1 ≤ 2 ^ 63 by omega)

end ProvenanceTrail.Json
