import ProvenanceTrail.Address.TokenList
import ProvenanceTrail.Proofs.Text.Bytes
import ProvenanceTrail.Proofs.Text.Letters
import ProvenanceTrail.Proofs.Text.Splitting

/-!
# Segments of addresses

The address of a token list is that of the trusted party with five segments behind it, of which the fourth
is the originator. The originator comes from others, and may be any text. What it is coded in is read back
as it was (`Percent.decode_encode`), and holds no slash, so that the segments of an address can be read off
its text (`Url.segments_pathText`).

What keeps a text from being one segment happens before it is coded: `.` and `..` are passed over, and line
breaks and tabs are dropped, after which the text may have become a dot segment that is followed.
`Url.Reading` says what a text is read as. Texts that are read differently have different addresses, and a
text is read as itself just if it is none of these (`Url.Reading.ofText_eq_segment_iff`).
-/

namespace ProvenanceTrail

namespace Percent

/-! ## Coded texts are read back -/

/-- An encoded byte is decoded to itself. -/
theorem decode_encodeByte (b : UInt8) (rest : List Char) :
    decode (encodeByte b ++ rest) = b :: decode rest := by
  have hb : b.toNat < 256 := b.toNat_lt
  have hhigh := Text.hexValue?_hexDigit (show 'A' ∈ ['a', 'A'] by simp) (n := b.toNat / 16) (by omega)
  have hlow := Text.hexValue?_hexDigit (show 'A' ∈ ['a', 'A'] by simp) (n := b.toNat % 16) (by omega)
  simp only [encodeByte, List.cons_append, List.nil_append, decode, hhigh, hlow]
  rw [Nat.div_add_mod, UInt8.ofNat_toNat]

/-- Encoded bytes are decoded to themselves. -/
theorem decode_encodeBytes (bs : List UInt8) (rest : List Char) :
    decode (bs.flatMap encodeByte ++ rest) = bs ++ decode rest := by
  induction bs with
  | nil => rfl
  | cons b bs ih =>
    rw [List.flatMap_cons, List.append_assoc, decode_encodeByte, ih, List.cons_append]

/-- The bytes of a character's text are those of its UTF-8 coding. -/
theorem bytes_toString (c : Char) : c.toString.toUTF8.toList = String.utf8EncodeChar c := by
  have h := Text.bytes_eq_flatMap c.toString
  rw [Text.bytes] at h
  rw [h]
  simp [Char.toString]

/-- Any character but the percent sign is decoded to its bytes. -/
theorem decode_cons {c : Char} (h : c ≠ '%') (rest : List Char) :
    decode (c :: rest) = String.utf8EncodeChar c ++ decode rest := by
  rw [decode, bytes_toString]
  rintro a b rest rfl
  exact absurd rfl h

/-- A character, encoded or not, is decoded to its bytes, where the percent sign is encoded. -/
theorem decode_encodeChar {coded : List Char} (hcoded : '%' ∈ coded) (c : Char) (rest : List Char) :
    decode (encodeChar coded c ++ rest) = String.utf8EncodeChar c ++ decode rest := by
  unfold encodeChar
  split_ifs with h
  · rw [decode_encodeBytes, bytes_toString]
  · have hc : c ≠ '%' := by
      rintro rfl
      exact h (by simp [hcoded])
    rw [List.singleton_append, decode_cons hc]

/-- An encoded text is decoded to its bytes. -/
theorem decode_encode_append {coded : List Char} (hcoded : '%' ∈ coded) (cs rest : List Char) :
    decode (encode coded cs ++ rest) = cs.flatMap String.utf8EncodeChar ++ decode rest := by
  induction cs with
  | nil => rfl
  | cons c cs ih =>
    rw [encode, List.flatMap_cons, ← encode, List.append_assoc, decode_encodeChar hcoded, ih,
      List.flatMap_cons, List.append_assoc]

/-- What a text is coded in is read back as the bytes of the text. -/
theorem decode_encode {coded : List Char} (hcoded : '%' ∈ coded) (cs : List Char) :
    decode (encode coded cs) = Text.bytes (String.ofList cs) := by
  have h := decode_encode_append hcoded cs []
  rwa [List.append_nil, decode, List.append_nil, ← Text.bytes_ofList] at h

/-- Different texts are encoded differently, where the percent sign is. -/
theorem encode_inj {coded : List Char} (hcoded : '%' ∈ coded) {cs ds : List Char} :
    encode coded cs = encode coded ds ↔ cs = ds := by
  refine ⟨fun h => ?_, congrArg _⟩
  have hbytes := congrArg decode h
  rw [decode_encode hcoded, decode_encode hcoded, Text.bytes_inj] at hbytes
  exact String.ofList_injective hbytes

/-- The characters that coded bytes are written in. -/
def codeChars : List Char := "%0123456789ABCDEF".toList

/-- An encoded byte consists of the percent sign and hexadecimal digits. -/
theorem mem_encodeByte {b : UInt8} {c : Char} (h : c ∈ encodeByte b) : c ∈ codeChars := by
  have all : ∀ n : Fin 16, Text.hexDigit 'A' n.1 ∈ codeChars := by decide
  have hb : b.toNat < 256 := b.toNat_lt
  simp only [encodeByte, List.mem_cons, List.not_mem_nil, or_false] at h
  rcases h with rfl | rfl | rfl
  · decide
  · exact all ⟨b.toNat / 16, by omega⟩
  · exact all ⟨b.toNat % 16, by omega⟩

/-- A coded text holds nothing but codes and the characters that are not coded. -/
theorem mem_encode {coded cs : List Char} {c : Char} (h : c ∈ encode coded cs) :
    c ∈ codeChars ∨ c ∈ cs ∧ c ∉ coded := by
  obtain ⟨d, hd, hc⟩ := List.mem_flatMap.1 h
  unfold encodeChar at hc
  split_ifs at hc with hcoded
  · obtain ⟨b, -, hb⟩ := List.mem_flatMap.1 hc
    exact .inl (mem_encodeByte hb)
  · obtain rfl := List.mem_singleton.1 hc
    refine .inr ⟨hd, fun hmem => hcoded ?_⟩
    simp [hmem]

end Percent

namespace Url

/-! ## Paths and their texts -/

/-- A text can stand between two slashes of a path. A backslash is read as a slash. -/
def IsSegment (cs : List Char) : Prop := '/' ∉ cs ∧ '\\' ∉ cs

/-- The text of a path, in which a slash opens every segment. -/
def pathText (path : List (List Char)) : List Char := path.flatMap ('/' :: ·)

/-- A path is written with a slash before each of its segments. -/
theorem pathText_cons (s : List Char) (rest : List (List Char)) :
    pathText (s :: rest) = '/' :: ['/'].intercalate (s :: rest) := by
  induction rest generalizing s with
  | nil => simp [pathText]
  | cons t rest ih =>
    have htail := ih t
    rw [pathText, List.flatMap_cons, ← pathText, htail]
    simp [List.intercalate]

/-- A path has a segment, and none of its segments is a text of several. -/
structure IsPath (path : List (List Char)) : Prop where
  nonempty : path ≠ []
  segments : ∀ s ∈ path, IsSegment s

/-- The segments of a path can be read off its text. -/
theorem segments_pathText {path : List (List Char)} (h : IsPath path) :
    segments (pathText path) = path := by
  obtain ⟨s, rest, rfl⟩ := List.exists_cons_of_ne_nil h.nonempty
  have hplain : ∀ c ∈ pathText (s :: rest), c ≠ '\\' := by
    rintro c hc rfl
    obtain ⟨t, ht, hmem⟩ := List.mem_flatMap.1 hc
    rcases List.mem_cons.1 hmem with heq | hmem
    · exact absurd heq (by decide)
    · exact (h.segments t ht).2 hmem
  have hmap : (pathText (s :: rest)).map (fun c => if c == '\\' then '/' else c) =
      pathText (s :: rest) := by
    refine (List.map_congr_left fun c hc => ?_).trans (List.map_id _)
    simp [hplain c hc]
  rw [segments, hmap, pathText_cons]
  exact List.splitOn_intercalate '/' (fun t ht => (h.segments t ht).1) (List.cons_ne_nil s rest)

/-- The pieces between slashes are segments. -/
theorem isSegment_of_mem_segments {cs s : List Char} (h : s ∈ segments cs) : IsSegment s := by
  have hplain : ∀ c ∈ cs.map (fun c => if c == '\\' then '/' else c), c ≠ '\\' := by
    intro c hc
    obtain ⟨d, -, rfl⟩ := List.mem_map.1 hc
    split_ifs with hd
    · decide
    · simpa using hd
  unfold segments at h
  simp only at h
  split at h
  · rename_i rest hrest
    rw [hrest] at hplain
    exact ⟨fun hc => (Text.mem_of_mem_splitOn s h _ hc).2 rfl,
      fun hc => hplain _ (List.mem_cons_of_mem _ (Text.mem_of_mem_splitOn s h _ hc).1) rfl⟩
  · exact ⟨fun hc => (Text.mem_of_mem_splitOn s h _ hc).2 rfl,
      fun hc => hplain _ (Text.mem_of_mem_splitOn s h _ hc).1 rfl⟩

/-- Coding keeps a segment a segment. -/
theorem isSegment_encode {coded cs : List Char} (h : ∀ c ∈ ['/', '\\'], c ∈ coded ∨ c ∉ cs) :
    IsSegment (Percent.encode coded cs) := by
  have hnone {c : Char} (hcode : c ∉ Percent.codeChars) (hcs : c ∈ coded ∨ c ∉ cs) :
      c ∉ Percent.encode coded cs := by
    intro hmem
    rcases Percent.mem_encode hmem with hmem | ⟨hmem, hplain⟩
    · exact hcode hmem
    · exact hcs.elim hplain fun hnot => hnot hmem
  exact ⟨hnone (by decide) (h _ (by decide)), hnone (by decide) (h _ (by decide))⟩

/-- The empty text is a segment. -/
theorem isSegment_nil : IsSegment [] := ⟨List.not_mem_nil, List.not_mem_nil⟩

/-- Following segments leads to a path of segments. -/
theorem isSegment_of_mem_follow {place segs : List (List Char)} (hplace : ∀ s ∈ place, IsSegment s)
    (hsegs : ∀ s ∈ segs, IsSegment s) : ∀ s ∈ follow place segs, IsSegment s := by
  have hending (rest : List (List Char)) :
      ∀ s ∈ (if rest.isEmpty then [[]] else [] : List (List Char)), IsSegment s := by
    intro s hs
    split_ifs at hs
    · obtain rfl := List.mem_singleton.1 hs
      exact isSegment_nil
    · exact absurd hs List.not_mem_nil
  fun_induction follow place segs with
  | case1 place => exact hplace
  | case2 place segment rest ending habove ih =>
    refine ih (fun s hs => ?_) fun s hs => hsegs s (List.mem_cons_of_mem _ hs)
    exact (List.mem_append.1 hs).elim (fun hs => hplace s (List.dropLast_subset _ hs)) (hending rest s)
  | case3 place segment rest ending habove hhere ih =>
    refine ih (fun s hs => ?_) fun s hs => hsegs s (List.mem_cons_of_mem _ hs)
    exact (List.mem_append.1 hs).elim (hplace s) (hending rest s)
  | case4 place segment rest habove hhere ih =>
    refine ih (fun s hs => ?_) fun s hs => hsegs s (List.mem_cons_of_mem _ hs)
    rcases List.mem_append.1 hs with hs | hs
    · exact hplace s hs
    · obtain rfl := List.mem_singleton.1 hs
      have hsegment := hsegs segment List.mem_cons_self
      exact isSegment_encode (by simpa using ⟨.inr hsegment.1, .inr hsegment.2⟩)

/-- Following segments leads to a path. -/
theorem follow_ne_nil {place segs : List (List Char)} (h : segs ≠ []) : follow place segs ≠ [] := by
  have hplace (place segs : List (List Char)) : segs = [] → place ≠ [] → follow place segs ≠ [] := by
    rintro rfl hplace
    rwa [follow]
  fun_induction follow place segs with
  | case1 place => exact absurd rfl h
  | case2 place segment rest ending habove ih =>
    by_cases hrest : rest = []
    · refine hplace _ _ hrest ?_
      simp [ending, hrest]
    · exact ih hrest
  | case3 place segment rest ending habove hhere ih =>
    by_cases hrest : rest = []
    · refine hplace _ _ hrest ?_
      simp [ending, hrest]
    · exact ih hrest
  | case4 place segment rest habove hhere ih =>
    by_cases hrest : rest = []
    · exact hplace _ _ hrest (by simp)
    · exact ih hrest

/-- The path of an address that was read. -/
theorem isPath_of_ofText? {text : String} {u : Url} (h : ofText? text = some u) : IsPath u.path := by
  have hpart {scheme : String} {cs : List Char} (h : ofSchemePart? scheme cs = some u) :
      ∃ ds, u.path = follow [] (segments ds) := by
    unfold ofSchemePart? at h
    simp only [Option.bind_eq_bind, Option.pure_def] at h
    split at h
    · cases h
    · obtain ⟨host, -, h⟩ := Option.bind_eq_some_iff.1 h
      obtain ⟨port, -, h⟩ := Option.bind_eq_some_iff.1 h
      obtain rfl := Option.some.inj h
      exact ⟨_, rfl⟩
  obtain ⟨ds, hds⟩ : ∃ ds, u.path = follow [] (segments ds) := by
    unfold ofText? at h
    simp only at h
    split at h
    · exact hpart h
    · exact hpart h
    · cases h
  rw [hds]
  refine ⟨follow_ne_nil ?_, isSegment_of_mem_follow (by simp) fun s hs => isSegment_of_mem_segments hs⟩
  exact List.splitOn_ne_nil _ _

/-! ## Adding a segment -/

/-- What a text is read as when it is added to a path. -/
inductive Reading where
  /-- it is passed over -/
  | passed
  /-- it leads up, to the place above -/
  | above
  /-- it is a segment, with this text -/
  | segment (cs : List Char)
deriving DecidableEq

/-- A text is neither a dot segment nor does it have line breaks or tabs. -/
def IsPlain (s : String) : Prop := s ≠ "." ∧ s ≠ ".." ∧ ∀ c ∈ s.toList, isBreak c = false

namespace Reading

/-- What a text is read as. `.` and `..` are passed over as they stand; where line breaks hide them, they
lead to the current place or to the one above. -/
def ofText (s : String) : Reading :=
  let cs := s.toList.filter fun c => !isBreak c
  if s = "." ∨ s = ".." then passed
  else if cs = ['.', '.'] then above
  else if cs = ['.'] then segment []
  else segment cs

/-- The path after what was read. -/
def addTo (place : List (List Char)) : Reading → List (List Char)
  | passed => place
  | above => place.dropLast ++ [[]]
  | segment cs => place ++ [Percent.encode Percent.inSegment cs]

/-- What is added behind a path leaves the place before it. -/
theorem addTo_append (place path : List (List Char)) (hpath : path ≠ []) (r : Reading) :
    r.addTo (place ++ path) = place ++ r.addTo path := by
  cases r with
  | passed => rfl
  | above => rw [addTo, addTo, List.dropLast_append_of_ne_nil hpath, List.append_assoc]
  | segment cs => rw [addTo, addTo, List.append_assoc]

/-- Adding to a path keeps it one of segments. -/
theorem isSegment_of_mem_addTo {path : List (List Char)} (h : ∀ s ∈ path, IsSegment s) (r : Reading) :
    ∀ s ∈ r.addTo path, IsSegment s := by
  cases r with
  | passed => exact h
  | above =>
    refine List.forall_mem_append.2 ⟨fun s hs => h s (List.dropLast_subset _ hs), ?_⟩
    exact List.forall_mem_singleton.2 isSegment_nil
  | segment cs =>
    refine List.forall_mem_append.2 ⟨h, List.forall_mem_singleton.2 (isSegment_encode ?_)⟩
    simp [Percent.inSegment]

/-- A text is read as itself unless it is a dot segment or has line breaks. -/
theorem ofText_eq_segment_iff {s : String} : ofText s = segment s.toList ↔ IsPlain s := by
  have hkept : s.toList.filter (fun c => !isBreak c) = s.toList ↔
      ∀ c ∈ s.toList, isBreak c = false := by
    simp [List.filter_eq_self]
  have hdot : s.toList = ['.'] → s = "." := fun h => String.toList_inj.1 h
  have htwo : s.toList = ['.', '.'] → s = ".." := fun h => String.toList_inj.1 h
  unfold ofText IsPlain
  simp only
  split_ifs with hdots habove hhere
  · refine ⟨nofun, ?_⟩
    rintro ⟨hone, htwo, -⟩
    exact absurd hdots (not_or.2 ⟨hone, htwo⟩)
  · refine ⟨nofun, ?_⟩
    rintro ⟨-, hne, hplain⟩
    rw [hkept.2 hplain] at habove
    exact absurd (htwo habove) hne
  · constructor
    · intro h
      rw [← segment.inj h] at hhere
      cases hhere
    · rintro ⟨hne, -, hplain⟩
      rw [hkept.2 hplain] at hhere
      exact absurd (hdot hhere) hne
  · rw [segment.injEq, hkept]
    tauto

end Reading

/-- The address with another path. -/
def withPath (u : Url) (path : List (List Char)) : Url := { u with path := path }

/-- The segments that others are added behind: none for the path of an address without one. -/
def place (u : Url) : List (List Char) := if u.path = [[]] then [] else u.path

/-- The place of any path but the empty one is that path. -/
theorem place_of_ne {u : Url} (h : u.path ≠ [[]]) : u.place = u.path := if_neg h

/-- A segment that is not passed over is added to the place of the path. -/
theorem addSegment_of_ne_passed {u : Url} {s : String} (h : Reading.ofText s ≠ .passed) :
    u.addSegment s = u.withPath ((Reading.ofText s).addTo u.place) := by
  unfold Reading.ofText at h ⊢
  unfold addSegment
  simp only [beq_iff_eq, Bool.or_eq_true] at h ⊢
  split_ifs at h ⊢ <;> simp_all [Reading.addTo, Percent.encode, place, withPath]

/-- A segment that is passed over leaves the URL as it is. -/
theorem addSegment_of_passed {u : Url} {s : String} (h : Reading.ofText s = .passed) :
    u.addSegment s = u := by
  unfold Reading.ofText at h
  unfold addSegment
  simp only [beq_iff_eq, Bool.or_eq_true] at h ⊢
  split_ifs at h ⊢
  rfl

/-- Behind other segments, a text is added as it is read. -/
theorem addSegment_withPath {u : Url} {path : List (List Char)} (h : path ≠ [[]]) (s : String) :
    (u.withPath path).addSegment s = u.withPath ((Reading.ofText s).addTo path) := by
  by_cases hs : Reading.ofText s = .passed
  · rw [addSegment_of_passed hs, hs]
    rfl
  · rw [addSegment_of_ne_passed hs, place_of_ne h]
    rfl

end Url

namespace TokenList

/-! ## Token lists -/

/-- The fixed segments in front of an originator. -/
def front : List (List Char) := ["api".toList, "v1".toList, "organizations".toList]

/-- The segments of an address, without an empty one at the end. -/
def openPath (u : Url) : List (List Char) :=
  if u.path.getLast? = some [] then u.path.dropLast else u.path

/-- An address lists the tokens of an originator below another address: its segments are those of the other
address, without an empty one at the end, and five more, of which the fourth codes the originator. -/
def Lists (base : Url) (originator : String) (u : Url) : Prop :=
  ∃ x, u.path = openPath base ++ (front ++ [x, "tokens".toList]) ∧
    Percent.decode x = Text.bytes originator

/-- Nothing is left of an address with two empty segments only. -/
theorem place_dropEmptyEnd (u : Url) :
    u.dropEmptyEnd.place = if u.path = [[], []] then [] else openPath u := by
  unfold Url.place Url.dropEmptyEnd openPath
  generalize u.path = path
  obtain rfl | ⟨before, last, rfl⟩ := List.eq_nil_or_concat path
  · simp
  · simp only [List.concat_eq_append, List.getLast?_concat, List.dropLast_concat]
    cases last with
    | nil => cases before <;> simp
    | cons c cs =>
      have hne (path : List (List Char)) : before ++ [c :: cs] ≠ path ++ [[]] := by
        intro h
        simpa using List.append_inj_right' h rfl
      have hone := hne []
      have htwo := hne [[]]
      simp_all

/-- The first fixed segment stays, whatever is added. -/
theorem mem_addTo_front (r : Url.Reading) : "api".toList ∈ r.addTo front := by
  cases r <;> simp [Url.Reading.addTo, front]

/-- A token list has the path of the trusted party, followed by the fixed segments with the originator as it
is read. -/
theorem url?_eq {trustedParty : String} {base : Url}
    (hbase : Url.ofText? (withScheme trustedParty) = some base) (originator : String) :
    url? trustedParty originator = some (base.withPath (base.dropEmptyEnd.place ++
      ((Url.Reading.ofText originator).addTo front ++ ["tokens".toList]))) := by
  generalize hpath : base.dropEmptyEnd.place = path
  -- behind "api" nothing is left of an address without segments
  have hne {tail : List (List Char)} (h : "api".toList ∈ tail) : path ++ tail ≠ [[]] := by
    intro heq
    have hmem : "api".toList ∈ [[]] := heq ▸ List.mem_append_right path h
    exact absurd hmem (by decide)
  have hapi : base.dropEmptyEnd.addSegment "api" = base.withPath (path ++ ["api".toList]) := by
    rw [Url.addSegment_of_ne_passed (by decide), hpath]
    rfl
  have hfixed (tail : List (List Char)) (s : String) (h : "api".toList ∈ tail)
      (hs : (Url.Reading.ofText s).addTo tail = tail ++ [s.toList]) :
      (base.withPath (path ++ tail)).addSegment s = base.withPath (path ++ (tail ++ [s.toList])) := by
    rw [Url.addSegment_withPath (hne h), Url.Reading.addTo_append _ _ (List.ne_nil_of_mem h), hs]
  have horiginator : (base.withPath (path ++ front)).addSegment originator =
      base.withPath (path ++ (Url.Reading.ofText originator).addTo front) := by
    rw [Url.addSegment_withPath (hne (by decide)), Url.Reading.addTo_append _ _ (by decide)]
  rw [url?, hbase, Option.map_some, List.foldl_cons, hapi, List.foldl_cons,
    hfixed _ "v1" (by decide) (by decide), List.foldl_cons,
    hfixed _ "organizations" (by decide) (by decide), List.foldl_cons]
  change some (List.foldl Url.addSegment ((base.withPath (path ++ front)).addSegment originator) ["tokens"]) = _
  rw [horiginator, List.foldl_cons, List.foldl_nil,
    hfixed _ "tokens" (mem_addTo_front _) rfl]

/-- A token list lists the tokens of the originator just if the originator is read as itself and the
address is none with two empty segments only. -/
theorem lists_iff {base u : Url} {originator : String}
    (hu : u.path = base.dropEmptyEnd.place ++
      ((Url.Reading.ofText originator).addTo front ++ ["tokens".toList])) :
    Lists base originator u ↔
      base.path ≠ [[], []] ∧ Url.Reading.ofText originator = .segment originator.toList := by
  have hcoded : '%' ∈ Percent.inSegment := by decide
  rw [place_dropEmptyEnd] at hu
  unfold Lists
  rw [hu]
  split_ifs with hempty
  · -- the path of the list starts with "api", and that of the address with an empty segment
    refine iff_of_false ?_ fun h => h.1 hempty
    rintro ⟨x, hx, -⟩
    rw [List.nil_append, openPath, hempty] at hx
    cases hreading : Url.Reading.ofText originator <;>
      simp [hreading, Url.Reading.addTo, front] at hx
  · rw [and_iff_right hempty]
    constructor
    · rintro ⟨x, hx, hdecode⟩
      -- behind the same place, the segments of the list have to agree one by one
      have htail := List.append_cancel_left hx
      cases hreading : Url.Reading.ofText originator with
      | passed => simp [hreading, Url.Reading.addTo, front] at htail
      | above => simp [hreading, Url.Reading.addTo, front] at htail
      | segment cs =>
        obtain rfl : x = Percent.encode Percent.inSegment cs := by
          simpa [hreading, Url.Reading.addTo, front, eq_comm] using htail
        rw [Percent.decode_encode hcoded, Text.bytes_inj] at hdecode
        rw [← hdecode, String.toList_ofList]
    · intro hreading
      refine ⟨Percent.encode Percent.inSegment originator.toList, ?_, ?_⟩
      · rw [hreading]
        rfl
      · rw [Percent.decode_encode hcoded, String.ofList_toList]

/-- Behind the fixed segments, texts that are read differently make different paths. -/
theorem addTo_front_inj {r r' : Url.Reading} : r.addTo front = r'.addTo front ↔ r = r' := by
  have hcoded : '%' ∈ Percent.inSegment := by decide
  refine ⟨fun h => ?_, congrArg _⟩
  cases r <;> cases r' <;>
    simp_all [Url.Reading.addTo, front, Percent.encode_inj hcoded]

/-- The text of an address tells its path. -/
theorem toText_withPath_inj {u : Url} {path path' : List (List Char)} (h : Url.IsPath path)
    (h' : Url.IsPath path') : (u.withPath path).toText = (u.withPath path').toText ↔ path = path' := by
  refine ⟨fun heq => ?_, fun heq => by rw [heq]⟩
  have hchars := String.ofList_injective heq
  simp only [Url.withPath, List.append_assoc] at hchars
  have htext : Url.pathText path = Url.pathText path' := by
    simpa [Url.pathText] using hchars
  rw [← Url.segments_pathText h, htext, Url.segments_pathText h']

/-- The path of a token list is a path. -/
theorem isPath_listed {base : Url} (h : Url.IsPath base.path) (r : Url.Reading) :
    Url.IsPath (base.dropEmptyEnd.place ++ (r.addTo front ++ ["tokens".toList])) := by
  have hplace : ∀ s ∈ base.dropEmptyEnd.place, Url.IsSegment s := by
    rw [place_dropEmptyEnd, openPath]
    split_ifs
    · exact fun s hs => absurd hs List.not_mem_nil
    · exact fun s hs => h.segments s (List.dropLast_subset _ hs)
    · exact h.segments
  have hfixed : ∀ s ∈ "tokens".toList :: front, Url.IsSegment s := by
    unfold Url.IsSegment
    decide
  obtain ⟨htokens, hfront⟩ := List.forall_mem_cons.1 hfixed
  refine ⟨by simp, List.forall_mem_append.2 ⟨hplace, List.forall_mem_append.2 ⟨?_, ?_⟩⟩⟩
  · exact r.isSegment_of_mem_addTo hfront
  · exact List.forall_mem_singleton.2 htokens

/-- **The originator is one segment, unless it is read as something else.** For every originator, a trusted
party with an address has a token list, which differs from the address in the path only, and whose segments
can be read off its text. These are the segments of the address, without an empty one at the end, and five
more, of which the fourth codes the originator, if and only if the address is none with two empty segments
only, and the originator is neither a dot segment nor has line breaks or tabs. Two originators have the same
token list if and only if they are read alike; so two that are plain have not. -/
theorem one_segment_iff {trustedParty : String} {base : Url}
    (hbase : Url.ofText? (withScheme trustedParty) = some base) :
    (∀ originator, ∃ u, url? trustedParty originator = some u ∧ u = base.withPath u.path ∧
      Url.segments (Url.pathText u.path) = u.path ∧
      (Lists base originator u ↔ base.path ≠ [[], []] ∧ Url.IsPlain originator)) ∧
    (∀ originator other,
      (url? trustedParty originator).map Url.toText = (url? trustedParty other).map Url.toText ↔
        Url.Reading.ofText originator = Url.Reading.ofText other) ∧
    ∀ originator other, Url.IsPlain originator → Url.IsPlain other →
      (url? trustedParty originator).map Url.toText = (url? trustedParty other).map Url.toText →
        originator = other := by
  have hpath (originator : String) :=
    isPath_listed (Url.isPath_of_ofText? hbase) (.ofText originator)
  have hsame (originator other : String) :
      (url? trustedParty originator).map Url.toText = (url? trustedParty other).map Url.toText ↔
        Url.Reading.ofText originator = Url.Reading.ofText other := by
    rw [url?_eq hbase, url?_eq hbase, Option.map_some, Option.map_some, Option.some.injEq,
      toText_withPath_inj (hpath originator) (hpath other), List.append_right_inj, List.append_left_inj,
      addTo_front_inj]
  refine ⟨fun originator => ⟨_, url?_eq hbase originator, rfl, ?_, ?_⟩, hsame, ?_⟩
  · exact Url.segments_pathText (hpath originator)
  · rw [lists_iff rfl, Url.Reading.ofText_eq_segment_iff]
  · intro originator other hplain hother h
    have hreading := (hsame originator other).1 h
    rw [Url.Reading.ofText_eq_segment_iff.2 hplain, Url.Reading.ofText_eq_segment_iff.2 hother,
      Url.Reading.segment.injEq] at hreading
    exact String.toList_inj.1 hreading

/-- The address of a registry below the root of its host. -/
def registry : Url := ⟨"https", none, "tp.example".toList, none, ["registry".toList], none, none⟩

/-- An originator with a slash, a question mark and a percent sign is one segment behind the registry, and
has another token list than the start of it. -/
theorem registry_one_segment :
    ∃ u, url? "https://tp.example/registry/" "acme/100%?x" = some u ∧ Lists registry "acme/100%?x" u ∧
      u.toText = "https://tp.example/registry/api/v1/organizations/acme%2F100%25%3Fx/tokens" ∧
      (url? "https://tp.example/registry/" "acme").map Url.toText ≠ some u.toText := by
  have hbase : Url.ofText? (withScheme "https://tp.example/registry/") = some registry := by
    decide +kernel
  have hplain : Url.IsPlain "acme/100%?x" ∧ Url.IsPlain "acme" := by
    rw [← Url.Reading.ofText_eq_segment_iff, ← Url.Reading.ofText_eq_segment_iff]
    decide
  obtain ⟨hlists, -, hdifferent⟩ := one_segment_iff hbase
  obtain ⟨u, hu, -, -, hiff⟩ := hlists "acme/100%?x"
  have htext : (url? "https://tp.example/registry/" "acme/100%?x").map Url.toText =
      some "https://tp.example/registry/api/v1/organizations/acme%2F100%25%3Fx/tokens" := by
    decide +kernel
  rw [hu, Option.map_some, Option.some.injEq] at htext
  refine ⟨u, hu, hiff.2 ⟨by decide, hplain.1⟩, htext, fun hsame => ?_⟩
  have hnames := hdifferent "acme" "acme/100%?x" hplain.2 hplain.1 (by rw [hsame, hu, Option.map_some])
  exact absurd hnames (by decide)

/-- An originator need not be one segment, nor need different originators have different token lists: a tab
is dropped. -/
theorem not_forall_one_segment :
    (¬∀ (trustedParty originator : String) (base u : Url),
      Url.ofText? (withScheme trustedParty) = some base → url? trustedParty originator = some u →
        Lists base originator u) ∧
    ¬∀ (trustedParty originator other : String) (u : Url), url? trustedParty originator = some u →
      url? trustedParty other = some u → originator = other := by
  have hbase : Url.ofText? (withScheme "https://tp.example/registry/") = some registry := by
    decide +kernel
  constructor
  · intro h
    have hu := url?_eq hbase "a\tb"
    have hreading := (lists_iff rfl).1 (h _ _ _ _ hbase hu)
    exact absurd hreading.2 (by decide)
  · intro h
    have hsame := h "https://tp.example/registry/" "a\tb" "ab" _ (url?_eq hbase "a\tb")
      (url?_eq hbase "ab")
    exact absurd hsame (by decide)

end TokenList

end ProvenanceTrail
