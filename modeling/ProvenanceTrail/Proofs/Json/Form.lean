import ProvenanceTrail.Json.Form
import ProvenanceTrail.Proofs.Json.Reading

/-!
# Values held against forms

`Form.Leaves` says what is kept of a value that is held against a form, whatever comes after it. Of any value
everything is kept, or nothing inside one that is skipped (`Form.leaves_part`). What is kept of lists and of
records is put together from their items and members (`Form.leaves_list`, `Form.leaves_record`). So a value
is read from its own text as what is kept of it (`Json.readAs?_render`).

In the other direction a form adds nothing to a text, so that what is read is nested no deeper than without
the form and has only numbers of the format (`Json.readAs?_within`).
-/

namespace ProvenanceTrail

open Json (Lexeme Within itemLexemes memberLexemes)

namespace Form

variable {P : JsonNumber → Prop} {d : Nat} {v w : Json} {items : List Json} {members : List (String × Json)}
  {form item : Form} {fields : Fields} {seen : List String} {task : Task} {tasks more : List Task}
  {l : Lexeme} {ls rest out : List Lexeme}

/-- What is kept of a value of a form, whatever comes after it. -/
def Leaves (form : Form) (v : Json) (kept : List Lexeme) : Prop :=
  ∀ tasks rest out, run tasks rest = .ok out → run (.value form :: tasks) (v.lexemes ++ rest) = .ok (kept ++ out)

/-- What is kept of lexemes that belong to the items of a form. -/
def keptIn (item : Form) (ls : List Lexeme) : List Lexeme :=
  match item with
  | .hidden => []
  | _ => ls

/-- What is kept of two stretches is kept of each. -/
theorem keptIn_append (item : Form) (ls rest : List Lexeme) :
    item.keptIn (ls ++ rest) = item.keptIn ls ++ item.keptIn rest := by
  cases item <;> rfl

/-- All is kept but of what is hidden. -/
theorem keptIn_of_ne (h : item ≠ .hidden) (ls : List Lexeme) : item.keptIn ls = ls := by
  cases item <;> first | rfl | exact absurd rfl h

/-- One task is done with one lexeme. -/
theorem run_cons (hstep : step l task = .ok more) (h : run (more ++ tasks) ls = .ok out) :
    run (task :: tasks) (l :: ls) = .ok (task.kept l ++ out) := by
  rw [run, hstep]
  simp only [bind, Except.bind, h]
  rfl

/-- A lexeme with which a task is over. -/
theorem run_last (hstep : step l task = .ok []) (h : run tasks ls = .ok out) :
    run (task :: tasks) (l :: ls) = .ok (task.kept l ++ out) :=
  run_cons hstep h

/-- A lexeme that leaves one thing to be done. -/
theorem run_next {next : Task} (hstep : step l task = .ok [next]) (h : run (next :: tasks) ls = .ok out) :
    run (task :: tasks) (l :: ls) = .ok (task.kept l ++ out) :=
  run_cons hstep h

/-- What was done with a lexeme was one task. -/
theorem exists_of_run (h : run (task :: tasks) (l :: ls) = .ok out) :
    ∃ more kept, step l task = .ok more ∧ run (more ++ tasks) ls = .ok kept ∧ out = task.kept l ++ kept := by
  rw [run] at h
  cases hstep : step l task with
  | error e =>
    rw [hstep] at h
    cases h
  | ok more =>
    cases hmore : run (more ++ tasks) ls with
    | error e =>
      simp only [hstep, bind, Except.bind, hmore] at h
      cases h
    | ok kept =>
      simp only [hstep, bind, Except.bind, hmore, pure, Except.pure, Except.ok.injEq] at h
      exact ⟨more, kept, rfl, hmore, h.symm⟩

/-- A task keeps what its form does. -/
def KeepsAs (task : Task) (item : Form) : Prop :=
  ∀ l ls, task.kept l ++ item.keptIn ls = item.keptIn (l :: ls)

/-- A task keeps as a form does where it keeps every single lexeme as that form. -/
theorem KeepsAs.of_kept (h : ∀ l, task.kept l = item.keptIn [l]) : KeepsAs task item := by
  intro l ls
  rw [h, ← keptIn_append, List.singleton_append]

/-- A lexeme that starts further tasks is kept before what these keep. -/
theorem KeepsAs.run_cons (hkeeps : KeepsAs task item) (hstep : step l task = .ok more)
    (h : run (more ++ tasks) rest = .ok (item.keptIn ls ++ out)) :
    run (task :: tasks) (l :: rest) = .ok (item.keptIn (l :: ls) ++ out) := by
  rw [Form.run_cons hstep h, ← List.append_assoc, hkeeps]

/-- A lexeme that finishes its task is kept before what the other tasks keep. -/
theorem KeepsAs.run_last (hkeeps : KeepsAs task item) (hstep : step l task = .ok [])
    (h : run tasks rest = .ok out) : run (task :: tasks) (l :: rest) = .ok (item.keptIn [l] ++ out) := by
  have hnil : item.keptIn [] = [] := by cases item <;> rfl
  refine hkeeps.run_cons hstep ?_
  rwa [hnil]

/-- A value whose lexemes are left as they are is passed before the other tasks run. -/
theorem Leaves.run_append (h : Leaves item v (item.keptIn v.lexemes))
    (hrun : run tasks rest = .ok (item.keptIn ls ++ out)) :
    run (.value item :: tasks) (v.lexemes ++ rest) = .ok (item.keptIn (v.lexemes ++ ls) ++ out) := by
  rw [h _ _ _ hrun, keptIn_append, List.append_assoc]

/-! ## Lists and objects with any keys -/

/-- The first item of a list is held against its form as any other. -/
theorem run_firstItem (hitem : item ≠ .skipped) :
    run (.firstItem item :: tasks) (v.lexemes ++ rest) =
      run (.value item :: .moreItems item :: tasks) (v.lexemes ++ rest) := by
  obtain ⟨l, ls, hv, hl⟩ : ∃ l ls, v.lexemes = l :: ls ∧ l ≠ .closeBracket := by
    rcases v with _ | _ | _ | _ | (_ | ⟨_, _⟩) | (_ | ⟨⟨_, _⟩, _⟩) <;> simp [Json.lexemes]
  have hkept : (Task.firstItem item).kept l = (Task.value item).kept l := by
    cases item <;> first | rfl | exact absurd rfl hitem
  rw [hv, List.cons_append, run, run, step, step, if_neg hl, hkept]
  cases start l item with
  | error e => rfl
  | ok more => simp [Except.map, bind, Except.bind]

/-- The items after the first one. -/
theorem run_moreItems (h : ∀ v ∈ items, Leaves item v (item.keptIn v.lexemes)) (hrun : run tasks rest = .ok out) :
    run (.moreItems item :: tasks) (itemLexemes items ++ rest) = .ok (item.keptIn (itemLexemes items) ++ out) := by
  have hkeeps : KeepsAs (.moreItems item) item := .of_kept fun _ => by cases item <;> rfl
  induction items with
  | nil => exact hkeeps.run_last rfl hrun
  | cons v items ih =>
    have hitems := ih fun w hw => h w (List.mem_cons_of_mem _ hw)
    rw [itemLexemes, List.cons_append, List.append_assoc]
    exact hkeeps.run_cons rfl ((h v List.mem_cons_self).run_append hitems)

/-- The items of an array, as long as they are held against a form that does not skip them. -/
theorem run_array (hitem : item ≠ .skipped) (h : ∀ v ∈ items, Leaves item v (item.keptIn v.lexemes))
    (hrun : run tasks rest = .ok out) :
    ∃ ls, (Json.array items).lexemes = .openBracket :: ls ∧
      run (.firstItem item :: tasks) (ls ++ rest) = .ok (item.keptIn ls ++ out) := by
  cases items with
  | nil =>
    have hkeeps : KeepsAs (.firstItem item) item :=
      .of_kept fun _ => by cases item <;> rfl
    exact ⟨[.closeBracket], rfl, hkeeps.run_last rfl hrun⟩
  | cons v items =>
    have hitems := run_moreItems (fun w hw => h w (List.mem_cons_of_mem _ hw)) hrun
    refine ⟨v.lexemes ++ itemLexemes items, rfl, ?_⟩
    rw [List.append_assoc, run_firstItem hitem]
    exact (h v List.mem_cons_self).run_append hitems

/-- A member of an object with any keys. -/
theorem run_entry (task : Task) (key : String) (htask : step (.string key) task = startEntry (.string key) item)
    (hkeeps : KeepsAs task item) (h : Leaves item v (item.keptIn v.lexemes))
    (hrun : run (.moreEntries item :: tasks) rest = .ok (item.keptIn ls ++ out)) :
    run (task :: tasks) (.string key :: .colon :: (v.lexemes ++ rest)) =
      .ok (item.keptIn (.string key :: .colon :: (v.lexemes ++ ls)) ++ out) := by
  have hcolon : KeepsAs (.entryColon item) item := .of_kept fun _ => by cases item <;> rfl
  exact hkeeps.run_cons htask (hcolon.run_cons rfl (h.run_append hrun))

/-- The members after the first one of an object with any keys. -/
theorem run_moreEntries (h : ∀ m ∈ members, Leaves item m.2 (item.keptIn m.2.lexemes))
    (hrun : run tasks rest = .ok out) :
    run (.moreEntries item :: tasks) (memberLexemes members ++ rest) =
      .ok (item.keptIn (memberLexemes members) ++ out) := by
  have hkeeps : KeepsAs (.moreEntries item) item := .of_kept fun _ => by cases item <;> rfl
  induction members with
  | nil => exact hkeeps.run_last rfl hrun
  | cons m members ih =>
    have hmembers := ih fun w hw => h w (List.mem_cons_of_mem _ hw)
    have hentry := run_entry (.entry item) m.1 rfl (.of_kept fun _ => by cases item <;> rfl)
      (h m List.mem_cons_self) hmembers
    simp only [memberLexemes, List.cons_append, List.append_assoc]
    exact hkeeps.run_cons rfl hentry

/-- The members of an object with any keys. -/
theorem run_entries (h : ∀ m ∈ members, Leaves item m.2 (item.keptIn m.2.lexemes))
    (hrun : run tasks rest = .ok out) :
    ∃ ls, (Json.object members).lexemes = .openBrace :: ls ∧
      run (.firstEntry item :: tasks) (ls ++ rest) = .ok (item.keptIn ls ++ out) := by
  have hkeeps : KeepsAs (.firstEntry item) item := .of_kept fun _ => by cases item <;> rfl
  cases members with
  | nil => exact ⟨[.closeBrace], rfl, hkeeps.run_last rfl hrun⟩
  | cons m members =>
    have hmembers := run_moreEntries (fun w hw => h w (List.mem_cons_of_mem _ hw)) hrun
    have hentry := run_entry _ m.1 rfl hkeeps (h m List.mem_cons_self) hmembers
    exact ⟨.string m.1 :: .colon :: (m.2.lexemes ++ memberLexemes members), rfl, by
      simpa only [List.cons_append, List.append_assoc] using hentry⟩

/-- A value where any value may stand is kept as it is, and nothing of it inside one that is skipped. -/
theorem leaves_part (hv : Within P d v) (hform : form = .anything ∨ form = .hidden) :
    Leaves form v (form.keptIn v.lexemes) := by
  have hkeeps : KeepsAs (.value form) form := .of_kept fun _ => by rcases hform with rfl | rfl <;> rfl
  have hskipped : form ≠ .skipped := by rcases hform with rfl | rfl <;> simp
  induction hv with
  | null | bool | number | string =>
    exact fun tasks rest out hrun => hkeeps.run_last (by rcases hform with rfl | rfl <;> rfl) hrun
  | array h ih =>
    intro tasks rest out hrun
    obtain ⟨ls, hls, hitems⟩ := run_array hskipped ih hrun
    rw [hls]
    refine hkeeps.run_cons (show step _ _ = .ok [.firstItem form] from ?_) hitems
    rcases hform with rfl | rfl <;> rfl
  | object h ih =>
    intro tasks rest out hrun
    obtain ⟨ls, hls, hmembers⟩ := run_entries ih hrun
    rw [hls]
    refine hkeeps.run_cons (show step _ _ = .ok [.firstEntry form] from ?_) hmembers
    rcases hform with rfl | rfl <;> rfl

/-- Any value is kept where any value may stand. -/
theorem leaves_anything (hv : Within P d v) : Leaves .anything v v.lexemes := leaves_part hv (.inl rfl)

/-- A value that is skipped leaves a `null`. -/
theorem leaves_skipped (hv : Within P d v) : Leaves .skipped v (Json.null).lexemes := by
  intro tasks rest out hrun
  have hhidden := leaves_part hv (.inr rfl) tasks rest out hrun
  obtain ⟨l, ls, hls⟩ : ∃ l ls, v.lexemes = l :: ls := by
    rcases v with _ | _ | _ | _ | (_ | ⟨_, _⟩) | (_ | ⟨⟨_, _⟩, _⟩) <;> simp [Json.lexemes]
  rw [hls, List.cons_append] at hhidden ⊢
  -- the first lexeme leaves the same to be done as inside a value that is skipped
  obtain ⟨more, kept, hstep, hmore, hkept⟩ := exists_of_run hhidden
  have hstep' : step l (.value .skipped) = .ok more := hstep
  rw [run_cons hstep' hmore, show kept = out from hkept.symm]
  rfl

/-! ## Forms -/

/-- A text is kept. -/
@[simp]
theorem leaves_text (s : String) : Leaves .text (.string s) (Json.string s).lexemes :=
  fun _ _ _ hrun => run_last rfl hrun

/-- A truth value is kept. -/
@[simp]
theorem leaves_flag (b : Bool) : Leaves .flag (.bool b) (Json.bool b).lexemes :=
  fun _ _ _ hrun => run_last rfl hrun

/-- A word of the vocabulary is kept. -/
theorem leaves_word {vocabulary : List String} {s : String} (h : s ∈ vocabulary) :
    Leaves (.word vocabulary) (.string s) (Json.string s).lexemes := by
  refine fun tasks rest out hrun => run_last ?_ hrun
  rw [step, start, require, if_pos (List.contains_iff_mem.2 h)]

/-- What may be missing is kept when it is `null`. -/
@[simp]
theorem leaves_optional_null (form : Form) : Leaves (.optional form) .null (Json.null).lexemes :=
  fun _ _ _ hrun => run_last rfl hrun

/-- What may be missing is kept as it is when it is there. -/
theorem Leaves.optional (hskipped : form ≠ .skipped) (hhidden : form ≠ .hidden) (hv : v ≠ .null)
    (h : Leaves form v v.lexemes) : Leaves (.optional form) v v.lexemes := by
  intro tasks rest out hrun
  have hvalue := h tasks rest out hrun
  obtain ⟨l, ls, hls, hl⟩ : ∃ l ls, v.lexemes = l :: ls ∧ l ≠ .null := by
    rcases v with _ | _ | _ | _ | (_ | ⟨_, _⟩) | (_ | ⟨⟨_, _⟩, _⟩) <;> simp [Json.lexemes] at hv ⊢
  have hkept : (Task.value form).kept l = [l] := by
    cases form <;> first | rfl | exact absurd rfl hskipped | exact absurd rfl hhidden
  rw [hls, List.cons_append] at hvalue ⊢
  obtain ⟨more, kept, hstep, hmore, hout⟩ := exists_of_run hvalue
  have hstep' : step l (.value (.optional form)) = .ok more := by
    rw [step, start, if_neg hl]
    exact hstep
  rw [run_cons hstep' hmore, hout, hkept]
  rfl

/-- A list is kept when its items are. -/
theorem leaves_list (hskipped : item ≠ .skipped) (hhidden : item ≠ .hidden)
    (h : ∀ v ∈ items, Leaves item v v.lexemes) : Leaves (.list item) (.array items) (Json.array items).lexemes := by
  intro tasks rest out hrun
  obtain ⟨ls, hls, hitems⟩ := run_array hskipped
    (fun v hv => (keptIn_of_ne hhidden v.lexemes).symm ▸ h v hv) hrun
  rw [keptIn_of_ne hhidden] at hitems
  rw [hls]
  exact run_next rfl hitems

/-- What is written of a list is kept when it is of the items. -/
theorem leaves_list_map {α : Type} {write : α → Json} (hskipped : item ≠ .skipped) (hhidden : item ≠ .hidden)
    (h : ∀ a, Leaves item (write a) (write a).lexemes) (as : List α) :
    Leaves (.list item) (.array (as.map write)) (Json.array (as.map write)).lexemes :=
  leaves_list hskipped hhidden fun v hv => by
    obtain ⟨a, -, rfl⟩ := List.mem_map.1 hv
    exact h a

/-- What is written of a value that may be missing is kept when it is of the value. -/
theorem leaves_ofOption {α : Type} {write : α → Json} (hskipped : form ≠ .skipped) (hhidden : form ≠ .hidden)
    (hnull : ∀ a, write a ≠ .null) (h : ∀ a, Leaves form (write a) (write a).lexemes) (o : Option α) :
    Leaves (.optional form) (Json.ofOption write o) (Json.ofOption write o).lexemes := by
  cases o with
  | none => exact leaves_optional_null form
  | some a => exact (h a).optional hskipped hhidden (hnull a)

/-- An object with any keys is kept when its values are. -/
theorem leaves_entries (hhidden : item ≠ .hidden) (h : ∀ m ∈ members, Leaves item m.2 m.2.lexemes) :
    Leaves (.entries item) (.object members) (Json.object members).lexemes := by
  intro tasks rest out hrun
  obtain ⟨ls, hls, hmembers⟩ := run_entries
    (fun m hm => (keptIn_of_ne hhidden m.2.lexemes).symm ▸ h m hm) hrun
  rw [keptIn_of_ne hhidden] at hmembers
  rw [hls]
  exact run_next rfl hmembers

/-! ## Records -/

/-- A record has a field of a name and a form. -/
def HasField (fields : Fields) (name : String) (form : Form) : Prop :=
  ∃ needed, fields.find? (fun f => f.1 == name) = some (name, needed, form)

/-- The form of a field of a record. -/
def fieldForm (fields : Fields) (name : String) : Form :=
  ((fields.find? fun f => f.1 == name).map fun f => f.2.2).getD .anything

/-- The keys of members that a record may still have, of which some were seen: each is new, and with them no
field that must be there is missing. -/
structure Completes (fields : Fields) (seen keys : List String) : Prop where
  nodup : keys.Nodup
  fresh : ∀ key ∈ keys, key ∉ seen
  complete : ∀ f ∈ fields, f.2.1 = true → f.1 ∈ seen ∨ f.1 ∈ keys

/-- An object complete without a key is complete once this is seen. -/
theorem Completes.tail {key : String} {keys : List String} (h : Completes fields seen (key :: keys)) :
    Completes fields (key :: seen) keys := by
  obtain ⟨hkey, hnodup⟩ := List.nodup_cons.1 h.nodup
  refine ⟨hnodup, fun k hk => ?_, fun f hf hneeded => ?_⟩
  · rw [List.mem_cons, not_or]
    exact ⟨fun heq => hkey (heq ▸ hk), h.fresh k (List.mem_cons_of_mem _ hk)⟩
  · have := h.complete f hf hneeded
    simp only [List.mem_cons] at this ⊢
    tauto

/-- An object whose keys have all been seen may end. -/
theorem Completes.endMembers (h : Completes fields seen []) : endMembers fields seen = .ok [] := by
  rw [Form.endMembers, require, if_pos]
  rw [List.all_eq_true]
  intro f hf
  cases hneeded : f.2.1 with
  | false => rfl
  | true => simpa using h.complete f hf hneeded

variable {formOf : String → Form} {kept : String × Json → Json}

/-- A member of a record that was not seen yet. -/
theorem run_member (task : Task) {m : String × Json} {keys : List String}
    (htask : step (.string m.1) task = startMember fields seen m.1) (hkept : task.kept (.string m.1) = [.string m.1])
    (hfield : HasField fields m.1 (formOf m.1))
    (hkeys : Completes fields seen (m.1 :: keys)) (h : Leaves (formOf m.1) m.2 (kept m).lexemes)
    (hrun : run (.moreMembers fields (m.1 :: seen) :: tasks) rest = .ok out) :
    run (task :: tasks) (.string m.1 :: .colon :: (m.2.lexemes ++ rest)) =
      .ok (.string m.1 :: .colon :: ((kept m).lexemes ++ out)) := by
  obtain ⟨needed, hfind⟩ := hfield
  have hnew : m.1 ∉ seen := hkeys.fresh _ List.mem_cons_self
  have hcolon : step .colon (.colon (formOf m.1)) = .ok [.value (formOf m.1)] := rfl
  have hvalue := run_next hcolon (h _ _ _ hrun)
  have hstart : step (.string m.1) task = .ok [.colon (formOf m.1), .moreMembers fields (m.1 :: seen)] := by
    rw [htask, startMember, hfind]
    simp [require, hnew]
  rw [run_cons hstart hvalue, hkept]
  rfl

/-- The members after the first one of a record. -/
theorem run_moreMembers (hfields : ∀ m ∈ members, HasField fields m.1 (formOf m.1))
    (h : ∀ m ∈ members, Leaves (formOf m.1) m.2 (kept m).lexemes)
    (hkeys : Completes fields seen (members.map Prod.fst)) (hrun : run tasks rest = .ok out) :
    run (.moreMembers fields seen :: tasks) (memberLexemes members ++ rest) =
      .ok (memberLexemes (members.map fun m => (m.1, kept m)) ++ out) := by
  induction members generalizing seen with
  | nil => exact run_last hkeys.endMembers hrun
  | cons m members ih =>
    have hmembers := ih (fun m hm => hfields m (List.mem_cons_of_mem _ hm))
      (fun m hm => h m (List.mem_cons_of_mem _ hm)) hkeys.tail
    have hmember := run_member (.member fields seen) rfl rfl
      (hfields m List.mem_cons_self) hkeys (h m List.mem_cons_self) hmembers
    simp only [memberLexemes, List.map_cons, List.cons_append, List.append_assoc]
    exact run_next rfl hmember

/-- What is kept of a record is put together from what is kept of its members, each of which is a field. -/
theorem leaves_record (hfields : ∀ m ∈ members, HasField fields m.1 (formOf m.1))
    (h : ∀ m ∈ members, Leaves (formOf m.1) m.2 (kept m).lexemes)
    (hkeys : Completes fields [] (members.map Prod.fst)) :
    Leaves (.record fields) (.object members) (Json.object (members.map fun m => (m.1, kept m))).lexemes := by
  intro tasks rest out hrun
  cases members with
  | nil => exact run_next rfl (run_last hkeys.endMembers hrun)
  | cons m members =>
    have hmembers := run_moreMembers (fun m hm => hfields m (List.mem_cons_of_mem _ hm))
      (fun m hm => h m (List.mem_cons_of_mem _ hm)) hkeys.tail hrun
    have hmember := run_member (.firstMember fields []) rfl rfl
      (hfields m List.mem_cons_self) hkeys (h m List.mem_cons_self) hmembers
    simp only [Json.lexemes, List.map_cons, List.cons_append, List.append_assoc]
    exact run_next rfl hmember

/-- A member is a field of a record and is kept. -/
def KeepsMember (fields : Fields) (m : String × Json) : Prop :=
  match fields.find? fun f => f.1 == m.1 with
  | none => False
  | some f => Leaves f.2.2 m.2 m.2.lexemes

/-- A record is kept when its members are. -/
theorem leaves_record_of_forall (h : ∀ m ∈ members, KeepsMember fields m)
    (hkeys : Completes fields [] (members.map Prod.fst)) :
    Leaves (.record fields) (.object members) (Json.object members).lexemes := by
  have hform (m : String × Json) (hm : m ∈ members) : HasField fields m.1 (fieldForm fields m.1) ∧
      Leaves (fieldForm fields m.1) m.2 m.2.lexemes := by
    have hmember := h m hm
    unfold KeepsMember at hmember
    split at hmember
    · exact hmember.elim
    · rename_i f hfind
      have hname : f.1 = m.1 := by simpa using List.find?_some hfind
      have hfield : fieldForm fields m.1 = f.2.2 := by rw [fieldForm, hfind]; rfl
      rw [hfield]
      exact ⟨⟨f.2.1, by rw [hfind, ← hname]⟩, hmember⟩
  have hrecord := leaves_record (fun m hm => (hform m hm).1)
    (fun m hm => (hform m hm).2) hkeys
  rwa [show members.map (fun m => (m.1, m.2)) = members from List.map_id' members] at hrecord

/-! ## Reading -/

/-- A form keeps lexemes of the text, and adds nothing but `null`. -/
theorem mem_of_mem_run (h : run tasks ls = .ok out) (hl : l ∈ out) : l ∈ ls ∨ l = .null := by
  induction ls generalizing tasks out with
  | nil =>
    cases tasks with
    | nil =>
      obtain rfl := Except.ok.inj h
      exact .inl hl
    | cons task tasks => cases h
  | cons l' ls ih =>
    cases tasks with
    | nil =>
      obtain rfl := Except.ok.inj h
      exact .inl hl
    | cons task tasks =>
      obtain ⟨more, kept, -, hmore, rfl⟩ := exists_of_run h
      rcases List.mem_append.1 hl with hl | hl
      · unfold Task.kept at hl
        split at hl
        · exact .inr (List.mem_singleton.1 hl)
        · split_ifs at hl
          · cases hl
          · exact .inl (List.mem_singleton.1 hl ▸ List.mem_cons_self)
      · exact (ih hmore hl).imp_left (List.mem_cons_of_mem _)

end Form

namespace Json

open JsonNumber (InRange IsInteger)

variable {d : Nat} {v w : Json} {form : Form}

/-- A value of integers is read from its text as what is kept of it. -/
theorem readAs?_render (hv : Within IsInteger d v) (hw : Within IsInteger maxDepth w) (h : form.Leaves v w.lexemes) :
    readAs? form (String.ofList v.render) = some w := by
  have hheld : form.hold (String.ofList v.render) = .ok w.lexemes := by
    have hrun := h [] [] [] rfl
    rwa [List.append_nil, List.append_nil, ← hv.written.scan_eq, ← String.toList_ofList (l := v.render)] at hrun
  have hread := hw.readBefore [] [] (Nat.le_of_eq (Nat.zero_add _))
  rw [List.append_nil] at hread
  simp [readAs?, hheld, hread, close, finish]

/-- Whatever is read has only numbers of the format and is nested no deeper than the reader allows. -/
theorem readAs?_within {text : String} (h : readAs? form text = some v) : Within InRange maxDepth v := by
  unfold readAs? at h
  split at h
  · cases h
  · rename_i ls hheld
    split at h
    case h_2 => cases h
    case h_1 value hread =>
      cases h
      have hnumbers (n : JsonNumber) (hn : .number n ∈ ls) : n.InRange := by
        rcases Form.mem_of_mem_run hheld hn with hn | hn
        · exact Lexeme.inRange_of_mem_scan hn
        · cases hn
      exact readsWithin hnumbers _ _ .value _ .nil trivial hread

end Json

end ProvenanceTrail
