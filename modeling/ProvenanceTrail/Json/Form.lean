import ProvenanceTrail.Json.Reader
/-!
# Forms of texts

What is read from a text has a form, and the text is held against it lexeme by lexeme, up to the first
mistake. There are two kinds of mistakes: the text stops being JSON, or it is JSON that does not have the
form. Something in the place of a word, or of the end of a record or a list, counts as the first kind.

Members that a record has no field for are skipped. Nobody looks at a value that is skipped: it may be nested
as deep as it likes, and its numbers and texts need not have a value. It leaves a `null` in its place.
-/

namespace ProvenanceTrail

/-- The first mistake in a text. -/
inductive FormFault where
  /-- the text is not JSON, or has something in the place of a word or an end -/
  | malformed
  /-- the text is JSON of another form -/
  | unfit
deriving DecidableEq, Repr

/-- The form of a JSON value. A record is written as an object, or as the array of its fields in their
order. -/
inductive Form where
  /-- any value, which is kept -/
  | anything
  /-- any value of a member, which is skipped -/
  | skipped
  /-- a value inside one that is skipped -/
  | hidden
  | nothing
  | text
  | flag
  | word (vocabulary : List String)
  | list (item : Form)
  /-- an object with any keys -/
  | entries (item : Form)
  | optional (form : Form)
  | record (fields : List (String × Bool × Form))

namespace Form

open Json (Lexeme)

/-- The fields of a record: the name, whether the field must be there, and its form. -/
abbrev Fields := List (String × Bool × Form)

/-- A field that must be there. -/
def needed (name : String) (form : Form) : String × Bool × Form := (name, true, form)

/-- A field that may be left out. -/
def spare (name : String) (form : Form) : String × Bool × Form := (name, false, form)

/-- What has to come next. -/
inductive Task where
  | value (form : Form)
  /-- a colon and a value -/
  | colon (form : Form)
  /-- the first item of a list, or its end -/
  | firstItem (item : Form)
  /-- a comma and an item of a list, or its end -/
  | moreItems (item : Form)
  /-- the first member of an object with any keys, or its end -/
  | firstEntry (item : Form)
  /-- a comma and a member of an object with any keys, or its end -/
  | moreEntries (item : Form)
  /-- a member of an object with any keys -/
  | entry (item : Form)
  /-- a colon and a value in an object with any keys -/
  | entryColon (item : Form)
  /-- the first member of a record, or its end -/
  | firstMember (fields : Fields) (seen : List String)
  /-- a comma and a member of a record, or its end -/
  | moreMembers (fields : Fields) (seen : List String)
  /-- a member of a record -/
  | member (fields : Fields) (seen : List String)
  /-- the first field of a record that is written as an array, or its end -/
  | firstField (fields : Fields)
  /-- a comma and a field of a record that is written as an array, or its end -/
  | moreFields (fields : Fields)
  /-- a word as the key of an object -/
  | wordKey (vocabulary : List String)
  | endOfObject

/-- Whether a value can start with a lexeme. -/
def startsValue : Lexeme → Bool
  | .null | .bool _ | .number _ | .string _ | .openBrace | .openBracket => true
  | _ => false

/-- The mistake of a lexeme that stands where another kind of value is asked for. -/
def mismatch (l : Lexeme) : FormFault := if startsValue l then .unfit else .malformed

/-- Goes on with tasks if a condition of the form holds. -/
def require (condition : Bool) (tasks : List Task) : Except FormFault (List Task) :=
  if condition then .ok tasks else .error .unfit

/-- The start of any value, the parts of which have a form. -/
def startAny (l : Lexeme) (part : Form) : Except FormFault (List Task) :=
  match l with
  | .openBrace => .ok [.firstEntry part]
  | .openBracket => .ok [.firstItem part]
  | l => if startsValue l then .ok [] else .error .malformed

/-- What a lexeme leaves to be done where a value of a form is asked for. -/
def start (l : Lexeme) : Form → Except FormFault (List Task)
  | .anything => startAny l .anything
  | .skipped | .hidden => if l = .skippable then .ok [] else startAny l .hidden
  | .nothing => if l = .null then .ok [] else .error (mismatch l)
  | .text =>
    match l with
    | .string _ => .ok []
    | l => .error (mismatch l)
  | .flag =>
    match l with
    | .bool _ => .ok []
    | l => .error (mismatch l)
  | .word vocabulary =>
    match l with
    | .string s => require (vocabulary.contains s) []
    | .openBrace => .ok [.wordKey vocabulary]
    | _ => .error .malformed
  | .list item =>
    match l with
    | .openBracket => .ok [.firstItem item]
    | l => .error (mismatch l)
  | .entries item =>
    match l with
    | .openBrace => .ok [.firstEntry item]
    | l => .error (mismatch l)
  | .optional form => if l = .null then .ok [] else start l form
  | .record fields =>
    match l with
    | .openBrace => .ok [.firstMember fields []]
    | .openBracket => .ok [.firstField fields]
    | l => .error (mismatch l)

/-- What a key leaves to be done in an object with any keys. A key that is skipped need not have a value
either. -/
def startEntry (l : Lexeme) (item : Form) : Except FormFault (List Task) :=
  match l, item with
  | .string _, item => .ok [.entryColon item, .moreEntries item]
  | .skippable, .hidden => .ok [.entryColon .hidden, .moreEntries .hidden]
  | _, _ => .error .malformed

/-- What the key of a member leaves to be done. A field occurs once; other members are skipped. -/
def startMember (fields : Fields) (seen : List String) (key : String) :
    Except FormFault (List Task) :=
  match fields.find? fun f => f.1 == key with
  | none => .ok [.colon .skipped, .moreMembers fields seen]
  | some f => require (!seen.contains key) [.colon f.2.2, .moreMembers fields (key :: seen)]

/-- The end of a record as an object: every field that must be there was. -/
def endMembers (fields : Fields) (seen : List String) : Except FormFault (List Task) :=
  require (fields.all fun f => !f.2.1 || seen.contains f.1) []

/-- The end of a record as an array: no field that is left must be there. -/
def endFields (fields : Fields) : Except FormFault (List Task) :=
  require (fields.all fun f => !f.2.1) []

/-- What a lexeme leaves to be done of a task. -/
def step (l : Lexeme) : Task → Except FormFault (List Task)
  | .value form => start l form
  | .colon form => if l = .colon then .ok [.value form] else .error .malformed
  | .firstItem item =>
    if l = .closeBracket then .ok [] else (start l item).map (· ++ [.moreItems item])
  | .moreItems item =>
    match l with
    | .comma => .ok [.value item, .moreItems item]
    | .closeBracket => .ok []
    | _ => .error .malformed
  | .firstEntry item => if l = .closeBrace then .ok [] else startEntry l item
  | .moreEntries item =>
    match l with
    | .comma => .ok [.entry item]
    | .closeBrace => .ok []
    | _ => .error .malformed
  | .entry item => startEntry l item
  | .entryColon item => if l = .colon then .ok [.value item] else .error .malformed
  | .firstMember fields seen =>
    match l with
    | .string key => startMember fields seen key
    | .closeBrace => endMembers fields seen
    | _ => .error .malformed
  | .moreMembers fields seen =>
    match l with
    | .comma => .ok [.member fields seen]
    | .closeBrace => endMembers fields seen
    | _ => .error .malformed
  | .member fields seen =>
    match l with
    | .string key => startMember fields seen key
    | _ => .error .malformed
  | .firstField fields =>
    match l, fields with
    | .closeBracket, fields => endFields fields
    | l, f :: rest => (start l f.2.2).map (· ++ [.moreFields rest])
    | _, [] => .error .malformed
  | .moreFields fields =>
    match l, fields with
    | .closeBracket, fields => endFields fields
    | .comma, f :: rest => .ok [.value f.2.2, .moreFields rest]
    | _, _ => .error .malformed
  | .wordKey vocabulary =>
    match l with
    | .string s => require (vocabulary.contains s) [.colon .nothing, .endOfObject]
    | l => .error (mismatch l)
  | .endOfObject => if l = .closeBrace then .ok [] else .error .malformed

/-- Whether a task belongs to the inside of a value that is skipped. -/
def Task.isHidden : Task → Bool
  | .value .hidden | .firstItem .hidden | .moreItems .hidden | .firstEntry .hidden | .moreEntries .hidden
  | .entry .hidden | .entryColon .hidden => true
  | _ => false

/-- What is kept of the lexeme that a task is done with. -/
def Task.kept (l : Lexeme) : Task → List Lexeme
  | .value .skipped => [.null]
  | task => if task.isHidden then [] else [l]

/-- Does the tasks, first to last, with the lexemes of a text, and gives what is kept of the lexemes. A text
that ends too early is malformed. -/
def run : List Task → List Lexeme → Except FormFault (List Lexeme)
  | [], ls => .ok ls
  | _ :: _, [] => .error .malformed
  | task :: tasks, l :: ls => do
    let more ← step l task
    let rest ← run (more ++ tasks) ls
    pure (task.kept l ++ rest)

/-- Holds the value at the front of a text against a form, and gives what is kept of the lexemes. -/
def hold (form : Form) (text : String) : Except FormFault (List Lexeme) :=
  run [.value form] (Lexeme.scan text.toList)

end Form

namespace Json

/-- The value of a text that has a form and holds nothing else. -/
def readAs? (form : Form) (text : String) : Option Json :=
  match form.hold text with
  | .error _ => none
  | .ok ls =>
    match readFrom [] .value ls with
    | some (value, []) => some value
    | _ => none

/-- What the value of a text that has a form is read as. -/
def readText? {α : Type} (form : Form) (read : Json → Option α) (text : String) : Option α :=
  (readAs? form text).bind read

end Json

end ProvenanceTrail
