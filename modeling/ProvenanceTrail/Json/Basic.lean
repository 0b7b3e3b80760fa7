import ProvenanceTrail.Number.Binary64
/-!
# JSON values

A value keeps the members of an object as they were written, in order and with repetitions.
`Json.normalize` brings it to the form in which objects are maps: keys in ascending order, the last
of equal keys kept.
-/

namespace ProvenanceTrail

/-- A JSON number: a natural number below 2^64, a negative integer down to -2^63 (given by its
magnitude), or a finite binary64 value. -/
inductive JsonNumber where
  | natural (n : Nat)
  | negative (magnitude : Nat)
  | real (x : Binary64)
deriving DecidableEq, Repr

/-- A JSON value. -/
inductive Json where
  | null
  | bool (b : Bool)
  | number (n : JsonNumber)
  | string (s : String)
  | array (items : List Json)
  | object (members : List (String × Json))
deriving Repr, BEq, Inhabited

namespace Json

/-- Puts a member into a list with ascending keys, replacing one of the same key. -/
def insertMember {α : Type} (key : String) (value : α) : List (String × α) → List (String × α)
  | [] => [(key, value)]
  | (k, v) :: rest =>
    if key < k then (key, value) :: (k, v) :: rest
    else if key = k then (key, value) :: rest
    else (k, v) :: insertMember key value rest

/-- A list holds nothing new after an insertion but the member that was put in. -/
theorem mem_insertMember {α : Type} {key : String} {value : α} {m : String × α}
    {members : List (String × α)} (h : m ∈ insertMember key value members) :
    m = (key, value) ∨ m ∈ members := by
  induction members with
  | nil => exact .inl (List.mem_singleton.1 h)
  | cons other rest ih =>
    unfold insertMember at h
    split at h
    · exact List.mem_cons.1 h
    · split at h
      · exact (List.mem_cons.1 h).imp_right (List.mem_cons_of_mem _)
      · rcases List.mem_cons.1 h with rfl | h
        · exact .inr List.mem_cons_self
        · exact (ih h).imp_right (List.mem_cons_of_mem _)

/-- The members in ascending order of their keys, the last of equal keys kept. -/
def sortMembers {α : Type} (members : List (String × α)) : List (String × α) :=
  members.foldl (fun sorted m => insertMember m.1 m.2 sorted) []

mutual
/-- The value with every object as a map: keys ascending and different. -/
def normalize : Json → Json
  | .array items => .array (normalizeItems items)
  | .object members => .object (sortMembers (normalizeMembers members))
  | v => v
termination_by structural v => v

/-- `normalize` on each item. -/
def normalizeItems : List Json → List Json
  | [] => []
  | v :: rest => normalize v :: normalizeItems rest
termination_by structural vs => vs

/-- `normalize` on each member's value. -/
def normalizeMembers : List (String × Json) → List (String × Json)
  | [] => []
  | (k, v) :: rest => (k, normalize v) :: normalizeMembers rest
termination_by structural vs => vs
end

/-- The value of a key among members: the last one written. -/
def lookup (key : String) (members : List (String × Json)) : Option Json :=
  (members.reverse.find? fun m => m.1 == key).map (·.2)

/-- The value of a member of an object; `none` for a missing key and for anything but an object. -/
def get? (key : String) : Json → Option Json
  | .object members => lookup key members
  | _ => none

/-- The text of a string. -/
def string? : Json → Option String
  | .string s => some s
  | _ => none

/-- The value of a boolean. -/
def bool? : Json → Option Bool
  | .bool b => some b
  | _ => none

/-- The items of an array. -/
def array? : Json → Option (List Json)
  | .array items => some items
  | _ => none

/-- The value of a number that is written as a natural number below 2^64. -/
def natural? : Json → Option Nat
  | .number (.natural n) => some n
  | _ => none

/-- The value of a number that is written as an integer and fits in 64 signed bits. -/
def integer64? : Json → Option Int
  | .number (.natural n) => if n < Nat.pow 2 63 then some n else none
  | .number (.negative n) => some (-(n : Int))
  | _ => none

/-- A natural number below 2^64 as a value. -/
def ofNat (n : Nat) : Json := .number (.natural n)

/-- An integer of 64 signed bits as a value. -/
def ofInt : Int → Json
  | .ofNat n => .number (.natural n)
  | .negSucc n => .number (.negative (n + 1))

/-- An optional value, written `null` when it is missing. -/
def ofOption {α : Type} (f : α → Json) : Option α → Json
  | none => .null
  | some a => f a

/-- Whether the value is `null`. -/
def isNull : Json → Bool
  | .null => true
  | _ => false

end Json

end ProvenanceTrail
