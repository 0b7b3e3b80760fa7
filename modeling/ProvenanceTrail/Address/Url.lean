import ProvenanceTrail.Address.Host
import ProvenanceTrail.Number.DecimalText
/-!
# Web addresses

Addresses of the schemes `http` and `https`. Reading tidies an address up: blanks around it and line
breaks in it are dropped, backslashes count as slashes, `.` and `..` among the segments of the path are
followed, a port that the scheme implies is left out, and what may not stand in a part is coded.
-/

namespace ProvenanceTrail

/-- A web address. The path has at least one segment. -/
structure Url where
  scheme : String
  /-- the name of a user, possibly with a password, as written -/
  user : Option (List Char)
  host : List Char
  port : Option Nat
  path : List (List Char)
  query : Option (List Char)
  fragment : Option (List Char)
deriving DecidableEq, Repr

namespace Url

/-- The port that a scheme implies. -/
def impliedPort (scheme : String) : Nat := if scheme == "https" then 443 else 80

/-- Whether a character ends the part with host and port. -/
def endsAuthority (c : Char) : Bool := c == '/' || c == '\\' || c == '?' || c == '#'

/-- Splits at the last `@`. -/
def splitUser (authority : List Char) : Option (List Char) × List Char :=
  let backwards := authority.reverse
  if authority.contains '@' then
    (some ((backwards.dropWhile (· != '@')).drop 1).reverse,
      (backwards.takeWhile (· != '@')).reverse)
  else (none, authority)

/-- The written form of a user: the name, and after a colon the password unless it is empty. -/
def renderUser (user : List Char) : Option (List Char) :=
  let name := Percent.encode Percent.inUser (user.takeWhile (· != ':'))
  let password := Percent.encode Percent.inUser ((user.dropWhile (· != ':')).drop 1)
  let text := if password.isEmpty then name else name ++ ':' :: password
  if text.isEmpty then none else some text

/-- The host at the front, up to a colon outside of brackets. -/
def hostText (bracketed : Bool) : List Char → List Char
  | [] => []
  | c :: cs =>
    if c == ':' && !bracketed then []
    else c :: hostText (c == '[' || (bracketed && c != ']')) cs

/-- Reads the port after a host; nothing, or the port that the scheme implies, stands for none. -/
def port? (scheme : String) : List Char → Option (Option Nat)
  | [] => some none
  | _ :: ds =>
    let n := Number.ofDigits ds
    if !ds.all Char.isDigit || 65535 < n then none
    else if ds.isEmpty || n = impliedPort scheme then some none
    else some (some n)

/-- Whether a segment stands for the current place. -/
def isHere (segment : List Char) : Bool :=
  let s := String.ofList (segment.map Char.toLower)
  s == "." || s == "%2e"

/-- Whether a segment stands for the place above. -/
def isAbove (segment : List Char) : Bool :=
  let s := String.ofList (segment.map Char.toLower)
  s == ".." || s == ".%2e" || s == "%2e." || s == "%2e%2e"

/-- Follows the segments of a path from a place. After `.` or `..` at the end stands an empty
segment. -/
def follow (place : List (List Char)) : List (List Char) → List (List Char)
  | [] => place
  | segment :: rest =>
    let ending : List (List Char) := if rest.isEmpty then [[]] else []
    if isAbove segment then follow (place.dropLast ++ ending) rest
    else if isHere segment then follow (place ++ ending) rest
    else follow (place ++ [Percent.encode Percent.inPath segment]) rest

/-- Splits a path into segments; a slash at its front opens the first one. -/
def segments (cs : List Char) : List (List Char) :=
  let cs := cs.map fun c => if c == '\\' then '/' else c
  (match cs with
    | '/' :: rest => rest
    | _ => cs).splitOn '/'

/-- Reads what follows the colon of a scheme. -/
def ofSchemePart? (scheme : String) (cs : List Char) : Option Url := do
  let cs := cs.dropWhile fun c => c == '/' || c == '\\'
  let authority := cs.takeWhile fun c => !endsAuthority c
  let cs := cs.dropWhile fun c => !endsAuthority c
  let (user, rest) := splitUser authority
  let hostPart := hostText false rest
  if hostPart.isEmpty then none
  else
    let host ← Host.ofText? hostPart
    let port ← port? scheme (rest.drop hostPart.length)
    let beforeFragment := cs.takeWhile (· != '#')
    let fragment := cs.dropWhile (· != '#')
    let pathPart := beforeFragment.takeWhile (· != '?')
    let query := beforeFragment.dropWhile (· != '?')
    pure
      { scheme, host, port, user := user.bind renderUser
        path := follow [] (segments pathPart)
        query := if query.isEmpty then none else some (Percent.encode Percent.inQuery (query.drop 1))
        fragment :=
          if fragment.isEmpty then none
          else some (Percent.encode Percent.inFragment (fragment.drop 1)) }

/-- Whether a character is dropped at the ends of an address. -/
def isMargin (c : Char) : Bool := c.toNat ≤ 0x20

/-- Whether a character is dropped everywhere in an address. -/
def isBreak (c : Char) : Bool := c == '\t' || c == '\n' || c == '\r'

/-- Reads an address that starts with one of the schemes. -/
def ofText? (text : String) : Option Url :=
  let cs := (text.toList.dropWhile isMargin).reverse.dropWhile isMargin
  let cs := cs.reverse.filter fun c => !isBreak c
  match cs with
  | 'h' :: 't' :: 't' :: 'p' :: ':' :: rest => ofSchemePart? "http" rest
  | 'h' :: 't' :: 't' :: 'p' :: 's' :: ':' :: rest => ofSchemePart? "https" rest
  | _ => none

/-- Writes an address. -/
def toText (u : Url) : String :=
  String.ofList
    (u.scheme.toList ++ "://".toList ++ (u.user.elim [] (· ++ ['@'])) ++ u.host ++
      u.port.elim [] (fun n => ':' :: Nat.toDigits 10 n) ++
      u.path.flatMap ('/' :: ·) ++ u.query.elim [] ('?' :: ·) ++ u.fragment.elim [] ('#' :: ·))

/-- Takes an empty segment off the end of the path; the last one stays. -/
def dropEmptyEnd (u : Url) : Url :=
  { u with
    path := if 1 < u.path.length && u.path.getLast? == some [] then u.path.dropLast else u.path }

/-- Adds a segment to the path. It takes the place of the segment of an empty path. `.` and `..` are
passed over; a text that becomes one of them without its line breaks is followed. -/
def addSegment (u : Url) (segment : String) : Url :=
  if segment == "." || segment == ".." then u
  else
    let cs := segment.toList.filter fun c => !isBreak c
    let place := if u.path == [[]] then [] else u.path
    { u with
      path :=
        if cs == ['.', '.'] then place.dropLast ++ [[]]
        else if cs == ['.'] then place ++ [[]]
        else place ++ [Percent.encode Percent.inSegment cs] }

end Url

end ProvenanceTrail
