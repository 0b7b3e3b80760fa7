/-!
# The XXH64 digest

A fast 64-bit digest, here with seed 0. It tells sets of checks apart; nothing depends on it for trust.
The input is taken as words of eight bytes, the least significant byte first; four words at a time are
mixed into four lanes, the rest one by one.
-/

namespace ProvenanceTrail.Digest.Xxh64

/-- The first constant of the digest. -/
def prime1 : UInt64 := 11400714785074694791

/-- The second constant of the digest. -/
def prime2 : UInt64 := 14029467366897019727

/-- The third constant of the digest. -/
def prime3 : UInt64 := 1609587929392839161

/-- The fourth constant of the digest. -/
def prime4 : UInt64 := 9650029242287828579

/-- The fifth constant of the digest. -/
def prime5 : UInt64 := 2870177450012600261

/-- Turns a word to the left. -/
def rotate (x : UInt64) (by_ : UInt64) : UInt64 := (x <<< by_) ||| (x >>> (64 - by_))

/-- A word from its bytes, the least significant first. -/
def word (bytes : List UInt8) : UInt64 :=
  bytes.foldr (fun b w => w * 256 + b.toUInt64) 0

/-- The whole words of the input, and the bytes after them. -/
def words : List UInt8 → List UInt64 × List UInt8
  | a :: b :: c :: d :: e :: f :: g :: h :: rest =>
    let (ws, bytes) := words rest
    (word [a, b, c, d, e, f, g, h] :: ws, bytes)
  | bytes => ([], bytes)

/-- Mixes a word into a lane. -/
def mix (lane w : UInt64) : UInt64 := rotate (lane + w * prime2) 31 * prime1

/-- The four lanes. -/
structure Lanes where
  first : UInt64
  second : UInt64
  third : UInt64
  fourth : UInt64

/-- The lanes at the start. -/
def Lanes.start : Lanes := ⟨prime1 + prime2, prime2, 0, 0 - prime1⟩

/-- Mixes words into the lanes, four at a time, and leaves fewer than four. -/
def stripes (l : Lanes) : List UInt64 → Lanes × List UInt64
  | a :: b :: c :: d :: rest =>
    stripes ⟨mix l.first a, mix l.second b, mix l.third c, mix l.fourth d⟩ rest
  | ws => (l, ws)

/-- Merges a lane into the digest. -/
def merge (h lane : UInt64) : UInt64 := (h ^^^ mix 0 lane) * prime1 + prime4

/-- The digest of the lanes. -/
def Lanes.digest (l : Lanes) : UInt64 :=
  let h := rotate l.first 1 + rotate l.second 7 + rotate l.third 12 + rotate l.fourth 18
  [l.first, l.second, l.third, l.fourth].foldl merge h

/-- Adds a word that is left over. -/
def addWord (h w : UInt64) : UInt64 := rotate (h ^^^ mix 0 w) 27 * prime1 + prime4

/-- Adds a byte that is left over. -/
def addByte (h : UInt64) (b : UInt8) : UInt64 := rotate (h ^^^ (b.toUInt64 * prime5)) 11 * prime1

/-- Adds fewer than eight bytes: four of them as one half word, the others one by one. -/
def addBytes (h : UInt64) : List UInt8 → UInt64
  | a :: b :: c :: d :: rest =>
    rest.foldl addByte (rotate (h ^^^ (word [a, b, c, d] * prime1)) 23 * prime2 + prime3)
  | bytes => bytes.foldl addByte h

/-- Spreads every bit over the whole digest. -/
def spread (h : UInt64) : UInt64 :=
  let h := (h ^^^ (h >>> 33)) * prime2
  let h := (h ^^^ (h >>> 29)) * prime3
  h ^^^ (h >>> 32)

/-- The digest of bytes. -/
def digest (bytes : List UInt8) : UInt64 :=
  let (ws, rest) := words bytes
  let (lanes, left) := stripes Lanes.start ws
  let h := if ws.length < 4 then prime5 else lanes.digest
  spread (addBytes (left.foldl addWord (h + UInt64.ofNat bytes.length)) rest)

/-- The digest as sixteen hexadecimal digits. -/
def hexDigest (bytes : List UInt8) : String :=
  let ds := Nat.toDigits 16 (digest bytes).toNat
  String.ofList (List.replicate (16 - ds.length) '0' ++ ds)

end ProvenanceTrail.Digest.Xxh64
