import RegisterCode.Text.Quoted

/-! The 64-bit xxHash of a byte string. Four lanes take 32 bytes at a time; what
is left is mixed in by eight bytes, by four and one by one. -/
namespace RegisterCode

namespace Fingerprint

def prime1 : UInt64 := 0x9E3779B185EBCA87
def prime2 : UInt64 := 0xC2B2AE3D27D4EB4F
def prime3 : UInt64 := 0x165667B19E3779F9
def prime4 : UInt64 := 0x85EBCA77C2B2AE63
def prime5 : UInt64 := 0x27D4EB2F165667C5

def rotateLeft (x n : UInt64) : UInt64 :=
  (x <<< n) ||| (x >>> (64 - n))

def load (bytes : Array UInt8) (offset count : Nat) : UInt64 :=
  (List.range count).foldr
    (fun i high => (high <<< 8) ||| (bytes.getD (offset + i) 0).toUInt64) 0

def round (lane input : UInt64) : UInt64 :=
  rotateLeft (lane + input * prime2) 31 * prime1

structure Lanes where
  a : UInt64
  b : UInt64
  c : UInt64
  d : UInt64

def Lanes.start (seed : UInt64) : Lanes :=
  ⟨seed + prime1 + prime2, seed + prime2, seed, seed - prime1⟩

def Lanes.feed (bytes : Array UInt8) (lanes : Lanes) (stripe : Nat) : Lanes :=
  let word (i : Nat) := load bytes (32 * stripe + 8 * i) 8
  ⟨round lanes.a (word 0), round lanes.b (word 1), round lanes.c (word 2), round lanes.d (word 3)⟩

def mergeLane (hash lane : UInt64) : UInt64 :=
  (hash ^^^ round 0 lane) * prime1 + prime4

def Lanes.merge (lanes : Lanes) : UInt64 :=
  let sum := rotateLeft lanes.a 1 + rotateLeft lanes.b 7 + rotateLeft lanes.c 12 +
    rotateLeft lanes.d 18
  [lanes.a, lanes.b, lanes.c, lanes.d].foldl mergeLane sum

def mixEight (hash input : UInt64) : UInt64 :=
  rotateLeft (hash ^^^ round 0 input) 27 * prime1 + prime4

def mixFour (hash input : UInt64) : UInt64 :=
  rotateLeft (hash ^^^ input * prime1) 23 * prime2 + prime3

def mixOne (hash input : UInt64) : UInt64 :=
  rotateLeft (hash ^^^ input * prime5) 11 * prime1

def avalanche (hash : UInt64) : UInt64 :=
  let hash := (hash ^^^ (hash >>> 33)) * prime2
  let hash := (hash ^^^ (hash >>> 29)) * prime3
  hash ^^^ (hash >>> 32)

def xxHash64 (seed : UInt64) (bytes : Array UInt8) : UInt64 :=
  let size := bytes.size
  let stripes := size / 32
  let hash :=
    if stripes = 0 then seed + prime5
    else ((List.range stripes).foldl (Lanes.feed bytes) (Lanes.start seed)).merge
  let hash := hash + size.toUInt64
  let eights := size % 32 / 8
  let hash := (List.range eights).foldl
    (fun hash i => mixEight hash (load bytes (32 * stripes + 8 * i) 8)) hash
  let offset := size - size % 8
  let fours := size % 8 / 4
  let hash := if fours = 0 then hash else mixFour hash (load bytes offset 4)
  let offset := offset + 4 * fours
  let hash := (List.range (size - offset)).foldl
    (fun hash i => mixOne hash (load bytes (offset + i) 1)) hash
  avalanche hash

end Fingerprint

/-- The identity of a source file, which depends on its path alone. -/
structure SourceId where
  value : UInt64
deriving DecidableEq, Hashable

namespace SourceId

/-- Keeps these hashes apart from other uses of the same function. -/
def seed : UInt64 := 0x6b696c6e736f7263

def ofPath (path : String) : SourceId :=
  ⟨Fingerprint.xxHash64 seed path.toUTF8.data⟩

def text (id : SourceId) : String :=
  let digits := Text.hexDigits id.value.toNat
  "SourceId(" ++ .ofList (.replicate (16 - digits.length) '0' ++ digits) ++ ")"

end SourceId

end RegisterCode
