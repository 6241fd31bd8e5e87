import Vibrato.Text

/-! The markers and the line hash of `hashline/hash.ts` and `hashline/constants.ts`. -/

namespace Vibrato.Hashline

def BEGIN_PATCH_MARKER : Text := "*** Begin Patch".toList
def END_PATCH_MARKER : Text := "*** End Patch".toList
def ABORT_MARKER : Text := "*** Abort".toList
def ABORT_WARNING : Text :=
  ("Tool stream truncated mid-call due to detected output corruption. " ++
    "Applied ops above are valid. Re-issue any remaining edits.").toList

def RANGE_INTERIOR_HASH : Text := ['*', '*']

def HL_OP_INSERT_BEFORE : Char := '«'
def HL_OP_INSERT_AFTER : Char := '»'
def HL_OP_REPLACE : Char := '≔'
def HL_OP_CHARS : List Char := [HL_OP_INSERT_BEFORE, HL_OP_INSERT_AFTER, HL_OP_REPLACE]
def HL_FILE_PREFIX : Char := '§'
def HL_BODY_SEP : Char := '|'

def lowercase : List Char := "abcdefghijklmnopqrstuvwxyz".toList

/-- The pairs of lowercase letters that `bigrams.json` leaves out. -/
def missingBigrams : List Text :=
  ["bq", "gk", "gq", "jv", "jz", "kq", "kz", "lq", "nq", "qf", "qg", "qj", "qk", "qv", "qz", "rj",
    "tq", "wq", "wz", "xg", "xj", "xk", "xq", "xv", "xw", "yq", "zj", "zq", "zv"].map String.toList

/-- The entries of `bigrams.json`: every other pair, in alphabetical order. -/
def HL_BIGRAMS : List Text :=
  (lowercase.flatMap fun a => lowercase.map fun b => [a, b]).filter (· ∉ missingBigrams)

def HL_BIGRAMS_COUNT : Nat := 647

example : HL_BIGRAMS.length = HL_BIGRAMS_COUNT := by decide +kernel

def prime1 : UInt32 := 2654435761
def prime2 : UInt32 := 2246822519
def prime3 : UInt32 := 3266489917
def prime4 : UInt32 := 668265263
def prime5 : UInt32 := 374761393

def rotateLeft (x r : UInt32) : UInt32 := (x <<< r) ||| (x >>> (32 - r))

def lane (b0 b1 b2 b3 : UInt8) : UInt32 :=
  b0.toUInt32 ||| (b1.toUInt32 <<< 8) ||| (b2.toUInt32 <<< 16) ||| (b3.toUInt32 <<< 24)

def stripeRound (acc word : UInt32) : UInt32 := rotateLeft (acc + word * prime2) 13 * prime1

/-- The four accumulators after the complete 16-byte stripes, and the bytes left over. -/
def stripes : UInt32 → UInt32 → UInt32 → UInt32 → List UInt8 →
    (UInt32 × UInt32 × UInt32 × UInt32) × List UInt8
  | v1, v2, v3, v4, b0 :: b1 :: b2 :: b3 :: b4 :: b5 :: b6 :: b7 :: b8 :: b9 :: b10 :: b11 ::
      b12 :: b13 :: b14 :: b15 :: rest =>
    stripes (stripeRound v1 (lane b0 b1 b2 b3)) (stripeRound v2 (lane b4 b5 b6 b7))
      (stripeRound v3 (lane b8 b9 b10 b11)) (stripeRound v4 (lane b12 b13 b14 b15)) rest
  | v1, v2, v3, v4, rest => ((v1, v2, v3, v4), rest)

def tailRounds : UInt32 → List UInt8 → UInt32
  | acc, b0 :: b1 :: b2 :: b3 :: rest =>
    tailRounds (rotateLeft (acc + lane b0 b1 b2 b3 * prime3) 17 * prime4) rest
  | acc, b :: rest => tailRounds (rotateLeft (acc + b.toUInt32 * prime5) 11 * prime1) rest
  | acc, [] => acc

def avalanche (acc : UInt32) : UInt32 :=
  let a := (acc ^^^ (acc >>> 15)) * prime2
  let b := (a ^^^ (a >>> 13)) * prime3
  b ^^^ (b >>> 16)

/-- `Bun.hash.xxHash32(bytes, 0)`. -/
def xxHash32 (bytes : List UInt8) : UInt32 :=
  let (acc, rest) :=
    if 16 ≤ bytes.length then
      let ((v1, v2, v3, v4), rest) := stripes (prime1 + prime2) prime2 0 (0 - prime1) bytes
      (rotateLeft v1 1 + rotateLeft v2 7 + rotateLeft v3 12 + rotateLeft v4 18, rest)
    else (prime5, bytes)
  avalanche (tailRounds (acc + UInt32.ofNat bytes.length) rest)

example : xxHash32 ("Nobody inspects the spammish repetition".toList.flatMap String.utf8EncodeChar)
    = 0xE2293B2F := by decide +kernel

/-- The hash depends on the line's content only, without carriage returns and trailing white
space.  The line number that the source passes is not used there. -/
def computeLineHash (line : Text) : Text :=
  let content := Text.trimEnd (line.filter (· != '\r'))
  HL_BIGRAMS.getD ((xxHash32 (content.flatMap String.utf8EncodeChar)).toNat % HL_BIGRAMS_COUNT) []

end Vibrato.Hashline
