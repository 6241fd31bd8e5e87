import Vibrato.Lib.Utf8

/-! Strings as lists of 16-bit code units, in which a surrogate may stand alone: their characters,
their UTF-8 bytes, where a surrogate that stands alone is written as U+FFFD, and the strings that
bytes decode to. -/

namespace Vibrato.Lib

abbrev CodeUnits := List UInt16

namespace CodeUnits

def isHigh (u : UInt16) : Bool := 0xD800 ≤ u.toNat && u.toNat ≤ 0xDBFF

def isLow (u : UInt16) : Bool := 0xDC00 ≤ u.toNat && u.toNat ≤ 0xDFFF

def chars : CodeUnits → List CodeUnits
  | [] => []
  | [u] => [[u]]
  | u :: v :: rest =>
    if isHigh u && isLow v then [u, v] :: chars rest else [u] :: chars (v :: rest)

def isLone : CodeUnits → Bool
  | [u] => isHigh u || isLow u
  | _ => false

def scalar : CodeUnits → Nat
  | [u] => if isLone [u] then 0xFFFD else u.toNat
  | [u, v] => 0x10000 + (u.toNat - 0xD800) * 0x400 + (v.toNat - 0xDC00)
  | _ => 0xFFFD

def utf8 (s : CodeUnits) : List Nat := (chars s).flatMap fun c => Utf8.encode (scalar c)

def byteLength (s : CodeUnits) : Nat := (utf8 s).length

def ofScalar (n : Nat) : CodeUnits :=
  if n < 0x10000 then [UInt16.ofNat n]
  else [UInt16.ofNat (0xD800 + (n - 0x10000) / 0x400),
    UInt16.ofNat (0xDC00 + (n - 0x10000) % 0x400)]

def ofOutput (out : List (Option Nat)) : CodeUnits := out.flatMap fun n => ofScalar (n.getD 0xFFFD)

def ofUtf8 (bytes : List Nat) : CodeUnits :=
  ofOutput ((Utf8.Decoder.idle.run bytes).2 ++ (Utf8.Decoder.idle.run bytes).1.flush)

theorem isHigh_iff {u : UInt16} : isHigh u = true ↔ 0xD800 ≤ u.toNat ∧ u.toNat ≤ 0xDBFF := by
  rw [isHigh, Bool.and_eq_true, decide_eq_true_eq, decide_eq_true_eq]

theorem isLow_iff {u : UInt16} : isLow u = true ↔ 0xDC00 ≤ u.toNat ∧ u.toNat ≤ 0xDFFF := by
  rw [isLow, Bool.and_eq_true, decide_eq_true_eq, decide_eq_true_eq]

end CodeUnits

end Vibrato.Lib
