import Mathlib.Data.List.Nodup
import Mathlib.Data.Nat.Bitwise
import Mathlib.Tactic.Ring

/-! `utils/src/snowflake.ts`: a snowflake holds 42 bits of time and 22 bits of a sequence, as 16
hexadecimal digits. -/

namespace Vibrato.Utils

open List

abbrev Snowflake := List Char

namespace Snowflake

def EPOCH : Int := 1420070400000

def MAX_SEQ : Nat := 0x3fffff

def hexDigit (d : Fin 16) : Char := "0123456789abcdef".toList.getD d '0'

/-- The digits of `i.toString(16).padStart(4, "0")`, for 16 bits. -/
def digits4 (i : Nat) : List (Fin 16) := [i / 4096, i / 256, i / 16, i].map (Fin.ofNat 16)

def HEX4 (i : Nat) : List Char := (digits4 i).map hexDigit

def hexValue (c : Char) : Nat := if c ≤ '9' then c.toNat - '0'.toNat else c.toNat - 'a'.toNat + 10

/-- `Number.parseInt(s, 16)` for lower case digits. -/
def parseHex (s : List Char) : Nat := s.foldl (fun n c => n * 16 + hexValue c) 0

def toBigInt (value : Snowflake) : Nat :=
  parseHex (value.take 8) <<< 32 ||| parseHex ((value.take 16).drop 8)

/-- The operators on bits take their operands modulo 2^32, and `%` has the sign of `dt`. -/
def hi32 (dt : Int) : BitVec 32 := BitVec.ofInt 32 ((dt - dt.tmod 1024) / 1024)

def lo32 (dt : Int) (seq : Nat) : BitVec 32 :=
  BitVec.ofInt 32 (dt.tmod 1024) <<< 22 ||| BitVec.ofNat 32 seq

def formatParts (dt : Int) (seq : Nat) : Snowflake :=
  let hi := hi32 dt
  let lo := lo32 dt seq
  let hi1 := hi >>> 16 &&& 0xffff#32
  let hi2 := hi &&& 0xffff#32
  let lo1 := lo >>> 16 &&& 0xffff#32
  let lo2 := lo &&& 0xffff#32
  HEX4 hi1.toNat ++ HEX4 hi2.toNat ++ HEX4 lo1.toNat ++ HEX4 lo2.toNat

def getSequence (value : Snowflake) : Nat := parseHex ((value.take 16).drop 8) &&& MAX_SEQ

def getTimestamp (value : Snowflake) : Int := (toBigInt value >>> 22 : Nat) + EPOCH

/-- The generator: what it returns for the readings of the clock, from a sequence number on. -/
def generate (seq : Nat) : List Int → List Snowflake
  | [] => []
  | timestamp :: timestamps =>
    let seq := (seq + 1) &&& MAX_SEQ
    formatParts (timestamp - EPOCH) seq :: generate seq timestamps

def value : List (Fin 16) → Nat
  | [] => 0
  | d :: digits => d * 16 ^ digits.length + value digits

theorem value_lt (digits : List (Fin 16)) : value digits < 16 ^ digits.length := by
  induction digits with
  | nil => simp [value]
  | cons d digits ih =>
    have hle : ((d : Nat) + 1) * 16 ^ digits.length ≤ 16 * 16 ^ digits.length :=
      Nat.mul_le_mul_right _ d.isLt
    rw [value, length_cons]
    rw [Nat.add_mul] at hle
    omega

theorem value_append (digits digits' : List (Fin 16)) :
    value (digits ++ digits') = value digits * 16 ^ digits'.length + value digits' := by
  induction digits with
  | nil => simp [value]
  | cons d digits ih =>
    rw [cons_append, value, value, ih, length_append]
    ring

theorem parseHex_map (digits : List (Fin 16)) : parseHex (digits.map hexDigit) = value digits := by
  have hfold : ∀ n, (digits.map hexDigit).foldl (fun n c => n * 16 + hexValue c) n =
      n * 16 ^ digits.length + value digits := by
    induction digits with
    | nil => simp [value]
    | cons d digits ih =>
      have hdigit : ∀ d : Fin 16, hexValue (hexDigit d) = d := by decide
      intro n
      rw [map_cons, foldl_cons, ih, hdigit, value, length_cons]
      ring
  rw [parseHex, hfold, Nat.zero_mul, Nat.zero_add]

theorem map_hexDigit_lt_iff {digits digits' : List (Fin 16)} (h : digits.length = digits'.length) :
    digits.map hexDigit < digits'.map hexDigit ↔ value digits < value digits' := by
  induction digits generalizing digits' with
  | nil => cases digits' with
    | nil => simp
    | cons d' digits' => cases h
  | cons d digits ih => cases digits' with
    | nil => cases h
    | cons d' digits' =>
      have hdigit : ∀ d d' : Fin 16, hexDigit d < hexDigit d' ↔ d < d' := by decide
      have hinj : ∀ d d' : Fin 16, hexDigit d = hexDigit d' ↔ d = d' := by decide
      have hlength : digits.length = digits'.length := Nat.succ.inj h
      have hlt := value_lt digits
      have hlt' := value_lt digits'
      rw [map_cons, map_cons, cons_lt_cons_iff, hdigit, hinj, ih hlength, value, value, hlength]
      rw [hlength] at hlt
      rcases Nat.lt_trichotomy d d' with hd | hd | hd
      · have hle := Nat.mul_le_mul_right (16 ^ digits'.length) (show (d : Nat) + 1 ≤ d' from hd)
        rw [Nat.add_mul] at hle
        exact ⟨fun _ => by omega, fun _ => .inl hd⟩
      · simp [Fin.ext hd]
      · have hle := Nat.mul_le_mul_right (16 ^ digits'.length) (show (d' : Nat) + 1 ≤ d from hd)
        rw [Nat.add_mul] at hle
        exact ⟨fun h => absurd h (by omega), fun h => absurd h (by omega)⟩

def wordDigits (w : BitVec 32) : List (Fin 16) :=
  digits4 (w >>> 16 &&& 0xffff#32).toNat ++ digits4 (w &&& 0xffff#32).toNat

theorem value_wordDigits (w : BitVec 32) : value (wordDigits w) = w.toNat := by
  have hmask : ∀ n, n &&& 65535 = n % 2 ^ 16 := fun n => Nat.and_two_pow_sub_one_eq_mod n 16
  have hlt := w.isLt
  simp only [wordDigits, digits4, map_cons, map_nil, cons_append, nil_append, value, length_cons,
    length_nil,
    Fin.val_ofNat, BitVec.toNat_and, BitVec.toNat_ushiftRight, BitVec.toNat_ofNat,
      Nat.shiftRight_eq_div_pow,
    show 65535 % 2 ^ 32 = 65535 from rfl, hmask]
  omega

theorem formatParts_eq (dt : Int) (seq : Nat) :
    formatParts dt seq = (wordDigits (hi32 dt) ++ wordDigits (lo32 dt seq)).map hexDigit := by
  simp [formatParts, HEX4, wordDigits]

theorem parseHex_high (dt : Int) (seq : Nat) :
    parseHex ((formatParts dt seq).take 8) = (hi32 dt).toNat := by
  rw [← value_wordDigits, ← parseHex_map]
  rfl

theorem parseHex_low (dt : Int) (seq : Nat) :
    parseHex (((formatParts dt seq).take 16).drop 8) = (lo32 dt seq).toNat := by
  rw [← value_wordDigits, ← parseHex_map]
  rfl

theorem getSequence_formatParts (dt : Int) (seq : Nat) :
    getSequence (formatParts dt seq) = seq % 2 ^ 22 := by
  rw [getSequence, parseHex_low, MAX_SEQ, show 0x3fffff = 2 ^ 22 - 1 from rfl,
    Nat.and_two_pow_sub_one_eq_mod, lo32, BitVec.toNat_or, Nat.or_mod_two_pow,
      BitVec.toNat_shiftLeft, Nat.shiftLeft_eq,
    BitVec.toNat_ofNat]
  rw [show ∀ n, n * 2 ^ 22 % 2 ^ 32 % 2 ^ 22 = 0 by omega, Nat.zero_or]
  omega

theorem lo32_toNat {dt seq : Nat} (hseq : seq < 2 ^ 22) :
    (lo32 dt seq).toNat = dt % 1024 * 2 ^ 22 + seq := by
  have hmod : (dt : Int).tmod 1024 = (dt % 1024 : Nat) := rfl
  have hshift : (dt % 1024 % 2 ^ 32) <<< 22 % 2 ^ 32 = (dt % 1024) <<< 22 := by
    omega
  rw [lo32, hmod, BitVec.ofInt_natCast, BitVec.toNat_or, BitVec.toNat_shiftLeft, BitVec.toNat_ofNat,
    BitVec.toNat_ofNat,
    hshift, Nat.mod_eq_of_lt (Nat.lt_trans hseq (by decide)), ← Nat.shiftLeft_add_eq_or_of_lt hseq,
      Nat.shiftLeft_eq]

theorem hi32_toNat {dt : Nat} (hdt : dt < 2 ^ 42) : (hi32 dt).toNat = dt / 1024 := by
  have hdiv : ((dt : Int) - (dt : Int).tmod 1024) / 1024 = (dt / 1024 : Nat) := by
    have hmod : (dt : Int).tmod 1024 = (dt % 1024 : Nat) := rfl
    omega
  rw [hi32, hdiv, BitVec.ofInt_natCast, BitVec.toNat_ofNat, Nat.mod_eq_of_lt (by omega)]

variable {dt seq dt' seq' : Nat}

theorem recoversParts (hdt : dt < 2 ^ 42) (hseq : seq < 2 ^ 22) :
    getTimestamp (formatParts dt seq) = dt + EPOCH ∧ getSequence (formatParts dt seq) = seq := by
  have hbits : toBigInt (formatParts dt seq) = dt * 2 ^ 22 + seq := by
    rw [toBigInt, parseHex_high, parseHex_low, ← Nat.shiftLeft_add_eq_or_of_lt (lo32 dt seq).isLt,
      hi32_toNat hdt, lo32_toNat hseq]
    omega
  refine ⟨?_, by rw [getSequence_formatParts, Nat.mod_eq_of_lt hseq]⟩
  rw [getTimestamp]
  omega

theorem orderedByParts (hdt : dt < 2 ^ 42) (hseq : seq < 2 ^ 22) (hdt' : dt' < 2 ^ 42)
    (hseq' : seq' < 2 ^ 22) :
    formatParts dt seq < formatParts dt' seq' ↔ dt < dt' ∨ dt = dt' ∧ seq < seq' := by
  have hlength : ∀ w, (wordDigits w).length = 8 := fun _ => rfl
  rw [formatParts_eq, formatParts_eq, map_hexDigit_lt_iff (by simp only [length_append, hlength]),
    value_append, value_append, value_wordDigits, value_wordDigits, value_wordDigits,
      value_wordDigits,
    hi32_toNat hdt, hi32_toNat hdt', lo32_toNat hseq, lo32_toNat hseq', hlength, hlength]
  omega

theorem getSequence_generate {seq n : Nat} (h : seq % 2 ^ 22 = n % 2 ^ 22) (timestamps : List Int) :
    (generate seq timestamps).map getSequence =
      (range' (n + 1) timestamps.length).map (· % 2 ^ 22) := by
  induction timestamps generalizing seq n with
  | nil => rfl
  | cons timestamp timestamps ih =>
    have hnext : (seq + 1) &&& MAX_SEQ = (n + 1) % 2 ^ 22 := by
      rw [MAX_SEQ, show 0x3fffff = 2 ^ 22 - 1 from rfl, Nat.and_two_pow_sub_one_eq_mod]
      omega
    rw [generate, map_cons, getSequence_formatParts, length_cons, range'_succ, map_cons, hnext,
      Nat.mod_mod, ih (Nat.mod_mod ..)]

theorem distinctInARow (seq : Nat) {timestamps : List Int} (hlength : timestamps.length ≤ 2 ^ 22) :
    (generate seq timestamps).Nodup := by
  apply Nodup.of_map getSequence
  rw [getSequence_generate rfl]
  refine Nodup.map_on (fun x hx y hy h => ?_) nodup_range'
  rw [mem_range'_1] at hx hy
  omega

/-- A snowflake tells its parts, snowflakes are in the order of their parts, and a generator makes
different ones in a row, from any state and with any readings of its clock. -/
theorem snowflake_sound (hdt : dt < 2 ^ 42) (hseq : seq < 2 ^ 22) (hdt' : dt' < 2 ^ 42)
    (hseq' : seq' < 2 ^ 22)
    (state : Nat) {timestamps : List Int} (hlength : timestamps.length ≤ 2 ^ 22) :
    (getTimestamp (formatParts dt seq) = dt + EPOCH ∧ getSequence (formatParts dt seq) = seq) ∧
      (formatParts dt seq < formatParts dt' seq' ↔ dt < dt' ∨ dt = dt' ∧ seq < seq') ∧
      (generate state timestamps).Nodup :=
  ⟨recoversParts hdt hseq, orderedByParts hdt hseq hdt' hseq', distinctInARow state hlength⟩

/-- The sequence starts again at zero, and the clock is set back to before the epoch. -/
theorem snowflake_sound_wrapped :
    (getTimestamp (formatParts 5 3) = 5 + EPOCH ∧ getSequence (formatParts 5 3) = 3) ∧
      (formatParts 5 3 < formatParts 5 4 ↔ 5 < 5 ∨ 5 = 5 ∧ 3 < 4) ∧
      (generate MAX_SEQ [EPOCH + 1, EPOCH - 7, EPOCH + 1]).Nodup :=
  snowflake_sound (by decide) (by decide) (by decide) (by decide) MAX_SEQ (by decide)

/-- A date or a number is its time; a snowflake is its own bound. -/
def lowerbound : Int ⊕ Snowflake → Snowflake
  | .inl time => formatParts (time - EPOCH) 0
  | .inr value => value

def upperbound : Int ⊕ Snowflake → Snowflake
  | .inl time => formatParts (time - EPOCH) MAX_SEQ
  | .inr value => value

theorem generate_parts {seq : Nat} {dts : List Nat} {entry : Nat × Snowflake}
    (h : entry ∈ dts.zip (generate seq (dts.map fun dt : Nat => dt + EPOCH))) :
    ∃ n < 2 ^ 22, entry.2 = formatParts entry.1 n := by
  induction dts generalizing seq with
  | nil => cases h
  | cons dt dts ih =>
    rw [map_cons, generate, zip_cons_cons, mem_cons] at h
    obtain rfl | h := h
    · exact ⟨(seq + 1) &&& MAX_SEQ, Nat.and_lt_two_pow _ (by decide), by rw [Int.add_sub_cancel]⟩
    · exact ih h

/-- Of the ids that a generator makes, in whatever order the clock reads, those between the bounds
of two times are the ones that were made between these times. -/
theorem boundedByTime {first last : Nat} {dts : List Nat} (hfirst : first < 2 ^ 42)
    (hlast : last < 2 ^ 42)
    (hdts : ∀ dt ∈ dts, dt < 2 ^ 42) {entry : Nat × Snowflake}
    (hmem : entry ∈ dts.zip (generate seq (dts.map fun dt : Nat => dt + EPOCH))) :
    (¬entry.2 < lowerbound (.inl (first + EPOCH)) ∧ ¬upperbound (.inl (last + EPOCH)) < entry.2) ↔
      first ≤ entry.1 ∧ entry.1 ≤ last := by
  obtain ⟨n, hn, heq⟩ := generate_parts hmem
  have hentry := hdts _ (of_mem_zip hmem).1
  rw [heq, lowerbound, upperbound, Int.add_sub_cancel, Int.add_sub_cancel,
    orderedByParts hentry hn hfirst (by decide), orderedByParts hlast (by decide) hentry hn,
      MAX_SEQ]
  omega

theorem boundedByTime_backwards :
    (¬formatParts 3 2 < lowerbound (.inl (2 + EPOCH)) ∧
      ¬upperbound (.inl (4 + EPOCH)) < formatParts 3 2) ↔
      2 ≤ 3 ∧ 3 ≤ 4 :=
  @boundedByTime 0 2 4 [9, 3] (by decide) (by decide) (by decide) (3, formatParts 3 2)
    (by decide +kernel)

end Snowflake
end Vibrato.Utils
