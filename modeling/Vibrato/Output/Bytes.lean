import Vibrato.Text
import Vibrato.Lib.Budget

/-! The byte-level helpers of `session/streaming-output.ts`. -/

namespace Vibrato.Output

open Lib List Char

variable (text : Text)

/-- `Buffer.byteLength(text, "utf-8")`. -/
def byteLength : Nat := totalWeight utf8Size text

def utf16Size (c : Char) : Nat := if c.toNat < 0x10000 then 1 else 2

/-- `text.length`. -/
def utf16Length : Nat := totalWeight utf16Size text

def countNewlines : Nat := text.count '\n'

/-- Byte number `offset` in the UTF-8 encoding of `char`. -/
structure Byte where
  char : Char
  offset : Nat

/-- `(byte & 0xc0) === 0x80`: all bytes of a character but its first one. -/
def isContinuation (byte : Byte) : Bool := byte.offset ≠ 0

def charBytes (c : Char) : List Byte := (List.range c.utf8Size).map (Byte.mk c)

/-- `Buffer.from(text, "utf-8")`. -/
def toBuffer : List Byte := text.flatMap charBytes

variable (buf : List Byte)

/-- `slice.toString("utf-8")` on a slice that starts and ends between characters. -/
def bufferToString : Text :=
  buf.filterMap fun byte => if byte.offset = 0 then some byte.char else none

def findUtf8BoundaryForward (pos : Nat) : Nat :=
  pos + ((buf.drop pos).takeWhile isContinuation).length

/-- The loop of `findUtf8BoundaryBackward`. -/
def retreat (buf : List Byte) : Nat → Nat
  | 0 => 0
  | i + 1 => if buf[i + 1]?.any isContinuation then retreat buf i else i + 1

def findUtf8BoundaryBackward (cut : Nat) : Nat :=
  if buf.length ≤ min buf.length cut then buf.length else retreat buf (min buf.length cut)

def REPLACEMENT_CHAR : Char := '\uFFFD'

/-- `data.substring(0, k)` as `Buffer.from` encodes it: half of a surrogate pair becomes the
replacement character. -/
def windowHead : Nat → Text → Text
  | 0, _ => []
  | _, [] => []
  | k + 1, c :: text =>
    if utf16Size c ≤ k + 1 then c :: windowHead (k + 1 - utf16Size c) text else [REPLACEMENT_CHAR]

/-- `data.substring(data.length - k)`, encoded likewise. -/
def windowTail (k : Nat) (data : Text) : Text := (windowHead k data.reverse).reverse

inductive Mode where
  | head
  | tail

structure ByteTruncationResult where
  text : Text
  bytes : Nat

variable (data : Text)

def truncateBytesWindowed (maxBytes : Nat) (mode : Mode) : ByteTruncationResult :=
  if maxBytes = 0 then ⟨[], 0⟩
  else if utf16Length data ≤ maxBytes ∧ byteLength data ≤ maxBytes then ⟨data, byteLength data⟩
  else
    match mode with
    | .head =>
      let buf := toBuffer (windowHead (min (utf16Length data) maxBytes) data)
      let stop := findUtf8BoundaryBackward buf maxBytes
      if stop = 0 then ⟨[], 0⟩ else ⟨bufferToString (buf.take stop), (buf.take stop).length⟩
    | .tail =>
      let buf := toBuffer (windowTail (min (utf16Length data) maxBytes) data)
      let start := findUtf8BoundaryForward buf (buf.length - maxBytes)
      ⟨bufferToString (buf.drop start), (buf.drop start).length⟩

def truncateTailBytes (maxBytes : Nat) : ByteTruncationResult :=
  truncateBytesWindowed data maxBytes .tail

def truncateHeadBytes (maxBytes : Nat) : ByteTruncationResult :=
  truncateBytesWindowed data maxBytes .head

theorem four_le_of_utf16Size {c : Char} (h : 1 < utf16Size c) : 4 ≤ c.utf8Size := by
  unfold utf16Size at h
  split at h
  · omega
  · next hlarge =>
    have hval : ¬c.val.toNat < 0x10000 := hlarge
    unfold utf8Size
    simp only [UInt32.le_iff_toNat_le, UInt32.toNat_ofNatLT]
    rw [if_neg (by omega), if_neg (by omega), if_neg (by omega)]

theorem utf16Size_le_utf8Size (c : Char) : utf16Size c ≤ c.utf8Size := by
  have hpos := c.utf8Size_pos
  by_cases hpair : 1 < utf16Size c
  · have hfour := four_le_of_utf16Size hpair
    unfold utf16Size
    split <;> omega
  · omega

@[simp] theorem byteLength_nil : byteLength [] = 0 := rfl

@[simp] theorem byteLength_cons (c : Char) (text : Text) :
    byteLength (c :: text) = c.utf8Size + byteLength text := totalWeight_cons _ _ _

@[simp] theorem byteLength_append (a b : Text) :
    byteLength (a ++ b) = byteLength a + byteLength b := totalWeight_append _ _ _

theorem byteLength_eq_zero {text : Text} : byteLength text = 0 ↔ text = [] := by
  cases text with
  | nil => simp
  | cons c text =>
    have hpos := c.utf8Size_pos
    simp only [byteLength_cons, reduceCtorEq, iff_false]
    omega

@[simp] theorem toBuffer_cons (c : Char) (text : Text) :
    toBuffer (c :: text) = charBytes c ++ toBuffer text := rfl

@[simp] theorem toBuffer_append (a b : Text) : toBuffer (a ++ b) = toBuffer a ++ toBuffer b := by
  simp [toBuffer]

@[simp] theorem length_charBytes (c : Char) : (charBytes c).length = c.utf8Size := by
  simp [charBytes]

@[simp] theorem length_toBuffer : (toBuffer text).length = byteLength text := by
  induction text with
  | nil => rfl
  | cons c text ih => simp [ih]

theorem charBytes_eq_cons (c : Char) :
    charBytes c = ⟨c, 0⟩ :: (List.range' 1 (c.utf8Size - 1)).map (Byte.mk c) := by
  have hpos := c.utf8Size_pos
  obtain ⟨k, hk⟩ := Nat.exists_eq_succ_of_ne_zero (Nat.ne_of_gt hpos)
  rw [charBytes, hk, range_eq_range']
  rfl

theorem bufferToString_toBuffer : bufferToString (toBuffer text) = text := by
  induction text with
  | nil => rfl
  | cons c text ih =>
    have hrest : ((List.range' 1 (c.utf8Size - 1)).map (Byte.mk c)).filterMap
        (fun byte => if byte.offset = 0 then some byte.char else none) = [] := by
      rw [filterMap_eq_nil_iff]
      intro byte hbyte
      obtain ⟨k, hk, rfl⟩ := mem_map.1 hbyte
      rw [mem_range'_1] at hk
      rw [if_neg (by simp only; omega)]
    rw [bufferToString, toBuffer_cons, filterMap_append, charBytes_eq_cons, filterMap_cons, hrest]
    exact congrArg (c :: ·) ih

theorem getElem?_toBuffer {a b : Text} {c : Char} {d : Nat} (hd : d < c.utf8Size) :
    (toBuffer (a ++ c :: b))[byteLength a + d]? = some ⟨c, d⟩ := by
  rw [toBuffer_append, ← length_toBuffer, getElem?_append_right (Nat.le_add_right _ _),
    toBuffer_cons, getElem?_append_left (by simpa using hd)]
  simp [charBytes, hd]

theorem retreat_toBuffer {a b : Text} {c : Char} {d : Nat} (hd : d < c.utf8Size) :
    retreat (toBuffer (a ++ c :: b)) (byteLength a + d) = byteLength a := by
  induction d with
  | zero =>
    cases hlen : byteLength a with
    | zero => rfl
    | succ n =>
      have hget := @getElem?_toBuffer a b c 0 c.utf8Size_pos
      rw [hlen] at hget
      rw [retreat, hget, if_neg (by simp [isContinuation])]
  | succ d ih =>
    have hget := @getElem?_toBuffer a b c _ hd
    rw [← Nat.add_assoc] at hget ⊢
    rw [retreat, hget, if_pos (by simp [isContinuation]), ih (by omega)]

theorem findUtf8BoundaryBackward_toBuffer (maxBytes : Nat) :
    findUtf8BoundaryBackward (toBuffer text) maxBytes =
      byteLength (takeBudget utf8Size maxBytes text) := by
  unfold findUtf8BoundaryBackward
  rw [length_toBuffer]
  split
  · next hmin =>
    have hfit : byteLength text ≤ maxBytes := by omega
    rw [takeBudget_eq_self _ hfit]
  · next hlong =>
    obtain ⟨rest, hrest⟩ := takeBudget_isPrefix utf8Size maxBytes text
    have hle := totalWeight_takeBudget_le utf8Size maxBytes text
    cases rest with
    | nil =>
      rw [append_nil] at hrest
      have : byteLength text ≤ maxBytes := by
        rw [← hrest]
        exact hle
      omega
    | cons c rest =>
      have hlt : maxBytes <
          byteLength (takeBudget utf8Size maxBytes text) + c.utf8Size :=
        lt_of_takeBudget_append utf8Size hrest.symm
      have hfit : byteLength (takeBudget utf8Size maxBytes text) ≤ maxBytes := hle
      generalize takeBudget utf8Size maxBytes text = fit at *
      have hcut :
          min (byteLength text) maxBytes = byteLength fit + (maxBytes - byteLength fit) := by
        omega
      rw [hcut, ← hrest]
      exact retreat_toBuffer (by omega)

theorem findUtf8BoundaryForward_toBuffer (maxBytes : Nat) :
    (toBuffer text).drop (findUtf8BoundaryForward (toBuffer text)
      ((toBuffer text).length - maxBytes)) = toBuffer (lastBudget utf8Size maxBytes text) := by
  have hstop : ∀ kept : Text, (toBuffer kept).takeWhile isContinuation = [] := by
    intro kept
    cases kept with
    | nil => rfl
    | cons c kept =>
      rw [toBuffer_cons, charBytes_eq_cons]
      rfl
  obtain ⟨dropped, hdropped⟩ := lastBudget_isSuffix utf8Size maxBytes text
  have hle := totalWeight_lastBudget_le utf8Size maxBytes text
  rw [length_toBuffer]
  rcases eq_nil_or_concat' dropped with rfl | ⟨before, c, rfl⟩
  · rw [nil_append] at hdropped
    have hfit : byteLength text ≤ maxBytes := by
      rw [← hdropped]
      exact hle
    rw [Nat.sub_eq_zero_of_le hfit, findUtf8BoundaryForward, drop_zero, hstop, hdropped]
    rfl
  · have hlt : maxBytes < byteLength (lastBudget utf8Size maxBytes text) + c.utf8Size := by
      have hreverse :
          text.reverse = takeBudget utf8Size maxBytes text.reverse ++ c :: before.reverse := by
        conv_lhs => rw [← hdropped]
        simp [lastBudget]
      have hnext := lt_of_takeBudget_append utf8Size hreverse
      rwa [byteLength, lastBudget, totalWeight_reverse]
    generalize hlast : lastBudget utf8Size maxBytes text = last at *
    have htotal : byteLength text = byteLength before + c.utf8Size + byteLength last := by
      rw [← hdropped]
      simp [Nat.add_assoc]
    have hfit : byteLength last ≤ maxBytes := hle
    -- The cut is `offset` bytes into `c`, and the rest of these are continuation bytes.
    obtain ⟨offset, hoffset⟩ : ∃ offset, offset = c.utf8Size + byteLength last - maxBytes :=
      ⟨_, rfl⟩
    have hstart : byteLength text - maxBytes = byteLength before + offset := by omega
    have hbuffer : (toBuffer text).drop (byteLength before + offset) =
        (charBytes c).drop offset ++ toBuffer last := by
      rw [← hdropped, append_assoc, singleton_append, toBuffer_append, toBuffer_cons,
        ← length_toBuffer before, drop_length_add_append,
        drop_append_of_le_length (by rw [length_charBytes]; omega)]
    have hcontinuation : ∀ byte ∈ (charBytes c).drop offset, isContinuation byte = true := by
      intro byte hbyte
      rw [charBytes, ← map_drop, mem_map] at hbyte
      obtain ⟨k, hk, rfl⟩ := hbyte
      rw [range_eq_range', drop_range', mem_range'_1] at hk
      simp only [isContinuation, ne_eq, decide_eq_true_eq]
      omega
    rw [hstart, findUtf8BoundaryForward, hbuffer, takeWhile_append_of_pos hcontinuation,
      hstop, append_nil, ← drop_drop, hbuffer, drop_left]

theorem windowHead_eq_self {k : Nat} {text : Text} (h : utf16Length text ≤ k) :
    windowHead k text = text := by
  induction text generalizing k with
  | nil => cases k <;> rfl
  | cons c text ih =>
    rw [utf16Length, totalWeight_cons] at h
    have hpos : 0 < utf16Size c := by
      unfold utf16Size
      split <;> omega
    obtain ⟨k, rfl⟩ := Nat.exists_eq_succ_of_ne_zero (show k ≠ 0 by omega)
    rw [windowHead, if_pos (by omega), ih (by unfold utf16Length; omega)]

theorem takeBudget_windowHead {n k : Nat} (hnk : n ≤ k) (text : Text) :
    takeBudget utf8Size n (windowHead k text) = takeBudget utf8Size n text := by
  induction text generalizing n k with
  | nil => cases k <;> rfl
  | cons c text ih =>
    have hpos := c.utf8Size_pos
    have hunits := utf16Size_le_utf8Size c
    cases k with
    | zero =>
      obtain rfl : n = 0 := by omega
      rw [windowHead, takeBudget, takeBudget, if_neg (by omega)]
    | succ k =>
      rw [windowHead]
      split
      · rw [takeBudget, takeBudget]
        split
        · rw [ih (by omega)]
        · rfl
      · next hsplit =>
        have hpair : utf16Size c ≤ 2 := by
          unfold utf16Size
          split <;> omega
        have hfour := four_le_of_utf16Size (show 1 < utf16Size c by omega)
        have hthree : REPLACEMENT_CHAR.utf8Size = 3 := by decide
        rw [takeBudget, if_neg (by omega), takeBudget, if_neg (by omega)]

theorem takeBudget_window (n : Nat) :
    takeBudget utf8Size n (windowHead (min (utf16Length text) n) text) =
      takeBudget utf8Size n text := by
  by_cases hlen : utf16Length text ≤ n
  · rw [Nat.min_eq_left hlen, windowHead_eq_self (Nat.le_refl _)]
  · rw [Nat.min_eq_right (by omega)]
    exact takeBudget_windowHead (Nat.le_refl n) text

theorem takeBudget_zero : takeBudget utf8Size 0 text = [] := by
  cases text with
  | nil => rfl
  | cons c text =>
    have hpos := c.utf8Size_pos
    rw [takeBudget, if_neg (by omega)]

theorem truncateHeadBytes_eq (maxBytes : Nat) :
    truncateHeadBytes data maxBytes =
      ⟨takeBudget utf8Size maxBytes data,
        byteLength (takeBudget utf8Size maxBytes data)⟩ := by
  unfold truncateHeadBytes truncateBytesWindowed
  split
  · next hzero =>
    rw [hzero, takeBudget_zero]
    rfl
  split
  · next hfits => rw [takeBudget_eq_self _ hfits.2]
  · simp only
    rw [findUtf8BoundaryBackward_toBuffer, takeBudget_window]
    obtain ⟨rest, hrest⟩ := takeBudget_isPrefix utf8Size maxBytes
      (windowHead (min (utf16Length data) maxBytes) data)
    rw [takeBudget_window] at hrest
    have htake : (toBuffer (windowHead (min (utf16Length data) maxBytes) data)).take
        (byteLength (takeBudget utf8Size maxBytes data)) =
        toBuffer (takeBudget utf8Size maxBytes data) := by
      rw [← hrest, toBuffer_append, ← length_toBuffer, take_left]
    rw [htake, bufferToString_toBuffer, length_toBuffer]
    split
    · next hempty => rw [byteLength_eq_zero.1 hempty, byteLength_nil]
    · rfl

theorem truncateTailBytes_eq (maxBytes : Nat) :
    truncateTailBytes data maxBytes =
      ⟨lastBudget utf8Size maxBytes data,
        byteLength (lastBudget utf8Size maxBytes data)⟩ := by
  unfold truncateTailBytes truncateBytesWindowed
  split
  · next hzero =>
    rw [hzero, lastBudget, takeBudget_zero]
    rfl
  split
  · next hfits => rw [lastBudget_eq_self _ hfits.2]
  · have hwindow : lastBudget utf8Size maxBytes
        (windowTail (min (utf16Length data) maxBytes) data) =
        lastBudget utf8Size maxBytes data := by
      have hreverse : utf16Length data = utf16Length data.reverse :=
        (totalWeight_reverse _ _).symm
      rw [lastBudget, windowTail, reverse_reverse, hreverse, takeBudget_window]
      rfl
    simp only
    rw [findUtf8BoundaryForward_toBuffer, hwindow, bufferToString_toBuffer, length_toBuffer]

end Vibrato.Output
