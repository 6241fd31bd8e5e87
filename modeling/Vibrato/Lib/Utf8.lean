import Mathlib.Data.List.Basic

/-! UTF-8: the bytes of a scalar value, and the decoder of the Encoding Standard, which takes one
byte at a time and puts out scalar values and errors. -/

namespace Vibrato.Lib.Utf8

open List

def IsScalar (n : Nat) : Prop := n < 0xD800 ∨ 0xE000 ≤ n ∧ n < 0x110000

def encode (n : Nat) : List Nat :=
  if n < 0x80 then [n]
  else if n < 0x800 then [0xC0 + n / 0x40, 0x80 + n % 0x40]
  else if n < 0x10000 then [0xE0 + n / 0x1000, 0x80 + n / 0x40 % 0x40, 0x80 + n % 0x40]
  else [0xF0 + n / 0x40000, 0x80 + n / 0x1000 % 0x40, 0x80 + n / 0x40 % 0x40, 0x80 + n % 0x40]

/-- `(byte & 0xc0) === 0x80`. -/
def isContinuation (b : Nat) : Bool := 0x80 ≤ b && b < 0xC0

/-- The code point so far, the number of bytes that it still needs, and the bounds of the next
one. -/
structure Decoder where
  codePoint : Nat
  needed : Nat
  lower : Nat
  upper : Nat

namespace Decoder

def idle : Decoder := ⟨0, 0, 0x80, 0xBF⟩

/-- The first byte of a character.  An error is put out as `none`. -/
def first (b : Nat) : Decoder × List (Option Nat) :=
  if b < 0x80 then (idle, [some b])
  else if 0xC2 ≤ b ∧ b ≤ 0xDF then (⟨b - 0xC0, 1, 0x80, 0xBF⟩, [])
  else if 0xE0 ≤ b ∧ b ≤ 0xEF then
    (⟨b - 0xE0, 2, if b = 0xE0 then 0xA0 else 0x80, if b = 0xED then 0x9F else 0xBF⟩, [])
  else if 0xF0 ≤ b ∧ b ≤ 0xF4 then
    (⟨b - 0xF0, 3, if b = 0xF0 then 0x90 else 0x80, if b = 0xF4 then 0x8F else 0xBF⟩, [])
  else (idle, [none])

/-- One byte.  A byte out of bounds ends the character before it with an error and starts
another. -/
def feed (d : Decoder) (b : Nat) : Decoder × List (Option Nat) :=
  match d.needed with
  | 0 => first b
  | needed + 1 =>
    if d.lower ≤ b ∧ b ≤ d.upper then
      let codePoint := d.codePoint * 0x40 + (b - 0x80)
      if needed = 0 then (idle, [some codePoint]) else (⟨codePoint, needed, 0x80, 0xBF⟩, [])
    else ((first b).1, none :: (first b).2)

def run : Decoder → List Nat → Decoder × List (Option Nat)
  | d, [] => (d, [])
  | d, b :: bytes => ((run (d.feed b).1 bytes).1, (d.feed b).2 ++ (run (d.feed b).1 bytes).2)

def flush (d : Decoder) : List (Option Nat) := if d.needed = 0 then [] else [none]

theorem run_append (d : Decoder) (a b : List Nat) :
    d.run (a ++ b) = (((d.run a).1.run b).1, (d.run a).2 ++ ((d.run a).1.run b).2) := by
  induction a generalizing d with
  | nil => rfl
  | cons x a ih => simp only [cons_append, run, ih, append_assoc]

variable {b codePoint lower upper : Nat}

theorem first_ascii (h : b < 0x80) : first b = (idle, [some b]) := if_pos h

theorem first_two (h : 0xC2 ≤ b) (h' : b ≤ 0xDF) : first b = (⟨b - 0xC0, 1, 0x80, 0xBF⟩, []) := by
  rw [first, if_neg (by omega), if_pos ⟨h, h'⟩]

theorem first_three (h : 0xE0 ≤ b) (h' : b ≤ 0xEF) :
    first b = (⟨b - 0xE0, 2, if b = 0xE0 then 0xA0 else 0x80, if b = 0xED then 0x9F else 0xBF⟩,
      []) := by
  rw [first, if_neg (by omega), if_neg (by omega), if_pos ⟨h, h'⟩]

theorem first_four (h : 0xF0 ≤ b) (h' : b ≤ 0xF4) :
    first b = (⟨b - 0xF0, 3, if b = 0xF0 then 0x90 else 0x80, if b = 0xF4 then 0x8F else 0xBF⟩,
      []) := by
  rw [first, if_neg (by omega), if_neg (by omega), if_neg (by omega), if_pos ⟨h, h'⟩]

theorem feed_more {needed : Nat} (h : lower ≤ b) (h' : b ≤ upper) :
    feed ⟨codePoint, needed + 2, lower, upper⟩ b =
      (⟨codePoint * 0x40 + (b - 0x80), needed + 1, 0x80, 0xBF⟩, []) := by
  simp [feed, h, h']

theorem feed_last (h : lower ≤ b) (h' : b ≤ upper) :
    feed ⟨codePoint, 1, lower, upper⟩ b = (idle, [some (codePoint * 0x40 + (b - 0x80))]) := by
  simp [feed, h, h']

theorem feed_idle (b : Nat) : feed idle b = first b := rfl

theorem run_encode {n : Nat} (h : IsScalar n) : idle.run (encode n) = (idle, [some n]) := by
  unfold IsScalar at h
  unfold encode
  split
  · next h1 => simp only [run, feed_idle, first_ascii h1, append_nil]
  split
  · next h1 h2 =>
    simp only [run, feed_idle]
    rw [first_two (by omega) (by omega)]
    rw [feed_last (by omega) (by omega)]
    simp only [nil_append, Prod.mk.injEq, List.cons.injEq, Option.some.injEq, and_true, true_and,
      append_nil]
    omega
  split
  · next h1 h2 h3 =>
    simp only [run, feed_idle]
    rw [first_three (by omega) (by omega)]
    rw [feed_more (by split <;> omega) (by split <;> omega)]
    rw [feed_last (by omega) (by omega)]
    simp only [nil_append, Prod.mk.injEq, List.cons.injEq, Option.some.injEq, and_true, true_and,
      append_nil]
    omega
  · next h1 h2 h3 =>
    simp only [run, feed_idle]
    rw [first_four (by omega) (by omega)]
    rw [feed_more (by split <;> omega) (by split <;> omega)]
    rw [feed_more (by omega) (by omega)]
    rw [feed_last (by omega) (by omega)]
    simp only [nil_append, Prod.mk.injEq, List.cons.injEq, Option.some.injEq, and_true, true_and,
      append_nil]
    omega

theorem run_flatMap_encode {ns : List Nat} (h : ∀ n ∈ ns, IsScalar n) :
    idle.run (ns.flatMap encode) = (idle, ns.map some) := by
  induction ns with
  | nil => rfl
  | cons n ns ih =>
    rw [flatMap_cons, run_append, run_encode (h n mem_cons_self),
      ih fun m hm => h m (mem_cons_of_mem _ hm)]
    rfl

end Decoder

theorem encode_length_pos (n : Nat) : 0 < (encode n).length := by
  unfold encode
  split
  · exact Nat.one_pos
  split
  · exact Nat.two_pos
  split
  · exact Nat.succ_pos 2
  · exact Nat.succ_pos 3

variable {b : Nat}

theorem isContinuation_iff : isContinuation b = true ↔ 0x80 ≤ b ∧ b < 0xC0 := by
  rw [isContinuation, Bool.and_eq_true, decide_eq_true_eq, decide_eq_true_eq]

theorem isContinuation_eq_false (h : b < 0x80 ∨ 0xC0 ≤ b) : isContinuation b = false := by
  rw [Bool.eq_false_iff, ne_eq, isContinuation_iff]
  omega

theorem encode_shape (n : Nat) : ∃ b rest, encode n = b :: rest ∧ isContinuation b = false ∧
    ∀ c ∈ rest, isContinuation c = true := by
  have hrest : ∀ m, isContinuation (0x80 + m % 0x40) = true :=
    fun m => isContinuation_iff.mpr (by omega)
  unfold encode
  split
  · next h => exact ⟨n, [], rfl, isContinuation_eq_false (.inl h), by simp⟩
  split
  · exact ⟨_, _, rfl, isContinuation_eq_false (.inr (by omega)), by simp [hrest]⟩
  split
  · exact ⟨_, _, rfl, isContinuation_eq_false (.inr (by omega)), by simp [hrest]⟩
  · exact ⟨_, _, rfl, isContinuation_eq_false (.inr (by omega)), by simp [hrest]⟩

end Vibrato.Lib.Utf8
