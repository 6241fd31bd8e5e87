import Mathlib.Data.List.Basic

/-! The hash of a transcript, with a checkpoint at every multiple of an interval. -/

namespace Vibrato.Session

open List

/-- `BOUNDED_FIRST_OPEN_HASH_CHECKPOINT_INTERVAL_BYTES` -/
def CHECKPOINT_INTERVAL_BYTES : Nat := 64 * 1024 * 1024

structure BoundedFirstOpenHashCheckpoint where
  offset : Nat
  hash : List UInt8

/-- The hash, the state, and the checkpoints, as the scan of a transcript begins with them. -/
structure TranscriptHash where
  hash : List UInt8 := []
  nextCheckpointOffset : Nat := CHECKPOINT_INTERVAL_BYTES
  hashedOffset : Nat := 0
  checkpoints : List BoundedFirstOpenHashCheckpoint := [⟨0, []⟩]

namespace TranscriptHash

def pushCheckpoint (s : TranscriptHash) : TranscriptHash :=
  { s with
    checkpoints := s.checkpoints ++ [⟨s.nextCheckpointOffset, s.hash⟩]
    nextCheckpointOffset := s.nextCheckpointOffset + CHECKPOINT_INTERVAL_BYTES }

def updateLoop (lineStart : Nat) (lineBytes : List UInt8) (offset : Nat) (s : TranscriptHash) :
    TranscriptHash :=
  if offset < lineBytes.length then
    if s.nextCheckpointOffset ≤ lineStart + offset then
      updateLoop lineStart lineBytes offset s.pushCheckpoint
    else
      let stop :=
        min lineBytes.length (offset + max 1 (s.nextCheckpointOffset - (lineStart + offset)))
      let s := { s with
        hash := s.hash ++ (lineBytes.take stop).drop offset
        hashedOffset := lineStart + stop }
      updateLoop lineStart lineBytes stop
        (if s.hashedOffset = s.nextCheckpointOffset then s.pushCheckpoint else s)
  else s
termination_by (lineBytes.length - offset, lineStart + offset + 1 - s.nextCheckpointOffset)
decreasing_by
  · right
    simp only [pushCheckpoint, CHECKPOINT_INTERVAL_BYTES]
    omega
  · left
    omega

/-- `none` is the answer `false`, which leaves everything as it was. -/
def updateBoundedTranscriptHash (lineStart : Nat) (lineBytes : List UInt8) (s : TranscriptHash) :
    Option TranscriptHash :=
  if lineStart ≠ s.hashedOffset then none
  else some { updateLoop lineStart lineBytes 0 s with hashedOffset := lineStart + lineBytes.length }

/-- The lines of a transcript from `lineStart` on, in order. -/
def updateLines : Nat → List (List UInt8) → TranscriptHash → Option TranscriptHash
  | _, [], s => some s
  | lineStart, line :: lines, s =>
    (updateBoundedTranscriptHash lineStart line s).bind
      (updateLines (lineStart + line.length) lines)

/-- The checkpoints of `fed`: all multiples of the interval in it, each with the bytes before it. -/
def checkpointsOf (fed : List UInt8) : List BoundedFirstOpenHashCheckpoint :=
  (range (fed.length / CHECKPOINT_INTERVAL_BYTES + 1)).map fun k =>
    ⟨k * CHECKPOINT_INTERVAL_BYTES, fed.take (k * CHECKPOINT_INTERVAL_BYTES)⟩

/-- What has been fed is hashed, and the next checkpoint is behind it. -/
structure Covers (s : TranscriptHash) (fed : List UInt8) : Prop where
  hash : s.hash = fed
  hashedOffset : s.hashedOffset = fed.length
  next : s.nextCheckpointOffset =
    (fed.length / CHECKPOINT_INTERVAL_BYTES + 1) * CHECKPOINT_INTERVAL_BYTES
  checkpoints : s.checkpoints = checkpointsOf fed

variable {s : TranscriptHash} {fed : List UInt8}

theorem Covers.append (h : Covers s fed) (more : List UInt8)
    (hle : (fed ++ more).length ≤ s.nextCheckpointOffset) :
    Covers (if (fed ++ more).length = s.nextCheckpointOffset then
        { s with hash := fed ++ more, hashedOffset := (fed ++ more).length }.pushCheckpoint
      else { s with hash := fed ++ more, hashedOffset := (fed ++ more).length }) (fed ++ more) := by
  have hnext := h.next
  rw [CHECKPOINT_INTERVAL_BYTES] at hnext
  have hsame : ∀ k ∈ range (fed.length / CHECKPOINT_INTERVAL_BYTES + 1),
      (fed ++ more).take (k * CHECKPOINT_INTERVAL_BYTES) =
        fed.take (k * CHECKPOINT_INTERVAL_BYTES) := by
    intro k hk
    rw [mem_range, CHECKPOINT_INTERVAL_BYTES] at hk
    rw [take_append_of_le_length]
    rw [CHECKPOINT_INTERVAL_BYTES]
    omega
  have hlength : fed.length ≤ (fed ++ more).length := by simp
  split
  · next heq =>
    have hquot : (fed ++ more).length / CHECKPOINT_INTERVAL_BYTES =
        fed.length / CHECKPOINT_INTERVAL_BYTES + 1 := by
      rw [CHECKPOINT_INTERVAL_BYTES]
      omega
    refine ⟨rfl, rfl, ?_, ?_⟩
    · rw [hquot, Nat.succ_mul, ← h.next]
      rfl
    · rw [checkpointsOf, hquot, range_succ, map_append, map_singleton, ← h.next, ← heq, take_length]
      simp only [pushCheckpoint, h.checkpoints, checkpointsOf]
      congr 1
      exact map_congr_left fun k hk => by rw [hsame k hk]
  · next hne =>
    have hquot : (fed ++ more).length / CHECKPOINT_INTERVAL_BYTES =
        fed.length / CHECKPOINT_INTERVAL_BYTES := by
      rw [CHECKPOINT_INTERVAL_BYTES]
      omega
    refine ⟨rfl, rfl, hquot ▸ h.next, ?_⟩
    rw [checkpointsOf, hquot, h.checkpoints, checkpointsOf]
    exact map_congr_left fun k hk => by rw [hsame k hk]

theorem Covers.updateLoop {before line : List UInt8} {offset : Nat}
    (h : Covers s (before ++ line.take offset))
    (hoffset : offset ≤ line.length) :
    Covers (updateLoop before.length line offset s) (before ++ line) := by
  induction offset, s using updateLoop.induct before.length line with
  | case1 offset s hlt hreached ih =>
    -- the next checkpoint is always behind the bytes fed
    have hnext := h.next
    rw [CHECKPOINT_INTERVAL_BYTES] at hnext
    simp only [length_append, length_take] at hnext
    omega
  | case2 offset s hlt hahead stop s' ih =>
    have hstop : stop ≤ line.length := Nat.min_le_left ..
    have hsplit : (before ++ line.take offset) ++ (line.take stop).drop offset =
        before ++ line.take stop := by
      have htake : line.take offset = (line.take stop).take offset := by
        rw [take_take, Nat.min_eq_left (by omega)]
      rw [append_assoc, htake, take_append_drop]
    have hlength : (before ++ line.take stop).length = before.length + stop := by
      rw [length_append, length_take, Nat.min_eq_left hstop]
    have hnext := h.append ((line.take stop).drop offset) (by rw [hsplit, hlength]; omega)
    rw [TranscriptHash.updateLoop, if_pos hlt, if_neg hahead]
    refine ih ?_ hstop
    rw [hsplit, hlength, ← hsplit, ← h.hash] at hnext
    rw [← hsplit, ← h.hash]
    exact hnext
  | case3 offset s hend =>
    rw [TranscriptHash.updateLoop, if_neg hend]
    rwa [take_of_length_le (by omega)] at h

theorem Covers.updateLines {lines : List (List UInt8)} (h : Covers s fed) :
    ∃ s', updateLines fed.length lines s = some s' ∧ Covers s' (fed ++ lines.flatten) := by
  induction lines generalizing s fed with
  | nil => exact ⟨s, rfl, by simpa using h⟩
  | cons line lines ih =>
    have hline : Covers (TranscriptHash.updateLoop fed.length line 0 s) (fed ++ line) :=
      .updateLoop (by simpa using h) (Nat.zero_le _)
    obtain ⟨s', hrest, hcovers⟩ := ih hline
    rw [append_assoc, ← flatten_cons] at hcovers
    refine ⟨s', ?_, hcovers⟩
    rw [TranscriptHash.updateLines, updateBoundedTranscriptHash,
      if_neg (not_not.mpr h.hashedOffset.symm), ← hrest, ← length_append, ← hline.hashedOffset]
    rfl

/-- A transcript that is fed line by line is accepted, its hash covers every byte once, and the
checkpoints are the multiples of the interval in it, each with the hash of the bytes before it. -/
theorem checkpoints_of_updateLines (lines : List (List UInt8)) :
    ∃ s, TranscriptHash.updateLines 0 lines {} = some s ∧ s.hash = lines.flatten ∧
      s.hashedOffset = lines.flatten.length ∧ s.checkpoints = checkpointsOf lines.flatten := by
  have hstart : Covers {} [] := ⟨rfl, rfl, rfl, rfl⟩
  obtain ⟨s, hs, hcovers⟩ := hstart.updateLines
  exact ⟨s, hs, hcovers.hash, hcovers.hashedOffset, hcovers.checkpoints⟩

end TranscriptHash
end Vibrato.Session
