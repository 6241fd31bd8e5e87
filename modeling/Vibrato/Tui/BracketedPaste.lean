import Vibrato.Lib.Occurrences
import Vibrato.Lib.Utf16

/-! Bracketed pastes (`tui/src/bracketed-paste.ts`): input is held back while it may be the
beginning of a paste or belongs to one, and released when the paste ends, when too much time has
passed, when escape is pressed, or when too much is held. -/

namespace Vibrato.Tui

open Lib List

/-- `"\x1b[200~"` -/
def PASTE_START : CodeUnits := [0x1b, 0x5b, 0x32, 0x30, 0x30, 0x7e]

/-- `"\x1b[201~"` -/
def PASTE_END : CodeUnits := [0x1b, 0x5b, 0x32, 0x30, 0x31, 0x7e]

/-- `"\x1b"` -/
def ESC : CodeUnits := [0x1b]

def BRACKETED_PASTE_FRAME_TIMEOUT_MS : Int := 1000

def BRACKETED_PASTE_FRAME_MAX_BYTES : Nat := 1024 * 1024

inductive PasteResult where
  | notHandled
  | handled (leading : CodeUnits) (pasteContent : Option CodeUnits) (remaining : CodeUnits)

/-- The loop of `partialStartSuffixLength`, from `length` down. -/
def partialStartFrom (value : CodeUnits) : Nat → Nat
  | 0 => 0
  | length + 1 =>
    if PASTE_START.take (length + 1) <:+ value then length + 1 else partialStartFrom value length

def partialStartSuffixLength (value : CodeUnits) : Nat :=
  partialStartFrom value (min value.length (PASTE_START.length - 1))

structure BracketedPasteHandler where
  buffer : CodeUnits := []
  leading : CodeUnits := []
  active : Bool := false
  pendingSince : Option Int := none

namespace BracketedPasteHandler

def hasPendingFrame (h : BracketedPasteHandler) : Bool :=
  h.active || 0 < h.buffer.length || 0 < h.leading.length

/-- The state that `#reset` leaves. -/
def reset : BracketedPasteHandler := {}

/-- The text that `#flushBuffered` returns. -/
def flushBuffered (h : BracketedPasteHandler) : CodeUnits :=
  if h.active then h.leading ++ PASTE_START ++ h.buffer else h.leading ++ h.buffer

def flushActive (h : BracketedPasteHandler) (remaining : CodeUnits) :
    BracketedPasteHandler × PasteResult :=
  (reset, .handled h.leading (some h.buffer) remaining)

/-- What `process` does when a frame is stale, and when escape is pressed. -/
def release (h : BracketedPasteHandler) (data : CodeUnits) : BracketedPasteHandler × PasteResult :=
  if h.active then h.flushActive data else (reset, .handled (h.flushBuffered ++ data) none [])

def stale (h : BracketedPasteHandler) (now : Int) : Bool :=
  h.hasPendingFrame &&
    match h.pendingSince with
    | some since => BRACKETED_PASTE_FRAME_TIMEOUT_MS ≤ now - since
    | none => false

def escaped (h : BracketedPasteHandler) (data : CodeUnits) : Bool :=
  h.hasPendingFrame && data == ESC

/-- The end of `process`: an active frame ends at its end marker. -/
def closeFrame (h : BracketedPasteHandler) : BracketedPasteHandler × PasteResult :=
  match indexOf PASTE_END h.buffer with
  | none =>
    if BRACKETED_PASTE_FRAME_MAX_BYTES <
        CodeUnits.byteLength h.leading + CodeUnits.byteLength PASTE_START +
          CodeUnits.byteLength h.buffer then
      h.flushActive []
    else (h, .handled [] none [])
  | some endIndex =>
    (reset, .handled h.leading (some (h.buffer.take endIndex))
      (h.buffer.drop (endIndex + PASTE_END.length)))

/-- `process` for input in which no paste starts. -/
def holdPartial (h : BracketedPasteHandler) (combined : CodeUnits) (now : Int) :
    BracketedPasteHandler × PasteResult :=
  let hadBufferedInput := h.hasPendingFrame
  let partialLength := partialStartSuffixLength combined
  if 0 < partialLength then
    let nextLeading := h.leading ++ combined.take (combined.length - partialLength)
    let nextBuffer := combined.drop (combined.length - partialLength)
    if BRACKETED_PASTE_FRAME_MAX_BYTES < CodeUnits.byteLength nextLeading +
      CodeUnits.byteLength nextBuffer then
      (reset, .handled (nextLeading ++ nextBuffer) none [])
    else
      ({ h with
          leading := nextLeading
          buffer := nextBuffer
          pendingSince := h.pendingSince.or (some now) }, .handled [] none [])
  else if hadBufferedInput || 0 < h.leading.length then
    (reset, .handled (h.leading ++ combined) none [])
  else ({ h with buffer := [] }, .notHandled)

/-- A paste starts at `startIndex`. -/
def openFrame (h : BracketedPasteHandler) (combined : CodeUnits) (startIndex : Nat) (now : Int) :
    BracketedPasteHandler :=
  { leading := h.leading ++ combined.take startIndex
    buffer := combined.drop (startIndex + PASTE_START.length)
    active := true
    pendingSince := h.pendingSince.or (some now) }

def process (h : BracketedPasteHandler) (data : CodeUnits) (now : Int) :
    BracketedPasteHandler × PasteResult :=
  if h.stale now then h.release data
  else if h.escaped data then h.release data
  else if h.active then closeFrame { h with buffer := h.buffer ++ data }
  else
    let combined := h.buffer ++ data
    match indexOf PASTE_START combined with
    | none => h.holdPartial combined now
    | some startIndex => closeFrame (h.openFrame combined startIndex now)

/-- A call of `process`: the input and the time. -/
structure Call where
  data : CodeUnits
  now : Int

def step (h : BracketedPasteHandler) (c : Call) : BracketedPasteHandler :=
  (h.process c.data c.now).1

def held (h : BracketedPasteHandler) : CodeUnits := h.leading ++ h.buffer

/-- The text that a call passes on: the parts of its result, or its input when it is not handled. -/
def output (c : Call) : PasteResult → CodeUnits
  | .notHandled => c.data
  | .handled leading pasteContent remaining => leading ++ pasteContent.getD [] ++ remaining

def outputs (h : BracketedPasteHandler) : List Call → CodeUnits
  | [] => []
  | c :: rest => output c (h.process c.data c.now).2 ++ outputs (h.step c) rest

def opens (h : BracketedPasteHandler) (c : Call) : Bool :=
  !h.stale c.now && !h.escaped c.data && !h.active &&
    (indexOf PASTE_START (h.buffer ++ c.data)).isSome

def frameBuffer (h : BracketedPasteHandler) (c : Call) : Option CodeUnits :=
  if h.active then some (h.buffer ++ c.data)
  else (indexOf PASTE_START (h.buffer ++ c.data)).map fun startIndex =>
    (h.buffer ++ c.data).drop (startIndex + PASTE_START.length)

def closes (h : BracketedPasteHandler) (c : Call) : Bool :=
  !h.stale c.now && !h.escaped c.data && (h.frameBuffer c).any fun buffer =>
    (indexOf PASTE_END buffer).isSome

/-- The number of calls that find what `finds` asks for. -/
def countCalls (finds : BracketedPasteHandler → Call → Bool) :
    BracketedPasteHandler → List Call → Nat
  | _, [] => 0
  | h, c :: rest => (finds h c).toNat + countCalls finds (h.step c) rest

end BracketedPasteHandler

/-- A piece of the input: text, or one of the markers around a paste. -/
inductive Piece where
  | text (s : CodeUnits)
  | pasteStart
  | pasteEnd
deriving DecidableEq

open Piece

namespace Piece

def input : Piece → CodeUnits
  | text s => s
  | pasteStart => PASTE_START
  | pasteEnd => PASTE_END

def unmarked : Piece → CodeUnits
  | text s => s
  | _ => []

end Piece

namespace BracketedPasteHandler

def callPieces (c : Call) (closed : Bool) : PasteResult → List Piece
  | .notHandled => [.text c.data]
  | .handled leading none remaining => [.text leading, .text remaining]
  | .handled leading (some content) remaining =>
    [.text leading, .pasteStart, .text content] ++ (if closed then [.pasteEnd] else []) ++
      [.text remaining]

def heldPieces (h : BracketedPasteHandler) : List Piece :=
  [.text h.leading] ++ (if h.active then [.pasteStart] else []) ++ [.text h.buffer]

/-- The pieces that a sequence of calls passes on, and at the end those that are held back. -/
def pieces (h : BracketedPasteHandler) : List Call → List Piece
  | [] => h.heldPieces
  | c :: rest => callPieces c (h.closes c) (h.process c.data c.now).2 ++ pieces (h.step c) rest

/-- How the pieces of a call and what is held after it make up what was held before it and its
input: no text is lost, and the markers are those that the call finds. -/
structure Accounts (h : BracketedPasteHandler) (c : Call) (opened closed : Bool)
    (next : BracketedPasteHandler × PasteResult) : Prop where
  input : (callPieces c closed next.2).flatMap input ++ next.1.heldPieces.flatMap input =
    h.heldPieces.flatMap input ++ c.data
  starts : (callPieces c closed next.2).count .pasteStart + next.1.heldPieces.count .pasteStart =
    h.heldPieces.count .pasteStart + opened.toNat
  ends : (callPieces c closed next.2).count .pasteEnd + next.1.heldPieces.count .pasteEnd =
    h.heldPieces.count .pasteEnd + closed.toNat

theorem release_accounts (h : BracketedPasteHandler) (c : Call) :
    h.Accounts c false false (h.release c.data) := by
  cases hactive : h.active <;> constructor <;>
    simp [release, flushActive, flushBuffered, reset, callPieces, heldPieces, hactive, input]

theorem closeFrame_accounts (frame : BracketedPasteHandler) {h : BracketedPasteHandler} {c : Call}
    {opened : Bool}
    (hactive : frame.active = true)
    (hinput : frame.heldPieces.flatMap input = h.heldPieces.flatMap input ++ c.data)
    (hstarts : 1 = h.heldPieces.count .pasteStart + opened.toNat) :
    h.Accounts c opened (indexOf PASTE_END frame.buffer).isSome frame.closeFrame := by
  have hends : h.heldPieces.count .pasteEnd = 0 := by
    cases hh : h.active <;> simp [heldPieces, hh]
  have hheld : frame.heldPieces.flatMap input = frame.leading ++ PASTE_START ++ frame.buffer := by
    simp [heldPieces, hactive, input]
  rw [hheld] at hinput
  unfold closeFrame
  cases hindex : indexOf PASTE_END frame.buffer with
  | none =>
    dsimp only
    split
    · refine ⟨?_, ?_, ?_⟩
      · rw [← hinput]
        simp [flushActive, reset, callPieces, heldPieces, input]
      · rw [← hstarts]
        simp [flushActive, reset, callPieces, heldPieces]
      · rw [hends]
        simp [flushActive, reset, callPieces, heldPieces]
    · refine ⟨?_, ?_, ?_⟩
      · rw [← hinput]
        simp [callPieces, heldPieces, hactive, input]
      · rw [← hstarts]
        simp [callPieces, heldPieces, hactive]
      · rw [hends]
        simp [callPieces, heldPieces, hactive]
  | some endIndex =>
    refine ⟨?_, ?_, ?_⟩
    · rw [← hinput]
      have hsplit := (indexOf_eq_some hindex).1.eq_append
      conv_rhs => rw [hsplit]
      simp [reset, callPieces, heldPieces, input]
    · rw [← hstarts]
      simp [reset, callPieces, heldPieces]
    · rw [hends]
      simp [reset, callPieces, heldPieces]

theorem holdPartial_accounts {h : BracketedPasteHandler} (c : Call) (hactive : h.active = false) :
    h.Accounts c false false (h.holdPartial (h.buffer ++ c.data) c.now) := by
  have hheld : h.heldPieces.flatMap input = h.leading ++ h.buffer := by
    simp [heldPieces, hactive, input]
  unfold holdPartial
  dsimp only
  split
  · split
    · constructor
      · simp [reset, callPieces, heldPieces, hactive, input]
      · simp [reset, callPieces, heldPieces, hactive]
      · simp [reset, callPieces, heldPieces, hactive]
    · constructor
      · simp [callPieces, heldPieces, hactive, input]
      · simp [callPieces, heldPieces, hactive]
      · simp [callPieces, heldPieces, hactive]
  · split
    · constructor
      · simp [reset, callPieces, heldPieces, hactive, input]
      · simp [reset, callPieces, heldPieces, hactive]
      · simp [reset, callPieces, heldPieces, hactive]
    · next hnone =>
      simp only [hasPendingFrame, hactive, Bool.false_or, Bool.or_eq_true, decide_eq_true_eq,
        length_pos_iff, not_or, not_not] at hnone
      constructor
      · simp [callPieces, heldPieces, hactive, hnone, input]
      · simp [callPieces, heldPieces, hactive]
      · simp [callPieces, heldPieces, hactive]

theorem process_accounts (h : BracketedPasteHandler) (c : Call) :
    h.Accounts c (h.opens c) (h.closes c) (h.process c.data c.now) := by
  unfold process
  by_cases hstale : h.stale c.now = true
  · simp only [hstale, if_true, opens, closes, Bool.not_true, Bool.false_and]
    exact h.release_accounts c
  by_cases hescaped : h.escaped c.data = true
  · simp only [hstale, hescaped, if_true, opens, closes, Bool.not_true, Bool.false_and,
      Bool.and_false]
    exact h.release_accounts c
  rw [if_neg hstale, if_neg hescaped]
  by_cases hactive : h.active = true
  · have hopens : h.opens c = false := by simp [opens, hactive]
    have hcloses : h.closes c = (indexOf PASTE_END (h.buffer ++ c.data)).isSome := by
      simp [closes, frameBuffer, hstale, hescaped, hactive]
    rw [if_pos hactive, hopens, hcloses]
    refine closeFrame_accounts { h with buffer := h.buffer ++ c.data } hactive ?_ ?_
    · simp [heldPieces, hactive, input]
    · simp [heldPieces, hactive]
  rw [if_neg hactive]
  rw [Bool.not_eq_true] at hactive
  dsimp only
  cases hindex : indexOf PASTE_START (h.buffer ++ c.data) with
  | none =>
    have hopens : h.opens c = false := by simp [opens, hindex]
    have hcloses : h.closes c = false := by simp [closes, frameBuffer, hactive, hindex]
    rw [hopens, hcloses]
    exact holdPartial_accounts c hactive
  | some startIndex =>
    have hopens : h.opens c = true := by simp [opens, hstale, hescaped, hactive, hindex]
    have hcloses : h.closes c =
        (indexOf PASTE_END
          ((h.buffer ++ c.data).drop (startIndex + PASTE_START.length))).isSome := by
      simp [closes, frameBuffer, hstale, hescaped, hactive, hindex]
    rw [hopens, hcloses]
    refine closeFrame_accounts (h.openFrame (h.buffer ++ c.data) startIndex c.now) rfl ?_ ?_
    · have hsplit := (indexOf_eq_some hindex).1.eq_append
      have hheld : h.heldPieces.flatMap input ++ c.data = h.leading ++ (h.buffer ++ c.data) := by
        simp [heldPieces, hactive, input]
      rw [hheld]
      conv_rhs => rw [hsplit]
      simp [heldPieces, openFrame, input]
    · simp [heldPieces, hactive]

theorem pieces_input (h : BracketedPasteHandler) (calls : List Call) :
    (h.pieces calls).flatMap input = h.heldPieces.flatMap input ++ calls.flatMap (·.data) := by
  induction calls generalizing h with
  | nil => simp [pieces]
  | cons c rest ih =>
    have hstep := (h.process_accounts c).input
    rw [pieces, flatMap_append, ih, ← append_assoc, flatMap_cons, ← append_assoc, ← hstep]
    rfl

theorem callPieces_unmarked (c : Call) (closed : Bool) (r : PasteResult) :
    (callPieces c closed r).flatMap unmarked = output c r := by
  match r with
  | .notHandled => simp [callPieces, output, unmarked]
  | .handled leading none remaining => simp [callPieces, output, unmarked]
  | .handled leading (some content) remaining =>
      cases closed <;> simp [callPieces, output, unmarked]

variable (h : BracketedPasteHandler)
include h

theorem heldPieces_unmarked : h.heldPieces.flatMap unmarked = h.held := by
  cases hactive : h.active <;> simp [heldPieces, held, hactive, unmarked]

theorem pieces_unmarked (calls : List Call) :
    (h.pieces calls).flatMap unmarked = h.outputs calls ++ (calls.foldl step h).held := by
  induction calls generalizing h with
  | nil => simp [pieces, outputs, heldPieces_unmarked]
  | cons c rest ih =>
    rw [pieces, flatMap_append, callPieces_unmarked, ih, outputs, append_assoc, foldl_cons]

theorem pieces_count_start (calls : List Call) :
    (h.pieces calls).count .pasteStart =
      h.heldPieces.count .pasteStart + countCalls opens h calls := by
  induction calls generalizing h with
  | nil => simp [pieces, countCalls]
  | cons c rest ih =>
    have hstep := (h.process_accounts c).starts
    rw [pieces, count_append, ih, countCalls, ← Nat.add_assoc, ← Nat.add_assoc, ← hstep]
    rfl

theorem pieces_count_end (calls : List Call) :
    (h.pieces calls).count .pasteEnd =
      h.heldPieces.count .pasteEnd + countCalls closes h calls := by
  induction calls generalizing h with
  | nil => simp [pieces, countCalls]
  | cons c rest ih =>
    have hstep := (h.process_accounts c).ends
    rw [pieces, count_append, ih, countCalls, ← Nat.add_assoc, ← Nat.add_assoc, ← hstep]
    rfl

omit h

/-- The inputs of any calls are a sequence of pieces of text and markers; without the markers they
are the text that the calls passed on and the text that is still held. There is one start marker for
each call that opened a paste and one end marker for each call that closed one. -/
theorem outputs_conserve (calls : List Call) :
    let h : BracketedPasteHandler := {}
    (h.pieces calls).flatMap input = calls.flatMap (·.data) ∧
      (h.pieces calls).flatMap unmarked = h.outputs calls ++ (calls.foldl step h).held ∧
      (h.pieces calls).count .pasteStart = countCalls opens h calls ∧
      (h.pieces calls).count .pasteEnd = countCalls closes h calls := by
  intro h
  refine ⟨?_, h.pieces_unmarked calls, ?_, ?_⟩
  · rw [h.pieces_input]
    rfl
  · rw [h.pieces_count_start]
    exact Nat.zero_add _
  · rw [h.pieces_count_end]
    exact Nat.zero_add _

end BracketedPasteHandler

end Vibrato.Tui
