import Vibrato.Vim.Buffer

/-! The vim engine: a buffer, the register, and the changes that can be undone.  Commands change the
buffer once the host has agreed (`#ensureEditable`). -/

namespace Vibrato.Vim

open Lib List

inductive RegisterKind where
  | char
  | line
deriving DecidableEq

structure VimRegister where
  kind : RegisterKind
  text : CodeUnits
deriving DecidableEq

inductive VimInputMode where
  | normal
  | insert
  | visual
  | visualLine
  | command

deriving instance DecidableEq for VimBuffer

structure VimUndoEntry where
  before : VimBuffer
  after : VimBuffer

structure PendingChange where
  before : VimBuffer
  moveCursorLeftOnEscape : Bool
  inserted : Bool

structure VimEngine where
  buffer : VimBuffer
  inputMode : VimInputMode
  register : VimRegister
  undoStack : List VimUndoEntry
  redoStack : List VimUndoEntry
  pendingChange : Option PendingChange

namespace VimEngine

def ofBuffer (buffer : VimBuffer) : VimEngine where
  buffer
  inputMode := .normal
  register := ⟨.char, []⟩
  undoStack := []
  redoStack := []
  pendingChange := none

def ofLines (lines : List CodeUnits) : VimEngine :=
  ofBuffer
    { lines := VimBuffer.orEmptyLine lines
      cursor := ⟨0, 0⟩
      modified := false
      trailingNewline := true
      inside := ⟨length_pos_of_ne_nil (VimBuffer.orEmptyLine_ne_nil lines), Nat.zero_le _⟩ }

end VimEngine

/-- What a command does to the buffer and the register. -/
abbrev Mutator := VimBuffer × VimRegister → VimBuffer × VimRegister

structure OffsetRange where
  start : Nat
  stop : Nat
  linewise : Bool

/-- Where a motion leads.  A difference that is negative in the source is cut off at 0, as
`clampLine` and `clampCol` do. -/
structure MotionResult where
  target : Position
  linewise : Bool := false
  inclusive : Bool := true
  range : Option OffsetRange := none

namespace VimBuffer

variable (b : VimBuffer)

/-- The offsets of whole lines, as motions, text objects, and visual selections compute them. -/
def linesRange (startLine endLine : Nat) : OffsetRange where
  start := b.positionToOffset ⟨startLine, 0⟩
  stop := if endLine ≥ b.lastLineIndex then b.getText.length
    else b.positionToOffset ⟨endLine + 1, 0⟩
  linewise := true

def resolveMotionRange (motion : MotionResult) : OffsetRange :=
  match motion.range with
  | some range => range
  | none =>
    if motion.linewise then
      b.linesRange (min b.cursor.line motion.target.line) (max b.cursor.line motion.target.line)
    else
      let start := b.positionToOffset b.cursor
      let stop := b.positionToOffset motion.target
      ⟨min start stop, max start stop + (if motion.inclusive then 1 else 0), false⟩

end VimBuffer

def yankAndDeleteRange (range : OffsetRange) : Mutator := fun (b, _) =>
  ((b.deleteOffsets range.start range.stop).2,
    ⟨if range.linewise then .line else .char, b.slice range.start range.stop⟩)

variable (count : Nat)

def deleteCharsForward : Mutator := fun (b, _) =>
  let start := b.currentOffset
  let (removed, next) := b.deleteOffsets start (min b.getText.length (start + count))
  (next, ⟨.char, removed⟩)

def deleteCharsBackward : Mutator := fun (b, _) =>
  let stop := b.currentOffset
  let (removed, next) := b.deleteOffsets (stop - count) stop
  (next, ⟨.char, removed⟩)

def replaceChars (replacement : UInt16) : Mutator := fun (b, register) =>
  let start := b.currentOffset
  (b.replaceOffsets start (min b.getText.length (start + count))
    (replicate count replacement) start, register)

/-- `dd` with a count. -/
def deleteWholeLines : Mutator := fun (b, _) =>
  let start := b.cursor.line
  let (removed, next) := b.deleteLines start (start + max 1 count - 1)
  (next, ⟨.line, joinLines removed⟩)

/-- `cc` with a count. -/
def changeWholeLines : Mutator := fun (b, _) =>
  let start := b.cursor.line
  let stop := b.clampLine (start + count - 1)
  let removed := (b.lines.take (stop + 1)).drop start
  let lines := b.lines.take start ++ [[]] ++ b.lines.drop (stop + 1)
  (b.place lines (by simp [lines]) ⟨min start (lines.length - 1), 0⟩, ⟨.line, joinLines removed⟩)

/-- The loop of `#paste` with whole lines. -/
def pasteLines (lines : List CodeUnits) (insertAt : Nat) : Nat → Nat → VimBuffer → VimBuffer
  | 0, _, b => b
  | rest + 1, iteration, b =>
    pasteLines lines insertAt rest (iteration + 1)
      (b.insertLines (insertAt + iteration * lines.length) lines)

def paste (after : Bool) (count : Nat) : Mutator := fun (b, register) =>
  if register.text = [] then (b, register)
  else
    match register.kind with
    | .line =>
      let insertAt := if after then b.cursor.line + 1 else b.cursor.line
      (pasteLines (splitText register.text) insertAt count 0 b, register)
    | .char =>
      let text := (replicate count register.text).flatten
      let offset := b.currentOffset + (if after then 1 else 0)
      (b.replaceOffsets offset offset text (offset + text.length), register)

namespace VimEngine

variable (e : VimEngine)

def mutate (mutator : Mutator) : VimEngine :=
  let next := mutator (e.buffer, e.register)
  { e with
    buffer := { next.1 with modified := true }
    register := next.2 }

variable (entry : VimUndoEntry)

def pushUndo : VimEngine :=
  if entry.before = entry.after then e
  else { e with undoStack := entry :: e.undoStack, redoStack := [] }

variable (mutator : Mutator)

def applyAtomicChange : VimEngine :=
  let next := e.mutate mutator
  next.pushUndo ⟨e.buffer, next.buffer⟩

def startInsertChange (moveCursorLeftOnEscape : Bool) : VimEngine :=
  { e.mutate mutator with
    pendingChange := some ⟨e.buffer, moveCursorLeftOnEscape, false⟩
    inputMode := .insert }

def commitPendingChange : VimEngine :=
  match e.pendingChange with
  | none => e
  | some pending => { e.pushUndo ⟨pending.before, e.buffer⟩ with pendingChange := none }

def exitInsertMode : VimEngine :=
  let buffer :=
    match e.pendingChange with
    | some pending =>
      if pending.moveCursorLeftOnEscape && pending.inserted && e.buffer.cursor.col > 0 then
        e.buffer.setCursor ⟨e.buffer.cursor.line, e.buffer.cursor.col - 1⟩
      else e.buffer
    | none => e.buffer
  commitPendingChange { e with buffer, inputMode := .normal }

@[simp] theorem pushUndo_buffer : (e.pushUndo entry).buffer = e.buffer := by
  unfold pushUndo
  split <;> rfl

@[simp] theorem pushUndo_register : (e.pushUndo entry).register = e.register := by
  unfold pushUndo
  split <;> rfl

@[simp] theorem pushUndo_pendingChange : (e.pushUndo entry).pendingChange = e.pendingChange := by
  unfold pushUndo
  split <;> rfl

@[simp] theorem pushUndo_inputMode : (e.pushUndo entry).inputMode = e.inputMode := by
  unfold pushUndo
  split <;> rfl

@[simp] theorem applyAtomicChange_buffer :
    (e.applyAtomicChange mutator).buffer = (e.mutate mutator).buffer := pushUndo_buffer _ _

@[simp] theorem applyAtomicChange_register :
    (e.applyAtomicChange mutator).register = (e.mutate mutator).register := pushUndo_register _ _

end VimEngine

end Vibrato.Vim
