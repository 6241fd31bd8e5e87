import Vibrato.Output.Bytes

/-! `OutputSink` of `session/streaming-output.ts`: the head and the tail window of the visible text,
its counters, and the summary that `dump` composes. -/

namespace Vibrato.Output

open Lib

def COALESCE_FLUSH_CHARS : Nat := 64 * 1024

def ELLIPSIS : Char := '…'

/-- `sanitize` is `sanitizeOutputChunk`, and `formatMiddleElisionMarker` writes the elided lines and
bytes for the user's locale. -/
structure SinkOptions where
  spillThreshold : Nat
  headLimit : Nat
  maxColumns : Nat
  coalesceSanitize : Bool
  sanitize : Text → Text
  formatMiddleElisionMarker : Nat → Nat → Text

structure ColumnState where
  currentLineBytes : Nat
  columnEllipsisAdded : Bool
  columnDroppedBytes : Nat
  columnTruncatedLines : Nat

def capSegment (max : Nat) (segment : Text) (st : ColumnState) : Text × ColumnState :=
  if segment = [] then ([], st)
  else if st.columnEllipsisAdded then
    ([], { st with columnDroppedBytes := st.columnDroppedBytes + byteLength segment })
  else
    let remaining := max - st.currentLineBytes
    if byteLength segment ≤ remaining then
      (segment, { st with currentLineBytes := st.currentLineBytes + byteLength segment })
    else
      let headRoom := remaining - ELLIPSIS.utf8Size
      let sliced := if 0 < headRoom then truncateHeadBytes segment headRoom else ⟨[], 0⟩
      (sliced.text ++ [ELLIPSIS],
        { currentLineBytes := st.currentLineBytes + (sliced.bytes + ELLIPSIS.utf8Size)
          columnEllipsisAdded := true
          columnDroppedBytes := st.columnDroppedBytes + (byteLength segment - sliced.bytes)
          columnTruncatedLines := st.columnTruncatedLines + 1 })

/-- The loop of `applyColumnCap` over the parts of a chunk between newlines. -/
def capSegments (max : Nat) : List Text → ColumnState → Text × ColumnState
  | [], st => ([], st)
  | [part], st => capSegment max part st
  | part :: next :: rest, st =>
    let (capped, st) := capSegment max part st
    let (later, st) := capSegments max (next :: rest)
      { st with currentLineBytes := 0, columnEllipsisAdded := false }
    (capped ++ '\n' :: later, st)

def applyColumnCap (max : Nat) (chunk : Text) (st : ColumnState) : Text × ColumnState :=
  if chunk = [] then (chunk, st) else capSegments max (Text.splitLines chunk) st

structure Windows where
  head : Text
  headBytes : Nat
  buffer : Text
  bufferBytes : Nat
  truncated : Bool

namespace Windows

variable (o : SinkOptions)

def empty : Windows := ⟨[], 0, [], 0, false⟩

variable (w : Windows)

def appendHead (text : Text) (bytes : Nat) : Windows :=
  { w with head := w.head ++ text, headBytes := w.headBytes + bytes }

def appendTail (text : Text) (bytes : Nat) : Windows :=
  { w with buffer := w.buffer ++ text, bufferBytes := w.bufferBytes + bytes }

def trimTailTo (maxBytes : Nat) : Windows :=
  if w.bufferBytes ≤ maxBytes then w
  else
    let trimmed := truncateTailBytes w.buffer maxBytes
    { w with buffer := trimmed.text, bufferBytes := trimmed.bytes }

def pushTail (chunk : Text) (dataBytes : Nat) : Windows :=
  if dataBytes = 0 then w
  else if w.bufferBytes + dataBytes ≤ o.spillThreshold then w.appendTail chunk dataBytes
  else if o.spillThreshold ≤ dataBytes then
    let trimmed := truncateTailBytes chunk o.spillThreshold
    { w with buffer := trimmed.text, bufferBytes := trimmed.bytes, truncated := true }
  else ({ w with truncated := true }.appendTail chunk dataBytes).trimTailTo o.spillThreshold

/-- The end of `#ingest`: a visible chunk goes to the head while it has room, and then to the
tail. -/
def retain (visibleChunk : Text) : Windows :=
  let visibleBytes := byteLength visibleChunk
  if visibleBytes = 0 then w
  else if 0 < o.headLimit ∧ w.headBytes < o.headLimit then
    let room := o.headLimit - w.headBytes
    if visibleBytes ≤ room then w.appendHead visibleChunk visibleBytes
    else
      let headSlice := truncateHeadBytes visibleChunk room
      if 0 < headSlice.bytes then
        (w.appendHead headSlice.text headSlice.bytes).pushTail o
          (visibleChunk.drop headSlice.text.length) (visibleBytes - headSlice.bytes)
      else w.pushTail o visibleChunk visibleBytes
  else w.pushTail o visibleChunk visibleBytes

end Windows

structure OutputSink where
  windows : Windows
  columns : ColumnState
  totalLines : Nat
  totalBytes : Nat
  processedBytes : Nat
  processedLines : Nat
  sawData : Bool
  coalesceBuf : Text

namespace OutputSink

variable (o : SinkOptions)

def empty : OutputSink := ⟨.empty, ⟨0, false, 0, 0⟩, 0, 0, 0, 0, false, []⟩

def visibleChunk (columns : ColumnState) (chunk : Text) : Text × ColumnState :=
  if byteLength chunk = 0 then ([], columns)
  else if 0 < o.maxColumns then applyColumnCap o.maxColumns (o.sanitize chunk) columns
  else (o.sanitize chunk, columns)

variable (s : OutputSink)

def ingest (chunk : Text) : OutputSink :=
  let (visible, columns) := visibleChunk o s.columns chunk
  { windows := s.windows.retain o visible
    columns
    totalLines := s.totalLines + countNewlines chunk
    totalBytes := s.totalBytes + byteLength chunk
    processedBytes := s.processedBytes + byteLength visible
    processedLines := s.processedLines + countNewlines visible
    sawData := s.sawData || chunk ≠ []
    coalesceBuf := s.coalesceBuf }

def flushCoalesced : OutputSink :=
  if s.coalesceBuf = [] then s else ({ s with coalesceBuf := [] }).ingest o s.coalesceBuf

def push (chunk : Text) : OutputSink :=
  if o.coalesceSanitize then
    let s := { s with coalesceBuf := s.coalesceBuf ++ chunk }
    if COALESCE_FLUSH_CHARS ≤ utf16Length s.coalesceBuf then s.flushCoalesced o else s
  else s.ingest o chunk

def pushAll (chunks : List Text) : OutputSink := chunks.foldl (push o) empty

end OutputSink

structure OutputSummary where
  output : Text
  truncated : Bool
  totalLines : Nat
  totalBytes : Nat
  outputLines : Nat
  outputBytes : Nat
  elidedBytes : Option Nat
  elidedLines : Option Nat
  columnDroppedBytes : Option Nat
  columnTruncatedLines : Option Nat

/-- `count > 0 ? count : undefined`. -/
def positive? (count : Nat) : Option Nat := if 0 < count then some count else none

def noticeLine (notice : Text) : Text :=
  if notice = [] then [] else "[".toList ++ notice ++ "]\n".toList

/-- `dump` on a sink whose coalesced text is flushed. -/
def composeSummary (o : SinkOptions) (s : OutputSink) (notice : Text) : OutputSummary :=
  let head := s.windows.head
  let tail := s.windows.buffer
  let headBytes := byteLength head
  let tailBytes := byteLength tail
  let headLines := countNewlines head +
    if 0 < headBytes ∧ head.getLast? ≠ some '\n' then 1 else 0
  let tailLines := if tail = [] then 0 else countNewlines tail + 1
  let processedTotalLines := if s.sawData then s.processedLines + 1 else 0
  let base : OutputSummary :=
    { output := noticeLine notice ++ tail
      truncated := s.windows.truncated || 0 < s.columns.columnDroppedBytes
      totalLines := if s.sawData then s.totalLines + 1 else 0
      totalBytes := s.totalBytes
      outputLines := tailLines
      outputBytes := tailBytes
      elidedBytes := none
      elidedLines := none
      columnDroppedBytes := positive? s.columns.columnDroppedBytes
      columnTruncatedLines := positive? s.columns.columnTruncatedLines }
  if 0 < headBytes ∧ headBytes + tailBytes < s.processedBytes then
    let elidedBytes := s.processedBytes - headBytes - tailBytes
    let elidedLines := processedTotalLines - headLines - tailLines
    let marker := o.formatMiddleElisionMarker elidedLines elidedBytes
    let headSep := if head.getLast? = some '\n' then [] else ['\n']
    let tailSep := if tail.head? = some '\n' then [] else ['\n']
    { base with
      output := noticeLine notice ++ (head ++ headSep ++ marker ++ tailSep ++ tail)
      truncated := true
      outputLines := headLines + 1 + tailLines
      outputBytes := headBytes + byteLength marker + tailBytes + headSep.length + tailSep.length
      elidedBytes := some elidedBytes
      elidedLines := some elidedLines }
  else if 0 < headBytes then
    { base with
      output := noticeLine notice ++ (head ++ tail)
      outputLines := if head ++ tail = [] then 0 else countNewlines (head ++ tail) + 1
      outputBytes := headBytes + tailBytes }
  else base

def OutputSink.dump (o : SinkOptions) (s : OutputSink) (notice : Text) : OutputSummary :=
  composeSummary o (s.flushCoalesced o) notice

end Vibrato.Output
