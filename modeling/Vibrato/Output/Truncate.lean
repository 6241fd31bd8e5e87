import Vibrato.Output.Bytes

/-! `truncateHead`, `truncateTail`, `truncateMiddleWindows`, `truncateMiddle` and `truncateContent`
of `session/streaming-output.ts`, and the bound that they keep. -/

namespace Vibrato.Output

open Lib Text

def DEFAULT_MAX_LINES : Nat := 3000

def DEFAULT_MAX_BYTES : Nat := 50 * 1024

inductive TruncationDirection where
  | head
  | last
  | both

structure TruncationOptions where
  maxLines : Option Nat := none
  maxBytes : Option Nat := none
  maxHeadBytes : Option Nat := none
  maxHeadLines : Option Nat := none
  direction : Option TruncationDirection := none

inductive TruncatedBy where
  | lines
  | bytes
  | middle
  deriving DecidableEq

structure TruncationResult where
  content : Text
  truncated : Bool := false
  truncatedBy : Option TruncatedBy := none
  totalLines : Nat
  totalBytes : Nat
  outputLines : Option Nat := none
  outputBytes : Option Nat := none
  elidedBytes : Option Nat := none
  elidedLines : Option Nat := none
  lastLinePartial : Bool := false
  firstLineExceedsLimit : Bool := false
  lastLineExceedsLimit : Bool := false
  deriving DecidableEq

variable (content : Text)

def lineCount : Nat := countNewlines content + 1

def noTruncResult : TruncationResult :=
  { content, totalLines := lineCount content, totalBytes := byteLength content }

/-- The state of the loops; `rejected` is a line that has too many bytes. -/
structure Scan where
  includedLines : Nat
  bytesUsed : Nat
  truncatedBy : TruncatedBy
  rejected : Option Text

def scanLines (maxLines maxBytes : Nat) : List Text → Scan → Scan
  | [], st => st
  | line :: lines, st =>
    if st.includedLines < maxLines then
      let sepBytes := if 0 < st.includedLines then 1 else 0
      if maxBytes < st.bytesUsed + sepBytes then { st with truncatedBy := .bytes }
      else
        let remaining := maxBytes - st.bytesUsed - sepBytes
        if remaining < utf16Length line ∨ remaining < byteLength line then
          { st with truncatedBy := .bytes, rejected := some line }
        else
          scanLines maxLines maxBytes lines
            { st with
              bytesUsed := st.bytesUsed + (sepBytes + byteLength line)
              includedLines := st.includedLines + 1 }
    else st

def scan (maxLines maxBytes : Nat) (lines : List Text) : Scan :=
  scanLines maxLines maxBytes lines ⟨0, 0, .lines, none⟩

def linesResult (kept : Text) (maxLines maxBytes : Nat) (st : Scan) : TruncationResult :=
  { content := kept
    truncated := true
    truncatedBy :=
      if maxLines ≤ st.includedLines ∧ st.bytesUsed ≤ maxBytes then some .lines
      else some st.truncatedBy
    totalLines := lineCount content
    totalBytes := byteLength content
    outputLines := some st.includedLines
    outputBytes := some st.bytesUsed }

/-- `truncateHead` with its limits. -/
def truncateHeadTo (maxLines maxBytes : Nat) : TruncationResult :=
  if lineCount content ≤ maxLines ∧ byteLength content ≤ maxBytes then noTruncResult content
  else
    let lines := splitLines content
    let st := scan maxLines maxBytes lines
    if st.includedLines = 0 ∧ st.rejected ≠ none then
      { content := []
        truncated := true
        truncatedBy := some .bytes
        totalLines := lineCount content
        totalBytes := byteLength content
        outputLines := some 0
        outputBytes := some 0
        firstLineExceedsLimit := true }
    else linesResult content (joinLines (lines.take st.includedLines)) maxLines maxBytes st

def partialLine (line : Text) (maxBytes : Nat) : ByteTruncationResult :=
  if maxBytes < utf16Length line then truncateTailBytes (windowTail maxBytes line) maxBytes
  else truncateTailBytes line maxBytes

/-- `truncateTail` with its limits. -/
def truncateTailTo (maxLines maxBytes : Nat) : TruncationResult :=
  if lineCount content ≤ maxLines ∧ byteLength content ≤ maxBytes then noTruncResult content
  else
    let lines := (splitLines content).reverse
    let st := scan maxLines maxBytes lines
    match st.includedLines, st.rejected with
    | 0, some line =>
      let tail := partialLine line maxBytes
      { content := tail.text
        truncated := true
        truncatedBy := some .bytes
        totalLines := lineCount content
        totalBytes := byteLength content
        outputLines := some 1
        outputBytes := some tail.bytes
        lastLinePartial := true
        lastLineExceedsLimit := true }
    | included, _ =>
      linesResult content (joinLines (lines.take included).reverse) maxLines maxBytes st

variable (options : TruncationOptions)

def truncateHead : TruncationResult :=
  truncateHeadTo content (options.maxLines.getD DEFAULT_MAX_LINES)
    (options.maxBytes.getD DEFAULT_MAX_BYTES)

def truncateTail : TruncationResult :=
  truncateTailTo content (options.maxLines.getD DEFAULT_MAX_LINES)
    (options.maxBytes.getD DEFAULT_MAX_BYTES)

structure Origin where
  startLine : Nat
  endLine : Nat

/-- `partialOf` holds the `sourceLineBytes` of a `"partial-line"` segment. -/
structure ReadSegment where
  content : Text
  lines : Nat
  bytes : Nat
  origin : Origin
  partialOf : Option Nat

inductive WindowKind where
  | full
  | headOnly
  | tailOnly
  | middle
  deriving DecidableEq

inductive Overlap where
  | disjoint
  | adjacent
  | overlapping

structure ReadWindow where
  kind : WindowKind
  head : Option ReadSegment := none
  tail : Option ReadSegment := none
  overlap : Overlap
  elidedLines : Nat
  elidedBytes : Nat
  totalLines : Nat
  totalBytes : Nat
  truncatedBy : Option TruncatedBy := none

variable (result : TruncationResult)

def outputLineCount : Nat :=
  result.outputLines.getD (if result.content = [] then 0 else countNewlines result.content + 1)

def outputByteCount : Nat :=
  result.outputBytes.getD (byteLength result.content)

def lastSourceLineBytes : Nat :=
  byteLength ((splitLines content).getLast?.getD [])

def makeReadSegment (startLine totalLines : Nat) (sourceContent : Text) : Option ReadSegment :=
  let lines := outputLineCount result
  if lines = 0 then none
  else
    let bytes := outputByteCount result
    let endLine := min totalLines (startLine + lines - 1)
    if result.lastLinePartial then
      some ⟨result.content, 1, bytes, ⟨endLine, endLine⟩, some (lastSourceLineBytes sourceContent)⟩
    else some ⟨result.content, lines, bytes, ⟨startLine, endLine⟩, none⟩

def fullReadWindow (overlap : Overlap) : ReadWindow :=
  let totalLines := lineCount content
  let totalBytes := byteLength content
  { kind := .full
    head := some ⟨content, totalLines, totalBytes, ⟨1, totalLines⟩, none⟩
    overlap
    elidedLines := 0
    elidedBytes := 0
    totalLines
    totalBytes }

structure Budgets where
  maxBytes : Nat
  maxLines : Nat
  headBytes : Nat
  headLines : Nat

namespace Budgets

def ofOptions (options : TruncationOptions) : Budgets :=
  let maxBytes := options.maxBytes.getD DEFAULT_MAX_BYTES
  let maxLines := options.maxLines.getD DEFAULT_MAX_LINES
  { maxBytes
    maxLines
    headBytes := options.maxHeadBytes.getD (maxBytes / 2)
    headLines := options.maxHeadLines.getD (max 1 (maxLines / 2)) }

variable (b : Budgets)

def tailBytes : Nat := b.maxBytes - b.headBytes

def tailLines : Nat := b.maxLines - b.headLines

/-- `tailBytes || maxBytes`. -/
def onlyTailBytes : Nat := if b.tailBytes = 0 then b.maxBytes else b.tailBytes

/-- `tailLines || maxLines`. -/
def onlyTailLines : Nat := if b.tailLines = 0 then b.maxLines else b.tailLines

end Budgets

def oneSided (content : Text) (kind : WindowKind) (result : TruncationResult) (startLine : Nat) :
    ReadWindow :=
  let totalLines := lineCount content
  let totalBytes := byteLength content
  let segment := makeReadSegment result startLine totalLines content
  { kind
    head := if kind = .headOnly then segment else none
    tail := if kind = .headOnly then none else segment
    overlap := .disjoint
    elidedLines := totalLines - outputLineCount result
    elidedBytes := totalBytes - outputByteCount result
    totalLines
    totalBytes
    truncatedBy := if result.truncatedBy = some .lines then some .lines else some .bytes }

/-- The end of `truncateMiddleWindows`, where both windows are usable. -/
def bothSided (content : Text) (head tail : TruncationResult) : ReadWindow :=
  let totalLines := lineCount content
  let totalBytes := byteLength content
  let headLinesKept := outputLineCount head
  let tailLinesKept := outputLineCount tail
  let tailStart := totalLines - tailLinesKept + 1
  let overlap : Overlap :=
    if headLinesKept + 1 < tailStart then .disjoint
    else if headLinesKept + 1 = tailStart then .adjacent
    else .overlapping
  if totalLines ≤ headLinesKept + tailLinesKept ∧ tail.lastLinePartial = false then
    fullReadWindow content overlap
  else
    match makeReadSegment head 1 totalLines content,
        makeReadSegment tail tailStart totalLines content with
    | some headWindow, some tailWindow =>
      let partialSourceBytes := tailWindow.partialOf.getD tailWindow.bytes
      { kind := .middle
        head := some headWindow
        tail := some tailWindow
        overlap
        elidedLines :=
          if tail.lastLinePartial then tailStart - headLinesKept - 1
          else totalLines - headLinesKept - tailLinesKept
        elidedBytes :=
          if tail.lastLinePartial then totalBytes - outputByteCount head - partialSourceBytes
          else totalBytes - outputByteCount head - outputByteCount tail
        totalLines
        totalBytes
        truncatedBy := some .middle }
    | _, _ => fullReadWindow content overlap

/-- `truncateMiddleWindows` with its limits. -/
def middleWindows (content : Text) (b : Budgets) : ReadWindow :=
  let totalLines := lineCount content
  if byteLength content ≤ b.maxBytes ∧ totalLines ≤ b.maxLines then
    fullReadWindow content .disjoint
  else if b.headBytes = 0 ∨ b.headLines = 0 then
    let tail := truncateTailTo content b.onlyTailLines b.onlyTailBytes
    oneSided content .tailOnly tail (totalLines - outputLineCount tail + 1)
  else
    let head := truncateHeadTo content b.headLines b.headBytes
    if b.tailBytes = 0 ∨ b.tailLines = 0 then oneSided content .headOnly head 1
    else
      let tail := truncateTailTo content b.tailLines b.tailBytes
      if outputLineCount head = 0 ∨ head.firstLineExceedsLimit then
        oneSided content .tailOnly tail (totalLines - outputLineCount tail + 1)
      else if outputLineCount tail = 0 then oneSided content .headOnly head 1
      else bothSided content head tail

def truncateMiddleWindows (content : Text) (options : TruncationOptions) : ReadWindow :=
  middleWindows content (.ofOptions options)

section Marker

variable (formatMiddleElisionMarker : Nat → Nat → Text)

/-- The `"middle"` case of `truncateMiddle`. -/
def composeMiddle (content : Text) (windows : ReadWindow) (head tail : ReadSegment) :
    TruncationResult :=
  if windows.totalLines ≤ head.lines + tail.lines then noTruncResult content
  else
    let legacyElidedLines := windows.totalLines - head.lines - tail.lines
    let legacyElidedBytes :=
      if tail.partialOf.isSome then windows.totalBytes - head.bytes - tail.bytes
      else windows.elidedBytes
    let marker := formatMiddleElisionMarker legacyElidedLines legacyElidedBytes
    { content := head.content ++ '\n' :: (marker ++ '\n' :: tail.content)
      truncated := true
      truncatedBy := some .middle
      totalLines := windows.totalLines
      totalBytes := windows.totalBytes
      outputLines := some (head.lines + tail.lines + 1)
      outputBytes := some (head.bytes + tail.bytes + byteLength marker + 2)
      elidedLines := some legacyElidedLines
      elidedBytes := some legacyElidedBytes
      lastLinePartial := tail.partialOf.isSome
      lastLineExceedsLimit := tail.partialOf.isSome }

def truncateMiddle (content : Text) (options : TruncationOptions) : TruncationResult :=
  let b := Budgets.ofOptions options
  let windows := truncateMiddleWindows content options
  match windows.kind with
  | .full => noTruncResult content
  | .tailOnly => truncateTailTo content b.onlyTailLines b.onlyTailBytes
  | .headOnly => truncateHeadTo content b.headLines b.headBytes
  | .middle =>
    match windows.head, windows.tail with
    | some head, some tail => composeMiddle formatMiddleElisionMarker content windows head tail
    | _, _ => noTruncResult content

def truncateContent (content : Text) (options : TruncationOptions) : TruncationResult :=
  match options.direction with
  | some .last => truncateTail content options
  | some .both => truncateMiddle formatMiddleElisionMarker content options
  | _ => truncateHead content options

end Marker

end Vibrato.Output
