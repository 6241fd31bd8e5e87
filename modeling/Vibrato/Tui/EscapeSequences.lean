import Vibrato.Lib.Utf16

/-! The sequences of terminal input (`tui/src/stdin-buffer.ts`): `extractCompleteSequences` takes
from a buffer the escape sequences and characters that are complete, and leaves what may still go
on. -/

namespace Vibrato.Tui.Stdin

open Lib CodeUnits

def ESC : UInt16 := 0x1B

/-- The results of `isCompleteSequence`. -/
inductive Status where
  | complete
  | incomplete
  | notEscape
deriving DecidableEq

/-- `isCompleteCsiSequence`: a final byte in `@` to `~`, which is `M` or `m` in a mouse report. -/
def isCompleteCsiSequence (data : CodeUnits) : Status :=
  if ¬ [ESC, 0x5B] <+: data then .complete
  else if data.length < 3 then .incomplete
  else
    let payload := data.drop 2
    let lastChar := payload.getLast?.getD 0
    if 0x40 ≤ lastChar ∧ lastChar ≤ 0x7E then
      if payload.head? = some 0x3C then
        if lastChar = 0x4D ∨ lastChar = 0x6D then .complete else .incomplete
      else .complete
    else .incomplete

/-- A sequence that its introducer opens and `ESC \` ends, or also `BEL`. -/
def isCompleteStringSequence (introducer : UInt16) (bel : Bool) (data : CodeUnits) : Status :=
  if ¬ [ESC, introducer] <+: data then .complete
  else if [ESC, 0x5C] <:+ data ∨ bel = true ∧ [0x07] <:+ data then .complete
  else .incomplete

def isCompleteOscSequence : CodeUnits → Status := isCompleteStringSequence 0x5D true

def isCompleteDcsSequence : CodeUnits → Status := isCompleteStringSequence 0x50 false

def isCompleteApcSequence : CodeUnits → Status := isCompleteStringSequence 0x5F false

def isCompleteSequence : CodeUnits → Status
  | [] => .notEscape
  | [c] => if c = ESC then .incomplete else .notEscape
  | c :: d :: rest =>
    if c ≠ ESC then .notEscape
    else if d = ESC then isCompleteSequence (d :: rest)
    else if d = 0x5B then
      if rest.head? = some 0x4D then (if (c :: d :: rest).length ≥ 6 then .complete
        else .incomplete)
      else isCompleteCsiSequence (c :: d :: rest)
    else if d = 0x5D then isCompleteOscSequence (c :: d :: rest)
    else if d = 0x50 then isCompleteDcsSequence (c :: d :: rest)
    else if d = 0x5F then isCompleteApcSequence (c :: d :: rest)
    else if d = 0x4F then (if rest.length ≥ 1 then .complete else .incomplete)
    else if rest.length = 0 then (if isHigh d then .incomplete else .complete)
    else .complete

variable (remaining : CodeUnits)

/-- The introducers of the strings that `ESC \` ends: `]`, `P`, and `_`. -/
def opensString : Bool :=
  remaining[1]? = some 0x5D || remaining[1]? = some 0x50 || remaining[1]? = some 0x5F

def continuesAsStringTerminator (index : Nat) : Bool :=
  opensString remaining && remaining[index + 1]?.all (· = 0x5C)

def splitResolvedEscapeRun (buffer : CodeUnits) : List CodeUnits :=
  if 2 ≤ buffer.length ∧ buffer.all (· = ESC) then buffer.map fun u => [u] else [buffer]

/-- The search for the end of an escape sequence stops here: the candidate is complete, or an `ESC`
follows that cancels it. -/
def endsAt (seqEnd : Nat) : Bool :=
  isCompleteSequence (remaining.take seqEnd) ≠ .incomplete ||
    (remaining[seqEnd]? = some ESC && 2 ≤ seqEnd && !continuesAsStringTerminator remaining seqEnd)

def findEnd : Option Nat := (List.range' 1 remaining.length).find? (endsAt remaining)

/-- The sequences that are taken where the search stops, and how much of the buffer they are. A
candidate of nothing but `ESC` is as many key presses, the last of which may belong to what
follows. -/
def taken (seqEnd : Nat) : List CodeUnits × Nat :=
  let candidate := remaining.take seqEnd
  let trailing := remaining.drop seqEnd
  if isCompleteSequence candidate ≠ .incomplete then ([candidate], seqEnd)
  else if candidate.all (· = ESC) then
    if trailing[0]? = some ESC ∧ trailing[1]?.any (· ≠ ESC) then
      (candidate.dropLast.map fun u => [u], seqEnd - 1)
    else (candidate.map fun u => [u], seqEnd)
  else ([candidate], seqEnd)

/-- The number of `ESC` at the start, where so many are known. -/
def runLength (known : Nat) (remaining : CodeUnits) : Nat :=
  max known 1 + ((remaining.drop (max known 1)).takeWhile (· = ESC)).length

/-- What one round of the loop of `extractCompleteSequences` does: sequences are taken, or the rest
of the buffer is left, which may be a run of `ESC`. -/
inductive Round where
  | take (sequences : List CodeUnits) (length : Nat)
  | leave (sequences : List CodeUnits) (remainder : CodeUnits) (escapeRunRemainder : Nat)

def round (known : Nat) (remaining : CodeUnits) : Round :=
  if remaining[0]? = some ESC then
    if 3 ≤ remaining.length ∧ remaining[1]?.any isHigh ∧ remaining[2]?.all (!isLow ·) then
      .take [remaining.take 2] 2
    else
      let runLength := runLength known remaining
      if runLength = remaining.length then
        .leave (List.replicate (runLength - 2) [ESC]) (remaining.drop (runLength - 2))
          (min runLength 2)
      else if runLength > 2 then .take (List.replicate (runLength - 2) [ESC]) (runLength - 2)
      else
        match findEnd remaining with
        | none => .leave [] remaining 0
        | some seqEnd => .take (taken remaining seqEnd).1 (taken remaining seqEnd).2
  else if remaining[0]?.any isHigh then
    if remaining.length = 1 then .leave [] remaining 0
    else if remaining[1]?.any isLow then .take [remaining.take 2] 2
    else .take [remaining.take 1] 1
  else .take [remaining.take 1] 1

/-- The result of `extractCompleteSequences`. -/
structure Extracted where
  sequences : List CodeUnits := []
  remainder : CodeUnits := []
  escapeRunRemainder : Nat := 0
deriving DecidableEq

/-- The loop of `extractCompleteSequences`; every round takes something, or is the last. -/
def extractFrom : Nat → Nat → CodeUnits → Extracted
  | 0, _, _ => {}
  | fuel + 1, known, remaining =>
    if remaining = [] then {}
    else
      match round known remaining with
      | .leave sequences remainder escapeRunRemainder =>
          { sequences, remainder, escapeRunRemainder }
      | .take sequences length =>
        let rest := extractFrom fuel 0 (remaining.drop length)
        { rest with sequences := sequences ++ rest.sequences }

def extractCompleteSequences (buffer : CodeUnits) (knownEscapeRunLength : Nat) : Extracted :=
  extractFrom (buffer.length + 1) knownEscapeRunLength buffer

end Vibrato.Tui.Stdin
