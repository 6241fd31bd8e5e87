import Vibrato.Hashline.Absorb
import Mathlib.Data.List.Sort

/-! The second half of `hashline/apply.ts`: `applyHashlineEdits` validates the anchors, absorbs
duplicates, and splices the edits of each line into the file from the bottom up. -/

namespace Vibrato.Hashline

structure ApplyResult where
  lines : Text
  firstChangedLine : Option Nat
  warnings : List Text
  deriving DecidableEq

/-- An insertion after an anchor goes before the next line, or to the end after the last line. -/
def normalizeCursor (fileLines : List Text) : Edit → Edit
  | .insert (.afterAnchor anchor) text lineNum index =>
    if fileLines.length ≤ anchor.line then .insert .eof text lineNum index
    else
      let next := anchor.line + 1
      .insert (.beforeAnchor ⟨next, computeLineHash (lineAt fileLines next)⟩) text lineNum index
  | edit => edit

def bofText? : Edit → Option Text
  | .insert .bof text _ _ => some text
  | _ => none

def eofText? : Edit → Option Text
  | .insert .eof text _ _ => some text
  | _ => none

/-- The line whose bucket holds an edit, for the edits that are neither at the start nor at the end
of the file. -/
def bucketLine? : Edit → Option Nat
  | .delete anchor _ _ => some anchor.line
  | .insert (.beforeAnchor anchor) _ _ _ => some anchor.line
  | .insert .bof _ _ _ | .insert .eof _ _ _ => none
  | .insert (.afterAnchor _) _ _ _ => some 0

variable (edits : List Edit)

variable (line : Nat)

def bucketTexts : List Text :=
  (edits.filter (bucketLine? · = some line)).filterMap Edit.text?

def bucketDeletes : Bool :=
  (edits.filter (bucketLine? · = some line)).any fun edit => !edit.isInsert

def bucketLines : List Nat :=
  (edits.filterMap bucketLine?).dedup.insertionSort (· ≥ ·)

/-- What stands in the place of `line` after its bucket is applied. -/
def bucketReplacement (currentLine : Text) : List Text :=
  if bucketDeletes edits line then bucketTexts edits line
  else bucketTexts edits line ++ [currentLine]

variable (fileLines : List Text)

def spliceBucket (line : Nat) : List Text :=
  fileLines.take (line - 1) ++ bucketReplacement edits line (lineAt fileLines line) ++
    fileLines.drop line

def spliceBuckets : List Text :=
  (bucketLines edits).foldl (spliceBucket edits) fileLines

def insertAtStart (lines : List Text) : List Text :=
  if lines = [] then fileLines
  else if fileLines = [[]] then lines
  else lines ++ fileLines

/-- The index at which lines go to the end of a file: before the empty element that stands for a
trailing newline. -/
def endIndex : Nat :=
  if fileLines.getLast? = some [] then fileLines.length - 1 else fileLines.length

def insertAtEnd (lines : List Text) : List Text × Option Nat :=
  if lines = [] then (fileLines, none)
  else if fileLines = [[]] then (lines, some 1)
  else
    (fileLines.take (endIndex fileLines) ++ lines ++ fileLines.drop (endIndex fileLines),
      some (endIndex fileLines + 1))

def firstChanged (lines : List Nat) : Option Nat := lines.min?

def applyNormalizedEdits : List Text × List Nat :=
  let bofLines := edits.filterMap bofText?
  let spliced := insertAtStart (spliceBuckets edits fileLines) bofLines
  let (result, eofChangedLine) := insertAtEnd spliced (edits.filterMap eofText?)
  (result, bucketLines edits ++ (if bofLines = [] then [] else [1]) ++ eofChangedLine.toList)

def applyHashlineEdits (text : Text) (edits : List Edit) (autoDropPureInsertDuplicates : Bool) :
    Except ApplyError ApplyResult :=
  if edits = [] then .ok ⟨text, none, []⟩
  else do
    let fileLines := Text.splitLines text
    let mismatches ← validateHashlineAnchors edits fileLines
    if mismatches ≠ [] then .error (.mismatch mismatches)
    let (absorbed, warnings) :=
      absorbReplacementBoundaryDuplicates edits fileLines autoDropPureInsertDuplicates
    let (lines, changed) :=
      applyNormalizedEdits (absorbed.map (normalizeCursor fileLines)) fileLines
    return ⟨Text.joinLines lines, firstChanged changed, warnings⟩

end Vibrato.Hashline
