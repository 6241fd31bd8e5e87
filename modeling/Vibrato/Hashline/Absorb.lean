import Vibrato.Hashline.Parser

/-! The first half of `hashline/apply.ts`: the validation of anchors, and
`absorbReplacementBoundaryDuplicates`, which widens a replacement over neighbouring file lines that
its payload repeats, and drops payload lines of an insertion that repeat its neighbours. -/

namespace Vibrato.Hashline

open Text

structure HashMismatch where
  line : Nat
  expected : Text
  actual : Text
  deriving DecidableEq

/-- What `applyHashlineEdits` throws: an anchor outside the file, or a `HashlineMismatchError`. -/
inductive ApplyError where
  | lineMissing (line lineCount : Nat)
  | mismatch (mismatches : List HashMismatch)
  deriving DecidableEq

def getHashlineEditAnchors : Edit → List Anchor
  | .delete anchor _ _ => [anchor]
  | .insert (.beforeAnchor anchor) _ _ _ => [anchor]
  | .insert (.afterAnchor anchor) _ _ _ => [anchor]
  | .insert _ _ _ _ => []

/-- The line at the one-based number `line`. -/
def lineAt (fileLines : List Text) (line : Nat) : Text := fileLines.getD (line - 1) []

/-- The checks of `validateHashlineAnchors`, one anchor after the other. -/
def validateAnchors (fileLines : List Text) : List Anchor → Except ApplyError (List HashMismatch)
  | [] => .ok []
  | anchor :: anchors =>
    if anchor.line < 1 ∨ fileLines.length < anchor.line then
      .error (.lineMissing anchor.line fileLines.length)
    else do
      let later ← validateAnchors fileLines anchors
      let actual := computeLineHash (lineAt fileLines anchor.line)
      if anchor.hash = RANGE_INTERIOR_HASH ∨ actual = anchor.hash then return later
      else return ⟨anchor.line, anchor.hash, actual⟩ :: later

def validateHashlineAnchors (edits : List Edit) (fileLines : List Text) :
    Except ApplyError (List HashMismatch) :=
  validateAnchors fileLines (edits.flatMap getHashlineEditAnchors)

def getAnchorTargetLine : Edit → Option Nat
  | .delete anchor _ _ => some anchor.line
  | .insert (.beforeAnchor anchor) _ _ _ => some anchor.line
  | .insert (.afterAnchor anchor) _ _ _ => some anchor.line
  | .insert _ _ _ _ => none

def collectAnchorTargetLines (edits : List Edit) : List Nat := edits.filterMap getAnchorTargetLine

/-- A replacement found at the start of a list of edits: its edits, its payload, the anchors it
deletes, and the edits after it. -/
structure ReplacementGroup where
  sourceLineNum : Nat
  replacement : List Text
  deletes : List Anchor
  edits : List Edit
  rest : List Edit

namespace ReplacementGroup

variable (group : ReplacementGroup)

def startLine : Nat := (group.deletes.head?.map Anchor.line).getD 0

def endLine : Nat := (group.deletes.getLast?.map Anchor.line).getD 0

end ReplacementGroup

def isReplacementInsert (lineNum : Nat) : Edit → Bool
  | .insert (.beforeAnchor _) _ n _ => n == lineNum
  | _ => false

def isDeleteOf (lineNum : Nat) : Edit → Bool
  | .delete _ n _ => n == lineNum
  | .insert .. => false

def Edit.text? : Edit → Option Text
  | .insert _ text _ _ => some text
  | .delete .. => none

def Edit.deleteAnchor? : Edit → Option Anchor
  | .delete anchor _ _ => some anchor
  | .insert .. => none

/-- Insertions before one anchor followed by deletions of consecutive lines from that anchor on,
all of one source line. -/
def findReplacementGroup (edits : List Edit) : Option ReplacementGroup :=
  match edits with
  | .insert (.beforeAnchor anchor) _ lineNum _ :: _ =>
    let inserts := edits.takeWhile (isReplacementInsert lineNum)
    let afterInserts := edits.dropWhile (isReplacementInsert lineNum)
    let deleteEdits := afterInserts.takeWhile (isDeleteOf lineNum)
    let deletes := deleteEdits.filterMap Edit.deleteAnchor?
    match deletes with
    | [] => none
    | first :: _ =>
      if deletes.map Anchor.line = List.range' first.line deletes.length ∧
          anchor.line = first.line then
        some { sourceLineNum := lineNum, replacement := inserts.filterMap Edit.text?,
               deletes, edits := inserts ++ deleteEdits,
               rest := afterInserts.dropWhile (isDeleteOf lineNum) }
      else none
  | _ => none

/-- `for (let count = max; count >= 2; count--) if (matches) return count; return 0`. -/
def largestBlock (isMatch : Nat → Bool) : Nat → Nat
  | 0 => 0
  | 1 => 0
  | n + 2 => if isMatch (n + 2) then n + 2 else largestBlock isMatch (n + 1)

variable (fileLines : List Text)

/-- The longest block, of two lines or more, that ends above `startLine` and starts `payload`. -/
def countMatchingPrefixBlock (startLine : Nat) (payload : List Text) : Nat :=
  largestBlock (fun count => (fileLines.drop (startLine - 1 - count)).take count ==
    payload.take count)
    (min payload.length (startLine - 1))

/-- The longest block, of two lines or more, that starts below `endLine` and ends `payload`. -/
def countMatchingSuffixBlock (endLine : Nat) (payload : List Text) : Nat :=
  largestBlock
    (fun count => (fileLines.drop endLine).take count == payload.drop (payload.length - count))
    (min payload.length (fileLines.length - endLine))

def isCloser (c : Char) : Bool := c ∈ [']', ')', '}']

/-- `STRUCTURAL_CLOSING_BOUNDARY_RE`: closing delimiters, then at most one semicolon or comma. -/
def isStructuralClosingBoundaryLine (line : Text) : Bool :=
  let body := trimStart line
  let rest := body.dropWhile isCloser
  let rest := if rest.head?.any (· ∈ [';', ',']) then rest.tail else rest
  body.head?.any isCloser && rest.all isSpace

structure DelimiterBalance where
  paren : Int
  bracket : Int
  brace : Int
  deriving DecidableEq

def ZERO_DELIMITER_BALANCE : DelimiterBalance := ⟨0, 0, 0⟩

def DelimiterBalance.add (balance : DelimiterBalance) : Char → DelimiterBalance
  | '(' => { balance with paren := balance.paren + 1 }
  | ')' => { balance with paren := balance.paren - 1 }
  | '[' => { balance with bracket := balance.bracket + 1 }
  | ']' => { balance with bracket := balance.bracket - 1 }
  | '{' => { balance with brace := balance.brace + 1 }
  | '}' => { balance with brace := balance.brace - 1 }
  | _ => balance

def computeDelimiterBalance (lines : List Text) : DelimiterBalance :=
  lines.flatten.foldl DelimiterBalance.add ZERO_DELIMITER_BALANCE

def shouldDropSingleStructuralBoundary (fullPayload keptPayload : List Text)
    (expectedBalance : DelimiterBalance) : Bool :=
  computeDelimiterBalance keptPayload = expectedBalance ∧
    computeDelimiterBalance fullPayload ≠ expectedBalance

def countMatchingSingleStructuralPrefixBoundary (startLine : Nat)
    (payload : List Text) (expectedBalance : DelimiterBalance) : Nat :=
  match payload with
  | [] => 0
  | line :: kept =>
    if 1 < startLine ∧ isStructuralClosingBoundaryLine line = true ∧
        lineAt fileLines (startLine - 1) = line ∧
        shouldDropSingleStructuralBoundary payload kept expectedBalance = true then 1
    else 0

def countMatchingSingleStructuralSuffixBoundary (endLine : Nat)
    (payload : List Text) (expectedBalance : DelimiterBalance) : Nat :=
  match payload.getLast? with
  | none => 0
  | some line =>
    if endLine < fileLines.length ∧ isStructuralClosingBoundaryLine line = true ∧
        lineAt fileLines (endLine + 1) = line ∧
        shouldDropSingleStructuralBoundary payload payload.dropLast expectedBalance = true then 1
    else 0

/-- `a || b` on counts. -/
def orElseCount (a b : Nat) : Nat := if a = 0 then b else a

def hasExternalTargets (lines targets : List Nat) : Bool := lines.any (· ∈ targets)

section Replacement

variable (fileLines : List Text) (targets : List Nat) (group : ReplacementGroup)

def deletedBalance : DelimiterBalance :=
  computeDelimiterBalance (group.deletes.map fun anchor => lineAt fileLines anchor.line)

def prefixCount : Nat :=
  orElseCount (countMatchingPrefixBlock fileLines group.startLine group.replacement)
    (countMatchingSingleStructuralPrefixBoundary fileLines group.startLine group.replacement
      (deletedBalance fileLines group))

def suffixCount : Nat :=
  orElseCount (countMatchingSuffixBlock fileLines group.endLine group.replacement)
    (countMatchingSingleStructuralSuffixBoundary fileLines group.endLine group.replacement
      (deletedBalance fileLines group))

/-- `contiguousRange(startLine - count, count)`. -/
def linesAbove (count : Nat) : List Nat := List.range' (group.startLine - count) count

/-- `contiguousRange(endLine + 1, count)`. -/
def linesBelow (count : Nat) : List Nat := List.range' (group.endLine + 1) count

def safePrefixCount : Nat :=
  if hasExternalTargets (linesAbove group (prefixCount fileLines group)) targets then 0
  else prefixCount fileLines group

def safeSuffixCount : Nat :=
  if hasExternalTargets (linesBelow group (suffixCount fileLines group)) targets then 0
  else suffixCount fileLines group

end Replacement

/-- An insertion found at the start of a list of edits: its edits, its payload, and the edits
after it. -/
structure PureInsertGroup where
  sourceLineNum : Nat
  cursor : Cursor
  payload : List Text
  edits : List Edit
  rest : List Edit

def isInsertAt (cursor : Cursor) (lineNum : Nat) : Edit → Bool
  | .insert c _ n _ => n == lineNum && c == cursor
  | .delete .. => false

/-- Insertions of one source line at one cursor, not followed by a deletion of that line. -/
def findPureInsertGroup (edits : List Edit) : Option PureInsertGroup :=
  match edits with
  | .insert cursor _ lineNum _ :: _ =>
    let inserts := edits.takeWhile (isInsertAt cursor lineNum)
    let rest := edits.dropWhile (isInsertAt cursor lineNum)
    if rest.head?.any (isDeleteOf lineNum) then none
    else some { sourceLineNum := lineNum, cursor, payload := inserts.filterMap Edit.text?,
                edits := inserts, rest }
  | _ => none

/-- `pureInsertNeighborhood`: the number of file lines above the insertion point, which is the
index of the first line below it. -/
def insertionGap (fileLines : List Text) : Cursor → Nat
  | .bof => 0
  | .eof => fileLines.length
  | .beforeAnchor anchor => anchor.line - 1
  | .afterAnchor anchor => anchor.line

def Cursor.isAfterAnchor : Cursor → Bool
  | .afterAnchor _ => true
  | _ => false

def Cursor.isBeforeAnchor : Cursor → Bool
  | .beforeAnchor _ => true
  | _ => false

section PureInsert

variable (fileLines : List Text) (allowGenericBoundaryAbsorb : Bool) (cursor : Cursor)

variable (payload : List Text)

def absorbedLeading : Nat :=
  let gap := insertionGap fileLines cursor
  let block :=
    if allowGenericBoundaryAbsorb then
      largestBlock (fun count => payload.take count == (fileLines.drop (gap - count)).take count)
        (min payload.length gap)
    else 0
  let repeats := 0 < gap ∧ payload.head? = some (lineAt fileLines gap)
  let structural := payload.head?.any isStructuralClosingBoundaryLine
  if block ≠ 0 then block
  else if allowGenericBoundaryAbsorb = true ∧ cursor.isAfterAnchor = true ∧ repeats ∧
      structural = false then 1
  else if repeats ∧ structural = true ∧
      shouldDropSingleStructuralBoundary payload payload.tail ZERO_DELIMITER_BALANCE = true then 1
  else 0

/-- The lines at the end of `remaining` that repeat the file lines directly below the insertion
point.  `remaining` is the payload without the absorbed leading lines, so that no payload line is
counted twice. -/
def absorbedTrailing (remaining : List Text) : Nat :=
  let gap := insertionGap fileLines cursor
  let block :=
    if allowGenericBoundaryAbsorb then
      largestBlock
        (fun count => remaining.drop (remaining.length - count) == (fileLines.drop gap).take count)
        (min remaining.length (fileLines.length - gap))
    else 0
  let repeats := gap < fileLines.length ∧ remaining.getLast? = some (lineAt fileLines (gap + 1))
  let structural := remaining.getLast?.any isStructuralClosingBoundaryLine
  if block ≠ 0 then block
  else if allowGenericBoundaryAbsorb = true ∧ cursor.isBeforeAnchor = true ∧ repeats ∧
      structural = false then 1
  else if repeats ∧ structural = true ∧
      shouldDropSingleStructuralBoundary remaining remaining.dropLast ZERO_DELIMITER_BALANCE = true
    then 1
  else 0

/-- `tryAbsorbPureInsertGroup`: the numbers of leading and trailing payload lines to drop. -/
def tryAbsorbPureInsertGroup : Nat × Nat :=
  let lead := absorbedLeading fileLines allowGenericBoundaryAbsorb cursor payload
  (lead, absorbedTrailing fileLines allowGenericBoundaryAbsorb cursor (payload.drop lead))

def keptPayload : List Text :=
  let (lead, trail) := tryAbsorbPureInsertGroup fileLines allowGenericBoundaryAbsorb cursor payload
  (payload.take (payload.length - trail)).drop lead

end PureInsert

inductive AbsorbKey where
  | pureInsertLeading (start stop : Nat)
  | pureInsertTrailing (start stop : Nat)
  | above (start stop : Nat)
  | below (start stop : Nat)
  deriving DecidableEq

structure AbsorbState where
  nextSyntheticIndex : Nat
  emittedAbsorbKeys : List AbsorbKey
  warnings : List Text

def AbsorbState.warn (st : AbsorbState) (key : AbsorbKey) (warning : Text) : AbsorbState :=
  if key ∈ st.emittedAbsorbKeys then st
  else { st with emittedAbsorbKeys := key :: st.emittedAbsorbKeys,
                 warnings := st.warnings ++ [warning] }

def AbsorbState.advance (st : AbsorbState) (count : Nat) : AbsorbState :=
  { st with nextSyntheticIndex := st.nextSyntheticIndex + count }

def droppedWarning (count : Nat) (place : String) (sourceLineNum start stop : Nat) (part : String) :
    Text :=
  "Auto-dropped ".toList ++ ofNat count ++ " duplicate line(s) at the ".toList ++
    place.toList ++ " of insert at line ".toList ++ ofNat sourceLineNum ++
    " (file lines ".toList ++ ofNat start ++ "..".toList ++ ofNat stop ++
    " already match the payload's ".toList ++ part.toList ++ " lines).".toList

def absorbedWarning (count : Nat) (place : String) (sourceLineNum start stop : Nat)
    (part : String) : Text :=
  "Auto-absorbed ".toList ++ ofNat count ++ " duplicate line(s) ".toList ++ place.toList ++
    " replacement at line ".toList ++ ofNat sourceLineNum ++ " (file lines ".toList ++
    ofNat start ++ "..".toList ++ ofNat stop ++ " matched the payload's ".toList ++
    part.toList ++ " lines; widened the deletion to absorb them).".toList

section Loop

variable (fileLines : List Text) (targets : List Nat) (autoDropPureInsertDuplicates : Bool)

/-- Deletions of absorbed lines, numbered from `index`. -/
def absorbedDeletes (lines : List Nat) (sourceLineNum index : Nat) : List Edit :=
  deleteEdits (lines.map fun line => ⟨line, computeLineHash (lineAt fileLines line)⟩)
    sourceLineNum index

def absorbReplacement (group : ReplacementGroup) (st : AbsorbState) : List Edit × AbsorbState :=
  let above := safePrefixCount fileLines targets group
  let below := safeSuffixCount fileLines targets group
  let st := if above = 0 then st else
    st.warn (.above (group.startLine - above) (group.startLine - 1))
      (absorbedWarning above "above" group.sourceLineNum (group.startLine - above)
        (group.startLine - 1) "leading")
  let st := if below = 0 then st else
    st.warn (.below (group.endLine + 1) (group.endLine + below))
      (absorbedWarning below "below" group.sourceLineNum (group.endLine + 1)
        (group.endLine + below) "trailing")
  let index := st.nextSyntheticIndex
  (absorbedDeletes fileLines (linesAbove group above) group.sourceLineNum index ++ group.edits ++
      absorbedDeletes fileLines (linesBelow group below) group.sourceLineNum (index + above),
    st.advance (above + below))

/-- An insertion, without the payload lines it repeats.  Edits are renumbered only when a line is
dropped. -/
def absorbPureInsert (group : PureInsertGroup) (st : AbsorbState) : List Edit × AbsorbState :=
  let gap := insertionGap fileLines group.cursor
  match tryAbsorbPureInsertGroup fileLines autoDropPureInsertDuplicates group.cursor
      group.payload with
  | (0, 0) => (group.edits, st)
  | (lead, trail) =>
    let kept := keptPayload fileLines autoDropPureInsertDuplicates group.cursor group.payload
    let st := if lead = 0 then st else
      st.warn (.pureInsertLeading (gap - lead + 1) gap)
        (droppedWarning lead "start" group.sourceLineNum (gap - lead + 1) gap "leading")
    let st := if trail = 0 then st else
      st.warn (.pureInsertTrailing (gap + 1) (gap + trail))
        (droppedWarning trail "end" group.sourceLineNum (gap + 1) (gap + trail) "trailing")
    (insertEdits group.cursor kept group.sourceLineNum st.nextSyntheticIndex,
      st.advance kept.length)

/-- The loop of `absorbReplacementBoundaryDuplicates`.  Each round takes at least one edit. -/
def absorbLoop : Nat → List Edit → AbsorbState → List Edit × AbsorbState
  | 0, _, st => ([], st)
  | _, [], st => ([], st)
  | fuel + 1, edit :: edits, st =>
    match findReplacementGroup (edit :: edits) with
    | some group =>
      let (pushed, st) := absorbReplacement fileLines targets group st
      let (later, st) := absorbLoop fuel group.rest st
      (pushed ++ later, st)
    | none =>
      match findPureInsertGroup (edit :: edits) with
      | some group =>
        let (pushed, st) := absorbPureInsert fileLines autoDropPureInsertDuplicates group st
        let (later, st) := absorbLoop fuel group.rest st
        (pushed ++ later, st)
      | none =>
        let (later, st) := absorbLoop fuel edits st
        (edit :: later, st)

end Loop

def absorbReplacementBoundaryDuplicates (edits : List Edit) (fileLines : List Text)
    (autoDropPureInsertDuplicates : Bool) : List Edit × List Text :=
  let (absorbed, st) := absorbLoop fileLines (collectAnchorTargetLines edits)
    autoDropPureInsertDuplicates edits.length edits ⟨edits.length, [], []⟩
  (absorbed, st.warnings)

end Vibrato.Hashline
