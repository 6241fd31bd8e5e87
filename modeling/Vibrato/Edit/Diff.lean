import Vibrato.Text

/-! The diff parser of `edit/diff.ts`: the clean-up of a diff before it is read, its hunks, and the
removal of line numbers that were copied into a hunk. -/

namespace Vibrato.Edit

open Text

structure DiffHunk where
  changeContext : Option Text
  oldStartLine : Option Nat
  newStartLine : Option Nat
  hasContextLines : Bool
  oldLines : List Text
  newLines : List Text
  isEndOfFile : Bool
  deriving DecidableEq

/-- The classes `ParseError` and `ApplyPatchError`. -/
inductive DiffError where
  | parse (message : Text) (lineNumber : Option Nat)
  | applyPatch (message : Text)
  deriving DecidableEq

/-- The message of an error: a `ParseError` with a line number starts with it. -/
def DiffError.message : DiffError → Text
  | parse message (some n) => "Line ".toList ++ ofNat n ++ ": ".toList ++ message
  | parse message none => message
  | applyPatch message => message

def EOF_MARKER : Text := "*** End of File".toList
def CHANGE_CONTEXT_MARKER : Text := "@@ ".toList
def EMPTY_CHANGE_CONTEXT_MARKER : Text := "@@".toList

def MULTI_FILE_MARKERS : List Text :=
  ["*** Update File:".toList, "*** Add File:".toList, "*** Delete File:".toList,
    "diff --git ".toList]

def DIFF_METADATA_PREFIXES : List Text :=
  ["*** Update File:".toList, "*** Add File:".toList, "*** Delete File:".toList,
    "diff --git ".toList, "index ".toList, "--- ".toList, "+++ ".toList, "new file mode ".toList,
    "deleted file mode ".toList, "rename from ".toList, "rename to ".toList,
    "similarity index ".toList, "dissimilarity index ".toList, "old mode ".toList,
    "new mode ".toList]

def PATCH_WRAPPER_PREFIXES : List Text := ["*** Begin Patch".toList, "*** End Patch".toList]

variable (line : Text)

def isDiffContentLine : Bool :=
  match line with
  | ' ' :: _ => true
  | '+' :: _ => !startsWith line "+++ ".toList
  | '-' :: _ => !startsWith line "--- ".toList
  | _ => false

def matchesTrimmedPrefix (heads : List Text) : Bool :=
  heads.any (startsWith line)

def isPatchWrapperLine : Bool :=
  line == "***".toList || matchesTrimmedPrefix line PATCH_WRAPPER_PREFIXES

/-- A line that the first loop of `normalizeDiff` removes from the end. -/
def isTrailingBlank : Bool :=
  line == [] || (isBlank line && !isDiffContentLine line)

def dropFirstWrapper : List Text → List Text
  | first :: rest =>
    if first ≠ [] ∧ isPatchWrapperLine (trim first) = true then rest else first :: rest
  | [] => []

def dropLastWrapper (lines : List Text) : List Text :=
  if lines.getLast?.any (fun line => isPatchWrapperLine (trim line)) then lines.dropLast
  else lines

def isMetadataLine (line : Text) : Bool :=
  !isDiffContentLine line && matchesTrimmedPrefix (trim line) DIFF_METADATA_PREFIXES

def normalizeDiffLines (lines : List Text) : List Text :=
  (dropLastWrapper (dropFirstWrapper (lines.rdropWhile isTrailingBlank))).filter (!isMetadataLine ·)

def normalizeDiff (diff : Text) : Text := joinLines (normalizeDiffLines (splitLines diff))

/-- The lines of a created file lose a `+` when every one that is not empty starts with it. -/
def stripPlus (line : Text) : Text :=
  match line with
  | '+' :: ' ' :: rest => rest
  | '+' :: rest => rest
  | _ => line

def normalizeCreateContent (content : Text) : Text :=
  let lines := splitLines content
  let nonEmptyLines := lines.filter (· ≠ [])
  if nonEmptyLines ≠ [] ∧ nonEmptyLines.all (startsWith · "+".toList) = true then
    joinLines (lines.map stripPlus)
  else content

structure UnifiedHunkHeader where
  oldStartLine : Nat
  oldLineCount : Nat
  newStartLine : Nat
  newLineCount : Nat
  changeContext : Option Text

/-- A match of the text `head` at the start: what follows it. -/
def eat (head s : Text) : Option Text :=
  if startsWith s head then some (s.drop head.length) else none

variable (s : Text)

/-- A match of `\d+`. -/
def eatDigits : Option (Nat × Text) :=
  let digits := s.takeWhile isDigit
  if digits = [] then none else some (parseDigits digits, s.dropWhile isDigit)

/-- A match of `\s+`. -/
def eatSpaces : Option Text :=
  if s.head?.any isSpace then some (trimStart s) else none

/-- A match of `(?:,(\d+))?`, whose value is 1 when it is absent. -/
def eatCount : Nat × Text := ((eat ",".toList s).bind eatDigits).getD (1, s)

/-- The text, if it has no line terminator: a match of `(.*)$`. -/
def eatLine : Option Text := if s.any isLineTerminator then none else some s

def nonBlank : Option Text := if isBlank s then none else some (trim s)

/-- `UNIFIED_HUNK_HEADER_REGEX`, as in `@@ -3,4 +3,5 @@ context`. -/
def parseUnifiedHunkHeader (line : Text) : Option UnifiedHunkHeader := do
  let s ← eat "-".toList (trimStart (← eat "@@".toList line))
  let (oldStartLine, s) ← eatDigits s
  let (oldLineCount, s) := eatCount s
  let s ← eat "+".toList (← eatSpaces s)
  let (newStartLine, s) ← eatDigits s
  let (newLineCount, s) := eatCount s
  let s ← eat "@@".toList (trimStart s)
  let context ← eatLine (trimStart s)
  return ⟨oldStartLine, oldLineCount, newStartLine, newLineCount, nonBlank context⟩

/-- Equality up to the case of ASCII letters, for the `i` flag: a match of `head` at the start. -/
def eatNoCase (head s : Text) : Option Text :=
  if (s.take head.length).map Char.toLower = head then some (s.drop head.length) else none

/-- The rest of a match of `(?:\s*@@)?$`. -/
def atHintEnd : Bool := s == [] || trimStart s == "@@".toList

/-- A match of `\s*-\s*\d+`, or nothing. -/
def eatHintEnd : Text :=
  (do
    let s ← eat "-".toList (trimStart s)
    let (_, s) ← eatDigits (trimStart s)
    return s : Option Text).getD s

/-- `LINE_HINT_REGEX`, as in `lines 3-7`: its first number. -/
def matchLineHint : Option Nat := do
  let s ← eatNoCase "line".toList s
  let s := (eatNoCase "s".toList s).getD s
  let (n, s) ← eatDigits (← eatSpaces s)
  if atHintEnd (eatHintEnd s) then return n else none

/-- `TOP_OF_FILE_REGEX`. -/
def isTopOfFile : Bool :=
  ((["top".toList, "start".toList, "beginning".toList].findSome? (eatNoCase · s)).bind fun s => do
    let s ← eatNoCase "of".toList (← eatSpaces s)
    let s ← eatNoCase "file".toList (← eatSpaces s)
    return s == []).getD false

def isUnifiedDiffMetadataLine (line : Text) : Bool :=
  matchesTrimmedPrefix line
    (DIFF_METADATA_PREFIXES.filter fun head => !startsWith head "*** ".toList)

structure HunkStart where
  changeContexts : List Text
  oldStartLine : Option Nat
  newStartLine : Option Nat
  startIndex : Nat

def parseError (message : String) (lineNumber : Nat) : DiffError :=
  .parse message.toList (some lineNumber)

/-- `@@ ` with text: a line hint, the top of the file, or a context to search for. -/
def parseContextHeader (headerTrimmed : Text) (lineNumber : Nat) : Except DiffError HunkStart :=
  let contextValue := headerTrimmed.drop CHANGE_CONTEXT_MARKER.length
  let trimmedContextValue := trim contextValue
  let normalizedContextValue :=
    ((eat "@@".toList trimmedContextValue).map trimStart).getD trimmedContextValue
  match matchLineHint normalizedContextValue with
  | some n =>
    if n < 1 then .error (parseError "Line hint must be >= 1" lineNumber)
    else .ok ⟨[], some n, some n, 1⟩
  | none =>
    if isTopOfFile normalizedContextValue then .ok ⟨[], some 1, some 1, 1⟩
    else .ok ⟨if trimmedContextValue = [] then [] else [contextValue], none, none, 1⟩

/-- The header of a hunk; a hunk may start without one when `allowMissingContext` is set. -/
def parseHunkHeader (headerLine : Text) (lineNumber : Nat) (allowMissingContext : Bool) :
    Except DiffError HunkStart :=
  let headerTrimmed := trimEnd headerLine
  let isEmptyContextMarker :=
    (eat "@@".toList headerTrimmed).any fun s => trimStart s == "@@".toList
  if startsWith headerLine "@@".toList = false then
    if allowMissingContext then .ok ⟨[], none, none, 0⟩
    else .error (.parse ("Expected hunk to start with @@ context marker, got: '".toList ++
      headerLine ++ "'".toList) (some lineNumber))
  else if headerTrimmed = EMPTY_CHANGE_CONTEXT_MARKER ∨ isEmptyContextMarker = true then
    .ok ⟨[], none, none, 1⟩
  else
    match parseUnifiedHunkHeader headerTrimmed with
    | some header =>
      if header.oldStartLine < 1 ∨ header.newStartLine < 1 then
        .error (parseError "Line numbers in @@ header must be >= 1" lineNumber)
      else .ok ⟨header.changeContext.toList, some header.oldStartLine, some header.newStartLine, 1⟩
    | none =>
      if startsWith headerTrimmed CHANGE_CONTEXT_MARKER then
        parseContextHeader headerTrimmed lineNumber
      else .ok ⟨(nonBlank (headerTrimmed.drop 2)).toList, none, none, 1⟩

def nestedContexts : List Text → List Text × Nat
  | [] => ([], 0)
  | line :: lines =>
    let trimmed := trimEnd line
    if startsWith line "@@".toList = false then ([], 0)
    else if startsWith trimmed CHANGE_CONTEXT_MARKER then
      let context := trimmed.drop CHANGE_CONTEXT_MARKER.length
      let (contexts, count) := nestedContexts lines
      (if isBlank context then contexts else context :: contexts, count + 1)
    else if trimmed = EMPTY_CHANGE_CONTEXT_MARKER then
      let (contexts, count) := nestedContexts lines
      (contexts, count + 1)
    else ([], 0)

/-- The part of a hunk that its body lines fill, and the number of lines read. -/
structure HunkBody where
  hasContextLines : Bool
  oldLines : List Text
  newLines : List Text
  isEndOfFile : Bool
  parsedLines : Nat

namespace HunkBody

def empty : HunkBody := ⟨false, [], [], false, 0⟩

variable (body : HunkBody)

def pushContext (text : Text) : HunkBody :=
  { body with hasContextLines := true, oldLines := body.oldLines ++ [text],
              newLines := body.newLines ++ [text], parsedLines := body.parsedLines + 1 }

def pushAdded (text : Text) : HunkBody :=
  { body with newLines := body.newLines ++ [text], parsedLines := body.parsedLines + 1 }

def pushRemoved (text : Text) : HunkBody :=
  { body with oldLines := body.oldLines ++ [text], parsedLines := body.parsedLines + 1 }

end HunkBody

variable (line : Text)

def isEllipsisLine : Bool :=
  trim line ∈ ["...".toList, "…".toList]

def isEofLine : Bool :=
  !isDiffContentLine line && trimEnd line == EOF_MARKER && startsWith line EOF_MARKER

def isHunkSeparator (rest : List Text) : Bool :=
  line == [] && rest.head?.any fun next => startsWith (trimStart next) "@@".toList

/-- The body loop of `parseOneHunk`. -/
def parseHunkBody (lineNumber : Nat) : List Text → HunkBody → Except DiffError HunkBody
  | [], body => .ok body
  | line :: rest, body =>
    if 0 < body.parsedLines ∧ isHunkSeparator line rest = true then .ok body
    else if isEofLine line then
      if body.parsedLines = 0 then
        .error (parseError "Hunk does not contain any lines" (lineNumber + 1))
      else .ok { body with isEndOfFile := true, parsedLines := body.parsedLines + 1 }
    else if isEllipsisLine line then
      parseHunkBody lineNumber rest
        { body with hasContextLines := true, parsedLines := body.parsedLines + 1 }
    else
      match line with
      | [] => parseHunkBody lineNumber rest (body.pushContext [])
      | ' ' :: text => parseHunkBody lineNumber rest (body.pushContext text)
      | '+' :: text => parseHunkBody lineNumber rest (body.pushAdded text)
      | '-' :: text => parseHunkBody lineNumber rest (body.pushRemoved text)
      | line =>
        if startsWith line "@@".toList = false then
          parseHunkBody lineNumber rest (body.pushContext line)
        else if body.parsedLines = 0 then
          .error (.parse ("Unexpected line in hunk: '".toList ++ line ++
            "'. Lines must start with ' ' (context), '+' (add), or '-' (remove)".toList)
            (some (lineNumber + 1)))
        else .ok body

/-- `/^\s*(\d{1,6})\s+(.+)$/u`: the number and the text after it.  When only white space follows
the number, `\s+` gives its last character back to `.+`. -/
def matchLineNumber : Option (Nat × Text) :=
  let body := trimStart line
  let digits := body.takeWhile isDigit
  let after := body.dropWhile isDigit
  let spaces := after.takeWhile isSpace
  let text := after.dropWhile isSpace
  let group := if text = [] ∧ 2 ≤ spaces.length then spaces.getLast?.toList else text
  if 1 ≤ digits.length ∧ digits.length ≤ 6 ∧ spaces ≠ [] ∧ group ≠ [] ∧
      group.any isLineTerminator = false then
    some (parseDigits digits, group)
  else none

def countSequential : List Nat → Nat
  | a :: b :: rest => (if b = a + 1 then 1 else 0) + countSequential (b :: rest)
  | _ => 0

/-- The test of `stripLineNumberPrefixes`: at least two lines and six in ten are numbered, and, of
three numbers or more, all but two follow their predecessor.  `(3 * n + 4) / 5` is
`Math.ceil(n * 0.6)`. -/
def hasLineNumbers (oldLines newLines : List Text) : Bool :=
  let allLines := (oldLines ++ newLines).filter (!isBlank ·)
  let numbers := allLines.filterMap fun line => (matchLineNumber line).map Prod.fst
  2 ≤ allLines.length && max 2 ((3 * allLines.length + 4) / 5) ≤ numbers.length &&
    (numbers.length < 3 || max 1 (numbers.length - 2) ≤ countSequential numbers)

def stripLineNumber : Text := ((matchLineNumber line).map Prod.snd).getD line

def stripLineNumberPrefixes (hunk : DiffHunk) : DiffHunk :=
  if hasLineNumbers hunk.oldLines hunk.newLines then
    { hunk with oldLines := hunk.oldLines.map stripLineNumber,
                newLines := hunk.newLines.map stripLineNumber }
  else hunk

/-- `parseOneHunk`: a hunk and the number of lines it takes. -/
def parseOneHunk (lines : List Text) (lineNumber : Nat) (allowMissingContext : Bool) :
    Except DiffError (DiffHunk × Nat) := do
  match lines with
  | [] => .error (parseError "Diff does not contain any lines" lineNumber)
  | headerLine :: _ =>
    let start ← parseHunkHeader headerLine lineNumber allowMissingContext
    let (nested, count) := nestedContexts (lines.drop start.startIndex)
    let startIndex := start.startIndex + count
    if lines.length ≤ startIndex then
      .error (parseError "Hunk does not contain any lines" (lineNumber + 1))
    let contexts := start.changeContexts ++ nested
    let body ← parseHunkBody lineNumber (lines.drop startIndex) HunkBody.empty
    if body.parsedLines = 0 then
      .error (parseError "Hunk does not contain any lines" (lineNumber + startIndex))
    let hunk : DiffHunk :=
      { changeContext := if contexts = [] then none else some (joinLines contexts),
        oldStartLine := start.oldStartLine, newStartLine := start.newStartLine,
        hasContextLines := body.hasContextLines, oldLines := body.oldLines,
        newLines := body.newLines, isEndOfFile := body.isEndOfFile }
    return (stripLineNumberPrefixes hunk, body.parsedLines + startIndex)

/-- `line.split(/\s+/)`. -/
def splitSpaces : List Text :=
  (line.splitBy fun a b => isSpace a == isSpace b).filter (!isBlank ·)

def extractMarkerPath : Option Text :=
  if startsWith line "diff --git ".toList then
    let parts := splitSpaces line
    (parts[3]?.or parts[2]?).map fun candidate =>
      if startsWith candidate "a/".toList || startsWith candidate "b/".toList then
        candidate.drop 2
      else candidate
  else
    ["*** Update File:".toList, "*** Add File:".toList, "*** Delete File:".toList].findSome?
      fun marker => (eat marker line).map trim

/-- The number of files a diff names, or the largest number of markers of one kind when it names
none. -/
def countMultiFileMarkers (diff : Text) : Nat :=
  let lines := ((splitLines diff).filter (!isDiffContentLine ·)).map trim
  let marked := lines.filterMap fun line =>
    (MULTI_FILE_MARKERS.find? (startsWith line)).map fun marker => (marker, line)
  let paths := (marked.filterMap fun (_, line) => extractMarkerPath line).filter (· ≠ [])
  if paths ≠ [] then paths.dedup.length
  else (MULTI_FILE_MARKERS.map fun marker => (marked.map Prod.fst).count marker).foldl max 0

/-- The loop of `parseDiffHunks` from line `i` on.  Each round takes at least one line. -/
def parseHunks : Nat → Nat → List Text → Except DiffError (List DiffHunk)
  | 0, _, _ => .ok []
  | _, _, [] => .ok []
  | fuel + 1, i, line :: rest =>
    let trimmed := trim line
    let isDiffContent := line.head?.any (· ∈ [' ', '+', '-'])
    if isBlank line then parseHunks fuel (i + 1) rest
    else if !isDiffContent && isUnifiedDiffMetadataLine trimmed then parseHunks fuel (i + 1) rest
    else if startsWith trimmed "@@".toList && rest.all isBlank then .ok []
    else do
      let (hunk, linesConsumed) ← parseOneHunk (line :: rest) (i + 1) true
      let later ← parseHunks fuel (i + linesConsumed) ((line :: rest).drop linesConsumed)
      return hunk :: later

def parseDiffHunks (diff : Text) : Except DiffError (List DiffHunk) :=
  let multiFileCount := countMultiFileMarkers diff
  if 1 < multiFileCount then
    .error (.applyPatch ("Diff contains ".toList ++ ofNat multiFileCount ++
      " file markers. Single-file patches cannot contain multi-file markers.".toList))
  else
    let lines := splitLines (normalizeDiff diff)
    parseHunks lines.length 0 lines

end Vibrato.Edit
