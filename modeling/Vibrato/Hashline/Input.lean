import Vibrato.Hashline.Parser
import Vibrato.Tools.PathUtils
import Mathlib.Data.List.Dedup

/-! `hashline/input.ts`: the sections of a hashline input, one for each header line with operations
below it, and `mergeSamePathSections` of `hashline/execute.ts`, which joins the sections whose paths
are spelled alike. -/

namespace Vibrato.Hashline

open Text

structure HashlineInputSection where
  path : Text
  diff : Text
  deriving DecidableEq

inductive InputError where
  | emptyHeader
  | missingHeader (firstLine : Text)
  deriving DecidableEq

/-- The message of an error.  `preview` quotes the first 120 characters of a line. -/
def InputError.message (preview : Text → Text) : InputError → Text
  | emptyHeader => "Input header \"§\" is empty; provide a file path.".toList
  | missingHeader firstLine =>
    "input must begin with \"§PATH\" on the first non-blank line; got: ".toList ++
      preview firstLine ++ ". Example: \"§src/foo.ts\" then edit ops.".toList

def unquoteHashlinePath (pathText : Text) : Text :=
  match pathText with
  | first :: second :: rest =>
    if (first = '"' ∨ first = '\'') ∧ (second :: rest).getLast? = some first then
      (second :: rest).dropLast
    else pathText
  | _ => pathText

variable (env : Tools.PathEnv)

def normalizeHashlinePath (cwd rawPath : Text) : Text :=
  let unquoted := unquoteHashlinePath (Text.trim rawPath)
  if cwd = [] ∨ Tools.isAbsolute unquoted = false then unquoted
  else
    let relative := Tools.relative (Tools.resolve env [] cwd) (Tools.resolve env [] unquoted)
    if relative = [] then ['.']
    else if !Text.startsWith relative "..".toList && !Tools.isAbsolute relative then relative
    else unquoted

def parseHashlineHeaderLine (cwd line : Text) : Except InputError (Option Text) :=
  let trimmed := trimEnd line
  if trimmed.head? ≠ some HL_FILE_PREFIX then .ok none
  else
    let rest := trimmed.dropWhile (· == HL_FILE_PREFIX)
    if trim rest = [] then .error .emptyHeader
    else
      let parsedPath := normalizeHashlinePath env cwd rest
      if parsedPath = [] then .error .emptyHeader else .ok (some parsedPath)

variable (input : Text)

def stripBomChar : Text :=
  if input.head? = some '\uFEFF' then input.tail else input

def isSkippedFirstLine (line : Text) : Bool :=
  isBlank line || trimEnd line = BEGIN_PATCH_MARKER

def stripLeadingBlankLines : Text :=
  joinLines ((splitLines (stripBomChar input)).dropWhile isSkippedFirstLine)

def containsRecognizableHashlineOperations : Bool :=
  (splitLinesCrlf input).any fun line => line.head?.any (· ∈ HL_OP_CHARS)

section Split

variable (env : Tools.PathEnv) (cwd : Text)

def hasHeader : List Text → Except InputError Bool
  | [] => .ok false
  | line :: lines => do
    match ← parseHashlineHeaderLine env cwd line with
    | some _ => return true
    | none => hasHeader lines

def normalizeFallbackInput (input : Text) (path : Option Text) : Except InputError Text := do
  if ← hasHeader env cwd (splitLinesCrlf (stripBomChar input)) then return input
  match path.filter (· ≠ []) with
  | none => return input
  | some path =>
    let fallbackPath := normalizeHashlinePath env cwd path
    if containsRecognizableHashlineOperations input && fallbackPath ≠ [] then
      return HL_FILE_PREFIX :: (fallbackPath ++ '\n' :: input)
    else return input

def flushSection (currentPath : Text) (currentLines : List Text) : List HashlineInputSection :=
  if currentPath ≠ [] ∧ currentLines.any (!isBlank ·) = true then
    [⟨currentPath, joinLines currentLines⟩]
  else []

def splitSections (currentPath : Text) (currentLines : List Text) :
    List Text → Except InputError (List HashlineInputSection)
  | [] => .ok (flushSection currentPath currentLines)
  | line :: lines =>
    if trimEnd line = END_PATCH_MARKER ∨ trimEnd line = ABORT_MARKER then
      .ok (flushSection currentPath currentLines)
    else if trimEnd line = BEGIN_PATCH_MARKER then splitSections currentPath currentLines lines
    else do
      match ← parseHashlineHeaderLine env cwd line with
      | some path => return flushSection currentPath currentLines ++ (← splitSections path [] lines)
      | none => splitSections currentPath (currentLines ++ [line]) lines

def splitHashlineInputs (input : Text) (path : Option Text) :
    Except InputError (List HashlineInputSection) := do
  let stripped := stripLeadingBlankLines (← normalizeFallbackInput env cwd input path)
  let lines := splitLinesCrlf stripped
  let firstLine := lines.headD []
  match ← parseHashlineHeaderLine env cwd firstLine with
  | none => .error (.missingHeader firstLine)
  | some _ => splitSections env cwd [] [] lines

end Split

def mergeSamePathSections (sections : List HashlineInputSection) : List HashlineInputSection :=
  (sections.map HashlineInputSection.path).reverse.dedup.reverse.map fun path =>
    ⟨path, joinLines ((sections.filter (·.path = path)).map HashlineInputSection.diff)⟩

end Vibrato.Hashline
