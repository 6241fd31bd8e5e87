import Vibrato.Text

/-! `edit/normalize.ts`: line endings and the byte order mark of a file that is edited, the lines
that are compared for a fuzzy match, and the indentation of a text that replaces another. -/

namespace Vibrato.Edit

open Text

inductive LineEnding where
  | crlf
  | lf
  deriving DecidableEq

def detectLineEnding (content : Text) : LineEnding :=
  let firstLine := content.takeWhile (· ≠ '\n')
  if '\n' ∈ content ∧ firstLine.getLast? = some '\r' then .crlf else .lf

/-- `text.replace(/\r\n?/g, "\n")`. -/
def normalizeToLF : Text → Text
  | '\r' :: '\n' :: rest => '\n' :: normalizeToLF rest
  | '\r' :: rest => '\n' :: normalizeToLF rest
  | c :: rest => c :: normalizeToLF rest
  | [] => []

def restoreLineEndings (text : Text) : LineEnding → Text
  | .crlf => text.flatMap fun c => if c = '\n' then ['\r', '\n'] else [c]
  | .lf => text

def stripBom : Text → Text × Text
  | '\uFEFF' :: text => (['\uFEFF'], text)
  | text => ([], text)

example : normalizeToLF "a\r\nb\rc\n".toList = "a\nb\nc\n".toList := by decide +kernel

example : detectLineEnding "a\r\nb\n".toList = .crlf := by decide +kernel

def isIndentChar (c : Char) : Bool := c = ' ' || c = '\t'

variable (line : Text)

def getLeadingWhitespace : Text := line.takeWhile isIndentChar

def countLeadingWhitespace : Nat := (getLeadingWhitespace line).length

def isNonEmptyLine : Bool := !isBlank line

def detectIndentChar (text : Text) : Char :=
  ((splitLines text).findSome? fun line => (getLeadingWhitespace line).head?).getD ' '

structure IndentProfile where
  lines : List Text
  indentCounts : List Nat
  char : Option Char
  spaceOnly : Bool
  tabOnly : Bool
  mixed : Bool
  unit : Nat
  nonEmptyCount : Nat

namespace IndentProfile

variable (profile : IndentProfile)

def addLine (line : Text) : IndentProfile :=
  let indent := getLeadingWhitespace line
  { profile with
    nonEmptyCount := profile.nonEmptyCount + 1
    indentCounts := profile.indentCounts ++ [indent.length]
    tabOnly := profile.tabOnly && ' ' ∉ indent
    spaceOnly := profile.spaceOnly && '\t' ∉ indent
    mixed := profile.mixed || (' ' ∈ indent && '\t' ∈ indent) ||
      (indent ≠ [] && profile.char.isSome && profile.char ≠ indent.head?)
    char := profile.char <|> indent.head? }

def withUnit : IndentProfile :=
  let spaces := profile.indentCounts.foldl Nat.gcd 0
  { profile with
    unit :=
      if profile.tabOnly && 0 < profile.nonEmptyCount then 1
      else if profile.spaceOnly && 0 < profile.nonEmptyCount then spaces
      else 0 }

end IndentProfile

variable (text : Text)

def buildIndentProfile : IndentProfile :=
  let lines := splitLines text
  ((lines.filter isNonEmptyLine).foldl IndentProfile.addLine
    ⟨lines, [], none, true, true, false, 0, 0⟩).withUnit

def convertLeadingTabsToSpaces (spacesPerTab : Nat) : Text :=
  if spacesPerTab = 0 then text
  else
    joinLines ((splitLines text).map fun line =>
      let trimmed := trimStart line
      let leading := getLeadingWhitespace line
      if trimmed = [] ∨ '\t' ∉ leading ∨ ' ' ∈ leading then line
      else List.replicate (leading.length * spacesPerTab) ' ' ++ trimmed)

def isIndentationOnlyRewrite (oldText newText : Text) : Bool :=
  (splitLines oldText).map trim = (splitLines newText).map trim

def maybeConvertTabIndentation (oldProfile actualProfile newProfile : IndentProfile)
    (newText : Text) : Option Text :=
  if !actualProfile.spaceOnly || !oldProfile.tabOnly || !newProfile.tabOnly ||
    actualProfile.unit = 0 then
    none
  else if (oldProfile.lines.zip actualProfile.lines).all fun (oldLine, actualLine) =>
      !isNonEmptyLine oldLine || !isNonEmptyLine actualLine || countLeadingWhitespace oldLine = 0 ||
        countLeadingWhitespace actualLine = countLeadingWhitespace oldLine * actualProfile.unit then
    some (convertLeadingTabsToSpaces newText actualProfile.unit)
  else none

def computeUniformIndentDelta (oldProfile actualProfile : IndentProfile) : Option Int :=
  let deltas := ((oldProfile.lines.zip actualProfile.lines).filter fun (oldLine, actualLine) =>
    isNonEmptyLine oldLine && isNonEmptyLine actualLine).map fun (oldLine, actualLine) =>
      (countLeadingWhitespace actualLine : Int) - countLeadingWhitespace oldLine
  match deltas with
  | [] => none
  | delta :: deltas => if deltas.all (· = delta) then some delta else none

def indentLine (delta : Int) (indentChar : Char) (line : Text) : Text :=
  if isBlank line then line
  else if 0 < delta then List.replicate delta.toNat indentChar ++ line
  else line.drop (min (-delta).toNat (countLeadingWhitespace line))

def applyIndentDelta (delta : Int) (indentChar : Char) : Text :=
  joinLines ((splitLines text).map (indentLine delta indentChar))

def adjustIndentation (oldText actualText newText : Text) : Text :=
  if oldText = actualText then newText
  else if isIndentationOnlyRewrite oldText newText then newText
  else
    let oldProfile := buildIndentProfile oldText
    let actualProfile := buildIndentProfile actualText
    let newProfile := buildIndentProfile newText
    if !(0 < oldProfile.nonEmptyCount && 0 < actualProfile.nonEmptyCount &&
        0 < newProfile.nonEmptyCount) then newText
    else if oldProfile.mixed || actualProfile.mixed || newProfile.mixed then newText
    else if oldProfile.char.isSome && actualProfile.char.isSome &&
        oldProfile.char ≠ actualProfile.char then
      (maybeConvertTabIndentation oldProfile actualProfile newProfile newText).getD newText
    else
      match computeUniformIndentDelta oldProfile actualProfile with
      | none => newText
      | some delta =>
        if delta = 0 then newText
        else if newProfile.char.isSome && actualProfile.char.isSome &&
            newProfile.char ≠ actualProfile.char then newText
        else
          let indentChar :=
            (actualProfile.char <|> oldProfile.char).getD (detectIndentChar actualText)
          applyIndentDelta newText delta indentChar

example : adjustIndentation "a".toList "    b".toList "c\n  d".toList =
    "    c\n      d".toList := by
  decide +kernel

def collapseSpaces : Text → Text
  | [] => []
  | c :: rest =>
    if isIndentChar c then
      match rest with
      | d :: _ => if isIndentChar d then collapseSpaces rest else ' ' :: collapseSpaces rest
      | [] => [' ']
    else c :: collapseSpaces rest

def plainPunctuation (c : Char) : Char :=
  if c ∈ ['"', '\u201E', '\u201F', '\u00AB', '\u00BB'] then '"'
  else if c ∈ ['\'', '\u201A', '\u201B', '\u0060', '\u00B4'] then '\''
  else if c ∈ ['\u2010', '\u2011', '\u2012', '\u2013', '\u2014', '\u2212'] then '-'
  else c

def normalizeForFuzzy (line : Text) : Text := collapseSpaces ((trim line).map plainPunctuation)

end Vibrato.Edit
