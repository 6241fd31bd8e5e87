import Vibrato.Output.Bytes
import Vibrato.Pruning.EditPaths
import Vibrato.Pruning.ReadTarget

/-! The notices that stand in place of pruned outputs. -/

namespace Vibrato.Pruning

open Lib Output Text

def ERROR_DIGEST_MAX_CHARS : Nat := 240

def TAIL_DIGEST_MAX_CHARS : Nat := 160

def PATH_DIGEST_MAX_CHARS : Nat := 120

def DIGEST_TOTAL_MAX_CHARS : Nat := 256

structure CapturedText where
  text : Text
  complete : Bool

variable (message : ToolResultMessage)

def extractToolOutputText : CapturedText :=
  match message.content with
  | .text text => ⟨text, true⟩
  | .parts parts =>
    ⟨joinLines (Agent.partTexts parts), decide (Agent.imageCount parts = 0)⟩

def isControl (c : Char) : Bool :=
  c.toNat ≤ 0x08 || (0x0B ≤ c.toNat && c.toNat ≤ 0x1F) || (0x7F ≤ c.toNat && c.toNat ≤ 0x9F)

def ESC_CHAR : Char := '\x1b'

def sanitizeText (stripANSI : Text → Text) (text : Text) : Text :=
  if !text.any isControl then text
  else
    let stripped := if ESC_CHAR ∈ text then stripANSI text else text
    stripped.filter fun c => !isControl c

variable (text : Text)

def startsWithWord (word : Text) : Bool := startsWith (text.map lowerAscii) word

/-- `/error|failed|exception|panic/i.test(line)`. -/
def namesError (line : Text) : Bool :=
  ["error".toList, "failed".toList, "exception".toList, "panic".toList].any fun word =>
    line.tails.any fun rest => startsWithWord rest word

def firstErrorLine : Option Text :=
  ((splitLinesCrlf text).find? namesError).map trim

def firstNonEmptyLine : Option Text :=
  ((splitLinesCrlf text).find? fun line => !isBlank line).map trim

def lastLine : Option Text :=
  ((splitLinesCrlf (trim text)).filter fun line => !line.isEmpty).getLast?

def lastNonEmptyLine : Option Text := (lastLine text).map trim

def truncateField (value : Text) (maxLength : Nat) : Text :=
  if utf16Length value ≤ maxLength then value
  else if maxLength ≤ 1 then ['…']
  else takeBudget utf16Size (maxLength - 1) value ++ ['…']

/-- `/(\d+)\s+word/i`: the number before a word. -/
def numberBefore (word text : Text) : Option Text :=
  text.tails.findSome? fun rest =>
    let digits := rest.takeWhile isDigit
    let behind := rest.dropWhile isDigit
    if !digits.isEmpty && behind.head?.any isSpace &&
        startsWithWord (behind.dropWhile isSpace) word then some digits
    else none

/-- `/label["']?:\s*(\d+)/i`: the number behind a label. -/
def numberAfter (label text : Text) : Option Text :=
  text.tails.findSome? fun rest =>
    let behind := rest.drop label.length
    let behind := if behind.head?.any (fun c => c = '"' || c = '\'') then behind.tail else behind
    let digits := ((behind.drop 1).dropWhile Text.isSpace).takeWhile Text.isDigit
    if startsWithWord rest label && behind.head? = some ':' && !digits.isEmpty then some digits
    else none

def field (name value : Text) : Text := name ++ '=' :: value

def resultPathHint (call : Option ToolCall) : Option Text :=
  (call.bind toolCallPath).or (readResolvedPath message)

def joinFields (fields : List (Option Text)) : Text := "; ".toList.intercalate (fields.filterMap id)

def bashDigest (errorPart pathPart : Option Text) : Text :=
  let exitCode := match message.details.bind (·.get? "exitCode".toList) with
    | some (.num value) => value.text
    | _ => if message.isError then ['1'] else ['0']
  let tailPart := (lastLine text).map fun tail =>
    field "tail".toList (truncateField tail TAIL_DIGEST_MAX_CHARS)
  joinFields [some (field "exit".toList exitCode), errorPart, pathPart, tailPart]

def searchDigest (errorPart pathPart : Option Text) : Text :=
  let matchCount := (numberBefore "matche".toList text).or (numberAfter "totalmatches".toList text)
  let files := (numberBefore "file".toList text).or (numberAfter "fileswithmatches".toList text)
  let digest := joinFields [errorPart, pathPart, matchCount.map (field "matches".toList),
    files.map (field "files".toList)]
  if digest.isEmpty then "search digest unavailable".toList else digest

section

variable (stripANSI : Text → Text)

def resultDigest (message : ToolResultMessage) (call : Option ToolCall) : Option Text :=
  let toolName := message.toolName.map lowerAscii
  let text := sanitizeText stripANSI (extractToolOutputText message).text
  let error := firstErrorLine text
  let errorPart := error.map fun line =>
    field "error".toList (truncateField line ERROR_DIGEST_MAX_CHARS)
  let pathPart := (resultPathHint message call).map fun path =>
    field "path".toList (truncateField path PATH_DIGEST_MAX_CHARS)
  if toolName = "bash".toList then some (bashDigest message text errorPart pathPart)
  else if toolName = "search".toList ∨ toolName = "grep".toList then
    some (searchDigest text errorPart pathPart)
  else if !message.isError then none
  else if Text.isBlank text then some "error=tool result failed without text".toList
  else if error.isSome then some (joinFields [errorPart, pathPart])
  else
    ((firstNonEmptyLine text).or (lastNonEmptyLine text)).map fun summary =>
      field "summary".toList (truncateField summary ERROR_DIGEST_MAX_CHARS)

/-- The notice for a result of so many tokens, with the place of the full output if it has one. -/
def createPrunedNotice (tokens : Nat) (message : ToolResultMessage) (call : Option ToolCall)
    (artifact : Option Text) : Text :=
  let digest := truncateField ((resultDigest stripANSI message call).getD []) DIGEST_TOTAL_MAX_CHARS
  let head := "[Output truncated - ".toList ++ Text.ofNat tokens ++ " tokens".toList
  match artifact with
  | some artifact =>
    head ++ "; full output: ".toList ++ artifact ++ [']'] ++
      if digest.isEmpty then [] else ' ' :: digest
  | none =>
    if digest.isEmpty then head ++ [']'] else head ++ "; ".toList ++ digest ++ [']']

end

end Vibrato.Pruning
