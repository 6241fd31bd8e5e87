import Vibrato.Session.Entry

/-! The token estimate of `agent/compaction/compaction.ts`. -/

namespace Vibrato.Agent

open Session

def IMAGE_TOKEN_ESTIMATE : Nat := 1200

def isDense (c : Char) : Bool :=
  let n := c.toNat
  (0x1100 ≤ n && n ≤ 0x11ff) || (0x3000 ≤ n && n ≤ 0x303f) || (0x3040 ≤ n && n ≤ 0x30ff) ||
    (0x3130 ≤ n && n ≤ 0x318f) || (0x3400 ≤ n && n ≤ 0x4dbf) || (0x4e00 ≤ n && n ≤ 0x9fff) ||
    (0xac00 ≤ n && n ≤ 0xd7af) || (0xf900 ≤ n && n ≤ 0xfaff) || (0xff00 ≤ n && n ≤ 0xffef) ||
    0x10000 ≤ n

/-- `Math.ceil(dense + otherChars / 4)` over all fragments. -/
def estimateTextTokensHeuristic (fragments : List Text) : Nat :=
  let dense := (fragments.map (·.countP isDense)).sum
  let otherChars := (fragments.map (·.countP (!isDense ·))).sum
  dense + (otherChars + 3) / 4

variable (content : List Ai.Part)

def partTexts : List Text :=
  content.filterMap fun
    | .text text => some text
    | .image .. => none

def imageCount : Nat :=
  content.countP fun
    | .text _ => false
    | .image .. => true

def argText : Ai.ArgValue → Text
  | .str value => Text.jsonQuote value
  | .json value => value

/-- `JSON.stringify(block.arguments)`. -/
def argumentsText (arguments : List (Text × Ai.ArgValue)) : Text :=
  '\x7b' :: [','].intercalate (arguments.map fun (key, value) =>
    Text.jsonQuote key ++ ':' :: argText value) ++ ['\x7d']

def blockFragments : Ai.Block → List Text
  | .text text _ => [text]
  | .thinking thinking _ => [thinking]
  | .redactedThinking _ => []
  | .toolCall call => [call.name, argumentsText call.arguments]

/-- `collectMessageFragments`: the texts of a message, and the tokens of its images. -/
def collectMessageFragments : AgentMessage → List Text × Nat
  | .bashExecution command output => ([command, output], 0)
  | .llm (.user content _) => (partTexts content, 0)
  | .custom _ content _ => (partTexts content, 0)
  | .llm (.assistant message) => (message.content.flatMap blockFragments, 0)
  | .hookMessage _ content => (partTexts content, imageCount content * IMAGE_TOKEN_ESTIMATE)
  | .llm (.toolResult result) =>
    (partTexts result.content, imageCount result.content * IMAGE_TOKEN_ESTIMATE)
  | .branchSummary summary _ => ([summary], 0)
  | .compactionSummary summary _ => ([summary], 0)
  | .llm (.developer ..) => ([], 0)
  | .pythonExecution .. => ([], 0)
  | .fileMention _ => ([], 0)

def estimateMessageTokensHeuristic (message : AgentMessage) : Nat :=
  let (fragments, extra) := collectMessageFragments message
  extra + estimateTextTokensHeuristic fragments

def estimateEntryTokens (entry : SessionEntry) : Nat :=
  ((getMessageFromEntry entry).map fun m => estimateMessageTokensHeuristic m.message).getD 0

end Vibrato.Agent
